import Lindenmayer.Number.Layout
import Lindenmayer.Simulator

/-!
# Reports

A short summary of a result for people, line by line.
-/

namespace Lindenmayer

namespace Report

/-- Coordinates never have an exponent, and whole ones have no fraction. -/
def coordinateLayout : Number.Layout where
  tie := .up
  wholeSuffix := ""
  positional _ := true
  nan := "NaN"
  infinity := "inf"
  negativeInfinity := "-inf"

def pointText (p : Point) : String :=
  s!"({coordinateLayout.text p.x}, {coordinateLayout.text p.y})"

/-- How many segments are dots. -/
def dots (segments : Array Segment) : Nat :=
  segments.foldl (fun n s => if s.line.isDot then n + 1 else n) 0

def drawingLines (r : Result) : List String :=
  [s!"iterations: {r.iterations}", s!"segments: {r.segments.size} ({dots r.segments} points)"]
    ++ (r.previousSegments.map fun segments => s!"previous segments: {segments.size}").toList
    ++ (r.bounds.map fun b => s!"bounds: {pointText b.origin} - {pointText b.lowerRight}").toList
    ++ [s!"colors: " ++ ", ".intercalate (r.colors.toList.map Color.toHex)]
    ++ if r.anomalies.isEmpty then [] else [s!"warnings: {r.anomalies.message}"]

/-- The lines of a report, without their line ends. -/
def lines (r : Result) : List String :=
  match r.outcome with
  | .ok => "result: ok" :: drawingLines r
  | .invalidConfig error => [s!"result: invalid configuration: {error.message}"]
  | .boundExceeded => "result: stack size exceeded" :: drawingLines r

def pieces (r : Result) : List String := (lines r).map (· ++ "\n")

end Report

def Result.report (r : Result) : String := String.join (Report.pieces r)

end Lindenmayer
