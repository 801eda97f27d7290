import Lindenmayer.Drawing
import Lindenmayer.Expansion
import Lindenmayer.Log

/-!
# The simulator

A simulator answers requests about configurations one at a time. It compiles a
configuration, expands the start symbol and draws the last generation. The last
compiled alphabet is kept together with the configuration it was compiled from,
and it is used again as long as requests come for configurations with the same
expansion. A configuration that does not compile leaves nothing behind.
-/

namespace Lindenmayer

/-- The bound where nothing else is said. -/
def defaultBound : UInt64 := 10000000

structure Simulator.Settings where
  /-- How long a generation may get if its configuration has no bound of its own. -/
  bound : UInt64 := defaultBound
  /-- Whether the last generation but one is drawn too. -/
  previousGeneration : Bool := false
deriving DecidableEq, Repr, Inhabited

inductive Outcome where
  | ok
  | invalidConfig (error : ConfigError)
  /-- The bound was exceeded; the segments are those of the generation cut short. -/
  | boundExceeded
deriving DecidableEq, Repr

/-- The answer to a request for segments. -/
structure Result where
  outcome : Outcome
  segments : Array Segment := #[]
  previousSegments : Option (Array Segment) := none
  /-- The iteration that was reached. -/
  iterations : Nat := 0
  colors : Array Color := #[]
  bounds : Option Rect := none
  anomalies : Anomalies := .none
deriving DecidableEq, Repr

namespace Result

def invalid (error : ConfigError) : Result := { outcome := .invalidConfig error }

def isOk (r : Result) : Bool := r.outcome = .ok

end Result

inductive Request where
  | exec (config : Config)
  /-- Like `exec`, with twice the bound that would otherwise apply. -/
  | execDoubled (config : Config)
  | actionString (config : Config)
  | setBound (size : UInt64)
deriving DecidableEq, Repr

inductive Response where
  | exec (result : Result)
  | actionString (text : Except ConfigError String)
  | bound (size : UInt64)
deriving Repr

/-- An alphabet and the configuration it was compiled from. -/
structure Compilation where
  config : Config
  alphabet : Alphabet
deriving DecidableEq, Repr

structure Simulator where
  settings : Simulator.Settings
  cache : Option Compilation := none
  /-- How many times a configuration was compiled, or failed to. -/
  compileCount : Nat := 0
deriving DecidableEq, Repr

/-- Twice a bound, as far as 64 bits go. -/
def doubled (bound : UInt64) : UInt64 :=
  if 2 * bound.toNat < UInt64.size then 2 * bound else .ofNat (UInt64.size - 1)

namespace Alphabet

def compileLog (a : Alphabet) (config : Config) : Log :=
  [⟨.debug, s!"Compiled {config.definitions.length} literals into {a.actions.size} actions"
    ++ s!" with {a.colors.size} colors"⟩]

end Alphabet

namespace Expansion

/-- A record for each completed iteration, numbered from one. -/
def iterationLog (e : Expansion) : Log :=
  e.lengths.toList.mapIdx fun i length =>
    ⟨.trace, s!"Iteration {i + 1} produced {length} actions"⟩

/-- The records of an expansion under the given bound. -/
def log (e : Expansion) (iterations bound : Nat) : Log :=
  e.iterationLog ++
    if e.exceeded then
      [⟨.warn, s!"Stack size {bound} exceeded in iteration {e.iterations} of {iterations}"⟩]
    else []

end Expansion

/-- The warning for the first pop on an empty stack of a run. -/
def Drawing.log (d : Drawing) : Log :=
  if d.anomalies.contains .popOnEmptyStack then [⟨.warn, "pop on empty stack"⟩] else []

namespace Simulator

/-- Whether the kept alphabet serves the configuration. -/
def sameExpansion (s : Simulator) (config : Config) : Bool :=
  match s.cache with
  | some compiled => compiled.config.sameExpansion config
  | none => false

def boundFor (s : Simulator) (config : Config) : UInt64 :=
  config.stackSize.getD s.settings.bound

def setBound (s : Simulator) (size : UInt64) : Simulator :=
  { s with settings := { s.settings with bound := size } }

/-- Compiles a configuration and keeps its alphabet, or nothing if it has none. -/
def compileAnew (s : Simulator) (config : Config) :
    Simulator × Except ConfigError Alphabet × Log :=
  let counted := { s with cache := none, compileCount := s.compileCount + 1 }
  match config.compile with
  | .ok alphabet =>
      ({ counted with cache := some ⟨config, alphabet⟩ }, .ok alphabet, alphabet.compileLog config)
  | .error error => (counted, .error error, [])

/-- The alphabet of a configuration: the kept one if it serves, else a new one. -/
def alphabetFor (s : Simulator) (config : Config) :
    Simulator × Except ConfigError Alphabet × Log :=
  match s.cache with
  | some compiled =>
      if compiled.config.sameExpansion config then
        (s, .ok compiled.alphabet, [⟨.trace, "Reusing compiled graph"⟩])
      else s.compileAnew config
  | none => s.compileAnew config

/-- Expands and draws a configuration whose alphabet is known. -/
def render (a : Alphabet) (config : Config) (bound : Nat) (keepPrevious : Bool) : Result × Log :=
  let expansion := a.expand config.iterations.toNat bound keepPrevious
  let drawing := a.draw expansion.word config.startAngle config.stepSize
  let previous := expansion.previous.map (a.draw · config.startAngle config.stepSize)
  let result :=
    { outcome := if expansion.exceeded then .boundExceeded else .ok
      segments := drawing.segments
      previousSegments := previous.map (·.segments)
      iterations := expansion.iterations
      colors := a.colors
      bounds := drawing.bounds
      anomalies := drawing.anomalies }
  let summary :=
    s!"Executed {expansion.word.size} actions into {drawing.segments.size} segments"
      ++ s!" after {expansion.iterations} iterations"
  (result,
    expansion.log config.iterations.toNat bound ++ drawing.log ++
      (previous.map (·.log)).getD [] ++ [⟨.debug, summary⟩])

def execWithin (s : Simulator) (config : Config) (bound : UInt64) : Simulator × Result × Log :=
  let (s', alphabet, log) := s.alphabetFor config
  match alphabet with
  | .ok a =>
      let (result, rendering) := render a config bound.toNat s.settings.previousGeneration
      (s', result, log ++ rendering)
  | .error error =>
      (s', .invalid error, log ++ [⟨.debug, s!"Invalid configuration: {error.message}"⟩])

def exec (s : Simulator) (config : Config) : Simulator × Result × Log :=
  s.execWithin config (s.boundFor config)

def execDoubled (s : Simulator) (config : Config) : Simulator × Result × Log :=
  s.execWithin config (doubled (s.boundFor config))

/-- The last generation spelled out, cut short if the bound was exceeded. -/
def actionString (s : Simulator) (config : Config) :
    Simulator × Except ConfigError String × Log :=
  let bound := (s.boundFor config).toNat
  let (s', alphabet, log) := s.alphabetFor config
  match alphabet with
  | .ok a =>
      let expansion := a.expand config.iterations.toNat bound false
      let cut := if expansion.exceeded then
          [⟨.warn, s!"Action string truncated at iteration {expansion.iterations}"⟩]
        else []
      (s', .ok (a.spell expansion.word), log ++ expansion.log config.iterations.toNat bound ++ cut)
  | .error error => (s', .error error, log)

def process (s : Simulator) : Request → Simulator × Response × Log
  | .exec config =>
      let (s', result, log) := s.exec config
      (s', .exec result, log)
  | .execDoubled config =>
      let (s', result, log) := s.execDoubled config
      (s', .exec result, log)
  | .actionString config =>
      let (s', text, log) := s.actionString config
      (s', .actionString text, log)
  | .setBound size =>
      (s.setBound size, .bound size, [⟨.debug, s!"Max stack size set to {size}"⟩])

end Simulator

end Lindenmayer
