/-!
# Sinks

Where output goes: a run of bytes that may be limited. Text that does not fit is
kept as far as it does, and the write fails; nothing is written after that.
-/

namespace Lindenmayer

structure Sink where
  /-- How many bytes there is still room for, if there is a limit. -/
  room : Option Nat := none
  kept : ByteArray := .empty

namespace Sink

/-- The cause of a failed write. -/
def failure : String := "failed to write whole buffer"

/-- Writes a text. The flag says whether all of it was kept. -/
def write (s : Sink) (text : String) : Sink × Bool :=
  let bytes := text.toUTF8
  match s.room with
  | none => ({ s with kept := s.kept ++ bytes }, true)
  | some room =>
      if bytes.size ≤ room then
        ({ room := some (room - bytes.size), kept := s.kept ++ bytes }, true)
      else ({ room := some 0, kept := s.kept ++ bytes.extract 0 room }, false)

/-- Writes texts in order, up to the first that fails. -/
def writeAll (s : Sink) : List String → Sink × Bool
  | [] => (s, true)
  | text :: texts =>
      match s.write text with
      | (s, true) => s.writeAll texts
      | (s, false) => (s, false)

end Sink

end Lindenmayer
