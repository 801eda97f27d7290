/-!
# Log records

What a computation has to say about its progress is part of its result: a list
of records in the order they were made. Whoever runs it decides which to show.
-/

namespace Lindenmayer

inductive Level where
  | error
  | warn
  | info
  | debug
  | trace
deriving DecidableEq, Repr

namespace Level

def name : Level → String
  | error => "ERROR"
  | warn => "WARN"
  | info => "INFO"
  | debug => "DEBUG"
  | trace => "TRACE"

/-- How much a level says. The most urgent level says least. -/
def verbosity : Level → Nat
  | error => 1
  | warn => 2
  | info => 3
  | debug => 4
  | trace => 5

end Level

structure Record where
  level : Level
  message : String
deriving DecidableEq, Repr

abbrev Log := List Record

/-- The records that a reader interested in `level` and anything more urgent sees. -/
def Log.upTo (log : Log) (level : Level) : Log :=
  log.filter (·.level.verbosity ≤ level.verbosity)

end Lindenmayer
