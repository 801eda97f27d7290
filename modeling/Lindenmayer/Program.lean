import Lindenmayer.Json.Codec
import Lindenmayer.Options
import Lindenmayer.Report
import Lindenmayer.Script.Parser
import Lindenmayer.Sink
import Lindenmayer.Worker

/-!
# The program

The program reads a configuration, has a worker evaluate it and writes the
result. Nothing here touches the world: a file is what reading it gives, output
goes to a `Sink`, and a run ends in an exit status, the bytes of the standard
output and the message of the error that ended it.
-/

namespace Lindenmayer

inductive Failure where
  | read (path : String) (cause : String)
  | parse (detail : String)
  | invalidConfig (error : ConfigError)
  | spawn (cause : String)
  | disconnected
  | unexpectedResponse
  | output (cause : String)
  | json (cause : String)
deriving DecidableEq, Repr

namespace Failure

def message : Failure → String
  | read path cause => s!"failed to read '{path}': {cause}"
  | parse detail => s!"syntax error: {detail}"
  | invalidConfig error => s!"invalid configuration: {error.message}"
  | spawn cause => s!"failed to start the simulator thread: {cause}"
  | disconnected => "the simulator thread has stopped"
  | unexpectedResponse => "the simulator answered with the wrong kind of response"
  | output cause => s!"failed to write output: {cause}"
  | json cause => s!"failed to serialize the result: {cause}"

def ofCallError : CallError → Failure
  | .disconnected => disconnected
  | .unexpectedResponse => unexpectedResponse

end Failure

/-- What an evaluation has written and logged, and whether it failed. -/
structure Evaluation where
  sink : Sink
  log : Log
  outcome : Except Failure Unit

namespace Evaluation

/-- Writes texts. A write that fails ends the evaluation, with the failure that
`failed` makes of its cause. -/
def write (e : Evaluation) (failed : String → Failure) (texts : List String) : Evaluation :=
  match e.outcome with
  | .error _ => e
  | .ok () =>
      match e.sink.writeAll texts with
      | (sink, true) => { e with sink }
      | (sink, false) => { e with sink, outcome := .error (failed Sink.failure) }

/-- Ends the evaluation with a failure, unless it has failed already. -/
def failWith (e : Evaluation) (failure : Failure) : Evaluation :=
  match e.outcome with
  | .error _ => e
  | .ok () => { e with outcome := .error failure }

end Evaluation

namespace Program

/-- Writes a result as JSON or as a report. An invalid configuration is a failure
after that; a bound that was exceeded is not. -/
def writeResult (options : Options) (result : Result) (e : Evaluation) : Evaluation :=
  let written :=
    if options.json then
      (e.write .json [(Json.ofResult result).pretty]).write .output ["\n"]
    else e.write .output (Report.pieces result)
  match result.outcome with
  | .invalidConfig error => written.failWith (.invalidConfig error)
  | _ => written

/-- The record of a second attempt. -/
def retryLog (result : Result) : Log :=
  [⟨.warn, s!"Stack size exceeded in iteration {result.iterations},"
    ++ " retrying with twice the stack size"⟩]

/-- The result that the options ask for: that of a second attempt under twice the
bound if the first one exceeded it and the options say so. -/
def attempt (options : Options) (config : Config) (w : Worker) : Worker.Called Result :=
  match w.exec config with
  | (w, log, .ok result) =>
      if options.retry ∧ result.outcome = .boundExceeded then
        let (w, more, answer) := w.execDoubled config
        (w, log ++ retryLog result ++ more, answer)
      else (w, log, .ok result)
  | failed => failed

/-- Evaluates a configuration with a worker and writes what the options ask for. -/
def evaluateWith (options : Options) (config : Config) (sink : Sink) (log : Log) (w : Worker) :
    Evaluation :=
  if options.actionString then
    match w.actionString config with
    | (_, more, .ok (.ok text)) =>
        let e : Evaluation := { sink, log := log ++ more, outcome := .ok () }
        e.write .output [text, "\n"]
    | (_, more, .ok (.error error)) =>
        { sink, log := log ++ more, outcome := .error (.invalidConfig error) }
    | (_, more, .error error) =>
        { sink, log := log ++ more, outcome := .error (.ofCallError error) }
  else
    match attempt options config w with
    | (_, more, .ok result) =>
        writeResult options result { sink, log := log ++ more, outcome := .ok () }
    | (_, more, .error error) =>
        { sink, log := log ++ more, outcome := .error (.ofCallError error) }

/-- Evaluates a configuration under the given options. The number of iterations in
the options counts for more than that of the configuration; the bound in the
options counts for less. -/
def evaluate (options : Options) (config : Config) (sink : Sink) : Evaluation :=
  let config := { config with iterations := options.iterations.getD config.iterations }
  let w := Worker.spawn { previousGeneration := options.previous }
  match options.stackSize with
  | none => evaluateWith options config sink [] w
  | some size =>
      match w.setBound size with
      | (w, log, .ok ()) => evaluateWith options config sink log w
      | (_, log, .error error) => { sink, log, outcome := .error (.ofCallError error) }

/-- How reading the input ended: with its bytes, or with the system's reason. -/
abbrev Reading := Except String ByteArray

def textOf (reading : Reading) : Except String String := do
  match String.fromUTF8? (← reading) with
  | some text => return text
  | none => throw "stream did not contain valid UTF-8"

/-- The configuration in a file. -/
def load (path : String) (reading : Reading) : Except Failure Config :=
  match textOf reading with
  | .error cause => .error (.read path cause)
  | .ok text =>
      match Script.parse text with
      | .error error => .error (.parse error.message)
      | .ok config => .ok config

/-- Evaluates the configuration in the file that the options name. -/
def run (options : Options) (read : String → Reading) : Evaluation :=
  match load options.input (read options.input) with
  | .error failure => { sink := {}, log := [], outcome := .error failure }
  | .ok config =>
      let e := evaluate options config {}
      let loaded :=
        s!"Loaded {config.definitions.length} literals from '{options.input}'"
      { e with log := ⟨.info, loaded⟩ :: e.log }

/-- What the world sees of a run. -/
structure Exit where
  status : UInt8
  stdout : ByteArray
  /-- The records of the run, the error that ended it last. -/
  log : Log

def Exit.error? (exit : Exit) : Option String :=
  (exit.log.find? (·.level = .error)).map (·.message)

/-- Runs the program under options that were understood. -/
def exit (options : Options) (read : String → Reading) : Exit :=
  let e := run options read
  match e.outcome with
  | .ok () => { status := 0, stdout := e.sink.kept, log := e.log }
  | .error failure =>
      { status := 1, stdout := e.sink.kept, log := e.log ++ [⟨.error, failure.message⟩] }

/-- The exit status for arguments that were not understood. A call for help is
no error. -/
def usageStatus : UsageError → UInt8
  | .helpDisplayed | .versionDisplayed => 0
  | _ => 1

end Program

end Lindenmayer
