import Lindenmayer.Program

/-!
# The command line

Reads the arguments and the file, shows the log on the standard error stream and
ends with the program's status. Everything that is decided is decided elsewhere.
-/

namespace Lindenmayer

/-- The system's reason for a file that cannot be read. -/
def causeOf : IO.Error → String
  | .noFileOrDirectory _ code details => s!"{details} (os error {code})"
  | .inappropriateType _ code details => s!"{details} (os error {code})"
  | .permissionDenied _ code details => s!"{details} (os error {code})"
  | .invalidArgument _ code details => s!"{details} (os error {code})"
  | error => error.toString

def readFile (path : String) : IO Program.Reading := do
  try
    let handle ← IO.FS.Handle.mk path .read
    return .ok (← handle.readBinToEnd)
  catch error => return .error (causeOf error)

def usageLines : List String :=
  ["Expands an L-system and prints the segments its turtle draws",
    "",
    "Usage: lsystem [OPTIONS] <INPUT>",
    "",
    "  -i, --iterations <COUNT>    Overrides the number of iterations",
    "  -s, --stack-size <ACTIONS>  Sets the maximum length of a generation, unless the file sets one",
    "  -a, --action-str            Prints the expanded action string instead of segments",
    "  -p, --previous              Also computes the segments of the previous generation",
    "  -r, --retry                 Retries with twice the stack size if it was exceeded",
    "  -j, --json                  Prints the result as JSON",
    "      --debug                 Enables debug logging"]

def usage : String := String.join (usageLines.map (· ++ "\n"))

def usageText : UsageError → String
  | .helpDisplayed => usage
  | .versionDisplayed => "lsystem\n"
  | .missingRequiredArgument => "error: no input was given\n\n" ++ usage
  | .emptyValue => "error: an option lacks its value\n\n" ++ usage
  | .unexpectedMultipleUsage => "error: an option was given more than once\n\n" ++ usage
  | .unknownArgument => "error: an argument was not expected\n\n" ++ usage
  | error@(.invalidValue ..) => (error.message?.getD "") ++ "\n"

end Lindenmayer

open Lindenmayer

def main (arguments : List String) : IO UInt32 := do
  match Options.ofArguments arguments with
  | .error error =>
      let status := Program.usageStatus error
      if status = 0 then IO.print (usageText error) else IO.eprint (usageText error)
      return status.toUInt32
  | .ok options =>
      let reading ← readFile options.input
      let exit := Program.exit options fun _ => reading
      let level := if options.debug then Level.debug else .warn
      (← IO.getStdout).write exit.stdout
      (← IO.getStdout).flush
      for record in exit.log.upTo level do
        IO.eprintln s!"[{record.level.name}] {record.message}"
      return exit.status.toUInt32
