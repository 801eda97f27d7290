import Lindenmayer.Number.Numeral

/-!
# Command line options

Arguments are texts here, and so is the path of the input. A command line may also have
arguments that are not valid UTF-8; these are left out.

The command line names one input, and options before or after it in any order.

An option is one argument of its own, `--json`, or a letter in a cluster, `-jr`.
Two options have a value. It follows in the same argument, after `=` or right
after the letter, or is the next argument, unless that one looks like an option
itself. After the argument `--` nothing looks like an option any more, and a
single `-` never does.

Arguments are split first, from left to right; an argument that fits nowhere, or
a call for help, ends the splitting. What is missing or given twice is noticed at
the end. Values are turned into numbers last, the iterations first.
-/

namespace Lindenmayer

/-- An option without a value. -/
inductive Switch where
  | actionString
  | previous
  | retry
  | json
  | debug
deriving DecidableEq, Repr

/-- An option with a value. -/
inductive Parameter where
  | iterations
  | stackSize
deriving DecidableEq, Repr

inductive UsageError where
  | helpDisplayed
  | versionDisplayed
  | missingRequiredArgument
  | emptyValue
  | unexpectedMultipleUsage
  | unknownArgument
  | invalidValue (value : String) (parameter : Parameter)
deriving DecidableEq, Repr

namespace Parameter

/-- The long name, without its hyphens. -/
def name : Parameter → String
  | iterations => "iterations"
  | stackSize => "stack-size"

def all : List Parameter := [iterations, stackSize]

end Parameter

/-- The text of an error that quotes what was given. -/
def UsageError.message? : UsageError → Option String
  | invalidValue value parameter =>
      some s!"error: '{value}' is not a valid value for --{parameter.name}"
  | _ => none

structure Options where
  /-- The path of the input. Only a path that is valid UTF-8 is one here. -/
  input : String
  iterations : Option UInt32 := none
  stackSize : Option UInt64 := none
  actionString : Bool := false
  previous : Bool := false
  retry : Bool := false
  json : Bool := false
  debug : Bool := false
deriving DecidableEq, Repr

namespace Options

/-- What an option's name stands for. -/
inductive Named where
  | switch (s : Switch)
  | parameter (p : Parameter)
  | help
  | version
deriving DecidableEq, Repr

def ofShort? : Char → Option Named
  | 'i' => some (.parameter .iterations)
  | 's' => some (.parameter .stackSize)
  | 'a' => some (.switch .actionString)
  | 'p' => some (.switch .previous)
  | 'r' => some (.switch .retry)
  | 'j' => some (.switch .json)
  | 'h' => some .help
  | 'V' => some .version
  | _ => none

def ofLong? : String → Option Named
  | "iterations" => some (.parameter .iterations)
  | "stack-size" => some (.parameter .stackSize)
  | "action-str" => some (.switch .actionString)
  | "previous" => some (.switch .previous)
  | "retry" => some (.switch .retry)
  | "json" => some (.switch .json)
  | "debug" => some (.switch .debug)
  | "help" => some .help
  | "version" => some .version
  | _ => none

/-- The arguments that have been split so far. -/
structure Split where
  input : Option String := none
  /-- Every switch as often as it was given. -/
  switches : List Switch := []
  /-- Every parameter as often as it was given. -/
  parameters : List Parameter := []
  values : List (Parameter × String) := []
  /-- A parameter that was given last, and still without a value. -/
  waiting : Option Parameter := none
  /-- Whether `--` has been seen. -/
  rest : Bool := false
deriving DecidableEq, Repr

namespace Split

def addSwitch (s : Split) (switch : Switch) : Split :=
  { s with switches := s.switches ++ [switch], waiting := none }

/-- Notes a parameter, with the value in the same argument if there is one. Equals
signs before the value are no part of it. -/
def addParameter (s : Split) (parameter : Parameter) (attached : Option (List Char)) : Split :=
  match attached with
  | some value =>
      { s with
        parameters := s.parameters ++ [parameter]
        values := s.values ++ [(parameter, .ofList (value.dropWhile (· = '=')))]
        waiting := none }
  | none => { s with parameters := s.parameters ++ [parameter], waiting := some parameter }

/-- Takes an option with two hyphens. A switch ignores what comes after `=`. -/
def addLong (s : Split) (body : List Char) : Except UsageError Split :=
  let bare := body.dropWhile (· = '-')
  let name := bare.takeWhile (· ≠ '=')
  match ofLong? (.ofList name) with
  | some (.switch switch) => .ok (s.addSwitch switch)
  | some (.parameter parameter) =>
      .ok (s.addParameter parameter
        (if name.length < bare.length then some (bare.drop (name.length + 1)) else none))
  | some .help => .error .helpDisplayed
  | some .version => .error .versionDisplayed
  | none => .error .unknownArgument

/-- Takes a cluster of letters. The first parameter among them has what is left
of the cluster for its value. -/
def addCluster (s : Split) : List Char → Except UsageError Split
  | [] => .ok s
  | c :: cs =>
      match ofShort? c with
      | some (.switch switch) => (s.addSwitch switch).addCluster cs
      | some (.parameter parameter) =>
          .ok (s.addParameter parameter (if cs.isEmpty then none else some cs))
      | some .help => .error .helpDisplayed
      | some .version => .error .versionDisplayed
      | none => .error .unknownArgument

/-- Takes an argument that is no option. -/
def addInput (s : Split) (argument : String) : Except UsageError Split :=
  match s.input with
  | none => .ok { s with input := some argument }
  | some _ => .error .unknownArgument

def add (s : Split) (argument : String) : Except UsageError Split :=
  if s.rest then s.addInput argument
  else
    match argument.toList with
    | ['-', '-'] => .ok { s with rest := true }
    | '-' :: '-' :: body => s.addLong body
    | '-' :: c :: cs => s.addCluster (c :: cs)
    | _ =>
        match s.waiting with
        | some parameter =>
            .ok { s with values := s.values ++ [(parameter, argument)], waiting := none }
        | none => s.addInput argument

/-- Whether a parameter was given and left without a value. -/
def lacksValue (s : Split) (parameter : Parameter) : Bool :=
  s.parameters.contains parameter && (s.values.lookup parameter).isNone

/-- What is wrong with the arguments as a whole, or else the input. -/
def check (s : Split) : Except UsageError String :=
  match s.input with
  | none => .error .missingRequiredArgument
  | some input =>
      if Parameter.all.any s.lacksValue then .error .emptyValue
      else if s.switches.Nodup ∧ s.parameters.Nodup then .ok input
      else .error .unexpectedMultipleUsage

/-- The number given for a parameter, if any. -/
def number? (s : Split) (parameter : Parameter) (limit : Nat) :
    Except UsageError (Option Nat) :=
  match s.values.lookup parameter with
  | none => .ok none
  | some text =>
      match Number.unsigned? limit text with
      | some n => .ok (some n)
      | none => .error (.invalidValue text parameter)

end Split

/-- The options that a list of arguments spells. -/
def ofArguments (arguments : List String) : Except UsageError Options := do
  let s ← arguments.foldlM Split.add {}
  let input ← s.check
  let iterations ← s.number? .iterations (UInt32.size - 1)
  let stackSize ← s.number? .stackSize (UInt64.size - 1)
  return {
    input
    iterations := iterations.map UInt32.ofNat
    stackSize := stackSize.map UInt64.ofNat
    actionString := s.switches.contains .actionString
    previous := s.switches.contains .previous
    retry := s.switches.contains .retry
    json := s.switches.contains .json
    debug := s.switches.contains .debug }

end Options

end Lindenmayer
