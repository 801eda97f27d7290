import Lindenmayer.Config

/-!
# Settings

A setting has a key, which is the parameter it sets, and making it changes this parameter and
no other. So all that matters of a list of settings is the last one of each key, and what it
leaves unset is as it was before.

For each key a configuration has a setting that would make it what it is. To make a setting is
to replace the one of its key, and this is all there is to say about a step. Everything else
is about lists.
-/

namespace Lindenmayer

namespace Setting

inductive Key where
  | turnLeft
  | turnRight
  | scaling
  | startAngle
  | stepSize
  | iterations
  | stackSize
deriving DecidableEq, Repr

def key : Setting → Key
  | .turnLeft _ => .turnLeft
  | .turnRight _ => .turnRight
  | .scaling _ => .scaling
  | .startAngle _ => .startAngle
  | .stepSize _ => .stepSize
  | .iterations _ => .iterations
  | .stackSize _ => .stackSize

/-- What is set, if it is an angle, a factor or a step. -/
def number? : Setting → Option Float
  | .turnLeft x | .turnRight x | .scaling x | .startAngle x | .stepSize x => some x
  | .iterations _ | .stackSize _ => none

def count? : Setting → Option UInt32
  | .iterations count => some count
  | _ => none

def size? : Setting → Option UInt64
  | .stackSize size => some size
  | _ => none

/-- The settings of one key, in order. -/
def ofKey (key : Key) (settings : List Setting) : List Setting :=
  settings.filter fun s => s.key = key

/-- The last setting of a key. -/
def last? (key : Key) (settings : List Setting) : Option Setting := (ofKey key settings).getLast?

theorem last?_cons (key : Key) (s : Setting) (settings : List Setting) :
    last? key (s :: settings) =
      (last? key settings).or (if s.key = key then some s else none) := by
  rw [last?, last?, ofKey, ofKey, List.filter_cons]
  by_cases hkey : s.key = key
  · rw [if_pos (decide_eq_true hkey), if_pos hkey, List.getLast?_cons]
    cases (settings.filter fun s => s.key = key).getLast? <;> rfl
  · rw [if_neg (mt of_decide_eq_true hkey), if_neg hkey, Option.or_none]

end Setting

namespace Config

open Setting

/-- The setting that would make a parameter what it is. There is none for a bound that is not
set. -/
def setting? (config : Config) : Key → Option Setting
  | .turnLeft => some (.turnLeft config.turnLeft)
  | .turnRight => some (.turnRight config.turnRight)
  | .scaling => some (.scaling config.scaling)
  | .startAngle => some (.startAngle config.startAngle)
  | .stepSize => some (.stepSize config.stepSize)
  | .iterations => some (.iterations config.iterations)
  | .stackSize => config.stackSize.map .stackSize

/-- The configuration with one setting for each key, and the default where there is none. -/
def ofSettings (definitions : List Definition) (chosen? : Key → Option Setting) : Config where
  definitions
  turnLeft := ((chosen? .turnLeft).bind number?).getD 90
  turnRight := ((chosen? .turnRight).bind number?).getD (-90)
  scaling := ((chosen? .scaling).bind number?).getD 1
  startAngle := ((chosen? .startAngle).bind number?).getD 0
  stepSize := ((chosen? .stepSize).bind number?).getD 1
  iterations := ((chosen? .iterations).bind count?).getD 3
  stackSize := (chosen? .stackSize).bind size?

theorem ofSettings_setting? (config : Config) :
    ofSettings config.definitions config.setting? = config := by
  obtain ⟨_, _, _, _, _, _, _, stackSize⟩ := config
  cases stackSize <;> rfl

theorem getD_bind_or {α : Type} (value? : Setting → Option α) (o : Option Setting) {s : Setting}
    {x : α} (hs : value? s = some x) :
    ((o.or (some s)).bind value?).getD x = (o.bind value?).getD x := by
  cases o with
  | none => rw [Option.none_or, Option.bind_some, hs]; rfl
  | some t => rfl

/-- The settings of the default make no difference. -/
theorem ofSettings_or (definitions : List Definition) (chosen? : Key → Option Setting) :
    ofSettings definitions (fun key =>
        (chosen? key).or (({ definitions } : Config).setting? key)) =
      ofSettings definitions chosen? := by
  rw [ofSettings, ofSettings]
  congr 1
  case e_iterations => exact getD_bind_or count? _ rfl
  case e_stackSize => exact congrArg (·.bind size?) (Option.or_none ..)
  all_goals exact getD_bind_or number? _ rfl

/-- To make a setting is to replace the one of its own key. -/
theorem setting?_apply (config : Config) (s : Setting) (key : Key) :
    (config.apply s).setting? key = if s.key = key then some s else config.setting? key := by
  cases s <;> cases key <;> rfl

theorem setting?_foldl (config : Config) (settings : List Setting) (key : Key) :
    (settings.foldl apply config).setting? key = (last? key settings).or (config.setting? key) := by
  induction settings generalizing config with
  | nil => rfl
  | cons s settings ih =>
      rw [List.foldl_cons, ih, setting?_apply, last?_cons, Option.or_assoc]
      split <;> rfl

theorem definitions_foldl (config : Config) (settings : List Setting) :
    (settings.foldl apply config).definitions = config.definitions := by
  induction settings generalizing config with
  | nil => rfl
  | cons s settings ih =>
      rw [List.foldl_cons, ih]
      cases s <;> rfl

theorem ofParts_eq_ofSettings (settings : List Setting) (definitions : List Definition) :
    ofParts settings definitions = ofSettings definitions fun key => last? key settings := by
  rw [← ofSettings_setting? (ofParts settings definitions), ofParts, definitions_foldl,
    ← ofSettings_or definitions fun key => last? key settings]
  congr 1
  funext key
  exact setting?_foldl _ _ _

/-- Of several settings of a parameter the last one counts, and beside this their order does not
matter. Each parameter is what the last setting of its key makes it, or the default if there is
no such setting. So two lists give the same configuration if they agree in these, as they do in
particular if the settings of each key are the same ones in the same order, however they are
mixed with others. Settings behind others are made on top of them. -/
theorem last_setting_wins (settings : List Setting) (definitions : List Definition) :
    ofParts settings definitions =
      { definitions
        turnLeft := ((last? .turnLeft settings).bind number?).getD 90
        turnRight := ((last? .turnRight settings).bind number?).getD (-90)
        scaling := ((last? .scaling settings).bind number?).getD 1
        startAngle := ((last? .startAngle settings).bind number?).getD 0
        stepSize := ((last? .stepSize settings).bind number?).getD 1
        iterations := ((last? .iterations settings).bind count?).getD 3
        stackSize := (last? .stackSize settings).bind size? } ∧
    ∀ others : List Setting,
      ((∀ key, last? key others = last? key settings) →
        ofParts others definitions = ofParts settings definitions) ∧
      ((∀ key, ofKey key others = ofKey key settings) →
        ofParts others definitions = ofParts settings definitions) ∧
      ofParts (settings ++ others) definitions =
        others.foldl apply (ofParts settings definitions) := by
  have hagree : ∀ others, (∀ key, last? key others = last? key settings) →
      ofParts others definitions = ofParts settings definitions := by
    intro others hlast
    rw [ofParts_eq_ofSettings, ofParts_eq_ofSettings, funext hlast]
  refine ⟨ofParts_eq_ofSettings settings definitions, fun others => ⟨hagree others, ?_, ?_⟩⟩
  · intro hsame
    refine hagree others fun key => ?_
    rw [last?, hsame, last?]
  · exact List.foldl_append

example :
    let config := ofParts [.iterations 4, .stackSize 12, .iterations 5] []
    (config.iterations, config.stackSize) = (5, some 12) := by decide

end Config

end Lindenmayer
