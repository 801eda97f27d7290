import Lindenmayer.Options
import Lindenmayer.Proofs.Conversions
import Mathlib.Data.List.Induction

/-!
# Options in any order

There are many ways to write the same options on a command line. A switch has a long
name and perhaps a letter, and letters can share one hyphen. A number stands in the
argument of its option or is the next one. And whatever belongs together may stand
before or after anything else.

So a command line is a list of groups, of one or two arguments each. Between two groups
no option waits for a value, and this is what makes the order irrelevant: a group adds
what it says to what has been split so far, wherever it stands. When all groups have been
taken, what is left is to find that nothing was said twice, and to look up the numbers.
-/

namespace Lindenmayer

/-! ## Ways to write options -/

namespace Switch

def all : List Switch := [actionString, previous, retry, json, debug]

/-- The long name, without its hyphens. -/
def name : Switch → String
  | actionString => "action-str"
  | previous => "previous"
  | retry => "retry"
  | json => "json"
  | debug => "debug"

def letter? : Switch → Option Char
  | actionString => some 'a'
  | previous => some 'p'
  | retry => some 'r'
  | json => some 'j'
  | debug => none

end Switch

namespace Parameter

def letter : Parameter → Char
  | iterations => 'i'
  | stackSize => 's'

/-- The largest number that there is room for. -/
def limit : Parameter → Nat
  | iterations => 2 ^ 32 - 1
  | stackSize => 2 ^ 64 - 1

end Parameter

namespace Options

/-- Some decimal digits, possibly with leading zeros. -/
structure Numeral where
  digits : List Char
  sound : Script.Digits digits

namespace Numeral

def text (n : Numeral) : String := .ofList n.digits

def value (n : Numeral) : Nat := Number.digitsValue n.digits

end Numeral

/-- A switch that has a letter. -/
structure Lettered where
  switch : Switch
  letter : Char
  named : switch.letter? = some letter

/-- The ways to write an option and its number. -/
inductive Form where
  | shortApart
  | shortAttached
  | longApart
  | longAttached

def Form.arguments (parameter : Parameter) (n : Numeral) : Form → List String
  | shortApart => [.ofList ['-', parameter.letter], n.text]
  | shortAttached => [.ofList ('-' :: parameter.letter :: n.digits)]
  | longApart => [.ofList ('-' :: '-' :: parameter.name.toList), n.text]
  | longAttached => [.ofList ('-' :: '-' :: (parameter.name.toList ++ '=' :: n.digits))]

/-- Arguments that belong together. -/
inductive Group where
  | input (name : String)
  /-- Letters behind one hyphen. -/
  | cluster (first : Lettered) (more : List Lettered)
  | long (switch : Switch)
  | value (parameter : Parameter) (form : Form) (n : Numeral)

namespace Group

def arguments : Group → List String
  | input name => [name]
  | cluster first more => [.ofList ('-' :: (first :: more).map (·.letter))]
  | long switch => [.ofList ('-' :: '-' :: switch.name.toList)]
  | value parameter form n => form.arguments parameter n

def input? : Group → Option String
  | input name => some name
  | _ => none

def switches : Group → List Switch
  | cluster first more => (first :: more).map (·.switch)
  | long switch => [switch]
  | _ => []

def given? : Group → Option (Parameter × Numeral)
  | value parameter _ n => some (parameter, n)
  | _ => none

end Group

def spelled (groups : List Group) : List String := groups.flatMap Group.arguments

def inputsIn (groups : List Group) : List String := groups.filterMap Group.input?

def switchesIn (groups : List Group) : List Switch := groups.flatMap Group.switches

def numbersIn (groups : List Group) : List (Parameter × Numeral) := groups.filterMap Group.given?

/-- Naming one input, which does not look like an option, and no option twice. -/
structure Orderly (groups : List Group) (name : String) : Prop where
  input : inputsIn groups = [name]
  plain : name ≠ "" ∧ name.toList.head? ≠ some '-'
  switches : (switchesIn groups).Nodup
  parameters : ((numbersIn groups).map Prod.fst).Nodup

def has (o : Options) : Switch → Bool
  | .actionString => o.actionString
  | .previous => o.previous
  | .retry => o.retry
  | .json => o.json
  | .debug => o.debug

def number (o : Options) : Parameter → Option Nat
  | .iterations => o.iterations.map UInt32.toNat
  | .stackSize => o.stackSize.map UInt64.toNat

/-- Having one group for each option that is set, with a numeral of its number. -/
structure Spells (groups : List Group) (o : Options) : Prop extends Orderly groups o.input where
  set : ∀ switch, switch ∈ switchesIn groups ↔ o.has switch = true
  numbers : ∀ parameter v,
    (∃ n, (parameter, n) ∈ numbersIn groups ∧ n.value = v) ↔ o.number parameter = some v

/-! ## One argument -/

namespace Split

variable {s : Split} {argument : String}

theorem add_plain (hrest : s.rest = false) (h : argument.toList.head? ≠ some '-') :
    s.add argument =
      match s.waiting with
      | some parameter =>
          .ok { s with values := s.values ++ [(parameter, argument)], waiting := none }
      | none => s.addInput argument := by
  rw [add, hrest, if_neg Bool.false_ne_true]
  split
  · next heq => exact absurd (by rw [heq]; rfl) h
  · next heq => exact absurd (by rw [heq]; rfl) h
  · next heq => exact absurd (by rw [heq]; rfl) h
  · rfl

theorem add_cluster (hrest : s.rest = false) {c : Char} {cs : List Char} (hc : c ≠ '-') :
    s.add (.ofList ('-' :: c :: cs)) = s.addCluster (c :: cs) := by
  rw [add, hrest, if_neg Bool.false_ne_true, String.toList_ofList]
  split
  · next heq => exact absurd (by injection heq with _ heq; injection heq) hc
  · next heq => exact absurd (by injection heq with _ heq; injection heq) hc
  · next heq =>
      injection heq with _ heq
      rw [heq]
  · next h => exact absurd rfl (h c cs)

theorem add_long (hrest : s.rest = false) {body : List Char} (hbody : body ≠ []) :
    s.add (.ofList ('-' :: '-' :: body)) = s.addLong body := by
  obtain ⟨c, cs, rfl⟩ := List.exists_cons_of_ne_nil hbody
  rw [add, hrest, if_neg Bool.false_ne_true, String.toList_ofList]
  rfl

theorem addCluster_letters (hwaiting : s.waiting = none) (letters : List Lettered) :
    s.addCluster (letters.map (·.letter)) =
      .ok { s with switches := s.switches ++ letters.map (·.switch) } := by
  induction letters generalizing s with
  | nil => simp [addCluster]
  | cons l letters ih =>
      have hshort : ofShort? l.letter = some (.switch l.switch) := by
        obtain ⟨switch, letter, hnamed⟩ := l
        cases switch <;> cases hnamed <;> rfl
      rw [List.map_cons, addCluster, hshort]
      show (s.addSwitch l.switch).addCluster _ = _
      rw [ih rfl, addSwitch, List.append_assoc, hwaiting]
      rfl

/-- What can stand between two hyphens and an equals sign. -/
def IsName (name : List Char) : Prop := name.head?.any (· ≠ '-') = true ∧ '=' ∉ name

instance (name : List Char) : Decidable (IsName name) :=
  inferInstanceAs (Decidable (_ ∧ _))

theorem IsName.bare {name : List Char} (h : IsName name) (rest : List Char) :
    (name ++ rest).dropWhile (· = '-') = name ++ rest := by
  cases name with
  | nil => cases h.1
  | cons c cs =>
      have hc : c ≠ '-' := of_decide_eq_true h.1
      rw [List.cons_append, List.dropWhile_cons_of_neg (by simpa using hc)]

theorem IsName.ne_nil {name : List Char} (h : IsName name) : name ≠ [] := by
  rintro rfl
  cases h.1

/-- A name ends in front of an equals sign. -/
theorem IsName.takeWhile {name : List Char} (h : IsName name) (rest : List Char)
    (hrest : ∀ c ∈ rest.head?, c = '=') : (name ++ rest).takeWhile (· ≠ '=') = name := by
  have hplain : ∀ d ∈ name, decide (d ≠ '=') = true := by
    intro d hd
    exact decide_eq_true fun heq => h.2 (heq ▸ hd)
  rw [List.takeWhile_append_of_pos hplain]
  cases rest with
  | nil => rw [List.takeWhile_nil, List.append_nil]
  | cons c rest =>
      rw [hrest c rfl, List.takeWhile_cons_of_neg (by simp), List.append_nil]

theorem isName_switch (switch : Switch) : IsName switch.name.toList := by
  cases switch <;> decide

theorem addLong_switch (s : Split) (switch : Switch) :
    s.addLong switch.name.toList = .ok (s.addSwitch switch) := by
  have hname := isName_switch switch
  have hlong : ofLong? switch.name = some (.switch switch) := by cases switch <;> decide
  have hbare := hname.bare []
  have htake := hname.takeWhile [] (by simp)
  rw [List.append_nil] at hbare htake
  simp only [addLong, hbare, htake, String.ofList_toList, hlong]

theorem ofLong?_parameter (parameter : Parameter) :
    ofLong? parameter.name = some (.parameter parameter) := by
  cases parameter <;> decide

theorem isName_parameter (parameter : Parameter) : IsName parameter.name.toList := by
  cases parameter <;> decide

theorem addLong_apart (s : Split) (parameter : Parameter) :
    s.addLong parameter.name.toList = .ok (s.addParameter parameter none) := by
  have hname := isName_parameter parameter
  have hbare := hname.bare []
  have htake := hname.takeWhile [] (by simp)
  rw [List.append_nil] at hbare htake
  simp only [addLong, hbare, htake, String.ofList_toList, ofLong?_parameter, Nat.lt_irrefl,
    if_false]

theorem addLong_attached (s : Split) (parameter : Parameter) (value : List Char) :
    s.addLong (parameter.name.toList ++ '=' :: value) =
      .ok (s.addParameter parameter (some value)) := by
  have hname := isName_parameter parameter
  have hbare := hname.bare ('=' :: value)
  have htake := hname.takeWhile ('=' :: value) (by simp)
  have hlength : parameter.name.toList.length <
      (parameter.name.toList ++ '=' :: value).length := by simp
  have hdrop : (parameter.name.toList ++ '=' :: value).drop (parameter.name.toList.length + 1) =
      value := by
    rw [← List.drop_drop, List.drop_left, List.drop_succ_cons, List.drop_zero]
  simp only [addLong, hbare, htake, String.ofList_toList, ofLong?_parameter, if_pos hlength, hdrop]

end Split

/-! ## One group -/

/-- What the numbersIn groups say, when all of them have been split. -/
def said (groups : List Group) : Split where
  input := (inputsIn groups).head?
  switches := switchesIn groups
  parameters := (numbersIn groups).map Prod.fst
  values := (numbersIn groups).map fun (parameter, n) => (parameter, n.text)

variable {groups : List Group}

theorem said_switches {group : Group} (hinput : group.input? = none) (hgiven : group.given? = none)
    (groups : List Group) :
    said (groups ++ [group]) =
      { said groups with switches := switchesIn groups ++ group.switches } := by
  simp [said, inputsIn, switchesIn, numbersIn, hinput, hgiven]

theorem said_value (parameter : Parameter) (form : Form) (n : Numeral) (groups : List Group) :
    said (groups ++ [.value parameter form n]) =
      { said groups with
        parameters := (said groups).parameters ++ [parameter]
        values := (said groups).values ++ [(parameter, n.text)] } := by
  simp [said, inputsIn, switchesIn, numbersIn, Group.input?, Group.switches, Group.given?]

theorem said_input (name : String) (hinputs : inputsIn groups = []) :
    said (groups ++ [.input name]) = { said groups with input := some name } := by
  have hnone : groups.filterMap Group.input? = [] := hinputs
  simp [said, inputsIn, switchesIn, numbersIn, Group.input?, Group.switches, Group.given?, hnone]

namespace Numeral

theorem head (n : Numeral) : ∃ d ds, n.digits = d :: ds ∧ d.isDigit = true := by
  obtain ⟨digits, hne, hdigits⟩ := n
  obtain ⟨d, ds, rfl⟩ := List.exists_cons_of_ne_nil hne
  exact ⟨d, ds, rfl, hdigits d List.mem_cons_self⟩

/-- A numeral does not look like an option. -/
theorem plain (n : Numeral) : n.text.toList.head? ≠ some '-' := by
  obtain ⟨d, ds, hdigits, hd⟩ := n.head
  rw [text, String.toList_ofList, hdigits]
  intro h
  cases h
  cases hd

/-- There are no equals signs before a numeral. -/
theorem attached (n : Numeral) : String.ofList (n.digits.dropWhile (· = '=')) = n.text := by
  obtain ⟨d, ds, hdigits, hd⟩ := n.head
  have hne : d ≠ '=' := by
    rintro rfl
    cases hd
  rw [text, hdigits, List.dropWhile_cons_of_neg (by simpa using hne)]

end Numeral

namespace Split

variable {s : Split}

/-- The number of an option that waits for it. -/
theorem add_number (hrest : s.rest = false) {parameter : Parameter}
    (hwaiting : s.waiting = some parameter) (n : Numeral) :
    s.add n.text =
      .ok { s with values := s.values ++ [(parameter, n.text)], waiting := none } := by
  rw [add_plain hrest n.plain, hwaiting]

/-- However an option is written, its number ends up with it. -/
theorem add_form (hrest : s.rest = false) (hwaiting : s.waiting = none) (parameter : Parameter)
    (form : Form) (n : Numeral) :
    (form.arguments parameter n).foldlM add s =
      .ok { s with
        parameters := s.parameters ++ [parameter]
        values := s.values ++ [(parameter, n.text)] } := by
  have hshort : ofShort? parameter.letter = some (.parameter parameter) := by
    cases parameter <;> rfl
  have hletter : parameter.letter ≠ '-' := by cases parameter <;> decide
  have hlong : parameter.name.toList ≠ [] := (isName_parameter parameter).ne_nil
  have hapart : [n.text].foldlM add (s.addParameter parameter none) =
      .ok { s with
        parameters := s.parameters ++ [parameter]
        values := s.values ++ [(parameter, n.text)] } := by
    have hwaits : (s.addParameter parameter none).waiting = some parameter := rfl
    rw [List.foldlM_cons, add_number (s := s.addParameter parameter none) hrest hwaits,
      addParameter, hwaiting]
    rfl
  have hattached : s.addParameter parameter (some n.digits) =
      { s with
        parameters := s.parameters ++ [parameter]
        values := s.values ++ [(parameter, n.text)] } := by
    rw [addParameter, n.attached, hwaiting]
  cases form with
  | shortApart =>
      rw [Form.arguments, List.foldlM_cons, add_cluster hrest hletter, addCluster, hshort]
      exact hapart
  | shortAttached =>
      have hdigits : n.digits.isEmpty = false := List.isEmpty_eq_false_iff.2 n.sound.1
      rw [Form.arguments, List.foldlM_cons, add_cluster hrest hletter, addCluster, hshort,
        ← hattached]
      simp only [hdigits]
      rfl
  | longApart =>
      rw [Form.arguments, List.foldlM_cons, add_long hrest hlong, addLong_apart]
      exact hapart
  | longAttached =>
      rw [Form.arguments, List.foldlM_cons, add_long hrest (by simp), addLong_attached, hattached]
      rfl

end Split

/-- A group that is taken after others adds what it says. -/
theorem take_group {group : Group}
    (h : ∀ name, group = .input name → inputsIn groups = [] ∧ name.toList.head? ≠ some '-') :
    group.arguments.foldlM Split.add (said groups) = .ok (said (groups ++ [group])) := by
  cases group with
  | input name =>
      obtain ⟨hinputs, hplain⟩ := h name rfl
      have hnone : (said groups).input = none := by rw [said, hinputs]; rfl
      rw [said_input name hinputs, Group.arguments, List.foldlM_cons, Split.add_plain rfl hplain]
      show (said groups).addInput name >>= _ = _
      rw [Split.addInput, hnone]
      rfl
  | cluster first more =>
      have hletter : first.letter ≠ '-' := by
        obtain ⟨switch, letter, hnamed⟩ := first
        cases switch <;> cases hnamed <;> decide
      rw [said_switches rfl rfl, Group.arguments, List.foldlM_cons, List.map_cons,
        Split.add_cluster rfl hletter, ← List.map_cons, Split.addCluster_letters rfl]
      rfl
  | long switch =>
      rw [said_switches rfl rfl, Group.arguments, List.foldlM_cons,
        Split.add_long rfl (Split.isName_switch switch).ne_nil, Split.addLong_switch]
      rfl
  | value parameter form n =>
      rw [said_value, Group.arguments, Split.add_form rfl rfl]

/-! ## A whole command line -/

theorem inputs_concat (groups : List Group) (group : Group) :
    inputsIn (groups ++ [group]) = inputsIn groups ++ group.input?.toList := by
  rw [inputsIn, List.filterMap_append, ← inputsIn]
  cases group <;> rfl

/-- Whatever came before, a group says the same. So taking all of them leaves what they say. -/
theorem take_groups (hinputs : (inputsIn groups).length ≤ 1)
    (hplain : ∀ name ∈ inputsIn groups, name.toList.head? ≠ some '-') :
    (spelled groups).foldlM Split.add {} = .ok (said groups) := by
  -- From the end, since the arguments in front have been split already.
  induction groups using List.reverseRecOn with
  | nil => rfl
  | append_singleton groups group ih =>
      rw [inputs_concat] at hinputs hplain
      rw [List.length_append] at hinputs
      have hbefore := ih (by omega) fun name hname => hplain name (List.mem_append_left _ hname)
      have hgroup : group.arguments.foldlM Split.add (said groups) =
          .ok (said (groups ++ [group])) := by
        refine take_group ?_
        rintro name rfl
        have hnone : (inputsIn groups).length + 1 ≤ 1 := hinputs
        exact ⟨List.length_eq_zero_iff.1 (by omega), hplain name (by simp [Group.input?])⟩
      rw [spelled, List.flatMap_append, List.foldlM_append, ← spelled, hbefore]
      show ([group].flatMap Group.arguments).foldlM Split.add (said groups) = _
      rw [List.flatMap_singleton, hgroup]

/-! ## What is said as a whole -/

theorem lookup_of_mem {α β : Type} [BEq α] [LawfulBEq α] {pairs : List (α × β)}
    (hkeys : (pairs.map Prod.fst).Nodup) {key : α} {value : β} (h : (key, value) ∈ pairs) :
    pairs.lookup key = some value := by
  obtain ⟨front, rest, rfl⟩ := List.append_of_mem h
  rw [List.map_append, List.map_cons, List.nodup_append] at hkeys
  refine List.lookup_eq_some_iff.2 ⟨front, rest, rfl, fun pair hpair => ?_⟩
  have hne := hkeys.2.2 pair.1 (List.mem_map_of_mem hpair) key List.mem_cons_self
  simpa using hne.symm

theorem mem_of_lookup {α β : Type} [BEq α] [LawfulBEq α] {pairs : List (α × β)} {key : α}
    {value : β} (h : pairs.lookup key = some value) : (key, value) ∈ pairs := by
  obtain ⟨front, rest, rfl, _⟩ := List.lookup_eq_some_iff.1 h
  exact List.mem_append_right front List.mem_cons_self

/-- The number that is given for an option, if any. -/
def numeral? (groups : List Group) (parameter : Parameter) : Option Numeral :=
  (numbersIn groups).lookup parameter

theorem lookup_map_snd {α β γ : Type} [BEq α] (f : β → γ) (pairs : List (α × β)) (key : α) :
    (pairs.map fun (k, value) => (k, f value)).lookup key = (pairs.lookup key).map f := by
  induction pairs with
  | nil => rfl
  | cons pair pairs ih =>
      rw [List.map_cons, List.lookup_cons, List.lookup_cons, ih]
      cases key == pair.1 <;> rfl

theorem lookup_said (groups : List Group) (parameter : Parameter) :
    (said groups).values.lookup parameter = (numeral? groups parameter).map Numeral.text :=
  lookup_map_snd ..

theorem number?_said (groups : List Group) (parameter : Parameter) (limit : Nat) :
    (said groups).number? parameter limit =
      match numeral? groups parameter with
      | none => .ok none
      | some n =>
          if n.value ≤ limit then .ok (some n.value)
          else .error (.invalidValue n.text parameter) := by
  rw [Split.number?, lookup_said]
  cases numeral? groups parameter with
  | none => rfl
  | some n =>
      have hnumber : Number.unsigned? limit n.text =
          if n.value ≤ limit then some n.value else none :=
        Script.unsigned?_of_digits (.digits n.sound) limit
      simp only [Option.map_some, hnumber]
      by_cases hle : n.value ≤ limit
      · simp only [if_pos hle]
      · simp only [if_neg hle]

/-- Nothing is wrong with an orderly command line as a whole. -/
theorem Orderly.check_said {name : String} (h : Orderly groups name) :
    (said groups).check = .ok name := by
  have hinput : (said groups).input = some name := by rw [said, h.input]; rfl
  have hvalues : Parameter.all.any (said groups).lacksValue = false := by
    refine List.any_eq_false.2 fun parameter _ => ?_
    rw [Split.lacksValue, Bool.and_eq_true, not_and, List.contains_iff_mem]
    intro hgiven
    obtain ⟨⟨_, n⟩, hn, hparameter⟩ := List.mem_map.1 hgiven
    cases hparameter
    rw [lookup_said, numeral?, lookup_of_mem h.parameters hn]
    exact Bool.false_ne_true
  have honce : (said groups).switches.Nodup ∧ (said groups).parameters.Nodup :=
    ⟨h.switches, h.parameters⟩
  rw [Split.check, hinput]
  simp only [hvalues, Bool.false_eq_true, if_false, if_pos honce]

/-- An orderly command line is a matter of the two numbers. -/
theorem Orderly.ofArguments_eq {name : String} (h : Orderly groups name) :
    ofArguments (spelled groups) = do
      let iterations ← (said groups).number? .iterations (Parameter.limit .iterations)
      let stackSize ← (said groups).number? .stackSize (Parameter.limit .stackSize)
      return {
        input := name
        iterations := iterations.map UInt32.ofNat
        stackSize := stackSize.map UInt64.ofNat
        actionString := (switchesIn groups).contains .actionString
        previous := (switchesIn groups).contains .previous
        retry := (switchesIn groups).contains .retry
        json := (switchesIn groups).contains .json
        debug := (switchesIn groups).contains .debug } := by
  have htake : (spelled groups).foldlM Split.add {} = .ok (said groups) := by
    refine take_groups (by rw [h.input]; exact Nat.le_refl 1) fun given hgiven => ?_
    rw [h.input, List.mem_singleton] at hgiven
    rw [hgiven]
    exact h.plain.2
  rw [ofArguments, htake]
  show (said groups).check >>= _ = _
  rw [h.check_said]
  rfl

theorem number_le (o : Options) {parameter : Parameter} {v : Nat}
    (h : o.number parameter = some v) : v ≤ parameter.limit := by
  cases parameter with
  | iterations =>
      obtain ⟨x, _, rfl⟩ := Option.map_eq_some_iff.1 h
      exact Nat.le_sub_one_of_lt x.toNat_lt
  | stackSize =>
      obtain ⟨x, _, rfl⟩ := Option.map_eq_some_iff.1 h
      exact Nat.le_sub_one_of_lt x.toNat_lt

namespace Spells

variable {o : Options}

theorem perm {groups' : List Group} (h : Spells groups o) (hperm : groups'.Perm groups) :
    Spells groups' o where
  input := List.perm_singleton.1 (h.input ▸ hperm.filterMap _)
  plain := h.plain
  switches := (hperm.flatMap_right _).nodup_iff.2 h.switches
  parameters := ((hperm.filterMap _).map _).nodup_iff.2 h.parameters
  set switch := by rw [← h.set, switchesIn, (hperm.flatMap_right Group.switches).mem_iff]; rfl
  numbers parameter v := by
    rw [← h.numbers]
    simp only [numbersIn, (hperm.filterMap Group.given?).mem_iff]

theorem value_numeral? (h : Spells groups o) (parameter : Parameter) :
    (numeral? groups parameter).map Numeral.value = o.number parameter := by
  cases hn : numeral? groups parameter with
  | some n => exact ((h.numbers parameter n.value).1 ⟨n, mem_of_lookup hn, rfl⟩).symm
  | none =>
      cases hv : o.number parameter with
      | none => rfl
      | some v =>
          obtain ⟨n, hmem, _⟩ := (h.numbers parameter v).2 hv
          rw [numeral?, lookup_of_mem h.parameters hmem] at hn
          cases hn

theorem number?_said (h : Spells groups o) (parameter : Parameter) :
    (said groups).number? parameter parameter.limit = .ok (o.number parameter) := by
  have hvalue := h.value_numeral? parameter
  rw [Options.number?_said]
  cases hn : numeral? groups parameter with
  | none =>
      rw [hn] at hvalue
      rw [← hvalue]
      rfl
  | some n =>
      rw [hn] at hvalue
      have hle : n.value ≤ parameter.limit := number_le o hvalue.symm
      rw [← hvalue]
      exact if_pos hle

theorem ofArguments_eq_ok (h : Spells groups o) : ofArguments (spelled groups) = .ok o := by
  have hset : ∀ switch, (switchesIn groups).contains switch = o.has switch := by
    intro switch
    rw [Bool.eq_iff_iff, List.contains_iff_mem, h.set]
  have hiterations : (o.number .iterations).map UInt32.ofNat = o.iterations := by
    rw [number, Option.map_map]
    cases o.iterations <;> simp
  have hstackSize : (o.number .stackSize).map UInt64.ofNat = o.stackSize := by
    rw [number, Option.map_map]
    cases o.stackSize <;> simp
  rw [h.toOrderly.ofArguments_eq, h.number?_said, h.number?_said]
  show Except.ok (Options.mk _ _ _ _ _ _ _ _) = _
  simp only [hset, has, hiterations, hstackSize]

end Spells

/-- A number that there is no room for is named as it was written, that of the iterations
before the other one. -/
theorem Orderly.ofArguments_eq_error {name : String} (h : Orderly groups name)
    {parameter : Parameter} {n : Numeral} (hgiven : (parameter, n) ∈ numbersIn groups)
    (hlarge : parameter.limit < n.value)
    (hfirst : parameter = .stackSize →
      ∀ m, (.iterations, m) ∈ numbersIn groups → m.value ≤ Parameter.limit .iterations) :
    ofArguments (spelled groups) = .error (.invalidValue n.text parameter) := by
  have hnumber : (said groups).number? parameter parameter.limit =
      .error (.invalidValue n.text parameter) := by
    rw [number?_said, numeral?, lookup_of_mem h.parameters hgiven]
    exact if_neg (Nat.not_le.2 hlarge)
  rw [h.ofArguments_eq]
  cases parameter with
  | iterations => rw [hnumber]; rfl
  | stackSize =>
      rw [number?_said]
      cases hm : numeral? groups .iterations with
      | none =>
          show (said groups).number? .stackSize _ >>= _ = _
          rw [hnumber]
          rfl
      | some m =>
          have hle := hfirst rfl m (mem_of_lookup hm)
          simp only [if_pos hle]
          show (said groups).number? .stackSize _ >>= _ = _
          rw [hnumber]
          rfl

/-! ## Each option set is spelled by something -/

def Numeral.ofNat (v : Nat) : Numeral where
  digits := Nat.toDigits 10 v
  sound := ⟨Nat.toDigits_ne_nil, fun _ h => Nat.isDigit_of_mem_toDigits (by decide) (by decide) h⟩

theorem Numeral.value_ofNat (v : Nat) : (Numeral.ofNat v).value = v :=
  Nat.ofDigitChars_ten_toDigits

/-- The group of an option with a number. -/
def groupOf? (o : Options) (parameter : Parameter) : Option Group :=
  (o.number parameter).map fun v => .value parameter .longAttached (.ofNat v)

/-- Long names only, with the input in front. -/
def groupsOf (o : Options) : List Group :=
  .input o.input :: ((Switch.all.filter o.has).map .long ++ Parameter.all.filterMap o.groupOf?)

theorem inputsIn_groupsOf (o : Options) : inputsIn o.groupsOf = [o.input] := by
  have hnone : ∀ parameter, (o.groupOf? parameter).bind Group.input? = none := by
    intro parameter
    rw [groupOf?]
    cases o.number parameter <;> rfl
  simp [inputsIn, groupsOf, List.filterMap_append, List.filterMap_filterMap, hnone, Group.input?,
    Function.comp_def]

theorem switchesIn_groupsOf (o : Options) : switchesIn o.groupsOf = Switch.all.filter o.has := by
  have hnone : ∀ group ∈ Parameter.all.filterMap o.groupOf?, group.switches = [] := by
    intro group hgroup
    obtain ⟨parameter, _, hparameter⟩ := List.mem_filterMap.1 hgroup
    obtain ⟨v, _, rfl⟩ := Option.map_eq_some_iff.1 hparameter
    rfl
  rw [switchesIn, groupsOf, List.flatMap_cons, List.flatMap_append,
    List.flatMap_eq_nil_iff.2 hnone, List.flatMap_map]
  simp [Group.switches]

theorem numbersIn_groupsOf (o : Options) :
    numbersIn o.groupsOf = Parameter.all.filterMap fun parameter =>
      (o.number parameter).map fun v => (parameter, .ofNat v) := by
  have hgiven : ∀ parameter, (o.groupOf? parameter).bind Group.given? =
      (o.number parameter).map fun v => (parameter, .ofNat v) := by
    intro parameter
    rw [groupOf?]
    cases o.number parameter <;> rfl
  rw [numbersIn, groupsOf, List.filterMap_cons_none rfl, List.filterMap_append,
    List.filterMap_map, List.filterMap_filterMap]
  simp [hgiven, Group.given?, Function.comp_def]

theorem mem_numbersIn_groupsOf {o : Options} {parameter : Parameter} {n : Numeral} :
    (parameter, n) ∈ numbersIn o.groupsOf ↔
      ∃ v, o.number parameter = some v ∧ .ofNat v = n := by
  have hall : parameter ∈ Parameter.all := by cases parameter <;> decide
  rw [numbersIn_groupsOf, List.mem_filterMap]
  constructor
  · rintro ⟨parameter', _, h⟩
    obtain ⟨v, hv, hpair⟩ := Option.map_eq_some_iff.1 h
    cases hpair
    exact ⟨v, hv, rfl⟩
  · rintro ⟨v, hv, rfl⟩
    exact ⟨parameter, hall, by rw [hv]; rfl⟩

theorem spells_groupsOf {o : Options} (hinput : o.input ≠ "" ∧ o.input.toList.head? ≠ some '-') :
    Spells o.groupsOf o where
  input := o.inputsIn_groupsOf
  plain := hinput
  switches := by
    rw [switchesIn_groupsOf]
    exact List.filter_sublist.nodup (by decide)
  parameters := by
    rw [numbersIn_groupsOf]
    cases hiterations : o.number .iterations <;> cases hstackSize : o.number .stackSize <;>
      simp [Parameter.all, hiterations, hstackSize]
  set switch := by
    rw [switchesIn_groupsOf, List.mem_filter, and_iff_right]
    cases switch <;> decide
  numbers parameter v := by
    simp only [mem_numbersIn_groupsOf]
    constructor
    · rintro ⟨_, ⟨w, hw, rfl⟩, rfl⟩
      rw [hw, Numeral.value_ofNat]
    · intro hv
      exact ⟨_, ⟨v, hv, rfl⟩, Numeral.value_ofNat v⟩

/-- The options of a command line do not depend on how and in which order they are written,
and there is a command line for all options whose input does not look like one itself. A
number that there is no room for is refused with the text that was given for it, and if
there are two such numbers, then it is the one of the iterations. -/
theorem options_in_any_order :
    (∀ (o : Options) (groups groups' : List Group), Spells groups o → groups'.Perm groups →
      ofArguments (spelled groups') = .ok o) ∧
    (∀ o : Options, o.input ≠ "" → o.input.toList.head? ≠ some '-' →
      ∃ groups, Spells groups o) ∧
    ∀ (groups : List Group) (name : String) (parameter : Parameter) (n : Numeral),
      Orderly groups name → (parameter, n) ∈ numbersIn groups → parameter.limit < n.value →
      (parameter = .stackSize →
        ∀ m, (.iterations, m) ∈ numbersIn groups → m.value ≤ Parameter.limit .iterations) →
      ∃ e, ofArguments (spelled groups) = .error e ∧ e = .invalidValue n.text parameter ∧
        e.message? = some s!"error: '{n.text}' is not a valid value for --{parameter.name}" :=
  ⟨fun _ _ _ h hperm => (h.perm hperm).ofArguments_eq_ok,
    fun _ hne hplain => ⟨_, spells_groupsOf ⟨hne, hplain⟩⟩,
    fun _ _ _ _ h hgiven hlarge hfirst =>
      ⟨_, h.ofArguments_eq_error hgiven hlarge hfirst, rfl, rfl⟩⟩

example :
    spelled [.cluster ⟨.json, 'j', rfl⟩ [⟨.retry, 'r', rfl⟩],
      .value .stackSize .shortApart (.ofNat 9),
      .input "square.lsys", .long .debug, .value .iterations .longAttached (.ofNat 4)] =
    ["-jr", "-s", "9", "square.lsys", "--debug", "--iterations=4"] := by
  decide +kernel

end Options

end Lindenmayer
