import Lindenmayer.Proofs.Compilation
import Mathlib.Data.List.Induction
import Mathlib.Data.List.Nodup

/-!
# Which configurations compile, and what is wrong with the others

A configuration is valid if it defines a letter, if what it defines are letters of
which no two are the same, and if the actions of each are made of symbols that mean
something, with as many brackets closed as opened.

Where more than one thing is wrong, the one that is reported is the first in this
order: the letters come before all actions, both go by the order of the definitions,
and within the actions of one letter a symbol without a meaning comes before
brackets. So what is wrong with the actions never hides what is wrong with a letter,
and a letter may be used before it is defined.
-/

namespace Lindenmayer

/-- A property that an empty list has either holds of the whole list, or there is a
first place where it is lost. -/
theorem holds_or_breaks {α : Type} {P : List α → Prop} (hnil : P []) (xs : List α) :
    P xs ∨ ∃ before x after, xs = before ++ x :: after ∧ P before ∧ ¬ P (before ++ [x]) := by
  -- From the end, since the front of a list is what has the property.
  induction xs using List.reverseRecOn with
  | nil => exact .inl hnil
  | append_singleton xs y ih =>
      obtain hxs | ⟨before, x, after, rfl, hbefore, hbreak⟩ := ih
      · by_cases hy : P (xs ++ [y])
        · exact .inl hy
        · exact .inr ⟨xs, y, [], rfl, hxs, hy⟩
      · exact .inr ⟨before, x, after ++ [y], by simp, hbefore, hbreak⟩

/-- A property either has every member of a list, or there is a first that has not. -/
theorem forall_or_first_not {α : Type} (P : α → Prop) (xs : List α) :
    (∀ x ∈ xs, P x) ∨
      ∃ before x after, xs = before ++ x :: after ∧ (∀ y ∈ before, P y) ∧ ¬ P x := by
  obtain hall | ⟨before, x, after, hxs, hbefore, hbreak⟩ :=
    holds_or_breaks (P := fun ys => ∀ y ∈ ys, P y) (by simp) xs
  · exact .inl hall
  · refine .inr ⟨before, x, after, hxs, hbefore, fun hx => hbreak ?_⟩
    simpa [or_imp, forall_and] using ⟨hbefore, hx⟩

/-! ## Valid definitions and their faults -/

/-- Being one of the letters from A to Z. -/
def IsLetter (c : Char) : Prop := 'A' ≤ c ∧ c ≤ 'Z'

instance (c : Char) : Decidable (IsLetter c) := inferInstanceAs (Decidable ('A' ≤ c ∧ c ≤ 'Z'))

/-- Being an operator, or a letter that has a definition. -/
def Known (definitions : List Definition) (c : Char) : Prop :=
  c ∈ ['+', '-', '[', ']'] ∨ c ∈ definitions.map (·.literal)

/-- Only letters are defined, and each once. -/
structure LettersSound (definitions : List Definition) : Prop where
  letters : ∀ d ∈ definitions, IsLetter d.literal
  distinct : (definitions.map (·.literal)).Nodup

/-- The actions mean something, next to all the definitions. -/
structure ActionsSound (definitions : List Definition) (d : Definition) : Prop where
  known : ∀ c ∈ d.actions.toList, Known definitions c
  brackets : d.actions.toList.count '[' = d.actions.toList.count ']'

structure Valid (definitions : List Definition) : Prop where
  nonempty : definitions ≠ []
  letters : LettersSound definitions
  actions : ∀ d ∈ definitions, ActionsSound definitions d

/-- What is wrong with the letter of a definition behind the given ones. -/
inductive LetterFault (earlier : List Definition) (d : Definition) : ConfigError → Prop
  | invalid (h : ¬ IsLetter d.literal) : LetterFault earlier d (.invalidLiteral d.literal)
  | duplicate (hletter : IsLetter d.literal) (h : d.literal ∈ earlier.map (·.literal)) :
      LetterFault earlier d (.duplicateLiteral d.literal)

/-- What is wrong with the actions of a definition, next to all the definitions. -/
inductive ActionsFault (definitions : List Definition) (d : Definition) : ConfigError → Prop
  | unexpected {before after : List Char} {c : Char}
      (hplace : d.actions.toList = before ++ c :: after)
      (hbefore : ∀ x ∈ before, Known definitions x) (h : ¬ Known definitions c) :
      ActionsFault definitions d (.unexpectedLiteral c d.literal)
  | brackets (hknown : ∀ c ∈ d.actions.toList, Known definitions c)
      (h : d.actions.toList.count '[' ≠ d.actions.toList.count ']') :
      ActionsFault definitions d (.bracketsMismatch d.literal)

/-- What is wrong with a configuration in the first place. -/
inductive FirstFault (definitions : List Definition) : ConfigError → Prop
  | noLiterals (h : definitions = []) : FirstFault definitions .noLiterals
  | letter {before after : List Definition} {d : Definition} {e : ConfigError}
      (hplace : definitions = before ++ d :: after) (hbefore : LettersSound before)
      (h : LetterFault before d e) : FirstFault definitions e
  | actions {before after : List Definition} {d : Definition} {e : ConfigError}
      (hplace : definitions = before ++ d :: after) (hletters : LettersSound definitions)
      (hbefore : ∀ d' ∈ before, ActionsSound definitions d') (h : ActionsFault definitions d e) :
      FirstFault definitions e

theorem isUpper_iff {c : Char} : c.isUpper = true ↔ IsLetter c :=
  decide_eq_true_iff

theorem lettersSound_nil : LettersSound [] := ⟨by simp, List.nodup_nil⟩

theorem lettersSound_concat {definitions : List Definition} {d : Definition} :
    LettersSound (definitions ++ [d]) ↔
      LettersSound definitions ∧ IsLetter d.literal ∧ d.literal ∉ definitions.map (·.literal) := by
  constructor
  · rintro ⟨hletters, hdistinct⟩
    rw [List.map_append, List.map_singleton, ← List.concat_eq_append,
      List.nodup_concat] at hdistinct
    exact ⟨⟨fun e he => hletters e (List.mem_append_left _ he), hdistinct.2⟩,
      hletters d (by simp), hdistinct.1⟩
  · rintro ⟨⟨hletters, hdistinct⟩, hd, hfresh⟩
    refine ⟨fun e he => ?_, ?_⟩
    · obtain he | he := List.mem_append.1 he
      · exact hletters e he
      · exact List.mem_singleton.1 he ▸ hd
    · rw [List.map_append, List.map_singleton, ← List.concat_eq_append, List.nodup_concat]
      exact ⟨hfresh, hdistinct⟩

theorem LettersSound.append_left {before after : List Definition}
    (h : LettersSound (before ++ after)) : LettersSound before := by
  have hdistinct := h.distinct
  rw [List.map_append] at hdistinct
  exact ⟨fun d hd => h.letters d (List.mem_append_left _ hd), hdistinct.of_append_left⟩

/-- Where sound letters stop being sound, the letter that comes next is at fault. -/
theorem exists_letterFault {definitions : List Definition} {d : Definition}
    (hbefore : LettersSound definitions) (hbreak : ¬ LettersSound (definitions ++ [d])) :
    ∃ e, LetterFault definitions d e := by
  by_cases hletter : IsLetter d.literal
  · by_cases hseen : d.literal ∈ definitions.map (·.literal)
    · exact ⟨_, .duplicate hletter hseen⟩
    · exact absurd (lettersSound_concat.2 ⟨hbefore, hletter, hseen⟩) hbreak
  · exact ⟨_, .invalid hletter⟩

theorem actionsSound_or_fault (definitions : List Definition) (d : Definition) :
    ActionsSound definitions d ∨ ∃ e, ActionsFault definitions d e := by
  obtain hknown | ⟨before, c, after, hplace, hbefore, hc⟩ :=
    forall_or_first_not (Known definitions) d.actions.toList
  · by_cases hbrackets : d.actions.toList.count '[' = d.actions.toList.count ']'
    · exact .inl ⟨hknown, hbrackets⟩
    · exact .inr ⟨_, .brackets hknown hbrackets⟩
  · exact .inr ⟨_, .unexpected hplace hbefore hc⟩

theorem valid_or_fault (definitions : List Definition) :
    Valid definitions ∨ ∃ e, FirstFault definitions e := by
  by_cases hnil : definitions = []
  · exact .inr ⟨_, .noLiterals hnil⟩
  obtain hletters | ⟨before, d, after, hplace, hbefore, hbreak⟩ :=
    holds_or_breaks lettersSound_nil definitions
  · obtain hactions | ⟨before, d, after, hplace, hbefore, hd⟩ :=
      forall_or_first_not (ActionsSound definitions) definitions
    · exact .inl ⟨hnil, hletters, hactions⟩
    · obtain hd' | ⟨e, he⟩ := actionsSound_or_fault definitions d
      · exact absurd hd' hd
      · exact .inr ⟨e, .actions hplace hletters hbefore he⟩
  · obtain ⟨e, he⟩ := exists_letterFault hbefore hbreak
    exact .inr ⟨e, .letter hplace hbefore he⟩

namespace Config

/-! ## The letters -/

/-- The letters that have been seen after the given definitions. -/
def seenAfter (definitions : List Definition) : List Char :=
  (definitions.map (·.literal)).reverse

theorem seenAfter_concat (definitions : List Definition) (d : Definition) :
    seenAfter (definitions ++ [d]) = d.literal :: seenAfter definitions := by
  simp [seenAfter]

theorem contains_seenAfter {definitions : List Definition} {c : Char} :
    (seenAfter definitions).contains c = true ↔ c ∈ definitions.map (·.literal) := by
  rw [List.contains_iff_mem, seenAfter, List.mem_reverse]

theorem checkLiterals_cons_of_sound {done ds : List Definition} {d : Definition}
    (h : LettersSound (done ++ [d])) :
    checkLiterals (seenAfter done) (d :: ds) = checkLiterals (seenAfter (done ++ [d])) ds := by
  obtain ⟨_, hletter, hfresh⟩ := lettersSound_concat.1 h
  rw [checkLiterals, isUpper_iff.2 hletter, if_neg (by simp),
    if_neg fun hseen => hfresh (contains_seenAfter.1 hseen), seenAfter_concat]

theorem checkLiterals_cons_of_fault {done ds : List Definition} {d : Definition} {e : ConfigError}
    (h : LetterFault done d e) : checkLiterals (seenAfter done) (d :: ds) = .error e := by
  cases h with
  | invalid h =>
      have hupper : d.literal.isUpper = false := Bool.eq_false_iff.2 fun hu => h (isUpper_iff.1 hu)
      rw [checkLiterals, hupper, if_pos (by simp)]
  | duplicate hletter h =>
      rw [checkLiterals, isUpper_iff.2 hletter, if_neg (by simp), if_pos (contains_seenAfter.2 h)]

/-- Letters that are sound are passed over. -/
theorem checkLiterals_append (done : List Definition) {before : List Definition}
    (h : LettersSound (done ++ before)) (ds : List Definition) :
    checkLiterals (seenAfter done) (before ++ ds) =
      checkLiterals (seenAfter (done ++ before)) ds := by
  induction before generalizing done with
  | nil => rw [List.nil_append, List.append_nil]
  | cons d before ih =>
      rw [List.append_cons] at h ⊢
      rw [List.cons_append, checkLiterals_cons_of_sound h.append_left, ih _ h]

theorem checkLiterals_of_sound {definitions : List Definition} (h : LettersSound definitions) :
    checkLiterals [] definitions = .ok () := by
  have hrun := checkLiterals_append [] h []
  rwa [List.append_nil] at hrun

theorem checkLiterals_of_fault {before : List Definition} {d : Definition} {e : ConfigError}
    (hbefore : LettersSound before) (h : LetterFault before d e) (after : List Definition) :
    checkLiterals [] (before ++ d :: after) = .error e :=
  (checkLiterals_append [] hbefore _).trans (checkLiterals_cons_of_fault h)

/-! ## The actions -/

theorem resolve_operator (definitions : List Definition) {c : Char}
    (h : c ∈ ['+', '-', '[', ']']) : ∃ id, resolve definitions c = some id := by
  simp only [List.mem_cons, List.not_mem_nil, or_false] at h
  obtain rfl | rfl | rfl | rfl := h <;> exact ⟨_, rfl⟩

/-- Symbols that are known have a name, and no others have. -/
theorem exists_resolve_iff {definitions : List Definition} (h : LettersSound definitions)
    {c : Char} : (∃ id, resolve definitions c = some id) ↔ Known definitions c := by
  constructor
  · rintro ⟨id, hid⟩
    obtain hop | ⟨i, hi, _⟩ := resolve_eq_some hid
    · exact .inl (List.mem_map_of_mem (f := Prod.fst) hop)
    · obtain ⟨hlt, hd, _⟩ := List.findIdx?_eq_some_iff_getElem.1 hi
      exact .inr (List.mem_map.2 ⟨_, List.getElem_mem hlt, by simpa using hd⟩)
  · rintro (hop | hletter)
    · exact resolve_operator definitions hop
    · obtain ⟨d, hd, rfl⟩ := List.mem_map.1 hletter
      have hsome : (definitions.findIdx? (·.literal == d.literal)).isSome := by
        rw [List.findIdx?_isSome]
        exact List.any_eq_true.2 ⟨d, hd, by simp⟩
      obtain ⟨i, hi⟩ := Option.isSome_iff_exists.1 hsome
      rw [resolve_of_isUpper _ (isUpper_iff.2 (h.letters d hd)), hi]
      exact ⟨_, rfl⟩

/-- The depth is the number of brackets opened less the number of those closed. -/
theorem depth_eq_count (symbols : List Char) :
    depth symbols = (symbols.count '[' : Int) - symbols.count ']' := by
  have hrun : ∀ start : Int, symbols.foldl
      (fun d c => if c = '[' then d + 1 else if c = ']' then d - 1 else d) start =
        start + symbols.count '[' - symbols.count ']' := by
    induction symbols with
    | nil => intro start; simp
    | cons c symbols ih =>
        intro start
        rw [List.foldl_cons, ih, List.count_cons, List.count_cons]
        by_cases hopen : c = '['
        · simp [hopen]; omega
        · by_cases hclose : c = ']'
          · simp [hclose]; omega
          · simp [hopen, hclose]
  rw [depth, hrun, Int.zero_add]

theorem depth_eq_zero_iff {symbols : List Char} :
    depth symbols = 0 ↔ symbols.count '[' = symbols.count ']' := by
  rw [depth_eq_count]
  omega

/-- The depth is never more than there are symbols, above zero or below. -/
theorem natAbs_depth_le (symbols : List Char) : (depth symbols).natAbs ≤ symbols.length := by
  have hopen := List.count_le_length (a := '[') (l := symbols)
  have hclose := List.count_le_length (a := ']') (l := symbols)
  rw [depth_eq_count]
  omega

/-- The name of a symbol in the actions of a definition, or the error for want of one. -/
def nameOf (definitions : List Definition) (d : Definition) (c : Char) :
    Except ConfigError SymbolId :=
  match resolve definitions c with
  | some id => .ok id
  | none => .error (.unexpectedLiteral c d.literal)

theorem successorOf_eq (definitions : List Definition) (d : Definition) :
    successorOf definitions d = (do
      let ids ← d.actions.toList.mapM (nameOf definitions d)
      if depth d.actions.toList = 0 then return ids.toArray
      else throw (.bracketsMismatch d.literal)) :=
  rfl

theorem nameOf_of_known {definitions : List Definition} (hletters : LettersSound definitions)
    (d : Definition) {c : Char} (h : Known definitions c) :
    ∃ id, nameOf definitions d c = .ok id := by
  obtain ⟨id, hid⟩ := (exists_resolve_iff hletters).2 h
  exact ⟨id, by rw [nameOf, hid]⟩

theorem nameOf_of_not_known {definitions : List Definition} (hletters : LettersSound definitions)
    (d : Definition) {c : Char} (h : ¬ Known definitions c) :
    nameOf definitions d c = .error (.unexpectedLiteral c d.literal) := by
  have hnone : resolve definitions c = none :=
    Option.eq_none_iff_forall_ne_some.2 fun id hid => h ((exists_resolve_iff hletters).1 ⟨id, hid⟩)
  rw [nameOf, hnone]

theorem successorOf_of_sound {definitions : List Definition} (hletters : LettersSound definitions)
    {d : Definition} (h : ActionsSound definitions d) :
    ∃ word, successorOf definitions d = .ok word := by
  obtain ⟨ids, hids⟩ := exists_mapM_eq_ok fun c hc => nameOf_of_known hletters d (h.known c hc)
  refine ⟨ids.toArray, ?_⟩
  rw [successorOf_eq, hids]
  exact if_pos (depth_eq_zero_iff.2 h.brackets)

theorem successorOf_of_fault {definitions : List Definition} (hletters : LettersSound definitions)
    {d : Definition} {e : ConfigError} (h : ActionsFault definitions d e) :
    successorOf definitions d = .error e := by
  cases h with
  | unexpected hplace hbefore h =>
      rw [successorOf_eq, hplace,
        mapM_eq_error (fun x hx => nameOf_of_known hletters d (hbefore x hx))
          (nameOf_of_not_known hletters d h)]
      rfl
  | brackets hknown h =>
      obtain ⟨ids, hids⟩ := exists_mapM_eq_ok fun c hc => nameOf_of_known hletters d (hknown c hc)
      rw [successorOf_eq, hids]
      exact if_neg fun hdepth => h (depth_eq_zero_iff.1 hdepth)

/-! ## Whole configurations -/

theorem compile_of_valid {config : Config} (h : Valid config.definitions) :
    ∃ a, config.compile = .ok a := by
  obtain ⟨successors, hsuccessors⟩ :=
    exists_mapM_eq_ok fun d hd => successorOf_of_sound h.letters (h.actions d hd)
  have hempty : config.definitions.isEmpty = false := by simpa using h.nonempty
  have hlits : compileLiterals config.definitions =
      .ok (config.definitions.zipWith (literalOf (palette config.definitions)) successors) := by
    rw [compileLiterals, hempty, checkLiterals_of_sound h.letters, hsuccessors]
    rfl
  exact ⟨_, compile_eq_ok_iff.2 ⟨_, hlits, rfl⟩⟩

theorem compile_of_fault {config : Config} {e : ConfigError}
    (h : FirstFault config.definitions e) : config.compile = .error e := by
  have hlits : compileLiterals config.definitions = .error e := by
    rw [compileLiterals]
    cases h with
    | noLiterals h => rw [h]; rfl
    | @letter _ after _ _ hplace hbefore h =>
        have hempty : config.definitions.isEmpty = false := by simp [hplace]
        have hcheck := checkLiterals_of_fault hbefore h after
        rw [← hplace] at hcheck
        rw [hempty, hcheck]
        rfl
    | @actions _ after _ _ hplace hletters hbefore h =>
        have hempty : config.definitions.isEmpty = false := by simp [hplace]
        have hmap := mapM_eq_error (fun d' hd' => successorOf_of_sound hletters (hbefore d' hd'))
          (successorOf_of_fault hletters h) after
        rw [← hplace] at hmap
        rw [hempty, checkLiterals_of_sound hletters, hmap]
        rfl
  rw [compile_eq_map, hlits]
  rfl

theorem valid_of_compile {config : Config} {a : Alphabet} (h : config.compile = .ok a) :
    Valid config.definitions := by
  obtain hvalid | ⟨e, he⟩ := valid_or_fault config.definitions
  · exact hvalid
  · rw [compile_of_fault he] at h
    cases h

/-- The valid configurations compile, and no others. Of the others exactly the first
fault is reported. A text that is not too long has no place where the depth of its
brackets does not fit into 32 bits. -/
theorem compile_verdict (config : Config) :
    ((∃ a, config.compile = .ok a) ↔ Valid config.definitions) ∧
    (∀ e, config.compile = .error e ↔ FirstFault config.definitions e) ∧
    ∀ d ∈ config.definitions, d.actions.length ≤ Int32.maxValue.toInt → ∀ n,
      Int32.minValue.toInt ≤ depth (d.actions.toList.take n) ∧
        depth (d.actions.toList.take n) ≤ Int32.maxValue.toInt := by
  refine ⟨⟨fun ⟨a, ha⟩ => valid_of_compile ha, compile_of_valid⟩,
    fun e => ⟨fun h => ?_, compile_of_fault⟩, fun d _ hlength n => ?_⟩
  · obtain hvalid | ⟨e', he'⟩ := valid_or_fault config.definitions
    · obtain ⟨a, ha⟩ := compile_of_valid hvalid
      rw [ha] at h
      cases h
    · rw [compile_of_fault he'] at h
      cases h
      exact he'
  · have hmin : Int32.minValue.toInt = -2147483648 := by decide
    have hmax : Int32.maxValue.toInt = 2147483647 := by decide
    have hdepth := natAbs_depth_le (d.actions.toList.take n)
    have htake := List.length_take_le' n d.actions.toList
    rw [String.length_toList] at htake
    omega

-- A letter may be used before its definition. That one has two is what is reported, and
-- not what is wrong with the actions.
example : compile ⟨[⟨'A', "B?", ⟨0, 0, 0, 0⟩, .none⟩, ⟨'B', "]", ⟨0, 0, 0, 0⟩, .none⟩,
    ⟨'B', "", ⟨0, 0, 0, 0⟩, .none⟩], 0, 0, 1, 0, 1, 3, none⟩ = .error (.duplicateLiteral 'B') := by
  rfl

end Config

end Lindenmayer
