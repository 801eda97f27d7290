import Lindenmayer.Proofs.ConfigDocuments
import Lindenmayer.Proofs.Numerals
import Lindenmayer.Proofs.Reading
import Lindenmayer.Proofs.Retention
import Lindenmayer.Proofs.Validity

/-!
# What the text format can say

A configuration may be made in any way, with any character for a letter, a quote among
its actions, a translucent color, flags that mean nothing or a NaN. A text cannot ask for
any of this. The tokens see to the letters, the quotes and the numbers, the rules to the
colors, the flags and the number of definitions, and no setting changes a definition.

So there are only three things left that can be wrong with a configuration from a text.
And as it is without NaNs, it has the same expansion as itself: a simulator that is asked
about it twice compiles it once.
-/

namespace Lindenmayer

namespace Effects

theorem contains_iff {a b : Effects} : a.contains b = true ↔ a.bits &&& b.bits = b.bits :=
  beq_iff_eq (α := UInt8)

theorem contains_union {a b c : Effects} (hb : a.contains b = true) (hc : a.contains c = true) :
    a.contains (b.union c) = true := by
  rw [contains_iff] at hb hc ⊢
  apply UInt8.eq_of_toBitVec_eq
  rw [union, UInt8.toBitVec_and, UInt8.toBitVec_or, BitVec.and_or_distrib_left,
    ← UInt8.toBitVec_and, ← UInt8.toBitVec_and, hb, hc]

/-- The effects that have a word. -/
def known : Effects := .union .paint .move

end Effects

/-- Being a definition that a text can make, whether or not its actions make sense. -/
structure Definition.Textual (d : Definition) : Prop where
  letter : IsLetter d.literal
  unquoted : '"' ∉ d.actions.toList
  solid : d.color.alpha = 255
  effects : Effects.known.contains d.effects = true

/-- Being a configuration that a text can make. -/
structure Config.Textual (config : Config) : Prop where
  nonempty : config.definitions ≠ []
  definitions : ∀ d ∈ config.definitions, d.Textual
  numbers : ∀ x ∈ config.numbers, x.isNaN = false

namespace Script

/-! ## Derivations -/

/-- What is repeated is derived from some of the tokens each time. -/
theorem Star.forall_mem {α : Type} {R : List Lexeme → α → Prop} {P : α → Prop} {ts : List Lexeme}
    {xs : List α} (h : Star R ts xs) (hP : ∀ us x, us ⊆ ts → R us x → P x) : ∀ x ∈ xs, P x := by
  induction h with
  | nil => exact List.forall_mem_nil P
  | cons hx _ ih =>
      refine List.forall_mem_cons.2 ⟨hP _ _ (List.subset_append_left ..) hx, ih ?_⟩
      exact fun us y hus => hP us y (List.Subset.trans hus (List.subset_append_right ..))

theorem FlagRule.known {ts : List Lexeme} {flag : Effects} (h : FlagRule ts flag) :
    Effects.known.contains flag = true := by
  cases h <;> decide

theorem known_foldl_union {flags : List Effects} {start : Effects}
    (hstart : Effects.known.contains start = true)
    (hflags : ∀ flag ∈ flags, Effects.known.contains flag = true) :
    Effects.known.contains (flags.foldl Effects.union start) = true := by
  induction flags generalizing start with
  | nil => exact hstart
  | cons flag flags ih =>
      obtain ⟨hflag, hflags⟩ := List.forall_mem_cons.1 hflags
      exact ih (Effects.contains_union hstart hflag) hflags

theorem solid_of_optional {ts : List Lexeme} {color : Option Color}
    (h : Optional ColorRule ts color) : (color.getD .black).alpha = 255 := by
  cases h with
  | none => rfl
  | some hx =>
      cases hx
      rfl

theorem isLetter_of_matches {c : Char} (h : Terminal.letter.Matches [c]) : IsLetter c := by
  generalize htext : [c] = text at h
  cases h with
  | word h => cases h
  | letter h =>
      cases htext
      exact isUpper_iff.1 h

theorem unquoted_of_matches {body : List Char}
    (h : Terminal.quoted.Matches ('"' :: (body ++ ['"']))) : '"' ∉ body := by
  generalize htext : '"' :: (body ++ ['"']) = text at h
  cases h with
  | word h => cases h
  | quoted h =>
      rw [List.cons_inj_right, List.append_cancel_right_eq] at htext
      exact htext ▸ h

theorem DefinitionRule.textual {ts : List Lexeme} {d : Definition} (h : DefinitionRule ts d)
    (hmatched : ∀ x ∈ ts, x.terminal.Matches x.text) : d.Textual := by
  cases h with
  | intro hcolor hflags =>
      simp only [List.forall_mem_cons] at hmatched
      obtain ⟨hletter, -, hquoted, -⟩ := hmatched
      refine ⟨isLetter_of_matches hletter, ?_, solid_of_optional hcolor, ?_⟩
      · rw [String.toList_ofList]
        exact unquoted_of_matches hquoted
      · exact known_foldl_union (by decide) (hflags.forall_mem fun _ _ _ => FlagRule.known)

/-! ## Settings -/

theorem numbers_apply {config : Config} (h : ∀ x ∈ config.numbers, x.isNaN = false)
    (a : Assignment) : ∀ x ∈ (config.apply a.setting).numbers, x.isNaN = false := by
  obtain ⟨key, numeral⟩ := a
  simp only [Config.numbers, List.forall_mem_cons] at h ⊢
  obtain ⟨hleft, hright, hscaling, hangle, hstep, hnil⟩ := h
  have hnumeral := Number.isNaN_numeralValue numeral
  cases key with
  | turnLeft => exact ⟨hnumeral, hright, hscaling, hangle, hstep, hnil⟩
  | turnRight => exact ⟨hleft, hnumeral, hscaling, hangle, hstep, hnil⟩
  | scaling => exact ⟨hleft, hright, hnumeral, hangle, hstep, hnil⟩
  | startAngle => exact ⟨hleft, hright, hscaling, hnumeral, hstep, hnil⟩
  | step => exact ⟨hleft, hright, hscaling, hangle, hnumeral, hnil⟩
  | iterations | stackSize => exact ⟨hleft, hright, hscaling, hangle, hstep, hnil⟩

theorem definitions_apply (config : Config) (setting : Setting) :
    (config.apply setting).definitions = config.definitions := by
  cases setting <;> rfl

/-- Settings leave the definitions alone and bring no NaN. -/
theorem textual_foldl_apply {config : Config} (h : config.Textual) (settings : List Assignment) :
    ((settings.map Assignment.setting).foldl Config.apply config).Textual := by
  induction settings generalizing config with
  | nil => exact h
  | cons a settings ih =>
      have hdefinitions := definitions_apply config a.setting
      exact ih ⟨hdefinitions ▸ h.nonempty, hdefinitions ▸ h.definitions, numbers_apply h.numbers a⟩

theorem textual_of_parse {text : String} {config : Config} (h : parse text = .ok config) :
    config.Textual := by
  obtain ⟨tokens, settings, definitions, hlexes, hrule, -, rfl⟩ := parse_eq_ok_iff.1 h
  have hmatched := hlexes.matched
  cases hrule with
  | intro hsettings hdefinitions hne =>
      refine textual_foldl_apply ⟨hne, ?_, ?_⟩ settings
      · refine hdefinitions.forall_mem fun us d hus hd => hd.textual fun x hx => ?_
        exact hmatched x (List.mem_append_right _ (hus hx))
      · show ∀ x ∈ Config.numbers {}, x.isNaN = false
        decide

end Script

/-! ## Compiling what a text says -/

theorem Config.firstFault_of_compile {config : Config} {e : ConfigError}
    (he : config.compile = .error e) : FirstFault config.definitions e := by
  obtain hvalid | ⟨e', he'⟩ := valid_or_fault config.definitions
  · obtain ⟨a, ha⟩ := compile_of_valid hvalid
    rw [ha] at he
    cases he
  · rw [compile_of_fault he'] at he
    cases he
    exact he'

namespace Config.Textual

variable {config : Config}

theorem with_iterations (h : config.Textual) (n : UInt32) :
    { config with iterations := n }.Textual :=
  ⟨h.nonempty, h.definitions, h.numbers⟩

/-- There is a definition and its letter is one, so what is wrong is something else. -/
theorem fault_cases (h : config.Textual) {e : ConfigError}
    (hfault : FirstFault config.definitions e) :
    ∃ literal, e = .duplicateLiteral literal ∨
      (∃ symbol, e = .unexpectedLiteral symbol literal) ∨ e = .bracketsMismatch literal := by
  cases hfault with
  | noLiterals hnil => exact absurd hnil h.nonempty
  | @letter before after d e hplace _ hletter =>
      cases hletter with
      | invalid hinvalid =>
          have hmem : d ∈ config.definitions := hplace ▸ List.mem_append_right _ List.mem_cons_self
          exact absurd (h.definitions d hmem).letter hinvalid
      | duplicate => exact ⟨_, .inl rfl⟩
  | actions _ _ _ hactions =>
      cases hactions with
      | unexpected => exact ⟨_, .inr (.inl ⟨_, rfl⟩)⟩
      | brackets => exact ⟨_, .inr (.inr rfl)⟩

theorem sameExpansion_self (h : config.Textual) : config.sameExpansion config = true := by
  have hself : ∀ x ∈ config.numbers, (x == x) = true := fun x hx =>
    (Number.beq_iff_key (h.numbers x hx) (h.numbers x hx)).2 rfl
  simp only [Config.numbers, List.forall_mem_cons] at hself
  obtain ⟨hleft, hright, hscaling, -⟩ := hself
  exact sameExpansion_iff.2 ⟨rfl, rfl, hleft, hright, hscaling⟩

end Config.Textual

namespace Simulator

/-- What serves a configuration is there after a request about it, if it has the same
expansion as itself. -/
theorem sameExpansion_next {s : Simulator} {request : Request} {config : Config}
    (h : request.config? = some config) (hself : config.sameExpansion config = true)
    (hvalid : ∃ a, config.compile = .ok a) : (s.next request).sameExpansion config = true := by
  obtain ⟨a, ha⟩ := hvalid
  rw [next_of_config h]
  obtain ⟨compiled, hcache, hsame, heq⟩ | ⟨-, heq⟩ := alphabetFor_cases s config
  · rw [heq, sameExpansion, hcache]
    exact hsame
  · rw [heq, compileAnew_sameExpansion, served, ha, hself]
    rfl

theorem compileCount_next {s : Simulator} {request : Request} {config : Config}
    (h : request.config? = some config) :
    (s.next request).compileCount =
      s.compileCount + if s.sameExpansion config then 0 else 1 := by
  rw [next_of_config h]
  obtain ⟨compiled, hcache, hsame, heq⟩ | ⟨hmiss, heq⟩ := alphabetFor_cases s config
  · have hhit : s.sameExpansion config = true := by rw [sameExpansion, hcache]; exact hsame
    rw [heq, hhit]
    rfl
  · rw [heq, compileAnew_compileCount, hmiss]
    rfl

theorem compileCount_twice (s : Simulator) {r r' : Request} {config : Config}
    (hr : r.config? = some config) (hr' : r'.config? = some config)
    (hself : config.sameExpansion config = true) (hvalid : ∃ a, config.compile = .ok a) :
    ((s.next r).next r').compileCount ≤ s.compileCount + 1 := by
  rw [compileCount_next hr', sameExpansion_next hr hself hvalid, if_pos rfl, Nat.add_zero,
    compileCount_next hr]
  split <;> omega

end Simulator

namespace Script

/-- A text makes definitions of letters, without quotes in their actions, with solid
colors and with known effects, and it makes no NaN. With any number of iterations, what
it makes is rejected for one of three reasons or not at all, has the same expansion as
itself, and if it is valid is compiled once at most for two requests in a row. -/
theorem parsed_is_textual {text : String} {config : Config} (h : parse text = .ok config) :
    config.Textual ∧
    ∀ n : UInt32, ∀ c : Config, c = { config with iterations := n } →
      (∀ e, c.compile = .error e → ∃ literal, e = .duplicateLiteral literal ∨
        (∃ symbol, e = .unexpectedLiteral symbol literal) ∨ e = .bracketsMismatch literal) ∧
      c.sameExpansion c = true ∧
      ∀ (s : Simulator) (r r' : Request), r.config? = some c → r'.config? = some c →
        (∃ a, c.compile = .ok a) → ((s.next r).next r').compileCount ≤ s.compileCount + 1 := by
  have htextual := textual_of_parse h
  refine ⟨htextual, fun n c hc => ?_⟩
  have hc' : c.Textual := hc ▸ htextual.with_iterations n
  refine ⟨fun e he => hc'.fault_cases (Config.firstFault_of_compile he),
    hc'.sameExpansion_self, fun s r r' hr hr' hvalid => ?_⟩
  exact s.compileCount_twice hr hr' hc'.sameExpansion_self hvalid

/-- A text with a negative zero in it and a flag that is said twice. -/
def bushText : String := "turn_right -0 scaling 0.5 A = \"A[+A]\" #0000ff paint move paint"

/-- What it says. -/
def bush : Config where
  definitions := [⟨'A', "A[+A]", .rgb 0 0 255, .known⟩]
  turnRight := -0
  scaling := 0.5

theorem parsed_is_textual_bush :
    parse bushText = .ok bush ∧ bush.Textual ∧ bush.compile.isOk = true ∧
      ({ bush with iterations := 5 } : Config).sameExpansion { bush with iterations := 5 } = true ∧
      (((Simulator.fresh {}).next (.exec { bush with iterations := 5 })).next
        (.actionString { bush with iterations := 5 })).compileCount ≤ 1 := by
  have hread : parse bushText = .ok bush := by
    rfl
  obtain ⟨htextual, hmore⟩ := parsed_is_textual hread
  obtain ⟨-, hself, hcount⟩ := hmore 5 _ rfl
  refine ⟨hread, htextual, by decide +kernel, hself, hcount _ _ _ rfl rfl ?_⟩
  exact ⟨_, rfl⟩

end Script

end Lindenmayer
