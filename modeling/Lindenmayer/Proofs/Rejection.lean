import Lindenmayer.Proofs.Reading
import Lindenmayer.Proofs.Spans
import Lindenmayer.Proofs.Viability
import Mathlib.Data.List.Induction
import Mathlib.Data.List.Infix

/-!
# Where and why a text is rejected

There are two reasons for the parser to stop. A token, or the end of the text, cannot
come where it is. Or a number is too large for its setting. The second reason is
noticed one step late: a number is looked at when what comes next has been accepted,
since only then its setting is finished. So before a step is made, all numbers have
been looked at but one that stands directly before it.

The first of these steps that fails is where the text is rejected. What it depends on is
said here without the parser: which prefixes are viable, and which end with a number
that is too large.
-/

namespace Lindenmayer.Script

/-- A number stands at the end that its setting has no room for. -/
def EndsTooLarge (ts : List Lexeme) : Prop :=
  ∃ (front : List Lexeme) (key : Key) (word numeral : List Char),
    ts = front ++ [⟨key.terminal, word⟩, ⟨.digits, numeral⟩] ∧
      ¬ Assignment.InRange ⟨key, numeral⟩

/-- There is room for every number. -/
def Roomy (ts : List Lexeme) : Prop := ∀ front, front <+: ts → ¬ EndsTooLarge front

theorem not_endsTooLarge_nil : ¬ EndsTooLarge [] := by
  rintro ⟨front, key, word, numeral, heq, _⟩
  simp at heq

theorem roomy_concat_iff {ts : List Lexeme} {x : Lexeme} :
    Roomy (ts ++ [x]) ↔ Roomy ts ∧ ¬ EndsTooLarge (ts ++ [x]) := by
  simp only [Roomy, List.prefix_concat_iff, or_imp, forall_and, forall_eq]
  exact and_comm

theorem roomy_iff_dropLast {ts : List Lexeme} :
    Roomy ts ↔ Roomy ts.dropLast ∧ ¬ EndsTooLarge ts := by
  induction ts using List.reverseRecOn with
  | nil => simp [not_endsTooLarge_nil]
  | append_singleton ts x _ => rw [List.dropLast_concat, roomy_concat_iff]

theorem isWhole_of_not_inRange {a : Assignment} (h : ¬ a.InRange) : a.key.isWhole = true := by
  obtain ⟨key, numeral⟩ := a
  cases key with
  | iterations | stackSize => rfl
  | _ => exact absurd trivial h

/-! ## The number before a place -/

namespace Place

variable {entry : Entry} {place : Place} {x : Lexeme} {ts : List Lexeme}

theorem begun_ne_value (k : Key) (numeral : List Char) : begun x ≠ .value k numeral := by
  intro h
  rw [begun] at h
  split at h <;> cases h

theorem next_eq_value {k : Key} {numeral : List Char} (h : place.next x = .value k numeral) :
    place = .key k ∧ x.text = numeral := by
  cases place with
  | key k' => cases h; exact ⟨rfl, rfl⟩
  | opening | value => exact absurd h (begun_ne_value k numeral)
  | literal | assigned => cases h
  | actions | flags =>
      simp only [next] at h
      split at h
      · cases h
      · split at h
        · cases h
        · exact absurd h (begun_ne_value k numeral)

theorem begun_eq_key {k : Key} (h : begun x = .key k) : x.terminal = k.terminal := by
  rw [begun] at h
  split at h
  · next hkey =>
      cases h
      exact Key.ofTerminal?_eq_some_iff.1 hkey
  · cases h

theorem next_eq_key {k : Key} (h : place.next x = .key k) : x.terminal = k.terminal := by
  cases place with
  | opening | value => exact begun_eq_key h
  | key | literal | assigned => cases h
  | actions | flags =>
      simp only [next] at h
      split at h
      · cases h
      · split at h
        · cases h
        · exact begun_eq_key h

/-- Where the word of a setting is accepted, its number comes next. -/
theorem next_of_key {k : Key} {word : List Char} (h : place.accepts entry k.terminal = true) :
    place.next ⟨k.terminal, word⟩ = .key k := by
  have hbegun : begun ⟨k.terminal, word⟩ = .key k := by
    rw [begun, Key.ofTerminal?_eq_some_iff.2 rfl]
  cases place with
  | opening | value => exact hbegun
  | key k' => cases k <;> cases h
  | literal | assigned => cases k <;> cases h
  | actions | flags => cases k <;> simp [accepts, Key.terminal, flag?, follows] at h

/-- A place behind a number has been reached by its setting. -/
theorem eq_of_after_value {k : Key} {numeral : List Char} (hwalks : Walks entry .opening ts)
    (h : opening.after ts = .value k numeral) :
    ∃ front word t, ts = front ++ [⟨k.terminal, word⟩, ⟨t, numeral⟩] ∧ k.admits t = true := by
  induction ts using List.reverseRecOn with
  | nil => cases h
  | append_singleton ts x _ =>
      rw [walks_concat] at hwalks
      rw [after_concat] at h
      obtain ⟨hkey, rfl⟩ := next_eq_value h
      have hadmits := hwalks.2
      rw [hkey] at hadmits
      induction ts using List.reverseRecOn with
      | nil => cases hkey
      | append_singleton ts y _ =>
          rw [after_concat] at hkey
          have hy := next_eq_key hkey
          exact ⟨ts, y.text, x.terminal, by simp [← hy], hadmits⟩

/-- The number that is still to be looked at is the one that stands last. -/
theorem item_inRange_iff (hwalks : Walks entry .opening ts) :
    (∀ a ∈ (opening.after ts).item.1, a.InRange) ↔ ¬ EndsTooLarge ts := by
  refine ⟨fun h => ?_, fun h a ha => ?_⟩
  · rintro ⟨front, key, word, numeral, rfl, hlarge⟩
    rw [List.append_cons, walks_concat, walks_concat] at hwalks
    have hplace : opening.after (front ++ [⟨key.terminal, word⟩, ⟨.digits, numeral⟩]) =
        .value key numeral := by
      rw [List.append_cons, after_concat, after_concat, next_of_key hwalks.1.2]
      rfl
    rw [hplace] at h
    exact hlarge (h ⟨key, numeral⟩ List.mem_cons_self)
  · by_contra hrange
    cases hplace : opening.after ts with
    | value k numeral =>
        rw [hplace] at ha
        obtain rfl : a = ⟨k, numeral⟩ := List.mem_singleton.1 ha
        obtain ⟨front, word, t, rfl, hadmits⟩ := eq_of_after_value hwalks hplace
        have hwhole : k.isWhole = true := isWhole_of_not_inRange hrange
        have ht : t = .digits := by cases t <;> simp_all [Key.admits]
        exact h ⟨front, k, word, numeral, by rw [ht], hrange⟩
    | _ =>
        rw [hplace] at ha
        cases ha

theorem finished_fst (place : Place) (t : Terminal) : (place.finished t).1 = place.item.1 := by
  cases place with
  | actions d | flags d => simp only [finished]; split <;> rfl
  | _ => rfl

end Place

/-! ## One step -/

theorem Key.setting_eq_error {key : Key} {numeral : List Char} {e : SyntaxError}
    (h : key.setting numeral = .error e) : e = .outOfRange := by
  cases key with
  | iterations | stackSize =>
      simp only [setting] at h
      split at h
      · cases h
      · cases h; rfl
  | _ => cases h

namespace Progress

variable {entry : Entry} {p : Progress} {token : Token} {e : SyntaxError}

theorem settle_eq_error (h : p.settle = .error e) : e = .outOfRange := by
  rw [settle] at h
  split at h
  · next key numeral _ =>
      cases hsetting : key.setting numeral with
      | error e' =>
          rw [hsetting] at h
          cases h
          exact Key.setting_eq_error hsetting
      | ok s =>
          rw [hsetting] at h
          cases h
  all_goals cases h

theorem settle_begin_eq_error (h : (do return (← p.settle).begin token) = .error e) :
    e = .outOfRange := by
  cases hsettle : p.settle with
  | error e' =>
      rw [hsettle] at h
      cases h
      exact settle_eq_error hsettle
  | ok q =>
      rw [hsettle] at h
      cases h

theorem advance_eq_error (h : p.advance token = .error e) : e = .outOfRange := by
  rw [advance] at h
  split at h
  · cases h
  · cases h
  · cases h
  · cases h
  · exact settle_begin_eq_error h
  all_goals
    split at h
    · cases h
    · split at h
      · cases h
      · exact settle_begin_eq_error h

/-- A token is refused where it is not accepted, and else because of the number before. -/
theorem take_eq_error_iff :
    p.take entry token = .error e ↔
      (p.place.accepts entry token.terminal = false ∧
        e = .unrecognizedToken token (p.place.expected entry)) ∨
      (p.place.accepts entry token.terminal = true ∧
        ¬ (∀ a ∈ p.place.item.1, a.InRange) ∧ e = .outOfRange) := by
  cases haccepts : p.place.accepts entry token.terminal with
  | false => simp [take, haccepts, eq_comm]
  | true =>
      have htake : p.take entry token = p.advance token := by rw [take, haccepts, if_pos rfl]
      rw [htake, ← p.place.finished_fst token.terminal]
      simp only [Bool.true_eq_false, false_and, true_and, false_or]
      refine ⟨fun h => ⟨fun hrange => ?_, advance_eq_error h⟩, fun h => ?_⟩
      · rw [advance_eq_ok_iff.2 ⟨hrange, rfl⟩] at h
        cases h
      · obtain ⟨hrange, he⟩ := h
        cases hadvance : p.advance token with
        | error e' => rw [advance_eq_error hadvance, he]
        | ok q => exact absurd (advance_eq_ok_iff.1 hadvance).1 hrange

theorem finish_eq_error_iff {position : Nat} :
    p.finish entry position = .error e ↔
      (p.place.mayEnd entry = false ∧ e = .unrecognizedEnd position (p.place.expected entry)) ∨
      (p.place.mayEnd entry = true ∧ ¬ (∀ a ∈ p.place.item.1, a.InRange) ∧ e = .outOfRange) := by
  cases hend : p.place.mayEnd entry with
  | false => simp [finish, hend, eq_comm]
  | true =>
      have hfinish : p.finish entry position = p.settle := by rw [finish, hend, if_pos rfl]
      simp only [Bool.true_eq_false, false_and, true_and, false_or]
      refine ⟨fun h => ⟨fun hrange => ?_, ?_⟩, fun h => ?_⟩
      · rw [finish_eq_ok_iff.2 ⟨hend, hrange, rfl⟩] at h
        cases h
      · rw [hfinish] at h
        exact settle_eq_error h
      · obtain ⟨hrange, he⟩ := h
        cases hresult : p.finish entry position with
        | error e' =>
            rw [hfinish] at hresult
            rw [settle_eq_error hresult, he]
        | ok q => exact absurd (finish_eq_ok_iff.1 hresult).2.1 hrange

/-! ## The steps up to a token -/

theorem place_of_foldlM {tokens : List Token} {q : Progress}
    (h : tokens.foldlM (take entry) p = .ok q) :
    q.place = p.place.after (tokens.map Token.lexeme) := by
  induction tokens generalizing p with
  | nil => cases h; rfl
  | cons token tokens ih =>
      rw [List.foldlM_cons, bind_eq_ok_iff] at h
      obtain ⟨_, htake, h⟩ := h
      obtain ⟨_, _, rfl⟩ := take_eq_ok_iff.1 htake
      exact ih h

/-- The parser gets past the tokens of a viable prefix if there is room for every number
that another token comes after. -/
theorem exists_foldlM_iff {tokens : List Token}
    (hvalid : ∀ x ∈ tokens.map Token.lexeme, x.terminal.Matches x.text) :
    (∃ q, tokens.foldlM (take entry) {} = .ok q) ↔
      Viable entry (tokens.map Token.lexeme) ∧ Roomy (tokens.map Token.lexeme).dropLast := by
  -- From the end, since a step looks at the number that stands before its token.
  induction tokens using List.reverseRecOn with
  | nil => exact iff_of_true ⟨{}, rfl⟩ ⟨viable_nil entry, by simp [Roomy, not_endsTooLarge_nil]⟩
  | append_singleton tokens token ih =>
      rw [List.map_append, List.map_singleton] at hvalid ⊢
      obtain ⟨hvalid, htoken⟩ := List.forall_mem_append.1 hvalid
      rw [List.forall_mem_singleton] at htoken
      rw [viable_concat_iff hvalid htoken, List.dropLast_concat, roomy_iff_dropLast,
        List.foldlM_append]
      simp only [bind_eq_ok_iff, List.foldlM_cons, List.foldlM_nil, take_eq_ok_iff,
        Place.finished_fst]
      refine ⟨fun h => ?_, fun h => ?_⟩
      · obtain ⟨_, p, hp, _, ⟨haccepts, hrange, _⟩, _⟩ := h
        obtain ⟨hviable, hroomy⟩ := (ih hvalid).1 ⟨p, hp⟩
        rw [place_of_foldlM hp] at haccepts hrange
        exact ⟨⟨hviable, haccepts⟩, hroomy,
          (Place.item_inRange_iff ((viable_iff_walks hvalid).1 hviable)).1 hrange⟩
      · obtain ⟨⟨hviable, haccepts⟩, hroomy, hlarge⟩ := h
        obtain ⟨p, hp⟩ := (ih hvalid).2 ⟨hviable, hroomy⟩
        have hrange := (Place.item_inRange_iff ((viable_iff_walks hvalid).1 hviable)).2 hlarge
        have hplace : p.place = Place.opening.after (tokens.map Token.lexeme) := place_of_foldlM hp
        rw [← hplace] at haccepts hrange
        exact ⟨_, p, hp, _, ⟨haccepts, hrange, rfl⟩, rfl⟩

end Progress

/-! ## Whole texts -/

/-- Why reading stops at a token that comes after the given ones. -/
inductive TokenFault (entry : Entry) (before : List Token) (token : Token) : SyntaxError → Prop
  | unrecognized {expected : List Terminal} (hbefore : Viable entry (before.map Token.lexeme))
      (h : ¬ Viable entry ((before ++ [token]).map Token.lexeme))
      (hnext : ListsNext entry (before.map Token.lexeme) expected) :
      TokenFault entry before token (.unrecognizedToken token expected)
  | outOfRange (h : Viable entry ((before ++ [token]).map Token.lexeme))
      (hlarge : EndsTooLarge (before.map Token.lexeme)) :
      TokenFault entry before token .outOfRange

/-- Why reading stops behind all tokens. -/
inductive EndFault (entry : Entry) (tokens : List Token) : Ending → SyntaxError → Prop
  | invalid {position : Nat} (h : Viable entry (tokens.map Token.lexeme)) :
      EndFault entry tokens (.invalid position) (.invalidToken position)
  | unrecognized {expected : List Terminal} (h : Viable entry (tokens.map Token.lexeme))
      (hincomplete : ¬ Complete entry (tokens.map Token.lexeme))
      (hnext : ListsNext entry (tokens.map Token.lexeme) expected) :
      EndFault entry tokens .complete (.unrecognizedEnd (endOf tokens) expected)
  | outOfRange (h : Complete entry (tokens.map Token.lexeme))
      (hlarge : EndsTooLarge (tokens.map Token.lexeme)) :
      EndFault entry tokens .complete .outOfRange

section

variable {entry : Entry} {tokens : List Token} {ending : Ending} {e : SyntaxError}

theorem TokenFault.viable {before : List Token} {token : Token}
    (h : TokenFault entry before token e) (htoken : token.terminal.Matches token.text) :
    Viable entry (before.map Token.lexeme) := by
  cases h with
  | unrecognized hbefore _ _ => exact hbefore
  | outOfRange h _ =>
      rw [List.map_append] at h
      exact h.of_append (List.forall_mem_singleton.2 htoken)

theorem take_eq_error_iff_fault {before : List Token} {token : Token} {p : Progress}
    (hbefore : ∀ x ∈ before.map Token.lexeme, x.terminal.Matches x.text)
    (htoken : token.terminal.Matches token.text)
    (hviable : Viable entry (before.map Token.lexeme))
    (hp : before.foldlM (Progress.take entry) {} = .ok p) :
    p.take entry token = .error e ↔ TokenFault entry before token e := by
  have hplace : p.place = Place.opening.after (before.map Token.lexeme) :=
    Progress.place_of_foldlM hp
  have hnext := listsNext_expected hbefore hviable
  have hstep : Viable entry ((before ++ [token]).map Token.lexeme) ↔
      p.place.accepts entry token.terminal = true := by
    rw [List.map_append, List.map_singleton, viable_concat_iff hbefore htoken, hplace,
      and_iff_right hviable]
    rfl
  have hrange := Place.item_inRange_iff ((viable_iff_walks hbefore).1 hviable)
  rw [← hplace] at hnext hrange
  rw [Progress.take_eq_error_iff, hrange, not_not]
  refine ⟨fun h => ?_, fun h => ?_⟩
  · obtain ⟨haccepts, rfl⟩ | ⟨haccepts, hlarge, rfl⟩ := h
    · exact .unrecognized hviable (fun h => by simp [hstep.1 h] at haccepts) hnext
    · exact .outOfRange (hstep.2 haccepts) hlarge
  · cases h with
    | unrecognized _ h hnext' =>
        rw [hstep, Bool.not_eq_true] at h
        exact .inl ⟨h, by rw [hnext'.unique hnext]⟩
    | outOfRange h hlarge => exact .inr ⟨hstep.1 h, hlarge, rfl⟩

theorem finish_eq_error_iff_fault {p : Progress}
    (hvalid : ∀ x ∈ tokens.map Token.lexeme, x.terminal.Matches x.text)
    (hviable : Viable entry (tokens.map Token.lexeme))
    (hp : tokens.foldlM (Progress.take entry) {} = .ok p) :
    p.finish entry (endOf tokens) = .error e ↔ EndFault entry tokens .complete e := by
  have hplace : p.place = Place.opening.after (tokens.map Token.lexeme) :=
    Progress.place_of_foldlM hp
  have hnext := listsNext_expected hvalid hviable
  have hcomplete : Complete entry (tokens.map Token.lexeme) ↔ p.place.mayEnd entry = true := by
    rw [complete_iff hvalid, hplace, and_iff_right hviable]
  have hrange := Place.item_inRange_iff ((viable_iff_walks hvalid).1 hviable)
  rw [← hplace] at hnext hrange
  rw [Progress.finish_eq_error_iff, hrange, not_not]
  refine ⟨fun h => ?_, fun h => ?_⟩
  · obtain ⟨hend, rfl⟩ | ⟨hend, hlarge, rfl⟩ := h
    · exact .unrecognized hviable (fun h => by simp [hcomplete.1 h] at hend) hnext
    · exact .outOfRange (hcomplete.2 hend) hlarge
  · cases h with
    | unrecognized _ h hnext' =>
        rw [hcomplete, Bool.not_eq_true] at h
        exact .inl ⟨h, by rw [hnext'.unique hnext]⟩
    | outOfRange h hlarge => exact .inr ⟨hcomplete.1 h, hlarge, rfl⟩

theorem EndFault.viable (hvalid : ∀ x ∈ tokens.map Token.lexeme, x.terminal.Matches x.text)
    (h : EndFault entry tokens ending e) : Viable entry (tokens.map Token.lexeme) := by
  cases h with
  | invalid h | unrecognized h => exact h
  | outOfRange h _ => exact ((complete_iff hvalid).1 h).1

theorem ending_eq_error_iff {p : Progress}
    (hvalid : ∀ x ∈ tokens.map Token.lexeme, x.terminal.Matches x.text)
    (hviable : Viable entry (tokens.map Token.lexeme))
    (hp : tokens.foldlM (Progress.take entry) {} = .ok p) :
    (match ending with
      | .invalid position => throw (SyntaxError.invalidToken position)
      | .complete => p.finish entry (endOf tokens)) = .error e ↔
      EndFault entry tokens ending e := by
  cases ending with
  | complete => exact finish_eq_error_iff_fault hvalid hviable hp
  | invalid position =>
      refine ⟨fun h => ?_, fun h => ?_⟩
      · cases h
        exact .invalid hviable
      · cases h
        rfl

/-- Reading stops at the first token with a fault, or else behind the last one, if there
is room for every number before. -/
theorem readTokens_eq_error_iff
    (hvalid : ∀ token ∈ tokens, token.terminal.Matches token.text) :
    readTokens entry tokens ending = .error e ↔
      (∃ before token after, tokens = before ++ token :: after ∧
        Roomy (before.map Token.lexeme).dropLast ∧ TokenFault entry before token e) ∨
      (Roomy (tokens.map Token.lexeme).dropLast ∧ EndFault entry tokens ending e) := by
  have hlexemes : ∀ x ∈ tokens.map Token.lexeme, x.terminal.Matches x.text :=
    List.forall_mem_map.2 hvalid
  rw [readTokens, bind_eq_error_iff, foldlM_eq_error_iff]
  refine or_congr ⟨fun h => ?_, fun h => ?_⟩ ⟨fun h => ?_, fun h => ?_⟩
  · obtain ⟨before, token, after, p, rfl, hp, htake⟩ := h
    rw [List.map_append, List.forall_mem_append] at hlexemes
    have htoken := hlexemes.2 token.lexeme List.mem_cons_self
    obtain ⟨hviable, hroomy⟩ := (Progress.exists_foldlM_iff hlexemes.1).1 ⟨p, hp⟩
    exact ⟨before, token, after, rfl, hroomy,
      (take_eq_error_iff_fault hlexemes.1 htoken hviable hp).1 htake⟩
  · obtain ⟨before, token, after, rfl, hroomy, hfault⟩ := h
    rw [List.map_append, List.forall_mem_append] at hlexemes
    have htoken := hlexemes.2 token.lexeme List.mem_cons_self
    have hviable := hfault.viable htoken
    obtain ⟨p, hp⟩ := (Progress.exists_foldlM_iff hlexemes.1).2 ⟨hviable, hroomy⟩
    exact ⟨before, token, after, p, rfl, hp,
      (take_eq_error_iff_fault hlexemes.1 htoken hviable hp).2 hfault⟩
  · obtain ⟨p, hp, hend⟩ := h
    obtain ⟨hviable, hroomy⟩ := (Progress.exists_foldlM_iff hlexemes).1 ⟨p, hp⟩
    exact ⟨hroomy, (ending_eq_error_iff hlexemes hviable hp).1 hend⟩
  · obtain ⟨hroomy, hfault⟩ := h
    have hviable := hfault.viable hlexemes
    obtain ⟨p, hp⟩ := (Progress.exists_foldlM_iff hlexemes).2 ⟨hviable, hroomy⟩
    exact ⟨p, hp, (ending_eq_error_iff hlexemes hviable hp).2 hfault⟩

end

/-- The text is rejected with this error. -/
def Rejects : Entry → String → SyntaxError → Prop
  | .config, text, e => parse text = .error e
  | .setting, text, e => parseSetting text = .error e
  | .definition, text, e => parseDefinition text = .error e

/-- A text that is read has the item that it is read for. -/
theorem rejects_iff_read {entry : Entry} {text : String} {e : SyntaxError} :
    Rejects entry text e ↔ read entry text = .error e := by
  cases entry with
  | config =>
      rw [Rejects, parse, bind_eq_error_iff]
      refine or_iff_left ?_
      rintro ⟨p, _, h⟩
      cases h
  | setting =>
      rw [Rejects, parseSetting, bind_eq_error_iff]
      refine or_iff_left ?_
      rintro ⟨p, hp, h⟩
      obtain ⟨_, _, _, _, ⟨_, _, rfl, _⟩, _, rfl⟩ := read_eq_ok_iff.1 hp
      cases h
  | definition =>
      rw [Rejects, parseDefinition, bind_eq_error_iff]
      refine or_iff_left ?_
      rintro ⟨p, hp, h⟩
      obtain ⟨_, _, _, _, ⟨_, _, _, rfl⟩, _, rfl⟩ := read_eq_ok_iff.1 hp
      cases h

/-- Where and why a text with these tokens is rejected. -/
theorem rejects_iff {entry : Entry} {text : String} {tokens : List Token} {ending : Ending}
    (hcuts : Cuts 0 text.toList tokens ending) {e : SyntaxError} :
    Rejects entry text e ↔
      (∃ before token after, tokens = before ++ token :: after ∧
        Roomy (before.map Token.lexeme).dropLast ∧ TokenFault entry before token e) ∨
      (Roomy (tokens.map Token.lexeme).dropLast ∧ EndFault entry tokens ending e) := by
  rw [rejects_iff_read, read, tokenize_eq_iff.2 hcuts]
  exact readTokens_eq_error_iff hcuts.matched

end Lindenmayer.Script
