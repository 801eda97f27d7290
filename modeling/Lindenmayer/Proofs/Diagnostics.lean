import Lindenmayer.Proofs.Conversions
import Lindenmayer.Proofs.Rejection
import Lindenmayer.Proofs.Substitution

/-!
# What an error says

An error message names a place, and perhaps what could have come there. Both are exact.
The tokens before the place are a viable prefix, and what is at the place makes it one
no longer; the terminals that are listed are those that would not.

A text may have more than one fault. Its tokens are numbered, and its end is one more
event after the last of them. The first event that cannot be accepted is reported,
whatever else is wrong behind it. The only other error is a number that is too large.
It is found one event late, so it is reported if that event is acceptable, and hidden
behind its fault otherwise.
-/

namespace Lindenmayer.Script

/-! ## Faults by number -/

/-- The event with this number can be accepted after the ones before it: a token, or the
end of the text behind the last token. -/
def Acceptable (entry : Entry) (tokens : List Token) (ending : Ending) (i : Nat) : Prop :=
  if i < tokens.length then Viable entry ((tokens.take (i + 1)).map Token.lexeme)
  else ending = .complete ∧ Complete entry (tokens.map Token.lexeme)

/-- The first event that cannot be accepted has this number. -/
structure FirstFault (entry : Entry) (tokens : List Token) (ending : Ending) (j : Nat) :
    Prop where
  fault : ¬ Acceptable entry tokens ending j
  first : ∀ i < j, Acceptable entry tokens ending i

/-- The token with this number is a number that its setting has no room for. -/
def TooLarge (tokens : List Token) (r : Nat) : Prop :=
  r < tokens.length ∧ EndsTooLarge ((tokens.take (r + 1)).map Token.lexeme)

/-- The first number that is too large has this number among the tokens. -/
structure FirstTooLarge (tokens : List Token) (r : Nat) : Prop where
  large : TooLarge tokens r
  first : ∀ i < r, ¬ TooLarge tokens i

/-- The error that the event with this number gives rise to. -/
inductive ErrorAt (entry : Entry) (tokens : List Token) (ending : Ending) (j : Nat) :
    SyntaxError → Prop
  | token {token : Token} {expected : List Terminal} (h : tokens[j]? = some token)
      (hnext : ListsNext entry ((tokens.take j).map Token.lexeme) expected) :
      ErrorAt entry tokens ending j (.unrecognizedToken token expected)
  | complete {expected : List Terminal} (h : j = tokens.length) (hending : ending = .complete)
      (hnext : ListsNext entry (tokens.map Token.lexeme) expected) :
      ErrorAt entry tokens ending j (.unrecognizedEnd (endOf tokens) expected)
  | invalid {position : Nat} (h : j = tokens.length) (hending : ending = .invalid position) :
      ErrorAt entry tokens ending j (.invalidToken position)

section

variable {entry : Entry} {tokens : List Token} {ending : Ending} {j n r : Nat}

theorem acceptable_token (h : j < tokens.length) :
    Acceptable entry tokens ending j ↔
      Viable entry ((tokens.take (j + 1)).map Token.lexeme) := by
  rw [Acceptable, if_pos h]

theorem acceptable_end (h : tokens.length ≤ j) :
    Acceptable entry tokens ending j ↔
      ending = .complete ∧ Complete entry (tokens.map Token.lexeme) := by
  rw [Acceptable, if_neg (Nat.not_lt.2 h)]

/-- All events before one are acceptable if the tokens before it are viable. -/
theorem forall_acceptable_iff (hvalid : ∀ token ∈ tokens, token.terminal.Matches token.text)
    (hn : n ≤ tokens.length) :
    (∀ i < n, Acceptable entry tokens ending i) ↔
      Viable entry ((tokens.take n).map Token.lexeme) := by
  refine ⟨fun h => ?_, fun h i hi => (acceptable_token (Nat.lt_of_lt_of_le hi hn)).2 ?_⟩
  · cases n with
    | zero => exact viable_nil entry
    | succ n => exact (acceptable_token hn).1 (h n (Nat.lt_succ_self n))
  · obtain ⟨rest, hrest⟩ := List.take_prefix_take_left (l := tokens) (Nat.succ_le_of_lt hi)
    rw [← hrest, List.map_append] at h
    refine h.of_append (List.forall_mem_map.2 fun token htoken => hvalid token ?_)
    exact List.mem_of_mem_take (hrest ▸ List.mem_append_right _ htoken)

theorem exists_firstFault (h : ¬ ∀ i < n, Acceptable entry tokens ending i) :
    ∃ j < n, FirstFault entry tokens ending j := by
  obtain ⟨j, hj, hfirst, hfault⟩ := exists_first_not h
  exact ⟨j, hj, hfault, hfirst⟩

theorem forall_acceptable_iff_le :
    (∀ i < n, Acceptable entry tokens ending i) ↔
      ∀ j, FirstFault entry tokens ending j → n ≤ j := by
  refine ⟨fun h j hfault => ?_, fun h => ?_⟩
  · by_contra hlt
    exact hfault.fault (h j (Nat.lt_of_not_le hlt))
  · by_contra hsome
    obtain ⟨j, hj, hfault⟩ := exists_firstFault hsome
    exact Nat.not_le_of_lt hj (h j hfault)

theorem FirstFault.le_length (h : FirstFault entry tokens ending j) : j ≤ tokens.length := by
  by_contra hlt
  have hlt := Nat.lt_of_not_le hlt
  have hend := h.first tokens.length hlt
  rw [acceptable_end (Nat.le_refl _)] at hend
  exact h.fault ((acceptable_end (Nat.le_of_lt hlt)).2 hend)

theorem FirstFault.le {j' : Nat} (h : FirstFault entry tokens ending j)
    (h' : FirstFault entry tokens ending j') : j ≤ j' :=
  Nat.le_of_not_lt fun hlt => h'.fault (h.first j' hlt)

theorem exists_firstTooLarge (h : TooLarge tokens r) : ∃ i ≤ r, FirstTooLarge tokens i := by
  have hsome : ¬ ∀ i < r + 1, ¬ TooLarge tokens i := fun hall => hall r (Nat.lt_succ_self r) h
  obtain ⟨i, hi, hfirst, hlarge⟩ := exists_first_not hsome
  exact ⟨i, Nat.le_of_lt_succ hi, not_not.1 hlarge, hfirst⟩

/-- There is room for the numbers before the last of the first tokens if none of them is
too large. -/
theorem roomy_dropLast_iff (hn : n ≤ tokens.length) :
    Roomy ((tokens.take n).map Token.lexeme).dropLast ↔ ∀ r, r + 1 < n → ¬ TooLarge tokens r := by
  have hdrop : ((tokens.take n).map Token.lexeme).dropLast =
      (tokens.take (n - 1)).map Token.lexeme := by
    rw [List.dropLast_eq_take, List.length_map, List.length_take_of_le hn, ← List.map_take,
      List.take_take, Nat.min_eq_left (Nat.sub_le n 1)]
  rw [hdrop]
  refine ⟨fun h r hr hlarge => h _ ?_ hlarge.2, fun h front hfront hlarge => ?_⟩
  · exact (List.take_prefix_take_left (by omega)).map _
  · have htake := List.prefix_iff_eq_take.1 hfront
    have hle := hfront.length_le
    rw [List.length_map, List.length_take_of_le (by omega)] at hle
    rw [← List.map_take, List.take_take, Nat.min_eq_left hle] at htake
    cases hlength : front.length with
    | zero =>
        rw [List.length_eq_zero_iff.1 hlength] at hlarge
        exact not_endsTooLarge_nil hlarge
    | succ r =>
        rw [hlength] at htake hle
        exact h r (by omega) ⟨by omega, htake ▸ hlarge⟩

/-! ## Errors by number -/

/-- The fault of an event is reported if there is room for the numbers before it. -/
theorem exists_errorAt {text : String} (hcuts : Cuts 0 text.toList tokens ending)
    (hfault : FirstFault entry tokens ending j)
    (hfirst : ∀ r, FirstTooLarge tokens r → j ≤ r + 1) :
    ∃ e, ErrorAt entry tokens ending j e ∧ Rejects entry text e := by
  have hvalid := hcuts.matched
  have hviable := (forall_acceptable_iff hvalid hfault.le_length).1 hfault.first
  -- A number that is too large before this event would have been found by the one before.
  have hroomy : Roomy ((tokens.take j).map Token.lexeme).dropLast := by
    refine (roomy_dropLast_iff hfault.le_length).2 fun r hr hlarge => ?_
    obtain ⟨i, hi, hlarge⟩ := exists_firstTooLarge hlarge
    have := hfirst i hlarge
    omega
  have hfront : ∀ x ∈ (tokens.take j).map Token.lexeme, x.terminal.Matches x.text :=
    List.forall_mem_map.2 fun token htoken => hvalid token (List.mem_of_mem_take htoken)
  have hnext := listsNext_expected hfront hviable
  obtain hlt | rfl := Nat.lt_or_eq_of_le hfault.le_length
  · have hget : tokens[j]? = some tokens[j] := List.getElem?_eq_getElem hlt
    have hmiss := hfault.fault
    rw [acceptable_token hlt, ← List.take_concat_get' tokens j hlt] at hmiss
    refine ⟨_, .token hget hnext, (rejects_iff hcuts).2 (.inl ⟨tokens.take j, tokens[j],
      tokens.drop (j + 1), ?_, hroomy, .unrecognized hviable hmiss hnext⟩)⟩
    rw [List.getElem_cons_drop, List.take_append_drop]
  · rw [List.take_length] at hviable hroomy hnext
    have hmiss := hfault.fault
    rw [acceptable_end (Nat.le_refl _)] at hmiss
    cases ending with
    | invalid position =>
        exact ⟨_, .invalid rfl rfl, (rejects_iff hcuts).2 (.inr ⟨hroomy, .invalid hviable⟩)⟩
    | complete =>
        have hincomplete : ¬ Complete entry (tokens.map Token.lexeme) := fun h => hmiss ⟨rfl, h⟩
        exact ⟨_, .complete rfl rfl hnext,
          (rejects_iff hcuts).2 (.inr ⟨hroomy, .unrecognized hviable hincomplete hnext⟩)⟩

theorem firstTooLarge_iff (hr : r < tokens.length) :
    FirstTooLarge tokens r ↔
      Roomy ((tokens.take (r + 1)).map Token.lexeme).dropLast ∧
        EndsTooLarge ((tokens.take (r + 1)).map Token.lexeme) := by
  rw [roomy_dropLast_iff hr]
  refine ⟨fun h => ⟨fun i hi => h.first i (Nat.lt_of_succ_lt_succ hi), h.large.2⟩, fun h => ?_⟩
  exact ⟨⟨hr, h.2⟩, fun i hi => h.1 i (Nat.succ_lt_succ hi)⟩

theorem exists_firstTooLarge_of_ends (hn : n ≤ tokens.length)
    (hroomy : Roomy ((tokens.take n).map Token.lexeme).dropLast)
    (hends : EndsTooLarge ((tokens.take n).map Token.lexeme)) :
    ∃ r, n = r + 1 ∧ FirstTooLarge tokens r := by
  cases n with
  | zero => exact absurd hends not_endsTooLarge_nil
  | succ r => exact ⟨r, rfl, (firstTooLarge_iff hn).2 ⟨hroomy, hends⟩⟩

theorem take_length_succ (before : List Token) (token : Token) (after : List Token) :
    (before ++ token :: after).take (before.length + 1) = before ++ [token] := by
  rw [List.append_cons, List.take_left' (by simp)]

theorem exists_firstTooLarge_of_rejects {text : String}
    (hcuts : Cuts 0 text.toList tokens ending) (h : Rejects entry text .outOfRange) :
    ∃ r, FirstTooLarge tokens r ∧ ∀ i < r + 2, Acceptable entry tokens ending i := by
  have hvalid := hcuts.matched
  obtain ⟨before, token, after, rfl, hroomy, hfault⟩ | ⟨hroomy, hfault⟩ := (rejects_iff hcuts).1 h
  · cases hfault with
    | outOfRange hviable hlarge =>
        have htake : (before ++ token :: after).take before.length = before := List.take_left
        rw [← htake] at hroomy hlarge
        obtain ⟨r, hr, hfirst⟩ := exists_firstTooLarge_of_ends (by simp) hroomy hlarge
        rw [← take_length_succ before token after, hr] at hviable
        exact ⟨r, hfirst, (forall_acceptable_iff hvalid (by simp; omega)).2 hviable⟩
  · cases hfault with
    | outOfRange hcomplete hlarge =>
        rw [← List.take_length (l := tokens)] at hroomy hlarge
        obtain ⟨r, hr, hfirst⟩ := exists_firstTooLarge_of_ends (Nat.le_refl _) hroomy hlarge
        have hviable := ((complete_iff (List.forall_mem_map.2 hvalid)).1 hcomplete).1
        rw [← List.take_length (l := tokens)] at hviable
        refine ⟨r, hfirst, fun i hi => ?_⟩
        obtain hi | rfl := Nat.lt_succ_iff_lt_or_eq.1 hi
        · exact (forall_acceptable_iff hvalid (Nat.le_refl _)).2 hviable i (hr ▸ hi)
        · exact (acceptable_end (Nat.le_of_eq hr)).2 ⟨rfl, hcomplete⟩

theorem rejects_of_firstTooLarge {text : String} (hcuts : Cuts 0 text.toList tokens ending)
    (hlarge : FirstTooLarge tokens r) (haccept : ∀ i < r + 2, Acceptable entry tokens ending i) :
    Rejects entry text .outOfRange := by
  obtain ⟨hroomy, hends⟩ := (firstTooLarge_iff hlarge.large.1).1 hlarge
  rw [rejects_iff hcuts]
  obtain hlt | hlength := Nat.lt_or_eq_of_le (Nat.succ_le_of_lt hlarge.large.1)
  · have hviable := (forall_acceptable_iff hcuts.matched hlt).1 haccept
    rw [← List.take_concat_get' tokens (r + 1) hlt] at hviable
    refine .inl ⟨tokens.take (r + 1), tokens[r + 1], tokens.drop (r + 2), ?_, hroomy,
      .outOfRange hviable hends⟩
    rw [List.getElem_cons_drop, List.take_append_drop]
  · obtain ⟨rfl, hcomplete⟩ := (acceptable_end (Nat.le_of_eq hlength.symm)).1
      (haccept (r + 1) (Nat.lt_succ_self _))
    rw [List.take_of_length_le (Nat.le_of_eq hlength.symm)] at hroomy hends
    exact .inr ⟨hroomy, .outOfRange hcomplete hends⟩

/-- A number that is too large is reported if the event behind it is acceptable. -/
theorem rejects_outOfRange_iff {text : String} (hcuts : Cuts 0 text.toList tokens ending) :
    Rejects entry text .outOfRange ↔
      ∃ r, FirstTooLarge tokens r ∧ ∀ j, FirstFault entry tokens ending j → r + 1 < j := by
  refine ⟨fun h => ?_, fun h => ?_⟩
  · obtain ⟨r, hlarge, haccept⟩ := exists_firstTooLarge_of_rejects hcuts h
    exact ⟨r, hlarge, forall_acceptable_iff_le.1 haccept⟩
  · obtain ⟨r, hlarge, hfault⟩ := h
    exact rejects_of_firstTooLarge hcuts hlarge (forall_acceptable_iff_le.2 hfault)

theorem exists_firstFault_of_not (h : ¬ Acceptable entry tokens ending n) :
    ∃ j, FirstFault entry tokens ending j := by
  have hsome : ¬ ∀ i < n + 1, Acceptable entry tokens ending i := fun hall =>
    h (hall n (Nat.lt_succ_self n))
  obtain ⟨j, _, hj⟩ := exists_firstFault hsome
  exact ⟨j, hj⟩

/-- All errors but that of a number that is too large come from an event. -/
theorem exists_firstFault_of_rejects {text : String} {e : SyntaxError}
    (hcuts : Cuts 0 text.toList tokens ending) (h : Rejects entry text e) (he : e ≠ .outOfRange) :
    ∃ j, FirstFault entry tokens ending j := by
  obtain ⟨before, token, after, rfl, _, hstop⟩ | ⟨_, hstop⟩ := (rejects_iff hcuts).1 h
  · cases hstop with
    | outOfRange => exact absurd rfl he
    | unrecognized _ hmiss _ =>
        refine exists_firstFault_of_not (n := before.length) fun haccept => hmiss ?_
        rwa [acceptable_token (by simp), take_length_succ] at haccept
  · refine exists_firstFault_of_not (n := tokens.length) fun haccept => ?_
    obtain ⟨hending, hcomplete⟩ := (acceptable_end (Nat.le_refl _)).1 haccept
    cases hstop with
    | invalid => cases hending
    | unrecognized _ hincomplete _ => exact hincomplete hcomplete
    | outOfRange => exact he rfl

/-- A text is rejected if it has a fault or a number that is too large. -/
theorem exists_rejects_iff {text : String} (hcuts : Cuts 0 text.toList tokens ending) :
    (∃ e, Rejects entry text e) ↔
      (∃ j, FirstFault entry tokens ending j) ∨ ∃ r, FirstTooLarge tokens r := by
  refine ⟨fun h => ?_, fun h => ?_⟩
  · obtain ⟨e, h⟩ := h
    by_cases he : e = .outOfRange
    · subst he
      obtain ⟨r, hr, _⟩ := (rejects_outOfRange_iff hcuts).1 h
      exact .inr ⟨r, hr⟩
    · exact .inl (exists_firstFault_of_rejects hcuts h he)
  · by_cases hlate : ∃ r, FirstTooLarge tokens r ∧
        ∀ j, FirstFault entry tokens ending j → r + 1 < j
    · exact ⟨_, (rejects_outOfRange_iff hcuts).2 hlate⟩
    · have hsome : ∃ j, FirstFault entry tokens ending j := by
        by_contra hnone
        obtain ⟨r, hr⟩ := h.resolve_left hnone
        exact hlate ⟨r, hr, fun j hj => absurd ⟨j, hj⟩ hnone⟩
      obtain ⟨j, hj⟩ := hsome
      obtain ⟨e, _, he⟩ := exists_errorAt hcuts hj fun r hr => Nat.le_of_not_lt fun hlt =>
        hlate ⟨r, hr, fun j' hj' => Nat.lt_of_lt_of_le hlt (hj.le hj')⟩
      exact ⟨e, he⟩

end

/-- Where a text is rejected, the tokens before are a viable prefix and what comes there
does not go on with it. The error names that place, and lists what does. -/
theorem diagnoses_first_fault (entry : Entry) (text : String) :
    ∃ tokens ending, Cuts 0 text.toList tokens ending ∧
      (∀ token expected, Rejects entry text (.unrecognizedToken token expected) →
        ∃ before after, tokens = before ++ token :: after ∧
          Viable entry (before.map Token.lexeme) ∧
          ¬ Viable entry ((before ++ [token]).map Token.lexeme) ∧
          ListsNext entry (before.map Token.lexeme) expected ∧
          ∃ front back, text.toList = front ++ (token.text ++ back) ∧
            token.start = Text.byteLength front ∧
            token.stop = Text.byteLength (front ++ token.text)) ∧
      (∀ position expected, Rejects entry text (.unrecognizedEnd position expected) →
        ending = .complete ∧ Viable entry (tokens.map Token.lexeme) ∧
          ¬ Complete entry (tokens.map Token.lexeme) ∧
          ListsNext entry (tokens.map Token.lexeme) expected ∧
          position = (tokens.getLast?.map Token.stop).getD 0) ∧
      ∀ position, Rejects entry text (.invalidToken position) →
        Viable entry (tokens.map Token.lexeme) ∧ ending = .invalid position ∧
          (∀ token ∈ tokens, token.stop ≤ position) ∧
          ∃ front back, text.toList = front ++ back ∧ position = Text.byteLength front ∧
            Stuck back := by
  have hcuts : Cuts 0 text.toList (tokenize text).1 (tokenize text).2 := tokenize_eq_iff.1 rfl
  generalize (tokenize text).1 = tokens at hcuts
  generalize (tokenize text).2 = ending at hcuts
  refine ⟨tokens, ending, hcuts, fun token expected h => ?_, fun position expected h => ?_,
    fun position h => ?_⟩
  · obtain ⟨before, _, after, rfl, _, hfault⟩ | ⟨_, hfault⟩ := (rejects_iff hcuts).1 h
    · cases hfault with
      | unrecognized hviable hmiss hnext =>
          obtain ⟨front, back, htext, hstart, hstop⟩ := hcuts.span token (by simp)
          rw [Nat.zero_add] at hstart
          refine ⟨before, after, rfl, hviable, hmiss, hnext, front, back, htext, hstart, ?_⟩
          rw [hstop, hstart, Text.byteLength_append]
    · cases hfault
  · obtain ⟨_, _, _, _, _, hfault⟩ | ⟨_, hfault⟩ := (rejects_iff hcuts).1 h
    · cases hfault
    · cases hfault with
      | unrecognized hviable hincomplete hnext =>
          refine ⟨rfl, hviable, hincomplete, hnext, ?_⟩
          rw [endOf]
          cases tokens.getLast? <;> rfl
  · obtain ⟨_, _, _, _, _, hfault⟩ | ⟨_, hfault⟩ := (rejects_iff hcuts).1 h
    · cases hfault
    · cases hfault with
      | invalid hviable =>
          obtain ⟨front, back, htext, hposition, hstuck, hbefore⟩ := hcuts.stuck_at
          rw [Nat.zero_add] at hposition
          exact ⟨hviable, rfl, hbefore, front, back, htext, hposition, hstuck⟩

/-- Of several faults the first one is reported. A number that is too large counts as a
fault of the event behind it, and gives way to a fault that this event has itself.
Nothing else is ever wrong with a text: reading it with conversions that may fail makes
no difference, since these accept all that their terminals match, and whole numbers of
any size that there is room for. -/
theorem error_priority (entry : Entry) (text : String) :
    ∃ tokens ending, Cuts 0 text.toList tokens ending ∧
      (Rejects entry text .outOfRange ↔
        ∃ r, FirstTooLarge tokens r ∧ ∀ j, FirstFault entry tokens ending j → r + 1 < j) ∧
      (∀ j, FirstFault entry tokens ending j → (∀ r, FirstTooLarge tokens r → ¬ r + 1 < j) →
        ∃ e, ErrorAt entry tokens ending j e ∧ Rejects entry text e) ∧
      ((∃ e, Rejects entry text e) ↔
        (∃ j, FirstFault entry tokens ending j) ∨ ∃ r, FirstTooLarge tokens r) ∧
      readConverting entry text = (read entry text).mapError .refused ∧
      (∀ (t : Terminal) (cs : List Char), t.Matches cs → t.convert cs = .ok (t.value cs)) ∧
      ∀ cs, Terminal.digits.Matches cs → ∀ limit, Number.unsigned? limit (.ofList cs) =
        if Number.digitsValue cs ≤ limit then some (Number.digitsValue cs) else none := by
  have hcuts : Cuts 0 text.toList (tokenize text).1 (tokenize text).2 := tokenize_eq_iff.1 rfl
  refine ⟨_, _, hcuts, rejects_outOfRange_iff hcuts, fun j hj hearly => ?_,
    exists_rejects_iff hcuts, readConverting_eq entry text, fun t cs h => h.convert,
    fun cs h limit => unsigned?_of_digits h limit⟩
  exact exists_errorAt hcuts hj fun r hr => Nat.le_of_not_lt (hearly r hr)

end Lindenmayer.Script
