import Lindenmayer.Proofs.Continuations

/-!
# Prefixes that can be completed

A list of tokens is a viable prefix if some more tokens make it a text of the entry
point. This is said by the grammar alone. A parser has the correct-prefix property if it
takes every viable prefix and nothing else, so that the first token it refuses is the
first one that no text goes on with.

The places have this property, since there is no place without a way out. From each one
that can be reached, a few tokens complete the text: the rest of the item, and a
definition if there is none yet. So the tokens up to some point are a viable prefix if
and only if each of them is accepted where the ones before it lead.
-/

namespace Lindenmayer.Script

/-- Some continuation completes the tokens to a text of the entry point. -/
def Viable (entry : Entry) (ts : List Lexeme) : Prop :=
  ∃ more settings definitions, (∀ x ∈ more, x.terminal.Matches x.text) ∧
    Sentence entry (ts ++ more) settings definitions

/-- The tokens are a text of the entry point as they are. -/
def Complete (entry : Entry) (ts : List Lexeme) : Prop :=
  ∃ settings definitions, Sentence entry ts settings definitions

/-- The terminals are those that can come next, in the fixed order, each once. -/
structure ListsNext (entry : Entry) (ts : List Lexeme) (expected : List Terminal) : Prop where
  ordered : expected.Sublist Terminal.all
  possible : ∀ t, t ∈ expected ↔ ∃ text, t.Matches text ∧ Viable entry (ts ++ [⟨t, text⟩])

theorem Terminal.exists_matches (t : Terminal) : ∃ text, t.Matches text := by
  have hzero : Digits ['0'] := ⟨by simp, by simp⟩
  cases t with
  | color => exact ⟨_, @Matches.color ['0', '0', '0', '0', '0', '0'] rfl (by simp; decide)⟩
  | decimal => exact ⟨_, .decimal hzero hzero⟩
  | negative => exact ⟨_, .negative hzero⟩
  | digits => exact ⟨_, .digits hzero⟩
  | letter => exact ⟨_, @Matches.letter 'A' (by decide)⟩
  | quoted => exact ⟨_, @Matches.quoted [] (by simp)⟩
  | _ => exact ⟨_, .word rfl⟩

/-- A part of a list without repetitions, in the same order, is told by its members. -/
theorem eq_filter_of_sublist {α : Type} [DecidableEq α] {xs ys : List α} (h : xs.Sublist ys)
    (hys : ys.Nodup) : xs = ys.filter (· ∈ xs) := by
  induction h with
  | slnil => rfl
  | @cons xs ys y hsub ih =>
      rw [List.nodup_cons] at hys
      have hy : y ∉ xs := fun hmem => hys.1 (hsub.subset hmem)
      rw [List.filter_cons_of_neg (by simpa using hy)]
      exact ih hys.2
  | @cons_cons xs ys y hsub ih =>
      rw [List.nodup_cons] at hys
      have hrest : ys.filter (· ∈ y :: xs) = ys.filter (· ∈ xs) := by
        refine List.filter_congr fun z hz => ?_
        have hne : z ≠ y := fun heq => hys.1 (heq ▸ hz)
        simp [hne]
      rw [List.filter_cons_of_pos (by simp), hrest, ← ih hys.2]

theorem ListsNext.unique {entry : Entry} {ts : List Lexeme} {expected expected' : List Terminal}
    (h : ListsNext entry ts expected) (h' : ListsNext entry ts expected') :
    expected = expected' := by
  have hall : Terminal.all.Nodup := by decide
  have hmem : ∀ t, t ∈ expected ↔ t ∈ expected' :=
    fun t => (h.possible t).trans (h'.possible t).symm
  rw [eq_filter_of_sublist h.ordered hall, eq_filter_of_sublist h'.ordered hall]
  simp only [hmem]

/-! ## Walking through the places -/

namespace Place

/-- The place behind the given tokens. -/
def after (place : Place) (ts : List Lexeme) : Place := ts.foldl next place

theorem after_concat (place : Place) (ts : List Lexeme) (x : Lexeme) :
    place.after (ts ++ [x]) = (place.after ts).next x := by
  rw [after, List.foldl_append]
  rfl

/-- Each of the tokens is accepted where the ones before it lead. -/
def Walks (entry : Entry) : Place → List Lexeme → Prop
  | _, [] => True
  | place, x :: ts => place.accepts entry x.terminal = true ∧ Walks entry (place.next x) ts

theorem walks_concat {entry : Entry} {place : Place} {ts : List Lexeme} {x : Lexeme} :
    Walks entry place (ts ++ [x]) ↔
      Walks entry place ts ∧ (place.after ts).accepts entry x.terminal = true := by
  induction ts generalizing place with
  | nil => simp [Walks, after]
  | cons y ts ih => simp [Walks, ih, after, and_assoc]

/-- The tokens complete the text from a place. -/
def Completes (entry : Entry) (place : Place) (ts : List Lexeme) : Prop :=
  ∃ settings definitions, Rest entry ts settings definitions place

section

variable {entry : Entry} {place : Place} {x : Lexeme} {ts us : List Lexeme}

theorem completes_nil_iff : place.Completes entry [] ↔ place.mayEnd entry = true := by
  simp only [Completes, rest_nil_iff]
  refine ⟨fun h => ?_, fun h => ⟨_, _, h, rfl, rfl⟩⟩
  obtain ⟨_, _, hend, _⟩ := h
  exact hend

theorem completes_cons_iff (hx : x.terminal.Matches x.text) :
    place.Completes entry (x :: ts) ↔
      place.accepts entry x.terminal = true ∧ (place.next x).Completes entry ts := by
  simp only [Completes, rest_cons_iff hx]
  refine ⟨fun h => ?_, fun h => ?_⟩
  · obtain ⟨_, _, haccepts, settings, definitions, hrest, _⟩ := h
    exact ⟨haccepts, settings, definitions, hrest⟩
  · obtain ⟨haccepts, settings, definitions, hrest⟩ := h
    exact ⟨_, _, haccepts, settings, definitions, hrest, rfl, rfl⟩

theorem completes_append_iff (hts : ∀ x ∈ ts, x.terminal.Matches x.text) :
    place.Completes entry (ts ++ us) ↔
      Walks entry place ts ∧ (place.after ts).Completes entry us := by
  induction ts generalizing place with
  | nil => simp [Walks, after]
  | cons x ts ih =>
      obtain ⟨hx, hts⟩ := List.forall_mem_cons.1 hts
      rw [List.cons_append, completes_cons_iff hx, ih hts, Walks, and_assoc]
      rfl

end

/-! ## Every place has a way out -/

/-- Settings are not read where there is only a definition. -/
def Reachable (entry : Entry) : Place → Prop
  | .key _ | .value .. => entry ≠ .definition
  | _ => True

theorem reachable_begun {entry : Entry} {x : Lexeme} (h : opens entry x.terminal = true) :
    (begun x).Reachable entry := by
  cases hkey : Key.ofTerminal? x.terminal with
  | none => simp [begun, hkey, Reachable]
  | some key => cases entry <;> simp_all [begun, Reachable, opens, Key.ofTerminal?]

theorem Reachable.next {entry : Entry} {place : Place} {x : Lexeme} (h : place.Reachable entry)
    (haccepts : place.accepts entry x.terminal = true) : (place.next x).Reachable entry := by
  -- What may follow a finished definition opens another item, so it is reached from there.
  have hfollows : follows entry x.terminal = true → opens entry x.terminal = true := by
    intro h
    obtain ⟨rfl, hletter⟩ := follows_iff.1 h
    simp [opens, hletter]
  cases place with
  | opening => exact reachable_begun haccepts
  | key k => exact h
  | value k numeral =>
      simp only [accepts, Bool.and_eq_true] at haccepts
      exact reachable_begun haccepts.2
  | literal c => trivial
  | assigned c => trivial
  | actions d =>
      simp only [accepts, Bool.or_eq_true, decide_eq_true_eq] at haccepts
      cases hflag : flag? x.terminal with
      | some flag => simp [Place.next, hflag, Reachable]
      | none =>
          by_cases hcolor : x.terminal = .color
          · simp [Place.next, hcolor, flag?, Reachable]
          · have hopens : opens entry x.terminal = true := by simp_all
            simpa [Place.next, hflag, hcolor] using reachable_begun hopens
  | flags d =>
      simp only [accepts, Bool.or_eq_true] at haccepts
      cases hflag : flag? x.terminal with
      | some flag => simp [Place.next, hflag, Reachable]
      | none =>
          have hopens : opens entry x.terminal = true := by simp_all
          have hcolor : x.terminal ≠ .color := by
            intro hcolor
            simp [hcolor, flag?, follows] at haccepts
          simpa [Place.next, hflag, hcolor] using reachable_begun hopens

theorem reachable_after {entry : Entry} {place : Place} {ts : List Lexeme}
    (h : place.Reachable entry) (hwalks : Walks entry place ts) :
    (place.after ts).Reachable entry := by
  induction ts generalizing place with
  | nil => exact h
  | cons x ts ih => exact ih (h.next hwalks.1) hwalks.2

/-- Some tokens complete the text from a place. -/
def WayOut (entry : Entry) (place : Place) : Prop :=
  ∃ ts, (∀ x ∈ ts, x.terminal.Matches x.text) ∧ place.Completes entry ts

theorem wayOut_of_mayEnd {entry : Entry} {place : Place} (h : place.mayEnd entry = true) :
    place.WayOut entry :=
  ⟨[], by simp, completes_nil_iff.2 h⟩

/-- There is a way out if a token leads to a place that has one. -/
theorem WayOut.of_accepts {entry : Entry} {place : Place} {t : Terminal}
    (h : ∀ text, t.Matches text → (place.next ⟨t, text⟩).WayOut entry)
    (haccepts : place.accepts entry t = true) : place.WayOut entry := by
  obtain ⟨text, htext⟩ := t.exists_matches
  obtain ⟨ts, hts, hcompletes⟩ := h text htext
  exact ⟨⟨t, text⟩ :: ts, List.forall_mem_cons.2 ⟨htext, hts⟩,
    (completes_cons_iff htext).2 ⟨haccepts, hcompletes⟩⟩

theorem wayOut_literal (entry : Entry) (c : Char) : (literal c).WayOut entry := by
  refine .of_accepts (t := .equals) (fun _ _ => ?_) rfl
  exact .of_accepts (t := .quoted) (fun _ _ => wayOut_of_mayEnd rfl) rfl

theorem wayOut_value {entry : Entry} (h : entry ≠ .definition) (k : Key) (numeral : List Char) :
    (value k numeral).WayOut entry := by
  cases entry with
  | config => exact .of_accepts (t := .letter) (fun _ _ => wayOut_literal _ _) rfl
  | setting => exact wayOut_of_mayEnd rfl
  | definition => exact absurd rfl h

theorem wayOut_key {entry : Entry} (h : entry ≠ .definition) (k : Key) : (key k).WayOut entry :=
  .of_accepts (t := .digits) (fun _ _ => wayOut_value h _ _) rfl

theorem wayOut_opening (entry : Entry) : opening.WayOut entry := by
  cases entry with
  | setting =>
      have hkey : Entry.setting ≠ .definition := nofun
      exact .of_accepts (t := .step) (fun _ _ => wayOut_key hkey .step) rfl
  | _ => exact .of_accepts (t := .letter) (fun _ _ => wayOut_literal _ _) rfl

theorem Reachable.wayOut {entry : Entry} {place : Place} (h : place.Reachable entry) :
    place.WayOut entry := by
  cases place with
  | opening => exact wayOut_opening entry
  | key k => exact wayOut_key h k
  | value k numeral => exact wayOut_value h k numeral
  | literal c => exact wayOut_literal entry c
  | assigned c => exact .of_accepts (t := .quoted) (fun _ _ => wayOut_of_mayEnd rfl) rfl
  | actions d => exact wayOut_of_mayEnd rfl
  | flags d => exact wayOut_of_mayEnd rfl

end Place

/-! ## Viable prefixes -/

section

variable {entry : Entry} {x : Lexeme} {ts us : List Lexeme}

/-- A prefix is viable if all of its tokens are accepted. -/
theorem viable_iff_walks (hts : ∀ x ∈ ts, x.terminal.Matches x.text) :
    Viable entry ts ↔ Place.Walks entry .opening ts := by
  refine ⟨fun h => ?_, fun h => ?_⟩
  · obtain ⟨more, settings, definitions, _, hsentence⟩ := h
    have hcompletes : Place.opening.Completes entry (ts ++ more) :=
      ⟨settings, definitions, hsentence⟩
    exact ((Place.completes_append_iff hts).1 hcompletes).1
  · have hreachable : (Place.opening.after ts).Reachable entry := Place.reachable_after trivial h
    obtain ⟨more, hmore, hcompletes⟩ := hreachable.wayOut
    obtain ⟨settings, definitions, hsentence⟩ :=
      (Place.completes_append_iff hts).2 ⟨h, hcompletes⟩
    exact ⟨more, settings, definitions, hmore, hsentence⟩

theorem viable_nil (entry : Entry) : Viable entry [] :=
  (viable_iff_walks (by simp)).2 trivial

theorem Viable.of_append (h : Viable entry (ts ++ us)) (hus : ∀ x ∈ us, x.terminal.Matches x.text) :
    Viable entry ts := by
  obtain ⟨more, settings, definitions, hmore, hsentence⟩ := h
  rw [List.append_assoc] at hsentence
  exact ⟨us ++ more, settings, definitions, List.forall_mem_append.2 ⟨hus, hmore⟩, hsentence⟩

theorem viable_concat_iff (hts : ∀ x ∈ ts, x.terminal.Matches x.text)
    (hx : x.terminal.Matches x.text) :
    Viable entry (ts ++ [x]) ↔
      Viable entry ts ∧ (Place.opening.after ts).accepts entry x.terminal = true := by
  have hall : ∀ y ∈ ts ++ [x], y.terminal.Matches y.text := by
    simpa [or_imp, forall_and] using ⟨hts, hx⟩
  rw [viable_iff_walks hall, Place.walks_concat, viable_iff_walks hts]

theorem complete_iff (hts : ∀ x ∈ ts, x.terminal.Matches x.text) :
    Complete entry ts ↔
      Viable entry ts ∧ (Place.opening.after ts).mayEnd entry = true := by
  have hstart : Complete entry ts ↔ Place.opening.Completes entry (ts ++ []) := by
    rw [List.append_nil]
    rfl
  rw [hstart, Place.completes_append_iff hts, Place.completes_nil_iff, viable_iff_walks hts]

/-- The place behind a viable prefix knows what can come next. -/
theorem listsNext_expected (hts : ∀ x ∈ ts, x.terminal.Matches x.text) (h : Viable entry ts) :
    ListsNext entry ts ((Place.opening.after ts).expected entry) where
  ordered := List.filter_sublist
  possible t := by
    rw [Place.expected, List.mem_filter, and_iff_right (Terminal.mem_all t)]
    refine ⟨fun haccepts => ?_, fun hnext => ?_⟩
    · obtain ⟨text, htext⟩ := t.exists_matches
      exact ⟨text, htext, (viable_concat_iff hts htext).2 ⟨h, haccepts⟩⟩
    · obtain ⟨text, htext, hviable⟩ := hnext
      exact ((viable_concat_iff (x := ⟨t, text⟩) hts htext).1 hviable).2

end

end Lindenmayer.Script
