import Lindenmayer.Proofs.Lexing

/-!
# Where the tokens of a text are

A text is cut from the front. White space is skipped, and then the longest match is
taken, until nothing is left or nothing matches. `Cuts` says this without a lexer, and
with the places of the tokens, which are counted in bytes. Every text is cut in exactly
one way, and the lexer finds it.

No place is skipped. The text of a token is what stands at its span, and a text that is
not cut to its end gets stuck at a character that is not white space and with which no
terminal has a text that begins.
-/

namespace Lindenmayer.Script

/-- There is something in front that is neither white space nor a token. -/
structure Stuck (cs : List Char) : Prop where
  visible : ∃ c, cs.head? = some c ∧ isBlank c = false
  unmatched : ∀ (t : Terminal) (text : List Char), t.Matches text → ¬ text <+: cs

/-- A text that starts at a place is these tokens, and ends like this. -/
inductive Cuts : (position : Nat) → List Char → List Token → Ending → Prop
  | complete {position : Nat} {blank : List Char} (hblank : ∀ c ∈ blank, isBlank c) :
      Cuts position blank [] .complete
  | stuck {position : Nat} {blank rest : List Char} (hblank : ∀ c ∈ blank, isBlank c)
      (hstuck : Stuck rest) :
      Cuts position (blank ++ rest) [] (.invalid (position + Text.byteLength blank))
  | token {position start stop : Nat} {blank text rest : List Char} {t : Terminal}
      {tokens : List Token} {ending : Ending} (hblank : ∀ c ∈ blank, isBlank c)
      (hmunch : Munches t text (text ++ rest)) (hstart : start = position + Text.byteLength blank)
      (hstop : stop = start + Text.byteLength text) (hrest : Cuts stop rest tokens ending) :
      Cuts position (blank ++ (text ++ rest)) (⟨t, text, start, stop⟩ :: tokens) ending

namespace Cuts

variable {position : Nat} {cs : List Char} {tokens : List Token} {ending : Ending}

theorem matched (h : Cuts position cs tokens ending) :
    ∀ token ∈ tokens, token.terminal.Matches token.text := by
  induction h with
  | complete | stuck => exact fun token htoken => absurd htoken List.not_mem_nil
  | token _ hmunch _ _ _ ih => exact List.forall_mem_cons.2 ⟨hmunch.matched, ih⟩

/-- The text of a token stands at its span. -/
theorem span (h : Cuts position cs tokens ending) :
    ∀ token ∈ tokens, ∃ before after, cs = before ++ (token.text ++ after) ∧
      token.start = position + Text.byteLength before ∧
      token.stop = token.start + Text.byteLength token.text := by
  induction h with
  | complete | stuck => exact fun token htoken => absurd htoken List.not_mem_nil
  | @token position start stop blank text rest t _ _ _ _ hstart hstop _ ih =>
      refine List.forall_mem_cons.2 ⟨⟨blank, rest, rfl, hstart, hstop⟩, fun token htoken => ?_⟩
      obtain ⟨before, after, rfl, hbefore, hspan⟩ := ih token htoken
      refine ⟨blank ++ (text ++ before), after, by simp, ?_, hspan⟩
      rw [hbefore, hstop, hstart, Text.byteLength_append, Text.byteLength_append]
      omega

/-- A text that is not cut to its end is stuck behind all of its tokens. -/
theorem stuck_at {n : Nat} (h : Cuts position cs tokens (.invalid n)) :
    ∃ before after, cs = before ++ after ∧ n = position + Text.byteLength before ∧ Stuck after ∧
      ∀ token ∈ tokens, token.stop ≤ n := by
  generalize hending : Ending.invalid n = ending at h
  induction h with
  | complete => cases hending
  | @stuck _ blank rest _ hstuck =>
      cases hending
      exact ⟨blank, rest, rfl, rfl, hstuck, by simp⟩
  | @token position start stop blank text rest t tokens _ _ _ hstart hstop _ ih =>
      obtain ⟨before, after, rfl, hn, hstuck, hle⟩ := ih hending
      refine ⟨blank ++ (text ++ before), after, by simp, ?_, hstuck, ?_⟩
      · rw [hn, hstop, hstart, Text.byteLength_append, Text.byteLength_append]
        omega
      · exact List.forall_mem_cons.2 ⟨by rw [hn]; exact Nat.le_add_right _ _, hle⟩

end Cuts

/-! ## The lexer finds the tokens -/

theorem longestMatch?_eq_none_iff {cs : List Char} :
    longestMatch? cs = none ↔
      ∀ (t : Terminal) (text : List Char), t.Matches text → ¬ text <+: cs := by
  obtain ⟨hnone, hall⟩ | ⟨t, n, hsome, hmatch, _⟩ := longestMatch?_cases cs
  · refine iff_of_true hnone fun t text htext => ?_
    rintro ⟨rest, rfl⟩
    obtain ⟨n, hn, _⟩ := htext.matchLength? rest
    rw [hall t] at hn
    cases hn
  · obtain ⟨text, rest, rfl, _, htext⟩ := Terminal.matchLength?_sound hmatch
    refine iff_of_false ?_ fun hall => hall t text htext (List.prefix_append text rest)
    rw [hsome]
    exact nofun

theorem Stuck.cut {blank rest : List Char} (h : Stuck rest) (hblank : ∀ c ∈ blank, isBlank c)
    (fuel position : Nat) :
    cut (fuel + 1) position (blank ++ rest) =
      ([], .invalid (position + Text.byteLength blank)) := by
  obtain ⟨c, hhead, hc⟩ := h.visible
  have hstart : ∀ c, rest.head? = some c → isBlank c = false := fun c' hc' => by
    rw [hhead] at hc'
    cases hc'
    exact hc
  have hne : rest ≠ [] := by
    rintro rfl
    cases hhead
  exact cut_stuck fuel position hblank hstart hne (longestMatch?_eq_none_iff.2 h.unmatched)

/-- With fuel for every character there is, the lexer cuts the text. -/
theorem cuts_cut {fuel position : Nat} {cs : List Char} (hfuel : cs.length < fuel) :
    Cuts position cs (cut fuel position cs).1 (cut fuel position cs).2 := by
  induction fuel generalizing position cs with
  | zero => exact absurd hfuel (Nat.not_lt_zero _)
  | succ fuel ih =>
      obtain ⟨blank, rest, rfl, hblank, hhead, hrest⟩ := front_cases cs
      obtain rfl | ⟨hne, hnone⟩ | ⟨t, text, more, rfl, hmunch⟩ := hrest
      · rw [List.append_nil, cut_blank fuel position hblank]
        exact .complete hblank
      · obtain ⟨c, rest, rfl⟩ := List.exists_cons_of_ne_nil hne
        have hstuck : Stuck (c :: rest) :=
          ⟨⟨c, rfl, hhead c rfl⟩, longestMatch?_eq_none_iff.1 hnone⟩
        rw [hstuck.cut hblank]
        exact .stuck hblank hstuck
      · rw [cut_token fuel position hblank hmunch]
        refine .token hblank hmunch rfl rfl (ih ?_)
        have := hmunch.matched.length_pos
        simp only [List.length_append] at hfuel
        omega

theorem Cuts.cut_eq {position : Nat} {cs : List Char} {tokens : List Token} {ending : Ending}
    (h : Cuts position cs tokens ending) {fuel : Nat} (hfuel : cs.length < fuel) :
    cut fuel position cs = (tokens, ending) := by
  induction h generalizing fuel with
  | complete hblank =>
      obtain ⟨fuel, rfl⟩ := Nat.exists_eq_add_one.2 (Nat.zero_lt_of_lt hfuel)
      exact cut_blank fuel _ hblank
  | stuck hblank hstuck =>
      obtain ⟨fuel, rfl⟩ := Nat.exists_eq_add_one.2 (Nat.zero_lt_of_lt hfuel)
      exact hstuck.cut hblank fuel _
  | @token position start stop blank text rest t tokens ending hblank hmunch hstart hstop _ ih =>
      obtain ⟨fuel, rfl⟩ := Nat.exists_eq_add_one.2 (Nat.zero_lt_of_lt hfuel)
      have hrest : rest.length < fuel := by
        have := hmunch.matched.length_pos
        simp only [List.length_append] at hfuel
        omega
      subst hstart hstop
      rw [cut_token fuel position hblank hmunch]
      simp only [ih hrest]

/-- A text is cut in one way, which is that of the lexer. -/
theorem tokenize_eq_iff {text : String} {tokens : List Token} {ending : Ending} :
    tokenize text = (tokens, ending) ↔ Cuts 0 text.toList tokens ending := by
  have hfuel : text.toList.length < text.toList.length + 1 := Nat.lt_succ_self _
  refine ⟨fun h => ?_, fun h => h.cut_eq hfuel⟩
  have hcuts : Cuts 0 text.toList (tokenize text).1 (tokenize text).2 := cuts_cut hfuel
  rwa [h] at hcuts

end Lindenmayer.Script
