import Lindenmayer.Proofs.Terminals

/-!
# Cutting a text into tokens

What the tokens of a text are can be said without cutting it. Between tokens, before
and after them, there may be white space. Each token is a text of its terminal, no
terminal has a longer text at that place, and where a fixed word and a pattern have
the same one, the token is the fixed word.

The lexer finds exactly these tokens. It looks at the longest match of each terminal
and takes the longest of all; its fuel is more than there are characters, so it never
runs out.
-/

namespace Lindenmayer.Script

/-- A token without its place. -/
structure Lexeme where
  terminal : Terminal
  text : List Char
deriving DecidableEq, Repr

def Token.lexeme (token : Token) : Lexeme := ⟨token.terminal, token.text⟩

/-- The longest match at the front of a text, and the terminal it is given to. -/
structure Munches (t : Terminal) (text cs : List Char) : Prop where
  front : text <+: cs
  matched : t.Matches text
  longest : ∀ (t' : Terminal) (text' : List Char), t'.Matches text' → text' <+: cs →
    text'.length ≤ text.length
  wordFirst : ∀ t' : Terminal, t'.Matches text → t'.word?.isSome → t.word?.isSome

/-- A text is these tokens, with white space around them. -/
inductive Lexes : List Char → List Lexeme → Prop
  | done {blank : List Char} (hblank : ∀ c ∈ blank, isBlank c) : Lexes blank []
  | token {blank text rest : List Char} {t : Terminal} {tokens : List Lexeme}
      (hblank : ∀ c ∈ blank, isBlank c) (hmunch : Munches t text (text ++ rest))
      (hrest : Lexes rest tokens) : Lexes (blank ++ (text ++ rest)) (⟨t, text⟩ :: tokens)

theorem Lexes.matched {cs : List Char} {tokens : List Lexeme} (h : Lexes cs tokens) :
    ∀ x ∈ tokens, x.terminal.Matches x.text := by
  induction h with
  | done => exact fun x hx => absurd hx List.not_mem_nil
  | token _ hmunch _ ih =>
      intro x hx
      cases List.mem_cons.1 hx with
      | inl heq => exact heq ▸ hmunch.matched
      | inr hmem => exact ih x hmem

/-! ## The longest match -/

theorem foldl_longer (b : Terminal × Nat) (xs : List (Terminal × Nat)) :
    ∃ r, xs.foldl longer (some b) = some r ∧ r ∈ b :: xs ∧ ∀ x ∈ b :: xs, x.2 ≤ r.2 := by
  induction xs generalizing b with
  | nil => exact ⟨b, rfl, by simp, by simp⟩
  | cons x xs ih =>
      rw [List.foldl_cons, longer]
      split
      · next hlt =>
          obtain ⟨r, hr, hmem, hmax⟩ := ih x
          refine ⟨r, hr, List.mem_cons_of_mem b hmem, fun y hy => ?_⟩
          cases List.mem_cons.1 hy with
          | inl heq => exact heq ▸ Nat.le_trans (Nat.le_of_lt hlt) (hmax x List.mem_cons_self)
          | inr hmem => exact hmax y hmem
      · next hle =>
          obtain ⟨r, hr, hmem, hmax⟩ := ih b
          refine ⟨r, hr, ?_, fun y hy => ?_⟩
          · cases List.mem_cons.1 hmem with
            | inl heq => exact heq ▸ List.mem_cons_self
            | inr hmem => exact List.mem_cons_of_mem b (List.mem_cons_of_mem x hmem)
          · have hb := hmax b List.mem_cons_self
            simp only [List.mem_cons] at hy
            obtain rfl | rfl | hmem := hy
            · exact hb
            · exact Nat.le_trans (Nat.not_lt.1 hle) hb
            · exact hmax y (List.mem_cons_of_mem b hmem)

theorem Terminal.mem_all (t : Terminal) : t ∈ Terminal.all := by
  cases t <;> decide

theorem mem_matches {cs : List Char} {t : Terminal} {n : Nat} :
    (t, n) ∈ Terminal.all.filterMap (fun t => (t.matchLength? cs).map (t, ·)) ↔
      t.matchLength? cs = some n := by
  simp [List.mem_filterMap, Terminal.mem_all]

/-- The longest match is one of the terminals', and no terminal has a longer one. -/
theorem longestMatch?_cases (cs : List Char) :
    (longestMatch? cs = none ∧ ∀ t : Terminal, t.matchLength? cs = none) ∨
    ∃ t n, longestMatch? cs = some (t, n) ∧ t.matchLength? cs = some n ∧
      ∀ (t' : Terminal) (n' : Nat), t'.matchLength? cs = some n' → n' ≤ n := by
  rw [longestMatch?]
  cases hxs : Terminal.all.filterMap (fun t => (t.matchLength? cs).map (t, ·)) with
  | nil =>
      refine .inl ⟨rfl, fun t => Option.eq_none_iff_forall_ne_some.2 fun n hn => ?_⟩
      have hmem := mem_matches.2 hn
      rw [hxs] at hmem
      exact List.not_mem_nil hmem
  | cons x xs =>
      obtain ⟨⟨t, n⟩, hr, hmem, hmax⟩ := foldl_longer x xs
      rw [← hxs] at hmem hmax
      exact .inr ⟨t, n, hr, mem_matches.1 hmem, fun t' n' h => hmax (t', n') (mem_matches.2 h)⟩

/-- The lexer takes a token from the front of a text if it should. -/
theorem longestMatch?_eq_some_iff {cs : List Char} {t : Terminal} {n : Nat} :
    longestMatch? cs = some (t, n) ↔ n ≤ cs.length ∧ Munches t (cs.take n) cs := by
  obtain ⟨hnone, hall⟩ | ⟨t₀, n₀, hsome, hmatch, hmax⟩ := longestMatch?_cases cs
  · rw [hnone]
    refine Iff.intro (fun h => by cases h) fun ⟨_, hmunch⟩ => ?_
    obtain ⟨_, hm, _⟩ := hmunch.matched.matchLength? (cs.drop n)
    rw [List.take_append_drop, hall t] at hm
    cases hm
  · obtain ⟨text, rest, rfl, rfl, htext⟩ := Terminal.matchLength?_sound hmatch
    have hbest : ∀ (t' : Terminal) (text' : List Char), t'.Matches text' →
        text' <+: text ++ rest → text'.length ≤ text.length := by
      rintro t' text' htext' ⟨rest', hrest'⟩
      obtain ⟨n', hn', hle⟩ := htext'.matchLength? rest'
      rw [hrest'] at hn'
      exact Nat.le_trans hle (hmax t' n' hn')
    rw [hsome]
    refine ⟨fun h => ?_, fun h => ?_⟩
    · cases h
      rw [List.take_left]
      refine ⟨by simp, List.prefix_append text rest, htext, hbest, fun t' ht' hword => ?_⟩
      exact htext.unique ht' ▸ hword
    · obtain ⟨hn, hmunch⟩ := h
      have hle := hbest t _ hmunch.matched hmunch.front
      have hge := hmunch.longest t₀ text htext (List.prefix_append text rest)
      rw [List.length_take_of_le hn] at hle hge
      have heq := Nat.le_antisymm hle hge
      subst heq
      have hmatched := hmunch.matched
      rw [List.take_left] at hmatched
      rw [hmatched.unique htext]

theorem Munches.longestMatch? {t : Terminal} {text rest : List Char}
    (h : Munches t text (text ++ rest)) :
    longestMatch? (text ++ rest) = some (t, text.length) :=
  longestMatch?_eq_some_iff.2 ⟨by simp, by rwa [List.take_left]⟩

/-- What is at the front of a text behind the white space: nothing, a token, or
something that no terminal matches. -/
theorem front_cases (cs : List Char) : ∃ blank rest, cs = blank ++ rest ∧
    (∀ c ∈ blank, isBlank c) ∧ (∀ c, rest.head? = some c → isBlank c = false) ∧
      (rest = [] ∨ (rest ≠ [] ∧ longestMatch? rest = none) ∨
        ∃ t text more, rest = text ++ more ∧ Munches t text (text ++ more)) := by
  refine ⟨cs.takeWhile isBlank, cs.dropWhile isBlank, List.takeWhile_append_dropWhile.symm,
    fun c hc => List.mem_takeWhile_imp hc, fun c hc => ?_, ?_⟩
  · have := List.head?_dropWhile_not isBlank cs
    simpa [hc] using this
  · generalize cs.dropWhile isBlank = rest
    cases hmatch : longestMatch? rest with
    | none =>
        by_cases hrest : rest = []
        · exact .inl hrest
        · exact .inr (.inl ⟨hrest, rfl⟩)
    | some m =>
        obtain ⟨hn, hmunch⟩ := longestMatch?_eq_some_iff.1 hmatch
        refine .inr (.inr ⟨m.1, rest.take m.2, rest.drop m.2, ?_, ?_⟩)
        · exact (List.take_append_drop ..).symm
        · rwa [List.take_append_drop]

/-! ## All tokens -/

section

variable {blank rest : List Char} (fuel position : Nat) (hblank : ∀ c ∈ blank, isBlank c)

include hblank

theorem span_blank (hrest : ∀ c, rest.head? = some c → isBlank c = false) :
    (blank ++ rest).takeWhile isBlank = blank ∧ (blank ++ rest).dropWhile isBlank = rest := by
  rw [List.takeWhile_append_of_pos hblank, List.dropWhile_append_of_pos hblank]
  cases rest with
  | nil => simp
  | cons c rest => simp [hrest c rfl]

theorem cut_blank : cut (fuel + 1) position blank = ([], .complete) := by
  have hspan : (blank ++ []).takeWhile isBlank = blank ∧ (blank ++ []).dropWhile isBlank = [] :=
    span_blank hblank (by simp)
  rw [List.append_nil] at hspan
  rw [cut]
  simp [hspan.2]

theorem cut_stuck (hrest : ∀ c, rest.head? = some c → isBlank c = false) (hne : rest ≠ [])
    (hmatch : longestMatch? rest = none) :
    cut (fuel + 1) position (blank ++ rest) =
      ([], .invalid (position + Text.byteLength blank)) := by
  have hspan := span_blank hblank hrest
  rw [cut]
  simp [hspan.1, hspan.2, hne, hmatch]

theorem cut_token {t : Terminal} {text : List Char} (h : Munches t text (text ++ rest)) :
    cut (fuel + 1) position (blank ++ (text ++ rest)) =
      let start := position + Text.byteLength blank
      let stop := start + Text.byteLength text
      let more := cut fuel stop rest
      (⟨t, text, start, stop⟩ :: more.1, more.2) := by
  obtain ⟨c, cs, hhead, hc⟩ := h.matched.head
  have hstart : ∀ c, (text ++ rest).head? = some c → isBlank c = false := by simp [hhead, hc]
  have hspan := span_blank hblank hstart
  have hne : text ++ rest ≠ [] := by simp [hhead]
  rw [cut]
  simp [hspan.1, hspan.2, hne, h.longestMatch?]

end

/-- The lexer gets to the end of a text if there are tokens for all of it, and these
are the tokens it finds. -/
theorem cut_complete_iff {fuel position : Nat} {cs : List Char} {lexemes : List Lexeme}
    (hfuel : cs.length < fuel) :
    (∃ tokens, cut fuel position cs = (tokens, .complete) ∧ tokens.map Token.lexeme = lexemes) ↔
      Lexes cs lexemes := by
  induction fuel generalizing position cs lexemes with
  | zero => exact absurd hfuel (Nat.not_lt_zero _)
  | succ fuel ih =>
      refine ⟨fun h => ?_, fun h => ?_⟩
      · obtain ⟨tokens, hcut, rfl⟩ := h
        obtain ⟨blank, rest, rfl, hblank, hhead, hrest⟩ := front_cases cs
        obtain rfl | ⟨hne, hnone⟩ | ⟨t, text, more, rfl, hmunch⟩ := hrest
        · rw [List.append_nil] at hcut ⊢
          rw [cut_blank fuel position hblank] at hcut
          cases hcut
          exact .done hblank
        · rw [cut_stuck fuel position hblank hhead hne hnone] at hcut
          cases hcut
        · rw [cut_token fuel position hblank hmunch] at hcut
          injection hcut with htokens hending
          subst htokens
          refine .token hblank hmunch ((ih ?_).1 ⟨_, Prod.ext rfl hending, rfl⟩)
          have := hmunch.matched.length_pos
          simp only [List.length_append] at hfuel
          omega
      · cases h with
        | done hblank => exact ⟨[], cut_blank fuel position hblank, rfl⟩
        | @token blank text rest t lexemes hblank hmunch hrest =>
            have := hmunch.matched.length_pos
            simp only [List.length_append] at hfuel
            have hfuel : rest.length < fuel := by omega
            obtain ⟨tokens, hcut, rfl⟩ :=
              (@ih (position + Text.byteLength blank + Text.byteLength text) _ _ hfuel).2 hrest
            have hcons := cut_token fuel position hblank hmunch
            simp only [hcut] at hcons
            exact ⟨_, hcons, rfl⟩

/-- The text has these tokens. -/
theorem tokenize_complete_iff {text : String} {lexemes : List Lexeme} :
    (∃ tokens, tokenize text = (tokens, .complete) ∧ tokens.map Token.lexeme = lexemes) ↔
      Lexes text.toList lexemes :=
  cut_complete_iff (Nat.lt_succ_self _)

end Lindenmayer.Script
