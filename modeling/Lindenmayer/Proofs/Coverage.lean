import Lindenmayer.Proofs.Spans

/-!
# Nothing of a text is lost

The spans of the tokens lie one behind another, and between characters. What stands at a
span is the text of its token. What stands between two spans, before the first and behind
the last, is white space. So the tokens and the white space between them are the text, up
to its end or up to the place where the lexer gets stuck.

At every span the lexer takes all it can get: of the rest of the text from there on, no
terminal matches more. Where it gets stuck, no terminal matches anything.

All of this is about the cuts of a text that starts somewhere, for the rest of a text is
cut in the same way, from where a token stops.
-/

namespace Lindenmayer.Script

/-- In a text that starts at `origin`, this part stands from `start` to `stop`. The places
are counted in bytes and lie between characters. -/
def Stands (origin : Nat) (cs : List Char) (start stop : Nat) (part : List Char) : Prop :=
  ∃ before after, cs = before ++ (part ++ after) ∧ start = origin + Text.byteLength before ∧
    stop = start + Text.byteLength part

/-- The place where the cutting of a text ends, if the text itself ends at `last`. -/
def Ending.place (last : Nat) : Ending → Nat
  | .complete => last
  | .invalid position => position

/-- A text of characters has as many bytes as its characters take. -/
theorem size_utf8Encode (cs : List Char) : cs.utf8Encode.size = Text.byteLength cs := by
  induction cs with
  | nil => rfl
  | cons c cs ih =>
      have hc : [c].utf8Encode.size = c.utf8Size := by
        rw [List.utf8Encode_singleton, List.size_toByteArray, String.length_utf8EncodeChar]
      rw [List.utf8Encode_cons, ByteArray.size_append, hc, ih, Text.byteLength]

theorem utf8ByteSize_eq (text : String) : text.utf8ByteSize = Text.byteLength text.toList := by
  rw [← size_utf8Encode, ← String.toByteArray_ofList, String.ofList_toList,
    String.size_toByteArray]

namespace Stands

variable {origin start stop : Nat} {cs part : List Char}

/-- What stands somewhere in the rest of a text stands there in the text. -/
theorem behind {front : List Char}
    (h : Stands (origin + Text.byteLength front) cs start stop part) :
    Stands origin (front ++ cs) start stop part := by
  obtain ⟨before, after, rfl, hstart, hstop⟩ := h
  refine ⟨front ++ before, after, by rw [List.append_assoc], ?_, hstop⟩
  rw [hstart, Text.byteLength_append, Nat.add_assoc]

/-- Whatever is in front stands from the start on. -/
theorem front (origin : Nat) (part rest : List Char) :
    Stands origin (part ++ rest) origin (origin + Text.byteLength part) part :=
  ⟨[], rest, rfl, rfl, rfl⟩

/-- The rest of a text stands behind its front. -/
theorem back (origin : Nat) (before rest : List Char) :
    Stands origin (before ++ rest) (origin + Text.byteLength before)
      (origin + Text.byteLength (before ++ rest)) rest := by
  refine ⟨before, [], by rw [List.append_nil], rfl, ?_⟩
  rw [Text.byteLength_append, Nat.add_assoc]

/-- The bytes from the one place to the other are those of the part. -/
theorem bytes {text : String} (h : Stands 0 text.toList start stop part) :
    text.toUTF8.extract start stop = (String.ofList part).toUTF8 := by
  obtain ⟨before, after, htext, rfl, rfl⟩ := h
  have hbytes : text.toUTF8 = before.utf8Encode ++ (part.utf8Encode ++ after.utf8Encode) := by
    rw [← List.utf8Encode_append, ← List.utf8Encode_append, ← htext, ← String.toByteArray_ofList,
      String.ofList_toList, String.toUTF8_eq_toByteArray]
  have hpart : (String.ofList part).toUTF8 = part.utf8Encode := by
    rw [String.toUTF8_eq_toByteArray, String.toByteArray_ofList]
  rw [hbytes, hpart, ← size_utf8Encode, ← size_utf8Encode, Nat.zero_add]
  calc (before.utf8Encode ++ (part.utf8Encode ++ after.utf8Encode)).extract
        (before.utf8Encode.size + 0) (before.utf8Encode.size + part.utf8Encode.size)
      = (part.utf8Encode ++ after.utf8Encode).extract 0 part.utf8Encode.size :=
        ByteArray.extract_append_size_add
    _ = part.utf8Encode := ByteArray.extract_append_eq_left rfl

end Stands

/-! ## The cuts of a text -/

theorem Terminal.Matches.byteLength_pos {t : Terminal} {text : List Char} (h : t.Matches text) :
    0 < Text.byteLength text := by
  obtain ⟨c, cs, rfl, _⟩ := h.head
  have hc := c.utf8Size_pos
  rw [Text.byteLength]
  omega

namespace Cuts

variable {position : Nat} {cs : List Char} {tokens : List Token} {ending : Ending}

/-- Tokens start behind where the text starts, and each behind the one before it. -/
theorem ordered (h : Cuts position cs tokens ending) :
    (∀ token ∈ tokens, position ≤ token.start ∧ token.start < token.stop) ∧
      tokens.Pairwise fun t t' => t.stop ≤ t'.start := by
  induction h with
  | complete | stuck => exact ⟨fun token h => absurd h List.not_mem_nil, List.Pairwise.nil⟩
  | token _ hmunch hstart hstop _ ih =>
      have hpos := hmunch.matched.byteLength_pos
      obtain ⟨hplaces, hordered⟩ := ih
      refine ⟨List.forall_mem_cons.2 ⟨⟨?_, ?_⟩, fun token htoken => ?_⟩,
        List.pairwise_cons.2 ⟨fun token htoken => (hplaces token htoken).1, hordered⟩⟩
      · rw [hstart]
        exact Nat.le_add_right _ _
      · rw [hstop]
        exact Nat.lt_add_of_pos_right hpos
      · obtain ⟨hbehind, hspan⟩ := hplaces token htoken
        exact ⟨by omega, hspan⟩

/-- A token is the longest match of the text from its start on. -/
theorem munched (h : Cuts position cs tokens ending) :
    ∀ token ∈ tokens, ∃ rest,
      Stands position cs token.start (position + Text.byteLength cs) rest ∧
        Munches token.terminal token.text rest := by
  induction h with
  | complete | stuck => exact fun token h => absurd h List.not_mem_nil
  | @token position start stop blank text rest t _ _ _ hmunch hstart hstop _ ih =>
      have hstop' : stop = position + Text.byteLength (blank ++ text) := by
        rw [hstop, hstart, Text.byteLength_append, Nat.add_assoc]
      refine List.forall_mem_cons.2 ⟨⟨text ++ rest, ?_, hmunch⟩, fun token htoken => ?_⟩
      · rw [hstart]
        exact Stands.back position blank (text ++ rest)
      · obtain ⟨more, hstands, hmunch⟩ := ih token htoken
        rw [hstop', Nat.add_assoc, ← Text.byteLength_append] at hstands
        rw [← List.append_assoc]
        exact ⟨more, hstands.behind, hmunch⟩

/-- What is not at a span is white space. -/
theorem gaps (h : Cuts position cs tokens ending) :
    ∀ gap ∈ (position :: tokens.map Token.stop).zip
        (tokens.map Token.start ++ [ending.place (position + Text.byteLength cs)]),
      ∃ blank, Stands position cs gap.1 gap.2 blank ∧ ∀ c ∈ blank, isBlank c := by
  induction h with
  | @complete position blank hblank =>
      have hstands := Stands.front position blank []
      rw [List.append_nil] at hstands
      exact List.forall_mem_singleton.2 ⟨blank, hstands, hblank⟩
  | @stuck position blank rest hblank hstuck =>
      exact List.forall_mem_singleton.2 ⟨blank, Stands.front position blank rest, hblank⟩
  | @token position start stop blank text rest t tokens ending hblank _ hstart hstop _ ih =>
      have hstop' : stop = position + Text.byteLength (blank ++ text) := by
        rw [hstop, hstart, Text.byteLength_append, Nat.add_assoc]
      rw [List.map_cons, List.map_cons, List.cons_append, List.zip_cons_cons]
      refine List.forall_mem_cons.2 ⟨⟨blank, ?_, hblank⟩, fun gap hgap => ?_⟩
      · rw [hstart]
        exact Stands.front position blank (text ++ rest)
      · rw [← List.append_assoc, Text.byteLength_append, ← Nat.add_assoc, ← hstop'] at hgap
        obtain ⟨white, hstands, hwhite⟩ := ih gap hgap
        rw [hstop'] at hstands
        rw [← List.append_assoc]
        exact ⟨white, hstands.behind, hwhite⟩

end Cuts

/-- The lexer comes to an end, and its tokens and the white space around them are all of
the text that it has gone through. Each token has a span of its own, behind the one before
it, and is the longest match of the text from there on; a fixed word is preferred to a
pattern. If the lexer stops before the end, then at a character that is no white space, and
from there on no terminal matches anything. -/
theorem tokenize_covers (text : String) :
    let cs := text.toList
    let tokens := (tokenize text).1
    let ending := (tokenize text).2
    let size := text.utf8ByteSize
    (∀ fuel, cs.length < fuel → cut fuel 0 cs = (tokens, ending)) ∧
    (∀ token ∈ tokens, token.start < token.stop ∧
      Stands 0 cs token.start token.stop token.text ∧
      text.toUTF8.extract token.start token.stop = (String.ofList token.text).toUTF8) ∧
    tokens.Pairwise (fun t t' => t.stop ≤ t'.start) ∧
    (∀ gap ∈ (0 :: tokens.map Token.stop).zip (tokens.map Token.start ++ [ending.place size]),
      ∃ blank, Stands 0 cs gap.1 gap.2 blank ∧ ∀ c ∈ blank, isBlank c) ∧
    (∀ token ∈ tokens, ∃ rest, Stands 0 cs token.start size rest ∧
      Munches token.terminal token.text rest) ∧
    ∀ n, ending = .invalid n → ∃ rest, Stands 0 cs n size rest ∧ Stuck rest := by
  intro cs tokens ending size
  have hcuts : Cuts 0 cs tokens ending := tokenize_eq_iff.1 rfl
  have hsize : size = 0 + Text.byteLength cs := by rw [Nat.zero_add]; exact utf8ByteSize_eq text
  obtain ⟨hplaces, hordered⟩ := hcuts.ordered
  refine ⟨fun fuel hfuel => hcuts.cut_eq hfuel, fun token htoken => ?_, hordered, ?_, ?_, ?_⟩
  · have hstands : Stands 0 cs token.start token.stop token.text := hcuts.span token htoken
    exact ⟨(hplaces token htoken).2, hstands, hstands.bytes⟩
  · rw [hsize]
    exact hcuts.gaps
  · rw [hsize]
    exact hcuts.munched
  · intro n hn
    rw [hn] at hcuts
    obtain ⟨before, rest, hcs, rfl, hstuck, -⟩ := hcuts.stuck_at
    rw [hsize, hcs]
    exact ⟨rest, Stands.back 0 before rest, hstuck⟩

/-- A point with no digits behind it is no part of a numeral, and nothing else either. -/
example : tokenize " -12.5 7." =
    ([⟨.decimal, ['-', '1', '2', '.', '5'], 1, 6⟩, ⟨.digits, ['7'], 7, 8⟩], .invalid 8) := by
  decide +kernel

end Lindenmayer.Script
