import Lindenmayer.Color
import Lindenmayer.Proofs.Coverage

/-!
# The texts of colors

A color has one written form, which is `#` and two digits for each channel. It is read from
this form, and from those that have some of the letters in upper case. No other text is read
as a color.

Texts are stored as bytes, and the channels may be cut out of them where they have to be. Two
things could go wrong with this. One of the places may be inside of a character, and what is
cut out may have a sign in it, which is nothing unusual for a number. So a reader that makes
cuts looks at all bytes before it makes the first one. If there are six and each is the byte
of a digit, then each is a character of its own, and there is nothing but digits to be found.
-/

namespace Lindenmayer

namespace Text

/-- The hexadecimal digits, with their letters in either case. -/
def hexDigits : List Char := "0123456789abcdefABCDEF".toList

def isHexByte (byte : UInt8) : Bool :=
  48 ≤ byte && byte ≤ 57 || 65 ≤ byte && byte ≤ 70 || 97 ≤ byte && byte ≤ 102

/-- Two places of a text between which nothing can be cut out. -/
structure BadCut where
  start : Nat
  stop : Nat
deriving DecidableEq, Repr

/-- What is between two places of a text. The places are counted in bytes. Neither of them may
be inside of a character or behind the end, nor the first one behind the second. -/
def cutOut (text : String) (start stop : Nat) : Except BadCut String :=
  if h : start ≤ stop ∧ String.Pos.Raw.IsValid text ⟨start⟩ ∧
      String.Pos.Raw.IsValid text ⟨stop⟩ then
    .ok (text.extract ⟨⟨start⟩, h.2.1⟩ ⟨⟨stop⟩, h.2.2⟩)
  else .error ⟨start, stop⟩

/-- A number with one more digit behind it, if it is still a byte. -/
def appendDigit? (n : Nat) (c : Char) : Option Nat := do
  let value ← hexValue? c
  if 16 * n + value < UInt8.size then some (16 * n + value) else none

/-- The byte that a text spells in hexadecimal digits, with an optional plus sign. -/
def hexByte? (text : String) : Option UInt8 :=
  match text.toList with
  | [] | ['+'] => none
  | '+' :: digits | digits => (digits.foldlM appendDigit? 0).map .ofNat

end Text

namespace Color

open Text

/-- The channel at a place of the digits. -/
def channelAt (digits : String) (place : Nat) : Except BadCut (Option UInt8) :=
  (cutOut digits place (place + 2)).map hexByte?

/-- The opaque color that a text of digits spells. -/
def ofDigits (digits : String) : Except BadCut (Option Color) := do
  if digits.utf8ByteSize = 6 ∧ digits.toUTF8.data.all isHexByte then
    let some red ← channelAt digits 0 | return none
    let some green ← channelAt digits 2 | return none
    let some blue ← channelAt digits 4 | return none
    return some (rgb red green blue)
  else
    return none

/-- The opaque color that a text spells, by cuts at fixed places. -/
def ofCuts (text : String) : Except BadCut (Option Color) :=
  match text.toList with
  | '#' :: digits => ofDigits (.ofList digits)
  | _ => .ok none

/-- Being `#` and six hexadecimal digits. -/
def IsHexText (text : String) : Prop :=
  ∃ digits, text.toList = '#' :: digits ∧ digits.length = 6 ∧ ∀ d ∈ digits, d ∈ hexDigits

end Color

/-! ## Digits -/

namespace Text

/-- A digit has a value, and the digit for this value is the same in lower case. -/
theorem value_of_mem_hexDigits {c : Char} (h : c ∈ hexDigits) :
    ∃ value < 16, hexValue? c = some value ∧ hexDigit value = c.toLower := by
  have hall : hexDigits.all (fun d => (hexValue? d).any fun value =>
      value < 16 && hexDigit value == d.toLower) = true := by decide
  obtain ⟨value, hvalue, hdigit⟩ := (Option.any_eq_true ..).1 (List.all_eq_true.1 hall c h)
  rw [Bool.and_eq_true, decide_eq_true_eq, beq_iff_eq] at hdigit
  exact ⟨value, hdigit.1, hvalue, hdigit.2⟩

theorem toNat_lt_of_isHexDigit {c : Char} (h : isHexDigit c = true) : c.toNat < 128 := by
  rw [isHexDigit, hexValue?] at h
  split at h
  · next hdigit =>
      have : c.toNat ≤ 57 := (Char.isDigit_iff_toNat.1 hdigit).2
      omega
  · split at h
    · next hlower =>
        have : c.toNat ≤ 102 := UInt32.le_iff_toNat_le.1 hlower.2
        omega
    · split at h
      · next hupper =>
          have : c.toNat ≤ 70 := UInt32.le_iff_toNat_le.1 hupper.2
          omega
      · cases h

theorem isHexDigit_iff {c : Char} : isHexDigit c = true ↔ c ∈ hexDigits := by
  refine ⟨fun h => ?_, fun h => ?_⟩
  · have hall : ∀ n < 128, isHexDigit (.ofNat n) = true → .ofNat n ∈ hexDigits := by decide
    have hc := hall c.toNat (toNat_lt_of_isHexDigit h)
    rw [Char.ofNat_toNat] at hc
    exact hc h
  · obtain ⟨value, -, hvalue, -⟩ := value_of_mem_hexDigits h
    rw [isHexDigit, hvalue]
    rfl

theorem toNat_lt_of_isHexByte {byte : UInt8} (h : isHexByte byte = true) : byte.toNat < 128 := by
  simp only [isHexByte, Bool.or_eq_true, Bool.and_eq_true, decide_eq_true_eq,
    UInt8.le_iff_toNat_le, UInt8.reduceToNat] at h
  omega

/-- The bytes of a character are those of digits if it is a digit. Otherwise the first one is
not. -/
theorem all_isHexByte_char (c : Char) :
    (String.utf8EncodeChar c).all isHexByte = isHexDigit c := by
  by_cases hsmall : c.val.toNat ≤ 127
  · have hall : ∀ n < 128, isHexByte (.ofNat n) = isHexDigit (.ofNat n) := by decide
    have hc := hall c.toNat (Nat.lt_succ_of_le hsmall)
    rw [Char.ofNat_toNat] at hc
    rw [String.utf8EncodeChar.eq_1, if_pos hsmall, List.all_cons, List.all_nil, Bool.and_true]
    exact hc
  · have hlead : ∀ n < 256, 128 ≤ n → isHexByte (.ofNat n) = false := by
      intro n hn hlarge
      refine Bool.eq_false_iff.2 fun h => ?_
      have := toNat_lt_of_isHexByte h
      rw [UInt8.toNat_ofNat_of_lt' hn] at this
      omega
    have hc : isHexDigit c = false :=
      Bool.eq_false_iff.2 fun h => hsmall (Nat.le_of_lt_succ (toNat_lt_of_isHexDigit h))
    rw [hc, String.utf8EncodeChar.eq_1, if_neg hsmall]
    split
    · rw [List.all_cons, hlead _ (by omega) (by omega), Bool.false_and]
    · split
      all_goals rw [List.all_cons, hlead _ (by omega) (by omega), Bool.false_and]

theorem all_isHexByte (cs : List Char) : cs.utf8Encode.data.all isHexByte = cs.all isHexDigit := by
  induction cs with
  | nil => rw [List.utf8Encode_nil, ByteArray.data_empty, Array.all_empty, List.all_nil]
  | cons c cs ih =>
      rw [List.utf8Encode_cons, ByteArray.data_append, Array.all_append, ih,
        List.utf8Encode_singleton, List.data_toByteArray, List.all_toArray, all_isHexByte_char,
        List.all_cons]

theorem all_isHexByte_iff {cs : List Char} :
    cs.utf8Encode.data.all isHexByte = true ↔ ∀ c ∈ cs, c ∈ hexDigits := by
  rw [all_isHexByte, List.all_eq_true]
  exact forall₂_congr fun c _ => isHexDigit_iff

/-- Each digit has one byte. -/
theorem byteLength_of_hexDigits {cs : List Char} (h : ∀ c ∈ cs, c ∈ hexDigits) :
    byteLength cs = cs.length := by
  induction cs with
  | nil => rfl
  | cons c cs ih =>
      obtain ⟨hc, hcs⟩ := List.forall_mem_cons.1 h
      have hlt : c.toNat < 128 := toNat_lt_of_isHexDigit (isHexDigit_iff.2 hc)
      have hsize : c.utf8Size = 1 := Char.utf8Size_eq_one_iff.2 (Nat.le_of_lt_succ hlt)
      rw [byteLength, hsize, ih hcs, List.length_cons, Nat.add_comm]

/-! ## Cuts -/

/-- The place behind the front of a text is between characters. -/
theorem isValid_byteLength {text : String} {front back : List Char}
    (h : text.toList = front ++ back) : String.Pos.Raw.IsValid text ⟨byteLength front⟩ := by
  refine String.Pos.Raw.isValid_iff_exists_append.2 ⟨.ofList front, .ofList back, ?_, ?_⟩
  · rw [← String.ofList_append, ← h, String.ofList_toList]
  · rw [String.rawEndPos, Script.utf8ByteSize_eq, String.toList_ofList]

/-- What stands between two places can be cut out. -/
theorem cutOut_of_stands {text : String} {start stop : Nat} {part : List Char}
    (h : Script.Stands 0 text.toList start stop part) :
    cutOut text start stop = .ok (.ofList part) := by
  have hbytes := h.bytes
  obtain ⟨before, after, htext, hstart, hstop⟩ := h
  have hfront := isValid_byteLength htext
  have hback := isValid_byteLength (htext.trans (List.append_assoc ..).symm)
  rw [byteLength_append] at hback
  rw [Nat.zero_add] at hstart
  subst hstart hstop
  rw [cutOut, dif_pos ⟨Nat.le_add_right _ _, hfront, hback⟩]
  exact congrArg Except.ok (String.toByteArray_inj.1 (String.toByteArray_extract.trans hbytes))

/-- To have six bytes is not enough for a cut, and a cut is not enough for a pair of digits. -/
example : cutOut "aéaé" 0 2 = .error ⟨0, 2⟩ ∧
    (cutOut "+f+f+f" 0 2).map hexByte? = .ok (some 15) := by decide +kernel

end Text

namespace Color

open Text

/-! ## Channels -/

theorem toNat_ofNat_hex {x y : Nat} (hx : x < 16) (hy : y < 16) :
    (UInt8.ofNat (16 * x + y)).toNat = 16 * x + y :=
  UInt8.toNat_ofNat_of_lt' (by show _ < 256; omega)

/-- Two digits spell a channel, which is written with the same digits in lower case. -/
theorem exists_channel_written {high low : Char} (hhigh : high ∈ hexDigits)
    (hlow : low ∈ hexDigits) :
    ∃ channel, channel? high low = some channel ∧
      channelText channel = [high.toLower, low.toLower] := by
  obtain ⟨x, hx, hhigh, hhigh'⟩ := value_of_mem_hexDigits hhigh
  obtain ⟨y, hy, hlow, hlow'⟩ := value_of_mem_hexDigits hlow
  refine ⟨.ofNat (16 * x + y), by rw [channel?, hhigh, hlow]; rfl, ?_⟩
  have hquotient : (16 * x + y) / 16 = x := by omega
  have hdigit : hexDigit (16 * x + y) = hexDigit y := congrArg Nat.digitChar (Nat.mul_add_mod ..)
  rw [channelText, toNat_ofNat_hex hx hy, hquotient, hdigit, hhigh', hlow']

theorem mem_hexDigits_of_channel? {high low : Char} {channel : UInt8}
    (h : channel? high low = some channel) : high ∈ hexDigits ∧ low ∈ hexDigits := by
  simp only [channel?, Option.bind_eq_bind, Option.bind_eq_some_iff] at h
  obtain ⟨x, hx, y, hy, -⟩ := h
  exact ⟨isHexDigit_iff.1 (Option.isSome_of_eq_some hx),
    isHexDigit_iff.1 (Option.isSome_of_eq_some hy)⟩

/-- A channel is read from its own text. -/
theorem channel?_hexDigit (channel : UInt8) :
    channel? (hexDigit (channel.toNat / 16)) (hexDigit channel.toNat) = some channel := by
  have hlt : channel.toNat < 256 := channel.toNat_lt
  have hsum : 16 * (channel.toNat / 16 % 16) + channel.toNat % 16 = channel.toNat := by omega
  rw [channel?, hexValue?_hexDigit, hexValue?_hexDigit]
  show some (UInt8.ofNat (16 * (channel.toNat / 16 % 16) + channel.toNat % 16)) = _
  rw [hsum, UInt8.ofNat_toNat]

/-- A channel is written as a number is in the base sixteen, and filled up to two digits. -/
theorem channelText_eq (channel : UInt8) :
    channelText channel = (Nat.toDigits 16 channel.toNat).leftpad 2 '0' := by
  have hlt : channel.toNat < 256 := channel.toNat_lt
  have hhigh : channel.toNat / 16 < 16 := by omega
  rw [channelText, hexDigit, hexDigit, Nat.mod_eq_of_lt hhigh]
  by_cases hsmall : channel.toNat < 16
  · have hzero : channel.toNat / 16 = 0 := by omega
    rw [Nat.toDigits_of_lt_base hsmall, hzero, Nat.mod_eq_of_lt hsmall]
    rfl
  · rw [Nat.toDigits_of_base_le (by decide) (by omega), Nat.toDigits_of_lt_base hhigh]
    rfl

/-! ## Colors -/

/-- A color is read from its own text, but for its transparency. -/
theorem ofHex?_toHex (c : Color) : ofHex? c.toHex = some { c with alpha := 255 } := by
  simp only [ofHex?, toHex, channelText, String.toList_ofList, List.cons_append, List.nil_append,
    channel?_hexDigit]
  rfl

/-- A color without transparency is read from its own text as it is. -/
theorem ofHex?_toHex_of_solid {c : Color} (h : c.alpha = 255) : ofHex? c.toHex = some c := by
  rw [ofHex?_toHex, ← h]

theorem isHexText_hash {digits : List Char} :
    IsHexText (.ofList ('#' :: digits)) ↔ digits.length = 6 ∧ ∀ d ∈ digits, d ∈ hexDigits := by
  rw [IsHexText, String.toList_ofList]
  refine ⟨?_, fun h => ⟨digits, rfl, h⟩⟩
  rintro ⟨_, heq, h⟩
  injection heq with _ heq
  exact heq ▸ h

/-- Six digits spell a color, and its text is theirs in lower case. -/
theorem IsHexText.exists_color {text : String} (h : IsHexText text) :
    ∃ c, ofHex? text = some c ∧ c.alpha = 255 ∧ c.toHex = text.toLower := by
  obtain ⟨digits, htext, hlength, hdigits⟩ := h
  match digits, hlength with
  | [r₁, r₀, g₁, g₀, b₁, b₀], _ =>
      simp only [List.forall_mem_cons] at hdigits
      obtain ⟨hr₁, hr₀, hg₁, hg₀, hb₁, hb₀, -⟩ := hdigits
      obtain ⟨r, hr, hr'⟩ := exists_channel_written hr₁ hr₀
      obtain ⟨g, hg, hg'⟩ := exists_channel_written hg₁ hg₀
      obtain ⟨b, hb, hb'⟩ := exists_channel_written hb₁ hb₀
      refine ⟨rgb r g b, ?_, rfl, ?_⟩
      · simp only [ofHex?, htext, hr, hg, hb]
        rfl
      · have hlower : text.toLower.toList = text.toList.map Char.toLower := String.toList_map
        refine String.toList_inj.1 ?_
        rw [hlower, htext, toHex, String.toList_ofList, rgb, hr', hg', hb']
        rfl

theorem isHexText_of_ofHex? {text : String} {c : Color} (h : ofHex? text = some c) :
    IsHexText text := by
  rw [ofHex?] at h
  split at h
  · next r₁ r₀ g₁ g₀ b₁ b₀ htext =>
      simp only [Option.bind_eq_bind, Option.bind_eq_some_iff] at h
      obtain ⟨r, hr, g, hg, b, hb, -⟩ := h
      obtain ⟨hr₁, hr₀⟩ := mem_hexDigits_of_channel? hr
      obtain ⟨hg₁, hg₀⟩ := mem_hexDigits_of_channel? hg
      obtain ⟨hb₁, hb₀⟩ := mem_hexDigits_of_channel? hb
      refine ⟨_, htext, rfl, ?_⟩
      simp only [List.forall_mem_cons]
      exact ⟨hr₁, hr₀, hg₁, hg₀, hb₁, hb₀, List.forall_mem_nil _⟩
  · cases h

theorem isSome_ofHex?_iff {text : String} : (ofHex? text).isSome ↔ IsHexText text := by
  refine ⟨fun h => ?_, fun h => ?_⟩
  · obtain ⟨c, hc⟩ := Option.isSome_iff_exists.1 h
    exact isHexText_of_ofHex? hc
  · obtain ⟨c, hc, -⟩ := h.exists_color
    exact Option.isSome_of_eq_some hc

theorem ofHex?_eq_some_iff {text : String} {c : Color} :
    ofHex? text = some c ↔ IsHexText text ∧ c.alpha = 255 ∧ c.toHex = text.toLower := by
  refine ⟨fun h => ?_, fun ⟨htext, halpha, hlower⟩ => ?_⟩
  · have htext := isHexText_of_ofHex? h
    obtain ⟨c', hc', halpha, hlower⟩ := htext.exists_color
    obtain rfl : c = c' := Option.some.inj (h.symm.trans hc')
    exact ⟨htext, halpha, hlower⟩
  · obtain ⟨c', hc', halpha', hlower'⟩ := htext.exists_color
    -- The text in lower case is what both of them are read from.
    rw [hc', ← ofHex?_toHex_of_solid halpha', hlower', ← hlower, ofHex?_toHex_of_solid halpha]

/-! ## The reader that makes cuts -/

theorem appendDigit?_eq {n value : Nat} {c : Char} (hc : hexValue? c = some value)
    (hroom : 16 * n + value < UInt8.size) : appendDigit? n c = some (16 * n + value) := by
  rw [appendDigit?, hc, Option.bind_eq_bind, Option.bind_some, if_pos hroom]

theorem hexByte?_pair {high low : Char} (hhigh : high ∈ hexDigits) (hlow : low ∈ hexDigits) :
    hexByte? (.ofList [high, low]) = channel? high low := by
  obtain ⟨x, hx, hhighValue, -⟩ := value_of_mem_hexDigits hhigh
  obtain ⟨y, hy, hlowValue, -⟩ := value_of_mem_hexDigits hlow
  have hunsigned : high ≠ '+' := by
    rintro rfl
    exact absurd hhigh (by decide)
  have hfold : [high, low].foldlM appendDigit? 0 = some (16 * (16 * 0 + x) + y) := by
    rw [List.foldlM_cons, appendDigit?_eq hhighValue (by show _ < 256; omega), Option.bind_eq_bind,
      Option.bind_some, List.foldlM_cons, appendDigit?_eq hlowValue (by show _ < 256; omega)]
    rfl
  rw [channel?, hhighValue, hlowValue, hexByte?, String.toList_ofList]
  split
  · next heq => cases heq
  · next heq => cases heq
  · next digits _ heq =>
      injection heq with heq
      exact absurd heq hunsigned
  · rw [hfold, Nat.mul_zero, Nat.zero_add]
    rfl

theorem channelAt_eq (before : List Char) {after : List Char} {high low : Char}
    (h : ∀ d ∈ before ++ high :: low :: after, d ∈ hexDigits) :
    channelAt (.ofList (before ++ high :: low :: after)) before.length =
      .ok (channel? high low) := by
  obtain ⟨hbefore, h⟩ := List.forall_mem_append.1 h
  obtain ⟨hhigh, h⟩ := List.forall_mem_cons.1 h
  obtain ⟨hlow, -⟩ := List.forall_mem_cons.1 h
  have hpair : ∀ d ∈ [high, low], d ∈ hexDigits :=
    List.forall_mem_cons.2 ⟨hhigh, List.forall_mem_singleton.2 hlow⟩
  have hstands : Script.Stands 0 (before ++ high :: low :: after) before.length (before.length + 2)
      [high, low] := by
    refine ⟨before, after, rfl, ?_, ?_⟩
    · rw [byteLength_of_hexDigits hbefore, Nat.zero_add]
    · rw [byteLength_of_hexDigits hpair]
      rfl
  rw [← String.toList_ofList (l := before ++ high :: low :: after)] at hstands
  rw [channelAt, cutOut_of_stands hstands, ← hexByte?_pair hhigh hlow]
  rfl

/-- To have six bytes, all of them bytes of digits, is to be six digits. -/
theorem isHexText_iff_bytes {digits : List Char} :
    IsHexText (.ofList ('#' :: digits)) ↔
      (String.ofList digits).utf8ByteSize = 6 ∧
        (String.ofList digits).toUTF8.data.all isHexByte = true := by
  rw [isHexText_hash, String.toUTF8_eq_toByteArray, String.toByteArray_ofList, all_isHexByte_iff,
    Script.utf8ByteSize_eq, String.toList_ofList]
  exact and_congr_left fun h => by rw [byteLength_of_hexDigits h]

/-- A text that gets past the look at its bytes is cut into three pairs of digits. -/
theorem ofDigits_eq (digits : List Char) :
    ofDigits (.ofList digits) = .ok (ofHex? (.ofList ('#' :: digits))) := by
  rw [ofDigits]
  by_cases h : IsHexText (.ofList ('#' :: digits))
  · rw [if_pos (isHexText_iff_bytes.1 h)]
    obtain ⟨hlength, hdigits⟩ := isHexText_hash.1 h
    match digits, hlength with
    | [r₁, r₀, g₁, g₀, b₁, b₀], _ =>
        have hred := channelAt_eq [] hdigits
        have hgreen := channelAt_eq [r₁, r₀] hdigits
        have hblue := channelAt_eq [r₁, r₀, g₁, g₀] hdigits
        simp only [List.nil_append, List.cons_append, List.length_nil, List.length_cons,
          Nat.zero_add, Nat.reduceAdd] at hred hgreen hblue
        simp only [hred, hgreen, hblue, ofHex?, String.toList_ofList]
        cases channel? r₁ r₀ with
        | none => rfl
        | some r =>
            cases channel? g₁ g₀ with
            | none => rfl
            | some g => cases channel? b₁ b₀ <;> rfl
  · rw [if_neg (mt isHexText_iff_bytes.2 h)]
    have hnone : ofHex? (.ofList ('#' :: digits)) = none :=
      Option.not_isSome_iff_eq_none.1 (mt isSome_ofHex?_iff.1 h)
    rw [hnone]
    rfl

theorem ofCuts_eq (text : String) : ofCuts text = .ok (ofHex? text) := by
  rw [ofCuts]
  split
  · next digits htext => rw [ofDigits_eq, ← htext, String.ofList_toList]
  · next hhash =>
      have hnone : ofHex? text = none := by
        rw [ofHex?]
        split
        · next htext => exact absurd htext (hhash _)
        · rfl
      rw [hnone]

/-- A text is read as a color if and only if it is `#` and six hexadecimal digits, and then it
is the text of this color but for the case of letters. The color is the only one without
transparency that is written so. Each color is read from its own text, and then has no
transparency any more; in this text, each channel is a number in the base sixteen with two
digits. A reader that cuts the channels out of the bytes of a text always finds the places
between characters, and reads what is read without cuts. -/
theorem hex_text_exact (text : String) (c : Color) :
    ofCuts text = .ok (ofHex? text) ∧
    ((ofHex? text).isSome ↔ IsHexText text) ∧
    (ofHex? text = some c ↔ IsHexText text ∧ c.alpha = 255 ∧ c.toHex = text.toLower) ∧
    c.toHex.toList = '#' :: [c.red, c.green, c.blue].flatMap
      (fun channel => (Nat.toDigits 16 channel.toNat).leftpad 2 '0') ∧
    ofHex? c.toHex = some { c with alpha := 255 } := by
  refine ⟨ofCuts_eq text, isSome_ofHex?_iff, ofHex?_eq_some_iff, ?_, ofHex?_toHex c⟩
  rw [toHex, String.toList_ofList, channelText_eq, channelText_eq, channelText_eq]
  simp only [List.flatMap_cons, List.flatMap_nil, List.append_nil, List.cons_append,
    List.append_assoc]

example : ofCuts "#FF8000" = .ok (some (rgb 255 128 0)) ∧ ofCuts "#aéaé" = .ok none ∧
    ofCuts "#+f+f+f" = .ok none ∧ ofCuts "##12345" = .ok none := by decide +kernel

end Color

end Lindenmayer
