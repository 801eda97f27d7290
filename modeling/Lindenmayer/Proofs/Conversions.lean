import Lindenmayer.Proofs.Continuations
import Lindenmayer.Proofs.Spans

/-!
# Conversions never fail

The text of a token is turned into a value: a letter into its character, the text of a
color into a color, a numeral into a double or a whole number. Each conversion has a
domain of its own, which was not made for the terminal, and complains about all other
texts. The reader of doubles knows signs, exponents, infinities and `nan`, and a number
may lack its digits on one side of the point. The reader of whole numbers allows for a
plus sign.

No token makes them complain. Whatever a terminal matches is converted, and the value is
the one that the parser takes for granted. The only thing that can be wrong with a whole
number is its size.
-/

namespace Lindenmayer

/-! ## Doubles in general -/

namespace Number

def digits? (ds : List Char) : Option Nat :=
  if ds ≠ [] ∧ ds.all Char.isDigit then some (digitsValue ds) else none

def exponent? : List Char → Option Int
  | [] => some 0
  | e :: cs =>
      if e.toLower = 'e' then
        match cs with
        | '-' :: ds => (digits? ds).map fun n => -(n : Int)
        | '+' :: ds => (digits? ds).map Int.ofNat
        | ds => (digits? ds).map Int.ofNat
      else none

/-- The double nearest to `significand * 10 ^ exponent`. -/
def ofDecimal (significand : Nat) (exponent : Int) : Float :=
  .ofScientific significand (exponent ≤ 0) exponent.natAbs

/-- The double that digits with a point before, among or behind them spell, and perhaps
an exponent. -/
def decimal? (cs : List Char) : Option Float :=
  let whole := cs.takeWhile Char.isDigit
  let (fraction, rest) :=
    match cs.dropWhile Char.isDigit with
    | '.' :: more => (more.takeWhile Char.isDigit, more.dropWhile Char.isDigit)
    | more => ([], more)
  if whole ++ fraction = [] then none
  else
    (exponent? rest).map fun e =>
      ofDecimal (digitsValue (whole ++ fraction)) (e - fraction.length)

/-- The double that a text without a sign spells. -/
def magnitude? (cs : List Char) : Option Float :=
  let word := String.ofList (cs.map Char.toLower)
  if word = "inf" ∨ word = "infinity" then some (1 / 0)
  else if word = "nan" then some (0 / 0)
  else decimal? cs

/-- The double that a text spells. -/
def double? : List Char → Option Float
  | '-' :: cs => (magnitude? cs).map (-·)
  | '+' :: cs => magnitude? cs
  | cs => magnitude? cs

end Number

namespace Script

open Number

theorem toLower_of_isDigit {c : Char} (h : c.isDigit = true) : c.toLower = c := by
  have hd := toNat_of_isDigit h
  have hupper : ¬ (c.val ≥ 'A'.val ∧ c.val ≤ 'Z'.val) := by
    rintro ⟨hlow, -⟩
    have hlow : 65 ≤ c.toNat := UInt32.le_iff_toNat_le.1 hlow
    omega
  exact dif_neg hupper

theorem ofDecimal_fraction (significand n : Nat) :
    ofDecimal significand (0 - (n : Int)) = .ofScientific significand true n := by
  have hle : (0 : Int) - n ≤ 0 := by omega
  have habs : ((0 : Int) - n).natAbs = n := by omega
  rw [ofDecimal, habs, decide_eq_true hle]

section

variable {whole fraction : List Char} (hwhole : Digits whole) (hfraction : Digits fraction)

include hwhole

/-- Digits are not a word. -/
theorem magnitude?_of_digits (more : List Char) :
    magnitude? (whole ++ more) = decimal? (whole ++ more) := by
  obtain ⟨c, cs, rfl⟩ := List.exists_cons_of_ne_nil hwhole.1
  have hc := hwhole.2 c List.mem_cons_self
  -- A word begins with a character that is not a digit, and lower case leaves digits alone.
  have hne : ∀ {d : Char} {ds : List Char}, d.isDigit = false →
      String.ofList ((c :: cs ++ more).map Char.toLower) ≠ String.ofList (d :: ds) := by
    intro d ds hd heq
    rw [List.cons_append, List.map_cons, toLower_of_isDigit hc] at heq
    injection String.ofList_inj.1 heq with heq
    rw [heq, hd] at hc
    cases hc
  have hinf : ¬ (String.ofList ((c :: cs ++ more).map Char.toLower) = "inf" ∨
      String.ofList ((c :: cs ++ more).map Char.toLower) = "infinity") :=
    not_or.2 ⟨hne (d := 'i') (by decide), hne (d := 'i') (by decide)⟩
  rw [magnitude?, if_neg hinf, if_neg (hne (d := 'n') (by decide))]

theorem double?_of_digits (more : List Char) :
    double? (whole ++ more) = decimal? (whole ++ more) := by
  rw [← magnitude?_of_digits hwhole more, double?]
  · exact fun _ => hwhole.append_ne_cons (by decide)
  · exact fun _ => hwhole.append_ne_cons (by decide)

theorem numeralValue_of_digits (more : List Char) :
    numeralValue (whole ++ more) = unsignedValue (whole ++ more) := by
  rw [numeralValue]
  exact fun _ => hwhole.append_ne_cons (by decide)

theorem decimal?_whole : decimal? whole = some (unsignedValue whole) := by
  have htake : whole.takeWhile Char.isDigit = whole := List.takeWhile_eq_self_iff.2 hwhole.2
  have hdrop : whole.dropWhile Char.isDigit = [] := List.dropWhile_eq_nil_iff.2 hwhole.2
  simp [decimal?, unsignedValue, htake, hdrop, hwhole.1, exponent?, ← ofDecimal_fraction]

include hfraction

theorem decimal?_fraction :
    decimal? (whole ++ '.' :: fraction) = some (unsignedValue (whole ++ '.' :: fraction)) := by
  have htake : (whole ++ '.' :: fraction).takeWhile Char.isDigit = whole := by
    rw [List.takeWhile_append_of_pos hwhole.2]
    simp
  have hdrop : (whole ++ '.' :: fraction).dropWhile Char.isDigit = '.' :: fraction := by
    rw [List.dropWhile_append_of_pos hwhole.2]
    simp
  have hftake : fraction.takeWhile Char.isDigit = fraction :=
    List.takeWhile_eq_self_iff.2 hfraction.2
  have hfdrop : fraction.dropWhile Char.isDigit = [] := List.dropWhile_eq_nil_iff.2 hfraction.2
  simp [decimal?, unsignedValue, htake, hdrop, hftake, hfdrop, hwhole.1, exponent?,
    ← ofDecimal_fraction]

end

/-! ## What is behind a terminal -/

/-- What a token is turned into. -/
inductive Value where
  | letter (c : Char)
  | color (c : Color)
  | number (x : Float)
  /-- Nothing is made of the text. -/
  | plain

namespace Terminal

/-- The conversion behind a terminal, with its complaint. -/
def convert (t : Terminal) (text : List Char) : Except String Value :=
  match t with
  | .letter =>
      match text.head? with
      | some c => .ok (.letter c)
      | none => .error "empty literal"
  | .color =>
      match Color.ofHex? (.ofList text) with
      | some c => .ok (.color c)
      | none => .error "invalid color"
  | .digits | .negative | .decimal =>
      match double? text with
      | some x => .ok (.number x)
      | none => .error "invalid number"
  | _ => .ok .plain

/-- The value that the parser makes of a text without looking for errors. -/
def value (t : Terminal) (text : List Char) : Value :=
  match t with
  | .letter => .letter (text.headD 'A')
  | .color => .color ((Color.ofHex? (.ofList text)).getD .black)
  | .digits | .negative | .decimal => .number (numeralValue text)
  | _ => .plain

theorem Matches.double? {t : Terminal} {text : List Char} (h : t.Matches text)
    (ht : t ∈ [.digits, .negative, .decimal]) : double? text = some (numeralValue text) := by
  cases h with
  | word hword =>
      simp only [List.mem_cons, List.not_mem_nil, or_false] at ht
      obtain rfl | rfl | rfl := ht <;> cases hword
  | decimal hwhole hfraction =>
      rw [double?_of_digits hwhole, numeralValue_of_digits hwhole,
        decimal?_fraction hwhole hfraction]
  | @negativeDecimal whole fraction hwhole hfraction =>
      show (magnitude? (whole ++ '.' :: fraction)).map (-·) =
        some (-unsignedValue (whole ++ '.' :: fraction))
      rw [magnitude?_of_digits hwhole, decimal?_fraction hwhole hfraction]
      rfl
  | @negative ds h =>
      have hmagnitude := magnitude?_of_digits h []
      rw [List.append_nil, decimal?_whole h] at hmagnitude
      show (magnitude? ds).map (-·) = some (-unsignedValue ds)
      rw [hmagnitude]
      rfl
  | digits h =>
      have hdouble := double?_of_digits h []
      have hvalue := numeralValue_of_digits h []
      rw [List.append_nil] at hdouble hvalue
      rw [hdouble, hvalue, decimal?_whole h]
  | color | letter | quoted => simp at ht

/-- The conversion behind a terminal accepts all of its texts. -/
theorem Matches.convert {t : Terminal} {text : List Char} (h : t.Matches text) :
    t.convert text = .ok (t.value text) := by
  cases t with
  | letter =>
      obtain ⟨c, rfl⟩ := exists_letter h
      rfl
  | color =>
      cases h with
      | word hword => cases hword
      | color hlength hhex =>
          obtain ⟨c, hc, _⟩ := exists_colorRule hlength hhex
          simp only [Terminal.convert, value, hc, Option.getD_some]
  | digits | negative | decimal =>
      have hdouble := h.double? (by simp)
      simp only [Terminal.convert, value, hdouble]
  | _ => rfl

end Terminal

/-- The only thing that can be wrong with a whole number is its size. -/
theorem unsigned?_of_digits {ds : List Char} (h : Terminal.digits.Matches ds) (limit : Nat) :
    unsigned? limit (.ofList ds) =
      if digitsValue ds ≤ limit then some (digitsValue ds) else none := by
  have hds : Digits ds := by
    cases h with
    | word hword => cases hword
    | digits h => exact h
  have hplain : ∀ cs, ds ≠ '+' :: cs := by
    intro cs heq
    have hne : ds ++ [] ≠ '+' :: cs := hds.append_ne_cons (by decide)
    exact hne (by rw [List.append_nil, heq])
  rw [unsigned?, String.toList_ofList]
  split
  · next cs => exact absurd rfl (hplain cs)
  · simp [hds.1, List.all_eq_true.2 hds.2]

/-! ## Reading with conversions -/

/-- Why a text is not read if conversions may fail. -/
inductive ReadError where
  | refused (e : SyntaxError)
  | unconvertible (complaint : String)

/-- Takes a token, and converts its text. A numeral is converted to a double, also where a
whole number is meant. -/
def Progress.takeConverting (entry : Entry) (p : Progress) (token : Token) :
    Except ReadError Progress := do
  let q ← (p.take entry token).mapError .refused
  let _ ← (token.terminal.convert token.text).mapError .unconvertible
  return q

def readConverting (entry : Entry) (text : String) : Except ReadError Progress := do
  let (tokens, ending) := tokenize text
  let p ← tokens.foldlM (Progress.takeConverting entry) {}
  match ending with
  | .invalid position => throw (.refused (.invalidToken position))
  | .complete => (p.finish entry (endOf tokens)).mapError .refused

theorem takeConverting_eq {entry : Entry} {p : Progress} {token : Token}
    (h : token.terminal.Matches token.text) :
    p.takeConverting entry token = (p.take entry token).mapError .refused := by
  rw [Progress.takeConverting, h.convert]
  cases p.take entry token <;> rfl

theorem foldlM_takeConverting {entry : Entry} {tokens : List Token} {p : Progress}
    (h : ∀ token ∈ tokens, token.terminal.Matches token.text) :
    tokens.foldlM (Progress.takeConverting entry) p =
      (tokens.foldlM (Progress.take entry) p).mapError .refused := by
  induction tokens generalizing p with
  | nil => rfl
  | cons token tokens ih =>
      obtain ⟨htoken, htokens⟩ := List.forall_mem_cons.1 h
      rw [List.foldlM_cons, List.foldlM_cons, takeConverting_eq htoken]
      cases p.take entry token with
      | error e => rfl
      | ok q => exact ih htokens

/-- No conversion fails. -/
theorem readConverting_eq (entry : Entry) (text : String) :
    readConverting entry text = (read entry text).mapError .refused := by
  have hcuts : Cuts 0 text.toList (tokenize text).1 (tokenize text).2 := tokenize_eq_iff.1 rfl
  simp only [readConverting, read, readTokens, foldlM_takeConverting hcuts.matched]
  cases (tokenize text).1.foldlM (Progress.take entry) {} with
  | error e => rfl
  | ok p => cases (tokenize text).2 <;> rfl

end Script

end Lindenmayer
