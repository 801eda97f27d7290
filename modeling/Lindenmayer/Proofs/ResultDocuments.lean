import Lindenmayer.Proofs.Unambiguous

/-!
# Results as documents

A result is written with the keys of every object in the order in which its fields are
declared. The document is well formed whatever the result is: of coordinates that are not
finite, nothing is left but `null`.

If all coordinates are finite, nothing is lost. The value that is written can be told from its
text, and the result from the value, field by field. Cases of a choice have names of their own,
and what may be absent is never written as the `null` that stands for its absence.
-/

namespace Lindenmayer

/-! ## The coordinates of a result -/

def Point.coordinates (p : Point) : List Float := [p.x, p.y]

def Line.coordinates (l : Line) : List Float := l.start.coordinates ++ l.stop.coordinates

def Rect.coordinates (r : Rect) : List Float := r.origin.coordinates ++ r.lowerRight.coordinates

/-- All coordinates in a result: of its segments, of the segments before them, and of its
bounds. -/
def Result.coordinates (r : Result) : List Float :=
  r.segments.toList.flatMap (·.line.coordinates) ++
    (r.previousSegments.getD #[]).toList.flatMap (·.line.coordinates) ++
      r.bounds.toList.flatMap Rect.coordinates

namespace Json

/-! ## The order of keys -/

/-- What a document holds, with the keys of its objects in their order. -/
inductive Schema where
  | number
  | natural
  | char
  /-- Either `null` or a value. -/
  | optional (schema : Schema)
  | list (schema : Schema)
  | record (fields : List (String × Schema))
  /-- The name of a case, or an object with the name of a case for its only key. -/
  | choice (plain : List String) (carrying : List (String × Schema))

namespace Schema

mutual

/-- Whether a value is as the schema says. -/
def describes : Schema → Json → Bool
  | number, .number _ => true
  | natural, .natural _ => true
  | char, .string s => s.toList.length = 1
  | optional _, .null => true
  | optional schema, value => describes schema value
  | list schema, .array es => es.all (describes schema)
  | record fields, .object members => describesMembers fields members
  | choice plain _, .string name => plain.contains name
  | choice _ carrying, .object [(name, value)] => describesCase carrying name value
  | _, _ => false

/-- Whether an object has exactly these fields, one after another. -/
def describesMembers : List (String × Schema) → List (String × Json) → Bool
  | [], [] => true
  | (name, schema) :: fields, (key, value) :: members =>
      key = name && describes schema value && describesMembers fields members
  | _, _ => false

/-- Whether a value is what the case of this name carries. -/
def describesCase : List (String × Schema) → String → Json → Bool
  | [], _, _ => false
  | (name, schema) :: cases, key, value =>
      key = name && describes schema value || describesCase cases key value

end

def point : Schema := .record [("x", .number), ("y", .number)]

def line : Schema := .record [("from", point), ("to", point)]

def segment : Schema := .record [("line", line), ("color_num", .natural)]

def color : Schema := .record [("r", .natural), ("g", .natural), ("b", .natural), ("a", .natural)]

def rect : Schema := .record [("origin", point), ("lower_right", point)]

def error : Schema :=
  .choice ["NoLiterals"]
    [("InvalidLiteral", .char), ("DuplicateLiteral", .char),
      ("UnexpectedLiteral", .record [("symbol", .char), ("literal", .char)]),
      ("BracketsMismatch", .record [("literal", .char)])]

def outcome : Schema := .choice ["Ok", "ExceedStackSize"] [("InvalidConfig", error)]

/-- The fields of a result and of everything in it, as they are declared. -/
def result : Schema :=
  .record
    [("kind", outcome), ("segments", .list segment),
      ("previous_segments", .optional (.list segment)), ("iterations", .natural),
      ("colors", .list color), ("bounds", .optional rect), ("flags", .record [("bits", .natural)])]

theorem describes_char (c : Char) : char.describes (encode c) = true := by
  show decide ((String.singleton c).toList.length = 1) = true
  rw [String.toList_singleton]
  rfl

theorem describes_map {α : Type} {schema : Schema} {write : α → Json}
    (h : ∀ a, schema.describes (write a) = true) (as : List α) :
    (list schema).describes (.array (as.map write)) = true := by
  rw [describes, List.all_map, List.all_eq_true]
  exact fun a _ => h a

theorem describes_optional {schema : Schema} {value : Json} (h : schema.describes value = true) :
    (optional schema).describes value = true := by
  cases value with
  | null => rfl
  | _ => exact h

theorem describes_segments (segments : Array Segment) :
    (list segment).describes (ofSegments segments) = true :=
  describes_map (fun _ => rfl) segments.toList

theorem describes_error (e : ConfigError) : error.describes (ofConfigError e) = true := by
  cases e <;>
    simp [ofConfigError, tagged, error, describes, describesCase, describesMembers, describes_char]

theorem describes_outcome (o : Outcome) : outcome.describes (ofOutcome o) = true := by
  cases o <;> simp [ofOutcome, tagged, outcome, describes, describesCase, describes_error]

theorem describes_result (r : Result) : result.describes (ofResult r) = true := by
  have hprevious : (optional (list segment)).describes
      ((r.previousSegments.map ofSegments).getD .null) = true := by
    cases r.previousSegments with
    | none => rfl
    | some segments => exact describes_optional (describes_segments segments)
  have hcolors : (list color).describes (encode r.colors.toList) = true :=
    describes_map (fun _ => rfl) r.colors.toList
  have hbounds : (optional rect).describes (encode r.bounds) = true := by
    cases r.bounds <;> rfl
  have hbits : natural.describes (encode r.anomalies.bits) = true := rfl
  simp [ofResult, result, describes, describesMembers, describes_outcome, describes_segments,
    hprevious, hcolors, hbounds, hbits]

end Schema

/-! ## Results are legible -/

theorem legible_natural (n : Nat) : Legible (.natural n) := .scalar (.numeral (.natural n))

theorem legible_char (c : Char) : Legible (encode c) := .string _

theorem legible_point {p : Point} (h : ∀ x ∈ p.coordinates, x.isFinite = true) :
    Legible (encode p) := by
  simp only [Point.coordinates, List.forall_mem_cons] at h
  exact .object (by simpa using
    ⟨Legible.scalar (.numeral (.number h.1)), Legible.scalar (.numeral (.number h.2.1))⟩)

theorem legible_line {l : Line} (h : ∀ x ∈ l.coordinates, x.isFinite = true) :
    Legible (encode l) := by
  rw [Line.coordinates, List.forall_mem_append] at h
  exact .object (by simpa using ⟨legible_point h.1, legible_point h.2⟩)

theorem legible_rect {r : Rect} (h : ∀ x ∈ r.coordinates, x.isFinite = true) :
    Legible (encode r) := by
  rw [Rect.coordinates, List.forall_mem_append] at h
  exact .object (by simpa using ⟨legible_point h.1, legible_point h.2⟩)

theorem legible_color (c : Color) : Legible (encode c) :=
  .object (by simpa using
    ⟨legible_natural _, legible_natural _, legible_natural _, legible_natural _⟩)

theorem legible_segments {segments : Array Segment}
    (h : ∀ x ∈ segments.toList.flatMap (·.line.coordinates), x.isFinite = true) :
    Legible (ofSegments segments) := by
  rw [List.forall_mem_flatMap] at h
  refine .array ?_
  intro e he
  obtain ⟨s, hs, rfl⟩ := List.mem_map.1 he
  exact .object (by simpa using ⟨legible_line (h s hs), legible_natural _⟩)

theorem legible_tagged (name : String) {value : Json} (h : Legible value) :
    Legible (tagged name value) := .object (by simpa using h)

theorem legible_error (e : ConfigError) : Legible (ofConfigError e) := by
  cases e with
  | noLiterals => exact .string _
  | invalidLiteral c => exact legible_tagged _ (legible_char c)
  | duplicateLiteral c => exact legible_tagged _ (legible_char c)
  | unexpectedLiteral symbol c =>
      exact legible_tagged _ (.object (by simpa using ⟨legible_char symbol, legible_char c⟩))
  | bracketsMismatch c => exact legible_tagged _ (.object (by simpa using legible_char c))

theorem legible_outcome (o : Outcome) : Legible (ofOutcome o) := by
  cases o with
  | ok => exact .string _
  | invalidConfig e => exact legible_tagged _ (legible_error e)
  | boundExceeded => exact .string _

theorem legible_result {r : Result} (h : ∀ x ∈ r.coordinates, x.isFinite = true) :
    Legible (ofResult r) := by
  rw [Result.coordinates, List.forall_mem_append, List.forall_mem_append] at h
  obtain ⟨⟨hsegments, hprevious⟩, hbounds⟩ := h
  have hprevious : Legible ((r.previousSegments.map ofSegments).getD .null) := by
    cases hr : r.previousSegments with
    | none => exact .scalar (.word .null)
    | some segments =>
        rw [hr] at hprevious
        exact legible_segments hprevious
  have hbounds : Legible (encode r.bounds) := by
    cases hr : r.bounds with
    | none => exact .scalar (.word .null)
    | some bounds =>
        rw [hr] at hbounds
        exact legible_rect (by simpa using hbounds)
  have hcolors : Legible (encode r.colors.toList) := by
    refine .array ?_
    intro e he
    obtain ⟨c, -, rfl⟩ := List.mem_map.1 he
    exact legible_color c
  have hbits : Legible (encode r.anomalies.bits) := legible_natural _
  have hflags : Legible (.object [("bits", encode r.anomalies.bits)]) :=
    .object (by simpa using hbits)
  exact .object (by simpa using ⟨legible_outcome r.outcome, legible_segments hsegments, hprevious,
    legible_natural _, hcolors, hbounds, hflags⟩)

/-! ## Results from their encodings -/

theorem encode_injective {α : Type} [Codec α] [LawfulCodec α] {a b : α}
    (h : encode a = encode b) : a = b := by
  have hb := decode?_encode b
  rw [← h, decode?_encode] at hb
  exact Option.some.inj hb

instance : LawfulCodec Point := ⟨fun _ => rfl⟩

instance : LawfulCodec Line := ⟨fun _ => rfl⟩

instance : LawfulCodec Rect := ⟨fun _ => rfl⟩

instance : LawfulCodec (Option Rect) := ⟨fun o => by
  cases o with
  | none => rfl
  | some r => exact congrArg (Option.map some) (decode?_encode r)⟩

theorem encode_inj {α : Type} [Codec α] [LawfulCodec α] {a b : α} :
    encode a = encode b ↔ a = b := ⟨encode_injective, congrArg encode⟩

theorem ofSegment_injective : Function.Injective ofSegment := by
  intro s t h
  simp only [ofSegment, object.injEq, List.cons.injEq, Prod.mk.injEq, true_and, and_true] at h
  obtain ⟨l, n⟩ := s
  obtain ⟨l', n'⟩ := t
  have hline : l = l' := encode_injective h.1
  have hnumber : n = n' := encode_injective h.2
  rw [hline, hnumber]

theorem ofSegments_injective : Function.Injective ofSegments := by
  intro s t h
  rw [ofSegments, ofSegments, array.injEq] at h
  exact Array.toList_inj.1 (ofSegment_injective.list_map h)

/-- No segments at all are not the same as no previous segments. -/
theorem previous_injective :
    Function.Injective fun previous : Option (Array Segment) =>
      (previous.map ofSegments).getD .null := by
  intro p q h
  cases p with
  | none =>
      cases q with
      | none => rfl
      | some segments => cases h
  | some segments =>
      cases q with
      | none => cases h
      | some segments' => exact congrArg some (ofSegments_injective h)

theorem ofConfigError_injective : Function.Injective ofConfigError := by
  intro e f h
  cases e <;> cases f <;> simp_all [ofConfigError, tagged, encode_inj]

theorem ofOutcome_injective : Function.Injective ofOutcome := by
  intro o p h
  cases o <;> cases p <;> simp_all [ofOutcome, tagged, ofConfigError_injective.eq_iff]

theorem ofResult_injective : Function.Injective ofResult := by
  intro r s h
  simp only [ofResult, object.injEq, List.cons.injEq, Prod.mk.injEq, true_and, and_true,
    natural.injEq] at h
  obtain ⟨hkind, hsegments, hprevious, hiterations, hcolors, hbounds, hbits⟩ := h
  have hprevious := previous_injective hprevious
  have hcolors := Array.toList_inj.1 (encode_injective hcolors)
  have hkind := ofOutcome_injective hkind
  have hsegments := ofSegments_injective hsegments
  have hbounds := encode_injective hbounds
  have hbits := encode_injective hbits
  obtain ⟨kind, segments, previous, iterations, colors, bounds, ⟨bits⟩⟩ := r
  obtain ⟨kind', segments', previous', iterations', colors', bounds', ⟨bits'⟩⟩ := s
  subst hkind hsegments hprevious hiterations hcolors hbounds hbits
  rfl

/-! ## Documents -/

/-- What is squeezed out of the pretty form of a value is its compact form. -/
theorem squeeze_pretty (value : Json) :
    squeeze .outside value.pretty.toList = value.compact.toList :=
  squeeze_render isLayout_pretty value

theorem written_pretty (value : Json) : Written value value.pretty.toList :=
  written_render isLayout_pretty value

theorem Legible.eq_of_pretty_eq {v w : Json} (hv : Legible v) (hw : Legible w)
    (h : v.pretty = w.pretty) : v = w := by
  refine hv.injective hw ?_
  rw [compactText, compactText, ← squeeze_pretty, ← squeeze_pretty, h]

/-- The document of a result is well formed, with its keys in order, and is the compact form
but for white space outside strings. Results with finite coordinates are equal if their
documents are. -/
theorem result_document_loses_nothing :
    (∀ r : Result,
      Schema.result.describes (ofResult r) = true ∧
        Written (ofResult r) (ofResult r).pretty.toList ∧
        WellFormed (ofResult r).pretty.toList ∧
        squeeze .outside (ofResult r).pretty.toList = (ofResult r).compact.toList) ∧
      ∀ r s : Result, (∀ x ∈ r.coordinates, x.isFinite = true) →
        (∀ x ∈ s.coordinates, x.isFinite = true) →
        ((ofResult r).pretty = (ofResult s).pretty ∨
          (ofResult r).compact = (ofResult s).compact) → r = s := by
  refine ⟨fun r => ?_, fun r s hr hs hsame => ?_⟩
  · have hwritten := written_pretty (ofResult r)
    exact ⟨Schema.describes_result r, hwritten, hwritten.wellFormed, squeeze_pretty _⟩
  · have hr := legible_result hr
    have hs := legible_result hs
    refine ofResult_injective ?_
    rcases hsame with hpretty | hcompact
    · exact hr.eq_of_pretty_eq hs hpretty
    · exact hr.injective hs (congrArg String.toList hcompact)

/-- A dot at the given height. -/
def dotAt (y : Float) : Result :=
  { outcome := .ok, segments := #[⟨⟨⟨0, y⟩, ⟨0, y⟩⟩, 0⟩], colors := #[⟨0, 0, 0, 255⟩] }

/-- The sign of a zero is not lost. -/
theorem result_document_loses_nothing_zeros :
    (∀ x ∈ (dotAt 0.0).coordinates, x.isFinite = true) ∧
      (∀ x ∈ (dotAt (-0.0)).coordinates, x.isFinite = true) ∧
      (ofResult (dotAt 0.0)).pretty ≠ (ofResult (dotAt (-0.0))).pretty := by
  have hpositive : ∀ x ∈ (dotAt 0.0).coordinates, x.isFinite = true := by decide +kernel
  have hnegative : ∀ x ∈ (dotAt (-0.0)).coordinates, x.isFinite = true := by decide +kernel
  refine ⟨hpositive, hnegative, fun h => ?_⟩
  have hsame : dotAt 0.0 = dotAt (-0.0) :=
    result_document_loses_nothing.2 _ _ hpositive hnegative (.inl h)
  exact absurd hsame (by decide +kernel)

end Json

end Lindenmayer
