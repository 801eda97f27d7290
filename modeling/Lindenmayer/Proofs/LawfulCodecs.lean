import Lindenmayer.Proofs.CompactForm

/-!
# Records recovered from their encodings

Two facts about a type are carried by classes, so that they follow for lists, optional
values and records of it. A codec is lawful if it gets every value back from its
encoding. It is free of doubles if every encoding is laid out as it is written and
nothing in it changes when its doubles are read back.

Everything in a configuration but five numbers is of the second kind.
-/

namespace Lindenmayer.Json

/-- A codec that loses nothing. -/
class LawfulCodec (α : Type) [Codec α] : Prop where
  decode?_encode : ∀ a : α, Codec.decode? (encode a) = some a

export LawfulCodec (decode?_encode)

instance : LawfulCodec Float := ⟨fun _ => rfl⟩

instance : LawfulCodec Char := ⟨fun c => by
  show (String.singleton c).toList.head? = some c
  simp⟩

instance : LawfulCodec String := ⟨fun _ => rfl⟩

instance : LawfulCodec UInt8 := ⟨fun n => congrArg some n.ofNat_toNat⟩

instance : LawfulCodec UInt32 := ⟨fun n => congrArg some n.ofNat_toNat⟩

instance : LawfulCodec UInt64 := ⟨fun n => congrArg some n.ofNat_toNat⟩

instance : LawfulCodec (Option UInt64) := ⟨fun o => by
  cases o with
  | none => rfl
  | some n => exact congrArg (Option.map some) (decode?_encode n)⟩

instance {α : Type} [Codec α] [LawfulCodec α] : LawfulCodec (List α) := ⟨fun as => by
  show (as.map encode).mapM Codec.decode? = some as
  induction as with
  | nil => rfl
  | cons a as ih =>
      rw [List.map_cons, List.mapM_cons, decode?_encode, ih]
      rfl⟩

instance : LawfulCodec Color := ⟨fun c => by
  show (do return ⟨← Codec.decode? (encode c.red), ← Codec.decode? (encode c.green),
    ← Codec.decode? (encode c.blue), ← Codec.decode? (encode c.alpha)⟩) = some c
  simp only [decode?_encode]
  rfl⟩

instance : LawfulCodec Effects := ⟨fun f => by
  show (do return ⟨← Codec.decode? (encode f.bits)⟩) = some f
  simp only [decode?_encode]
  rfl⟩

instance : LawfulCodec Definition := ⟨fun d => by
  show (do return ⟨← Codec.decode? (encode d.literal), ← Codec.decode? (encode d.actions),
    ← Codec.decode? (encode d.color), ← Codec.decode? (encode d.effects)⟩) = some d
  simp only [decode?_encode]
  rfl⟩

instance : LawfulCodec Config := ⟨fun c => by
  show (do
    return {
      definitions := ← Codec.decode? (encode c.definitions)
      turnLeft := ← Codec.decode? (encode c.turnLeft)
      turnRight := ← Codec.decode? (encode c.turnRight)
      scaling := ← Codec.decode? (encode c.scaling)
      startAngle := ← Codec.decode? (encode c.startAngle)
      stepSize := ← Codec.decode? (encode c.stepSize)
      iterations := ← Codec.decode? (encode c.iterations)
      stackSize := ← Codec.decode? (encode c.stackSize) }) = some c
  simp only [decode?_encode]
  rfl⟩

/-! ## Encodings without doubles

They are laid out in the compact form, and there is nothing in them to be read back as
anything else. -/

/-- A codec that writes no doubles. -/
class NumberFree (α : Type) [Codec α] : Prop where
  laidOut : ∀ a : α, LaidOut (Codec.shape α) (encode a) (compactText (encode a))
  mapNumbers_encode : ∀ (f : Float → Float) (a : α), (encode a).mapNumbers f = encode a

export NumberFree (mapNumbers_encode)

theorem compactText_leaf {value : Json} {s : String}
    (h : ∀ rest, value.pieces 0 rest = .text s :: rest) : compactText value = s.toList := by
  rw [compactText_eq, h, piecesText_cons]
  exact List.append_nil _

theorem compactText_natural (n : Nat) : compactText (.natural n) = n.repr.toList :=
  compactText_leaf fun _ => rfl

theorem compactText_string (s : String) : compactText (.string s) = (quote s).toList :=
  compactText_leaf fun _ => rfl

theorem compactText_number (x : Float) :
    compactText (.number x) = (numberLayout.text x).toList :=
  compactText_leaf fun _ => rfl

theorem laidOut_natural {n limit : Nat} (hn : n ≤ limit) (hlimit : limit ≤ wordLimit) :
    LaidOut (.natural limit) (.natural n) (compactText (.natural n)) := by
  rw [compactText_natural]
  exact LaidOut.natural hn hlimit

instance : NumberFree Char where
  laidOut c := by
    show LaidOut .char (.string (.singleton c)) (compactText (.string (.singleton c)))
    rw [compactText_string]
    have hquoted := quoted_quote (String.singleton c)
    rw [String.toList_singleton] at hquoted
    exact LaidOut.char hquoted
  mapNumbers_encode _ _ := rfl

instance : NumberFree String where
  laidOut s := by
    show LaidOut .string (.string s) (compactText (.string s))
    rw [compactText_string]
    exact LaidOut.string (quoted_quote s)
  mapNumbers_encode _ _ := rfl

instance : NumberFree UInt8 where
  laidOut n := laidOut_natural (Nat.le_pred_of_lt n.toNat_lt) (by decide)
  mapNumbers_encode _ _ := rfl

instance : NumberFree UInt32 where
  laidOut n := laidOut_natural (Nat.le_pred_of_lt n.toNat_lt) (by decide)
  mapNumbers_encode _ _ := rfl

instance : NumberFree UInt64 where
  laidOut n := laidOut_natural (Nat.le_pred_of_lt n.toNat_lt) (Nat.le_refl _)
  mapNumbers_encode _ _ := rfl

instance {α : Type} [Codec α] [NumberFree α] : NumberFree (Option α) where
  laidOut o := by
    cases o with
    | none => exact LaidOut.null
    | some a => exact LaidOut.present (NumberFree.laidOut a)
  mapNumbers_encode f o := by
    cases o with
    | none => rfl
    | some a => exact mapNumbers_encode f a

instance {α : Type} [Codec α] [NumberFree α] : NumberFree (List α) where
  laidOut as := by
    refine laidOut_list fun e he => ?_
    obtain ⟨a, _, rfl⟩ := List.mem_map.1 he
    exact NumberFree.laidOut a
  mapNumbers_encode f as := by
    show mapNumbers f (.array (as.map encode)) = .array (as.map encode)
    rw [mapNumbers, mapElements_eq_map, List.map_map]
    exact congrArg _ (List.map_congr_left fun a _ => mapNumbers_encode f a)

/-- A field of a record in the compact form. -/
def entryOf {α : Type} [Codec α] (name : String) (a : α) : Entry :=
  ⟨name, Codec.shape α, encode a, compactText (encode a)⟩

@[simp] theorem isCompact_entryOf {α : Type} [Codec α] (name : String) (a : α) :
    (entryOf name a).IsCompact := rfl

/-- An entry without doubles in the compact form. -/
structure Entry.IsNumberFree (e : Entry) : Prop where
  compact : e.IsCompact
  laidOut : LaidOut e.shape e.value e.text
  mapNumbers_value : ∀ f, e.value.mapNumbers f = e.value

@[simp] theorem isNumberFree_entryOf {α : Type} [Codec α] [NumberFree α] (name : String) (a : α) :
    (entryOf name a).IsNumberFree :=
  ⟨rfl, NumberFree.laidOut a, fun f => mapNumbers_encode f a⟩

theorem mapNumbers_of_isNumberFree {entries : List Entry} (h : ∀ e ∈ entries, e.IsNumberFree)
    (f : Float → Float) :
    mapNumbers f (.object (entries.map Entry.member)) = .object (entries.map Entry.member) := by
  rw [mapNumbers, mapMembers_eq_map, List.map_map]
  refine congrArg _ (List.map_congr_left fun e he => ?_)
  show (e.name, e.value.mapNumbers f) = (e.name, e.value)
  rw [(h e he).mapNumbers_value f]

theorem laidOut_of_isNumberFree {entries : List Entry} (h : ∀ e ∈ entries, e.IsNumberFree)
    (hnodup : (entries.map Entry.name).Nodup) :
    LaidOut (.record (entries.map Entry.field)) (.object (entries.map Entry.member))
      (compactText (.object (entries.map Entry.member))) :=
  laidOut_record hnodup (fun e he => (h e he).compact) fun e he => (h e he).laidOut

def colorEntries (c : Color) : List Entry :=
  [entryOf "r" c.red, entryOf "g" c.green, entryOf "b" c.blue, entryOf "a" c.alpha]

def effectsEntries (f : Effects) : List Entry := [entryOf "bits" f.bits]

theorem isNumberFree_colorEntries (c : Color) : ∀ e ∈ colorEntries c, e.IsNumberFree := by
  simp [colorEntries]

theorem isNumberFree_effectsEntries (f : Effects) : ∀ e ∈ effectsEntries f, e.IsNumberFree := by
  simp [effectsEntries]

instance : NumberFree Color where
  laidOut c := by
    refine laidOut_of_isNumberFree (isNumberFree_colorEntries c) ?_
    show ["r", "g", "b", "a"].Nodup
    decide
  mapNumbers_encode f c := mapNumbers_of_isNumberFree (isNumberFree_colorEntries c) f

instance : NumberFree Effects where
  laidOut x := by
    refine laidOut_of_isNumberFree (isNumberFree_effectsEntries x) ?_
    show ["bits"].Nodup
    decide
  mapNumbers_encode f x := mapNumbers_of_isNumberFree (isNumberFree_effectsEntries x) f

def definitionEntries (d : Definition) : List Entry :=
  [entryOf "literal" d.literal, entryOf "actions" d.actions, entryOf "color" d.color,
    entryOf "flags" d.effects]

theorem isNumberFree_definitionEntries (d : Definition) :
    ∀ e ∈ definitionEntries d, e.IsNumberFree := by
  simp [definitionEntries]

instance : NumberFree Definition where
  laidOut d := by
    refine laidOut_of_isNumberFree (isNumberFree_definitionEntries d) ?_
    show ["literal", "actions", "color", "flags"].Nodup
    decide
  mapNumbers_encode f d := mapNumbers_of_isNumberFree (isNumberFree_definitionEntries d) f

end Lindenmayer.Json
