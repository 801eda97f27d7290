import Lindenmayer.Proofs.LawfulCodecs

/-!
# Configurations as documents

A configuration is written in one way and may be read from many. Its keys may come in
any order and with others among them, its records may be arrays, white space may stand
between the tokens: nothing of this is in the result. The compact form is one of these
layouts, unless there is an infinity or a NaN. Those are written as `null`, which is no
number.

A text is refused at the first fault in its shape. A missing stack size is no fault,
whatever the size was before it was left out.
-/

namespace Lindenmayer

namespace Config

/-- The parameters that are doubles, in the order in which they are written. -/
def numbers (c : Config) : List Float :=
  [c.turnLeft, c.turnRight, c.scaling, c.startAngle, c.stepSize]

/-- The configuration with a function applied to each of its numbers. -/
def mapNumbers (f : Float → Float) (c : Config) : Config :=
  { c with
    turnLeft := f c.turnLeft
    turnRight := f c.turnRight
    scaling := f c.scaling
    startAngle := f c.startAngle
    stepSize := f c.stepSize }

theorem mapNumbers_eq_self {f : Float → Float} {c : Config} (h : ∀ x ∈ c.numbers, f x = x) :
    c.mapNumbers f = c := by
  simp only [numbers, List.forall_mem_cons] at h
  obtain ⟨h₁, h₂, h₃, h₄, h₅, _⟩ := h
  rw [mapNumbers, h₁, h₂, h₃, h₄, h₅]

end Config

namespace Json

/-! ## The compact form -/

def configEntries (c : Config) : List Entry :=
  [entryOf "definitions" c.definitions, entryOf "turn_left" c.turnLeft,
    entryOf "turn_right" c.turnRight, entryOf "scaling" c.scaling,
    entryOf "start_angle" c.startAngle, entryOf "step_size" c.stepSize,
    entryOf "num_iter" c.iterations, entryOf "stack_size" c.stackSize]

theorem encode_config (c : Config) : encode c = .object ((configEntries c).map Entry.member) := rfl

theorem shape_config (c : Config) :
    Codec.shape Config = .record ((configEntries c).map Entry.field) := rfl

theorem nodup_configEntries (c : Config) : ((configEntries c).map Entry.name).Nodup := by
  show ["definitions", "turn_left", "turn_right", "scaling", "start_angle", "step_size",
    "num_iter", "stack_size"].Nodup
  decide

theorem isCompact_configEntries (c : Config) : ∀ e ∈ configEntries c, e.IsCompact := by
  simp [configEntries]

theorem mapNumbers_encode_config (f : Float → Float) (c : Config) :
    (encode c).mapNumbers f = encode (c.mapNumbers f) := by
  rw [encode_config, mapNumbers, mapMembers_eq_map]
  simp only [configEntries, List.map_cons, List.map_nil, Entry.member, entryOf, mapNumbers_encode]
  rfl

theorem laidOut_number {x : Float} (hx : x.isFinite = true) (name : String) :
    LaidOut (entryOf name x).shape (entryOf name x).value (entryOf name x).text := by
  show LaidOut .float (.number x) (compactText (.number x))
  rw [compactText_number]
  exact LaidOut.number hx

theorem flawed_number {x : Float} (hx : x.isFinite = false) (name : String) :
    Flawed (entryOf name x).shape (entryOf name x).text := by
  have htext : numberLayout.text x = "null" := by
    change x.toModel.unpack.isFinite = false at hx
    rw [Number.Layout.text]
    rcases hdecode : x.toModel.unpack with sign | _ | _ | _ <;> rw [hdecode] at hx
    case infinity => cases sign <;> rfl
    case notANumber => rfl
    all_goals cases hx
  show Flawed .float (compactText (.number x))
  rw [compactText_number, htext]
  exact Flawed.null

theorem laidOut_configEntries {c : Config} (h : ∀ x ∈ c.numbers, x.isFinite = true) :
    ∀ e ∈ configEntries c, LaidOut e.shape e.value e.text := by
  simp only [Config.numbers, List.forall_mem_cons, List.not_mem_nil, false_imp_iff, implies_true,
    and_true] at h
  obtain ⟨h₁, h₂, h₃, h₄, h₅⟩ := h
  simp only [configEntries, List.forall_mem_cons]
  exact ⟨NumberFree.laidOut _, laidOut_number h₁ _, laidOut_number h₂ _, laidOut_number h₃ _,
    laidOut_number h₄ _, laidOut_number h₅ _, NumberFree.laidOut _, NumberFree.laidOut _,
    fun _ h => nomatch h⟩

/-- The compact form is a layout if all numbers are finite. -/
theorem laidOut_config {c : Config} (h : ∀ x ∈ c.numbers, x.isFinite = true) :
    LaidOut (Codec.shape Config) (encode c) (compactText (encode c)) :=
  laidOut_record (nodup_configEntries c) (isCompact_configEntries c) (laidOut_configEntries h)

/-- Of things of two kinds, one of the second kind being among them, there is a first one. -/
theorem exists_first {α : Type} {p q : α → Prop} {xs : List α} (h : ∀ x ∈ xs, p x ∨ q x)
    (hex : ∃ x ∈ xs, q x) :
    ∃ before x after, xs = before ++ x :: after ∧ (∀ y ∈ before, p y) ∧ q x := by
  induction xs with
  | nil =>
      obtain ⟨x, hx, _⟩ := hex
      cases hx
  | cons x xs ih =>
      have hnil : ∀ y ∈ ([] : List α), p y := fun _ hy => nomatch hy
      rcases h x List.mem_cons_self with hp | hq
      · obtain ⟨y, hy, hq⟩ := hex
        rcases List.mem_cons.1 hy with rfl | hy
        · exact ⟨[], y, xs, rfl, hnil, hq⟩
        · obtain ⟨before, z, after, rfl, hbefore, hz⟩ :=
            ih (fun x hx => h x (List.mem_cons_of_mem _ hx)) ⟨y, hy, hq⟩
          exact ⟨x :: before, z, after, rfl, List.forall_mem_cons.2 ⟨hp, hbefore⟩, hz⟩
      · exact ⟨[], x, xs, rfl, hnil, hq⟩

/-- An entry of a configuration is in order, or it is a number without a text. -/
theorem laidOut_or_flawed (c : Config) :
    ∀ e ∈ configEntries c, LaidOut e.shape e.value e.text ∨ Flawed e.shape e.text := by
  have hnumber : ∀ (x : Float) (name : String),
      LaidOut (entryOf name x).shape (entryOf name x).value (entryOf name x).text ∨
        Flawed (entryOf name x).shape (entryOf name x).text := by
    intro x name
    cases hx : x.isFinite with
    | true => exact Or.inl (laidOut_number hx name)
    | false => exact Or.inr (flawed_number hx name)
  simp only [configEntries, List.forall_mem_cons]
  exact ⟨Or.inl (NumberFree.laidOut _), hnumber _ _, hnumber _ _, hnumber _ _, hnumber _ _,
    hnumber _ _, Or.inl (NumberFree.laidOut _), Or.inl (NumberFree.laidOut _),
    fun _ h => nomatch h⟩

theorem exists_flawed_entry {c : Config} {x : Float} (hmem : x ∈ c.numbers)
    (hx : x.isFinite = false) : ∃ e ∈ configEntries c, Flawed e.shape e.text := by
  have hentry : ∃ name, entryOf name x ∈ configEntries c := by
    simp only [Config.numbers, List.mem_cons, List.not_mem_nil, or_false] at hmem
    rcases hmem with rfl | rfl | rfl | rfl | rfl
    · exact ⟨"turn_left", by simp [configEntries]⟩
    · exact ⟨"turn_right", by simp [configEntries]⟩
    · exact ⟨"scaling", by simp [configEntries]⟩
    · exact ⟨"start_angle", by simp [configEntries]⟩
    · exact ⟨"step_size", by simp [configEntries]⟩
  obtain ⟨name, hname⟩ := hentry
  exact ⟨_, hname, flawed_number hx name⟩

/-- The compact form is flawed if a number is not finite. -/
theorem flawed_config {c : Config} {x : Float} (hmem : x ∈ c.numbers) (hx : x.isFinite = false) :
    ∃ front more, compactText (encode c) = front ++ more ∧
      Flawed (Codec.shape Config) front := by
  obtain ⟨before, e, after, hsplit, hbefore, he⟩ :=
    exists_first (laidOut_or_flawed c) (exists_flawed_entry hmem hx)
  have hnodup := nodup_configEntries c
  have hcompact := isCompact_configEntries c
  rw [encode_config, shape_config c]
  rw [hsplit] at hnodup hcompact ⊢
  exact flawed_record hnodup hcompact hbefore he

/-! ## Documents -/

/-- A text that is a layout of a configuration, with white space around it. -/
inductive Document (c : Config) : String → Prop
  | intro {before body after : Input} : Blank before →
      LaidOut (Codec.shape Config) (encode c) body → Blank after →
      Document c (.ofList (before ++ (body ++ after)))

/-- A text with a fault in its shape, and whatever behind it. -/
inductive FlawedDocument : String → Prop
  | intro {before front : Input} : Blank before → Flawed (Codec.shape Config) front →
      ∀ rest, FlawedDocument (.ofList (before ++ (front ++ rest)))

theorem decode_of_reads {α : Type} [Codec α] [LawfulCodec α] {a : α} {body : Input}
    (h : Reads (Codec.shape α).read (encode a) body) {before after : Input}
    (hbefore : Blank before) (hafter : Blank after) :
    decode α (.ofList (before ++ (body ++ after))) = .ok a := by
  have hstops : Stops after := by
    have hnil : Stops [] := trivial
    have := hafter.stops_append hnil
    rwa [List.append_nil] at this
  have hread := h.read_append hbefore hstops
  rw [decode, Shape.decode, String.toList_ofList]
  simp only [hread, bind, Except.bind, hafter.skipBlank, List.isEmpty_nil, if_true, pure,
    Except.pure, decode?_encode]

theorem Document.decode_eq {c : Config} {text : String} (h : Document c text) :
    decode Config text = .ok (c.mapNumbers reread) := by
  obtain ⟨hbefore, hbody, hafter⟩ := h
  have hreads := hbody.reads
  rw [mapNumbers_encode_config] at hreads
  exact decode_of_reads hreads hbefore hafter

theorem FlawedDocument.decode_eq {text : String} (h : FlawedDocument text) :
    decode Config text = .error .mismatched := by
  obtain ⟨hbefore, hfront, rest⟩ := h
  have hread := hfront.refuses.read_append hbefore rest
  rw [decode, Shape.decode, String.toList_ofList]
  simp only [hread, bind, Except.bind]

theorem document_compact {c : Config} (h : ∀ x ∈ c.numbers, x.isFinite = true) :
    Document c (encode c).compact := by
  have := Document.intro Blank.nil (laidOut_config h) Blank.nil
  rwa [List.nil_append, List.append_nil, compactText, String.ofList_toList] at this

/-- All layouts of a configuration are read as one and the same, and the first fault in the
shape of a text makes it an error, whatever follows. -/
theorem layout_irrelevant (c : Config) (hfinite : ∀ x ∈ c.numbers, x.isFinite = true) :
    (∃ read, decode Config (encode c).compact = .ok read ∧
      ∀ text, Document c text → decode Config text = .ok read) ∧
    ∀ text, FlawedDocument text → decode Config text = .error .mismatched :=
  ⟨⟨c.mapNumbers reread, (document_compact hfinite).decode_eq, fun _ h => h.decode_eq⟩,
    fun _ h => h.decode_eq⟩

/-- The members of the default configuration in reverse order, with an unknown one in front
and without a stack size. -/
def reversedMembers : List Member :=
  .unknown "?" (quote "?").toList [':'] "null".toList ::
    ((configEntries {}).take 7).reverse.map Entry.toMember

theorem laidOut_reversedMembers (hfinite : ∀ x ∈ Config.numbers {}, x.isFinite = true) :
    LaidOut (Codec.shape Config) (encode ({} : Config))
      ('{' :: (joined (reversedMembers.map Member.text) ++ ['}'])) := by
  have hgiven : given reversedMembers = ((configEntries {}).take 7).reverse := given_map_toMember _
  have hsub : (given reversedMembers).Subperm (configEntries {}) := by
    rw [hgiven]
    exact (List.reverse_perm _).subperm.trans (List.take_sublist 7 _).subperm
  have hunknown : "?" ∉ ((configEntries {}).map Entry.field).map Prod.fst := by
    show "?" ∉ ["definitions", "turn_left", "turn_right", "scaling", "start_angle", "step_size",
      "num_iter", "stack_size"]
    decide
  refine LaidOut.object (nodup_configEntries {}) ?_
    (fun e he => laidOut_configEntries hfinite e (hsub.subset he)) hsub ?_
    (bracketed_joined '{' _ '}')
  · intro m hm
    rcases List.mem_cons.1 hm with rfl | hm
    · exact ⟨quoted_quote "?", colon_compact, hunknown, WellFormed.word (by decide)⟩
    · obtain ⟨e, he, rfl⟩ := List.mem_map.1 hm
      exact fits_toMember (List.mem_map_of_mem (List.mem_of_mem_take (List.mem_reverse.1 he)))
  · intro e he hmissing
    rw [hgiven, List.mem_reverse] at hmissing
    rw [← List.take_append_drop 7 (configEntries {}), List.mem_append] at he
    rcases he with he | he
    · exact absurd he hmissing
    · rw [List.mem_singleton.1 he]
      exact ⟨rfl, rfl⟩

theorem layout_irrelevant_reversed :
    (∀ x ∈ Config.numbers {}, x.isFinite = true) ∧
      decode Config ("\x7b\"?\":null,\"num_iter\":3,\"step_size\":1.0,\"start_angle\":0.0," ++
        "\"scaling\":1.0,\"turn_right\":-90.0,\"turn_left\":90.0,\"definitions\":[]\x7d") =
          decode Config (encode ({} : Config)).compact ∧
      decode Config "\x7b\x7d" = .error .mismatched := by
  have hfinite : ∀ x ∈ Config.numbers {}, x.isFinite = true := by decide +kernel
  obtain ⟨⟨read, hcompact, hlayouts⟩, hflawed⟩ := layout_irrelevant {} hfinite
  have hreversed := hlayouts _
    (Document.intro Blank.nil (laidOut_reversedMembers hfinite) Blank.nil)
  have htext : String.ofList ('{' :: (joined (reversedMembers.map Member.text) ++ ['}'])) =
      "\x7b\"?\":null,\"num_iter\":3,\"step_size\":1.0,\"start_angle\":0.0," ++
        "\"scaling\":1.0,\"turn_right\":-90.0,\"turn_left\":90.0,\"definitions\":[]\x7d" := by
    decide +kernel
  have hopening : Opening ((configEntries {}).map Entry.field) [] [] := by
    refine ⟨?_, nofun, nofun, List.nodup_nil, Chain.nil⟩
    rw [List.map_map]
    exact nodup_configEntries {}
  have hempty : Flawed (Codec.shape Config) ['{', '}'] :=
    Flawed.missing hopening Blank.nil List.mem_cons_self rfl List.not_mem_nil
  refine ⟨hfinite, ?_, hflawed _ (FlawedDocument.intro Blank.nil hempty [])⟩
  rw [List.nil_append, List.append_nil, htext] at hreversed
  rw [hreversed, hcompact]

/-- The key of a stack size may be left out even where there is one. The size is lost. -/
theorem stackSize_left_out :
    (encode ({ stackSize := some 5 } : Config)).compact =
      "\x7b\"definitions\":[],\"turn_left\":90.0,\"turn_right\":-90.0,\"scaling\":1.0," ++
        "\"start_angle\":0.0,\"step_size\":1.0,\"num_iter\":3" ++ ",\"stack_size\":5" ++ "\x7d" ∧
    decode Config
      ("\x7b\"definitions\":[],\"turn_left\":90.0,\"turn_right\":-90.0,\"scaling\":1.0," ++
        "\"start_angle\":0.0,\"step_size\":1.0,\"num_iter\":3" ++ "\x7d") =
          .ok { stackSize := none } := by
  decide +kernel

theorem decode_number {x : Float} (hx : x.isFinite = true) :
    decode Float (encode x).compact = .ok (reread x) := by
  have hreads : Reads (Codec.shape Float).read (encode (reread x)) (compactText (encode x)) := by
    show Reads readFloat (.number (reread x)) (compactText (.number x))
    rw [compactText_number]
    exact reads_number hx
  have := decode_of_reads hreads Blank.nil Blank.nil
  rwa [List.nil_append, List.append_nil, compactText, String.ofList_toList] at this

/-- Encoding and decoding gives a configuration back exactly when its numbers are finite. -/
theorem decode_encode (c : Config)
    (hnumbers : ∀ x ∈ c.numbers, x.isFinite = true →
      decode Float (encode x).compact = .ok x) :
    decode Config (encode c).compact =
      if ∀ x ∈ c.numbers, x.isFinite = true then .ok c else .error .mismatched := by
  split
  · next hfinite =>
      have hself : ∀ x ∈ c.numbers, reread x = x := by
        intro x hx
        have h := hnumbers x hx (hfinite x hx)
        rw [decode_number (hfinite x hx)] at h
        injection h
      rw [(document_compact hfinite).decode_eq, Config.mapNumbers_eq_self hself]
  · next hfinite =>
      obtain ⟨x, hmem, hx⟩ : ∃ x ∈ c.numbers, x.isFinite = false := by
        simpa using hfinite
      obtain ⟨front, more, htext, hflawed⟩ := flawed_config hmem hx
      have hdocument : FlawedDocument (encode c).compact := by
        have := FlawedDocument.intro Blank.nil hflawed more
        rwa [List.nil_append, ← htext, compactText, String.ofList_toList] at this
      exact hdocument.decode_eq

/-- A configuration with all that has to be escaped, and with the largest stack size. -/
def escapedConfig : Config :=
  { definitions := [⟨'"', "\\\"\x00\n", ⟨0, 127, 128, 255⟩, ⟨255⟩⟩]
    stackSize := some 18446744073709551615 }

theorem decode_encode_escapedConfig :
    (∀ x ∈ escapedConfig.numbers, x.isFinite = true → decode Float (encode x).compact = .ok x) ∧
      decode Config (encode escapedConfig).compact = .ok escapedConfig ∧
      decode Config (encode { escapedConfig with scaling := 1 / 0 }).compact =
        .error .mismatched := by
  have hnumbers : ∀ x ∈ escapedConfig.numbers, x.isFinite = true →
      decode Float (encode x).compact = .ok x := by
    decide +kernel
  have hfinite : ∀ x ∈ escapedConfig.numbers, x.isFinite = true := by
    decide +kernel
  have hinfinite : ¬ ∀ x ∈ Config.numbers { escapedConfig with scaling := 1 / 0 },
      x.isFinite = true := by
    decide +kernel
  refine ⟨hnumbers, (decode_encode escapedConfig hnumbers).trans (if_pos hfinite),
    (decode_encode { escapedConfig with scaling := 1 / 0 } ?_).trans (if_neg hinfinite)⟩
  decide +kernel

end Json

end Lindenmayer
