import Lindenmayer.Folder
import Lindenmayer.Proofs.Except

/-!
# Which paths lead to a file

Of the names of a path, those in front may stay in the folder, and it is the first other one
that decides. In a folder with one file in it, a path leads to that file if this name is the
one of the file and the last of all. If the name goes out, or if the path starts with a slash,
then it is none of the folder's business what is read: this is up to what is around it, where
the path may well come back.
-/

namespace Lindenmayer.Folder

/-- Being the name of an entry and of nothing else. -/
structure IsFileName (name : String) : Prop where
  proper : name ∉ ["", ".", ".."]
  short : name.utf8ByteSize ≤ nameLimit

/-- Being a name that stays in the same folder. -/
def stays (name : String) : Bool := name = "" ∨ name = "."

/-- The names of a path from the first one on that goes anywhere. -/
def way (path : String) : List String := (names path).dropWhile stays

/-- Leading to the file with this name, from the folder that it is in. -/
structure LeadsTo (name path : String) : Prop where
  short : path.utf8ByteSize ≤ pathLimit
  relative : path.front ≠ '/'
  direct : way path = [name]

/-- Going somewhere else, from a folder without folders. -/
def Leaves (path : String) : Prop := path.front = '/' ∨ (way path).head? = some ".."

/-- A folder with one file in it, and with anything around it. -/
def single (name : String) (bytes : ByteArray) (around : String → Program.Reading) : Folder where
  files := [(name, bytes)]
  around

variable {f : Folder} {name path : String} {bytes contents : ByteArray}
  {around : String → Program.Reading}

/-! ## Walks -/

theorem walk_outside (f : Folder) (names : List String) :
    names.foldlM f.enter .outside = .ok .outside := by
  induction names with
  | nil => rfl
  | cons n names ih => exact ih

/-- There is nothing below a file. -/
theorem walk_file {names : List String} {place : Place} :
    names.foldlM f.enter (.file bytes) = .ok place ↔ names = [] ∧ place = .file bytes := by
  cases names with
  | nil => simp [pure, Except.pure, eq_comm]
  | cons n names =>
      rw [List.foldlM_cons]
      exact ⟨nofun, nofun⟩

/-- The names in front that stay in the folder may as well be left out. -/
theorem walk_dropWhile (f : Folder) (names : List String) :
    (names.dropWhile stays).foldlM f.enter .here = names.foldlM f.enter .here := by
  induction names with
  | nil => rfl
  | cons n names ih =>
      cases hn : stays n with
      | true =>
          have henter : f.enter .here n = .ok .here := by
            rw [enter, if_pos (of_decide_eq_true hn)]
          rw [List.dropWhile_cons_of_pos hn, ih, List.foldlM_cons, henter]
          rfl
      | false => rw [List.dropWhile_cons_of_neg (by rw [hn]; decide)]

/-- A name that goes anywhere but out goes to the file. -/
theorem enter_single {n : String} (hname : IsFileName name) (hn : stays n = false)
    (hout : n ≠ "..") {place : Place} :
    (single name bytes around).enter .here n = .ok place ↔ n = name ∧ place = .file bytes := by
  rw [enter, if_neg (of_decide_eq_false hn), if_neg hout]
  split
  · next hlong =>
      refine ⟨nofun, fun h => ?_⟩
      rw [h.1] at hlong
      exact absurd hname.short (Nat.not_le.2 hlong)
  · rw [single, List.lookup_cons]
    cases hsame : n == name with
    | true =>
        rw [beq_iff_eq.1 hsame]
        simp [eq_comm]
    | false => simp [beq_eq_false_iff_ne.1 hsame]

/-- Where a path ends that does not start with a slash. -/
theorem walk_single (hname : IsFileName name) {place : Place} :
    (names path).foldlM (single name bytes around).enter .here = .ok place ↔
      (way path = [] ∧ place = .here) ∨ (way path = [name] ∧ place = .file bytes) ∨
        ((way path).head? = some ".." ∧ place = .outside) := by
  have hproper := hname.proper
  simp only [List.mem_cons, List.not_mem_nil, or_false, not_or] at hproper
  rw [← walk_dropWhile, ← way]
  have hfirst := List.head?_dropWhile_not stays (names path)
  rw [← way] at hfirst
  cases hway : way path with
  | nil => simp [pure, Except.pure, eq_comm]
  | cons n rest =>
      rw [hway] at hfirst
      rw [List.foldlM_cons]
      by_cases hout : n = ".."
      · have henter : (single name bytes around).enter .here n = .ok .outside := by
          subst hout
          rfl
        rw [henter]
        show List.foldlM _ _ rest = _ ↔ _
        rw [walk_outside]
        subst hout
        simp [hproper.2.2, eq_comm]
      · rw [bind_eq_ok_iff]
        have hn : stays n = false := by simpa using hfirst
        simp only [enter_single hname hn hout]
        refine ⟨fun ⟨a, ⟨hsame, ha⟩, hwalk⟩ => ?_, fun h => ?_⟩
        · subst hsame ha
          obtain ⟨rfl, hplace⟩ := walk_file.1 hwalk
          exact .inr (.inl ⟨rfl, hplace⟩)
        · obtain ⟨hnil, -⟩ | ⟨hone, hplace⟩ | ⟨hhead, -⟩ := h
          · exact absurd hnil (List.cons_ne_nil n rest)
          · obtain ⟨hsame, hrest⟩ := List.cons.inj hone
            exact ⟨.file bytes, ⟨hsame, rfl⟩, walk_file.2 ⟨hrest, hplace⟩⟩
          · exact absurd (Option.some.inj hhead) hout

/-! ## Readings -/

theorem way_empty : way "" = [] := by decide +kernel

theorem not_leaves_empty : ¬ Leaves "" := by
  rw [Leaves, way_empty]
  decide +kernel

/-- A path that is read is not too long. -/
theorem short_of_read (h : f.read path = .ok contents) : path.utf8ByteSize ≤ pathLimit := by
  by_contra hlong
  rw [read] at h
  split at h
  · cases h
  · rw [if_pos (Nat.not_le.1 hlong)] at h
    cases h

/-- What starts with a slash is read around the folder. -/
theorem read_of_slash (hshort : path.utf8ByteSize ≤ pathLimit) (hslash : path.front = '/') :
    f.read path = f.around path := by
  have hempty : path ≠ "" := by
    rintro rfl
    exact not_leaves_empty (.inl hslash)
  rw [read, if_neg hempty, if_neg (Nat.not_lt.2 hshort)]
  simp only [if_pos hslash, walk_outside]
  rfl

/-- What does not is read on its way, as far as that stays in the folder. -/
theorem read_of_relative (hname : IsFileName name) (hshort : path.utf8ByteSize ≤ pathLimit)
    (hslash : path.front ≠ '/') :
    (single name bytes around).read path = .ok contents ↔
      (way path = [name] ∧ contents = bytes) ∨
        ((way path).head? = some ".." ∧ around path = .ok contents) := by
  by_cases hempty : path = ""
  · subst hempty
    rw [way_empty]
    exact ⟨nofun, by rintro (⟨h, -⟩ | ⟨h, -⟩) <;> cases h⟩
  rw [read, if_neg hempty, if_neg (Nat.not_lt.2 hshort), if_neg hslash, bind_eq_ok_iff]
  simp only [walk_single hname]
  constructor
  · rintro ⟨place, ⟨-, rfl⟩ | ⟨hway, rfl⟩ | ⟨hway, rfl⟩, h⟩
    · cases h
    · cases h
      exact .inl ⟨hway, rfl⟩
    · exact .inr ⟨hway, h⟩
  · rintro (⟨hway, rfl⟩ | ⟨hway, h⟩)
    · exact ⟨.file contents, .inr (.inl ⟨hway, rfl⟩), rfl⟩
    · exact ⟨.outside, .inr (.inr ⟨hway, rfl⟩), h⟩

/-- What can be read in a folder with one file is that file, by a path that leads to it,
and what can be read around the folder. -/
theorem read_single (hname : IsFileName name) :
    (single name bytes around).read path = .ok contents ↔
      (LeadsTo name path ∧ contents = bytes) ∨
        (Leaves path ∧ path.utf8ByteSize ≤ pathLimit ∧ around path = .ok contents) := by
  by_cases hshort : path.utf8ByteSize ≤ pathLimit
  · by_cases hslash : path.front = '/'
    · rw [read_of_slash hshort hslash]
      refine ⟨fun h => .inr ⟨.inl hslash, hshort, h⟩, ?_⟩
      rintro (⟨hleads, -⟩ | ⟨-, -, h⟩)
      · exact absurd hslash hleads.relative
      · exact h
    · rw [read_of_relative hname hshort hslash, Leaves, or_iff_right hslash]
      refine or_congr (and_congr_left' ?_) (and_congr_right' ?_)
      · exact ⟨fun h => ⟨hshort, hslash, h⟩, LeadsTo.direct⟩
      · exact (and_iff_right hshort).symm
  · refine iff_of_false (fun h => hshort (short_of_read h)) ?_
    rintro (⟨hleads, -⟩ | ⟨-, h, -⟩)
    · exact hshort hleads.short
    · exact hshort h

end Lindenmayer.Folder
