import Mathlib.Data.List.Forall2
import Mathlib.Data.List.Infix
import Mathlib.Data.Nat.Find

/-!
# Words under a substitution

A substitution replaces every letter of a word by a word. The generations of a word
are what it becomes by doing this over and over. A bound on the length of the next
generation, held against it before each letter is replaced, either lets the whole
word through or cuts its replacement short after a certain number of letters.

All of this only counts letters. Two substitutions over different letters that
correspond to each other have corresponding generations and the same cuts.
-/

namespace Lindenmayer

section

variable {α β : Type}

/-- What a word becomes in some number of generations. -/
def generation (φ : α → List α) (word : List α) : Nat → List α
  | 0 => word
  | n + 1 => (generation φ word n).flatMap φ

/-- The law of generations: a later one is the generation of an earlier one. -/
theorem generation_add (φ : α → List α) (word : List α) (m n : Nat) :
    generation φ word (m + n) = generation φ (generation φ word m) n := by
  induction n with
  | zero => rfl
  | succ n ih =>
      show (generation φ word (m + n)).flatMap φ = _
      rw [ih]
      rfl

theorem generation_singleton_succ (φ : α → List α) (x : α) (n : Nat) :
    generation φ [x] (n + 1) = generation φ (φ x) n := by
  rw [Nat.add_comm, generation_add, generation, generation, List.flatMap_singleton]

/-- Words that are put together are rewritten one by one. -/
theorem generation_flatMap {γ : Type} (φ : α → List α) (f : γ → List α) (xs : List γ) (n : Nat) :
    generation φ (xs.flatMap f) n = xs.flatMap fun x => generation φ (f x) n := by
  induction n with
  | zero => rfl
  | succ n ih =>
      show (generation φ (xs.flatMap f) n).flatMap φ = _
      rw [ih, List.flatMap_assoc]
      rfl

/-- A letter that is replaced by itself stays what it is. -/
theorem generation_of_fixed {φ : α → List α} {x : α} (h : φ x = [x]) (n : Nat) :
    generation φ [x] n = [x] := by
  induction n with
  | zero => rfl
  | succ n ih => rw [generation, ih, List.flatMap_singleton, h]

/-- No proper prefix of the word is replaced by more than `bound` letters. -/
def Fits (φ : α → List β) (bound : Nat) (word : List α) : Prop :=
  ∀ n < word.length, ((word.take n).flatMap φ).length ≤ bound

instance (φ : α → List β) (bound : Nat) (word : List α) : Decidable (Fits φ bound word) :=
  inferInstanceAs (Decidable (∀ n < word.length, ((word.take n).flatMap φ).length ≤ bound))

/-- The first `n` letters are the shortest proper prefix of the word that is replaced
by more than `bound` letters. -/
structure CutAt (φ : α → List β) (bound : Nat) (word : List α) (n : Nat) : Prop where
  proper : n < word.length
  exceeds : bound < ((word.take n).flatMap φ).length
  shortest : ∀ m < n, ((word.take m).flatMap φ).length ≤ bound

/-- Where not everything holds up to `n`, there is a first thing that does not. -/
theorem exists_first_not {P : Nat → Prop} {n : Nat} (h : ¬ ∀ k < n, P k) :
    ∃ k < n, (∀ i < k, P i) ∧ ¬ P k := by
  have hex : ∃ k, k < n ∧ ¬ P k := by
    simpa only [not_forall, exists_prop] using h
  classical
  obtain ⟨hlt, hmiss⟩ := Nat.find_spec hex
  refine ⟨Nat.find hex, hlt, fun i hi => ?_, hmiss⟩
  by_contra hi'
  exact Nat.find_min hex hi ⟨Nat.lt_trans hi hlt, hi'⟩

theorem not_fits_iff {φ : α → List β} {bound : Nat} {word : List α} :
    ¬ Fits φ bound word ↔ ∃ n, CutAt φ bound word n := by
  refine ⟨fun h => ?_, fun h => ?_⟩
  · obtain ⟨n, hlt, hshort, hover⟩ := exists_first_not h
    exact ⟨n, hlt, Nat.lt_of_not_le hover, hshort⟩
  · obtain ⟨n, hlt, hover, _⟩ := h
    intro hall
    have hle := hall n hlt
    omega

/-- A longer prefix is not replaced by less. -/
theorem length_flatMap_take_le (φ : α → List β) (word : List α) {m n : Nat} (h : m ≤ n) :
    ((word.take m).flatMap φ).length ≤ ((word.take n).flatMap φ).length :=
  (List.IsPrefix.flatMap (List.take_prefix_take_left h) φ).length_le

/-- The longest proper prefix decides whether a word fits. -/
theorem fits_iff_dropLast {φ : α → List β} {bound : Nat} {word : List α} :
    Fits φ bound word ↔ (word.dropLast.flatMap φ).length ≤ bound := by
  rw [List.dropLast_eq_take]
  constructor
  · intro h
    cases word with
    | nil => exact Nat.zero_le bound
    | cons x word => exact h _ (Nat.sub_one_lt (Nat.succ_ne_zero _))
  · intro h n hn
    exact Nat.le_trans (length_flatMap_take_le φ word (Nat.le_sub_one_of_lt hn)) h

/-! ## Larger bounds -/

theorem Fits.mono {φ : α → List β} {bound bound' : Nat} {word : List α}
    (h : Fits φ bound word) (hle : bound ≤ bound') : Fits φ bound' word :=
  fun n hn => Nat.le_trans (h n hn) hle

/-- A larger bound does not cut earlier. -/
theorem CutAt.le {φ : α → List β} {bound bound' m n : Nat} {word : List α}
    (h : CutAt φ bound word m) (h' : CutAt φ bound' word n) (hle : bound ≤ bound') : m ≤ n := by
  by_contra hlt
  have hshort := h.shortest n (Nat.lt_of_not_le hlt)
  have hover := h'.exceeds
  omega

/-! ## Corresponding substitutions -/

variable {R : α → β → Prop} {φ : α → List α} {ψ : β → List β}

theorem length_flatMap_take_eq (hφ : ∀ x y, R x y → List.Forall₂ R (φ x) (ψ y)) {xs : List α}
    {ys : List β} (h : List.Forall₂ R xs ys) (n : Nat) :
    ((xs.take n).flatMap φ).length = ((ys.take n).flatMap ψ).length :=
  (List.rel_flatMap (List.forall₂_take n h) fun {x y} => hφ x y).length_eq

theorem fits_iff_of_forall₂ (hφ : ∀ x y, R x y → List.Forall₂ R (φ x) (ψ y)) {xs : List α}
    {ys : List β} (h : List.Forall₂ R xs ys) (bound : Nat) :
    Fits φ bound xs ↔ Fits ψ bound ys := by
  simp only [Fits, h.length_eq, length_flatMap_take_eq hφ h]

theorem cutAt_iff_of_forall₂ (hφ : ∀ x y, R x y → List.Forall₂ R (φ x) (ψ y)) {xs : List α}
    {ys : List β} (h : List.Forall₂ R xs ys) (bound n : Nat) :
    CutAt φ bound xs n ↔ CutAt ψ bound ys n := by
  have hlen := h.length_eq
  have htake := length_flatMap_take_eq hφ h
  refine ⟨fun h => ?_, fun h => ?_⟩
  · obtain ⟨h₁, h₂, h₃⟩ := h
    exact ⟨hlen ▸ h₁, htake n ▸ h₂, fun m hm => htake m ▸ h₃ m hm⟩
  · obtain ⟨h₁, h₂, h₃⟩ := h
    exact ⟨hlen ▸ h₁, htake n ▸ h₂, fun m hm => htake m ▸ h₃ m hm⟩

theorem forall₂_generation (hφ : ∀ x y, R x y → List.Forall₂ R (φ x) (ψ y)) {xs : List α}
    {ys : List β} (h : List.Forall₂ R xs ys) (n : Nat) :
    List.Forall₂ R (generation φ xs n) (generation ψ ys n) := by
  induction n with
  | zero => exact h
  | succ n ih => exact List.rel_flatMap ih fun {x y} => hφ x y

end

end Lindenmayer
