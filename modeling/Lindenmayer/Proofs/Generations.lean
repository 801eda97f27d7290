import Lindenmayer.Expansion
import Lindenmayer.Proofs.Substitution

/-!
# An expansion goes through the generations

The loop of an expansion builds the next generation in a buffer and looks at the
length of the buffer before every symbol. What it has built by then is the
replacement of a prefix of the current generation. So one iteration completes the
generation if no proper prefix of the current one is replaced by too much, and
otherwise it stops behind the first prefix that is.

From this a whole expansion is written down in closed form: either it completes all
of its generations, or there is a first one that does not fit.
-/

namespace Lindenmayer.Alphabet

/-- What replaces a symbol. -/
def replacement (a : Alphabet) (id : SymbolId) : List SymbolId := (a.successor id).toList

/-- What the start symbol becomes in `n` generations. -/
def generationOf (a : Alphabet) (n : Nat) : List SymbolId := generation a.replacement [a.start] n

/-! ## One iteration -/

theorem appendSuccessor_of_le {a : Alphabet} {bound : Nat} {next : Word} (h : next.size ≤ bound)
    (id : SymbolId) : a.appendSuccessor bound next id = .ok (next ++ a.successor id) := by
  rw [appendSuccessor, if_neg (Nat.not_lt.2 h)]

theorem appendSuccessor_of_lt {a : Alphabet} {bound : Nat} {next : Word} (h : bound < next.size)
    (id : SymbolId) : a.appendSuccessor bound next id = .error next := by
  rw [appendSuccessor, if_pos h]

theorem size_append_take (a : Alphabet) (next : Word) (id : SymbolId) (rest : List SymbolId)
    (n : Nat) :
    (next ++ a.successor id).size + ((rest.take n).flatMap a.replacement).length =
      next.size + (((id :: rest).take (n + 1)).flatMap a.replacement).length := by
  simp only [Array.size_append, List.take_succ_cons, List.flatMap_cons, List.length_append,
    replacement, Array.length_toList, Nat.add_assoc]

theorem foldlM_append_of_fits {a : Alphabet} {bound : Nat} {rest : List SymbolId} {next : Word}
    (h : ∀ n < rest.length,
      next.size + ((rest.take n).flatMap a.replacement).length ≤ bound) :
    rest.foldlM (a.appendSuccessor bound) next =
      .ok (next.toList ++ rest.flatMap a.replacement).toArray := by
  induction rest generalizing next with
  | nil => simp [pure, Except.pure]
  | cons id rest ih =>
      have hnow : next.size ≤ bound := h 0 (Nat.zero_lt_succ _)
      rw [List.foldlM_cons, appendSuccessor_of_le hnow]
      show rest.foldlM (a.appendSuccessor bound) (next ++ a.successor id) = _
      rw [ih]
      · simp [replacement]
      · intro n hn
        rw [size_append_take]
        exact h (n + 1) (Nat.succ_lt_succ hn)

theorem foldlM_append_of_cut {a : Alphabet} {bound n : Nat} {rest : List SymbolId} {next : Word}
    (hn : n < rest.length)
    (hover : bound < next.size + ((rest.take n).flatMap a.replacement).length)
    (hshort : ∀ m < n, next.size + ((rest.take m).flatMap a.replacement).length ≤ bound) :
    rest.foldlM (a.appendSuccessor bound) next =
      .error (next.toList ++ (rest.take n).flatMap a.replacement).toArray := by
  induction n generalizing rest next with
  | zero =>
      cases rest with
      | nil => exact absurd hn (Nat.lt_irrefl 0)
      | cons id rest =>
          rw [List.foldlM_cons, appendSuccessor_of_lt hover]
          simp [bind, Except.bind]
  | succ n ih =>
      cases rest with
      | nil => exact absurd hn (Nat.not_lt_zero _)
      | cons id rest =>
          have hnow : next.size ≤ bound := hshort 0 (Nat.zero_lt_succ n)
          rw [List.foldlM_cons, appendSuccessor_of_le hnow]
          show rest.foldlM (a.appendSuccessor bound) (next ++ a.successor id) = _
          rw [ih (Nat.lt_of_succ_lt_succ hn)]
          · simp [replacement]
          · rw [size_append_take]
            exact hover
          · intro m hm
            rw [size_append_take]
            exact hshort (m + 1) (Nat.succ_lt_succ hm)

theorem nextGeneration_of_fits {a : Alphabet} {bound : Nat} {word : List SymbolId}
    (h : Fits a.replacement bound word) :
    a.nextGeneration bound word.toArray = .ok (word.flatMap a.replacement).toArray := by
  rw [nextGeneration, List.foldlM_toArray, foldlM_append_of_fits]
  · rfl
  · intro n hn
    rw [List.size_toArray, List.length_nil, Nat.zero_add]
    exact h n hn

theorem nextGeneration_of_cut {a : Alphabet} {bound n : Nat} {word : List SymbolId}
    (h : CutAt a.replacement bound word n) :
    a.nextGeneration bound word.toArray =
      .error ((word.take n).flatMap a.replacement).toArray := by
  rw [nextGeneration, List.foldlM_toArray, foldlM_append_of_cut h.proper]
  · rfl
  · rw [List.size_toArray, List.length_nil, Nat.zero_add]
    exact h.exceeds
  · intro m hm
    rw [List.size_toArray, List.length_nil, Nat.zero_add]
    exact h.shortest m hm

/-! ## A whole expansion -/

/-- The lengths of the first `n` generations after the start symbol. -/
def lengthsUpTo (a : Alphabet) (n : Nat) : Array Nat :=
  ((List.range n).map fun k => (a.generationOf (k + 1)).length).toArray

theorem lengthsUpTo_succ (a : Alphabet) (n : Nat) :
    (a.lengthsUpTo n).push (a.generationOf (n + 1)).length = a.lengthsUpTo (n + 1) := by
  rw [lengthsUpTo, lengthsUpTo, List.range_succ, List.map_append, List.push_toArray]
  rfl

/-- What an expansion of `n` iterations has put aside once it has completed `k`. -/
def keptAt (a : Alphabet) (keepPrevious : Bool) (n k : Nat) : Option Word :=
  if keepPrevious = true ∧ 0 < k ∧ k = n then some (a.generationOf (k - 1)).toArray else none

/-- The expansion that completes its generations. -/
def completed (a : Alphabet) (keepPrevious : Bool) (n : Nat) : Expansion where
  word := (a.generationOf n).toArray
  iterations := n
  exceeded := false
  previous := a.keptAt keepPrevious n n
  lengths := a.lengthsUpTo n

/-- The expansion that is cut behind `m` symbols of generation `k`. -/
def cutShort (a : Alphabet) (keepPrevious : Bool) (n k m : Nat) : Expansion where
  word := (((a.generationOf k).take m).flatMap a.replacement).toArray
  iterations := k + 1
  exceeded := true
  previous := a.keptAt keepPrevious n (k + 1)
  lengths := a.lengthsUpTo k

theorem size_lengthsUpTo (a : Alphabet) (n : Nat) : (a.lengthsUpTo n).size = n := by
  rw [lengthsUpTo, List.size_toArray, List.length_map, List.length_range]

/-- What is put aside before an iteration is what is to be kept after it. -/
theorem keptAt_succ (a : Alphabet) (keepPrevious : Bool) (remaining k : Nat) :
    (if (keepPrevious && remaining == 0) = true then some (a.generationOf k).toArray
      else a.keptAt keepPrevious (k + (remaining + 1)) k) =
    a.keptAt keepPrevious (k + (remaining + 1)) (k + 1) := by
  simp only [keptAt, Bool.and_eq_true, beq_iff_eq, Nat.add_sub_cancel]
  by_cases hkeep : keepPrevious = true
  · by_cases hlast : remaining = 0
    · rw [if_pos ⟨hkeep, hlast⟩, if_pos ⟨hkeep, by omega, by omega⟩]
    · rw [if_neg fun h => hlast h.2, if_neg fun h => absurd h.2.2 (by omega),
        if_neg fun h => absurd h.2.2 (by omega)]
  · rw [if_neg fun h => hkeep h.1, if_neg fun h => hkeep h.1, if_neg fun h => hkeep h.1]

theorem keptAt_eq_some_iff {a : Alphabet} {keepPrevious : Bool} {n k : Nat} {word : Word} :
    a.keptAt keepPrevious n k = some word ↔
      (keepPrevious = true ∧ 0 < k ∧ k = n) ∧ (a.generationOf (k - 1)).toArray = word := by
  rw [keptAt]
  split
  · next h => rw [Option.some_inj, and_iff_right h]
  · next h =>
      constructor
      · intro hnone
        cases hnone
      · intro hkept
        exact absurd hkept.1 h

/-- While the generations fit, an expansion is the rest of itself. -/
theorem expand_eq_expandFrom {a : Alphabet} {bound k : Nat} (keepPrevious : Bool)
    (remaining : Nat) (h : ∀ i < k, Fits a.replacement bound (a.generationOf i)) :
    a.expand (k + remaining) bound keepPrevious =
      a.expandFrom bound keepPrevious remaining (a.generationOf k).toArray (a.lengthsUpTo k)
        (a.keptAt keepPrevious (k + remaining) k) := by
  induction k generalizing remaining with
  | zero => simp [expand, keptAt, generationOf, generation, lengthsUpTo]
  | succ k ih =>
      have hfit := h k (Nat.lt_succ_self k)
      have hnext : k + 1 + remaining = k + (remaining + 1) := by omega
      rw [hnext, ih (remaining + 1) fun i hi => h i (Nat.lt_succ_of_lt hi), expandFrom]
      simp only [keptAt_succ, nextGeneration_of_fits hfit, List.size_toArray]
      show a.expandFrom bound keepPrevious remaining (a.generationOf (k + 1)).toArray
        ((a.lengthsUpTo k).push (a.generationOf (k + 1)).length) _ = _
      rw [lengthsUpTo_succ]

theorem expand_of_fits {a : Alphabet} {n bound : Nat} (keepPrevious : Bool)
    (h : ∀ k < n, Fits a.replacement bound (a.generationOf k)) :
    a.expand n bound keepPrevious = a.completed keepPrevious n := by
  have hrun := expand_eq_expandFrom keepPrevious 0 h
  rw [Nat.add_zero] at hrun
  rw [hrun, expandFrom, size_lengthsUpTo, completed]

theorem expand_of_cut {a : Alphabet} {n bound k m : Nat} (keepPrevious : Bool) (hk : k < n)
    (h : ∀ i < k, Fits a.replacement bound (a.generationOf i))
    (hcut : CutAt a.replacement bound (a.generationOf k) m) :
    a.expand n bound keepPrevious = a.cutShort keepPrevious n k m := by
  obtain ⟨remaining, rfl⟩ := Nat.exists_eq_add_of_lt hk
  rw [Nat.add_assoc, expand_eq_expandFrom keepPrevious (remaining + 1) h, expandFrom]
  simp only [keptAt_succ, nextGeneration_of_cut hcut, size_lengthsUpTo, cutShort]

/-- There are no other expansions. -/
theorem expand_cases (a : Alphabet) (n bound : Nat) (keepPrevious : Bool) :
    ((∀ k < n, Fits a.replacement bound (a.generationOf k)) ∧
      a.expand n bound keepPrevious = a.completed keepPrevious n) ∨
    ∃ k < n, ∃ m, (∀ i < k, Fits a.replacement bound (a.generationOf i)) ∧
      CutAt a.replacement bound (a.generationOf k) m ∧
      a.expand n bound keepPrevious = a.cutShort keepPrevious n k m := by
  by_cases hall : ∀ k < n, Fits a.replacement bound (a.generationOf k)
  · exact .inl ⟨hall, expand_of_fits keepPrevious hall⟩
  · right
    obtain ⟨k, hk, hfirst, hmiss⟩ := exists_first_not hall
    obtain ⟨m, hcut⟩ := not_fits_iff.1 hmiss
    exact ⟨k, hk, m, hfirst, hcut, expand_of_cut keepPrevious hk hfirst hcut⟩

/-- An expansion has put aside what it has by the iteration that it ends in. -/
theorem previous_expand (a : Alphabet) (n bound : Nat) (keepPrevious : Bool) :
    (a.expand n bound keepPrevious).previous =
      a.keptAt keepPrevious n (a.expand n bound keepPrevious).iterations := by
  obtain ⟨_, hexpand⟩ | ⟨k, _, m, _, _, hexpand⟩ := a.expand_cases n bound keepPrevious
  · rw [hexpand]
    rfl
  · rw [hexpand]
    rfl

theorem expand_of_not_exceeded {a : Alphabet} {n bound : Nat} {keepPrevious : Bool}
    (h : (a.expand n bound keepPrevious).exceeded = false) :
    a.expand n bound keepPrevious = a.completed keepPrevious n := by
  obtain ⟨_, hexpand⟩ | ⟨_, _, _, _, _, hexpand⟩ := a.expand_cases n bound keepPrevious
  · exact hexpand
  · rw [hexpand] at h
    cases h

end Lindenmayer.Alphabet
