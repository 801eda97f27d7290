import Lindenmayer.Proofs.Lookups
import Lindenmayer.Proofs.Overshoot
import Mathlib.Data.List.MinMax

/-!
# The memory that an expansion works in

An expansion can be done in place, in a loop over the iterations with a loop over the
symbols inside. There are two lists: the generation that is being replaced, and the next
one, which grows. After an iteration they change places and the older one is cleared. If
it is wanted, a copy of the last generation but one is put aside.

This loop looks before every sum whether it fits into the type of its terms, and before a
list grows whether there is room. A list grows only while it is within the bound, and then
by one successor. So at any time each list is within the bound but for the longest
successor, whatever the generations would have come to. The loop's sums are the number of
an iteration and the length of a list: none of them ever overflows. If there is room for
lists of that size, it ends, and what it ends with is the expansion.
-/

namespace Lindenmayer

/-- What stops a loop before its end. -/
inductive Trap where
  /-- A sum does not fit into the type of its terms. -/
  | overflow
  /-- A list has no room for what is to be appended. -/
  | noRoom
deriving DecidableEq, Repr

/-- The number of the next iteration. -/
def following (n : UInt32) : Except Trap UInt32 :=
  if n.toNat + 1 < UInt32.size then .ok (n + 1) else .error .overflow

/-- A list with more behind it, where no list can have more than `capacity` entries.
Lengths have 64 bits. -/
def grow (capacity : Nat) (word more : Word) : Except Trap Word :=
  if UInt64.size ≤ word.size + more.size then .error .overflow
  else if capacity < word.size + more.size then .error .noRoom
  else .ok (word ++ more)

/-- What an expansion has at hand between two of its steps. -/
structure Workspace where
  /-- How many iterations are over. -/
  iteration : UInt32 := 0
  /-- The generation that is being replaced. -/
  current : Word
  /-- The generation that is being made. -/
  next : Word := #[]
  previous : Option Word := none
  /-- What has been reported about the iterations so far. -/
  lengths : Array Nat := #[]

def Workspace.lists (w : Workspace) : List Word := w.current :: w.next :: w.previous.toList

/-- A place in the loop. -/
inductive Moment where
  /-- Between two iterations. -/
  | between (w : Workspace)
  /-- Within an iteration, where these symbols are left to replace. -/
  | within (w : Workspace) (rest : List SymbolId)
  /-- The lists have changed places, and the older one is not cleared yet. -/
  | swapped (w : Workspace)
  | ended (e : Expansion)

/-- The lists that are held in memory. -/
def Moment.lists : Moment → List Word
  | .between w | .within w _ | .swapped w => w.lists
  | .ended e => e.word :: e.previous.toList

/-- An expansion that is to be done in place, and the size of the memory. -/
structure Task where
  alphabet : Alphabet
  total : UInt32
  bound : UInt64
  keepPrevious : Bool
  capacity : Nat

namespace Task

/-- Whether the current generation is to be put aside. -/
def isKept (t : Task) (w : Workspace) : Except Trap Bool := do
  if t.keepPrevious then return (← following w.iteration) == t.total else return false

def step (t : Task) : Moment → Except Trap Moment
  | .between w => do
      if w.iteration < t.total then
        let previous := if ← t.isKept w then some w.current else w.previous
        return .within { w with previous } w.current.toList
      else return .ended ⟨w.current, t.total.toNat, false, w.previous, w.lengths⟩
  | .within w (id :: rest) => do
      if t.bound.toNat < w.next.size then
        let number ← following w.iteration
        return .ended ⟨w.next, number.toNat, true, w.previous, w.lengths⟩
      else return .within { w with next := ← grow t.capacity w.next (t.alphabet.successor id) } rest
  | .within w [] => do
      let number ← following w.iteration
      return .swapped
        { w with
          iteration := number
          current := w.next
          next := w.current
          lengths := w.lengths.push w.next.size }
  | .swapped w => return .between { w with next := #[] }
  | .ended e => return .ended e

/-- Where the loop is after `n` steps. -/
def after (t : Task) : Nat → Except Trap Moment
  | 0 => .ok (.between { current := #[t.alphabet.start] })
  | n + 1 => t.after n >>= t.step

end Task

namespace Task

variable {t : Task}

/-! ## What a step can do -/

/-- The workspace in which the replacing begins. -/
def opened (t : Task) (w : Workspace) : Workspace :=
  { w with
    previous :=
      if t.keepPrevious && w.iteration + 1 == t.total then some w.current else w.previous }

def swappedLists (w : Workspace) : Workspace where
  iteration := w.iteration + 1
  current := w.next
  next := w.current
  previous := w.previous
  lengths := w.lengths.push w.next.size

/-- A step that goes well. -/
inductive Steps (t : Task) : Moment → Moment → Prop
  | opens {w : Workspace} (h : w.iteration < t.total) :
      Steps t (.between w) (.within (t.opened w) w.current.toList)
  | finishes {w : Workspace} (h : ¬ w.iteration < t.total) :
      Steps t (.between w) (.ended ⟨w.current, t.total.toNat, false, w.previous, w.lengths⟩)
  | cuts {w : Workspace} {id : SymbolId} {rest : List SymbolId} (h : t.bound.toNat < w.next.size) :
      Steps t (.within w (id :: rest))
        (.ended ⟨w.next, w.iteration.toNat + 1, true, w.previous, w.lengths⟩)
  | replaces {w : Workspace} {id : SymbolId} {rest : List SymbolId}
      (h : w.next.size ≤ t.bound.toNat)
      (hroom : w.next.size + (t.alphabet.successor id).size ≤ t.capacity) :
      Steps t (.within w (id :: rest))
        (.within { w with next := w.next ++ t.alphabet.successor id } rest)
  | swaps {w : Workspace} : Steps t (.within w []) (.swapped (swappedLists w))
  | clears {w : Workspace} : Steps t (.swapped w) (.between { w with next := #[] })
  | stays {e : Expansion} : Steps t (.ended e) (.ended e)

theorem following_eq {n total : UInt32} (h : n < total) :
    following n = .ok (n + 1) ∧ (n + 1).toNat = n.toNat + 1 := by
  have hlt := UInt32.lt_iff_toNat_lt.1 h
  have htotal := total.toNat_lt_size
  have hone : (1 : UInt32).toNat = 1 := rfl
  constructor
  · rw [following, if_pos (by omega)]
  · rw [UInt32.toNat_add, hone, Nat.mod_eq_of_lt]
    exact Nat.lt_of_le_of_lt hlt htotal

theorem isKept_eq {w : Workspace} (h : w.iteration < t.total) :
    t.isKept w = .ok (t.keepPrevious && w.iteration + 1 == t.total) := by
  rw [isKept, (following_eq h).1]
  cases t.keepPrevious <;> rfl

/-- No successor has more than `reach` symbols, and there is room for that many. The size
of a list has to be a number of 64 bits with a sign. -/
structure Feasible (t : Task) (reach : Nat) : Prop where
  positive : 1 ≤ reach
  successor : ∀ id, (t.alphabet.successor id).size ≤ reach
  room : reach ≤ t.capacity
  memory : t.capacity < 2 ^ 63

/-- How many symbols a list has at most. -/
def limit (t : Task) (reach : Nat) : Nat := min (t.bound.toNat + reach) t.capacity

end Task

structure Workspace.Sound (limit : Nat) (w : Workspace) : Prop where
  current : w.current.size ≤ limit
  next : w.next.size ≤ limit
  previous : ∀ word ∈ w.previous, word.size ≤ limit
  counted : w.lengths.size = w.iteration.toNat

/-- No list is too long, and iterations are counted right. -/
def Moment.Sound (t : Task) (limit : Nat) : Moment → Prop
  | .between w => w.Sound limit ∧ w.iteration ≤ t.total ∧ w.next = #[]
  | .within w _ => w.Sound limit ∧ w.iteration < t.total
  | .swapped w => w.Sound limit ∧ w.iteration ≤ t.total
  | .ended e => e.word.size ≤ limit ∧ ∀ word ∈ e.previous, word.size ≤ limit

theorem Moment.Sound.lists_le {t : Task} {limit : Nat} {m : Moment} (h : m.Sound t limit) :
    ∀ word ∈ m.lists, word.size ≤ limit := by
  have hlists : ∀ w : Workspace, w.Sound limit → ∀ word ∈ w.lists, word.size ≤ limit := by
    intro w hw
    simp only [Workspace.lists, List.forall_mem_cons, Option.mem_toList]
    exact ⟨hw.current, hw.next, hw.previous⟩
  cases m with
  | between w | within w rest | swapped w => exact hlists w h.1
  | ended e =>
      simp only [Moment.lists, List.forall_mem_cons, Option.mem_toList]
      exact h

namespace Task

variable {t : Task} {reach : Nat} {m m' : Moment}

theorem grow_cases (ht : t.Feasible reach) {word : Word} (hword : word.size ≤ t.limit reach)
    (hbound : word.size ≤ t.bound.toNat) (id : SymbolId) :
    (grow t.capacity word (t.alphabet.successor id) = .error .noRoom ∧
      t.capacity < t.bound.toNat + reach) ∨
    (grow t.capacity word (t.alphabet.successor id) = .ok (word ++ t.alphabet.successor id) ∧
      word.size + (t.alphabet.successor id).size ≤ t.capacity) := by
  have hsuccessor := ht.successor id
  have hroom := ht.room
  have hmemory := ht.memory
  have hsize : UInt64.size = 2 ^ 64 := rfl
  rw [limit] at hword
  rw [grow, if_neg (by omega)]
  split
  · exact .inl ⟨rfl, by omega⟩
  · exact .inr ⟨rfl, by omega⟩

/-- From where nothing is wrong a step goes well, unless there is no room. -/
theorem step_cases (ht : t.Feasible reach) (hm : m.Sound t (t.limit reach)) :
    (t.step m = .error .noRoom ∧ t.capacity < t.bound.toNat + reach) ∨
      ∃ m', t.step m = .ok m' ∧ Steps t m m' := by
  cases m with
  | between w =>
      refine .inr ?_
      rw [step]
      split
      · next h =>
          rw [isKept_eq h]
          exact ⟨_, rfl, .opens h⟩
      · next h => exact ⟨_, rfl, .finishes h⟩
  | within w rest =>
      obtain ⟨hw, hlt⟩ := hm
      obtain ⟨hnumber, hvalue⟩ := following_eq hlt
      cases rest with
      | nil =>
          refine .inr ⟨_, ?_, .swaps⟩
          rw [step, hnumber]
          rfl
      | cons id rest =>
          rw [step]
          split
          · next h =>
              refine .inr ⟨_, ?_, .cuts h⟩
              rw [hnumber, ← hvalue]
              rfl
          · next h =>
              obtain ⟨hgrow, hcapacity⟩ | ⟨hgrow, hroom⟩ :=
                grow_cases ht hw.next (Nat.not_lt.1 h) id
              · exact .inl ⟨by rw [hgrow]; rfl, hcapacity⟩
              · exact .inr ⟨_, by rw [hgrow]; rfl, .replaces (Nat.not_lt.1 h) hroom⟩
  | swapped w => exact .inr ⟨_, rfl, .clears⟩
  | ended e => exact .inr ⟨_, rfl, .stays⟩

/-! ## What a step keeps -/

/-- A list that is within the bound has room for one more successor. -/
theorem size_append_le (ht : t.Feasible reach) {word : Word} {id : SymbolId}
    (hbound : word.size ≤ t.bound.toNat)
    (hroom : word.size + (t.alphabet.successor id).size ≤ t.capacity) :
    (word ++ t.alphabet.successor id).size ≤ t.limit reach := by
  have hsuccessor := ht.successor id
  rw [Array.size_append, limit]
  omega

theorem Steps.sound (ht : t.Feasible reach) (h : Steps t m m')
    (hm : m.Sound t (t.limit reach)) : m'.Sound t (t.limit reach) := by
  cases h with
  | @opens w h =>
      obtain ⟨⟨hcurrent, hnext, hprevious, hcounted⟩, -, -⟩ := hm
      refine ⟨⟨hcurrent, hnext, ?_, hcounted⟩, h⟩
      rw [opened]
      split
      · rintro _ ⟨⟩
        exact hcurrent
      · exact hprevious
  | finishes => exact ⟨hm.1.current, hm.1.previous⟩
  | cuts => exact ⟨hm.1.next, hm.1.previous⟩
  | replaces hbound hroom =>
      obtain ⟨⟨hcurrent, hnext, hprevious, hcounted⟩, hlt⟩ := hm
      exact ⟨⟨hcurrent, size_append_le ht hbound hroom, hprevious, hcounted⟩, hlt⟩
  | @swaps w =>
      obtain ⟨⟨hcurrent, hnext, hprevious, hcounted⟩, hlt⟩ := hm
      have hvalue := (following_eq hlt).2
      refine ⟨⟨hnext, hcurrent, hprevious, ?_⟩, ?_⟩
      · rw [swappedLists, Array.size_push, hcounted, hvalue]
      · rw [UInt32.le_iff_toNat_le, swappedLists, hvalue]
        exact UInt32.lt_iff_toNat_lt.1 hlt
  | clears =>
      obtain ⟨⟨hcurrent, hnext, hprevious, hcounted⟩, hle⟩ := hm
      exact ⟨⟨hcurrent, Nat.zero_le _, hprevious, hcounted⟩, hle, rfl⟩
  | stays => exact hm

/-! ## What the loop is for -/

/-- The expansion that comes of an iteration with this result. -/
def proceed (t : Task) (w : Workspace) : Except Word Word → Expansion
  | .error cut => ⟨cut, w.lengths.size + 1, true, w.previous, w.lengths⟩
  | .ok next =>
      t.alphabet.expandFrom t.bound.toNat t.keepPrevious
        (t.total.toNat - (w.iteration.toNat + 1)) next (w.lengths.push next.size) w.previous

/-- The expansion that is under way. -/
def outcome (t : Task) : Moment → Expansion
  | .between w | .swapped w =>
      t.alphabet.expandFrom t.bound.toNat t.keepPrevious (t.total.toNat - w.iteration.toNat)
        w.current w.lengths w.previous
  | .within w rest =>
      t.proceed w (rest.foldlM (t.alphabet.appendSuccessor t.bound.toNat) w.next)
  | .ended e => e

/-- While there are iterations left, the expansion goes on with the current generation. -/
theorem outcome_between {w : Workspace} (h : w.iteration < t.total) :
    t.outcome (.between w) =
      t.proceed (t.opened w) (t.alphabet.nextGeneration t.bound.toNat w.current) := by
  have hlt := UInt32.lt_iff_toNat_lt.1 h
  have hlast : (w.iteration + 1 == t.total) =
      (t.total.toNat - (w.iteration.toNat + 1) == 0) := by
    rw [Bool.eq_iff_iff, beq_iff_eq, beq_iff_eq, ← UInt32.toNat_inj, (following_eq h).2]
    omega
  have hsucc : t.total.toNat - w.iteration.toNat =
      t.total.toNat - (w.iteration.toNat + 1) + 1 := by omega
  rw [outcome, hsucc, Alphabet.expandFrom, opened, hlast]
  cases t.alphabet.nextGeneration t.bound.toNat w.current <;> rfl

theorem Steps.outcome (h : Steps t m m') (hm : m.Sound t (t.limit reach)) :
    t.outcome m' = t.outcome m := by
  cases h with
  | @opens w h =>
      have hempty : (t.opened w).next = #[] := hm.2.2
      rw [outcome_between h, Task.outcome, hempty, Array.foldlM_toList]
      rfl
  | @finishes w h =>
      obtain ⟨⟨-, -, -, hcounted⟩, hle, -⟩ := hm
      have hsame : w.iteration.toNat = t.total.toNat :=
        Nat.le_antisymm (UInt32.le_iff_toNat_le.1 hle)
          (Nat.not_lt.1 fun hlt => h (UInt32.lt_iff_toNat_lt.2 hlt))
      rw [Task.outcome, Task.outcome, hsame, Nat.sub_self, Alphabet.expandFrom, hcounted, hsame]
  | @cuts w id rest h =>
      rw [Task.outcome, Task.outcome, List.foldlM_cons, Alphabet.appendSuccessor_of_lt h,
        ← hm.1.counted]
      rfl
  | @replaces w id rest h =>
      rw [Task.outcome, Task.outcome, List.foldlM_cons, Alphabet.appendSuccessor_of_le h]
      rfl
  | @swaps w =>
      rw [Task.outcome, swappedLists, (following_eq hm.2).2]
      rfl
  | clears => rfl
  | stays => rfl

/-- What is left to do: iterations first, then steps of the current one. -/
def weight (t : Task) : Moment → ℕ ×ₗ ℕ
  | .between w => toLex (t.total.toNat - w.iteration.toNat, w.current.size + 2)
  | .within w rest => toLex (t.total.toNat - w.iteration.toNat, rest.length + 1)
  | .swapped w => toLex (t.total.toNat - w.iteration.toNat, w.current.size + 3)
  | .ended _ => toLex (0, 0)

theorem Steps.weight_lt (h : Steps t m m') (hm : m.Sound t (t.limit reach)) :
    t.weight m' < t.weight m ∨ ∃ e, m = .ended e := by
  cases h with
  | stays => exact .inr ⟨_, rfl⟩
  | @opens w h =>
      refine .inl (Prod.Lex.toLex_lt_toLex.2 (.inr ⟨rfl, ?_⟩))
      rw [Array.length_toList]
      exact Nat.lt_succ_self _
  | @finishes w h =>
      refine .inl (Prod.Lex.toLex_lt_toLex.2 ?_)
      rcases Nat.eq_zero_or_pos (t.total.toNat - w.iteration.toNat) with hzero | hpos
      · exact .inr ⟨hzero.symm, Nat.succ_pos _⟩
      · exact .inl hpos
  | @cuts w id rest h =>
      have hlt := UInt32.lt_iff_toNat_lt.1 hm.2
      exact .inl (Prod.Lex.toLex_lt_toLex.2 (.inl (Nat.sub_pos_of_lt hlt)))
  | replaces => exact .inl (Prod.Lex.toLex_lt_toLex.2 (.inr ⟨rfl, Nat.lt_succ_self _⟩))
  | @swaps w =>
      have hlt := UInt32.lt_iff_toNat_lt.1 hm.2
      refine .inl (Prod.Lex.toLex_lt_toLex.2 (.inl ?_))
      rw [swappedLists, (following_eq hm.2).2]
      omega
  | clears => exact .inl (Prod.Lex.toLex_lt_toLex.2 (.inr ⟨rfl, Nat.lt_succ_self _⟩))

/-! ## Whole runs -/

/-- The expansion that is to be done. -/
def expansion (t : Task) : Expansion :=
  t.alphabet.expand t.total.toNat t.bound.toNat t.keepPrevious

theorem after_cases (ht : t.Feasible reach) (n : Nat) :
    (t.after n = .error .noRoom ∧ t.capacity < t.bound.toNat + reach) ∨
      ∃ m, t.after n = .ok m ∧ m.Sound t (t.limit reach) ∧ t.outcome m = t.expansion := by
  induction n with
  | zero =>
      refine .inr ⟨_, rfl, ⟨⟨?_, Nat.zero_le _, nofun, rfl⟩, ?_, rfl⟩, rfl⟩
      · have hpositive := ht.positive
        have hroom := ht.room
        show 1 ≤ min _ _
        omega
      · rw [UInt32.le_iff_toNat_le]
        exact Nat.zero_le _
  | succ n ih =>
      rw [after]
      obtain ⟨hstuck, hcapacity⟩ | ⟨m, hm, hsound, houtcome⟩ := ih
      · rw [hstuck]
        exact .inl ⟨rfl, hcapacity⟩
      · rw [hm]
        obtain hstuck | ⟨m', hstep, h⟩ := step_cases ht hsound
        · exact .inl hstuck
        · exact .inr ⟨m', hstep, h.sound ht hsound, (h.outcome hsound).trans houtcome⟩

theorem sound_of_after (ht : t.Feasible reach) {n : Nat} (h : t.after n = .ok m) :
    m.Sound t (t.limit reach) ∧ t.outcome m = t.expansion := by
  obtain ⟨hstuck, -⟩ | ⟨m', hm', hsound⟩ := after_cases ht n
  · rw [h] at hstuck
    cases hstuck
  · rw [h] at hm'
    cases hm'
    exact hsound

/-- With room for the longest lists, the loop gets to its end from wherever it is. -/
theorem exists_ended (ht : t.Feasible reach) (hroom : t.bound.toNat + reach ≤ t.capacity) {k : Nat}
    (hk : t.after k = .ok m) (hm : m.Sound t (t.limit reach)) :
    ∃ n, t.after n = .ok (.ended (t.outcome m)) := by
  induction hw : t.weight m using WellFoundedLT.induction generalizing k m with
  | _ w ih =>
      obtain ⟨-, hcapacity⟩ | ⟨m', hstep, h⟩ := step_cases ht hm
      · exact absurd hcapacity (Nat.not_lt.2 hroom)
      · obtain hlt | ⟨e, rfl⟩ := h.weight_lt hm
        · have hnext : t.after (k + 1) = .ok m' := by
            rw [after, hk]
            exact hstep
          rw [← h.outcome hm]
          exact ih _ (hw ▸ hlt) hnext (h.sound ht hm) rfl
        · exact ⟨k, hk⟩

end Task

/-! ## The longest successor -/

namespace Config

/-- The number of symbols in the longest actions. -/
def longest (config : Config) : Nat := (config.definitions.map (·.actions.length)).foldr max 0

variable {config : Config} {a : Alphabet}

theorem length_le_longest {d : Definition} (hd : d ∈ config.definitions) :
    d.actions.length ≤ config.longest :=
  List.le_max_of_le (List.mem_map_of_mem hd) le_rfl

theorem size_successor_le (ha : config.compile = .ok a) (id : SymbolId) :
    (a.successor id).size ≤ max 1 config.longest := by
  obtain ⟨literals, hlit, rfl⟩ := compile_eq_ok_iff.1 ha
  rw [Alphabet.successor]
  split
  · next hx =>
      obtain ⟨d, hd, hword, -⟩ := exists_compiles_of_mem hlit (Array.mem_of_getElem? hx)
      have hlength := (successorOf_eq_ok hword).1.length_eq
      rw [String.length_toList, Array.length_toList] at hlength
      rw [← hlength]
      exact le_max_of_le_right (length_le_longest hd)
  · exact le_max_left ..

/-- What replaces the start symbol are the actions of a definition. -/
theorem length_replacement_start_le (ha : config.compile = .ok a) :
    (a.replacement a.start).length ≤ config.longest := by
  obtain ⟨c, _, hstart, _, htext⟩ := List.forall₂_cons_left_iff.1 (names_start ha)
  have hlength := (hstart.replacement ha).length_eq
  have hc : c ∈ config.startText := htext ▸ List.mem_cons_self
  obtain ⟨first, hfirst, hliteral⟩ := List.mem_map.1 hc
  have hmem : first ∈ config.definitions := List.mem_of_head? (Option.mem_toList.1 hfirst)
  rw [hlength, replacement]
  split
  · next d hd =>
      rw [String.length_toList]
      exact length_le_longest (List.mem_of_find?_eq_some hd)
  · next hnone =>
      exact absurd (beq_iff_eq.2 hliteral) (List.find?_eq_none.1 hnone first hmem)

end Config

namespace Alphabet

variable {a : Alphabet} {n bound : Nat} {keepPrevious : Bool}

/-- Where nothing replaces the start symbol, no generation is too long. -/
theorem replacement_start_ne_nil (h : (a.expand n bound keepPrevious).exceeded = true) :
    a.replacement a.start ≠ [] := by
  intro hnil
  obtain ⟨_, hexpand⟩ | ⟨k, _, m, _, hcut, _⟩ := a.expand_cases n bound keepPrevious
  · rw [hexpand] at h
    cases h
  · cases k with
    | zero =>
        have hm : m = 0 := Nat.lt_one_iff.1 hcut.proper
        have hexceeds := hcut.exceeds
        rw [hm] at hexceeds
        exact Nat.not_lt_zero _ hexceeds
    | succ k =>
        have hempty : a.generationOf (k + 1) = [] := by
          rw [generationOf, generation_singleton_succ, hnil]
          exact generation_flatMap a.replacement (γ := SymbolId) (fun _ => []) [] k
        have hproper := hcut.proper
        rw [hempty] at hproper
        exact Nat.not_lt_zero _ hproper

/-- A generation is cut off after the first successor that takes it past the bound. -/
theorem exceeded_bounds {reach : Nat} (hreach : ∀ id, (a.successor id).size ≤ reach)
    (h : (a.expand n bound keepPrevious).exceeded = true) :
    bound < (a.expand n bound keepPrevious).word.size ∧
      (a.expand n bound keepPrevious).word.size ≤ bound + reach ∧
      1 ≤ (a.expand n bound keepPrevious).iterations ∧
      (a.expand n bound keepPrevious).iterations ≤ n := by
  obtain ⟨_, hexpand⟩ | ⟨k, hk, m, _, hcut, hexpand⟩ := a.expand_cases n bound keepPrevious
  · rw [hexpand] at h
    cases h
  · rw [hexpand]
    refine ⟨hcut.exceeds, ?_, Nat.le_add_left .., hk⟩
    cases m with
    | zero => exact absurd hcut.exceeds (Nat.not_lt_zero _)
    | succ m =>
        have hshort := hcut.shortest m (Nat.lt_succ_self m)
        obtain ⟨last, hlast⟩ : ∃ last, (a.generationOf k).take (m + 1) =
            (a.generationOf k).take m ++ [last] :=
          ⟨_, List.take_succ_eq_append_getElem (Nat.lt_of_succ_lt hcut.proper)⟩
        have hone : (a.replacement last).length ≤ reach := hreach last
        show (((a.generationOf k).take (m + 1)).flatMap a.replacement).length ≤ _
        rw [hlast, List.flatMap_append, List.length_append, List.flatMap_singleton]
        omega

/-- At any time no list of an expansion is longer than the bound and the longest successor
allow, and no sum in its loop overflows. The loop ends if there is room for such lists,
and never with anything but the expansion. A generation that is cut off is past the bound
by a part of a successor. -/
theorem working_memory_bounded {config : Config} (ha : config.compile = .ok a) (total : UInt32)
    (bound : UInt64) (keepPrevious : Bool) {capacity : Nat} (hcapacity : capacity < 2 ^ 63)
    (hroom : max 1 config.longest ≤ capacity) :
    let t : Task := ⟨a, total, bound, keepPrevious, capacity⟩
    let e := a.expand total.toNat bound.toNat keepPrevious
    (∀ n m, t.after n = .ok m →
      ∀ word ∈ m.lists, word.size ≤ bound.toNat + max 1 config.longest) ∧
    (∀ n, t.after n ≠ .error .overflow) ∧
    (∀ n e', t.after n = .ok (.ended e') → e' = e) ∧
    (bound.toNat + max 1 config.longest ≤ capacity → ∃ n, t.after n = .ok (.ended e)) ∧
    (e.exceeded = true →
      bound.toNat < e.word.size ∧ e.word.size ≤ bound.toNat + config.longest ∧
        1 ≤ e.iterations ∧ e.iterations ≤ total.toNat) := by
  intro t e
  have ht : t.Feasible (max 1 config.longest) :=
    ⟨le_max_left .., Config.size_successor_le ha, hroom, hcapacity⟩
  refine ⟨fun n m hm word hword => ?_, fun n hn => ?_, fun n e' he' => ?_, fun hlists => ?_,
    fun hexceeded => ?_⟩
  · exact ((Task.sound_of_after ht hm).1.lists_le word hword).trans (min_le_left ..)
  · obtain ⟨hstuck, -⟩ | ⟨m, hm, -⟩ := Task.after_cases ht n
    · rw [hn] at hstuck
      cases hstuck
    · rw [hn] at hm
      cases hm
  · exact (Task.sound_of_after ht he').2
  · obtain ⟨hsound, houtcome⟩ := Task.sound_of_after ht (n := 0) rfl
    rw [show e = _ from houtcome.symm]
    exact Task.exists_ended ht hlists (k := 0) rfl hsound
  · have hone : 1 ≤ config.longest :=
      Nat.le_trans (List.length_pos_iff.2 (replacement_start_ne_nil hexceeded))
        (Config.length_replacement_start_le ha)
    have hbounds := exceeded_bounds (Config.size_successor_le ha) hexceeded
    rwa [max_eq_right hone] at hbounds

/-- Four billion doublings take no more than three symbols in each list. -/
theorem working_memory_bounded_twins :
    ∃ a, Config.twins.compile = .ok a ∧ Config.twins.longest = 2 ∧
      let t : Task := ⟨a, 4294967295, 1, true, 2 ^ 61⟩
      (∀ n m, t.after n = .ok m → ∀ word ∈ m.lists, word.size ≤ 3) ∧
      (∀ n, t.after n ≠ .error .overflow) ∧
      ∃ n, t.after n = .ok (.ended (a.expand 4294967295 1 true)) := by
  have ha : Config.twins.compile = .ok _ :=
    Config.compile_eq_ok_iff.2 ⟨[.literal 'F' 0 .paint #[4, 4]], by decide +kernel, rfl⟩
  have hlongest : Config.twins.longest = 2 := by decide +kernel
  have hroom : max 1 Config.twins.longest ≤ 2 ^ 61 := by
    rw [hlongest]
    decide
  obtain ⟨hlists, hoverflow, -, hends, -⟩ :=
    working_memory_bounded ha 4294967295 1 true (by decide) hroom
  rw [hlongest] at hlists hends
  exact ⟨_, ha, hlongest, hlists, hoverflow, hends (by decide)⟩

end Alphabet

end Lindenmayer
