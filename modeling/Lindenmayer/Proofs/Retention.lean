import Lindenmayer.Proofs.History

/-!
# What is kept after a request

What a simulator keeps can be told from its history alone. It keeps the alphabet of
the last configuration it was asked about, if that one compiled, and it compiles
whenever a configuration does not have the same expansion as the one before it.

The alphabet that is kept may have been compiled from an earlier configuration than
the last one. That cannot be noticed: having the same expansion is symmetric and
transitive, although not reflexive, since a NaN equals nothing. So the two
configurations have the same expansion as the same third ones. A configuration with a
NaN is compiled again each time.
-/

namespace Lindenmayer

/-- What may be done with a simulator: it can be sent a request or be looked at. -/
inductive Operation where
  | process (request : Request)
  | askSameExpansion (config : Config)
  | askBound (config : Config)
  | askCompileCount

inductive Reply where
  | response (response : Response)
  | sameExpansion (same : Bool)
  | bound (size : UInt64)
  | compileCount (count : Nat)

def Operation.request? : Operation → Option Request
  | .process request => some request
  | _ => none

/-- The bound that a request sets. -/
def Request.size? : Request → Option UInt64
  | .setBound size => some size
  | _ => none

namespace Config

theorem sameExpansion_iff {a b : Config} :
    a.sameExpansion b = true ↔ a.definitions = b.definitions ∧ a.iterations = b.iterations ∧
      (a.turnLeft == b.turnLeft) = true ∧ (a.turnRight == b.turnRight) = true ∧
      (a.scaling == b.scaling) = true := by
  simp only [sameExpansion, Bool.and_eq_true, decide_eq_true_eq, beq_iff_eq (α := UInt32),
    and_assoc]

theorem sameExpansion_symm {a b : Config} (h : a.sameExpansion b = true) :
    b.sameExpansion a = true := by
  obtain ⟨hdef, hiter, hleft, hright, hscaling⟩ := sameExpansion_iff.1 h
  exact sameExpansion_iff.2 ⟨hdef.symm, hiter.symm, Number.beq_symm hleft, Number.beq_symm hright,
    Number.beq_symm hscaling⟩

theorem sameExpansion_trans {a b c : Config} (hab : a.sameExpansion b = true)
    (hbc : b.sameExpansion c = true) : a.sameExpansion c = true := by
  obtain ⟨hdef, hiter, hleft, hright, hscaling⟩ := sameExpansion_iff.1 hab
  obtain ⟨hdef', hiter', hleft', hright', hscaling'⟩ := sameExpansion_iff.1 hbc
  exact sameExpansion_iff.2 ⟨hdef.trans hdef', hiter.trans hiter', Number.beq_trans hleft hleft',
    Number.beq_trans hright hright', Number.beq_trans hscaling hscaling'⟩

/-- Configurations with the same expansion have it with the same third ones. -/
theorem sameExpansion_congr {a b : Config} (h : a.sameExpansion b = true) (c : Config) :
    a.sameExpansion c = b.sameExpansion c :=
  Bool.eq_iff_iff.2 ⟨sameExpansion_trans (sameExpansion_symm h), sameExpansion_trans h⟩

/-- Whether a configuration compiles is a matter of its definitions. -/
theorem isOk_compile_congr {a b : Config} (h : a.sameExpansion b = true) :
    a.compile.isOk = b.compile.isOk := by
  rw [compile_eq_map, compile_eq_map, isOk_map, isOk_map, definitions_eq_of_sameExpansion h]

end Config

namespace Simulator

def operate (s : Simulator) : Operation → Simulator × Reply
  | .process request => (s.next request, .response (s.answer request))
  | .askSameExpansion config => (s, .sameExpansion (s.sameExpansion config))
  | .askBound config => (s, .bound (s.boundFor config))
  | .askCompileCount => (s, .compileCount s.compileCount)

/-- The simulator after a history of operations, the oldest first. -/
def afterOperations (s : Simulator) (history : List Operation) : Simulator :=
  history.foldl (fun s operation => (s.operate operation).1) s

/-- Whether what is kept after a request about `previous` serves `config`. -/
def served : (previous : Option Config) → (config : Config) → Bool
  | some previous, config => previous.compile.isOk && previous.sameExpansion config
  | none, _ => false

/-- How many of the configurations are not served by what is kept after the one right
before them, where `previous` is before the first. -/
def compilations (previous : Option Config) (asked : List Config) : Nat :=
  (asked.zip (previous :: asked.map some)).countP fun (config, previous) => !served previous config

theorem compilations_cons (previous : Option Config) (config : Config) (asked : List Config) :
    compilations previous (config :: asked) =
      (if served previous config then 0 else 1) + compilations (some config) asked := by
  rw [compilations, List.map_cons, List.zip_cons_cons, List.countP_cons, Nat.add_comm,
    ← compilations]
  show (if (!served previous config) = true then 1 else 0) + _ = _
  cases served previous config with
  | true => rfl
  | false => rfl

/-- A configuration that is served leaves behind what was there. -/
theorem served_congr {previous : Option Config} {config : Config}
    (h : served previous config = true) (c : Config) :
    served (some config) c = served previous c := by
  cases previous with
  | none => cases h
  | some p =>
      obtain ⟨_, hsame⟩ := Bool.and_eq_true_iff.1 h
      rw [served, served, Config.isOk_compile_congr hsame, Config.sameExpansion_congr hsame]

theorem compileAnew_sameExpansion (s : Simulator) (config c : Config) :
    (s.compileAnew config).1.sameExpansion c = served (some config) c := by
  rw [compileAnew, served]
  cases config.compile <;> rfl

theorem compileAnew_compileCount (s : Simulator) (config : Config) :
    (s.compileAnew config).1.compileCount = s.compileCount + 1 := by
  rw [compileAnew]
  cases config.compile <;> rfl

/-- Keeping what a request about `previous` leaves behind. -/
def Keeps (s : Simulator) (previous : Option Config) : Prop :=
  ∀ c, s.sameExpansion c = served previous c

theorem fresh_keeps (settings : Settings) : (fresh settings).Keeps none := fun _ => rfl

theorem Keeps.next {s : Simulator} {previous : Option Config} (hs : s.Keeps previous)
    {request : Request} {config : Config} (h : request.config? = some config) :
    (s.next request).Keeps (some config) ∧
      (s.next request).compileCount =
        s.compileCount + if served previous config then 0 else 1 := by
  rw [next_of_config h, ← hs config]
  obtain ⟨compiled, hcache, hsame, heq⟩ | ⟨hmiss, heq⟩ := alphabetFor_cases s config
  · have hhit : s.sameExpansion config = true := by rw [sameExpansion, hcache]; exact hsame
    rw [heq, hhit]
    -- The alphabet stays the one of an earlier configuration.
    exact ⟨fun c => (hs c).trans (served_congr (hs config ▸ hhit) c).symm, rfl⟩
  · rw [heq, hmiss]
    exact ⟨compileAnew_sameExpansion s config, compileAnew_compileCount s config⟩

/-- Behind a history, the last configuration that was asked about is what counts. -/
theorem Keeps.after {s : Simulator} {previous : Option Config} (hs : s.Keeps previous)
    (history : List Request) :
    (s.after history).Keeps ((history.filterMap Request.config?).getLast?.or previous) ∧
      (s.after history).compileCount =
        s.compileCount + compilations previous (history.filterMap Request.config?) := by
  induction history generalizing s previous with
  | nil => exact ⟨hs, rfl⟩
  | cons request history ih =>
      cases hc : request.config? with
      | none =>
          rw [List.filterMap_cons_none hc]
          cases request with
          | setBound size => exact ih (s := s.setBound size) hs
          | _ => cases hc
      | some config =>
          obtain ⟨hkeeps, hcount⟩ := hs.next hc
          obtain ⟨hlast, htotal⟩ := ih hkeeps
          rw [List.filterMap_cons_some hc, List.getLast?_cons, compilations_cons]
          refine ⟨?_, ?_⟩
          · cases hrest : (history.filterMap Request.config?).getLast? with
            | none => rw [hrest] at hlast; exact hlast
            | some c => rw [hrest] at hlast; exact hlast
          · show ((s.next request).after history).compileCount = _
            rw [htotal, hcount, Nat.add_assoc]

theorem afterOperations_eq (s : Simulator) (history : List Operation) :
    s.afterOperations history = s.after (history.filterMap Operation.request?) := by
  induction history generalizing s with
  | nil => rfl
  | cons operation history ih =>
      cases operation with
      | process request => exact ih (s.next request)
      | _ => exact ih s

theorem boundAfter_eq (bound : UInt64) (history : List Request) :
    boundAfter bound history = (history.filterMap Request.size?).getLast?.getD bound := by
  induction history generalizing bound with
  | nil => rfl
  | cons request history ih =>
      cases request with
      | setBound size =>
          rw [List.filterMap_cons_some (f := Request.size?) rfl, List.getLast?_cons]
          exact ih size
      | _ => exact ih bound

theorem Sound.next_of_rejected {s : Simulator} (hs : s.Sound) {request : Request}
    {config : Config} {e : ConfigError} (h : request.config? = some config)
    (hrejected : config.compile = .error e) : (s.next request).cache = none := by
  rw [next_of_config h]
  obtain ⟨compiled, hcache, hsame, _⟩ | ⟨_, heq⟩ := alphabetFor_cases s config
  · -- What is cached compiled, so what it serves would have compiled too.
    have hok := Config.isOk_compile_congr hsame
    rw [hs compiled hcache, hrejected] at hok
    cases hok
  · rw [heq, Simulator.compileAnew, hrejected]

/-- What is kept after a history is what the last request about a configuration left
behind, as long as it compiled. Compilations are counted, whatever comes of them. The
bound is the one that was set last. A configuration that is rejected leaves nothing
behind and changes no settings. -/
theorem retained_after (settings : Settings) (history : List Operation) :
    let s := (fresh settings).afterOperations history
    let requests := history.filterMap Operation.request?
    let asked := requests.filterMap Request.config?
    (∀ c, s.sameExpansion c = true ↔
      ∃ p, asked.getLast? = some p ∧ (∃ a, p.compile = .ok a) ∧ p.sameExpansion c = true) ∧
    s.compileCount = compilations none asked ∧
    (∀ c, s.boundFor c =
      c.stackSize.getD ((requests.filterMap Request.size?).getLast?.getD settings.bound)) ∧
    ∀ (request : Request) (config : Config) (e : ConfigError), request.config? = some config →
      config.compile = .error e →
        (s.next request).cache = none ∧ (s.next request).settings = s.settings := by
  intro s requests asked
  have hs : s = (fresh settings).after requests := afterOperations_eq _ history
  obtain ⟨hkeeps, hcount⟩ := (fresh_keeps settings).after requests
  have hsound := (fresh_sound settings).after requests
  have hsettings := after_settings (fresh settings) requests
  rw [← hs] at hkeeps hcount hsound hsettings
  refine ⟨fun c => ?_, ?_, fun c => ?_, fun request config e hc he => ⟨?_, ?_⟩⟩
  · rw [hkeeps c, Option.or_none]
    cases asked.getLast? with
    | none => simp [served]
    | some p => cases hp : p.compile <;> simp [served, hp, Except.isOk, Except.toBool]
  · rw [hcount]
    exact Nat.zero_add _
  · rw [boundFor, hsettings, boundAfter_eq]
    rfl
  · exact hsound.next_of_rejected hc he
  · rw [next_of_config hc, alphabetFor_settings]

end Simulator

end Lindenmayer
