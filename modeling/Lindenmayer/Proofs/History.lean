import Lindenmayer.Proofs.AlikeDrawing

/-!
# What a simulator remembers of its history

A simulator changes in two ways only. A request to set the bound changes the bound,
and a request about a configuration may change what is cached. Neither depends on
what was answered, so the state after a history is a fold over its requests.

Whatever the history, the cache holds an alphabet together with the configuration
that it was compiled from. A configuration that is served from the cache has the
same expansion as that one, and so its own alphabet is alike.
-/

namespace Lindenmayer

def Request.config? : Request → Option Config
  | .exec config | .execDoubled config | .actionString config => some config
  | .setBound _ => none

namespace Simulator

/-- A simulator that has answered nothing yet. -/
def fresh (settings : Settings) : Simulator := { settings }

def answer (s : Simulator) (request : Request) : Response := (s.process request).2.1

def next (s : Simulator) (request : Request) : Simulator := (s.process request).1

/-- The simulator after a history of requests, the oldest first. -/
def after (s : Simulator) (history : List Request) : Simulator := history.foldl next s

/-- The bound after a history that began with the given one. -/
def boundAfter (bound : UInt64) (history : List Request) : UInt64 :=
  history.foldl (fun bound request =>
    match request with
    | .setBound size => size
    | _ => bound) bound

theorem after_concat (s : Simulator) (past : List Request) (request : Request) :
    s.after (past ++ [request]) = (s.after past).next request :=
  List.foldl_concat ..

/-! ## One request -/

theorem next_of_config {s : Simulator} {request : Request} {config : Config}
    (h : request.config? = some config) : s.next request = (s.alphabetFor config).1 := by
  have hexec : ∀ bound, (s.execWithin config bound).1 = (s.alphabetFor config).1 := by
    intro bound
    simp only [execWithin]
    split <;> rfl
  cases request with
  | exec c => cases h; exact hexec _
  | execDoubled c => cases h; exact hexec _
  | actionString c =>
      cases h
      simp only [next, process, actionString]
      split <;> rfl
  | setBound size => cases h

/-- An alphabet comes from the cache, or it is compiled anew. -/
theorem alphabetFor_cases (s : Simulator) (config : Config) :
    (∃ compiled, s.cache = some compiled ∧ compiled.config.sameExpansion config = true ∧
      s.alphabetFor config = (s, .ok compiled.alphabet, [⟨.trace, "Reusing compiled graph"⟩])) ∨
    (s.sameExpansion config = false ∧ s.alphabetFor config = s.compileAnew config) := by
  rw [alphabetFor, sameExpansion]
  cases s.cache with
  | none => exact Or.inr ⟨rfl, rfl⟩
  | some compiled =>
      cases hsame : compiled.config.sameExpansion config with
      | true => exact Or.inl ⟨compiled, rfl, hsame, by simp only [hsame, if_true]⟩
      | false => exact Or.inr ⟨hsame, by simp only [hsame, Bool.false_eq_true, if_false]⟩

theorem compileAnew_alphabet (s : Simulator) (config : Config) :
    (s.compileAnew config).2.1 = config.compile := by
  rw [compileAnew]
  cases config.compile <;> rfl

theorem compileAnew_settings (s : Simulator) (config : Config) :
    (s.compileAnew config).1.settings = s.settings := by
  rw [compileAnew]
  cases config.compile <;> rfl

theorem alphabetFor_settings (s : Simulator) (config : Config) :
    (s.alphabetFor config).1.settings = s.settings := by
  rcases alphabetFor_cases s config with ⟨_, _, _, h⟩ | ⟨_, h⟩
  · rw [h]
  · rw [h, compileAnew_settings]

/-! ## The cache tells the truth -/

/-- The cached alphabet is the one of the cached configuration. -/
def Sound (s : Simulator) : Prop :=
  ∀ compiled, s.cache = some compiled → compiled.config.compile = .ok compiled.alphabet

theorem fresh_sound (settings : Settings) : (fresh settings).Sound :=
  fun _ h => nomatch h

theorem Sound.compileAnew {s : Simulator} (config : Config) : (s.compileAnew config).1.Sound := by
  rw [Simulator.compileAnew]
  cases hc : config.compile with
  | error e => exact fun _ h => nomatch h
  | ok a =>
      intro compiled h
      injection h with h
      subst h
      exact hc

theorem Sound.next {s : Simulator} (hs : s.Sound) (request : Request) : (s.next request).Sound := by
  cases hc : request.config? with
  | none =>
      cases request with
      | setBound size => exact hs
      | _ => cases hc
  | some config =>
      rw [next_of_config hc]
      rcases alphabetFor_cases s config with ⟨_, _, _, h⟩ | ⟨_, h⟩
      · rw [h]; exact hs
      · rw [h]; exact Sound.compileAnew config

theorem next_settings (s : Simulator) (request : Request) :
    (s.next request).settings =
      { s.settings with bound := boundAfter s.settings.bound [request] } := by
  cases hc : request.config? with
  | none =>
      cases request with
      | setBound size => rfl
      | _ => cases hc
  | some config =>
      rw [next_of_config hc, alphabetFor_settings]
      cases request with
      | setBound size => cases hc
      | _ => rfl

theorem Sound.after {s : Simulator} (hs : s.Sound) (history : List Request) :
    (s.after history).Sound := by
  induction history generalizing s with
  | nil => exact hs
  | cons request history ih => exact ih (hs.next request)

theorem after_settings (s : Simulator) (history : List Request) :
    (s.after history).settings =
      { s.settings with bound := boundAfter s.settings.bound history } := by
  induction history generalizing s with
  | nil => rfl
  | cons request history ih =>
      show ((s.next request).after history).settings = _
      rw [ih, next_settings]
      rfl

/-- A sound simulator has for every configuration an alphabet that is alike to the
compiled one, or the same error. -/
theorem Sound.alphabetFor {s : Simulator} (hs : s.Sound) (config : Config) :
    (∃ a b, (s.alphabetFor config).2.1 = .ok a ∧ config.compile = .ok b ∧ a.Alike b) ∨
      ∃ e, (s.alphabetFor config).2.1 = .error e ∧ config.compile = .error e := by
  rcases alphabetFor_cases s config with ⟨compiled, hcache, hsame, h⟩ | ⟨_, h⟩
  · left
    obtain ⟨literals, hlit, ha⟩ := Config.compile_eq_ok_iff.1 (hs compiled hcache)
    have hdef := Config.definitions_eq_of_sameExpansion hsame
    refine ⟨_, config.assemble literals, by rw [h], ?_, ha ▸ Config.assemble_alike hsame literals⟩
    exact Config.compile_eq_ok_iff.2 ⟨literals, hdef ▸ hlit, rfl⟩
  · rw [h, compileAnew_alphabet]
    cases config.compile with
    | error e => exact Or.inr ⟨e, rfl, rfl⟩
    | ok a => exact Or.inl ⟨a, a, rfl, rfl, Alphabet.Alike.refl a⟩

end Simulator

end Lindenmayer
