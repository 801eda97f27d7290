import Lindenmayer.Proofs.History

/-!
# The cache cannot be noticed

A response is a function of the settings, of the request and of the alphabet of its
configuration. The settings after a history are the initial ones with the bound that
was set last. The alphabet may come from the cache and then need not be the compiled
one bit for bit, but it is alike, and drawings and spellings of alphabets that are
alike are the same. So a simulator answers every request as a new one with the same
settings would.
-/

namespace Lindenmayer.Simulator

/-- The result for a configuration whose alphabet is as given. -/
def resultWith (alphabet : Except ConfigError Alphabet) (config : Config) (bound : UInt64)
    (keepPrevious : Bool) : Result :=
  match alphabet with
  | .ok a => (render a config bound.toNat keepPrevious).1
  | .error error => .invalid error

/-- The action string of a configuration whose alphabet is as given. -/
def textWith (alphabet : Except ConfigError Alphabet) (config : Config) (bound : UInt64) :
    Except ConfigError String :=
  alphabet.map fun a => a.spell (a.expand config.iterations.toNat bound.toNat false).word

theorem outcome_render_ok_iff (a : Alphabet) (config : Config) (bound : Nat)
    (keepPrevious : Bool) :
    (render a config bound keepPrevious).1.outcome = .ok ↔
      (a.expand config.iterations.toNat bound keepPrevious).exceeded = false := by
  cases h : (a.expand config.iterations.toNat bound keepPrevious).exceeded <;> simp [render, h]

theorem execWithin_result (s : Simulator) (config : Config) (bound : UInt64) :
    (s.execWithin config bound).2.1 =
      resultWith (s.alphabetFor config).2.1 config bound s.settings.previousGeneration := by
  rw [execWithin]
  rcases s.alphabetFor config with ⟨s', alphabet, log⟩
  cases alphabet <;> rfl

theorem actionString_text (s : Simulator) (config : Config) :
    (s.actionString config).2.1 =
      textWith (s.alphabetFor config).2.1 config (s.boundFor config) := by
  rw [actionString]
  rcases s.alphabetFor config with ⟨s', alphabet, log⟩
  cases alphabet <;> rfl

theorem Sound.resultWith_eq {s : Simulator} (hs : s.Sound) (config : Config) (bound : UInt64)
    (keepPrevious : Bool) :
    resultWith (s.alphabetFor config).2.1 config bound keepPrevious =
      resultWith config.compile config bound keepPrevious := by
  rcases hs.alphabetFor config with ⟨a, b, ha, hb, hab⟩ | ⟨e, he, hc⟩
  · rw [ha, hb, resultWith, resultWith, hab.render_eq]
  · rw [he, hc]

theorem Sound.textWith_eq {s : Simulator} (hs : s.Sound) (config : Config) (bound : UInt64) :
    textWith (s.alphabetFor config).2.1 config bound = textWith config.compile config bound := by
  rcases hs.alphabetFor config with ⟨a, b, ha, hb, hab⟩ | ⟨e, he, hc⟩
  · simp only [ha, hb, textWith, Except.map, hab.expand_eq, hab.spell_eq]
  · rw [he, hc]

/-- The result within a bound is a matter of the configuration, of the bound and of
whether the last generation but one is drawn. -/
theorem execWithin_after (settings : Settings) (history : List Request) (config : Config)
    (bound : UInt64) :
    (((fresh settings).after history).execWithin config bound).2.1 =
      resultWith config.compile config bound settings.previousGeneration := by
  rw [execWithin_result, ((fresh_sound settings).after history).resultWith_eq, after_settings]
  rfl

/-- The action string is a matter of the configuration and of the bound. -/
theorem actionString_after (settings : Settings) (history : List Request) (config : Config) :
    let s := (fresh settings).after history
    (s.actionString config).2.1 = textWith config.compile config (s.boundFor config) := by
  intro s
  rw [actionString_text, ((fresh_sound settings).after history).textWith_eq]

/-- What a simulator with the given settings answers if it caches nothing. -/
def coldAnswer (settings : Settings) : Request → Response
  | .exec config =>
      .exec (resultWith config.compile config (config.stackSize.getD settings.bound)
        settings.previousGeneration)
  | .execDoubled config =>
      .exec (resultWith config.compile config (doubled (config.stackSize.getD settings.bound))
        settings.previousGeneration)
  | .actionString config =>
      .actionString (textWith config.compile config (config.stackSize.getD settings.bound))
  | .setBound size => .bound size

/-- A sound simulator answers from its settings alone. -/
theorem Sound.answer_eq {s : Simulator} (hs : s.Sound) (request : Request) :
    s.answer request = coldAnswer s.settings request := by
  cases request with
  | exec config =>
      show Response.exec (s.execWithin config (s.boundFor config)).2.1 = _
      rw [execWithin_result, hs.resultWith_eq]
      rfl
  | execDoubled config =>
      show Response.exec (s.execWithin config (doubled (s.boundFor config))).2.1 = _
      rw [execWithin_result, hs.resultWith_eq]
      rfl
  | actionString config =>
      show Response.actionString (s.actionString config).2.1 = _
      rw [actionString_text, hs.textWith_eq]
      rfl
  | setBound size => rfl

/-- Whatever a simulator was asked before, it answers like a new simulator that has
the bound that was set last. -/
theorem answer_after (settings : Settings) (history : List Request) (request : Request) :
    ((fresh settings).after history).answer request =
      (fresh { settings with bound := boundAfter settings.bound history }).answer request := by
  have hwarm := ((fresh_sound settings).after history).answer_eq request
  have hcold := (fresh_sound { settings with
    bound := boundAfter settings.bound history }).answer_eq request
  rw [hwarm, hcold, after_settings]
  rfl

/-- The cached alphabet need not be the one that is compiled anew, though. -/
example :
    let config (factor : Float) : Config :=
      { definitions := [⟨'A', "[A]", .black, .paint⟩], turnLeft := 0, turnRight := 0,
        scaling := factor }
    (config 0).sameExpansion (config (-0)) = true ∧
      (config 0).compile.toOption ≠ (config (-0)).compile.toOption := by
  decide +kernel

end Lindenmayer.Simulator
