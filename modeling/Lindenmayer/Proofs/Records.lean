import Lindenmayer.Proofs.Brackets
import Lindenmayer.Proofs.Retention
import Lindenmayer.Proofs.SpelledDrawing

/-!
# The log tells what happened

The log of a request is put together from its outcome: from the lengths of the
generations, from the notes of the drawings, from whether an alphabet was kept. One
would rather expect each record to be made where something happens. The loop of an
expansion has a record for every generation that it completes, and a warning when it
breaks off. The turtle warns of a pop that finds nothing, but not again in the same run.

These are the same records in the same order. A loop that logs as it goes has, at any
moment, the log of what it has got so far, and one step keeps it so.

What the log says is then read off the text. A generation has the length of its text, and
a run has a warning if some front of its text closes a bracket that it did not open.
-/

namespace Lindenmayer

/-! ## Records -/

def reusing : Record := ⟨.trace, "Reusing compiled graph"⟩

/-- The record of a completed iteration. -/
def produced (iteration length : Nat) : Record :=
  ⟨.trace, s!"Iteration {iteration} produced {length} actions"⟩

/-- The record of an iteration that was cut short. -/
def boundWarning (bound iteration iterations : Nat) : Record :=
  ⟨.warn, s!"Stack size {bound} exceeded in iteration {iteration} of {iterations}"⟩

def popWarning : Record := ⟨.warn, "pop on empty stack"⟩

theorem produced_ne_reusing (iteration length : Nat) : produced iteration length ≠ reusing := by
  intro h
  have htext := congrArg (fun r => r.message.toList.head?) h
  simp [produced, reusing, toString] at htext

namespace Log

def warnings (log : Log) : Log := log.filter (·.level = .warn)

/-- The records of single steps, apart from the one of an alphabet that was kept. -/
def progress (log : Log) : Log := log.filter fun r => r.level = .trace ∧ r ≠ reusing

variable (log more : Log)

@[simp] theorem warnings_append : warnings (log ++ more) = log.warnings ++ more.warnings :=
  List.filter_append log more

@[simp] theorem progress_append : progress (log ++ more) = log.progress ++ more.progress :=
  List.filter_append log more

end Log

/-! ## The warnings of a run -/

namespace Anomalies

theorem and_union (x y z : Anomalies) :
    (x.union y).bits &&& z.bits = (x.bits &&& z.bits) ||| (y.bits &&& z.bits) := by
  refine UInt8.eq_of_toBitVec_eq ?_
  simp only [union, UInt8.toBitVec_and, UInt8.toBitVec_or]
  ext i
  simp [Bool.and_or_distrib_right]

theorem contains_note_pop (x : Anomalies) :
    (x.union .popOnEmptyStack).contains .popOnEmptyStack = true := by
  rw [contains, and_union]
  refine beq_iff_eq.2 (UInt8.eq_of_toBitVec_eq ?_)
  ext i
  simp

theorem contains_note_push (x : Anomalies) :
    (x.union .pushNeverPopped).contains .popOnEmptyStack = x.contains .popOnEmptyStack := by
  rw [contains, and_union]
  show (_ ||| 0 == _) = _
  rw [UInt8.or_zero]
  rfl

end Anomalies

namespace Pen

/-- What the turtle says about an action that it is about to do. A pop that finds nothing
is worth a warning, unless there was one before. -/
def warning (pen : Pen) : Action → Log
  | .pop =>
      if pen.turtle.saved.isEmpty && !pen.drawing.anomalies.contains .popOnEmptyStack then
        [popWarning]
      else []
  | _ => []

/-- A step keeps the log of what is drawn up to date. -/
theorem log_step (pen : Pen) (action : Action) :
    (pen.step action).drawing.log = pen.drawing.log ++ pen.warning action := by
  cases action with
  | turn symbol rotation => exact (List.append_nil _).symm
  | push factor => exact (List.append_nil _).symm
  | pop =>
      show pen.pop.drawing.log = _
      cases hsaved : pen.turtle.saved with
      | cons top rest =>
          rw [pop_of_saved hsaved, warning, hsaved]
          exact (List.append_nil _).symm
      | nil =>
          have hnoted := Anomalies.contains_note_pop pen.drawing.anomalies
          rw [pop_of_empty hsaved, warning, hsaved]
          cases hbefore : pen.drawing.anomalies.contains .popOnEmptyStack with
          | true => simp [Drawing.log, Drawing.note, hnoted, hbefore]
          | false => simp [Drawing.log, Drawing.note, hnoted, hbefore, popWarning]
  | literal symbol colorNumber effects successor =>
      show (pen.mark colorNumber effects).drawing.log = _
      rw [Drawing.log, anomalies_mark, ← Drawing.log]
      exact (List.append_nil _).symm

theorem log_finish (pen : Pen) : pen.finish.log = pen.drawing.log := by
  rw [finish]
  split
  · rfl
  · rw [Drawing.log, Drawing.note, Anomalies.contains_note_push, ← Drawing.log]

end Pen

namespace Alphabet

/-- A step of a turtle that speaks. -/
def stepAloud (a : Alphabet) (run : Pen × Log) (id : SymbolId) : Pen × Log :=
  match a.actions[id]? with
  | some action => (run.1.step action, run.2 ++ run.1.warning action)
  | none => run

/-- A drawing, and what the turtle said while it was drawn. -/
def drawAloud (a : Alphabet) (word : Word) (startAngle stepSize : Float) : Drawing × Log :=
  let run := word.foldl a.stepAloud (.start startAngle stepSize, [])
  (run.1.finish, run.2)

variable {a : Alphabet}

theorem stepAloud_eq (a : Alphabet) (pen : Pen) (id : SymbolId) :
    a.stepAloud (pen, pen.drawing.log) id =
      (a.stepSymbol pen id, (a.stepSymbol pen id).drawing.log) := by
  rw [stepAloud, stepSymbol]
  cases a.actions[id]? with
  | none => rfl
  | some action => simp only [Pen.log_step]

theorem walkAloud_eq (a : Alphabet) (pen : Pen) (word : Word) :
    word.foldl a.stepAloud (pen, pen.drawing.log) =
      (a.walk pen word, (a.walk pen word).drawing.log) := by
  rw [walk, ← Array.foldl_toList, ← Array.foldl_toList]
  induction word.toList generalizing pen with
  | nil => rfl
  | cons id ids ih => rw [List.foldl_cons, stepAloud_eq, ih, List.foldl_cons]

theorem drawAloud_eq (a : Alphabet) (word : Word) (startAngle stepSize : Float) :
    a.drawAloud word startAngle stepSize =
      (a.draw word startAngle stepSize, (a.draw word startAngle stepSize).log) := by
  have hwalk := a.walkAloud_eq (.start startAngle stepSize) word
  have hstart : (Pen.start startAngle stepSize).drawing.log = [] := by
    show (if Anomalies.none.contains .popOnEmptyStack then _ else _) = _
    exact if_neg (by decide)
  rw [hstart] at hwalk
  simp only [drawAloud, hwalk, draw, Pen.log_finish]

/-! ## The records of an expansion -/

/-- The records of the iterations that are still to come, each where it ends. -/
def expandAloud (a : Alphabet) (bound iterations : Nat) :
    (remaining done : Nat) → (current : Word) → Log
  | 0, _, _ => []
  | remaining + 1, done, current =>
      match a.nextGeneration bound current with
      | .error _ => [boundWarning bound (done + 1) iterations]
      | .ok next =>
          produced (done + 1) next.size ::
            a.expandAloud bound iterations remaining (done + 1) next

theorem log_expandFrom (a : Alphabet) (bound iterations : Nat) (keepPrevious : Bool)
    (remaining : Nat) (current : Word) (lengths : Array Nat) (previous : Option Word) :
    (a.expandFrom bound keepPrevious remaining current lengths previous).log iterations bound =
      (lengths.toList.mapIdx fun i length => produced (i + 1) length) ++
        a.expandAloud bound iterations remaining lengths.size current := by
  induction remaining generalizing current lengths previous with
  | zero => rfl
  | succ remaining ih =>
      rw [expandFrom, expandAloud]
      cases a.nextGeneration bound current with
      | error cut => rfl
      | ok next =>
          simp only [ih, Array.size_push, Array.toList_push, List.mapIdx_concat,
            Array.length_toList, List.append_assoc, List.singleton_append]

/-- An expansion from the start logs as it goes. -/
theorem log_expand (a : Alphabet) (iterations bound : Nat) (keepPrevious : Bool) :
    (a.expand iterations bound keepPrevious).log iterations bound =
      a.expandAloud bound iterations iterations 0 #[a.start] :=
  a.log_expandFrom bound iterations keepPrevious iterations #[a.start] #[] none

/-- The records of the completed iterations, from the generations. -/
theorem iterationLog_expand (a : Alphabet) (iterations bound : Nat) (keepPrevious : Bool) :
    let e := a.expand iterations bound keepPrevious
    e.iterationLog = (List.range (if e.exceeded then e.iterations - 1 else e.iterations)).map
      fun k => produced (k + 1) (a.generationOf (k + 1)).length := by
  intro e
  have hlog : ∀ k, e.lengths = a.lengthsUpTo k → e.iterationLog =
      (List.range k).map fun k => produced (k + 1) (a.generationOf (k + 1)).length := by
    intro k hk
    rw [Expansion.iterationLog, hk, lengthsUpTo]
    refine List.ext_getElem (by simp) fun i _ _ => ?_
    simp [produced]
  obtain ⟨_, hexpand⟩ | ⟨k, _, m, _, _, hexpand⟩ := a.expand_cases iterations bound keepPrevious
  · have he : e = a.completed keepPrevious iterations := hexpand
    rw [hlog iterations (by rw [he]; rfl), he]
    rfl
  · have he : e = a.cutShort keepPrevious iterations k m := hexpand
    rw [hlog k (by rw [he]; rfl), he]
    rfl

end Alphabet

/-! ## Texts that close what they did not open -/

/-- Some front of the text closes more brackets than it opens. -/
def ClosesUnopened (text : List Char) : Prop :=
  ∃ front, front <+: text ∧ front.count '[' < front.count ']'

instance (text : List Char) : Decidable (ClosesUnopened text) :=
  decidable_of_iff (∃ front ∈ text.inits, front.count '[' < front.count ']')
    (exists_congr fun front => and_congr_left' (List.mem_inits front text))

theorem Config.underflows_iff_closesUnopened {config : Config} {a : Alphabet}
    (ha : config.compile = .ok a) {word : List SymbolId} {text : List Char}
    (h : List.Forall₂ config.Names word text) : a.Underflows word ↔ ClosesUnopened text := by
  have hlevel : ∀ n, a.level (word.take n) < 0 ↔
      (text.take n).count '[' < (text.take n).count ']' := by
    intro n
    rw [level_eq_depth ha (List.forall₂_take n h), depth_eq_count]
    omega
  rw [Alphabet.underflows_iff]
  constructor
  · rintro ⟨front, hfront, hlt⟩
    rw [List.prefix_iff_eq_take.1 hfront, hlevel] at hlt
    exact ⟨_, List.take_prefix _ text, hlt⟩
  · rintro ⟨front, hfront, hlt⟩
    rw [List.prefix_iff_eq_take.1 hfront, ← hlevel] at hlt
    exact ⟨_, List.take_prefix _ word, hlt⟩

/-- A run warns if its text closes what it did not open. -/
theorem Config.log_draw {config : Config} {a : Alphabet} (ha : config.compile = .ok a)
    {word : Word} (h : ∃ text, List.Forall₂ config.Names word.toList text)
    (startAngle stepSize : Float) :
    (a.draw word startAngle stepSize).log =
      if ClosesUnopened (a.spell word).toList then [popWarning] else [] := by
  obtain ⟨text, hnames⟩ := h
  have hspell := spell_eq_of_names ha hnames
  rw [Array.toArray_toList] at hspell
  rw [hspell, String.toList_ofList, Drawing.log, Alphabet.anomalies_draw]
  by_cases hcloses : ClosesUnopened text
  · rw [if_pos hcloses, if_pos ((underflows_iff_closesUnopened ha hnames).2 hcloses)]
    split <;> rfl
  · rw [if_neg hcloses, if_neg fun h => hcloses ((underflows_iff_closesUnopened ha hnames).1 h)]
    split <;> rfl

/-! ## The log of a request -/

/-- The words that are drawn after an expansion: its own, and the one before if there is
one. -/
def Expansion.drawn (e : Expansion) : List Word := e.word :: e.previous.toList

theorem Expansion.flatMap_drawn {α : Type} (e : Expansion) (f : Word → List α) :
    e.drawn.flatMap f = f e.word ++ (e.previous.map f).getD [] := by
  rw [drawn, List.flatMap_cons]
  cases e.previous with
  | none => rfl
  | some previous => rw [Option.toList_some, List.flatMap_singleton]; rfl

namespace Config

/-- The texts of the words that are drawn for a configuration, if it has an alphabet. -/
def drawnTexts (config : Config) (bound : Nat) (keepPrevious : Bool) : List (List Char) :=
  match config.compile with
  | .ok a =>
      (a.expand config.iterations.toNat bound keepPrevious).drawn.map fun word =>
        (a.spell word).toList
  | .error _ => []

theorem names_drawn {config : Config} {a : Alphabet} (ha : config.compile = .ok a) {n bound : Nat}
    {keepPrevious : Bool} {word : Word} (h : word ∈ (a.expand n bound keepPrevious).drawn) :
    ∃ text, List.Forall₂ config.Names word.toList text := by
  rw [Expansion.drawn, List.mem_cons, Option.mem_toList, Alphabet.previous_expand,
    Alphabet.keptAt_eq_some_iff] at h
  obtain rfl | ⟨_, rfl⟩ := h
  · obtain ⟨text, hnames, _⟩ := names_expand ha n bound keepPrevious
    exact ⟨text, hnames⟩
  · exact ⟨_, names_generation ha _⟩

/-- There is one warning for each text that closes what it did not open. -/
theorem log_drawn {config : Config} {a : Alphabet} (ha : config.compile = .ok a)
    {words : List Word} (h : ∀ word ∈ words, ∃ text, List.Forall₂ config.Names word.toList text)
    (startAngle stepSize : Float) :
    words.flatMap (fun word => (a.draw word startAngle stepSize).log) =
      List.replicate ((words.map fun word => (a.spell word).toList).countP (ClosesUnopened ·))
        popWarning := by
  induction words with
  | nil => rfl
  | cons word words ih =>
      rw [List.flatMap_cons, List.map_cons, List.countP_cons,
        ih fun w hw => h w (List.mem_cons_of_mem word hw),
        log_draw ha (h word List.mem_cons_self), Nat.add_comm, List.replicate_add]
      simp only [decide_eq_true_eq]
      split <;> rfl

/-- The records of the first `n` iterations. -/
def progressUpTo (config : Config) (n : Nat) : Log :=
  (List.range n).map fun k => produced (k + 1) (config.textAfter (k + 1)).length

end Config

/-- How many iterations were not cut. -/
def Result.completed (r : Result) : Nat :=
  if r.outcome = .boundExceeded then r.iterations - 1 else r.iterations

namespace Simulator

/-- The log of a request, each record where it is made. -/
def chronicle (s : Simulator) (config : Config) (bound : UInt64) : Log :=
  let (_, alphabet, log) := s.alphabetFor config
  match alphabet with
  | .ok a =>
      let n := config.iterations.toNat
      let expansion := a.expand n bound.toNat s.settings.previousGeneration
      let (drawing, warnings) := a.drawAloud expansion.word config.startAngle config.stepSize
      let previous :=
        expansion.previous.map (a.drawAloud · config.startAngle config.stepSize)
      let summary :=
        s!"Executed {expansion.word.size} actions into {drawing.segments.size} segments"
          ++ s!" after {expansion.iterations} iterations"
      log ++ (a.expandAloud bound.toNat n n 0 #[a.start] ++ warnings ++
        (previous.map (·.2)).getD [] ++ [⟨.debug, summary⟩])
  | .error error => log ++ [⟨.debug, s!"Invalid configuration: {error.message}"⟩]

theorem log_eq_chronicle (s : Simulator) (config : Config) (bound : UInt64) :
    (s.execWithin config bound).2.2 = s.chronicle config bound := by
  rw [execWithin, chronicle]
  rcases s.alphabetFor config with ⟨s', alphabet, log⟩
  cases alphabet with
  | error e => rfl
  | ok a =>
      simp only [render, Alphabet.drawAloud_eq, Alphabet.log_expand, Option.map_map]
      rfl

/-! ## Counting records -/

theorem log_parts {progress warned : Log} (summary : String)
    (hprogress : ∀ r ∈ progress, ∃ iteration length, r = produced iteration length)
    (hwarned : ∀ r ∈ warned, r.level = .warn) :
    let log := progress ++ warned ++ [⟨.debug, summary⟩]
    log.count reusing = 0 ∧ log.progress = progress ∧ log.warnings = warned := by
  intro log
  have htrace : ∀ r ∈ progress, r.level = .trace ∧ r ≠ reusing := by
    intro r hr
    obtain ⟨iteration, length, rfl⟩ := hprogress r hr
    exact ⟨rfl, produced_ne_reusing iteration length⟩
  have hwarn : ∀ r ∈ warned, r ≠ reusing := by
    intro r hr h
    have hlevel := hwarned r hr
    rw [h] at hlevel
    cases hlevel
  refine ⟨?_, ?_, ?_⟩
  · refine List.count_eq_zero.2 fun hmem => ?_
    obtain (hmem | hmem) | hmem := by simpa only [log, List.mem_append] using hmem
    · exact (htrace _ hmem).2 rfl
    · exact hwarn _ hmem rfl
    · cases List.mem_singleton.1 hmem
  · have hkept : progress.progress = progress :=
      List.filter_eq_self.2 fun r hr => decide_eq_true (htrace r hr)
    have hnone : Log.progress warned = [] := by
      refine List.filter_eq_nil_iff.2 fun r hr => ?_
      simp [hwarned r hr]
    simp only [log, Log.progress_append, hkept, hnone, List.append_nil]
    exact List.append_nil progress
  · have hkept : warned.warnings = warned :=
      List.filter_eq_self.2 fun r hr => decide_eq_true (hwarned r hr)
    have hnone : Log.warnings progress = [] := by
      refine List.filter_eq_nil_iff.2 fun r hr => ?_
      simp [(htrace r hr).1]
    simp only [log, Log.warnings_append, hkept, hnone, List.nil_append]
    exact List.append_nil warned

/-- What is logged about an alphabet. -/
theorem log_alphabetFor (s : Simulator) (config : Config) :
    (s.alphabetFor config).2.2.count reusing =
        (if (s.alphabetFor config).1.compileCount = s.compileCount then 1 else 0) ∧
      (s.alphabetFor config).2.2.progress = [] ∧ (s.alphabetFor config).2.2.warnings = [] := by
  obtain ⟨compiled, _, _, heq⟩ | ⟨_, heq⟩ := alphabetFor_cases s config
  · rw [heq]
    exact ⟨by rw [if_pos rfl]; rfl, rfl, rfl⟩
  · rw [heq, compileAnew]
    cases config.compile with
    | error e => exact ⟨(if_neg (Nat.succ_ne_self _)).symm, rfl, rfl⟩
    | ok a => exact ⟨(if_neg (Nat.succ_ne_self _)).symm, rfl, rfl⟩

/-- The progress of a rendering, its warnings and a summary. -/
theorem log_render (a : Alphabet) (config : Config) (bound : Nat) (keepPrevious : Bool) :
    let e := a.expand config.iterations.toNat bound keepPrevious
    ∃ summary, (render a config bound keepPrevious).2 =
      e.iterationLog ++
        ((if e.exceeded then [boundWarning bound e.iterations config.iterations.toNat] else []) ++
          e.drawn.flatMap fun word => (a.draw word config.startAngle config.stepSize).log) ++
        [⟨.debug, summary⟩] := by
  intro e
  obtain ⟨summary, hlog⟩ : ∃ summary, (render a config bound keepPrevious).2 =
      e.log config.iterations.toNat bound ++
        (a.draw e.word config.startAngle config.stepSize).log ++
        ((e.previous.map (a.draw · config.startAngle config.stepSize)).map (·.log)).getD [] ++
        [⟨.debug, summary⟩] := ⟨_, rfl⟩
  refine ⟨summary, ?_⟩
  rw [hlog, Expansion.flatMap_drawn, Option.map_map, Expansion.log]
  simp only [List.append_assoc]
  rfl

theorem records_render {config : Config} {a : Alphabet} (ha : config.compile = .ok a)
    (bound : Nat) (keepPrevious : Bool) :
    let result := (render a config bound keepPrevious).1
    let log := (render a config bound keepPrevious).2
    log.count reusing = 0 ∧ log.progress = config.progressUpTo result.completed ∧
      log.warnings =
        (if result.outcome = .boundExceeded then
          [boundWarning bound result.iterations config.iterations.toNat] else []) ++
        List.replicate ((config.drawnTexts bound keepPrevious).countP (ClosesUnopened ·))
          popWarning := by
  intro result log
  obtain ⟨summary, hlog⟩ := log_render a config bound keepPrevious
  have houtcome : (a.expand config.iterations.toNat bound keepPrevious).exceeded = true ↔
      result.outcome = .boundExceeded := by
    cases h : (a.expand config.iterations.toNat bound keepPrevious).exceeded <;>
      simp [result, render, h]
  have hlength : ∀ k, (a.generationOf k).length = (config.textAfter k).length :=
    fun k => (Config.names_generation ha k).length_eq
  rw [a.iterationLog_expand, Config.log_drawn ha fun _ h => Config.names_drawn ha h] at hlog
  simp only [houtcome, hlength] at hlog
  have htexts : config.drawnTexts bound keepPrevious =
      (a.expand config.iterations.toNat bound keepPrevious).drawn.map fun word =>
        (a.spell word).toList := by
    rw [Config.drawnTexts, ha]
  rw [show log = _ from hlog, htexts]
  refine log_parts summary (fun r hr => ?_) fun r hr => ?_
  · obtain ⟨k, _, rfl⟩ := List.mem_map.1 hr
    exact ⟨_, _, rfl⟩
  · obtain hr | hr := List.mem_append.1 hr
    · split at hr
      · rw [List.mem_singleton.1 hr]
        rfl
      · cases hr
    · rw [(List.mem_replicate.1 hr).2]
      rfl

theorem length_drawnTexts {config : Config} {a : Alphabet} (ha : config.compile = .ok a)
    (bound : Nat) (keepPrevious : Bool) :
    (config.drawnTexts bound keepPrevious).length =
      1 + (render a config bound keepPrevious).1.previousSegments.toList.length := by
  rw [Config.drawnTexts, ha, List.length_map, Expansion.drawn, List.length_cons, Nat.add_comm]
  simp only [render]
  cases (a.expand config.iterations.toNat bound keepPrevious).previous <;> rfl

/-- A log that tells the truth about a request that took one simulator to another. It says
if an alphabet was kept, has one record for each completed iteration, in order, with the
length of that generation, and warns of a bound that was exceeded and of each text that
closes what it did not open. There are no other warnings. -/
structure Truthful (s s' : Simulator) (config : Config) (bound : UInt64) (result : Result)
    (log : Log) : Prop where
  /-- Each record was made where something happened. -/
  recorded : log = s.chronicle config bound
  reuses : log.count reusing = if s'.compileCount = s.compileCount then 1 else 0
  progress : log.progress = config.progressUpTo result.completed
  warnings : log.warnings =
    (if result.outcome = .boundExceeded then
      [boundWarning bound.toNat result.iterations config.iterations.toNat] else []) ++
    List.replicate
      ((config.drawnTexts bound.toNat s.settings.previousGeneration).countP (ClosesUnopened ·))
      popWarning
  /-- There are one or two texts, depending on what the result shows. -/
  texts : (∀ e, result.outcome ≠ .invalidConfig e) →
    (config.drawnTexts bound.toNat s.settings.previousGeneration).length =
      1 + result.previousSegments.toList.length

theorem Sound.truthful {s : Simulator} (hs : s.Sound) (config : Config) (bound : UInt64) :
    s.Truthful (s.alphabetFor config).1 config bound (s.execWithin config bound).2.1
      (s.execWithin config bound).2.2 := by
  obtain ⟨hreuses, hprogress, hwarnings⟩ := s.log_alphabetFor config
  have hrecorded := s.log_eq_chronicle config bound
  obtain ⟨b, a, hb, ha, hba⟩ | ⟨e, he, hc⟩ := hs.alphabetFor config
  · obtain ⟨hnone, hiterations, hwarned⟩ :=
      records_render ha bound.toNat s.settings.previousGeneration
    have hrun : (s.execWithin config bound).2 =
        ((render a config bound.toNat s.settings.previousGeneration).1,
          (s.alphabetFor config).2.2 ++
            (render a config bound.toNat s.settings.previousGeneration).2) := by
      rw [← hba.render_eq, execWithin]
      simp only [hb]
    rw [hrun] at hrecorded ⊢
    refine ⟨hrecorded, ?_, ?_, ?_, fun _ => length_drawnTexts ha ..⟩
    · rw [List.count_append, hreuses, hnone, Nat.add_zero]
    · rw [Log.progress_append, hprogress, hiterations, List.nil_append]
    · rw [Log.warnings_append, hwarnings, hwarned, List.nil_append]
  · have htexts : config.drawnTexts bound.toNat s.settings.previousGeneration = [] := by
      rw [Config.drawnTexts, hc]
    have hrun : (s.execWithin config bound).2 =
        (.invalid e, (s.alphabetFor config).2.2 ++
          [⟨.debug, s!"Invalid configuration: {e.message}"⟩]) := by
      rw [execWithin]
      simp only [he]
    rw [hrun] at hrecorded ⊢
    refine ⟨hrecorded, ?_, ?_, ?_, fun h => absurd rfl (h e)⟩
    · rw [List.count_append, hreuses]
      rfl
    · rw [Log.progress_append, hprogress]
      rfl
    · rw [Log.warnings_append, hwarnings, htexts]
      rfl

/-- The log of a request for a drawing tells the truth, whatever the simulator was asked
before. -/
theorem log_tells_truth (settings : Settings) (history : List Request) (config : Config) :
    let s := (fresh settings).after history
    (∃ result, s.answer (.exec config) = .exec result ∧
      s.Truthful (s.next (.exec config)) config (s.boundFor config) result
        (s.process (.exec config)).2.2) ∧
    ∃ result, s.answer (.execDoubled config) = .exec result ∧
      s.Truthful (s.next (.execDoubled config)) config (doubled (s.boundFor config)) result
        (s.process (.execDoubled config)).2.2 := by
  intro s
  have hs : s.Sound := (fresh_sound settings).after history
  rw [next_of_config rfl, next_of_config rfl]
  exact ⟨⟨_, rfl, hs.truthful config _⟩, _, rfl, hs.truthful config _⟩

end Simulator

end Lindenmayer
