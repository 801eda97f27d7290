import Lindenmayer.Proofs.Interleaving
import Lindenmayer.Proofs.LargerBound
import Lindenmayer.Proofs.Writing

/-!
# What an evaluation writes

Behind the options there are a worker, its two queues and a cache that is warm when a
second attempt is made. Nothing of this shows in the output. A simulator answers as a
new one would, so the output is a function of the options and the configuration that
can be written down without any of it.

The options and the configuration do not yield to each other in the same way. The
number of iterations is that of the options, if they have one; the bound is that of
the configuration, if it has one. A result that exceeded its bound is no failure, with
or without a second attempt. Only a configuration that does not compile is, and where a
drawing was asked for, that is reported in its place.
-/

namespace Lindenmayer

/-! ## What is to be written -/

namespace Program

/-- The configuration that is evaluated under the given options. -/
def counted (options : Options) (config : Config) : Config :=
  { config with iterations := options.iterations.getD config.iterations }

/-- The bound that a configuration is evaluated under. -/
def boundFor (options : Options) (config : Config) : UInt64 :=
  config.stackSize.getD (options.stackSize.getD 10000000)

/-- The result of a simulator that was asked nothing before. -/
def coldResult (config : Config) (bound : UInt64) (keepPrevious : Bool) : Result :=
  ((Simulator.fresh { previousGeneration := keepPrevious }).execWithin config bound).2.1

/-- The result under the bound, or else under twice the bound. -/
def finalResult (config : Config) (bound : UInt64) (keepPrevious retry : Bool) : Result :=
  let first := coldResult config bound keepPrevious
  if retry = true ∧ first.outcome = .boundExceeded then
    coldResult config (.ofNat (min (2 * bound.toNat) (2 ^ 64 - 1))) keepPrevious
  else first

def shown (json : Bool) (result : Result) : String :=
  if json then (Json.ofResult result).pretty ++ "\n" else result.report

def ending (result : Result) : Except Failure Unit :=
  match result.outcome with
  | .invalidConfig error => .error (.invalidConfig error)
  | .ok | .boundExceeded => .ok ()

/-- The text of the last generation, or nothing if there is no alphabet. -/
def spelled (config : Config) (bound : UInt64) : String × Except Failure Unit :=
  match config.compile with
  | .ok a => (a.spell (a.expand config.iterations.toNat bound.toNat false).word ++ "\n", .ok ())
  | .error error => ("", .error (.invalidConfig error))

/-- What is written for a configuration under the given options, and how that ends. -/
def answerTo (options : Options) (config : Config) : String × Except Failure Unit :=
  let config := counted options config
  let bound := boundFor options config
  if options.actionString then spelled config bound
  else
    let result := finalResult config bound options.previous options.retry
    (shown options.json result, ending result)

/-- What is written for a result, with the failures of writing it. -/
def documentsOf (json : Bool) (result : Result) : List Document :=
  if json then [⟨.json, (Json.ofResult result).pretty⟩, ⟨.output, "\n"⟩]
  else [⟨.output, result.report⟩]

/-- What is written for a configuration under the given options, document by document. -/
def documents (options : Options) (config : Config) : List Document :=
  let config := counted options config
  let bound := boundFor options config
  if options.actionString then [⟨.output, (spelled config bound).1⟩]
  else documentsOf options.json (finalResult config bound options.previous options.retry)

theorem join_documentsOf (json : Bool) (result : Result) :
    Document.join (documentsOf json result) = shown json result := by
  cases json <;> simp [documentsOf, shown, Document.join, String.join_cons]

theorem join_documents (options : Options) (config : Config) :
    Document.join (documents options config) = (answerTo options config).1 := by
  rw [documents, answerTo]
  split
  · simp [Document.join, String.join_cons]
  · exact join_documentsOf _ _

end Program

/-! ## Calls to a worker -/

namespace Worker

theorem exec_idle (s : Simulator) (config : Config) :
    (idle s).exec config =
      (idle (s.next (.exec config)), (s.exec config).2.2, .ok (s.exec config).2.1) :=
  rfl

theorem execDoubled_idle (s : Simulator) (config : Config) :
    (idle s).execDoubled config =
      (idle (s.next (.execDoubled config)), (s.execDoubled config).2.2,
        .ok (s.execDoubled config).2.1) :=
  rfl

theorem actionString_idle (s : Simulator) (config : Config) :
    (idle s).actionString config =
      (idle (s.next (.actionString config)), (s.actionString config).2.2,
        .ok (s.actionString config).2.1) :=
  rfl

end Worker

namespace Program

open Evaluation Simulator

theorem coldResult_eq (config : Config) (bound : UInt64) (keepPrevious : Bool) :
    coldResult config bound keepPrevious =
      resultWith config.compile config bound keepPrevious :=
  execWithin_after { previousGeneration := keepPrevious } [] config bound

/-- A worker that was asked nothing before gives the final result. -/
theorem attempt_idle (options : Options) (config : Config) (size : UInt64) :
    ∃ w log, attempt options config (.idle (fresh ⟨size, options.previous⟩)) =
      (w, log, .ok (finalResult config (config.stackSize.getD size) options.previous
        options.retry)) := by
  have hfirst : ((fresh ⟨size, options.previous⟩).exec config).2.1 =
      coldResult config (config.stackSize.getD size) options.previous := by
    rw [coldResult_eq]
    exact execWithin_after ⟨size, options.previous⟩ [] config _
  -- The cache is warm in the second attempt.
  have hsecond : (((fresh ⟨size, options.previous⟩).next (.exec config)).execDoubled config).2.1 =
      coldResult config (.ofNat (min (2 * (config.stackSize.getD size).toNat) (2 ^ 64 - 1)))
        options.previous := by
    have htwice := doubled_eq (config.stackSize.getD size)
    rw [show UInt64.size = 2 ^ 64 from rfl] at htwice
    rw [coldResult_eq, ← htwice]
    exact execDoubled_after_exec ⟨size, options.previous⟩ [] config
  rw [attempt, Worker.exec_idle, finalResult]
  simp only [hfirst]
  split
  · rw [Worker.execDoubled_idle, hsecond]
    exact ⟨_, _, rfl⟩
  · exact ⟨_, _, rfl⟩

theorem evaluate_eq (options : Options) (config : Config) (sink : Sink) :
    ∃ log, evaluate options config sink =
      evaluateWith options (counted options config) sink log
        (.idle (fresh ⟨options.stackSize.getD 10000000, options.previous⟩)) := by
  cases hsize : options.stackSize with
  | none =>
      refine ⟨[], ?_⟩
      rw [evaluate, hsize]
      rfl
  | some size =>
      refine ⟨[⟨.debug, s!"Max stack size set to {size}"⟩], ?_⟩
      rw [evaluate, hsize]
      rfl

theorem writeResult_eq (options : Options) (result : Result) (e : Evaluation) :
    writeResult options result e =
      (e.writeDocuments (documentsOf options.json result)).endWith (ending result) := by
  have hwritten : (if options.json then
      (e.write .json [(Json.ofResult result).pretty]).write .output ["\n"]
    else e.write .output (Report.pieces result)) =
      e.writeDocuments (documentsOf options.json result) := by
    cases hjson : options.json with
    | true => rfl
    | false => exact write_join e .output (Report.pieces result)
  rw [writeResult]
  simp only [hwritten, ending]
  cases result.outcome <;> rfl

theorem evaluateWith_text (options : Options) (config : Config) (size : UInt64) (sink : Sink)
    (log : Log) (haction : options.actionString = true) :
    let bound := config.stackSize.getD size
    ∃ log', evaluateWith options config sink log (.idle (fresh ⟨size, options.previous⟩)) =
      (({ sink, log := log', outcome := .ok () } : Evaluation).writeDocuments
        [⟨.output, (spelled config bound).1⟩]).endWith (spelled config bound).2 := by
  intro bound
  have htext : ((fresh ⟨size, options.previous⟩).actionString config).2.1 =
      textWith config.compile config bound := by
    rw [actionString_text, (fresh_sound _).textWith_eq]
    rfl
  refine ⟨log ++ ((fresh ⟨size, options.previous⟩).actionString config).2.2, ?_⟩
  rw [evaluateWith, if_pos haction, Worker.actionString_idle, htext, textWith, spelled]
  cases config.compile with
  | error error =>
      simp only [Except.map, writeDocuments, List.foldl_cons, List.foldl_nil, write_empty]
      rfl
  | ok a =>
      have hjoin : ∀ text : String, String.join [text, "\n"] = text ++ "\n" := by
        intro text
        simp [String.join_cons]
      simp only [Except.map, writeDocuments, List.foldl_cons, List.foldl_nil, endWith]
      exact (write_join _ .output [_, "\n"]).trans (by rw [hjoin])

theorem evaluateWith_drawing (options : Options) (config : Config) (size : UInt64) (sink : Sink)
    (log : Log) (haction : options.actionString = false) :
    let result := finalResult config (config.stackSize.getD size) options.previous options.retry
    ∃ log', evaluateWith options config sink log (.idle (fresh ⟨size, options.previous⟩)) =
      (({ sink, log := log', outcome := .ok () } : Evaluation).writeDocuments
        (documentsOf options.json result)).endWith (ending result) := by
  intro result
  obtain ⟨w, more, hattempt⟩ := attempt_idle options config size
  refine ⟨log ++ more, ?_⟩
  rw [evaluateWith, if_neg (by simp [haction]), hattempt]
  exact writeResult_eq options result _

/-- An evaluation writes its documents, wherever they go. -/
theorem evaluate_documents (options : Options) (config : Config) (sink : Sink) :
    ∃ log, evaluate options config sink =
      (({ sink, log, outcome := .ok () } : Evaluation).writeDocuments
        (documents options config)).endWith (answerTo options config).2 := by
  obtain ⟨log, hevaluate⟩ := evaluate_eq options config sink
  rw [hevaluate]
  cases haction : options.actionString with
  | true =>
      simp only [documents, answerTo, haction, if_true]
      exact evaluateWith_text options (counted options config) _ sink log haction
  | false =>
      simp only [documents, answerTo, haction, Bool.false_eq_true, if_false]
      exact evaluateWith_drawing options (counted options config) _ sink log haction

/-- Where output has no limit, what an evaluation writes and how it ends are a function of
the options and of the configuration. -/
theorem evaluate_unlimited (options : Options) (config : Config) (kept : ByteArray) :
    let e := evaluate options config { room := none, kept }
    let answer := answerTo options config
    e.sink = { room := none, kept := kept ++ answer.1.toUTF8 } ∧ e.outcome = answer.2 := by
  intro e answer
  obtain ⟨log, hwritten⟩ := evaluate_documents options config { room := none, kept }
  rw [writeDocuments_unlimited, join_documents] at hwritten
  have he : e = _ := hwritten
  rw [he]
  show _ ∧ _ = answer.2
  cases answer.2 with
  | ok => exact ⟨rfl, rfl⟩
  | error failure => exact ⟨rfl, rfl⟩

end Program

end Lindenmayer
