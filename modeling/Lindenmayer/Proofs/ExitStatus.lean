import Lindenmayer.Proofs.Evaluation
import Lindenmayer.Proofs.Paths

/-!
# How the program ends

Four things have to go well: reading the path that the options name has to give bytes,
the bytes have to be a text, the text has to be one of the format, and the configuration
has to compile. The program fails with the first of them that goes wrong, and with nothing
else where output can be written. Neither the other options nor what is drawn matter to
that: the number of iterations is no part of what is compiled, and a generation that is
too long is a result like any other.

How a path is read is not up to the program, so this is said for any way of reading. What
it comes to in a folder with one file in it is added at the end.

What failed is the only error that is logged. Of a configuration that is rejected there
is output all the same, unless its text was asked for.
-/

namespace Lindenmayer

/-! ## No errors along the way -/

/-- Having no record of an error. -/
def Log.Calm (log : Log) : Prop := ∀ record ∈ log, record.level ≠ .error

namespace Log

theorem calm_nil : Calm [] := fun _ h => absurd h List.not_mem_nil

theorem calm_cons {level : Level} {message : String} {log : Log} :
    Calm (⟨level, message⟩ :: log) ↔ level ≠ .error ∧ log.Calm := List.forall_mem_cons

theorem calm_append {log more : Log} : Calm (log ++ more) ↔ log.Calm ∧ more.Calm :=
  List.forall_mem_append

theorem calm_singleton {level : Level} (h : level ≠ .error) {message : String} :
    Calm [⟨level, message⟩] := List.forall_mem_singleton.2 h

theorem Calm.find?_eq_none {log : Log} (h : log.Calm) : log.find? (·.level = .error) = none :=
  List.find?_eq_none.2 fun record hrecord => by simpa using h record hrecord

/-- The first error of a calm log with an error behind it is that error. -/
theorem Calm.find?_concat {log : Log} (h : log.Calm) (message : String) :
    List.find? (·.level = .error) (log ++ [⟨.error, message⟩]) = some ⟨.error, message⟩ := by
  rw [List.find?_append, h.find?_eq_none]
  rfl

end Log

theorem Expansion.calm_log (e : Expansion) (iterations bound : Nat) :
    (e.log iterations bound).Calm := by
  refine Log.calm_append.2 ⟨fun record hrecord => ?_, ?_⟩
  · obtain ⟨i, _, rfl⟩ := List.mem_mapIdx.1 hrecord
    exact nofun
  · split
    · exact Log.calm_singleton (by decide)
    · exact Log.calm_nil

theorem Drawing.calm_log (d : Drawing) : d.log.Calm := by
  rw [log]
  split
  · exact Log.calm_singleton (by decide)
  · exact Log.calm_nil

namespace Simulator

theorem calm_alphabetFor (s : Simulator) (config : Config) : (s.alphabetFor config).2.2.Calm := by
  obtain ⟨compiled, -, -, heq⟩ | ⟨-, heq⟩ := alphabetFor_cases s config
  · rw [heq]
    exact Log.calm_singleton (by decide)
  · rw [heq, compileAnew]
    cases config.compile with
    | ok a => exact Log.calm_singleton (by decide)
    | error e => exact Log.calm_nil

theorem calm_render (a : Alphabet) (config : Config) (bound : Nat) (keepPrevious : Bool) :
    (render a config bound keepPrevious).2.Calm := by
  refine Log.calm_append.2 ⟨Log.calm_append.2 ⟨Log.calm_append.2 ⟨?_, ?_⟩, ?_⟩, ?_⟩
  · exact Expansion.calm_log _ _ _
  · exact Drawing.calm_log _
  · cases (a.expand config.iterations.toNat bound keepPrevious).previous with
    | none => exact Log.calm_nil
    | some word => exact Drawing.calm_log _
  · exact Log.calm_singleton (by decide)

theorem calm_execWithin (s : Simulator) (config : Config) (bound : UInt64) :
    (s.execWithin config bound).2.2.Calm := by
  have halphabet := s.calm_alphabetFor config
  rw [execWithin]
  generalize s.alphabetFor config = found at halphabet ⊢
  obtain ⟨s', _ | a, log⟩ := found
  · exact Log.calm_append.2 ⟨halphabet, Log.calm_singleton (by decide)⟩
  · exact Log.calm_append.2 ⟨halphabet, calm_render _ _ _ _⟩

theorem calm_actionString (s : Simulator) (config : Config) :
    (s.actionString config).2.2.Calm := by
  have halphabet := s.calm_alphabetFor config
  rw [actionString]
  generalize s.alphabetFor config = found at halphabet ⊢
  obtain ⟨s', _ | a, log⟩ := found
  · exact halphabet
  · refine Log.calm_append.2 ⟨Log.calm_append.2 ⟨halphabet, Expansion.calm_log _ _ _⟩, ?_⟩
    split
    · exact Log.calm_singleton (by decide)
    · exact Log.calm_nil

theorem calm_process (s : Simulator) (request : Request) : (s.process request).2.2.Calm := by
  cases request with
  | exec config | execDoubled config => exact calm_execWithin _ _ _
  | actionString config => exact calm_actionString _ _
  | setBound size => exact Log.calm_singleton (by decide)

end Simulator

theorem Worker.calm_call (w : Worker) (request : Request) : (w.call request).2.1.Calm := by
  have hserve : (w.send request).serve.2.Calm := by
    rw [serve]
    split
    · exact Log.calm_nil
    · exact Simulator.calm_process _ _
  rw [call]
  generalize (w.send request).serve = served at hserve ⊢
  simp only
  split
  · exact hserve
  · exact hserve

namespace Program

theorem calm_attempt (options : Options) (config : Config) (w : Worker) :
    (attempt options config w).2.1.Calm := by
  have hfirst : (w.exec config).2.1.Calm := w.calm_call (.exec config)
  rw [attempt]
  generalize w.exec config = called at hfirst ⊢
  obtain ⟨w', log, _ | result⟩ := called
  · exact hfirst
  · simp only
    split
    · refine Log.calm_append.2 ⟨Log.calm_append.2 ⟨hfirst, Log.calm_singleton (by decide)⟩, ?_⟩
      exact w'.calm_call (.execDoubled config)
    · exact hfirst

theorem log_write (e : Evaluation) (failed : String → Failure) (texts : List String) :
    (e.write failed texts).log = e.log := by
  rw [Evaluation.write]
  split
  · rfl
  · split <;> rfl

theorem log_failWith (e : Evaluation) (failure : Failure) : (e.failWith failure).log = e.log := by
  rw [Evaluation.failWith]
  split <;> rfl

theorem log_writeResult (options : Options) (result : Result) (e : Evaluation) :
    (writeResult options result e).log = e.log := by
  have hwritten : (if options.json then
      (e.write .json [(Json.ofResult result).pretty]).write .output ["\n"]
    else e.write .output (Report.pieces result)).log = e.log := by
    split
    · rw [log_write, log_write]
    · exact log_write _ _ _
  rw [writeResult]
  split
  · exact (log_failWith _ _).trans hwritten
  · exact hwritten

theorem calm_evaluateWith (options : Options) (config : Config) (sink : Sink) {log : Log}
    (hlog : log.Calm) (w : Worker) : (evaluateWith options config sink log w).log.Calm := by
  rw [evaluateWith]
  split
  · have htext : (w.actionString config).2.1.Calm := w.calm_call (.actionString config)
    generalize w.actionString config = called at htext ⊢
    obtain ⟨w', more, _ | _ | text⟩ := called
    · exact Log.calm_append.2 ⟨hlog, htext⟩
    · exact Log.calm_append.2 ⟨hlog, htext⟩
    · simp only [log_write]
      exact Log.calm_append.2 ⟨hlog, htext⟩
  · have hattempt := calm_attempt options config w
    generalize attempt options config w = called at hattempt ⊢
    obtain ⟨w', more, _ | result⟩ := called
    · exact Log.calm_append.2 ⟨hlog, hattempt⟩
    · simp only [log_writeResult]
      exact Log.calm_append.2 ⟨hlog, hattempt⟩

theorem calm_setBound (w : Worker) (size : UInt64) : (w.setBound size).2.1.Calm :=
  w.calm_call (.setBound size)

theorem calm_evaluate (options : Options) (config : Config) (sink : Sink) :
    (evaluate options config sink).log.Calm := by
  rw [evaluate]
  split
  · exact calm_evaluateWith _ _ _ Log.calm_nil _
  · next size _ =>
      have hbound := calm_setBound (.spawn { previousGeneration := options.previous }) size
      split
      · next w log heq =>
          rw [heq] at hbound
          exact calm_evaluateWith _ _ _ hbound _
      · next w log error heq =>
          rw [heq] at hbound
          exact hbound

/-! ## What is wrong with an input -/

/-- What fails first of what has to go well with a reading from the given path. -/
inductive FirstFailure (path : String) (reading : Reading) : Failure → Prop
  | unreadable {cause : String} (h : reading = .error cause) :
      FirstFailure path reading (.read path cause)
  | notText {bytes : ByteArray} (h : reading = .ok bytes)
      (hbytes : ∀ text : String, text.toUTF8 ≠ bytes) :
      FirstFailure path reading (.read path "stream did not contain valid UTF-8")
  | notParsed {text : String} {e : Script.SyntaxError} (h : reading = .ok text.toUTF8)
      (hparse : Script.parse text = .error e) : FirstFailure path reading (.parse e.message)
  | rejected {text : String} {config : Config} {e : ConfigError} (h : reading = .ok text.toUTF8)
      (hparse : Script.parse text = .ok config) (hcompile : config.compile = .error e) :
      FirstFailure path reading (.invalidConfig e)

/-- A reading with which nothing goes wrong. -/
def Accepted (reading : Reading) : Prop :=
  ∃ text config a, reading = .ok (String.toUTF8 text) ∧ Script.parse text = .ok config ∧
    config.compile = .ok a

theorem accepted_or_failure (path : String) (reading : Reading) :
    Accepted reading ∨ ∃ failure, FirstFailure path reading failure := by
  cases reading with
  | error cause => exact .inr ⟨_, .unreadable rfl⟩
  | ok bytes =>
      by_cases htext : ∃ text : String, text.toUTF8 = bytes
      · obtain ⟨text, rfl⟩ := htext
        cases hparse : Script.parse text with
        | error e => exact .inr ⟨_, .notParsed rfl hparse⟩
        | ok config =>
            cases hcompile : config.compile with
            | error e => exact .inr ⟨_, .rejected rfl hparse hcompile⟩
            | ok a => exact .inl ⟨text, config, a, rfl, hparse, hcompile⟩
      · exact .inr ⟨_, .notText rfl (not_exists.1 htext)⟩

/-- What is written where the input is wrong: what the options ask for, if that is
possible for a configuration that was rejected. -/
def writtenFor (options : Options) : Failure → String
  | .invalidConfig e =>
      if options.actionString then ""
      else if options.json then (Json.ofResult (.invalid e)).pretty ++ "\n"
      else s!"result: invalid configuration: {e.message}\n"
  | _ => ""

theorem textOf_toUTF8 (text : String) : textOf (.ok text.toUTF8) = .ok text := by
  have hread : String.fromUTF8? text.toUTF8 = some text := dif_pos text.isValidUTF8
  simp only [textOf, bind, Except.bind, hread]
  rfl

theorem textOf_of_not_text {bytes : ByteArray} (h : ∀ text : String, text.toUTF8 ≠ bytes) :
    textOf (.ok bytes) = .error "stream did not contain valid UTF-8" := by
  have hread : String.fromUTF8? bytes = none :=
    dif_neg fun hvalid => h (.fromUTF8 bytes hvalid) rfl
  simp only [textOf, bind, Except.bind, hread]
  rfl

/-! ## How an evaluation ends -/

theorem compile_counted (options : Options) (config : Config) :
    (counted options config).compile = config.compile := rfl

/-- A configuration that compiles is drawn, within the bound or not. -/
theorem ending_render (a : Alphabet) (config : Config) (bound : Nat) (keepPrevious : Bool) :
    ending (Simulator.render a config bound keepPrevious).1 = .ok () := by
  rw [ending, Simulator.render]
  cases (a.expand config.iterations.toNat bound keepPrevious).exceeded <;> rfl

theorem ending_finalResult {config : Config} {a : Alphabet} (ha : config.compile = .ok a)
    (bound : UInt64) (keepPrevious retry : Bool) :
    ending (finalResult config bound keepPrevious retry) = .ok () := by
  rw [finalResult]
  simp only [coldResult_eq, ha, Simulator.resultWith]
  split
  · exact ending_render ..
  · exact ending_render ..

theorem finalResult_of_rejected {config : Config} {e : ConfigError}
    (he : config.compile = .error e) (bound : UInt64) (keepPrevious retry : Bool) :
    finalResult config bound keepPrevious retry = .invalid e := by
  rw [finalResult]
  simp only [coldResult_eq, he, Simulator.resultWith]
  split <;> rfl

theorem answerTo_of_compile {config : Config} {a : Alphabet} (ha : config.compile = .ok a)
    (options : Options) : (answerTo options config).2 = .ok () := by
  rw [answerTo]
  split
  · simp only [spelled, compile_counted, ha]
  · exact ending_finalResult ((compile_counted options config).trans ha) ..

theorem answerTo_of_rejected {config : Config} {e : ConfigError} (he : config.compile = .error e)
    (options : Options) :
    answerTo options config =
      (writtenFor options (.invalidConfig e), .error (.invalidConfig e)) := by
  rw [answerTo, writtenFor]
  split
  · simp only [spelled, compile_counted, he]
  · simp only [finalResult_of_rejected ((compile_counted options config).trans he), shown]
    have hreport : (Result.invalid e).report =
        s!"result: invalid configuration: {e.message}\n" := by
      simp [Result.report, Report.pieces, Report.lines, Result.invalid, String.join_cons,
        ToString.toString]
    rw [hreport]
    rfl

/-- What the evaluation of a configuration leaves on the standard output, and how it ends. -/
theorem evaluate_fresh (options : Options) (config : Config) :
    (evaluate options config {}).sink.kept = (answerTo options config).1.toUTF8 ∧
      (evaluate options config {}).outcome = (answerTo options config).2 := by
  obtain ⟨log, hwritten⟩ := evaluate_documents options config {}
  rw [Evaluation.writeDocuments_unlimited, join_documents] at hwritten
  rw [hwritten, Evaluation.sink_endWith, Evaluation.outcome_endWith]
  exact ⟨ByteArray.empty_append, rfl⟩

/-! ## How the program ends -/

section

variable {options : Options} {read : String → Reading}

theorem load_text (path text : String) :
    load path (.ok text.toUTF8) = (Script.parse text).mapError fun e => .parse e.message := by
  rw [load, textOf_toUTF8]
  simp only
  cases Script.parse text <;> rfl

/-- What can be loaded is evaluated, and that logs no errors. -/
theorem run_of_load (options : Options) {config : Config}
    (h : load options.input (read options.input) = .ok config) :
    (run options read).sink.kept = (answerTo options config).1.toUTF8 ∧
      (run options read).outcome = (answerTo options config).2 ∧ (run options read).log.Calm := by
  obtain ⟨hkept, houtcome⟩ := evaluate_fresh options config
  rw [run, h]
  exact ⟨hkept, houtcome, Log.calm_cons.2 ⟨by decide, calm_evaluate options config {}⟩⟩

/-- What cannot be loaded ends the run, before anything is written or logged. -/
theorem run_of_not_load {failure : Failure}
    (h : load options.input (read options.input) = .error failure) :
    (run options read).sink.kept = "".toUTF8 ∧ (run options read).outcome = .error failure ∧
      (run options read).log.Calm := by
  rw [run, h]
  exact ⟨rfl, rfl, Log.calm_nil⟩

theorem run_of_failure {failure : Failure}
    (h : FirstFailure options.input (read options.input) failure) :
    (run options read).sink.kept = (writtenFor options failure).toUTF8 ∧
      (run options read).outcome = .error failure ∧ (run options read).log.Calm := by
  cases h with
  | unreadable h =>
      refine run_of_not_load ?_
      rw [h]
      rfl
  | notText h hbytes =>
      refine run_of_not_load ?_
      rw [h, load, textOf_of_not_text hbytes]
  | notParsed h hparse =>
      refine run_of_not_load ?_
      rw [h, load_text, hparse]
      rfl
  | @rejected text config e h hparse hcompile =>
      have hload := load_text options.input text
      rw [← h, hparse] at hload
      have hrun := run_of_load options hload
      rwa [answerTo_of_rejected hcompile] at hrun

theorem exit_of_accepted (h : Accepted (read options.input)) :
    (exit options read).status = 0 ∧ (exit options read).error? = none := by
  obtain ⟨text, config, a, hreading, hparse, ha⟩ := h
  have hload := load_text options.input text
  rw [← hreading, hparse] at hload
  obtain ⟨-, houtcome, hlog⟩ := run_of_load options hload
  rw [answerTo_of_compile ha] at houtcome
  rw [exit, houtcome, Exit.error?, hlog.find?_eq_none]
  exact ⟨rfl, rfl⟩

theorem exit_of_failure {failure : Failure}
    (h : FirstFailure options.input (read options.input) failure) :
    (exit options read).status = 1 ∧
      (exit options read).stdout = (writtenFor options failure).toUTF8 ∧
      (exit options read).error? = some failure.message := by
  obtain ⟨hkept, houtcome, hlog⟩ := run_of_failure h
  rw [exit, houtcome, hkept, Exit.error?, hlog.find?_concat]
  exact ⟨rfl, rfl, rfl⟩

/-- The two ways a run of the program can end, and what decides between them. -/
theorem exit_cases (options : Options) (read : String → Reading) :
    ((exit options read).status = 0 ∧ Accepted (read options.input)) ∨
      ((exit options read).status = 1 ∧
        ∃ failure, FirstFailure options.input (read options.input) failure) := by
  obtain haccepted | ⟨failure, hfailure⟩ := accepted_or_failure options.input (read options.input)
  · exact .inl ⟨(exit_of_accepted haccepted).1, haccepted⟩
  · exact .inr ⟨(exit_of_failure hfailure).1, failure, hfailure⟩

theorem status_eq_zero_iff :
    (exit options read).status = 0 ↔ Accepted (read options.input) := by
  refine ⟨fun hzero => ?_, fun haccepted => (exit_of_accepted haccepted).1⟩
  obtain ⟨-, haccepted⟩ | ⟨hone, -⟩ := exit_cases options read
  · exact haccepted
  · exact absurd (hzero.symm.trans hone) (by decide)

theorem status_eq_one_iff :
    (exit options read).status = 1 ↔
      ∃ failure, FirstFailure options.input (read options.input) failure := by
  refine ⟨fun hone => ?_, fun ⟨_, hfailure⟩ => (exit_of_failure hfailure).1⟩
  obtain ⟨hzero, -⟩ | ⟨-, hfailure⟩ := exit_cases options read
  · exact absurd (hzero.symm.trans hone) (by decide)
  · exact hfailure

/-- However paths are read, the program succeeds under any options exactly if the path that
they name gives the text of a configuration that compiles. Otherwise it logs what failed
first, and writes only about a configuration that was rejected. -/
theorem exit_exact (options : Options) (read : String → Reading) :
    let reading := read options.input
    let exit := exit options read
    (exit.status = 0 ∨ exit.status = 1) ∧
    (exit.status = 0 ↔
      ∃ text config a, reading = .ok (String.toUTF8 text) ∧ Script.parse text = .ok config ∧
        config.compile = .ok a) ∧
    (exit.status = 0 → exit.error? = none) ∧
    (exit.status = 1 ↔ ∃ failure, FirstFailure options.input reading failure) ∧
    ∀ failure, FirstFailure options.input reading failure →
      exit.status = 1 ∧ exit.stdout = (writtenFor options failure).toUTF8 ∧
        exit.error? = some failure.message := by
  intro reading exit
  have hcases : exit.status = 0 ∨ exit.status = 1 :=
    (exit_cases options read).imp And.left And.left
  have hcalm : exit.status = 0 → exit.error? = none := fun hstatus =>
    (exit_of_accepted (status_eq_zero_iff.1 hstatus)).2
  exact ⟨hcases, status_eq_zero_iff, hcalm, status_eq_one_iff, fun _ => exit_of_failure⟩

/-- The file is read and parsed, and then its configuration is rejected. -/
theorem exit_exact_rejected :
    let read := fun _ => .ok "A = \"B\"".toUTF8
    let exit := exit { input := "/home/input.lsys", iterations := some 0 } read
    exit.status = 1 ∧
      exit.stdout = ("result: invalid configuration: unexpected literal 'B' in actions for "
        ++ "literal 'A'\n").toUTF8 ∧
      exit.error? = some ("invalid configuration: unexpected literal 'B' in actions for "
        ++ "literal 'A'") := by
  intro read exit
  have hparse : Script.parse "A = \"B\"" = .ok { definitions := [⟨'A', "B", .black, .none⟩] } :=
    rfl
  obtain ⟨-, -, -, -, hfailed⟩ :=
    exit_exact { input := "/home/input.lsys", iterations := some 0 } read
  exact hfailed _ (.rejected rfl hparse rfl)

end

/-- In a folder with one file in it, success takes a path that leads to that file, unless
it is one that leaves the folder. -/
theorem status_in_folder {options : Options} (hstays : ¬ Folder.Leaves options.input)
    {name : String} (hname : Folder.IsFileName name) (bytes : ByteArray)
    (around : String → Reading) :
    (exit options (Folder.single name bytes around).read).status = 0 ↔
      Folder.LeadsTo name options.input ∧ ∃ text config a, String.toUTF8 text = bytes ∧
        Script.parse text = .ok config ∧ config.compile = .ok a := by
  have hread : ∀ {contents}, (Folder.single name bytes around).read options.input = .ok contents ↔
      Folder.LeadsTo name options.input ∧ contents = bytes := by
    intro contents
    rw [Folder.read_single hname]
    exact or_iff_left fun h => hstays h.1
  simp only [status_eq_zero_iff, Accepted, hread]
  constructor
  · rintro ⟨text, config, a, ⟨hleads, htext⟩, h⟩
    exact ⟨hleads, text, config, a, htext, h⟩
  · rintro ⟨hleads, text, config, a, htext, h⟩
    exact ⟨text, config, a, ⟨hleads, htext⟩, h⟩

end Program

end Lindenmayer
