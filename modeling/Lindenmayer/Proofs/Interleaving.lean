import Lindenmayer.Proofs.History
import Lindenmayer.Worker

/-!
# A worker behind two queues is a simulator

A client makes its calls one after the other: each sends a request and then waits for a
response. The thread of the worker takes a request from the one queue, processes it
and puts the response into the other. Client and thread go on in any order that the
queues allow. The thread ends when the client has hung up and no request is left, and
only then could a call find nobody at the other end.

That the order does not matter is an invariant. At any time there is nothing in flight,
or the one request of the call that waits, or the one response to it; and the
simulator has processed the requests of exactly those calls that have returned, and
perhaps that one more. So a response always belongs to the call that waits for it.
Every step brings the end nearer, and as long as calls are left there is a step to
take, so every call returns.
-/

namespace Lindenmayer

/-- What a call returns if nothing goes wrong. -/
inductive Returned where
  | result (result : Result)
  | text (text : Except ConfigError String)
  | done

namespace Simulator

/-- What the operation of a request returns where the simulator is at hand. -/
def returned (s : Simulator) : Request → Returned
  | .exec config => .result (s.exec config).2.1
  | .execDoubled config => .result (s.execDoubled config).2.1
  | .actionString config => .text (s.actionString config).2.1
  | .setBound _ => .done

/-- What the operations of some requests return, one after the other. -/
def returnedAll (s : Simulator) : List Request → List Returned
  | [] => []
  | request :: requests => s.returned request :: (s.next request).returnedAll requests

theorem returnedAll_concat (s : Simulator) (past : List Request) (request : Request) :
    s.returnedAll (past ++ [request]) =
      s.returnedAll past ++ [(s.after past).returned request] := by
  induction past generalizing s with
  | nil => rfl
  | cons r past ih => exact congrArg (s.returned r :: ·) (ih (s.next r))

/-- The first calls return what they would if there were no more. -/
theorem returnedAll_prefix (s : Simulator) (past rest : List Request) :
    s.returnedAll past <+: s.returnedAll (past ++ rest) := by
  induction past generalizing s with
  | nil => exact List.nil_prefix
  | cons r past ih => exact List.cons_prefix_cons.2 ⟨rfl, ih (s.next r)⟩

end Simulator

/-- The part of a response that the call for a request hands out, if it is one for it. -/
def Request.pick : Request → Response → Option Returned
  | .exec _, .exec result => some (.result result)
  | .execDoubled _, .exec result => some (.result result)
  | .actionString _, .actionString text => some (.text text)
  | .setBound _, .bound _ => some .done
  | _, _ => none

def Request.receive (request : Request) (response : Response) : Except CallError Returned :=
  match request.pick response with
  | some returned => .ok returned
  | none => .error .unexpectedResponse

/-- The answer to a request is a response for it. -/
theorem Request.receive_answer (request : Request) (s : Simulator) :
    request.receive (s.answer request) = .ok (s.returned request) := by
  cases request <;> rfl

/-! ## Calls that are made one after the other -/

namespace Worker

def perform (w : Worker) : Request → Called Returned
  | .exec config =>
      let (w, log, answer) := w.exec config
      (w, log, answer.map .result)
  | .execDoubled config =>
      let (w, log, answer) := w.execDoubled config
      (w, log, answer.map .result)
  | .actionString config =>
      let (w, log, answer) := w.actionString config
      (w, log, answer.map .text)
  | .setBound size =>
      let (w, log, answer) := w.setBound size
      (w, log, answer.map fun _ => .done)

/-- What some calls return, each made when the one before it has returned. -/
def performAll (w : Worker) : List Request → List (Except CallError Returned)
  | [] => []
  | request :: requests => (w.perform request).2.2 :: (w.perform request).1.performAll requests

theorem perform_eq (w : Worker) (request : Request) :
    w.perform request =
      ((w.call request).1, (w.call request).2.1, (w.call request).2.2 >>= request.receive) := by
  cases request with
  | exec config | execDoubled config | actionString config | setBound size =>
      simp only [perform, exec, execDoubled, actionString, setBound, Called.expect]
      generalize w.call _ = called
      obtain ⟨w', log, answer⟩ := called
      cases answer with
      | error e => rfl
      | ok response => cases response <;> rfl

def idle (simulator : Simulator) : Worker := { simulator }

/-- A call finds the queues empty and leaves them empty. -/
theorem perform_idle (s : Simulator) (request : Request) :
    ∃ log, (idle s).perform request = (idle (s.next request), log, .ok (s.returned request)) := by
  cases request <;> exact ⟨_, rfl⟩

theorem performAll_idle (s : Simulator) (requests : List Request) :
    (idle s).performAll requests = (s.returnedAll requests).map .ok := by
  induction requests generalizing s with
  | nil => rfl
  | cons request requests ih =>
      obtain ⟨log, hlog⟩ := perform_idle s request
      rw [performAll, hlog, Simulator.returnedAll, List.map_cons, ih]

end Worker

/-! ## Calls that meet a thread -/

/-- What the thread of a worker is about to do. -/
inductive Thread where
  | take
  | process (request : Request)
  | reply (response : Response)
  | exited

/-- A client in the middle of its calls, and the worker that it calls. -/
structure Session where
  /-- The calls that have not been made yet. -/
  calls : List Request
  /-- The call that has sent its request and has not returned yet. -/
  waiting : Option Request := none
  /-- What the calls have returned, the first one first. -/
  returned : List (Except CallError Returned) := []
  /-- Whether the client has let go of the worker. -/
  hungUp : Bool := false
  thread : Thread := .take
  worker : Worker

namespace Session

def start (settings : Simulator.Settings) (calls : List Request) : Session where
  calls := calls
  worker := .spawn settings

/-- What either side may do next. The client keeps its ends of the queues until the
thread has exited, so a reply never fails. -/
inductive Step : Session → Session → Prop
  | send {s : Session} {request : Request} {calls : List Request}
      (hcalls : s.calls = request :: calls) (hwaiting : s.waiting = none)
      (hthread : s.thread ≠ .exited) :
      Step s { s with calls, waiting := some request, worker := s.worker.send request }
  | sendFails {s : Session} {request : Request} {calls : List Request}
      (hcalls : s.calls = request :: calls) (hwaiting : s.waiting = none)
      (hthread : s.thread = .exited) :
      Step s { s with calls, returned := s.returned ++ [.error .disconnected] }
  | receive {s : Session} {request : Request} {response : Response} {worker : Worker}
      (hwaiting : s.waiting = some request)
      (hreceive : s.worker.receive? = some (response, worker)) :
      Step s { s with
        waiting := none, worker, returned := s.returned ++ [request.receive response] }
  | receiveFails {s : Session} {request : Request} (hwaiting : s.waiting = some request)
      (hreceive : s.worker.receive? = none) (hthread : s.thread = .exited) :
      Step s { s with waiting := none, returned := s.returned ++ [.error .disconnected] }
  | hangUp {s : Session} (hcalls : s.calls = []) (hwaiting : s.waiting = none)
      (hhungUp : s.hungUp = false) : Step s { s with hungUp := true }
  | take {s : Session} {request : Request} {requests : List Request} (hthread : s.thread = .take)
      (hrequests : s.worker.requests = request :: requests) :
      Step s { s with thread := .process request, worker := { s.worker with requests } }
  | process {s : Session} {request : Request} (hthread : s.thread = .process request) :
      Step s { s with
        thread := .reply (s.worker.simulator.answer request)
        worker := { s.worker with simulator := s.worker.simulator.next request } }
  | reply {s : Session} {response : Response} (hthread : s.thread = .reply response) :
      Step s { s with
        thread := .take
        worker := { s.worker with responses := s.worker.responses ++ [response] } }
  | exit {s : Session} (hthread : s.thread = .take) (hrequests : s.worker.requests = [])
      (hhungUp : s.hungUp = true) : Step s { s with thread := .exited }

/-- Being what becomes of some calls, whatever the order of the steps. -/
abbrev Reaches : Session → Session → Prop := Relation.ReflTransGen Step

/-- The requests and responses in the queues or in the hands of the thread. -/
def inFlight (s : Session) : Nat :=
  s.worker.requests.length + s.worker.responses.length +
    match s.thread with
    | .process _ | .reply _ => 1
    | .take | .exited => 0

/-! ### Calls that are made one after the other are one of the orders -/

/-- Serving a request is what the thread does in three steps. -/
theorem reaches_serve {s : Session} (h : s.thread = .take) :
    Reaches s { s with worker := s.worker.serve.1 } := by
  obtain ⟨calls, waiting, returned, hungUp, thread, ⟨simulator, requests, responses⟩⟩ := s
  cases h
  cases requests with
  | nil => exact .refl
  | cons request requests =>
      exact .tail (.tail (.single (.take rfl rfl)) (.process rfl)) (.reply rfl)

theorem reaches_perform {s : Session} {request : Request} {calls : List Request}
    (hcalls : s.calls = request :: calls) (hwaiting : s.waiting = none)
    (hthread : s.thread = .take) :
    Reaches s { s with
      calls
      returned := s.returned ++ [(s.worker.perform request).2.2]
      worker := (s.worker.perform request).1 } := by
  have hsend : Reaches s _ := .single (.send hcalls hwaiting (by simp [hthread]))
  have hserve := hsend.trans (reaches_serve hthread)
  -- There was a request to serve, and so there is a response to receive.
  obtain ⟨response, w, hreceive⟩ : ∃ response w,
      (s.worker.send request).serve.1.receive? = some (response, w) := by
    rw [Worker.serve]
    split
    · next hnone => simp [Worker.send] at hnone
    · rw [Worker.receive?]
      split
      · next hnone => simp at hnone
      · exact ⟨_, _, rfl⟩
  have hcall : s.worker.call request = (w, (s.worker.send request).serve.2, .ok response) := by
    rw [Worker.call]
    simp only [hreceive]
  rw [Worker.perform_eq, hcall, hwaiting]
  exact hserve.tail (.receive rfl hreceive)

theorem reaches_performAll {s : Session} (hwaiting : s.waiting = none)
    (hthread : s.thread = .take) :
    ∃ t, Reaches s t ∧ t.returned = s.returned ++ s.worker.performAll s.calls := by
  generalize hcalls : s.calls = calls
  induction calls generalizing s with
  | nil => exact ⟨s, .refl, (List.append_nil _).symm⟩
  | cons request calls ih =>
      obtain ⟨t, hreach, hreturned⟩ := ih (s := { s with
        calls
        returned := s.returned ++ [(s.worker.perform request).2.2]
        worker := (s.worker.perform request).1 }) hwaiting hthread rfl
      refine ⟨t, (reaches_perform hcalls hwaiting hthread).trans hreach, ?_⟩
      rw [hreturned, List.append_assoc]
      rfl

/-! ### Every run ends -/

def Thread.distance : Thread → Nat
  | .process _ => 4
  | .reply _ => 3
  | .take => 1
  | .exited => 0

/-- How far there is to go. What a step takes away is always more than what it adds. -/
def distance (s : Session) : Nat :=
  6 * s.calls.length + s.waiting.toList.length + 4 * s.worker.requests.length +
    Thread.distance s.thread + s.worker.responses.length + (if s.hungUp then 0 else 1)

theorem Step.distance_lt {s t : Session} (h : Step s t) : t.distance < s.distance := by
  cases h with
  | send hcalls hwaiting _ => simp [distance, hcalls, hwaiting, Worker.send]; omega
  | sendFails hcalls hwaiting _ => simp [distance, hcalls, hwaiting]
  | receive hwaiting hreceive =>
      rw [Worker.receive?] at hreceive
      split at hreceive
      · cases hreceive
      · next hresponses =>
          cases hreceive
          simp [distance, hwaiting, hresponses]
          omega
  | receiveFails hwaiting _ _ => simp [distance, hwaiting]
  | hangUp _ _ hhungUp => simp [distance, hhungUp]
  | take hthread hrequests => simp [distance, hthread, hrequests, Thread.distance]; omega
  | process hthread => simp [distance, hthread, Thread.distance]
  | reply hthread => simp [distance, hthread, Thread.distance]; omega
  | exit hthread _ _ => simp [distance, hthread, Thread.distance]

theorem wellFounded_step : WellFounded fun t s => Step s t :=
  Subrelation.wf Step.distance_lt (measure distance).wf

/-! ### Every run stays in step -/

/-- Where `past` are the calls that have returned and `calls` those that have not been
made, the phases that a session goes through for each call. -/
inductive InStep (s : Simulator) (all : List Request) : Session → Prop
  | idle {past calls : List Request} {hungUp : Bool} {thread : Thread}
      (hall : past ++ calls = all) (hdone : hungUp = true → calls = [])
      (hthread : thread = .take ∨ thread = .exited ∧ hungUp = true) :
      InStep s all
        ⟨calls, none, (s.returnedAll past).map .ok, hungUp, thread, ⟨s.after past, [], []⟩⟩
  | sent {past calls : List Request} {request : Request} (hall : past ++ request :: calls = all) :
      InStep s all ⟨calls, some request, (s.returnedAll past).map .ok, false, .take,
        ⟨s.after past, [request], []⟩⟩
  | taken {past calls : List Request} {request : Request} (hall : past ++ request :: calls = all) :
      InStep s all ⟨calls, some request, (s.returnedAll past).map .ok, false, .process request,
        ⟨s.after past, [], []⟩⟩
  | processed {past calls : List Request} {request : Request}
      (hall : past ++ request :: calls = all) :
      InStep s all ⟨calls, some request, (s.returnedAll past).map .ok, false,
        .reply ((s.after past).answer request), ⟨(s.after past).next request, [], []⟩⟩
  | replied {past calls : List Request} {request : Request}
      (hall : past ++ request :: calls = all) :
      InStep s all ⟨calls, some request, (s.returnedAll past).map .ok, false, .take,
        ⟨(s.after past).next request, [], [(s.after past).answer request]⟩⟩

variable {sim : Simulator} {all : List Request}

theorem inStep_start (settings : Simulator.Settings) (calls : List Request) :
    InStep (.fresh settings) calls (start settings calls) :=
  @InStep.idle _ _ [] calls false .take rfl (fun h => nomatch h) (.inl rfl)

/-- A call that has its response returns what the simulator would have returned. -/
theorem inStep_returned {past calls : List Request} {request : Request}
    (hall : past ++ request :: calls = all) :
    InStep sim all ⟨calls, none, (sim.returnedAll past).map .ok ++
      [request.receive ((sim.after past).answer request)], false, .take,
      ⟨(sim.after past).next request, [], []⟩⟩ := by
  have hreturned : (sim.returnedAll past).map .ok ++
      [request.receive ((sim.after past).answer request)] =
      (sim.returnedAll (past ++ [request])).map .ok := by
    rw [request.receive_answer, Simulator.returnedAll_concat, List.map_append, List.map_singleton]
  rw [hreturned, ← Simulator.after_concat]
  exact .idle (by rw [← hall, List.append_assoc, List.singleton_append]) (fun h => nomatch h)
    (.inl rfl)

theorem InStep.step {s t : Session} (hs : InStep sim all s) (h : Step s t) : InStep sim all t := by
  cases hs with
  | idle hall hdone hthread =>
      cases h with
      | send hcalls _ hrunning =>
          -- Nobody makes a call after hanging up.
          cases hcalls
          obtain rfl | ⟨rfl, _⟩ := hthread
          · cases ‹Bool› with
            | true => cases hdone rfl
            | false => exact .sent hall
          · exact absurd rfl hrunning
      | sendFails hcalls _ hexited =>
          cases hcalls
          obtain rfl | ⟨rfl, rfl⟩ := hthread
          · cases hexited
          · cases hdone rfl
      | receive hwaiting => cases hwaiting
      | receiveFails hwaiting => cases hwaiting
      | hangUp hcalls _ _ =>
          exact .idle hall (fun _ => hcalls) (hthread.imp_right fun h => ⟨h.1, rfl⟩)
      | take _ hrequests => cases hrequests
      | process hprocess => obtain rfl | ⟨rfl, _⟩ := hthread <;> cases hprocess
      | reply hreply => obtain rfl | ⟨rfl, _⟩ := hthread <;> cases hreply
      | exit _ _ hhungUp => exact .idle hall hdone (.inr ⟨rfl, hhungUp⟩)
  | sent hall =>
      cases h with
      | take _ hrequests => cases hrequests; exact .taken hall
      | _ => contradiction
  | taken hall =>
      cases h with
      | process hthread => cases hthread; exact .processed hall
      | _ => contradiction
  | processed hall =>
      cases h with
      | reply hthread => cases hthread; exact .replied hall
      | _ => contradiction
  | replied hall =>
      cases h with
      | receive hwaiting hreceive => cases hwaiting; cases hreceive; exact inStep_returned hall
      | _ => contradiction

theorem InStep.reaches {s t : Session} (hs : InStep sim all s) (h : Reaches s t) :
    InStep sim all t := by
  induction h with
  | refl => exact hs
  | tail _ hstep ih => exact ih.step hstep

theorem InStep.inFlight_le {s : Session} (h : InStep sim all s) : s.inFlight ≤ 1 := by
  cases h with
  | idle _ _ hthread => obtain rfl | ⟨rfl, _⟩ := hthread <;> exact Nat.zero_le 1
  | _ => exact Nat.le_refl 1

/-- What has been returned is what the first operations return. -/
theorem InStep.returned_prefix {s : Session} (h : InStep sim all s) :
    s.returned <+: (sim.returnedAll all).map .ok := by
  cases h with
  | idle hall | sent hall | taken hall | processed hall | replied hall =>
      rw [← hall]
      exact (sim.returnedAll_prefix _ _).map _

/-- Where no step is left, every call has returned. -/
theorem InStep.returned_of_stuck {s : Session} (h : InStep sim all s) (hstuck : ∀ t, ¬ Step s t) :
    s.returned = (sim.returnedAll all).map .ok := by
  cases h with
  | @idle past calls hungUp thread hall hdone hthread =>
      cases calls with
      | nil => rw [← hall, List.append_nil]
      | cons request calls =>
          obtain rfl | ⟨_, rfl⟩ := hthread
          · exact absurd (.send rfl rfl (fun h => nomatch h)) (hstuck _)
          · cases hdone rfl
  | sent => exact absurd (.take rfl rfl) (hstuck _)
  | taken => exact absurd (.process rfl) (hstuck _)
  | processed => exact absurd (.reply rfl) (hstuck _)
  | replied => exact absurd (.receive rfl rfl) (hstuck _)

/-- Calls return what the operations of one simulator return, in the order of the calls.
So it is if a worker serves each at once, which is one order of the steps, and so it
is in every other order: never more than one request or response is in flight, no call
fails, no run goes on forever, and one that cannot go on has returned from all calls. -/
theorem returned_interleaved (settings : Simulator.Settings) (calls : List Request) :
    let expected := ((Simulator.fresh settings).returnedAll calls).map Except.ok
    (Worker.spawn settings).performAll calls = expected ∧
    (∃ s, Reaches (start settings calls) s ∧
      s.returned = (Worker.spawn settings).performAll calls) ∧
    (WellFounded fun t s => Step s t) ∧
    ∀ s, Reaches (start settings calls) s →
      s.inFlight ≤ 1 ∧ s.returned <+: expected ∧ (∀ e, .error e ∉ s.returned) ∧
      ((∀ t, ¬ Step s t) → s.returned = expected) := by
  intro expected
  refine ⟨Worker.performAll_idle _ calls, reaches_performAll rfl rfl, wellFounded_step,
    fun s hs => ?_⟩
  have hin := (inStep_start settings calls).reaches hs
  refine ⟨hin.inFlight_le, hin.returned_prefix, fun e he => ?_, hin.returned_of_stuck⟩
  obtain ⟨_, _, herror⟩ := List.mem_map.1 (hin.returned_prefix.subset he)
  cases herror

end Session

end Lindenmayer
