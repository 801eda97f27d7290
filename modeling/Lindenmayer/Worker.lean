import Lindenmayer.Simulator

/-!
# The worker

A worker owns a simulator and answers requests from elsewhere. Requests wait in
one queue until the worker serves them, and responses wait in another until they
are received. The three steps can come in any order; a client that sends a
request and waits for the response before it sends another gets each answer to
the request it belongs to.
-/

namespace Lindenmayer

structure Worker where
  simulator : Simulator
  /-- Requests that were sent and not served yet, the oldest first. -/
  requests : List Request := []
  /-- Responses that were not received yet, the oldest first. -/
  responses : List Response := []

inductive CallError where
  | disconnected
  | unexpectedResponse
deriving DecidableEq, Repr

namespace Worker

def spawn (settings : Simulator.Settings) : Worker := { simulator := { settings } }

/-- Puts a request at the end of the queue. -/
def send (w : Worker) (request : Request) : Worker :=
  { w with requests := w.requests ++ [request] }

/-- Answers the oldest request, if there is one. -/
def serve (w : Worker) : Worker × Log :=
  match w.requests with
  | [] => (w, [])
  | request :: requests =>
      let (simulator, response, log) := w.simulator.process request
      ({ simulator, requests, responses := w.responses ++ [response] }, log)

def receive? (w : Worker) : Option (Response × Worker) :=
  match w.responses with
  | [] => none
  | response :: responses => some (response, { w with responses })

/-- The result of a call, with the worker after it and what it logged. -/
abbrev Called (α : Type) := Worker × Log × Except CallError α

/-- Sends a request and waits for a response. -/
def call (w : Worker) (request : Request) : Called Response :=
  let (w, log) := (w.send request).serve
  match w.receive? with
  | some (response, w) => (w, log, .ok response)
  | none => (w, log, .error .disconnected)

/-- Picks the wanted part of a response. -/
def Called.expect {α : Type} (called : Called Response) (pick : Response → Option α) : Called α :=
  let (w, log, answer) := called
  (w, log, do
    match pick (← answer) with
    | some a => return a
    | none => throw .unexpectedResponse)

def exec (w : Worker) (config : Config) : Called Result :=
  (w.call (.exec config)).expect fun
    | .exec result => some result
    | _ => none

def execDoubled (w : Worker) (config : Config) : Called Result :=
  (w.call (.execDoubled config)).expect fun
    | .exec result => some result
    | _ => none

def actionString (w : Worker) (config : Config) : Called (Except ConfigError String) :=
  (w.call (.actionString config)).expect fun
    | .actionString text => some text
    | _ => none

def setBound (w : Worker) (size : UInt64) : Called Unit :=
  (w.call (.setBound size)).expect fun
    | .bound _ => some ()
    | _ => none

end Worker

end Lindenmayer
