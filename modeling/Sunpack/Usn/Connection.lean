import Sunpack.Lib.Machine
import Sunpack.Usn.Broker

/-!
# One connection

The two sides of a pipe: `transact_query` of the client and `serve_client` of the broker, in steps of one
message. The pipe keeps the bounds of messages, and a read with a buffer of another size fails. Either
side can go away at any time, and what the other has not read is lost then.
-/

namespace Sunpack.Usn.Connection

open Lib

/-- A request with its query, and what is said to it. -/
structure Exchange where
  request : Request
  query : Bytes
  response : Response
  payload : Bytes

def Exchange.asked (e : Exchange) : Request × Bytes := (e.request, e.query)

/-- Why a client has given its connection up. -/
inductive Cause
  | encoding (e : BrokerError)
  | disconnected
  | protocol (text : String)
  | rejected
  | left
  deriving DecidableEq

inductive ClientPhase
  | ready
  | writing (request : Request) (query : Bytes) (todo : List Bytes)
  | awaiting (request : Request) (query : Bytes)
  | payload (request : Request) (query : Bytes) (response : Response)
  | dropped (cause : Cause)

/-- `last` says that the loop ends after the answer. -/
inductive BrokerPhase
  | request
  | length (request : Request)
  | query (request : Request) (length : Nat)
  | handling (request : Request) (query : Bytes)
  | answering (response : Response) (payload : Bytes) (last : Bool)
  | payload (payload : Bytes) (last : Bool)
  | closing
  | closed

/-- The three lists at the end only record what happened. -/
structure State where
  client : ClientPhase
  broker : BrokerPhase
  toBroker : List Bytes
  toClient : List Bytes
  greeted : Bool
  lease : Bool
  sent : List (Request × Bytes)
  answered : List Exchange
  replies : List Exchange

inductive Action
  | begin (request : Request) (query : Bytes)
  | clientWrite
  | clientRead
  | clientLeave
  | brokerRead
  | handle (journals : JournalCalls)
  | brokerWrite
  | brokerStop

def State.init : State := ⟨.ready, .request, [], [], false, false, [], [], []⟩

/-! ## The client -/

def queryMessages (query : Bytes) : List Bytes :=
  if query = [] then [] else [leBytes 4 query.length, query]

/-- A new connection says hello first. -/
def State.begin (s : State) (request : Request) (query : Bytes) : Option State :=
  match s.client with
  | .ready =>
    if s.greeted ∨ request.opcode = .hello ∧ query = [] then
      some <|
        match request.encode with
        | .error e => { s with client := .dropped (.encoding e) }
        | .ok bytes =>
          { s with
            client := .writing request query (bytes :: queryMessages query)
            sent := s.sent ++ [(request, query)] }
    else none
  | _ => none

def State.clientWrite (s : State) : Option State :=
  match s.client, s.broker with
  | .writing _ _ _, .closed => some { s with client := .dropped .disconnected }
  | .writing request query (message :: todo), _ =>
    some
      { s with
        client := if todo = [] then .awaiting request query else .writing request query todo
        toBroker := s.toBroker ++ [message] }
  | _, _ => none

/-- `connect_and_hello` gives a connection up that refuses it, and `broker_release` every connection. -/
def afterReply (request : Request) (response : Response) : ClientPhase :=
  if request.opcode = .hello ∧ response.status ≠ .ok then .dropped .rejected
  else if request.opcode = .release then .dropped .left
  else .ready

def State.complete (s : State) (e : Exchange) : State :=
  { s with
    client := afterReply e.request e.response
    greeted := s.greeted || e.request.opcode = .hello
    replies := s.replies ++ [e] }

def State.takeResponse (s : State) (request : Request) (query : Bytes) :
    Except BrokerError Response → State
  | .error e => { s with client := .dropped (.protocol e.text) }
  | .ok response =>
    if response.requestId ≠ request.requestId then
      { s with client := .dropped (.protocol "broker response request ID mismatch") }
    else if maxPayloadBytes < payloadLen request response then
      { s with client := .dropped (.protocol "broker payload exceeds limit") }
    else if payloadLen request response = 0 then s.complete ⟨request, query, response, []⟩
    else { s with client := .payload request query response }

/-- A message of another length than the buffer is an error. -/
def State.clientTake (s : State) (message : Bytes) : Option State :=
  match s.client with
  | .awaiting request query =>
    some <|
      if message.length ≠ responseBytes then { s with client := .dropped (.protocol "pipe error") }
      else s.takeResponse request query (Response.decode message)
  | .payload request query response =>
    some <|
      if message.length ≠ payloadLen request response then
        { s with client := .dropped (.protocol "pipe error") }
      else s.complete ⟨request, query, response, message⟩
  | _ => none

def ClientPhase.reads : ClientPhase → Bool
  | .awaiting _ _ | .payload _ _ _ => true
  | _ => false

def State.clientRead (s : State) : Option State :=
  match s.toClient, s.broker with
  | message :: rest, _ => { s with toClient := rest }.clientTake message
  | [], .closed => if s.client.reads then some { s with client := .dropped .disconnected } else none
  | [], _ => none

/-- The caller is not content with a page, or ends. -/
def State.clientLeave (s : State) : Option State :=
  match s.client with
  | .dropped _ => none
  | _ => some { s with client := .dropped .left }

/-! ## The broker -/

def invalidResponse (requestId : UInt64) : Response :=
  { Response.okFor requestId with status := .invalidRequest }

def State.answer (s : State) (e : Exchange) : State :=
  { s with
    broker := .answering e.response e.payload (e.request.opcode = .release)
    answered := s.answered ++ [e] }

def State.takeRequest (s : State) : Except BrokerError Request → State
  | .error _ => { s with broker := .answering (invalidResponse 0) [] true }
  | .ok request =>
    if requestShapeIsValid request = false ∨ request.opcode ≠ .hello ∧ s.lease = false then
      s.answer ⟨request, [], invalidResponse request.requestId, []⟩
    else
      { s with
        lease := s.lease || request.opcode = .hello
        broker :=
          if request.opcode = .readDirectoriesChanges then .length request else .handling request [] }

/-- A message that is longer than the buffer ends the worker, a shorter one is looked at. -/
def State.brokerTake (s : State) (message : Bytes) : Option State :=
  match s.broker with
  | .request =>
    some <|
      if requestBytes < message.length then { s with broker := .closing }
      else if message.length ≠ requestBytes then
        { s with broker := .answering (invalidResponse 0) [] true }
      else s.takeRequest (Request.decode message)
  | .length request =>
    some <|
      if message.length ≠ 4 ∨ ¬queryLengthIsValid (field message 0 4) then
        { s with broker := .closing }
      else { s with broker := .query request (field message 0 4) }
  | .query request length =>
    some <|
      if message.length ≠ length then { s with broker := .closing }
      else { s with broker := .handling request message }
  | _ => none

def State.brokerRead (s : State) : Option State :=
  match s.toBroker with
  | message :: rest => { s with toBroker := rest }.brokerTake message
  | [] => none

def State.handle (s : State) (journals : JournalCalls) : Option State :=
  match s.broker with
  | .handling request query =>
    let result := handleRequest journals request query
    some (s.answer ⟨request, query, result.1, result.2⟩)
  | _ => none

def afterAnswer (last : Bool) : BrokerPhase := if last then .closing else .request

def State.brokerWrite (s : State) : Option State :=
  match s.client, s.broker with
  | .dropped _, .answering _ _ _ | .dropped _, .payload _ _ => some { s with broker := .closing }
  | _, .answering response payload last =>
    some
      { s with
        broker := if payload = [] then afterAnswer last else .payload payload last
        toClient := s.toClient ++ [response.encode] }
  | _, .payload payload last =>
    some { s with broker := afterAnswer last, toClient := s.toClient ++ [payload] }
  | _, _ => none

/-- The end of the worker, a stop of the service or a broken pipe: the lease is given back, and the pipe
loses what is in it. -/
def State.brokerStop (s : State) : Option State :=
  match s.broker with
  | .closed => none
  | _ => some { s with broker := .closed, toBroker := [], toClient := [], lease := false }

def step (s : State) : Action → Option State
  | .begin request query => s.begin request query
  | .clientWrite => s.clientWrite
  | .clientRead => s.clientRead
  | .clientLeave => s.clientLeave
  | .brokerRead => s.brokerRead
  | .handle journals => s.handle journals
  | .brokerWrite => s.brokerWrite
  | .brokerStop => s.brokerStop

def connection : Machine State Action := ⟨State.init, step⟩

end Sunpack.Usn.Connection
