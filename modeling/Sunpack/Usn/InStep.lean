import Sunpack.Usn.Connection

/-!
# The two sides stay in step

However the steps of the client and the broker are interleaved, and whoever goes away, every reply is the
broker's answer to that very request, and a connection that the client keeps is at the bounds of a
request on both sides. This needs queries that the broker takes: it does not read the query of a request
that it refuses.
-/

namespace Sunpack.Usn.Connection

open Lib

/-! ## What the client sends -/

/-- The client asks for directories with a query and for everything else without one, and a request with
a query has a shape that is taken. -/
structure Sendable (request : Request) (query : Bytes) : Prop where
  canonical : request.canonical
  query_iff : query = [] ↔ request.opcode ≠ .readDirectoriesChanges
  shape : query ≠ [] → requestShapeIsValid request = true
  length : query ≠ [] → queryLengthIsValid query.length

def Callable (_ : State) : Action → Prop
  | .begin request query => Sendable request query
  | _ => True

/-- What is said to a request on a connection that has been greeted. -/
def exchange (journals : JournalCalls) (request : Request) (query : Bytes) : Response × Bytes :=
  if requestShapeIsValid request = true then handleRequest journals request query
  else (invalidResponse request.requestId, [])

def Exchange.Honest (e : Exchange) : Prop :=
  ∃ journals, (e.response, e.payload) = exchange journals e.request e.query

theorem exchange_requestId (journals : JournalCalls) (request : Request) (query : Bytes) :
    (exchange journals request query).1.requestId = request.requestId := by
  unfold exchange
  split_ifs
  · rw [handleRequest]
    cases outcomeOf journals request query <;> rfl
  · rfl

theorem payloadLen_exchange (journals : JournalCalls) (request : Request) (query : Bytes) :
    payloadLen request (exchange journals request query).1 =
        (exchange journals request query).2.length ∧
      (exchange journals request query).2.length ≤ maxPayloadBytes := by
  unfold exchange
  split_ifs
  · exact payloadLen_handleRequest journals request query
  · refine ⟨?_, Nat.zero_le _⟩
    exact if_neg fun hok => Status.noConfusion hok.2

namespace Exchange

variable {e : Exchange}

theorem Honest.requestId (h : e.Honest) : e.response.requestId = e.request.requestId := by
  obtain ⟨journals, heq⟩ := h
  have hresponse : e.response = (exchange journals e.request e.query).1 := congrArg Prod.fst heq
  rw [hresponse, exchange_requestId]

theorem Honest.payloadLen (h : e.Honest) :
    payloadLen e.request e.response = e.payload.length ∧ e.payload.length ≤ maxPayloadBytes := by
  obtain ⟨journals, heq⟩ := h
  have hresponse : e.response = (exchange journals e.request e.query).1 := congrArg Prod.fst heq
  have hpayload : e.payload = (exchange journals e.request e.query).2 := congrArg Prod.snd heq
  rw [hresponse, hpayload]
  exact payloadLen_exchange journals e.request e.query

end Exchange

/-! ## Messages on their way -/

/-- What the broker still has to read of a request, where it stands. -/
inductive Unread (request : Request) (query : Bytes) : BrokerPhase → List Bytes → Prop
  | all {bytes : Bytes} (h : request.encode = .ok bytes) :
      Unread request query .request (bytes :: queryMessages query)
  | lengthFirst (hshape : requestShapeIsValid request = true) (h : query ≠ []) :
      Unread request query (.length request) [leBytes 4 query.length, query]
  | queryOnly (hshape : requestShapeIsValid request = true) (h : query ≠ []) :
      Unread request query (.query request query.length) [query]
  | nothing (hshape : requestShapeIsValid request = true) :
      Unread request query (.handling request query) []

/-- A request that was sent and has no answer yet. -/
structure Pending (s : State) (request : Request) (query : Bytes) : Prop where
  sent : s.sent = s.answered.map Exchange.asked ++ [(request, query)]
  sendable : Sendable request query
  lease : request.opcode ≠ .hello → s.lease = true

/-- Every request has an answer, and the last one has not arrived. -/
structure Arriving (s : State) (e : Exchange) : Prop where
  answered : s.answered = s.replies ++ [e]
  sent : s.sent = s.answered.map Exchange.asked

def endsAfter (request : Request) : Bool := request.opcode = .release

def replyMessages (e : Exchange) : List Bytes :=
  e.response.encode :: if e.payload = [] then [] else [e.payload]

/-- Where the two sides are. The first cases go along the way of one request, the last two are for a
client and for a broker that have gone. -/
inductive Place (s : State) : Prop
  | between (hclient : s.client = .ready) (hbroker : s.broker = .request)
      (hreplies : s.replies = s.answered) (hsent : s.sent = s.answered.map Exchange.asked)
      (htoBroker : s.toBroker = []) (htoClient : s.toClient = [])
  | asking (request : Request) (query : Bytes) (todo : List Bytes)
      (hclient : s.client = if todo = [] then .awaiting request query else
        .writing request query todo)
      (hpending : Pending s request query) (hreplies : s.replies = s.answered)
      (hunread : Unread request query s.broker (s.toBroker ++ todo)) (htoClient : s.toClient = [])
  | answering (e : Exchange) (hclient : s.client = .awaiting e.request e.query)
      (hbroker : s.broker = .answering e.response e.payload (endsAfter e.request))
      (harriving : Arriving s e) (htoBroker : s.toBroker = []) (htoClient : s.toClient = [])
  | head (e : Exchange) (hclient : s.client = .awaiting e.request e.query)
      (hbroker : s.broker = .payload e.payload (endsAfter e.request)) (hpayload : e.payload ≠ [])
      (harriving : Arriving s e) (htoBroker : s.toBroker = [])
      (htoClient : s.toClient = [e.response.encode])
  | whole (e : Exchange) (hclient : s.client = .awaiting e.request e.query)
      (hbroker : s.broker = afterAnswer (endsAfter e.request)) (harriving : Arriving s e)
      (htoBroker : s.toBroker = []) (htoClient : s.toClient = replyMessages e)
  | taken (e : Exchange) (hclient : s.client = .payload e.request e.query e.response)
      (hbroker : s.broker = .payload e.payload (endsAfter e.request)) (hpayload : e.payload ≠ [])
      (harriving : Arriving s e) (htoBroker : s.toBroker = []) (htoClient : s.toClient = [])
  | rest (e : Exchange) (hclient : s.client = .payload e.request e.query e.response)
      (hbroker : s.broker = afterAnswer (endsAfter e.request)) (harriving : Arriving s e)
      (htoBroker : s.toBroker = []) (htoClient : s.toClient = [e.payload])
  | leftDone (cause : Cause) (hclient : s.client = .dropped cause)
      (hbroker : s.broker = .request ∨ s.broker = .closing ∨
        (∃ response payload last, s.broker = .answering response payload last) ∨
        ∃ payload last, s.broker = .payload payload last)
      (htoBroker : s.toBroker = [])
  | leftPending (cause : Cause) (hclient : s.client = .dropped cause) (request : Request)
      (query : Bytes) (lost : List Bytes) (hpending : Pending s request query)
      (hunread : Unread request query s.broker (s.toBroker ++ lost))
  | closed (hbroker : s.broker = .closed) (htoBroker : s.toBroker = []) (htoClient : s.toClient = [])

def BrokerPhase.works : BrokerPhase → Bool
  | .length _ | .query _ _ | .handling _ _ => true
  | _ => false

/-- What holds in every state. -/
structure Inv (s : State) : Prop where
  honest : ∀ e ∈ s.answered, e.Honest
  replies : s.replies <+: s.answered
  answered : s.answered.map Exchange.asked <+: s.sent
  behind : s.sent.length ≤ s.replies.length + 1
  ready : s.client = .ready → s.sent.length = s.replies.length
  cause : ∀ text, s.client ≠ .dropped (.protocol text)
  greeted : s.greeted = true →
    (∃ cause, s.client = .dropped cause) ∨ s.broker = .closed ∨ s.lease = true
  working : s.broker.works = true → s.lease = true
  accepted : ∀ e ∈ s.answered, e.response.status = .ok → s.broker ≠ .closed → s.lease = true
  place : Place s

variable {s t : State}

/-! ## Steps of the client -/

theorem begin_cases {request : Request} {query : Bytes} (h : s.begin request query = some t) :
    s.client = .ready ∧ (s.greeted = true ∨ request.opcode = .hello) ∧
      ((∃ e, t = { s with client := .dropped (.encoding e) }) ∨
        ∃ bytes, request.encode = .ok bytes ∧ t = { s with
          client := .writing request query (bytes :: queryMessages query)
          sent := s.sent ++ [(request, query)] }) := by
  unfold State.begin at h
  cases hclient : s.client with
  | ready =>
    rw [hclient] at h
    dsimp only at h
    split_ifs at h with hfirst
    refine ⟨rfl, hfirst.imp id And.left, ?_⟩
    cases hencode : request.encode with
    | error e =>
      rw [hencode] at h
      exact Or.inl ⟨e, (Option.some.inj h).symm⟩
    | ok bytes =>
      rw [hencode] at h
      exact Or.inr ⟨bytes, rfl, (Option.some.inj h).symm⟩
  | _ =>
    rw [hclient] at h
    cases h

theorem afterAnswer_cases (last : Bool) : afterAnswer last = .request ∨ afterAnswer last = .closing := by
  cases last
  · exact Or.inl rfl
  · exact Or.inr rfl

/-- A client can leave everywhere. -/
theorem Place.left (h : Place s) (cause : Cause) : Place { s with client := .dropped cause } := by
  cases h with
  | between _ hbroker _ _ htoBroker _ => exact .leftDone cause rfl (Or.inl hbroker) htoBroker
  | asking request query todo _ hpending _ hunread _ =>
    exact .leftPending cause rfl request query todo ⟨hpending.sent, hpending.sendable, hpending.lease⟩
      hunread
  | answering e _ hbroker _ htoBroker _ =>
    exact .leftDone cause rfl (Or.inr (Or.inr (Or.inl ⟨_, _, _, hbroker⟩))) htoBroker
  | head e _ hbroker _ _ htoBroker _ | taken e _ hbroker _ _ htoBroker _ =>
    exact .leftDone cause rfl (Or.inr (Or.inr (Or.inr ⟨_, _, hbroker⟩))) htoBroker
  | whole e _ hbroker _ htoBroker _ | rest e _ hbroker _ htoBroker _ =>
    refine .leftDone cause rfl ?_ htoBroker
    rcases afterAnswer_cases (endsAfter e.request) with hafter | hafter
    · exact Or.inl (hbroker.trans hafter)
    · exact Or.inr (Or.inl (hbroker.trans hafter))
  | leftDone _ _ hbroker htoBroker => exact .leftDone cause rfl hbroker htoBroker
  | leftPending _ _ request query lost hpending hunread =>
    exact .leftPending cause rfl request query lost
      ⟨hpending.sent, hpending.sendable, hpending.lease⟩ hunread
  | closed hbroker htoBroker htoClient => exact .closed hbroker htoBroker htoClient

theorem Inv.drop (hs : Inv s) {cause : Cause} (hcause : ∀ text, cause ≠ .protocol text) :
    Inv { s with client := .dropped cause } where
  honest := hs.honest
  replies := hs.replies
  answered := hs.answered
  behind := hs.behind
  ready hready := by cases hready
  cause text heq := hcause text (ClientPhase.dropped.inj heq)
  greeted _ := Or.inl ⟨cause, rfl⟩
  working := hs.working
  accepted := hs.accepted
  place := hs.place.left cause

/-- A client between requests. -/
theorem Place.of_ready (h : Place s) (hclient : s.client = .ready) :
    s.toBroker = [] ∧ s.toClient = [] ∧ (s.broker = .closed ∨ s.broker = .request ∧
      s.replies = s.answered ∧ s.sent = s.answered.map Exchange.asked) := by
  cases h with
  | between _ hbroker hreplies hsent htoBroker htoClient =>
    exact ⟨htoBroker, htoClient, Or.inr ⟨hbroker, hreplies, hsent⟩⟩
  | closed hbroker htoBroker htoClient => exact ⟨htoBroker, htoClient, Or.inl hbroker⟩
  | asking _ _ todo hclient' =>
    rw [hclient] at hclient'
    split_ifs at hclient'
  | leftDone _ hclient' | leftPending _ hclient' | answering _ hclient' | head _ hclient'
  | whole _ hclient' | taken _ hclient' | rest _ hclient' =>
    rw [hclient] at hclient'
    cases hclient'

theorem begin_inv {request : Request} {query : Bytes} (hs : Inv s)
    (hsendable : Sendable request query) (h : s.begin request query = some t) : Inv t := by
  obtain ⟨hclient, hfirst, ht⟩ := begin_cases h
  have hlength := hs.ready hclient
  have hlease : s.broker ≠ .closed → request.opcode ≠ .hello → s.lease = true := by
    intro hbroker hopcode
    rcases hs.greeted (hfirst.resolve_right hopcode) with ⟨cause, hdropped⟩ | hclosed | hlease
    · rw [hclient] at hdropped
      cases hdropped
    · exact absurd hclosed hbroker
    · exact hlease
  rcases ht with ⟨e, rfl⟩ | ⟨bytes, hencode, rfl⟩
  · apply hs.drop
    intro text heq
    cases heq
  · refine ⟨hs.honest, hs.replies, ?_, ?_, ?_, ?_, ?_, hs.working, hs.accepted, ?_⟩
    · exact hs.answered.trans (List.prefix_append _ _)
    · simp only [List.length_append, List.length_singleton]
      omega
    · intro hready
      cases hready
    · intro text heq
      cases heq
    · intro hgreeted
      rcases hs.greeted hgreeted with ⟨cause, hdropped⟩ | hrest
      · rw [hclient] at hdropped
        cases hdropped
      · exact Or.inr hrest
    · obtain ⟨htoBroker, htoClient, hbroker | ⟨hbroker, hreplies, hsent⟩⟩ := hs.place.of_ready hclient
      · exact .closed hbroker htoBroker htoClient
      · refine .asking request query (bytes :: queryMessages query) ?_ ?_ hreplies ?_ htoClient
        · rw [if_neg (List.cons_ne_nil _ _)]
        · refine ⟨congrArg (fun l => l ++ [(request, query)]) hsent, hsendable, hlease ?_⟩
          rw [hbroker]
          intro heq
          cases heq
        · show Unread request query s.broker (s.toBroker ++ _)
          rw [hbroker, htoBroker]
          exact .all hencode

theorem clientWrite_cases (h : s.clientWrite = some t) :
    t = { s with client := .dropped .disconnected } ∨
      ∃ request query message todo, s.client = .writing request query (message :: todo) ∧
        s.broker ≠ .closed ∧ t = { s with
          client := if todo = [] then .awaiting request query else .writing request query todo
          toBroker := s.toBroker ++ [message] } := by
  unfold State.clientWrite at h
  split at h
  · exact Or.inl (Option.some.inj h).symm
  · rename_i request query message todo hclient hbroker
    exact Or.inr ⟨request, query, message, todo, hclient, hbroker, (Option.some.inj h).symm⟩
  · cases h

theorem clientWrite_inv (hs : Inv s) (h : s.clientWrite = some t) : Inv t := by
  rcases clientWrite_cases h with rfl | ⟨request, query, message, todo, hclient, hbroker, rfl⟩
  · apply hs.drop
    intro text heq
    cases heq
  · refine ⟨hs.honest, hs.replies, hs.answered, hs.behind, ?_, ?_, ?_, hs.working, hs.accepted, ?_⟩
    · intro hready
      dsimp only at hready
      split_ifs at hready
    · intro text heq
      dsimp only at heq
      split_ifs at heq
    · intro hgreeted
      rcases hs.greeted hgreeted with ⟨cause, hdropped⟩ | hrest
      · rw [hclient] at hdropped
        cases hdropped
      · exact Or.inr hrest
    · cases hs.place with
      | asking request' query' todo' hclient' hpending hreplies hunread htoClient =>
        rw [hclient] at hclient'
        split_ifs at hclient' with htodo
        cases hclient'
        refine .asking request query todo rfl ⟨hpending.sent, hpending.sendable, hpending.lease⟩
          hreplies ?_ htoClient
        rwa [List.append_assoc, List.singleton_append]
      | closed hclosed => exact absurd hclosed hbroker
      | between hclient' | leftDone _ hclient' | leftPending _ hclient' | answering _ hclient'
      | head _ hclient' | whole _ hclient' | taken _ hclient' | rest _ hclient' =>
        rw [hclient] at hclient'
        cases hclient'

/-- The last message of a reply. -/
theorem complete_inv (hs : Inv s) {e : Exchange} (harriving : Arriving s e)
    (hclient : ∀ cause, s.client ≠ .dropped cause)
    (hbroker : s.broker = afterAnswer (endsAfter e.request)) (htoBroker : s.toBroker = []) :
    Inv (State.complete { s with toClient := [] } e) := by
  have hnotClosed : s.broker ≠ .closed := by
    rw [hbroker]
    rcases afterAnswer_cases (endsAfter e.request) with hafter | hafter
    · rw [hafter]
      intro heq
      cases heq
    · rw [hafter]
      intro heq
      cases heq
  have hmem : e ∈ s.answered := by
    rw [harriving.answered]
    exact List.mem_append_right _ (List.mem_singleton_self e)
  have hlength : s.sent.length = s.replies.length + 1 := by
    rw [harriving.sent, List.length_map, harriving.answered, List.length_append,
      List.length_singleton]
  have hcases : afterReply e.request e.response = .dropped .rejected ∨
      afterReply e.request e.response = .dropped .left ∨
      afterReply e.request e.response = .ready ∧ endsAfter e.request = false ∧
        (e.request.opcode = .hello → e.response.status = .ok) := by
    unfold afterReply endsAfter
    split_ifs with hrejected hrelease
    · exact Or.inl rfl
    · exact Or.inr (Or.inl rfl)
    · exact Or.inr (Or.inr ⟨rfl, decide_eq_false hrelease,
        fun hhello => not_not.1 fun hstatus => hrejected ⟨hhello, hstatus⟩⟩)
  refine ⟨hs.honest, ?_, hs.answered, ?_, ?_, ?_, ?_, hs.working, hs.accepted, ?_⟩
  · exact ⟨[], by rw [List.append_nil]; exact harriving.answered.symm⟩
  · simp only [State.complete, List.length_append, List.length_singleton]
    omega
  · intro _
    simp only [State.complete, List.length_append, List.length_singleton]
    omega
  · intro text heq
    rcases hcases with hafter | hafter | ⟨hafter, _⟩
    · cases hafter.symm.trans heq
    · cases hafter.symm.trans heq
    · cases hafter.symm.trans heq
  · intro hgreeted
    rcases hcases with hafter | hafter | ⟨_, _, hok⟩
    · exact Or.inl ⟨_, hafter⟩
    · exact Or.inl ⟨_, hafter⟩
    · refine Or.inr (Or.inr ?_)
      rcases Bool.or_eq_true _ _ ▸ hgreeted with hold | hhello
      · rcases hs.greeted hold with ⟨cause, hdropped⟩ | hclosed | hlease
        · exact absurd hdropped (hclient cause)
        · exact absurd hclosed hnotClosed
        · exact hlease
      · exact hs.accepted e hmem (hok (of_decide_eq_true hhello)) hnotClosed
  · rcases hcases with hafter | hafter | ⟨hafter, hlast, _⟩
    · refine .leftDone _ hafter ?_ htoBroker
      rcases afterAnswer_cases (endsAfter e.request) with hbroker' | hbroker'
      · exact Or.inl (hbroker.trans hbroker')
      · exact Or.inr (Or.inl (hbroker.trans hbroker'))
    · refine .leftDone _ hafter ?_ htoBroker
      rcases afterAnswer_cases (endsAfter e.request) with hbroker' | hbroker'
      · exact Or.inl (hbroker.trans hbroker')
      · exact Or.inr (Or.inl (hbroker.trans hbroker'))
    · refine .between hafter ?_ harriving.answered.symm harriving.sent htoBroker rfl
      rw [hlast] at hbroker
      exact hbroker

theorem clientRead_cases (h : s.clientRead = some t) :
    (∃ message rest, s.toClient = message :: rest ∧
      State.clientTake { s with toClient := rest } message = some t) ∨
      t = { s with client := .dropped .disconnected } := by
  unfold State.clientRead at h
  split at h
  · exact Or.inl ⟨_, _, ‹_›, h⟩
  · split_ifs at h
    exact Or.inr (Option.some.inj h).symm
  · cases h

/-- The first message of an honest answer. -/
theorem clientTake_response {e : Exchange} (he : e.Honest)
    (hclient : s.client = .awaiting e.request e.query) :
    s.clientTake e.response.encode = some
      (if e.payload = [] then s.complete ⟨e.request, e.query, e.response, []⟩
      else { s with client := .payload e.request e.query e.response }) := by
  obtain ⟨hlength, hfits⟩ := he.payloadLen
  have hempty : payloadLen e.request e.response = 0 ↔ e.payload = [] := by
    rw [hlength, List.length_eq_zero_iff]
  unfold State.clientTake
  rw [hclient]
  dsimp only
  rw [if_neg (not_not.2 (Response.length_encode _)), Response.decode_encode]
  unfold State.takeResponse
  dsimp only
  rw [if_neg (not_not.2 he.requestId), if_neg (by omega)]
  by_cases hpayload : e.payload = []
  · rw [if_pos hpayload, if_pos (hempty.2 hpayload)]
  · rw [if_neg hpayload, if_neg (fun h0 => hpayload (hempty.1 h0))]

theorem clientTake_payload {e : Exchange} (he : e.Honest)
    (hclient : s.client = .payload e.request e.query e.response) :
    s.clientTake e.payload = some (s.complete e) := by
  unfold State.clientTake
  rw [hclient]
  dsimp only
  rw [if_neg (not_not.2 he.payloadLen.1.symm)]

/-- The client has read the response and waits for the payload. -/
theorem Inv.wait (hs : Inv s) {request : Request} {query : Bytes} {response : Response}
    {rest : List Bytes} (hclient : ∀ cause, s.client ≠ .dropped cause)
    (hplace : Place { s with toClient := rest, client := .payload request query response }) :
    Inv { s with toClient := rest, client := .payload request query response } where
  honest := hs.honest
  replies := hs.replies
  answered := hs.answered
  behind := hs.behind
  ready hready := by cases hready
  cause text heq := by cases heq
  greeted hgreeted := by
    rcases hs.greeted hgreeted with ⟨cause, hdropped⟩ | hrest
    · exact absurd hdropped (hclient cause)
    · exact Or.inr hrest
  working := hs.working
  accepted := hs.accepted
  place := hplace

theorem Arriving.mem {e : Exchange} (h : Arriving s e) : e ∈ s.answered := by
  rw [h.answered]
  exact List.mem_append_right _ (List.mem_singleton_self e)

theorem clientRead_inv (hs : Inv s) (h : s.clientRead = some t) : Inv t := by
  rcases clientRead_cases h with ⟨message, rest, hmessage, htake⟩ | rfl
  · have hphase : ∀ {phase : ClientPhase}, s.client = phase → (∀ cause, phase ≠ .dropped cause) →
        ∀ cause, s.client ≠ .dropped cause := by
      intro phase hclient hnot
      rwa [hclient]
    cases hs.place with
    | head e hclient hbroker hpayload harriving htoBroker htoClient =>
      obtain ⟨rfl, rfl⟩ := List.cons.inj (hmessage.symm.trans htoClient)
      rw [clientTake_response (s := { s with toClient := [] }) (hs.honest e harriving.mem) hclient,
        if_neg hpayload] at htake
      obtain rfl := Option.some.inj htake
      apply hs.wait (hphase hclient (fun cause heq => by cases heq))
      exact .taken e rfl hbroker hpayload ⟨harriving.answered, harriving.sent⟩ htoBroker rfl
    | whole e hclient hbroker harriving htoBroker htoClient =>
      obtain ⟨rfl, rfl⟩ := List.cons.inj (hmessage.symm.trans htoClient)
      rw [clientTake_response
        (s := { s with toClient := if e.payload = [] then [] else [e.payload] })
        (hs.honest e harriving.mem) hclient] at htake
      by_cases hpayload : e.payload = []
      · rw [if_pos hpayload] at htake
        obtain rfl := Option.some.inj htake
        have he : (⟨e.request, e.query, e.response, []⟩ : Exchange) = e := by rw [← hpayload]
        rw [if_pos hpayload, he]
        exact complete_inv hs harriving (hphase hclient (fun cause heq => by cases heq)) hbroker
          htoBroker
      · rw [if_neg hpayload] at htake
        obtain rfl := Option.some.inj htake
        rw [if_neg hpayload]
        apply hs.wait (hphase hclient (fun cause heq => by cases heq))
        exact .rest e rfl hbroker ⟨harriving.answered, harriving.sent⟩ htoBroker rfl
    | rest e hclient hbroker harriving htoBroker htoClient =>
      obtain ⟨rfl, rfl⟩ := List.cons.inj (hmessage.symm.trans htoClient)
      rw [clientTake_payload (s := { s with toClient := [] }) (hs.honest e harriving.mem) hclient]
        at htake
      obtain rfl := Option.some.inj htake
      exact complete_inv hs harriving (hphase hclient (fun cause heq => by cases heq)) hbroker
        htoBroker
    | between _ _ _ _ _ htoClient | asking _ _ _ _ _ _ _ htoClient | answering _ _ _ _ _ htoClient
    | taken _ _ _ _ _ _ htoClient | closed _ _ htoClient =>
      rw [hmessage] at htoClient
      cases htoClient
    | leftDone _ hclient | leftPending _ hclient =>
      unfold State.clientTake at htake
      rw [hclient] at htake
      cases htake
  · apply hs.drop
    intro text heq
    cases heq

theorem clientLeave_inv (hs : Inv s) (h : s.clientLeave = some t) : Inv t := by
  unfold State.clientLeave at h
  split at h
  · cases h
  · obtain rfl := Option.some.inj h
    apply hs.drop
    intro text heq
    cases heq

/-! ## Steps of the broker -/

theorem brokerRead_cases (h : s.brokerRead = some t) :
    ∃ message rest, s.toBroker = message :: rest ∧
      State.brokerTake { s with toBroker := rest } message = some t := by
  unfold State.brokerRead at h
  split at h
  · exact ⟨_, _, ‹_›, h⟩
  · cases h

/-- A message of a pending request: the request is refused, or the broker goes on. -/
theorem brokerTake_pending {request : Request} {query message : Bytes} {more : List Bytes}
    (hpending : Pending s request query) (hworking : s.broker.works = true → s.lease = true)
    (hunread : Unread request query s.broker (message :: more)) (h : s.brokerTake message = some t) :
    (requestShapeIsValid request = false ∧ query = [] ∧ more = [] ∧
        t = s.answer ⟨request, query, invalidResponse request.requestId, []⟩) ∨
      ∃ next, next.works = true ∧ Unread request query next more ∧
        t = { s with lease := true, broker := next } := by
  have hsendable := hpending.sendable
  unfold State.brokerTake at h
  generalize hbroker : s.broker = broker at hunread h hworking
  cases hunread with
  | @all bytes hencode =>
    have hdecode : Request.decode message = .ok request := by
      obtain ⟨hwidth, hdecode⟩ := Request.decode_encode hencode
      rw [hdecode, (Request.arriving_eq_iff hwidth).2 hsendable.canonical]
    have hlength := Request.length_encode hencode
    dsimp only at h
    rw [if_neg (by omega), if_neg (not_not.2 hlength), hdecode] at h
    obtain rfl := Option.some.inj h
    unfold State.takeRequest
    dsimp only
    by_cases hshape : requestShapeIsValid request = false
    · have hquery : query = [] := by
        by_contra hne
        rw [hsendable.shape hne] at hshape
        cases hshape
      rw [if_pos (Or.inl hshape), hquery]
      exact Or.inl ⟨hshape, rfl, rfl, rfl⟩
    · have hgreeted : ¬(request.opcode ≠ .hello ∧ s.lease = false) := by
        rintro ⟨hopcode, hlease⟩
        rw [hpending.lease hopcode] at hlease
        cases hlease
      have hlease : (s.lease || decide (request.opcode = .hello)) = true := by
        by_cases hopcode : request.opcode = .hello
        · rw [decide_eq_true hopcode, Bool.or_true]
        · rw [hpending.lease hopcode, Bool.true_or]
      rw [if_neg (not_or.2 ⟨hshape, hgreeted⟩), hlease]
      have hvalid : requestShapeIsValid request = true := Bool.eq_true_of_not_eq_false hshape
      by_cases hopcode : request.opcode = .readDirectoriesChanges
      · have hquery : query ≠ [] := fun hnil => hsendable.query_iff.1 hnil hopcode
        rw [if_pos hopcode, queryMessages, if_neg hquery]
        exact Or.inr ⟨_, rfl, .lengthFirst hvalid hquery, rfl⟩
      · have hquery : query = [] := hsendable.query_iff.2 hopcode
        rw [if_neg hopcode, hquery]
        exact Or.inr ⟨_, rfl, .nothing hvalid, rfl⟩
  | lengthFirst hshape hquery =>
    have hlength := hsendable.length hquery
    have hfield : field (leBytes 4 query.length) 0 4 = query.length := by
      have hmax : maxDirectoryQueryBytes = 2 ^ 20 := rfl
      exact field_eq (lt_of_le_of_lt hlength.2.1 (by rw [hmax]; norm_num))
        (List.take_of_length_le (by simp))
    have hlease := hworking rfl
    dsimp only at h
    rw [hfield, if_neg (fun hor => hor.elim (fun hne => hne (leBytes_length 4 _)) fun hn => hn hlength)]
      at h
    refine Or.inr ⟨.query request query.length, rfl, .queryOnly hshape hquery, ?_⟩
    rw [← Option.some.inj h, ← hlease]
  | queryOnly hshape hquery =>
    have hlease := hworking rfl
    dsimp only at h
    rw [if_neg (not_not.2 rfl)] at h
    refine Or.inr ⟨.handling request query, rfl, .nothing hshape, ?_⟩
    rw [← Option.some.inj h, ← hlease]

/-- The request that the broker has read to its end is answered. -/
theorem answer_inv (hs : Inv s) {e : Exchange} (hpending : Pending s e.request e.query)
    (hopen : s.broker ≠ .closed) (he : e.Honest)
    (hok : e.response.status = .ok → s.lease = true)
    (hclient : (∃ cause, s.client = .dropped cause) ∨
      s.client = .awaiting e.request e.query ∧ s.replies = s.answered ∧ s.toClient = []) :
    Inv (State.answer { s with toBroker := [] } e) := by
  have hsent : s.sent = (s.answered ++ [e]).map Exchange.asked := by
    rw [hpending.sent, List.map_append, List.map_singleton, Exchange.asked]
  refine ⟨?_, ?_, ?_, hs.behind, hs.ready, hs.cause, ?_, ?_, ?_, ?_⟩
  · intro e' he'
    rcases List.mem_append.1 he' with hold | hnew
    · exact hs.honest e' hold
    · rwa [List.mem_singleton.1 hnew]
  · exact hs.replies.trans (List.prefix_append _ _)
  · exact ⟨[], by rw [List.append_nil]; exact hsent.symm⟩
  · intro hgreeted
    rcases hs.greeted hgreeted with hdropped | hclosed | hlease
    · exact Or.inl hdropped
    · exact absurd hclosed hopen
    · exact Or.inr (Or.inr hlease)
  · intro hworks
    cases hworks
  · intro e' he' hstatus _
    rcases List.mem_append.1 he' with hold | hnew
    · exact hs.accepted e' hold hstatus hopen
    · rw [List.mem_singleton.1 hnew] at hstatus
      exact hok hstatus
  · rcases hclient with ⟨cause, hdropped⟩ | ⟨hawaiting, hreplies, htoClient⟩
    · exact .leftDone cause hdropped (Or.inr (Or.inr (Or.inl ⟨_, _, _, rfl⟩))) rfl
    · refine .answering e hawaiting rfl ⟨?_, hsent⟩ rfl htoClient
      show s.answered ++ [e] = s.replies ++ [e]
      rw [hreplies]

/-- The broker has read a part of a request. -/
theorem readOn_inv (hs : Inv s) {next : BrokerPhase} {queue : List Bytes}
    (hplace : Place { s with toBroker := queue, lease := true, broker := next }) :
    Inv { s with toBroker := queue, lease := true, broker := next } :=
  ⟨hs.honest, hs.replies, hs.answered, hs.behind, hs.ready, hs.cause, fun _ => Or.inr (Or.inr rfl),
    fun _ => rfl, fun _ _ _ _ => rfl, hplace⟩

theorem Unread.not_closed {request : Request} {query : Bytes} {messages : List Bytes}
    (h : Unread request query s.broker messages) : s.broker ≠ .closed := by
  intro hclosed
  rw [hclosed] at h
  cases h

theorem refused_honest {request : Request} {query : Bytes}
    (hshape : requestShapeIsValid request = false) :
    Exchange.Honest ⟨request, query, invalidResponse request.requestId, []⟩ := by
  refine ⟨default, ?_⟩
  unfold exchange
  rw [if_neg (by rw [hshape]; exact Bool.false_ne_true)]

theorem brokerRead_inv (hs : Inv s) (h : s.brokerRead = some t) : Inv t := by
  obtain ⟨message, queue, hmessage, htake⟩ := brokerRead_cases h
  cases hs.place with
  | asking request query todo hclient hpending hreplies hunread htoClient =>
    have hopen := hunread.not_closed
    rw [hmessage, List.cons_append] at hunread
    rcases brokerTake_pending (s := { s with toBroker := queue })
      ⟨hpending.sent, hpending.sendable, hpending.lease⟩ hs.working hunread htake with
      ⟨hshape, hquery, hmore, rfl⟩ | ⟨next, hworks, hnext, rfl⟩
    · obtain ⟨rfl, rfl⟩ := List.append_eq_nil_iff.1 hmore
      rw [if_pos rfl] at hclient
      apply answer_inv hs (e := ⟨request, query, invalidResponse request.requestId, []⟩) hpending
        hopen (refused_honest hshape)
      · intro hstatus
        cases hstatus
      · exact Or.inr ⟨hclient, hreplies, htoClient⟩
    · apply readOn_inv hs
      exact .asking request query todo hclient
        ⟨hpending.sent, hpending.sendable, fun _ => rfl⟩ hreplies hnext htoClient
  | leftPending cause hclient request query lost hpending hunread =>
    have hopen := hunread.not_closed
    rw [hmessage, List.cons_append] at hunread
    rcases brokerTake_pending (s := { s with toBroker := queue })
      ⟨hpending.sent, hpending.sendable, hpending.lease⟩ hs.working hunread htake with
      ⟨hshape, hquery, hmore, rfl⟩ | ⟨next, hworks, hnext, rfl⟩
    · obtain ⟨rfl, rfl⟩ := List.append_eq_nil_iff.1 hmore
      apply answer_inv hs (e := ⟨request, query, invalidResponse request.requestId, []⟩) hpending
        hopen (refused_honest hshape)
      · intro hstatus
        cases hstatus
      · exact Or.inl ⟨cause, hclient⟩
    · apply readOn_inv hs
      exact .leftPending cause hclient request query lost
        ⟨hpending.sent, hpending.sendable, fun _ => rfl⟩ hnext
  | between _ _ _ _ htoBroker | answering _ _ _ _ htoBroker | head _ _ _ _ _ htoBroker
  | whole _ _ _ _ htoBroker | taken _ _ _ _ _ htoBroker | rest _ _ _ _ htoBroker
  | closed _ htoBroker | leftDone _ _ _ htoBroker =>
    rw [hmessage] at htoBroker
    cases htoBroker

theorem handle_inv {journals : JournalCalls} (hs : Inv s) (h : s.handle journals = some t) : Inv t := by
  unfold State.handle at h
  split at h
  · rename_i request query hbroker
    obtain rfl := Option.some.inj h
    have hlease : s.lease = true := hs.working (by rw [hbroker]; rfl)
    have hopen : s.broker ≠ .closed := by
      rw [hbroker]
      intro heq
      cases heq
    have hgoal : ∀ request' query' (messages : List Bytes),
        Unread request' query' s.broker (s.toBroker ++ messages) → request' = request ∧
          query' = query ∧ s.toBroker = [] ∧ messages = [] ∧ requestShapeIsValid request = true := by
      intro request' query' messages hunread
      rw [hbroker] at hunread
      generalize hall : s.toBroker ++ messages = all at hunread
      cases hunread with
      | nothing hshape =>
        obtain ⟨hqueue, hmessages⟩ := List.append_eq_nil_iff.1 hall
        exact ⟨rfl, rfl, hqueue, hmessages, hshape⟩
    have hempty : s.toBroker = [] → { s with toBroker := [] } = s := by
      intro hqueue
      rw [← hqueue]
    cases hs.place with
    | asking request' query' todo hclient hpending hreplies hunread htoClient =>
      obtain ⟨rfl, rfl, hqueue, rfl, hshape⟩ := hgoal _ _ _ hunread
      rw [if_pos rfl] at hclient
      rw [← hempty hqueue]
      apply answer_inv hs hpending hopen
      · exact ⟨journals, (if_pos hshape).symm⟩
      · exact fun _ => hlease
      · exact Or.inr ⟨hclient, hreplies, htoClient⟩
    | leftPending cause hclient request' query' lost hpending hunread =>
      obtain ⟨rfl, rfl, hqueue, _, hshape⟩ := hgoal _ _ _ hunread
      rw [← hempty hqueue]
      apply answer_inv hs hpending hopen
      · exact ⟨journals, (if_pos hshape).symm⟩
      · exact fun _ => hlease
      · exact Or.inl ⟨cause, hclient⟩
    | between _ hbroker' | answering _ _ hbroker' | head _ _ hbroker' | taken _ _ hbroker'
    | closed hbroker' =>
      rw [hbroker] at hbroker'
      cases hbroker'
    | whole e _ hbroker' | rest e _ hbroker' =>
      rw [hbroker] at hbroker'
      rcases afterAnswer_cases (endsAfter e.request) with hafter | hafter
      · cases hbroker'.trans hafter
      · cases hbroker'.trans hafter
    | leftDone _ _ hbroker' =>
      rw [hbroker] at hbroker'
      rcases hbroker' with hreq | hclosing | ⟨_, _, _, hans⟩ | ⟨_, _, hpay⟩
      · cases hreq
      · cases hclosing
      · cases hans
      · cases hpay
  · cases h

/-- The broker writes a message or finds that nobody listens. -/
theorem Inv.write (hs : Inv s) {next : BrokerPhase} {queue : List Bytes} (hopen : s.broker ≠ .closed)
    (hnext : next.works = false) (hplace : Place { s with broker := next, toClient := queue }) :
    Inv { s with broker := next, toClient := queue } where
  honest := hs.honest
  replies := hs.replies
  answered := hs.answered
  behind := hs.behind
  ready := hs.ready
  cause := hs.cause
  greeted hgreeted := by
    rcases hs.greeted hgreeted with hdropped | hclosed | hlease
    · exact Or.inl hdropped
    · exact absurd hclosed hopen
    · exact Or.inr (Or.inr hlease)
  working hworks := by
    rw [hnext] at hworks
    cases hworks
  accepted e he hstatus _ := hs.accepted e he hstatus hopen
  place := hplace

theorem afterAnswer_works (last : Bool) : (afterAnswer last).works = false := by
  cases last <;> rfl

theorem Place.toBroker_nil (h : Place s)
    (hbroker : ∀ request query messages, ¬Unread request query s.broker messages) :
    s.toBroker = [] := by
  cases h with
  | asking _ _ _ _ _ _ hunread => exact absurd hunread (hbroker _ _ _)
  | leftPending _ _ _ _ _ _ hunread => exact absurd hunread (hbroker _ _ _)
  | between _ _ _ _ htoBroker | answering _ _ _ _ htoBroker | head _ _ _ _ _ htoBroker
  | whole _ _ _ _ htoBroker | taken _ _ _ _ _ htoBroker | rest _ _ _ _ htoBroker
  | closed _ htoBroker | leftDone _ _ _ htoBroker => exact htoBroker

theorem brokerWrite_cases (h : s.brokerWrite = some t) :
    ((∃ response payload last, s.broker = .answering response payload last) ∨
        ∃ payload last, s.broker = .payload payload last) ∧
      (∃ cause, s.client = .dropped cause) ∧ t = { s with broker := .closing } ∨
    (∃ response payload last, s.broker = .answering response payload last ∧
      (∀ cause, s.client ≠ .dropped cause) ∧ t = { s with
        broker := if payload = [] then afterAnswer last else .payload payload last
        toClient := s.toClient ++ [response.encode] }) ∨
    ∃ payload last, s.broker = .payload payload last ∧
      (∀ cause, s.client ≠ .dropped cause) ∧ t = { s with
        broker := afterAnswer last
        toClient := s.toClient ++ [payload] } := by
  unfold State.brokerWrite at h
  split at h
  · rename_i hclient hbroker
    exact Or.inl ⟨Or.inl ⟨_, _, _, hbroker⟩, ⟨_, hclient⟩, (Option.some.inj h).symm⟩
  · rename_i hclient hbroker
    exact Or.inl ⟨Or.inr ⟨_, _, hbroker⟩, ⟨_, hclient⟩, (Option.some.inj h).symm⟩
  · rename_i hbroker hlives
    exact Or.inr (Or.inl ⟨_, _, _, hbroker, hlives, (Option.some.inj h).symm⟩)
  · rename_i hbroker hlives
    exact Or.inr (Or.inr ⟨_, _, hbroker, hlives, (Option.some.inj h).symm⟩)
  · cases h

theorem brokerWrite_inv (hs : Inv s) (h : s.brokerWrite = some t) : Inv t := by
  rcases brokerWrite_cases h with ⟨hbroker, ⟨cause, hclient⟩, rfl⟩ |
    ⟨response, payload, last, hbroker, hlives, rfl⟩ | ⟨payload, last, hbroker, hlives, rfl⟩
  · have hopen : s.broker ≠ .closed := by
      rcases hbroker with ⟨_, _, _, hbroker⟩ | ⟨_, _, hbroker⟩
      · rw [hbroker]
        exact BrokerPhase.noConfusion
      · rw [hbroker]
        exact BrokerPhase.noConfusion
    have hqueue := hs.place.toBroker_nil (by
      rintro request query messages hunread
      rcases hbroker with ⟨_, _, _, hbroker⟩ | ⟨_, _, hbroker⟩
      · rw [hbroker] at hunread
        cases hunread
      · rw [hbroker] at hunread
        cases hunread)
    apply hs.write hopen rfl
    exact .leftDone cause hclient (Or.inr (Or.inl rfl)) hqueue
  · have hopen : s.broker ≠ .closed := by
      rw [hbroker]
      exact BrokerPhase.noConfusion
    cases hs.place with
    | answering e hclient hbroker' harriving htoBroker htoClient =>
      cases hbroker.symm.trans hbroker'
      rw [htoClient, List.nil_append]
      by_cases hpayload : e.payload = []
      · rw [if_pos hpayload]
        apply hs.write hopen (afterAnswer_works _)
        refine .whole e hclient rfl ⟨harriving.answered, harriving.sent⟩ htoBroker ?_
        rw [replyMessages, if_pos hpayload]
      · rw [if_neg hpayload]
        apply hs.write hopen rfl
        exact .head e hclient rfl hpayload ⟨harriving.answered, harriving.sent⟩ htoBroker rfl
    | asking _ _ _ _ _ _ hunread =>
      rw [hbroker] at hunread
      cases hunread
    | leftDone cause hclient | leftPending cause hclient => exact absurd hclient (hlives cause)
    | between _ hbroker' | head _ _ hbroker' | taken _ _ hbroker' | closed hbroker' =>
      cases hbroker.symm.trans hbroker'
    | whole e _ hbroker' | rest e _ hbroker' =>
      rcases afterAnswer_cases (endsAfter e.request) with hafter | hafter
      · cases (hbroker.symm.trans hbroker').trans hafter
      · cases (hbroker.symm.trans hbroker').trans hafter
  · have hopen : s.broker ≠ .closed := by
      rw [hbroker]
      exact BrokerPhase.noConfusion
    cases hs.place with
    | head e hclient hbroker' hpayload harriving htoBroker htoClient =>
      cases hbroker.symm.trans hbroker'
      apply hs.write hopen (afterAnswer_works _)
      refine .whole e hclient rfl ⟨harriving.answered, harriving.sent⟩ htoBroker ?_
      show s.toClient ++ [e.payload] = replyMessages e
      rw [htoClient, replyMessages, if_neg hpayload]
      rfl
    | taken e hclient hbroker' hpayload harriving htoBroker htoClient =>
      cases hbroker.symm.trans hbroker'
      apply hs.write hopen (afterAnswer_works _)
      refine .rest e hclient rfl ⟨harriving.answered, harriving.sent⟩ htoBroker ?_
      show s.toClient ++ [e.payload] = [e.payload]
      rw [htoClient]
      rfl
    | asking _ _ _ _ _ _ hunread =>
      rw [hbroker] at hunread
      cases hunread
    | leftDone cause hclient | leftPending cause hclient => exact absurd hclient (hlives cause)
    | between _ hbroker' | answering _ _ hbroker' | closed hbroker' =>
      cases hbroker.symm.trans hbroker'
    | whole e _ hbroker' | rest e _ hbroker' =>
      rcases afterAnswer_cases (endsAfter e.request) with hafter | hafter
      · cases (hbroker.symm.trans hbroker').trans hafter
      · cases (hbroker.symm.trans hbroker').trans hafter

theorem brokerStop_inv (hs : Inv s) (h : s.brokerStop = some t) : Inv t := by
  unfold State.brokerStop at h
  split at h
  · cases h
  · obtain rfl := Option.some.inj h
    exact {
      honest := hs.honest
      replies := hs.replies
      answered := hs.answered
      behind := hs.behind
      ready := hs.ready
      cause := hs.cause
      greeted := fun _ => Or.inr (Or.inl rfl)
      working := Bool.noConfusion
      accepted := fun _ _ _ hopen => absurd rfl hopen
      place := .closed rfl rfl rfl }

/-! ## Runs -/

theorem Inv.init : Inv State.init where
  honest e he := by cases he
  replies := List.prefix_rfl
  answered := List.prefix_rfl
  behind := Nat.zero_le _
  ready _ := rfl
  cause text heq := by cases heq
  greeted h := by cases h
  working h := by cases h
  accepted e he := by cases he
  place := .between rfl rfl rfl rfl rfl rfl

theorem step_inv {a : Action} (hs : Inv s) (ha : Callable s a) (h : step s a = some t) : Inv t := by
  cases a with
  | begin request query => exact begin_inv hs ha h
  | clientWrite => exact clientWrite_inv hs h
  | clientRead => exact clientRead_inv hs h
  | clientLeave => exact clientLeave_inv hs h
  | brokerRead => exact brokerRead_inv hs h
  | handle journals => exact handle_inv hs h
  | brokerWrite => exact brokerWrite_inv hs h
  | brokerStop => exact brokerStop_inv hs h

theorem inv_of_reachable (h : (connection.restrict Callable).Reachable s) : Inv s := by
  refine h.invariant Inv.init ?_
  intro s a t hs hstep
  obtain ⟨ha, hstep⟩ := Machine.restrict_step.1 hstep
  exact step_inv hs ha hstep

def hello : Request := Request.simple .hello 1

theorem hello_sendable : Sendable hello [] where
  canonical := rfl
  query_iff := by decide
  shape h := absurd rfl h
  length h := absurd rfl h

theorem decode_hello : Request.decode hello.fields.flatten = .ok hello := by
  obtain ⟨hwidth, hdecode⟩ :=
    Request.decode_encode (show hello.encode = .ok hello.fields.flatten from rfl)
  rw [hdecode, (Request.arriving_eq_iff hwidth).2 rfl]

def greeting : Exchange := ⟨hello, [], Response.okFor 1, []⟩

/-- After the first exchange of a connection. -/
def State.afterHello : State :=
  ⟨.ready, .request, [], [], true, true, [(hello, [])], [greeting], [greeting]⟩

theorem afterHello_reachable : (connection.restrict Callable).Reachable .afterHello := by
  have hwriting : (connection.restrict Callable).Reachable
      ⟨.writing hello [] [hello.fields.flatten], .request, [], [], false, false, [(hello, [])], [], []⟩ :=
    Machine.Reachable.step (.begin hello []) .refl (Machine.restrict_step.2 ⟨hello_sendable, rfl⟩)
  have hwritten : (connection.restrict Callable).Reachable
      ⟨.awaiting hello [], .request, [hello.fields.flatten], [], false, false, [(hello, [])], [], []⟩ :=
    hwriting.step .clientWrite (Machine.restrict_step.2 ⟨trivial, rfl⟩)
  have hread : (connection.restrict Callable).Reachable
      ⟨.awaiting hello [], .handling hello [], [], [], false, true, [(hello, [])], [], []⟩ := by
    refine hwritten.step .brokerRead (Machine.restrict_step.2 ⟨trivial, ?_⟩)
    show some (State.takeRequest _ (Request.decode hello.fields.flatten)) = _
    rw [decode_hello]
    rfl
  have hhandled : (connection.restrict Callable).Reachable
      ⟨.awaiting hello [], .answering (Response.okFor 1) [] false, [], [], false, true,
        [(hello, [])], [greeting], []⟩ :=
    hread.step (.handle default) (Machine.restrict_step.2 ⟨trivial, rfl⟩)
  have hanswered : (connection.restrict Callable).Reachable
      ⟨.awaiting hello [], .request, [], [(Response.okFor 1).encode], false, true, [(hello, [])],
        [greeting], []⟩ :=
    hhandled.step .brokerWrite (Machine.restrict_step.2 ⟨trivial, rfl⟩)
  exact hanswered.step .clientRead (Machine.restrict_step.2 ⟨trivial, rfl⟩)

/-- Requests are numbered from one. -/
def Numbered (_ : State) : Action → Prop
  | .begin request _ => request.requestId ≠ 0
  | _ => True

/-- The broker takes a length for a request, refuses it and ends. -/
inductive Stale (s : State) : Prop
  | unread (hbroker : s.broker = .request) (message : Bytes) (rest : List Bytes)
      (htoBroker : s.toBroker = message :: rest) (hlength : message.length = 4)
      (htoClient : s.toClient = [])
  | refusing (hbroker : s.broker = .answering (invalidResponse 0) [] true) (htoClient : s.toClient = [])
  | refused (hbroker : s.broker = .closing)
      (htoClient : s.toClient = [] ∨ s.toClient = [(invalidResponse 0).encode])
  | closed (hbroker : s.broker = .closed) (htoClient : s.toClient = [])

/-- The client asks under numbers that the refusal does not have. -/
def ClientPhase.Asks : ClientPhase → Prop
  | .writing request _ _ | .awaiting request _ => request.requestId ≠ 0
  | .payload _ _ _ => False
  | _ => True

structure OutOfStep (replies : List Exchange) (s : State) : Prop where
  replies : s.replies = replies
  asks : s.client.Asks
  stale : Stale s

theorem Stale.client (h : Stale s) (client : ClientPhase) : Stale { s with client := client } := by
  cases h with
  | unread hbroker message rest htoBroker hlength htoClient =>
    exact .unread hbroker message rest htoBroker hlength htoClient
  | refusing hbroker htoClient => exact .refusing hbroker htoClient
  | refused hbroker htoClient => exact .refused hbroker htoClient
  | closed hbroker htoClient => exact .closed hbroker htoClient

theorem clientTake_refusal (hclient : s.client.Asks)
    (h : s.clientTake (invalidResponse 0).encode = some t) :
    ∃ cause, t = { s with client := .dropped cause } := by
  unfold State.clientTake at h
  cases hphase : s.client with
  | awaiting request query =>
    rw [hphase] at h hclient
    dsimp only at h
    rw [if_neg (not_not.2 (Response.length_encode _)), Response.decode_encode] at h
    unfold State.takeResponse at h
    dsimp only at h
    have hnumber : (invalidResponse 0).requestId ≠ request.requestId := fun heq => hclient heq.symm
    rw [if_pos hnumber] at h
    exact ⟨_, (Option.some.inj h).symm⟩
  | payload request query response =>
    rw [hphase] at hclient
    exact absurd hclient id
  | ready | writing _ _ _ | dropped _ =>
    rw [hphase] at h
    cases h

theorem OutOfStep.step {replies : List Exchange} {a : Action} (hs : OutOfStep replies s)
    (ha : Numbered s a) (h : Connection.step s a = some t) : OutOfStep replies t := by
  cases a with
  | begin request query =>
    obtain ⟨_, _, ⟨e, rfl⟩ | ⟨bytes, _, rfl⟩⟩ := begin_cases h
    · exact ⟨hs.replies, trivial, hs.stale.client _⟩
    · refine ⟨hs.replies, ha, ?_⟩
      cases hs.stale with
      | unread hbroker message rest htoBroker hlength htoClient =>
        exact .unread hbroker message rest htoBroker hlength htoClient
      | refusing hbroker htoClient => exact .refusing hbroker htoClient
      | refused hbroker htoClient => exact .refused hbroker htoClient
      | closed hbroker htoClient => exact .closed hbroker htoClient
  | clientWrite =>
    rcases clientWrite_cases h with rfl | ⟨request, query, message, todo, hclient, hopen, rfl⟩
    · exact ⟨hs.replies, trivial, hs.stale.client _⟩
    · have hnumber : request.requestId ≠ 0 := by
        have hasks := hs.asks
        rw [hclient] at hasks
        exact hasks
      refine ⟨hs.replies, ?_, ?_⟩
      · show ClientPhase.Asks (if todo = [] then _ else _)
        split_ifs
        · exact hnumber
        · exact hnumber
      · cases hs.stale with
        | unread hbroker first rest htoBroker hlength htoClient =>
          refine .unread hbroker first (rest ++ [message]) ?_ hlength htoClient
          show s.toBroker ++ [message] = _
          rw [htoBroker, List.cons_append]
        | refusing hbroker htoClient => exact .refusing hbroker htoClient
        | refused hbroker htoClient => exact .refused hbroker htoClient
        | closed hbroker => exact absurd hbroker hopen
  | clientRead =>
    rcases clientRead_cases h with ⟨message, rest, hmessage, htake⟩ | rfl
    · cases hs.stale with
      | refused hbroker htoClient =>
        rcases htoClient with hnone | hone
        · rw [hmessage] at hnone
          cases hnone
        · obtain ⟨rfl, rfl⟩ := List.cons.inj (hmessage.symm.trans hone)
          obtain ⟨cause, rfl⟩ := clientTake_refusal (s := { s with toClient := [] }) hs.asks htake
          exact ⟨hs.replies, trivial, .refused hbroker (Or.inl rfl)⟩
      | unread _ _ _ _ _ htoClient | refusing _ htoClient | closed _ htoClient =>
        rw [hmessage] at htoClient
        cases htoClient
    · exact ⟨hs.replies, trivial, hs.stale.client _⟩
  | clientLeave =>
    unfold Connection.step State.clientLeave at h
    dsimp only at h
    split at h
    · cases h
    · obtain rfl := Option.some.inj h
      exact ⟨hs.replies, trivial, hs.stale.client _⟩
  | brokerRead =>
    obtain ⟨message, queue, hmessage, htake⟩ := brokerRead_cases h
    unfold State.brokerTake at htake
    cases hs.stale with
    | unread hbroker first rest htoBroker hlength htoClient =>
      obtain ⟨rfl, rfl⟩ := List.cons.inj (hmessage.symm.trans htoBroker)
      have hframe : requestBytes = 112 := rfl
      rw [hbroker] at htake
      dsimp only at htake
      rw [if_neg (by omega), if_pos (by omega)] at htake
      obtain rfl := Option.some.inj htake
      exact ⟨hs.replies, hs.asks, .refusing rfl htoClient⟩
    | refusing hbroker | refused hbroker | closed hbroker =>
      rw [hbroker] at htake
      cases htake
  | handle journals =>
    have hfalse : ∀ request query, s.broker ≠ .handling request query := by
      intro request query hhandling
      cases hs.stale with
      | unread hbroker | refusing hbroker | refused hbroker | closed hbroker =>
        cases hhandling.symm.trans hbroker
    unfold Connection.step State.handle at h
    dsimp only at h
    split at h
    · rename_i request query hhandling
      exact absurd hhandling (hfalse request query)
    · cases h
  | brokerWrite =>
    rcases brokerWrite_cases h with ⟨_, _, rfl⟩ | ⟨response, payload, last, hwrites, _, rfl⟩ |
      ⟨payload, last, hwrites, _, rfl⟩
    · refine ⟨hs.replies, hs.asks, .refused rfl ?_⟩
      cases hs.stale with
      | unread _ _ _ _ _ htoClient | refusing _ htoClient | closed _ htoClient => exact Or.inl htoClient
      | refused _ htoClient => exact htoClient
    · cases hs.stale with
      | refusing hbroker htoClient =>
        cases hwrites.symm.trans hbroker
        refine ⟨hs.replies, hs.asks, .refused rfl (Or.inr ?_)⟩
        show s.toClient ++ _ = _
        rw [htoClient, List.nil_append]
      | unread hbroker | refused hbroker | closed hbroker => cases hwrites.symm.trans hbroker
    · cases hs.stale with
      | unread hbroker | refusing hbroker | refused hbroker | closed hbroker =>
        cases hwrites.symm.trans hbroker
  | brokerStop =>
    unfold Connection.step State.brokerStop at h
    dsimp only at h
    split at h
    · cases h
    · obtain rfl := Option.some.inj h
      exact ⟨hs.replies, hs.asks, .closed rfl rfl⟩

/-- A directory query that the broker refuses for its shape is answered, and the client keeps the
connection. But the broker has not read the query, and nothing that the client asks on this connection
is ever answered again. -/
theorem refused_query_loses_connection {request : Request} {query bytes : Bytes}
    (hclient : s.client = .ready) (hbroker : s.broker = .request) (htoBroker : s.toBroker = [])
    (htoClient : s.toClient = []) (hgreeted : s.greeted = true)
    (hcanonical : request.canonical) (hopcode : request.opcode = .readDirectoriesChanges)
    (hencode : request.encode = .ok bytes) (hquery : query ≠ [])
    (hshape : requestShapeIsValid request = false) :
    ∃ t, connection.exec s [.begin request query, .clientWrite, .clientWrite, .clientWrite, .brokerRead,
        .brokerWrite, .clientRead] = some t ∧
      t.client = .ready ∧
      t.replies = s.replies ++ [⟨request, query, invalidResponse request.requestId, []⟩] ∧
      ∀ u, (connection.restrict Numbered).Steps t u → u.replies = t.replies := by
  have hdecode : Request.decode bytes = .ok request := by
    obtain ⟨hwidth, hdecode⟩ := Request.decode_encode hencode
    rw [hdecode, (Request.arriving_eq_iff hwidth).2 hcanonical]
  have hframe := Request.length_encode hencode
  have hmessages : queryMessages query = [leBytes 4 query.length, query] := if_neg hquery
  -- the client writes the request with its query
  have hbegin : connection.step s (.begin request query) = some { s with
      client := .writing request query [bytes, leBytes 4 query.length, query]
      sent := s.sent ++ [(request, query)] } := by
    show s.begin request query = _
    unfold State.begin
    rw [hclient]
    dsimp only
    rw [if_pos (Or.inl hgreeted), hencode, hmessages]
  have hwrite : ∀ {r : State} {request : Request} {query message : Bytes} {todo : List Bytes},
      r.client = .writing request query (message :: todo) → r.broker = .request →
      connection.step r .clientWrite = some { r with
        client := if todo = [] then .awaiting request query else .writing request query todo
        toBroker := r.toBroker ++ [message] } := by
    intro r request query message todo hwriting hidle
    show r.clientWrite = _
    unfold State.clientWrite
    rw [hwriting, hidle]
  obtain ⟨asked, hasked⟩ : ∃ asked : State, asked = { s with
    client := .awaiting request query
    toBroker := [bytes, leBytes 4 query.length, query]
    sent := s.sent ++ [(request, query)] } := ⟨_, rfl⟩
  have hwritten : ∀ as, connection.exec s (.begin request query :: .clientWrite :: .clientWrite ::
      .clientWrite :: as) = connection.exec asked as := by
    intro as
    obtain ⟨r, hr⟩ : ∃ r : State, r = { s with
      client := .writing request query [bytes, leBytes 4 query.length, query]
      sent := s.sent ++ [(request, query)] } := ⟨_, rfl⟩
    have hidle : r.broker = .request := by rw [hr, hbroker]
    have hwriting : r.client = .writing request query [bytes, leBytes 4 query.length, query] := by
      rw [hr]
    have hfirst := hwrite hwriting hidle
    have hsecond := hwrite (r := { r with
      client := .writing request query [leBytes 4 query.length, query]
      toBroker := r.toBroker ++ [bytes] }) rfl hidle
    have hthird := hwrite (r := { r with
      client := .writing request query [query]
      toBroker := r.toBroker ++ [bytes] ++ [leBytes 4 query.length] }) rfl hidle
    rw [Machine.exec, hbegin, ← hr, Option.bind_some, Machine.exec, hfirst, Option.bind_some,
      Machine.exec, if_neg (List.cons_ne_nil _ _), hsecond, Option.bind_some, Machine.exec,
      if_neg (List.cons_ne_nil _ _), hthird, Option.bind_some, if_pos rfl, hasked, hr]
    simp only [htoBroker, List.nil_append, List.cons_append]
  -- the broker refuses it, and the client takes that for an answer
  have hrefuse : connection.step asked .brokerRead =
      some (State.answer { asked with toBroker := [leBytes 4 query.length, query] }
        ⟨request, [], invalidResponse request.requestId, []⟩) := by
    show asked.brokerRead = _
    unfold State.brokerRead State.brokerTake
    rw [hasked]
    dsimp only
    rw [hbroker]
    dsimp only
    rw [if_neg (by omega), if_neg (not_not.2 hframe), hdecode]
    unfold State.takeRequest
    dsimp only
    rw [if_pos (Or.inl hshape)]
  have hlast : decide (request.opcode = .release) = false := by
    rw [hopcode]
    rfl
  obtain ⟨refused, hrefused⟩ : ∃ refused : State, refused = { asked with
    broker := .request
    toBroker := [leBytes 4 query.length, query]
    toClient := [(invalidResponse request.requestId).encode]
    answered := s.answered ++ [⟨request, [], invalidResponse request.requestId, []⟩] } := ⟨_, rfl⟩
  have hanswer : connection.step (State.answer { asked with
      toBroker := [leBytes 4 query.length, query] }
        ⟨request, [], invalidResponse request.requestId, []⟩) .brokerWrite = some refused := by
    show State.brokerWrite _ = _
    rw [hrefused, hasked]
    unfold State.brokerWrite State.answer
    dsimp only
    rw [hlast, htoClient, if_pos rfl]
    rfl
  have htake : connection.step refused .clientRead = some (State.complete { refused with toClient := [] }
      ⟨request, query, invalidResponse request.requestId, []⟩) := by
    show refused.clientRead = _
    have htaken := clientTake_response (s := { refused with toClient := [] })
      (@refused_honest request query hshape) (by rw [hrefused, hasked])
    rw [if_pos rfl] at htaken
    unfold State.clientRead
    rw [hrefused] at htaken ⊢
    exact htaken
  refine ⟨State.complete { refused with toClient := [] }
    ⟨request, query, invalidResponse request.requestId, []⟩, ?_, ?_, ?_, ?_⟩
  · rw [hwritten, Machine.exec, hrefuse, Option.bind_some, Machine.exec, hanswer, Option.bind_some,
      Machine.exec, htake, Option.bind_some]
    rfl
  · show afterReply request (invalidResponse request.requestId) = .ready
    unfold afterReply
    rw [hopcode, if_neg (fun h => Opcode.noConfusion h.1), if_neg Opcode.noConfusion]
  · rw [hrefused, hasked]
    rfl
  · intro u hsteps
    have hout : OutOfStep (State.complete { refused with toClient := [] }
        ⟨request, query, invalidResponse request.requestId, []⟩).replies (State.complete
        { refused with toClient := [] } ⟨request, query, invalidResponse request.requestId, []⟩) := by
      refine ⟨rfl, ?_, ?_⟩
      · show (afterReply request (invalidResponse request.requestId)).Asks
        unfold afterReply
        rw [hopcode, if_neg (fun h => Opcode.noConfusion h.1), if_neg Opcode.noConfusion]
        trivial
      · rw [hrefused]
        exact .unread rfl _ _ rfl (leBytes_length 4 _) rfl
    refine (hsteps.preserves ?_ hout).replies
    intro r a r' hr hstep
    obtain ⟨ha, hstep⟩ := Machine.restrict_step.1 hstep
    exact hr.step ha hstep

/-- A query for no volume. -/
def unnamed : Request :=
  { Request.simple .readDirectoriesChanges 2 with previousUsn := 1, currentUsn := 2 }

def someQuery : Bytes := List.replicate 24 0

theorem refused_query_loses_connection_unnamed :
    ∃ t, connection.exec .afterHello [.begin unnamed someQuery, .clientWrite, .clientWrite,
        .clientWrite, .brokerRead, .brokerWrite, .clientRead] = some t ∧
      t.client = .ready ∧
      t.replies = State.afterHello.replies ++ [⟨unnamed, someQuery, invalidResponse 2, []⟩] ∧
      ∀ u, (connection.restrict Numbered).Steps t u → u.replies = t.replies :=
  refused_query_loses_connection rfl rfl rfl rfl rfl rfl rfl
    (show unnamed.encode = .ok unnamed.fields.flatten from rfl) (by decide) (by decide)

end Sunpack.Usn.Connection
