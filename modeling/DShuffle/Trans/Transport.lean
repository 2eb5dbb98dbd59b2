import DShuffle.Base.Codec
import DShuffle.Base.Tokens
import DShuffle.Base.Transition
import Mathlib.Data.List.Nodup
import Mathlib.Data.Int.Basic

/-!
# Calls over a transport

`Transport::call` posts a receive for the response, takes a number from
`current_seq`, sends the request under that number and puts a context into
`outstanding_rpcs`. The peer's `serve_once` runs the handler and replies under the
number and the id of the request. A response comes in on whichever receive is
posted; the fiber of that receive looks the RPC up by the id and the context by the
number, and sets the promise of the context.

## The model

* One machine for the fibers of one transport, the connection and the peer. A fiber
  is cut where it can be switched out: at the loops that acquire buffers, at the
  locks of the endpoint, and where it waits for a future.
* The RPCs are a type with a request and a response type for each; the contexts are
  not typed in the table, and a promise may be set with a response of any type.
* What `zpp_bits` does is a parameter: a codec for the header and for each request
  and response. So are the handlers; what a handler finds when it runs is an
  argument of the step.
* A buffer is held by one party at a time, so its bytes go with it. The bytes that
  are left in it from earlier messages are an argument of the step.
* Requests and responses may be lost, and may overtake each other.

## Honest scope

The buffers of the peer are left out: they only delay it. One thread uses the
transport, as its guard demands, and only RPCs of the transport are called on it.
-/

namespace DShuffle.Trans

open Base

/-- `PayloadHeader`. -/
structure PayloadHeader where
  /-- What kind of message it is. -/
  flags : BitVec 32
  /-- The number of the call. -/
  seq : BitVec 32
  /-- Which RPC it is. -/
  id : BitVec 64
  deriving DecidableEq

namespace PayloadHeader

/-- `resp_bit`. -/
def respBit : BitVec 32 := 0x80000000

/-- `oneway_req_bit`. -/
def onewayReqBit : BitVec 32 := 0x40000000

/-- The default header. -/
def new : PayloadHeader := ⟨0, 0, 0⟩

/-- `with_seq`. -/
def withSeq (h : PayloadHeader) (seq : BitVec 32) : PayloadHeader := { h with seq := seq }

/-- `with_id`. -/
def withId (h : PayloadHeader) (id : BitVec 64) : PayloadHeader := { h with id := id }

/-- `as_resp`. -/
def asResp (h : PayloadHeader) : PayloadHeader := { h with flags := h.flags ||| respBit }

/-- `as_oneway_req`. -/
def asOnewayReq (h : PayloadHeader) : PayloadHeader := { h with flags := h.flags ||| onewayReqBit }

/-- `is_resp`. -/
def isResp (h : PayloadHeader) : Bool := h.flags &&& respBit != 0

/-- `is_oneway_req`. -/
def isOnewayReq (h : PayloadHeader) : Bool := h.flags &&& onewayReqBit != 0

@[simp] theorem isResp_addressed (h : PayloadHeader) (q : BitVec 32) (i : BitVec 64) :
    ((h.withSeq q).withId i).isResp = h.isResp := rfl

@[simp] theorem isOnewayReq_addressed (h : PayloadHeader) (q : BitVec 32) (i : BitVec 64) :
    ((h.withSeq q).withId i).isOnewayReq = h.isOnewayReq := rfl

@[simp] theorem seq_addressed (h : PayloadHeader) (q : BitVec 32) (i : BitVec 64) : ((h.withSeq q).withId i).seq = q := rfl

@[simp] theorem id_addressed (h : PayloadHeader) (q : BitVec 32) (i : BitVec 64) : ((h.withSeq q).withId i).id = i := rfl

@[simp] theorem isResp_new : new.isResp = false := by decide

@[simp] theorem isOnewayReq_new : new.isOnewayReq = false := by decide

@[simp] theorem isResp_asResp : new.asResp.isResp = true := by decide

@[simp] theorem isOnewayReq_asResp : new.asResp.isOnewayReq = false := by decide

@[simp] theorem isOnewayReq_asOnewayReq : new.asOnewayReq.isOnewayReq = true := by decide

end PayloadHeader

/-- The RPCs of two transports that are connected, and what stands behind them. -/
structure Service (R H : Type) where
  /-- `req_t`. -/
  Req : R → Type
  /-- `resp_t`. -/
  Resp : R → Type
  /-- `is_oneway_v`: the response is `void`. -/
  isOneway : R → Bool
  /-- `Rpc::id`, a hash of the name. -/
  id : R → BitVec 64
  /-- The bytes of a header. -/
  header : Codec PayloadHeader
  /-- The bytes of a request. -/
  req : (r : R) → Codec (Req r)
  /-- The bytes of a response. -/
  resp : (r : R) → Codec (Resp r)
  /-- The handlers of the peer: `none` if the handler throws. -/
  handler : H → (r : R) → Req r → Option (Resp r)
  /-- `Bulk`, the two RPCs of the memory registration, and those of the transport. -/
  rpcs : List R
  /-- Those of the peer. -/
  peerRpcs : List R
  /-- `max_rpc_msg_size`. -/
  maxRpcMsgSize : ℕ
  /-- That of the peer. -/
  peerMaxRpcMsgSize : ℕ
  /-- `queue_depth`: how many buffers a pool has. -/
  queueDepth : ℕ

namespace Transport

variable {R H : Type} {P : Service R H}

/-- A call that was made. -/
structure Call (P : Service R H) where
  /-- Its RPC. -/
  rpc : R
  /-- Its request. -/
  req : P.Req rpc
  /-- Its number. -/
  seq : BitVec 32

/-- `RpcContext`, with the call that it belongs to. -/
structure RpcContext (P : Service R H) where
  /-- The call. -/
  call : Call P
  /-- The values that its promise was set to. -/
  values : List ((r : R) × P.Resp r)

/-- Where a fiber stands in `call` or `oneway`. -/
inductive Fiber (P : Service R H) where
  /-- In `acquire_recv_buffer`. -/
  | recvBuffer (r : R) (req : P.Req r)
  /-- At the lock of `post_recv`. -/
  | recvPost (r : R) (req : P.Req r) (b : ℕ)
  /-- In `acquire_send_buffer`. -/
  | sendBuffer (r : R) (req : P.Req r)
  /-- The message is serialized; at the lock of `post_send`. -/
  | sendPost (r : R) (req : P.Req r) (b : ℕ) (seq : BitVec 32)
  /-- It waits until the message is sent; a call has a context. A post that is refused has its result. -/
  | sendWait (b : ℕ) (ctx : Option ℕ) (res : Option ℤ)

/-- How the fiber of a receive can fail. -/
inductive Fault where
  /-- The receive failed. -/
  | recv
  /-- The header or the response cannot be read. -/
  | deserialize
  /-- The payload is not a response. -/
  | notResp
  /-- No RPC has the id. -/
  | mismatch
  /-- No call with the number is outstanding. -/
  | unknown
  deriving DecidableEq

/-- The state of the transport, of the connection and of the peer. -/
structure St (P : Service R H) where
  /-- The endpoint is running. -/
  running : Bool
  /-- `send_bufs`. -/
  sendBufs : List ℕ
  /-- `recv_bufs`. -/
  recvBufs : List ℕ
  /-- `current_seq`. -/
  currentSeq : BitVec 32
  /-- `outstanding_rpcs`: numbers and contexts. -/
  outstandingRpcs : List (BitVec 32 × ℕ)
  /-- The contexts that were made. -/
  contexts : List (RpcContext P)
  /-- The fibers in `call` and `oneway`. -/
  fibers : List (Fiber P)
  /-- How many calls and oneways were made. -/
  invoked : ℕ
  /-- The receives that are posted, by their buffers. -/
  posted : List ℕ
  /-- The receives that have a message. -/
  received : List (ℕ × Bytes)
  /-- The requests in flight. -/
  requests : List Bytes
  /-- The responses in flight. -/
  replies : List Bytes
  /-- The calls for which the peer ran a handler, and what the handler found. -/
  handled : List (BitVec 32 × H)
  /-- What went wrong in the fibers of the receives. -/
  faults : List Fault

/-- The steps. -/
inductive Act (P : Service R H) where
  /-- A fiber calls `call`. -/
  | call (r : R) (req : P.Req r)
  /-- A fiber calls `oneway`. -/
  | oneway (r : R) (req : P.Req r)
  /-- A fiber gets a receive buffer. -/
  | acquireRecv (i : ℕ)
  /-- `post_recv`. -/
  | postRecv (i : ℕ)
  /-- A fiber gets a send buffer, takes a number and serializes the message. -/
  | acquireSend (i : ℕ)
  /-- `post_send`, and for a call the new context. -/
  | postSend (i : ℕ) (stale : Bytes)
  /-- `post_send` resolves. -/
  | sent (i : ℕ) (nSend : ℤ)
  /-- The peer serves the request at the place. -/
  | serve (k : ℕ) (found : H) (stale : Bytes)
  /-- The response at the place comes in on the receive at the place. -/
  | arrive (k j : ℕ) (stale : Bytes)
  /-- The fiber of the receive at the place runs. -/
  | dispatch (j : ℕ)
  /-- The request at the place is lost. -/
  | loseRequest (k : ℕ)
  /-- The response at the place is lost. -/
  | loseReply (k : ℕ)
  /-- The endpoint stops. -/
  | stop

variable (P) in
/-- `NormalRpcs` of a list of RPCs. -/
def normalRpcs (rpcs : List R) : List R := rpcs.filter fun r => !P.isOneway r

variable (P) in
/-- The RPC that `dispatch_resp` or `dispatch_reqs` picks: the first with the id. -/
def pick (rpcs : List R) (id : BitVec 64) : Option R := (normalRpcs P rpcs).find? fun r => P.id r == id

variable (P) in
/-- The message of a call or a oneway. -/
def requestBytes (r : R) (req : P.Req r) (seq : BitVec 32) : Bytes :=
  P.header.put (((if P.isOneway r then PayloadHeader.new.asOnewayReq else PayloadHeader.new).withSeq seq).withId (P.id r)) ++
    (P.req r).put req

variable (P) in
/-- The response of the peer. -/
def replyBytes (r : R) (resp : P.Resp r) (seq : BitVec 32) (id : BitVec 64) : Bytes :=
  P.header.put ((PayloadHeader.new.asResp.withSeq seq).withId id) ++ (P.resp r).put resp

/-- `set_value` of the promise of a context. -/
def RpcContext.setValue (c : RpcContext P) (v : (r : R) × P.Resp r) : RpcContext P := { c with values := c.values ++ [v] }

/-- `outstanding_rpcs.emplace`: an entry that is there stays. -/
def emplace (outstanding : List (BitVec 32 × ℕ)) (seq : BitVec 32) (ctx : ℕ) : List (BitVec 32 × ℕ) :=
  if outstanding.any (fun e => e.1 == seq) then outstanding else outstanding ++ [(seq, ctx)]

/-- The fiber at the place goes on. -/
def St.goto (s : St P) (i : ℕ) (f : Fiber P) : St P := { s with fibers := f :: s.fibers.eraseIdx i }

/-- The fiber at the place has left `call` or `oneway`. -/
def St.leave (s : St P) (i : ℕ) : St P := { s with fibers := s.fibers.eraseIdx i }

/-- `serve_once` on a message. -/
def serveOnce (s : St P) (m : Bytes) (found : H) (stale : Bytes) : St P :=
  match P.header.get m with
  | none => s
  | some (h, body) =>
    -- the peer dies on a response, and a oneway has none
    if h.isResp || h.isOnewayReq then s
    else
      match pick P P.peerRpcs h.id with
      | none => s
      | some r =>
        match (P.req r).get body with
        | none => s
        | some (req, _) =>
          match P.handler found r req with
          | none => s
          | some resp =>
            let payload := replyBytes P r resp h.seq h.id
            { s with handled := s.handled ++ [(h.seq, found)],
                     replies := if payload.length ≤ P.peerMaxRpcMsgSize then s.replies ++ [payload ++ stale] else s.replies }

/-- The fiber dies. -/
def St.fault (s : St P) (f : Fault) : St P := { s with faults := s.faults ++ [f] }

/-- The fiber of a receive, with the message in its buffer. -/
def dispatchResp (s : St P) (b : ℕ) (m : Bytes) : St P :=
  match P.header.get m with
  | none => s.fault .deserialize
  | some (h, body) =>
    if h.isResp then
      match pick P P.rpcs h.id with
      | none => s.fault .mismatch
      | some r =>
        match (P.resp r).get body with
        | none => s.fault .deserialize
        | some (resp, _) =>
          match s.outstandingRpcs.find? fun e => e.1 == h.seq with
          | none => s.fault .unknown
          | some (_, ctx) =>
            { s with contexts := s.contexts.modify ctx (fun c => c.setValue ⟨r, resp⟩),
                     outstandingRpcs := s.outstandingRpcs.filter fun e => e.1 != h.seq,
                     recvBufs := s.recvBufs ++ [b] }
    else s.fault .notResp

/-- A step of a fiber, of the connection or of the peer. -/
def step [DecidableEq R] (s : St P) : Act P → Option (St P)
  | .call r req =>
    if r ∈ normalRpcs P P.rpcs then some { s with invoked := s.invoked + 1, fibers := .recvBuffer r req :: s.fibers } else none
  | .oneway r req =>
    if r ∈ P.rpcs ∧ P.isOneway r then some { s with invoked := s.invoked + 1, fibers := .sendBuffer r req :: s.fibers }
    else none
  | .acquireRecv i =>
    match s.fibers[i]?, s.recvBufs with
    | some (.recvBuffer r req), b :: bs => some { s.goto i (.recvPost r req b) with recvBufs := bs }
    | _, _ => none
  | .postRecv i =>
    match s.fibers[i]? with
    | some (.recvPost r req b) =>
      if s.running then some { s.goto i (.sendBuffer r req) with posted := s.posted ++ [b] }
      -- the receive resolves to 0, and its fiber dies
      else some ((s.goto i (.sendBuffer r req)).fault .recv)
    | _ => none
  | .acquireSend i =>
    match s.fibers[i]?, s.sendBufs with
    | some (.sendBuffer r req), b :: bs =>
      if (requestBytes P r req s.currentSeq).length ≤ P.maxRpcMsgSize then
        some { s.goto i (.sendPost r req b s.currentSeq) with sendBufs := bs, currentSeq := s.currentSeq + 1 }
      -- the serializer throws
      else some { s.leave i with sendBufs := bs, currentSeq := s.currentSeq + 1 }
    | _, _ => none
  | .postSend i stale =>
    match s.fibers[i]? with
    | some (.sendPost r req b seq) =>
      let requests := if s.running then s.requests ++ [requestBytes P r req seq ++ stale] else s.requests
      let res := if s.running then none else some 0
      if P.isOneway r then some { s.goto i (.sendWait b none res) with requests := requests }
      else
        some { s.goto i (.sendWait b (some s.contexts.length) res) with
          requests := requests
          contexts := s.contexts ++ [⟨⟨r, req, seq⟩, []⟩]
          outstandingRpcs := emplace s.outstandingRpcs seq s.contexts.length }
    | _ => none
  | .sent i nSend =>
    match s.fibers[i]? with
    | some (.sendWait b _ res) =>
      if res = none ∨ res = some nSend then
        if nSend ≤ 0 then some (s.leave i) else some { s.leave i with sendBufs := s.sendBufs ++ [b] }
      else none
    | _ => none
  | .serve k found stale =>
    match s.requests[k]? with
    | some m => some (serveOnce { s with requests := s.requests.eraseIdx k } m found stale)
    | none => none
  | .arrive k j stale =>
    match s.replies[k]?, s.posted[j]? with
    | some m, some b =>
      some { s with replies := s.replies.eraseIdx k, posted := s.posted.eraseIdx j,
                    received := s.received ++ [(b, m ++ stale)] }
    | _, _ => none
  | .dispatch j =>
    match s.received[j]? with
    | some (b, m) => some (dispatchResp { s with received := s.received.eraseIdx j } b m)
    | none => none
  | .loseRequest k => if k < s.requests.length then some { s with requests := s.requests.eraseIdx k } else none
  | .loseReply k => if k < s.replies.length then some { s with replies := s.replies.eraseIdx k } else none
  | .stop => some { s with running := false }

variable (P) in
/-- A new transport. -/
def init : St P :=
  { running := true, sendBufs := List.range P.queueDepth, recvBufs := List.range P.queueDepth, currentSeq := 1,
    outstandingRpcs := [], contexts := [], fibers := [], invoked := 0, posted := [], received := [], requests := [],
    replies := [], handled := [], faults := [] }

/-! ### The branches of a step -/

variable {s s' : St P}

variable (s) in
/-- What a step does, in each of its branches. -/
inductive Moves : Act P → St P → Prop where
  /-- A call. -/
  | call {r : R} {req : P.Req r} (hr : r ∈ normalRpcs P P.rpcs) :
    Moves (.call r req) { s with invoked := s.invoked + 1, fibers := .recvBuffer r req :: s.fibers }
  /-- A oneway. -/
  | oneway {r : R} {req : P.Req r} (hone : P.isOneway r = true) :
    Moves (.oneway r req) { s with invoked := s.invoked + 1, fibers := .sendBuffer r req :: s.fibers }
  /-- A receive buffer. -/
  | acquireRecv {i : ℕ} {r : R} {req : P.Req r} {b : ℕ} {bs : List ℕ} (hf : s.fibers[i]? = some (.recvBuffer r req)) :
    Moves (.acquireRecv i) { s.goto i (.recvPost r req b) with recvBufs := bs }
  /-- The receive is posted, if the endpoint is running. -/
  | postRecv {i : ℕ} {r : R} {req : P.Req r} {b : ℕ} (hf : s.fibers[i]? = some (.recvPost r req b)) :
    Moves (.postRecv i) (if s.running then { s.goto i (.sendBuffer r req) with posted := s.posted ++ [b] }
      else (s.goto i (.sendBuffer r req)).fault .recv)
  /-- A send buffer for a message that fits. -/
  | acquireSend {i : ℕ} {r : R} {req : P.Req r} {b : ℕ} {bs : List ℕ} (hf : s.fibers[i]? = some (.sendBuffer r req))
      (hb : s.sendBufs = b :: bs) :
    Moves (.acquireSend i)
      { s.goto i (.sendPost r req b s.currentSeq) with sendBufs := bs, currentSeq := s.currentSeq + 1 }
  /-- A send buffer for a message that is too long. -/
  | throws {i : ℕ} {r : R} {req : P.Req r} {b : ℕ} {bs : List ℕ} (hf : s.fibers[i]? = some (.sendBuffer r req))
      (hb : s.sendBufs = b :: bs) :
    Moves (.acquireSend i) { s.leave i with sendBufs := bs, currentSeq := s.currentSeq + 1 }
  /-- A oneway is posted. -/
  | postOneway {i : ℕ} {stale : Bytes} {r : R} {req : P.Req r} {b : ℕ} {q : BitVec 32}
      (hf : s.fibers[i]? = some (.sendPost r req b q)) (hone : P.isOneway r = true) :
    Moves (.postSend i stale) { s.goto i (.sendWait b none (if s.running then none else some 0)) with
      requests := if s.running then s.requests ++ [requestBytes P r req q ++ stale] else s.requests }
  /-- A request is posted. -/
  | postCall {i : ℕ} {stale : Bytes} {r : R} {req : P.Req r} {b : ℕ} {q : BitVec 32}
      (hf : s.fibers[i]? = some (.sendPost r req b q)) (hone : ¬ P.isOneway r = true) :
    Moves (.postSend i stale) { s.goto i (.sendWait b (some s.contexts.length) (if s.running then none else some 0)) with
      requests := if s.running then s.requests ++ [requestBytes P r req q ++ stale] else s.requests
      contexts := s.contexts ++ [⟨⟨r, req, q⟩, []⟩]
      outstandingRpcs := emplace s.outstandingRpcs q s.contexts.length }
  /-- A send fails. -/
  | sendFails {i : ℕ} {nSend : ℤ} {b : ℕ} {ctx : Option ℕ} {res : Option ℤ}
      (hf : s.fibers[i]? = some (.sendWait b ctx res)) : Moves (.sent i nSend) (s.leave i)
  /-- A send comes back. -/
  | sent {i : ℕ} {nSend : ℤ} {b : ℕ} {ctx : Option ℕ} {res : Option ℤ} (hf : s.fibers[i]? = some (.sendWait b ctx res)) :
    Moves (.sent i nSend) { s.leave i with sendBufs := s.sendBufs ++ [b] }
  /-- The peer serves. -/
  | serve {k : ℕ} {found : H} {stale m : Bytes} (hk : s.requests[k]? = some m) :
    Moves (.serve k found stale) (serveOnce { s with requests := s.requests.eraseIdx k } m found stale)
  /-- A response comes in. -/
  | arrive {k j b : ℕ} {stale m : Bytes} (hk : s.replies[k]? = some m) (hj : s.posted[j]? = some b) :
    Moves (.arrive k j stale) { s with replies := s.replies.eraseIdx k, posted := s.posted.eraseIdx j,
                                       received := s.received ++ [(b, m ++ stale)] }
  /-- The fiber of a receive runs. -/
  | dispatch {j b : ℕ} {m : Bytes} (hj : s.received[j]? = some (b, m)) :
    Moves (.dispatch j) (dispatchResp { s with received := s.received.eraseIdx j } b m)
  /-- A request is lost. -/
  | loseRequest {k : ℕ} : Moves (.loseRequest k) { s with requests := s.requests.eraseIdx k }
  /-- A response is lost. -/
  | loseReply {k : ℕ} : Moves (.loseReply k) { s with replies := s.replies.eraseIdx k }
  /-- The endpoint stops. -/
  | stop : Moves .stop { s with running := false }

/-- Every step is one of these. -/
theorem moves_of_step [DecidableEq R] {act : Act P} (hs : step s act = some s') : Moves s act s' := by
  cases act with
  | call r req =>
    simp only [step, Option.ite_none_right_eq_some, Option.some.injEq] at hs
    obtain ⟨hr, rfl⟩ := hs
    exact .call hr
  | oneway r req =>
    simp only [step, Option.ite_none_right_eq_some, Option.some.injEq] at hs
    obtain ⟨⟨-, hone⟩, rfl⟩ := hs
    exact .oneway hone
  | acquireRecv i =>
    simp only [step] at hs
    split at hs
    case h_2 => cases hs
    case h_1 r req b bs hf hb =>
      cases hs
      exact .acquireRecv hf
  | postRecv i =>
    simp only [step] at hs
    split at hs
    case h_2 => cases hs
    case h_1 r req b hf =>
      have hmove := Moves.postRecv hf
      split at hs
      case isTrue hrun =>
        cases hs
        rwa [if_pos hrun] at hmove
      case isFalse hrun =>
        cases hs
        rwa [if_neg hrun] at hmove
  | acquireSend i =>
    simp only [step] at hs
    split at hs
    case h_2 => cases hs
    case h_1 r req b bs hf hb =>
      split at hs
      · cases hs
        exact .acquireSend hf hb
      · cases hs
        exact .throws hf hb
  | postSend i stale =>
    simp only [step] at hs
    split at hs
    case h_2 => cases hs
    case h_1 r req b q hf =>
      split at hs
      case isTrue hone =>
        cases hs
        exact .postOneway hf hone
      case isFalse hone =>
        cases hs
        exact .postCall hf hone
  | sent i nSend =>
    simp only [step] at hs
    split at hs
    case h_2 => cases hs
    case h_1 b ctx res hf =>
      simp only [Option.ite_none_right_eq_some] at hs
      obtain ⟨-, hs⟩ := hs
      split at hs
      · cases hs
        exact .sendFails hf
      · cases hs
        exact .sent hf
  | serve k found stale =>
    simp only [step] at hs
    split at hs
    case h_2 => cases hs
    case h_1 m hk =>
      cases hs
      exact .serve hk
  | arrive k j stale =>
    simp only [step] at hs
    split at hs
    case h_2 => cases hs
    case h_1 m b hk hj =>
      cases hs
      exact .arrive hk hj
  | dispatch j =>
    simp only [step] at hs
    split at hs
    case h_2 => cases hs
    case h_1 b m hj =>
      cases hs
      exact .dispatch hj
  | loseRequest k =>
    simp only [step, Option.ite_none_right_eq_some, Option.some.injEq] at hs
    obtain ⟨-, rfl⟩ := hs
    exact .loseRequest
  | loseReply k =>
    simp only [step, Option.ite_none_right_eq_some, Option.some.injEq] at hs
    obtain ⟨-, rfl⟩ := hs
    exact .loseReply
  | stop =>
    simp only [step, Option.some.injEq] at hs
    subst hs
    exact .stop

end Transport

end DShuffle.Trans
