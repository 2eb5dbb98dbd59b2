import DShuffle.Base.Pool
import DShuffle.Trans.Calls

/-!
# The serving side of a transport

`serve_until` starts a fiber for each of the `queue_depth` buffers. A fiber takes a
receive buffer, posts a receive and waits for a request. For a oneway it runs the
handler; for a call it takes a send buffer, runs the handler, gives the receive buffer
back and sends the response. While it waits it looks at `fn` every second, and leaves
as soon as `fn` holds. When the endpoint stops, `task_cb` drops the completions of what
was posted, so that a fiber that waits for one waits for ever, unless `fn` holds.

## The model

* A worker is where a fiber of `serve_until` stands, with the buffers and the message
  that it has. `gone` has the buffers that it did not release.
* `running` is the status of the endpoint, `consumer` and `producer` are whether its
  contexts run: a post looks at the context, a completion at the status.
* The messages are those of `Transport`: `answer` is what `serve_once` sends for one.
* `received`, `handled`, `dropped` and `refused` log the requests that came in, those for
  which a handler ran, those that a worker left with, and the responses that were not sent.

## What is proved

* `Inv` — both pools keep their buffers, and the accounts of requests and responses. Every
  step keeps it (`Inv.step`).
* `served_of_run` — a worker that needs a buffer finds one; every request is handled once or
  is on its way, or was dropped after `fn` held; and every response is of one handled request.
* `closes_of_run` — when `fn` holds or the endpoint has stopped, the workers come to an end,
  and `serve_until` returns exactly if `fn` holds or none of them waited for the endpoint.

## Honest scope

Nothing else uses the transport: a call would share the pools. A handler runs in one
step; what it finds is an argument of the step. A `die` ends the process.
-/

namespace DShuffle.Trans.Serve

open Base Transport

variable {R H : Type} {P : Service R H}

/-! ### A message -/

variable (P) in
/-- Whether the message is a oneway; a response, or a message without a header, is neither. -/
def isOneway? (m : Bytes) : Option Bool :=
  (P.header.get m).bind fun (h, _) => if h.isResp then none else some h.isOnewayReq

variable (P) in
/-- `dispatch_reqs<OnewayRpcs>`: the handler runs to its end. -/
def runOneway (found : H) (m : Bytes) : Bool :=
  (P.header.get m).any fun (h, body) =>
    ((P.peerRpcs.filter P.isOneway).find? fun r => P.id r == h.id).any fun r =>
      ((P.req r).get body).any fun (req, _) => (P.handler found r req).isSome

variable (P) in
/-- `dispatch_reqs<NormalRpcs>`: the message that is sent. -/
def answer (found : H) (m : Bytes) : Option Bytes :=
  (P.header.get m).bind fun (h, body) =>
    (pick P P.peerRpcs h.id).bind fun r =>
      ((P.req r).get body).bind fun (req, _) =>
        (P.handler found r req).bind fun resp =>
          let payload := replyBytes P r resp h.seq h.id
          if payload.length ≤ P.peerMaxRpcMsgSize then some payload else none

variable (P) in
/-- The response to a message for which a handler ran. -/
def replyTo (x : Bytes × H) : Option Bytes := if isOneway? P x.1 = some false then answer P x.2 x.1 else none

/-- **The peer of `Transport` answers as this server does.** -/
theorem replies_serveOnce (s : Transport.St P) (m : Bytes) (found : H) (stale : Bytes) :
    (serveOnce s m found stale).replies = s.replies ++ (replyTo P (m, found)).toList.map (· ++ stale) := by
  unfold serveOnce replyTo isOneway? answer
  cases P.header.get m with
  | none => simp
  | some x =>
    obtain ⟨h, body⟩ := x
    by_cases hresp : h.isResp = true
    · simp [hresp]
    · by_cases hone : h.isOnewayReq = true
      · simp [hresp, hone]
      · simp only [hresp, hone, Bool.or_false, Bool.false_eq_true, if_false, Option.bind_some]
        cases pick P P.peerRpcs h.id with
        | none => simp
        | some r =>
          cases hreq : (P.req r).get body with
          | none => simp [hreq]
          | some y =>
            cases hh : P.handler found r y.1 with
            | none => simp [hreq, hh]
            | some resp =>
              by_cases hlen : (replyBytes P r resp h.seq h.id).length ≤ P.peerMaxRpcMsgSize
              · simp [hreq, hh, hlen]
              · simp [hreq, hh, hlen]

/-! ### The machine -/

/-- Where a fiber of `serve_until` stands. -/
inductive Worker where
  /-- At the condition of its loop, or in `acquire_recv_buffer`. -/
  | idle
  /-- At the lock of `post_recv`. -/
  | post (b : ℕ)
  /-- It waits for the receive: `n_recv` and the bytes of the buffer. -/
  | recv (b : ℕ) (res : Option (ℤ × Bytes))
  /-- At the handler of a oneway. -/
  | oneway (b : ℕ) (m : Bytes)
  /-- In `acquire_send_buffer`. -/
  | acquire (b : ℕ) (m : Bytes)
  /-- At the handler of a call. -/
  | handle (b sb : ℕ) (m : Bytes)
  /-- At the lock of `post_send`. -/
  | reply (sb : ℕ) (payload : Bytes)
  /-- It waits until the response is sent: `n_send`. -/
  | send (sb : ℕ) (res : Option ℤ)
  /-- It has left the loop, with the buffers that it did not release. -/
  | gone (rb sb : Option ℕ)
  deriving DecidableEq

namespace Worker

/-- Its receive buffer. -/
def recvBuf : Worker → Option ℕ
  | .post b | .recv b _ | .oneway b _ | .acquire b _ | .handle b _ _ => some b
  | .gone rb _ => rb
  | .idle | .reply _ _ | .send _ _ => none

/-- Its send buffer. -/
def sendBuf : Worker → Option ℕ
  | .handle _ sb _ | .reply sb _ | .send sb _ => some sb
  | .gone _ sb => sb
  | .idle | .post _ | .recv _ _ | .oneway _ _ | .acquire _ _ => none

/-- The request that it has and that was not handled. -/
def request : Worker → List Bytes
  | .recv _ (some (n, m)) => if 0 < n then [m] else []
  | .oneway _ m | .acquire _ m | .handle _ _ m => [m]
  | .idle | .post _ | .recv _ none | .reply _ _ | .send _ _ | .gone _ _ => []

/-- The response that it has and that was not posted. -/
def payload : Worker → List Bytes
  | .reply _ payload => [payload]
  | .idle | .post _ | .recv _ _ | .oneway _ _ | .acquire _ _ | .handle _ _ _ | .send _ _ | .gone _ _ => []

/-- It waits for the endpoint. -/
def waits : Worker → Bool
  | .recv _ none | .send _ none => true
  | .idle | .post _ | .recv _ (some _) | .oneway _ _ | .acquire _ _ | .handle _ _ _ | .reply _ _ | .send _ (some _)
  | .gone _ _ => false

/-- It has left the loop. -/
def isGone : Worker → Bool
  | .gone _ _ => true
  | .idle | .post _ | .recv _ _ | .oneway _ _ | .acquire _ _ | .handle _ _ _ | .reply _ _ | .send _ _ => false

end Worker

/-- A transport that serves. -/
structure St (H : Type) where
  /-- `e.running()`. -/
  running : Bool
  /-- The context of the consumer runs. -/
  consumer : Bool
  /-- The context of the producer runs. -/
  producer : Bool
  /-- What `fn()` returns. -/
  stopped : Bool
  /-- `recv_bufs`. -/
  recvBufs : List ℕ
  /-- `send_bufs`. -/
  sendBufs : List ℕ
  /-- The fibers of `serve_until`. -/
  workers : List Worker
  /-- The requests in flight. -/
  inbox : List Bytes
  /-- The responses that were posted. -/
  replies : List Bytes
  /-- The requests that came in. -/
  received : List Bytes
  /-- Those for which a handler ran, and what it found. -/
  handled : List (Bytes × H)
  /-- Those that a worker left with. -/
  dropped : List Bytes
  /-- The responses that were not posted, as the producer had stopped. -/
  refused : List Bytes
  /-- The process has died. -/
  died : Bool

/-- The steps. -/
inductive Act (H : Type) where
  /-- The peer sends a message. -/
  | request (m : Bytes)
  /-- `fn` holds from now on. -/
  | quit
  /-- `Endpoint::stop`, its first line. -/
  | stop
  /-- `doca_ctx_stop` of the producer. -/
  | stopProducer
  /-- `doca_ctx_stop` of the consumer. -/
  | stopConsumer
  /-- Worker `i` gets a receive buffer. -/
  | acquireRecv (i : ℕ)
  /-- Worker `i` leaves its loop at the condition. -/
  | leave (i : ℕ)
  /-- `post_recv`. -/
  | postRecv (i : ℕ)
  /-- The message at the place comes in on the receive of worker `i`. -/
  | arrive (i k : ℕ) (stale : Bytes)
  /-- The receive of worker `i` fails. -/
  | failRecv (i : ℕ) (n : ℤ)
  /-- Worker `i` goes on after its receive. -/
  | wakeRecv (i : ℕ)
  /-- The handler of a oneway runs. -/
  | runOneway (i : ℕ) (found : H)
  /-- Worker `i` gets a send buffer. -/
  | acquireSend (i : ℕ)
  /-- The handler of a call runs, and the receive buffer is released. -/
  | run (i : ℕ) (found : H)
  /-- `post_send`. -/
  | postSend (i : ℕ)
  /-- The send of worker `i` completes. -/
  | sent (i : ℕ) (n : ℤ)
  /-- Worker `i` goes on after its send. -/
  | wakeSend (i : ℕ)

/-- The worker whose step it is. -/
def Act.worker? : Act H → Option ℕ
  | .request _ | .quit | .stop | .stopProducer | .stopConsumer => none
  | .acquireRecv i | .leave i | .postRecv i | .arrive i _ _ | .failRecv i _ | .wakeRecv i | .runOneway i _ | .acquireSend i
  | .run i _ | .postSend i | .sent i _ | .wakeSend i => some i

/-- Worker `i` goes on. -/
def St.goto (s : St H) (i : ℕ) (w : Worker) : St H := { s with workers := s.workers.set i w }

/-- `die`. -/
def St.die (s : St H) : St H := { s with died := true }

variable (P) in
/-- Worker `i` goes on after its receive: `n` is `n_recv`, `m` is what the buffer holds. -/
def St.wakeRecv (s : St H) (i b : ℕ) (n : ℤ) (m : Bytes) : St H :=
  if n ≤ 0 then { s.goto i (.gone none none) with recvBufs := s.recvBufs ++ [b] }
  else
    match isOneway? P m with
    | none => s.die
    | some true => s.goto i (.oneway b m)
    | some false => s.goto i (.acquire b m)

/-- Worker `i` leaves, as `fn` holds, and does not look at the result of its receive. -/
def St.quitRecv (s : St H) (i b : ℕ) (w : Worker) : St H :=
  { s.goto i (.gone (some b) none) with dropped := s.dropped ++ w.request }

variable (P) in
/-- A step. -/
def step (s : St H) (act : Act H) : Option (St H) :=
  if s.died then none
  else
    match act with
    | .request m => some { s with inbox := s.inbox ++ [m] }
    | .quit => some { s with stopped := true }
    | .stop => some { s with running := false }
    | .stopProducer => if s.running then none else some { s with producer := false }
    | .stopConsumer => if s.running then none else some { s with consumer := false }
    | .acquireRecv i =>
      match s.workers[i]?, s.recvBufs with
      | some .idle, b :: bs => if s.running && !s.stopped then some { s.goto i (.post b) with recvBufs := bs } else none
      | _, _ => none
    | .leave i =>
      match s.workers[i]? with
      | some .idle => if s.running && !s.stopped then none else some (s.goto i (.gone none none))
      | _ => none
    | .postRecv i =>
      match s.workers[i]? with
      | some (.post b) => some (s.goto i (.recv b (if s.consumer then none else some (0, []))))
      | _ => none
    | .arrive i k stale =>
      match s.workers[i]?, s.inbox[k]? with
      | some (.recv b none), some m =>
        if s.running && !m.isEmpty then
          some { s.goto i (.recv b (some (m.length, m ++ stale))) with
            inbox := s.inbox.eraseIdx k, received := s.received ++ [m ++ stale] }
        else none
      | _, _ => none
    | .failRecv i n =>
      match s.workers[i]? with
      | some (.recv b none) => if s.running && decide (n ≤ 0) then some (s.goto i (.recv b (some (n, [])))) else none
      | _ => none
    | .wakeRecv i =>
      match s.workers[i]? with
      | some (.recv b res) =>
        if s.stopped then some (s.quitRecv i b (.recv b res))
        else res.map fun (n, m) => s.wakeRecv P i b n m
      | _ => none
    | .runOneway i found =>
      match s.workers[i]? with
      | some (.oneway b m) =>
        if Serve.runOneway P found m then
          some { s.goto i .idle with recvBufs := s.recvBufs ++ [b], handled := s.handled ++ [(m, found)] }
        else some s.die
      | _ => none
    | .acquireSend i =>
      match s.workers[i]?, s.sendBufs with
      | some (.acquire b m), sb :: sbs => some { s.goto i (.handle b sb m) with sendBufs := sbs }
      | _, _ => none
    | .run i found =>
      match s.workers[i]? with
      | some (.handle b sb m) =>
        match answer P found m with
        | some payload =>
          some { s.goto i (.reply sb payload) with recvBufs := s.recvBufs ++ [b], handled := s.handled ++ [(m, found)] }
        | none => some s.die
      | _ => none
    | .postSend i =>
      match s.workers[i]? with
      | some (.reply sb payload) =>
        if s.producer then some { s.goto i (.send sb none) with replies := s.replies ++ [payload] }
        else some { s.goto i (.send sb (some 0)) with refused := s.refused ++ [payload] }
      | _ => none
    | .sent i n =>
      match s.workers[i]? with
      | some (.send sb none) => if s.running then some (s.goto i (.send sb (some n))) else none
      | _ => none
    | .wakeSend i =>
      match s.workers[i]? with
      | some (.send sb res) =>
        if s.stopped then some (s.goto i (.gone none (some sb)))
        else res.map fun n => { s.goto i (if n ≤ 0 then .gone none none else .idle) with sendBufs := s.sendBufs ++ [sb] }
      | _ => none

variable (P) in
/-- `serve_until`, when all workers are active. -/
def init : St H :=
  { running := true, consumer := true, producer := true, stopped := false, recvBufs := List.range P.queueDepth
    sendBufs := List.range P.queueDepth, workers := List.replicate P.queueDepth .idle, inbox := [], replies := []
    received := [], handled := [], dropped := [], refused := [], died := false }

/-! ### The branches of a step -/

variable {s s' : St H} {act : Act H}

variable (P s) in
/-- What a step does, in each of its branches. -/
inductive Moves : Act H → St H → Prop where
  /-- A message of the peer. -/
  | request {m : Bytes} : Moves (.request m) { s with inbox := s.inbox ++ [m] }
  /-- `fn` holds. -/
  | quit : Moves .quit { s with stopped := true }
  /-- The endpoint stops. -/
  | stop : Moves .stop { s with running := false }
  /-- The producer stops. -/
  | stopProducer : Moves .stopProducer { s with producer := false }
  /-- The consumer stops. -/
  | stopConsumer : Moves .stopConsumer { s with consumer := false }
  /-- The process dies. -/
  | die {act : Act H} {i : ℕ} {w : Worker} (hw : s.workers[i]? = some w) (hact : act.worker? = some i) : Moves act s.die
  /-- A receive buffer. -/
  | acquireRecv {i b : ℕ} {bs : List ℕ} (hw : s.workers[i]? = some .idle) (hb : s.recvBufs = b :: bs)
      (hrun : s.running = true) (hfn : s.stopped = false) : Moves (.acquireRecv i) { s.goto i (.post b) with recvBufs := bs }
  /-- The loop ends. -/
  | leave {i : ℕ} (hw : s.workers[i]? = some .idle) : Moves (.leave i) (s.goto i (.gone none none))
  /-- The receive is posted, if the consumer runs. -/
  | postRecv {i b : ℕ} (hw : s.workers[i]? = some (.post b)) :
      Moves (.postRecv i) (s.goto i (.recv b (if s.consumer then none else some (0, []))))
  /-- A message comes in. -/
  | arrive {i k b : ℕ} {m stale : Bytes} (hw : s.workers[i]? = some (.recv b none)) (hm : m ≠ []) (hrun : s.running = true) :
      Moves (.arrive i k stale) { s.goto i (.recv b (some (m.length, m ++ stale))) with
        inbox := s.inbox.eraseIdx k, received := s.received ++ [m ++ stale] }
  /-- The receive fails. -/
  | failRecv {i b : ℕ} {n : ℤ} (hw : s.workers[i]? = some (.recv b none)) (hn : n ≤ 0) (hrun : s.running = true) :
      Moves (.failRecv i n) (s.goto i (.recv b (some (n, []))))
  /-- The worker leaves with its receive buffer. -/
  | quitRecv {i b : ℕ} {res : Option (ℤ × Bytes)} (hw : s.workers[i]? = some (.recv b res)) (hfn : s.stopped = true) :
      Moves (.wakeRecv i) (s.quitRecv i b (.recv b res))
  /-- The worker leaves, as the receive has failed. -/
  | wakeFailed {i b : ℕ} {n : ℤ} {m : Bytes} (hw : s.workers[i]? = some (.recv b (some (n, m)))) (hn : n ≤ 0) :
      Moves (.wakeRecv i) { s.goto i (.gone none none) with recvBufs := s.recvBufs ++ [b] }
  /-- It has a oneway. -/
  | wakeOneway {i b : ℕ} {n : ℤ} {m : Bytes} (hw : s.workers[i]? = some (.recv b (some (n, m)))) (hn : 0 < n)
      (hone : isOneway? P m = some true) : Moves (.wakeRecv i) (s.goto i (.oneway b m))
  /-- It has a call. -/
  | wakeCall {i b : ℕ} {n : ℤ} {m : Bytes} (hw : s.workers[i]? = some (.recv b (some (n, m)))) (hn : 0 < n)
      (hone : isOneway? P m = some false) : Moves (.wakeRecv i) (s.goto i (.acquire b m))
  /-- The handler of a oneway has run. -/
  | runOneway {i b : ℕ} {m : Bytes} {found : H} (hw : s.workers[i]? = some (.oneway b m)) :
      Moves (.runOneway i found)
        { s.goto i .idle with recvBufs := s.recvBufs ++ [b], handled := s.handled ++ [(m, found)] }
  /-- A send buffer. -/
  | acquireSend {i b sb : ℕ} {sbs : List ℕ} {m : Bytes} (hw : s.workers[i]? = some (.acquire b m))
      (hb : s.sendBufs = sb :: sbs) : Moves (.acquireSend i) { s.goto i (.handle b sb m) with sendBufs := sbs }
  /-- The handler of a call has run. -/
  | run {i b sb : ℕ} {m payload : Bytes} {found : H} (hw : s.workers[i]? = some (.handle b sb m))
      (ha : answer P found m = some payload) : Moves (.run i found)
        { s.goto i (.reply sb payload) with recvBufs := s.recvBufs ++ [b], handled := s.handled ++ [(m, found)] }
  /-- The response is posted. -/
  | postSend {i sb : ℕ} {payload : Bytes} (hw : s.workers[i]? = some (.reply sb payload)) (hpro : s.producer = true) :
      Moves (.postSend i) { s.goto i (.send sb none) with replies := s.replies ++ [payload] }
  /-- The response is not posted. -/
  | refuse {i sb : ℕ} {payload : Bytes} (hw : s.workers[i]? = some (.reply sb payload)) :
      Moves (.postSend i) { s.goto i (.send sb (some 0)) with refused := s.refused ++ [payload] }
  /-- The send is done. -/
  | sent {i sb : ℕ} {n : ℤ} (hw : s.workers[i]? = some (.send sb none)) (hrun : s.running = true) :
      Moves (.sent i n) (s.goto i (.send sb (some n)))
  /-- The worker leaves with its send buffer. -/
  | quitSend {i sb : ℕ} {res : Option ℤ} (hw : s.workers[i]? = some (.send sb res)) (hfn : s.stopped = true) :
      Moves (.wakeSend i) (s.goto i (.gone none (some sb)))
  /-- The worker goes on, or leaves as the send has failed. -/
  | wakeSend {i sb : ℕ} {n : ℤ} (hw : s.workers[i]? = some (.send sb (some n))) :
      Moves (.wakeSend i)
        { s.goto i (if n ≤ 0 then .gone none none else .idle) with sendBufs := s.sendBufs ++ [sb] }

/-- The process that has died takes no step. -/
theorem step_died (h : s.died = true) : step P s act = none := by
  unfold step
  exact if_pos h

theorem moves_of_step (hs : step P s act = some s') : Moves P s act s' := by
  have halive : ¬ s.died = true := fun hd => by
    rw [step_died hd] at hs
    cases hs
  unfold step at hs
  rw [if_neg halive] at hs
  cases act with
  | request m =>
    cases hs
    exact .request
  | quit =>
    cases hs
    exact .quit
  | stop =>
    cases hs
    exact .stop
  | stopProducer =>
    simp only at hs
    split_ifs at hs
    cases hs
    exact .stopProducer
  | stopConsumer =>
    simp only at hs
    split_ifs at hs
    cases hs
    exact .stopConsumer
  | acquireRecv i =>
    simp only at hs
    split at hs
    · rename_i b bs hw hb
      split_ifs at hs with hcond
      cases hs
      simp only [Bool.and_eq_true, Bool.not_eq_true'] at hcond
      exact .acquireRecv hw hb hcond.1 hcond.2
    · cases hs
  | leave i =>
    simp only at hs
    split at hs
    · rename_i hw
      split_ifs at hs
      cases hs
      exact .leave hw
    · cases hs
  | postRecv i =>
    simp only at hs
    split at hs
    · rename_i b hw
      cases hs
      exact .postRecv hw
    · cases hs
  | arrive i k stale =>
    simp only at hs
    split at hs
    · rename_i b m hw hk
      split_ifs at hs with hcond
      cases hs
      simp only [Bool.and_eq_true, Bool.not_eq_true', List.isEmpty_eq_false_iff] at hcond
      exact .arrive hw hcond.2 hcond.1
    · cases hs
  | failRecv i n =>
    simp only at hs
    split at hs
    · rename_i b hw
      split_ifs at hs with hcond
      cases hs
      simp only [Bool.and_eq_true, decide_eq_true_eq] at hcond
      exact .failRecv hw hcond.2 hcond.1
    · cases hs
  | wakeRecv i =>
    simp only at hs
    split at hs
    · rename_i b res hw
      split_ifs at hs with hfn
      · cases hs
        exact .quitRecv hw hfn
      · obtain ⟨⟨n, m⟩, rfl, rfl⟩ := Option.map_eq_some_iff.mp hs
        unfold St.wakeRecv
        split_ifs with hn
        · exact .wakeFailed hw hn
        · cases hone : isOneway? P m with
          | none => exact .die hw rfl
          | some o =>
            cases o with
            | true => exact .wakeOneway hw (lt_of_not_ge hn) hone
            | false => exact .wakeCall hw (lt_of_not_ge hn) hone
    · cases hs
  | runOneway i found =>
    simp only at hs
    split at hs
    · rename_i b m hw
      split_ifs at hs
      · cases hs
        exact .runOneway hw
      · cases hs
        exact .die hw rfl
    · cases hs
  | acquireSend i =>
    simp only at hs
    split at hs
    · rename_i b m sb sbs hw hb
      cases hs
      exact .acquireSend hw hb
    · cases hs
  | run i found =>
    simp only at hs
    split at hs
    · rename_i b sb m hw
      split at hs
      · rename_i payload ha
        cases hs
        exact .run hw ha
      · cases hs
        exact .die hw rfl
    · cases hs
  | postSend i =>
    simp only at hs
    split at hs
    · rename_i sb payload hw
      split_ifs at hs with hpro
      · cases hs
        exact .postSend hw hpro
      · cases hs
        exact .refuse hw
    · cases hs
  | sent i n =>
    simp only at hs
    split at hs
    · rename_i sb hw
      split_ifs at hs with hrun
      cases hs
      exact .sent hw hrun
    · cases hs
  | wakeSend i =>
    simp only at hs
    split at hs
    · rename_i sb res hw
      split_ifs at hs with hfn
      · cases hs
        exact .quitSend hw hfn
      · obtain ⟨n, rfl, rfl⟩ := Option.map_eq_some_iff.mp hs
        exact .wakeSend hw
    · cases hs

/-! ### The invariant -/

variable (P) in
/-- The message is of the kind that the worker takes it for. -/
def Worker.Right : Worker → Prop
  | .oneway _ m => isOneway? P m = some true
  | .acquire _ m | .handle _ _ m => isOneway? P m = some false
  | .idle | .post _ | .recv _ _ | .reply _ _ | .send _ _ | .gone _ _ => True

variable (P) in
/-- **The invariant.** -/
structure Inv (s : St H) : Prop where
  /-- A fiber for each buffer. -/
  depth : s.workers.length = P.queueDepth
  /-- The receive buffers are in the pool or with one worker. -/
  recv : Pool.Conserves (List.range P.queueDepth) ⟨s.recvBufs, s.workers.map Worker.recvBuf⟩
  /-- So are the send buffers. -/
  send : Pool.Conserves (List.range P.queueDepth) ⟨s.sendBufs, s.workers.map Worker.sendBuf⟩
  /-- The workers are right about their messages. -/
  right : ∀ w ∈ s.workers, w.Right P
  /-- A request that came in was handled, is with a worker, or was dropped. -/
  requests : ∀ m, s.received.count m =
    (s.handled.map Prod.fst).count m + (s.workers.map fun w => w.request.count m).sum + s.dropped.count m
  /-- A response was posted, is with a worker, or was refused. -/
  responses : ∀ m, (s.handled.filterMap (replyTo P)).count m =
    s.replies.count m + (s.workers.map fun w => w.payload.count m).sum + s.refused.count m
  /-- Unless `fn` holds, no buffer and no request is lost. -/
  clean : s.stopped = false → s.dropped = [] ∧ ∀ rb sb, .gone rb sb ∈ s.workers → rb = none ∧ sb = none

/-- **A worker goes on.** -/
theorem Inv.goto (h : Inv P s) {i : ℕ} {w w' : Worker} (hw : s.workers[i]? = some w) (hs : s'.workers = s.workers.set i w')
    (hrecv : Pool.Hands s.recvBufs w.recvBuf s'.recvBufs w'.recvBuf)
    (hsend : Pool.Hands s.sendBufs w.sendBuf s'.sendBufs w'.sendBuf) (hright : w'.Right P)
    (hreq : ∀ m, s'.received.count m + (s.handled.map Prod.fst).count m + w.request.count m + s.dropped.count m =
      s.received.count m + (s'.handled.map Prod.fst).count m + w'.request.count m + s'.dropped.count m)
    (hres : ∀ m, (s'.handled.filterMap (replyTo P)).count m + s.replies.count m + w.payload.count m + s.refused.count m =
      (s.handled.filterMap (replyTo P)).count m + s'.replies.count m + w'.payload.count m + s'.refused.count m)
    (hclean : s'.stopped = false → s.stopped = false ∧ s'.dropped = s.dropped ∧
      ∀ rb sb, w' = .gone rb sb → rb = none ∧ sb = none) : Inv P s' := by
  have hheld : ∀ (f : Worker → Option ℕ), (s.workers.map f)[i]? = some (f w) := fun f => by
    rw [List.getElem?_map, hw]
    rfl
  refine ⟨?_, ?_, ?_, fun x hx => ?_, fun m => ?_, fun m => ?_, fun hfn => ?_⟩
  · rw [hs, List.length_set]
    exact h.depth
  · rw [hs, List.map_set]
    exact h.recv.hands (hheld _) hrecv
  · rw [hs, List.map_set]
    exact h.send.hands (hheld _) hsend
  · rw [hs] at hx
    rcases List.mem_or_eq_of_mem_set hx with hx | rfl
    · exact h.right x hx
    · exact hright
  · have hsum := sum_map_set (fun w => w.request.count m) hw w'
    have hold := h.requests m
    have hnew := hreq m
    rw [hs]
    omega
  · have hsum := sum_map_set (fun w => w.payload.count m) hw w'
    have hold := h.responses m
    have hnew := hres m
    rw [hs]
    omega
  · obtain ⟨hfn', hdropped, hgone⟩ := hclean hfn
    obtain ⟨hnone, hall⟩ := h.clean hfn'
    refine ⟨hdropped.trans hnone, fun rb sb hmem => ?_⟩
    rw [hs] at hmem
    rcases List.mem_or_eq_of_mem_set hmem with hmem | heq
    · exact hall rb sb hmem
    · exact hgone rb sb heq.symm

theorem inv_init : Inv P (init P) := by
  refine ⟨List.length_replicate, ?_, ?_, ?_, fun m => ?_, fun m => ?_, fun _ => ⟨rfl, ?_⟩⟩
  · rw [init, List.map_replicate]
    exact Pool.conserves_new _ _
  · rw [init, List.map_replicate]
    exact Pool.conserves_new _ _
  · intro w hw
    rw [List.eq_of_mem_replicate hw]
    trivial
  · simp [init, Worker.request]
  · simp [init, Worker.payload]
  · intro rb sb hmem
    cases List.eq_of_mem_replicate hmem

/-- A worker that has not left leaves nothing behind. -/
theorem clean_of_not_gone {w : Worker} (hw : w.isGone = false) (rb sb : Option ℕ) (heq : w = .gone rb sb) :
    rb = none ∧ sb = none := by
  rw [heq] at hw
  cases hw

theorem Inv.step (h : Inv P s) (hs : step P s act = some s') : Inv P s' := by
  have hone : ∀ {i : ℕ} {w : Worker}, s.workers[i]? = some w → w.Right P := fun hw => h.right _ (List.mem_of_getElem? hw)
  cases moves_of_step hs with
  | request => exact ⟨h.depth, h.recv, h.send, h.right, h.requests, h.responses, h.clean⟩
  | quit => exact ⟨h.depth, h.recv, h.send, h.right, h.requests, h.responses, fun hfn => by cases hfn⟩
  | stop => exact ⟨h.depth, h.recv, h.send, h.right, h.requests, h.responses, h.clean⟩
  | stopProducer => exact ⟨h.depth, h.recv, h.send, h.right, h.requests, h.responses, h.clean⟩
  | stopConsumer => exact ⟨h.depth, h.recv, h.send, h.right, h.requests, h.responses, h.clean⟩
  | die hw => exact ⟨h.depth, h.recv, h.send, h.right, h.requests, h.responses, h.clean⟩
  | acquireRecv hw hb =>
    refine h.goto hw rfl ?_ .keep trivial (fun m => rfl) (fun m => rfl) fun hfn => ⟨hfn, rfl, clean_of_not_gone rfl⟩
    rw [hb]
    exact .take
  | leave hw =>
    refine h.goto hw rfl .keep .keep trivial (fun m => rfl) (fun m => rfl) fun hfn => ⟨hfn, rfl, ?_⟩
    rintro rb sb ⟨⟩
    exact ⟨rfl, rfl⟩
  | postRecv hw =>
    refine h.goto hw rfl .keep .keep trivial (fun m => ?_) (fun m => rfl) fun hfn => ⟨hfn, rfl, clean_of_not_gone rfl⟩
    cases hc : s.consumer <;> simp [St.goto, Worker.request, hc]
  | arrive hw hm =>
    refine h.goto hw rfl .keep .keep trivial (fun m => ?_) (fun m => rfl) fun hfn => ⟨hfn, rfl, clean_of_not_gone rfl⟩
    have hpos := List.length_pos_iff.mpr hm
    simp [St.goto, Worker.request, hpos]
    omega
  | failRecv hw hn =>
    refine h.goto hw rfl .keep .keep trivial (fun m => ?_) (fun m => rfl) fun hfn => ⟨hfn, rfl, clean_of_not_gone rfl⟩
    simp [St.goto, Worker.request, not_lt.mpr hn]
  | quitRecv hw hfn =>
    refine h.goto hw rfl .keep .keep trivial (fun m => ?_) (fun m => rfl) fun hfn' => absurd (hfn.symm.trans hfn') (by decide)
    simp [St.quitRecv, St.goto, Worker.request]
    omega
  | wakeFailed hw hn =>
    refine h.goto hw rfl .put .keep trivial (fun m => ?_) (fun m => rfl) fun hfn => ⟨hfn, rfl, ?_⟩
    · simp [St.goto, Worker.request, not_lt.mpr hn]
    · rintro rb sb ⟨⟩
      exact ⟨rfl, rfl⟩
  | wakeOneway hw hn hk =>
    refine h.goto hw rfl .keep .keep hk (fun m => ?_) (fun m => rfl) fun hfn => ⟨hfn, rfl, clean_of_not_gone rfl⟩
    simp [St.goto, Worker.request, hn]
  | wakeCall hw hn hk =>
    refine h.goto hw rfl .keep .keep hk (fun m => ?_) (fun m => rfl) fun hfn => ⟨hfn, rfl, clean_of_not_gone rfl⟩
    simp [St.goto, Worker.request, hn]
  | runOneway hw =>
    refine h.goto hw rfl .put .keep trivial (fun m => ?_) (fun m => ?_) fun hfn => ⟨hfn, rfl, clean_of_not_gone rfl⟩
    · simp [St.goto, Worker.request]
      omega
    · have hno : isOneway? P _ = some true := hone hw
      simp [St.goto, Worker.payload, replyTo, hno, List.filterMap_append]
  | acquireSend hw hb =>
    have hcall := hone hw
    refine h.goto hw rfl .keep ?_ hcall (fun m => rfl) (fun m => rfl) fun hfn => ⟨hfn, rfl, clean_of_not_gone rfl⟩
    rw [hb]
    exact .take
  | run hw ha =>
    refine h.goto hw rfl .put .keep trivial (fun m => ?_) (fun m => ?_) fun hfn => ⟨hfn, rfl, clean_of_not_gone rfl⟩
    · simp [St.goto, Worker.request]
      omega
    · have hcall : isOneway? P _ = some false := hone hw
      simp [St.goto, Worker.payload, replyTo, hcall, ha, List.filterMap_append]
      omega
  | postSend hw hpro =>
    refine h.goto hw rfl .keep .keep trivial (fun m => rfl) (fun m => ?_) fun hfn => ⟨hfn, rfl, clean_of_not_gone rfl⟩
    simp [St.goto, Worker.payload]
    omega
  | refuse hw =>
    refine h.goto hw rfl .keep .keep trivial (fun m => rfl) (fun m => ?_) fun hfn => ⟨hfn, rfl, clean_of_not_gone rfl⟩
    simp [St.goto, Worker.payload]
    omega
  | sent hw =>
    exact h.goto hw rfl .keep .keep trivial (fun m => rfl) (fun m => rfl) fun hfn => ⟨hfn, rfl, clean_of_not_gone rfl⟩
  | quitSend hw hfn =>
    exact h.goto hw rfl .keep .keep trivial (fun m => rfl) (fun m => rfl) fun hfn' => absurd (hfn.symm.trans hfn') (by decide)
  | wakeSend hw =>
    rename_i i sb n
    by_cases hn : n ≤ 0
    · simp only [hn, if_true]
      refine h.goto hw rfl .keep .put trivial (fun m => rfl) (fun m => rfl) fun hfn => ⟨hfn, rfl, ?_⟩
      rintro rb sb ⟨⟩
      exact ⟨rfl, rfl⟩
    · simp only [hn, if_false]
      exact h.goto hw rfl .keep .put trivial (fun m => rfl) (fun m => rfl) fun hfn => ⟨hfn, rfl, clean_of_not_gone rfl⟩

/-- A worker that needs a receive buffer finds one. -/
theorem Inv.exists_recvBuf (h : Inv P s) {w : Worker} (hw : w ∈ s.workers) (hnone : w.recvBuf = none) :
    ∃ b bs, s.recvBufs = b :: bs := by
  obtain ⟨i, hi⟩ := List.getElem?_of_mem hw
  refine h.recv.exists_free (i := i) ?_ ?_
  · rw [List.length_map, List.length_range, h.depth]
  · rw [List.getElem?_map, hi, ← hnone]
    rfl

theorem Inv.exists_sendBuf (h : Inv P s) {w : Worker} (hw : w ∈ s.workers) (hnone : w.sendBuf = none) :
    ∃ b bs, s.sendBufs = b :: bs := by
  obtain ⟨i, hi⟩ := List.getElem?_of_mem hw
  refine h.send.exists_free (i := i) ?_ ?_
  · rw [List.length_map, List.length_range, h.depth]
  · rw [List.getElem?_map, hi, ← hnone]
    rfl

variable (P) in
/-- What a transport that serves does. -/
structure Served (s : St H) : Prop where
  /-- Every receive buffer is in the pool or with one worker. -/
  recvBufs : (s.recvBufs ++ s.workers.filterMap Worker.recvBuf).Perm (List.range P.queueDepth)
  /-- So is every send buffer. -/
  sendBufs : (s.sendBufs ++ s.workers.filterMap Worker.sendBuf).Perm (List.range P.queueDepth)
  /-- A worker that has no buffer finds one. -/
  finds : ∀ w ∈ s.workers, (w.recvBuf = none → s.recvBufs ≠ []) ∧ (w.sendBuf = none → s.sendBufs ≠ [])
  /-- Every request that came in was handled once, is with one worker, or was dropped. -/
  requests : s.received.Perm (s.handled.map Prod.fst ++ s.workers.flatMap Worker.request ++ s.dropped)
  /-- The responses to the requests that were handled are posted once, with one worker, or refused by the endpoint. -/
  responses : (s.handled.filterMap (replyTo P)).Perm (s.replies ++ s.workers.flatMap Worker.payload ++ s.refused)
  /-- Unless `fn` holds, nothing is dropped, and a worker that leaves releases its buffers. -/
  clean : s.stopped = false → s.dropped = [] ∧ ∀ rb sb, .gone rb sb ∈ s.workers → rb = none ∧ sb = none

/-- **Every request is served at most once**, and there is a buffer for every worker that needs one, in every run. -/
theorem served_of_run (acts : List (Act H)) (s : St H) (hr : run (step P) (init P) acts = some s) : Served P s := by
  have h : Inv P s := inv_of_run (fun _ _ _ h hs => h.step hs) inv_init hr
  refine ⟨?_, ?_, fun w hw => ⟨fun hnone => ?_, fun hnone => ?_⟩, ?_, ?_, h.clean⟩
  · have hperm := h.recv
    rw [Pool.Conserves, List.reduceOption, List.filterMap_map] at hperm
    exact hperm
  · have hperm := h.send
    rw [Pool.Conserves, List.reduceOption, List.filterMap_map] at hperm
    exact hperm
  · obtain ⟨b, bs, hb⟩ := h.exists_recvBuf hw hnone
    rw [hb]
    exact List.cons_ne_nil b bs
  · obtain ⟨b, bs, hb⟩ := h.exists_sendBuf hw hnone
    rw [hb]
    exact List.cons_ne_nil b bs
  · refine List.perm_iff_count.mpr fun m => ?_
    rw [List.count_append, List.count_append, List.count_flatMap]
    exact h.requests m
  · refine List.perm_iff_count.mpr fun m => ?_
    rw [List.count_append, List.count_append, List.count_flatMap]
    exact h.responses m

/-- A call of `MountRpc` comes in on the first of two receives, is answered, and its worker is ready for the next. -/
def oneMount : List (Act Unit) :=
  [.request (requestBytes diskService .mount 3#64 1), .acquireRecv 0, .postRecv 0, .acquireRecv 1, .postRecv 1,
    .arrive 0 0 [7], .wakeRecv 0, .acquireSend 0, .run 0 (), .postSend 0, .sent 0 20, .wakeSend 0]

theorem served_of_run_oneMount :
    ∃ s, run (step diskService) (init diskService) oneMount = some s ∧ s.workers = [.idle, .recv 1 none] ∧
      s.replies.length = 1 ∧ Served diskService s := by
  have hrun : ((run (step diskService) (init diskService) oneMount).map fun s =>
      decide (s.workers = [.idle, .recv 1 none] ∧ s.replies.length = 1)) = some true := by decide
  obtain ⟨s, hs, hsum⟩ := Option.map_eq_some_iff.mp hrun
  obtain ⟨hw, hr⟩ := of_decide_eq_true hsum
  exact ⟨s, hs, hw, hr, served_of_run oneMount s hs⟩

/-! ### The end -/

/-- `fn` holds, or the endpoint has stopped with its contexts. -/
def St.Closing (s : St H) : Prop := s.stopped = true ∨ s.running = false ∧ s.consumer = false ∧ s.producer = false

/-- The steps that a worker still has before it, when no receive is posted any more. -/
def Worker.rank : Worker → ℕ
  | .post _ => 9
  | .recv _ none => 8
  | .recv _ (some _) => 7
  | .acquire _ _ => 6
  | .handle _ _ _ => 5
  | .reply _ _ => 4
  | .send _ none => 3
  | .send _ (some _) => 2
  | .oneway _ _ => 2
  | .idle => 1
  | .gone _ _ => 0

/-- The steps that all workers have before them; the process may die in one more. -/
def St.workLeft (s : St H) : ℕ := (s.workers.map Worker.rank).sum + (!s.died).toNat

theorem Closing.step (hc : s.Closing) (hs : step P s act = some s') : s'.Closing := by
  unfold St.Closing at hc ⊢
  cases moves_of_step hs with
  | quit => exact Or.inl rfl
  | stop => exact hc.imp_right fun hclosed => ⟨rfl, hclosed.2⟩
  | stopProducer => exact hc.imp_right fun hclosed => ⟨hclosed.1, hclosed.2.1, rfl⟩
  | stopConsumer => exact hc.imp_right fun hclosed => ⟨hclosed.1, rfl, hclosed.2.2⟩
  | request | die | acquireRecv | leave | postRecv | arrive | failRecv | quitRecv | wakeFailed | wakeOneway | wakeCall
  | runOneway | acquireSend | run | postSend | refuse | sent | quitSend | wakeSend => exact hc

/-- A worker that goes on takes one of its steps. -/
theorem workLeft_goto {i : ℕ} {w w' : Worker} (hw : s.workers[i]? = some w) (hs : s'.workers = s.workers.set i w')
    (hd : s'.died = s.died) (hlt : w'.rank < w.rank) : s'.workLeft + 1 ≤ s.workLeft := by
  have hsum := sum_map_set Worker.rank hw w'
  unfold St.workLeft
  rw [hs, hd]
  omega

/-- **Every step of a worker is one of those that it has before it.** -/
theorem workLeft_step (hc : s.Closing) (hs : step P s act = some s') :
    s'.workLeft + (if act.worker?.isSome then 1 else 0) ≤ s.workLeft := by
  have halive : s.died = false := by
    by_contra hd
    rw [step_died (by simpa using hd)] at hs
    cases hs
  cases moves_of_step hs with
  | request | quit | stop | stopProducer | stopConsumer => exact Nat.le_refl _
  | die hw hact =>
    rw [hact]
    simp [St.workLeft, St.die, halive]
  | acquireRecv hw hb hrun hfn =>
    rcases hc with hc | hc
    · exact absurd (hc.symm.trans hfn) (by decide)
    · exact absurd (hrun.symm.trans hc.1) (by decide)
  | leave hw => exact workLeft_goto hw rfl rfl (by decide)
  | postRecv hw =>
    refine workLeft_goto hw rfl rfl ?_
    cases s.consumer <;> simp [Worker.rank]
  | arrive hw => exact workLeft_goto hw rfl rfl (by simp [Worker.rank])
  | failRecv hw => exact workLeft_goto hw rfl rfl (by simp [Worker.rank])
  | quitRecv hw =>
    rename_i res _
    refine workLeft_goto hw rfl rfl ?_
    cases res <;> simp [Worker.rank]
  | wakeFailed hw => exact workLeft_goto hw rfl rfl (by simp [Worker.rank])
  | wakeOneway hw => exact workLeft_goto hw rfl rfl (by simp [Worker.rank])
  | wakeCall hw => exact workLeft_goto hw rfl rfl (by simp [Worker.rank])
  | runOneway hw => exact workLeft_goto hw rfl rfl (by simp [Worker.rank])
  | acquireSend hw => exact workLeft_goto hw rfl rfl (by simp [Worker.rank])
  | run hw => exact workLeft_goto hw rfl rfl (by simp [Worker.rank])
  | postSend hw => exact workLeft_goto hw rfl rfl (by simp [Worker.rank])
  | refuse hw => exact workLeft_goto hw rfl rfl (by simp [Worker.rank])
  | sent hw => exact workLeft_goto hw rfl rfl (by simp [Worker.rank])
  | quitSend hw =>
    rename_i res _
    refine workLeft_goto hw rfl rfl ?_
    cases res <;> simp [Worker.rank]
  | wakeSend hw =>
    refine workLeft_goto hw rfl rfl ?_
    split_ifs <;> simp [Worker.rank]

/-- A worker that waits as before. -/
theorem waits_goto {i : ℕ} {w w' : Worker} (hw : s.workers[i]? = some w) (heq : w'.waits = w.waits) :
    (s.goto i w').workers.map Worker.waits = s.workers.map Worker.waits := by
  obtain ⟨hlt, rfl⟩ := List.getElem?_eq_some_iff.mp hw
  rw [St.goto, List.map_set, heq, ← List.getElem_map Worker.waits (h := by rw [List.length_map]; exact hlt),
    List.set_getElem_self]

/-- **Who waits for an endpoint that has stopped, waits for ever**, and no other worker comes to wait. -/
theorem waits_step (hc : s.Closing) (hfn : s'.stopped = false) (hs : step P s act = some s') :
    s.stopped = false ∧ s'.workers.map Worker.waits = s.workers.map Worker.waits := by
  have hclosed : s.stopped = false → s.running = false ∧ s.consumer = false ∧ s.producer = false := fun h =>
    hc.resolve_left fun h' => absurd (h'.symm.trans h) (by decide)
  cases moves_of_step hs with
  | quit => cases hfn
  | request | stop | stopProducer | stopConsumer | die => exact ⟨hfn, rfl⟩
  | acquireRecv hw hb hrun => exact absurd (hrun.symm.trans (hclosed hfn).1) (by decide)
  | leave hw => exact ⟨hfn, waits_goto hw rfl⟩
  | postRecv hw =>
    refine ⟨hfn, waits_goto hw ?_⟩
    rw [(hclosed hfn).2.1]
    rfl
  | arrive hw hm hrun => exact absurd (hrun.symm.trans (hclosed hfn).1) (by decide)
  | failRecv hw hn hrun => exact absurd (hrun.symm.trans (hclosed hfn).1) (by decide)
  | quitRecv hw h => exact absurd (h.symm.trans hfn) (by decide)
  | wakeFailed hw => exact ⟨hfn, waits_goto hw rfl⟩
  | wakeOneway hw => exact ⟨hfn, waits_goto hw rfl⟩
  | wakeCall hw => exact ⟨hfn, waits_goto hw rfl⟩
  | runOneway hw => exact ⟨hfn, waits_goto hw rfl⟩
  | acquireSend hw => exact ⟨hfn, waits_goto hw rfl⟩
  | run hw => exact ⟨hfn, waits_goto hw rfl⟩
  | postSend hw hpro => exact absurd (hpro.symm.trans (hclosed hfn).2.2) (by decide)
  | refuse hw => exact ⟨hfn, waits_goto hw rfl⟩
  | sent hw hrun => exact absurd (hrun.symm.trans (hclosed hfn).1) (by decide)
  | quitSend hw h => exact absurd (h.symm.trans hfn) (by decide)
  | wakeSend hw =>
    refine ⟨hfn, waits_goto hw ?_⟩
    split_ifs <;> rfl

/-- A worker that has not left, and does not wait for the endpoint, can take a step. -/
theorem Inv.can_step (h : Inv P s) (hc : s.Closing) (hd : s.died = false) {i : ℕ} {w : Worker}
    (hw : s.workers[i]? = some w) (hgone : w.isGone = false) (hwait : s.stopped = true ∨ w.waits = false) (found : H) :
    ∃ act : Act H, act.worker? = some i ∧ (Serve.step P s act).isSome = true := by
  cases w with
  | idle =>
    refine ⟨.leave i, rfl, ?_⟩
    rcases hc with hfn | ⟨hrun, -, -⟩
    · simp [Serve.step, hd, hw, hfn]
    · simp [Serve.step, hd, hw, hrun]
  | post b => exact ⟨.postRecv i, rfl, by simp [Serve.step, hd, hw]⟩
  | recv b res =>
    refine ⟨.wakeRecv i, rfl, ?_⟩
    rcases hwait with hfn | hwait
    · simp [Serve.step, hd, hw, hfn]
    · cases res with
      | none => cases hwait
      | some res => by_cases hfn : s.stopped = true <;> simp [Serve.step, hd, hw, hfn]
  | oneway b m =>
    refine ⟨.runOneway i found, rfl, ?_⟩
    by_cases hrun : runOneway P found m = true <;> simp [Serve.step, hd, hw, hrun]
  | acquire b m =>
    obtain ⟨sb, sbs, hsb⟩ := h.exists_sendBuf (List.mem_of_getElem? hw) rfl
    exact ⟨.acquireSend i, rfl, by simp [Serve.step, hd, hw, hsb]⟩
  | handle b sb m =>
    refine ⟨.run i found, rfl, ?_⟩
    cases ha : answer P found m <;> simp [Serve.step, hd, hw, ha]
  | reply sb payload =>
    refine ⟨.postSend i, rfl, ?_⟩
    by_cases hpro : s.producer = true <;> simp [Serve.step, hd, hw, hpro]
  | send sb res =>
    refine ⟨.wakeSend i, rfl, ?_⟩
    rcases hwait with hfn | hwait
    · simp [Serve.step, hd, hw, hfn]
    · cases res with
      | none => cases hwait
      | some n => by_cases hfn : s.stopped = true <;> simp [Serve.step, hd, hw, hfn]
  | gone rb sb => cases hgone

variable (P) in
/-- What becomes of the workers when in state `s` `fn` holds or the endpoint has stopped, and the steps `later` lead to `s'`. -/
structure Closes (s : St H) (later : List (Act H)) (s' : St H) : Prop where
  /-- There is an end. -/
  bound : later.countP (fun act => act.worker?.isSome) ≤ s.workLeft
  /-- Unless `fn` holds, those who wait for the endpoint are the same as before. -/
  stuck : s'.stopped = false → s'.workers.map Worker.waits = s.workers.map Worker.waits
  /-- When no worker can go on, `serve_until` returns exactly if `fn` holds or none waited for the endpoint. -/
  returns : s'.died = false → (∀ act : Act H, act.worker?.isSome = true → step P s' act = none) →
    ((∀ w ∈ s'.workers, w.isGone = true) ↔ s'.stopped = true ∨ ∀ w ∈ s.workers, w.waits = false)

/-- **When `serve_until` returns**: after `fn` holds, or the endpoint has stopped, in every run. -/
theorem closes_of_run [Inhabited H] (acts later : List (Act H)) (s s' : St H) (hr : run (step P) (init P) acts = some s)
    (hc : s.Closing) (hl : run (step P) s later = some s') : Closes P s later s' := by
  have hinv : Inv P s := inv_of_run (fun _ _ _ h hs => h.step hs) inv_init hr
  have hclosing : ∀ (a : St H) (act : Act H) (a' : St H), a.Closing → step P a act = some a' → a'.Closing :=
    fun _ _ _ h hs => Closing.step h hs
  have hstuck : s'.stopped = false → s'.workers.map Worker.waits = s.workers.map Worker.waits := by
    have hstep : ∀ (a : St H) (act : Act H) (a' : St H),
        (a.Closing ∧ (a.stopped = false → a.workers.map Worker.waits = s.workers.map Worker.waits)) →
        step P a act = some a' →
        a'.Closing ∧ (a'.stopped = false → a'.workers.map Worker.waits = s.workers.map Worker.waits) := by
      rintro a act a' ⟨hca, hwaits⟩ hs
      refine ⟨Closing.step hca hs, fun hfn => ?_⟩
      obtain ⟨hfn', heq⟩ := waits_step hca hfn hs
      exact heq.trans (hwaits hfn')
    exact (inv_of_run hstep ⟨hc, fun _ => rfl⟩ hl).2
  refine ⟨?_, hstuck, fun hd hend => ?_⟩
  · have hused := countP_le hclosing (fun _ _ _ h hs => workLeft_step h hs) hc hl
    omega
  · have hinv' : Inv P s' := inv_of_run (fun _ _ _ h hs => h.step hs) hinv hl
    have hc' : s'.Closing := inv_of_run hclosing hc hl
    constructor
    · intro hall
      cases hfn : s'.stopped with
      | true => exact Or.inl rfl
      | false =>
        refine Or.inr fun w hw => ?_
        have hmem : w.waits ∈ s'.workers.map Worker.waits := (hstuck hfn) ▸ List.mem_map_of_mem hw
        obtain ⟨x, hx, heq⟩ := List.mem_map.mp hmem
        have hgone := hall x hx
        rw [← heq]
        cases x <;> first | rfl | cases hgone
    · intro hfree w hw
      obtain ⟨i, hi⟩ := List.getElem?_of_mem hw
      by_contra hgone
      have hwait : s'.stopped = true ∨ w.waits = false := by
        cases hfn : s'.stopped with
        | true => exact Or.inl rfl
        | false =>
          refine Or.inr ?_
          have hmem : w.waits ∈ s.workers.map Worker.waits := (hstuck hfn) ▸ List.mem_map_of_mem hw
          obtain ⟨x, hx, heq⟩ := List.mem_map.mp hmem
          rw [← heq]
          exact hfree.resolve_left (by rw [hfn]; decide) x hx
      obtain ⟨act, hact, hsome⟩ := hinv'.can_step hc' hd hi (by simpa using hgone) hwait default
      rw [hend act (by rw [hact]; rfl)] at hsome
      cases hsome

/-- The endpoint stops behind the call: the first worker leaves, and the second one waits for ever. -/
theorem closes_of_run_oneMount :
    ∃ s s', run (step diskService) (init diskService) (oneMount ++ [.stop, .stopProducer, .stopConsumer]) = some s ∧
      s.Closing ∧ run (step diskService) s [.leave 0] = some s' ∧ s'.workers = [.gone none none, .recv 1 none] ∧
      Closes diskService s [.leave 0] s' := by
  have hrun : ((run (step diskService) (init diskService) (oneMount ++ [.stop, .stopProducer, .stopConsumer])).bind fun s =>
      (run (step diskService) s [.leave 0]).map fun s' => decide ((s.running = false ∧ s.consumer = false ∧
        s.producer = false) ∧ s'.workers = [.gone none none, .recv 1 none])) = some true := by decide
  obtain ⟨s, hs, hrest⟩ := Option.bind_eq_some_iff.mp hrun
  obtain ⟨s', hs', hsum⟩ := Option.map_eq_some_iff.mp hrest
  obtain ⟨hclosed, hw⟩ := of_decide_eq_true hsum
  exact ⟨s, s', hs, Or.inr hclosed, hs', hw, closes_of_run _ _ s s' hs (Or.inr hclosed) hs'⟩

end DShuffle.Trans.Serve
