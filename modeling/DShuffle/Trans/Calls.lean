import DShuffle.Trans.Transport

/-!
# Responses reach their callers

## What is proved

* `answered_of_run` — in every run with fewer than `2 ^ 32` calls and oneways, the
  promise of a call is set at most once, with a response of the call's own type that
  the handler returned for the call's own request; a response that has come in is
  given to the call whose number it carries; and `outstanding_rpcs` holds exactly the
  calls that were not answered.
-/

namespace DShuffle.Trans.Transport

open Base

variable {R H : Type} {P : Service R H}

/-! ### The headers of messages -/

variable (P) in
/-- The number of a message, unless it is a oneway. -/
def seq? (m : Bytes) : Option (BitVec 32) :=
  (P.header.get m).bind fun x => if x.1.isOnewayReq then none else some x.1.seq

theorem get_request (r : R) (req : P.Req r) (q : BitVec 32) (rest : Bytes) :
    P.header.get (requestBytes P r req q ++ rest) =
      some ((((if P.isOneway r then PayloadHeader.new.asOnewayReq else PayloadHeader.new).withSeq q).withId (P.id r)),
        (P.req r).put req ++ rest) := by
  rw [requestBytes, List.append_assoc, P.header.get_put]

theorem get_reply (r : R) (resp : P.Resp r) (q : BitVec 32) (id : BitVec 64) (rest : Bytes) :
    P.header.get (replyBytes P r resp q id ++ rest) =
      some ((PayloadHeader.new.asResp.withSeq q).withId id, (P.resp r).put resp ++ rest) := by
  rw [replyBytes, List.append_assoc, P.header.get_put]

theorem seq?_request {r : R} (hr : P.isOneway r = false) (req : P.Req r) (q : BitVec 32) (rest : Bytes) :
    seq? P (requestBytes P r req q ++ rest) = some q := by
  rw [seq?, get_request, hr]
  simp

theorem seq?_oneway {r : R} (hr : P.isOneway r = true) (req : P.Req r) (q : BitVec 32) (rest : Bytes) :
    seq? P (requestBytes P r req q ++ rest) = none := by
  rw [seq?, get_request, hr]
  simp

theorem seq?_reply (r : R) (resp : P.Resp r) (q : BitVec 32) (id : BitVec 64) (rest : Bytes) :
    seq? P (replyBytes P r resp q id ++ rest) = some q := by
  rw [seq?, get_reply]
  simp

/-! ### The RPC with an id -/

theorem pick_eq_some {rpcs : List R} {r r' : R} (hid : Function.Injective P.id) (h : pick P rpcs (P.id r) = some r') :
    r' = r := by
  have hp := List.find?_some h
  exact hid (by simpa using hp)

theorem pick_of_mem {r : R} (hid : Function.Injective P.id) (hr : r ∈ normalRpcs P P.rpcs) :
    pick P P.rpcs (P.id r) = some r := by
  cases hp : pick P P.rpcs (P.id r) with
  | some r' => rw [pick_eq_some hid hp]
  | none =>
    have hno := List.find?_eq_none.mp hp r hr
    simp at hno

/-! ### What holds in every state -/

/-- It has no number yet. -/
def Fiber.unnumbered : Fiber P → Bool
  | .recvBuffer _ _ => true
  | .recvPost _ _ _ => true
  | .sendBuffer _ _ => true
  | _ => false

/-- The number of a message that is not posted. -/
def Fiber.seq? : Fiber P → Option (BitVec 32)
  | .sendPost _ _ _ q => some q
  | _ => none

/-- Its receive is posted, and its request is not. -/
def Fiber.expecting : Fiber P → Bool
  | .sendBuffer r _ => !P.isOneway r
  | .sendPost r _ _ _ => !P.isOneway r
  | _ => false

/-- It calls an RPC of the transport. -/
def Fiber.Valid : Fiber P → Prop
  | .recvBuffer r _ => r ∈ normalRpcs P P.rpcs
  | .recvPost r _ _ => r ∈ normalRpcs P P.rpcs
  | .sendBuffer r _ => P.isOneway r = false → r ∈ normalRpcs P P.rpcs
  | .sendPost r _ _ _ => P.isOneway r = false → r ∈ normalRpcs P P.rpcs
  | .sendWait _ _ _ => True

/-- The calls that were made. -/
def St.calls (s : St P) : List (Call P) := s.contexts.map RpcContext.call

/-- The numbers of the calls, and of the messages that are not posted. -/
def St.numbers (s : St P) : List (BitVec 32) := s.calls.map Call.seq ++ s.fibers.filterMap Fiber.seq?

/-- The numbers of the calls that are in flight. -/
def St.flight (s : St P) : List (BitVec 32) := (s.requests ++ (s.replies ++ s.received.map Prod.snd)).filterMap (seq? P)

/-- The handler returned the response for the call. -/
def Call.Handled (c : Call P) (handled : List (BitVec 32 × H)) (resp : P.Resp c.rpc) : Prop :=
  ∃ found, (c.seq, found) ∈ handled ∧ P.handler found c.rpc c.req = some resp

/-- `n` numbers were taken. -/
structure Numbered (s : St P) (n : ℕ) : Prop where
  /-- The next number. -/
  current : s.currentSeq = BitVec.ofNat 32 (n + 1)
  /-- Who has no number will take one. -/
  count : n + s.fibers.countP Fiber.unnumbered = s.invoked
  /-- Everyone has his own. -/
  nodup : s.numbers.Nodup
  /-- They were taken. -/
  below : ∀ q ∈ s.numbers, q.toNat ≤ n

/-- The contexts and the table. -/
structure Table (s : St P) : Prop where
  /-- The table has the calls that were not answered. -/
  outstanding : ∀ q k, (q, k) ∈ s.outstandingRpcs ↔ ∃ c, s.contexts[k]? = some c ∧ c.call.seq = q ∧ c.values = []
  /-- The others have the response of their handler. -/
  values : ∀ c ∈ s.contexts, c.values = [] ∨ ∃ resp, c.values = [⟨c.call.rpc, resp⟩] ∧ c.call.Handled s.handled resp
  /-- The calls are of the transport's RPCs. -/
  rpcs : ∀ c ∈ s.calls, c.rpc ∈ normalRpcs P P.rpcs

/-- The messages. -/
structure Messages (s : St P) : Prop where
  /-- A request is a oneway or that of a call. -/
  requests : ∀ m ∈ s.requests, seq? P m = none ∨ ∃ c ∈ s.calls, ∃ rest, m = requestBytes P c.rpc c.req c.seq ++ rest
  /-- A response is what the handler returned for a call. -/
  replies : ∀ m ∈ s.replies ++ s.received.map Prod.snd, ∃ c ∈ s.calls, ∃ resp rest, c.Handled s.handled resp ∧
    m = replyBytes P c.rpc resp c.seq (P.id c.rpc) ++ rest
  /-- A call is in flight once. -/
  nodup : s.flight.Nodup
  /-- It was not answered. -/
  isOpen : ∀ q ∈ s.flight, ∃ k, (q, k) ∈ s.outstandingRpcs
  /-- A call is handled once. -/
  once : (s.handled.map Prod.fst ++ s.requests.filterMap (seq? P)).Nodup
  /-- What is handled is a call. -/
  handled : ∀ q ∈ s.handled.map Prod.fst, ∃ c ∈ s.calls, c.seq = q

/-- What holds in every state. -/
structure Inv (s : St P) : Prop where
  /-- The numbers. -/
  numbered : ∃ n, Numbered s n
  /-- The contexts and the table. -/
  table : Table s
  /-- The messages. -/
  messages : Messages s
  /-- The fibers call RPCs of the transport. -/
  fibers : ∀ f ∈ s.fibers, f.Valid
  /-- There is a receive for every call in flight. -/
  room : s.flight.length + (if s.running then s.fibers.countP Fiber.expecting else 0) ≤ s.posted.length + s.received.length
  /-- Nothing goes wrong, but that receives fail on an endpoint that has stopped. -/
  faults : ∀ f ∈ s.faults, f = .recv

theorem inv_init : Inv (init P) where
  numbered := ⟨0, rfl, rfl, List.nodup_nil, fun _ h => absurd h List.not_mem_nil⟩
  table :=
    { outstanding := fun q k => ⟨fun h => absurd h List.not_mem_nil, fun ⟨c, hc, _⟩ => by cases hc⟩
      values := fun _ h => absurd h List.not_mem_nil
      rpcs := fun _ h => absurd h List.not_mem_nil }
  messages :=
    { requests := fun _ h => absurd h List.not_mem_nil
      replies := fun _ h => absurd h List.not_mem_nil
      nodup := List.nodup_nil
      isOpen := fun _ h => absurd h List.not_mem_nil
      once := List.nodup_nil
      handled := fun _ h => absurd h List.not_mem_nil }
  fibers _ h := absurd h List.not_mem_nil
  room := Nat.le_refl 0
  faults _ h := absurd h List.not_mem_nil

variable {s s' : St P} {i : ℕ} {f f' : Fiber P} {n : ℕ}

/-! ### Steps of the fibers -/

theorem countP_take (p : Fiber P → Bool) (hf : s.fibers[i]? = some f) :
    s.fibers.countP p = (s.fibers.eraseIdx i).countP p + if p f then 1 else 0 := by
  rw [(perm_eraseIdx hf).countP_eq, List.countP_cons]

theorem numbers_take (hf : s.fibers[i]? = some f) :
    s.numbers.Perm (s.calls.map Call.seq ++ (f :: s.fibers.eraseIdx i).filterMap Fiber.seq?) :=
  ((perm_eraseIdx hf).filterMap _).append_left _

theorem valid_of_mem_eraseIdx (h : Inv s) (hf' : f'.Valid) : ∀ f ∈ f' :: s.fibers.eraseIdx i, f.Valid := by
  intro f hf
  rcases List.mem_cons.mp hf with rfl | hf
  · exact hf'
  · exact h.fibers f (List.mem_of_mem_eraseIdx hf)

theorem valid_of_get (h : Inv s) (hf : s.fibers[i]? = some f) : f.Valid := h.fibers f (List.mem_of_getElem? hf)

/-- No number is taken. -/
theorem Numbered.of_perm (h : Numbered s n) (hp : s'.numbers.Perm s.numbers) (hc : s'.currentSeq = s.currentSeq)
    (hcount : n + s'.fibers.countP Fiber.unnumbered = s'.invoked) : Numbered s' n where
  current := hc.trans h.current
  count := hcount
  nodup := hp.nodup_iff.mpr h.nodup
  below q hq := h.below q (hp.subset hq)

/-- A step that does not touch the calls or the messages. -/
theorem Inv.ofFibers (h : Inv s) (hnum : ∃ n, Numbered s' n) (hfib : ∀ f ∈ s'.fibers, f.Valid)
    (hroom : s.flight.length + (if s'.running then s'.fibers.countP Fiber.expecting else 0) ≤
      s'.posted.length + s.received.length) (hfaults : ∀ f ∈ s'.faults, f = .recv)
    (hout : s'.outstandingRpcs = s.outstandingRpcs) (hctx : s'.contexts = s.contexts) (hh : s'.handled = s.handled)
    (hreq : s'.requests = s.requests) (hrep : s'.replies = s.replies) (hrec : s'.received = s.received) : Inv s' := by
  have hcalls : s'.calls = s.calls := congrArg (List.map RpcContext.call) hctx
  have hflight : s'.flight = s.flight := by rw [St.flight, hreq, hrep, hrec, St.flight]
  refine ⟨hnum, ⟨?_, ?_, ?_⟩, ⟨?_, ?_, ?_, ?_, ?_, ?_⟩, hfib, ?_, hfaults⟩
  · rw [hout, hctx]
    exact h.table.outstanding
  · rw [hctx, hh]
    exact h.table.values
  · rw [hcalls]
    exact h.table.rpcs
  · rw [hreq, hcalls]
    exact h.messages.requests
  · rw [hrep, hrec, hcalls, hh]
    exact h.messages.replies
  · rw [hflight]
    exact h.messages.nodup
  · rw [hflight, hout]
    exact h.messages.isOpen
  · rw [hh, hreq]
    exact h.messages.once
  · rw [hh, hcalls]
    exact h.messages.handled
  · rw [hflight, hrec]
    exact hroom

/-- A fiber enters `call` or `oneway`. -/
theorem Inv.invoke (h : Inv s) (hv : f.Valid) (hu : f.unnumbered = true) (hq : f.seq? = none)
    (he : f.expecting = false) : Inv { s with invoked := s.invoked + 1, fibers := f :: s.fibers } := by
  obtain ⟨n, hn⟩ := h.numbered
  refine h.ofFibers ⟨n, hn.of_perm ?_ rfl ?_⟩ (fun g hg => ?_) ?_ h.faults rfl rfl rfl rfl rfl rfl
  · show List.Perm (s.calls.map Call.seq ++ (f :: s.fibers).filterMap Fiber.seq?) s.numbers
    rw [List.filterMap_cons_none hq]
    exact List.Perm.refl _
  · show n + (f :: s.fibers).countP Fiber.unnumbered = s.invoked + 1
    rw [List.countP_cons_of_pos hu, ← hn.count, Nat.add_assoc]
  · rcases List.mem_cons.mp hg with rfl | hg
    · exact hv
    · exact h.fibers g hg
  · show s.flight.length + (if s.running then (f :: s.fibers).countP Fiber.expecting else 0) ≤ _
    rw [List.countP_cons_of_neg (by rw [he]; exact Bool.false_ne_true)]
    exact h.room

/-- A fiber goes on without taking a number or posting. -/
theorem Inv.goto (h : Inv s) (hf : s.fibers[i]? = some f) (hv : f'.Valid) (hu : f'.unnumbered = f.unnumbered)
    (hq : f'.seq? = f.seq?) (he : f'.expecting = f.expecting) (recvBufs : List ℕ) :
    Inv { s.goto i f' with recvBufs := recvBufs } := by
  obtain ⟨n, hn⟩ := h.numbered
  refine h.ofFibers ⟨n, hn.of_perm ?_ rfl ?_⟩ (valid_of_mem_eraseIdx h hv) ?_ h.faults rfl rfl rfl rfl rfl rfl
  · refine List.Perm.trans ?_ (numbers_take hf).symm
    show List.Perm (s.calls.map Call.seq ++ (f' :: s.fibers.eraseIdx i).filterMap Fiber.seq?) _
    rw [List.filterMap_cons, List.filterMap_cons, hq]
  · show n + (f' :: s.fibers.eraseIdx i).countP Fiber.unnumbered = s.invoked
    rw [← hn.count, countP_take _ hf, List.countP_cons, hu]
  · show s.flight.length + (if s.running then (f' :: s.fibers.eraseIdx i).countP Fiber.expecting else 0) ≤ _
    have hroom := h.room
    rw [countP_take _ hf] at hroom
    rw [List.countP_cons, he]
    exact hroom

/-- A receive is posted. -/
theorem Inv.postRecv {r : R} {req : P.Req r} {b : ℕ} (h : Inv s) (hf : s.fibers[i]? = some (.recvPost r req b)) :
    Inv (if s.running then { s.goto i (.sendBuffer r req) with posted := s.posted ++ [b] }
      else (s.goto i (.sendBuffer r req)).fault .recv) := by
  have hr : r ∈ normalRpcs P P.rpcs := valid_of_get h hf
  obtain ⟨n, hn⟩ := h.numbered
  have hnum : Numbered (s.goto i (.sendBuffer r req)) n := by
    refine hn.of_perm (numbers_take hf).symm rfl ?_
    show n + (.sendBuffer r req :: s.fibers.eraseIdx i).countP Fiber.unnumbered = s.invoked
    rw [← hn.count, countP_take _ hf, List.countP_cons]
    rfl
  have hv := valid_of_mem_eraseIdx (i := i) h (show (Fiber.sendBuffer r req).Valid from fun _ => hr)
  have hroom := h.room
  by_cases hrun : s.running = true
  · rw [if_pos hrun]
    refine h.ofFibers ⟨n, hnum.current, hnum.count, hnum.nodup, hnum.below⟩ hv ?_ h.faults rfl rfl rfl rfl rfl rfl
    show s.flight.length + (if s.running then (.sendBuffer r req :: s.fibers.eraseIdx i).countP Fiber.expecting else 0) ≤
      (s.posted ++ [b]).length + s.received.length
    rw [if_pos hrun, countP_take _ hf] at hroom
    have hle : (if (Fiber.sendBuffer (P := P) r req).expecting = true then 1 else 0) ≤ 1 := by split <;> omega
    rw [if_pos hrun, List.countP_cons, List.length_append, List.length_singleton]
    simp only [Fiber.expecting, Bool.false_eq_true, if_false] at hroom
    omega
  · rw [if_neg hrun]
    refine h.ofFibers ⟨n, hnum.current, hnum.count, hnum.nodup, hnum.below⟩ hv ?_ ?_ rfl rfl rfl rfl rfl rfl
    · show s.flight.length + (if s.running then _ else 0) ≤ _
      rw [if_neg hrun] at hroom ⊢
      exact hroom
    · intro g hg
      rcases List.mem_append.mp hg with hg | hg
      · exact h.faults g hg
      · exact List.mem_singleton.mp hg

/-- The next number is new. -/
theorem Numbered.take (h : Numbered s n) (hf : s.fibers[i]? = some f) (hu : f.unnumbered = true)
    (hn : s.invoked < 2 ^ 32) : s.currentSeq.toNat = n + 1 ∧ s.currentSeq ∉ s.numbers := by
  have hcount := h.count
  rw [countP_take _ hf, if_pos hu] at hcount
  have hlt : n + 1 < 2 ^ 32 := by omega
  have hseq : s.currentSeq.toNat = n + 1 := by rw [h.current, BitVec.toNat_ofNat, Nat.mod_eq_of_lt hlt]
  refine ⟨hseq, fun hq => ?_⟩
  have hle := h.below _ hq
  omega

/-- A fiber takes a number; it throws if the message does not fit. -/
theorem Inv.acquireSend {r : R} {req : P.Req r} (h : Inv s) (hn : s.invoked < 2 ^ 32)
    (hf : s.fibers[i]? = some (.sendBuffer r req)) (b : ℕ) (bs : List ℕ) :
    Inv { s.goto i (.sendPost r req b s.currentSeq) with sendBufs := bs, currentSeq := s.currentSeq + 1 } ∧
      Inv { s.leave i with sendBufs := bs, currentSeq := s.currentSeq + 1 } := by
  obtain ⟨n, hnum⟩ := h.numbered
  obtain ⟨hseq, hnew⟩ := hnum.take hf rfl hn
  have hcur : s.currentSeq + 1 = BitVec.ofNat 32 (n + 1 + 1) := by
    rw [hnum.current]
    exact (BitVec.ofNat_add ..).symm
  have hcount := hnum.count
  rw [countP_take _ hf] at hcount
  have hperm := numbers_take hf
  have hrest : s.numbers.Perm (s.calls.map Call.seq ++ (s.fibers.eraseIdx i).filterMap Fiber.seq?) := hperm
  have hv : (Fiber.sendBuffer r req).Valid := valid_of_get h hf
  have hroom := h.room
  rw [countP_take _ hf] at hroom
  constructor
  · have hnumbers : List.Perm (s.calls.map Call.seq ++ (s.currentSeq :: (s.fibers.eraseIdx i).filterMap Fiber.seq?))
        (s.currentSeq :: s.numbers) := List.perm_middle.trans (hrest.symm.cons _)
    refine h.ofFibers ⟨n + 1, hcur, ?_, ?_, ?_⟩ (valid_of_mem_eraseIdx h hv) ?_ h.faults rfl rfl rfl rfl rfl rfl
    · show n + 1 + (.sendPost r req b s.currentSeq :: s.fibers.eraseIdx i).countP Fiber.unnumbered = s.invoked
      rw [List.countP_cons_of_neg Bool.false_ne_true]
      simp only [Fiber.unnumbered, if_true] at hcount
      omega
    · exact hnumbers.nodup_iff.mpr (List.nodup_cons.mpr ⟨hnew, hnum.nodup⟩)
    · intro q hq
      rcases List.mem_cons.mp (hnumbers.subset hq) with rfl | hq
      · exact hseq.le
      · exact (hnum.below q hq).trans (Nat.le_succ n)
    · show s.flight.length + (if s.running then (.sendPost r req b s.currentSeq :: s.fibers.eraseIdx i).countP
        Fiber.expecting else 0) ≤ _
      rw [List.countP_cons]
      exact hroom
  · refine h.ofFibers ⟨n + 1, hcur, ?_, hrest.nodup_iff.mp hnum.nodup, fun q hq => ?_⟩
      (fun g hg => h.fibers g (List.mem_of_mem_eraseIdx hg)) ?_ h.faults rfl rfl rfl rfl rfl rfl
    · show n + 1 + (s.fibers.eraseIdx i).countP Fiber.unnumbered = s.invoked
      simp only [Fiber.unnumbered, if_true] at hcount
      omega
    · exact (hnum.below q (hrest.symm.subset hq)).trans (Nat.le_succ n)
    · show s.flight.length + (if s.running then (s.fibers.eraseIdx i).countP Fiber.expecting else 0) ≤ _
      by_cases hrun : s.running = true
      · rw [if_pos hrun] at hroom ⊢
        exact le_trans (Nat.add_le_add_left (Nat.le_add_right ..) _) hroom
      · rw [if_neg hrun] at hroom ⊢
        exact hroom

/-- A fiber leaves. -/
theorem Inv.sent {b : ℕ} {ctx : Option ℕ} {res : Option ℤ} (h : Inv s) (hf : s.fibers[i]? = some (.sendWait b ctx res))
    (sendBufs : List ℕ) :
    Inv { s.leave i with sendBufs := sendBufs } := by
  obtain ⟨n, hn⟩ := h.numbered
  refine h.ofFibers ⟨n, hn.of_perm (numbers_take hf).symm rfl ?_⟩
    (fun g hg => h.fibers g (List.mem_of_mem_eraseIdx hg)) ?_ h.faults rfl rfl rfl rfl rfl rfl
  · show n + (s.fibers.eraseIdx i).countP Fiber.unnumbered = s.invoked
    rw [← hn.count, countP_take _ hf]
    rfl
  · have hroom := h.room
    rw [countP_take _ hf] at hroom
    exact hroom

/-! ### Posting a request -/

/-- A number in the table is that of a call. -/
theorem Table.mem_calls (h : Table s) {q : BitVec 32} {k : ℕ} (hq : (q, k) ∈ s.outstandingRpcs) :
    q ∈ s.calls.map Call.seq := by
  obtain ⟨c, hc, rfl, -⟩ := (h.outstanding q k).mp hq
  exact List.mem_map.mpr ⟨c.call, List.mem_map.mpr ⟨c, List.mem_of_getElem? hc, rfl⟩, rfl⟩

theorem Inv.mem_calls_of_flight (h : Inv s) {q : BitVec 32} (hq : q ∈ s.flight) : q ∈ s.calls.map Call.seq := by
  obtain ⟨k, hk⟩ := h.messages.isOpen q hq
  exact h.table.mem_calls hk

theorem Inv.mem_calls_of_handled (h : Inv s) {q : BitVec 32} (hq : q ∈ s.handled.map Prod.fst) :
    q ∈ s.calls.map Call.seq := by
  obtain ⟨c, hc, rfl⟩ := h.messages.handled q hq
  exact List.mem_map.mpr ⟨c, hc, rfl⟩

theorem flight_eq (s : St P) :
    s.flight = s.requests.filterMap (seq? P) ++ (s.replies ++ s.received.map Prod.snd).filterMap (seq? P) :=
  List.filterMap_append

/-- A number in flight as a request is in flight. -/
theorem mem_flight_of_request {q : BitVec 32} (hq : q ∈ s.requests.filterMap (seq? P)) : q ∈ s.flight := by
  rw [flight_eq]
  exact List.mem_append_left _ hq

/-- A oneway is posted, or not if the endpoint has stopped. -/
theorem Inv.postOneway {r : R} {req : P.Req r} {b : ℕ} {q : BitVec 32} (h : Inv s)
    (hf : s.fibers[i]? = some (.sendPost r req b q)) {m : List Bytes} (hm : ∀ x ∈ m, seq? P x = none) (res : Option ℤ) :
    Inv { s.goto i (.sendWait b none res) with requests := s.requests ++ m } := by
  obtain ⟨n, hn⟩ := h.numbered
  have hnone : m.filterMap (seq? P) = [] := List.filterMap_eq_nil_iff.mpr hm
  have hreq : (s.requests ++ m).filterMap (seq? P) = s.requests.filterMap (seq? P) := by
    rw [List.filterMap_append, hnone, List.append_nil]
  have hflight : St.flight { s.goto i (.sendWait b none res) with requests := s.requests ++ m } = s.flight := by
    show ((s.requests ++ m) ++ (s.replies ++ s.received.map Prod.snd)).filterMap (seq? P) = s.flight
    rw [List.filterMap_append, hreq, ← List.filterMap_append, St.flight]
  have hperm := numbers_take hf
  have hsub : (s.calls.map Call.seq ++ (s.fibers.eraseIdx i).filterMap Fiber.seq?).Sublist
      (s.calls.map Call.seq ++ (.sendPost r req b q :: s.fibers.eraseIdx i).filterMap Fiber.seq?) :=
    (List.sublist_cons_self ..).append_left _
  refine ⟨⟨n, hn.current, ?_, ?_, fun q' hq' => ?_⟩, ⟨h.table.outstanding, h.table.values, h.table.rpcs⟩,
    ⟨fun x hx => ?_, h.messages.replies, ?_, ?_, ?_, h.messages.handled⟩, valid_of_mem_eraseIdx h trivial, ?_, h.faults⟩
  · show n + (.sendWait b none res :: s.fibers.eraseIdx i).countP Fiber.unnumbered = s.invoked
    rw [← hn.count, countP_take _ hf, List.countP_cons]
    rfl
  · exact (hperm.nodup_iff.mp hn.nodup).sublist hsub
  · exact hn.below q' (hperm.symm.subset (hsub.subset hq'))
  · rcases List.mem_append.mp hx with hx | hx
    · exact h.messages.requests x hx
    · exact Or.inl (hm x hx)
  · rw [hflight]
    exact h.messages.nodup
  · rw [hflight]
    exact h.messages.isOpen
  · show (s.handled.map Prod.fst ++ (s.requests ++ m).filterMap (seq? P)).Nodup
    rw [hreq]
    exact h.messages.once
  · have hroom := h.room
    rw [countP_take _ hf] at hroom
    rw [hflight]
    show s.flight.length + (if s.running then (.sendWait b none res :: s.fibers.eraseIdx i).countP Fiber.expecting else 0) ≤ _
    rw [List.countP_cons_of_neg Bool.false_ne_true]
    refine le_trans (Nat.add_le_add_left ?_ _) hroom
    split
    · exact Nat.le_add_right ..
    · exact Nat.le_refl 0

/-- The table with a new context. -/
theorem Table.post (h : Table s) {c : Call P} (hc : c.rpc ∈ normalRpcs P P.rpcs) (hq : c.seq ∉ s.calls.map Call.seq)
    (hout : s'.outstandingRpcs = emplace s.outstandingRpcs c.seq s.contexts.length)
    (hctx : s'.contexts = s.contexts ++ [⟨c, []⟩]) (hh : s'.handled = s.handled) :
    Table s' ∧ (c.seq, s.contexts.length) ∈ s'.outstandingRpcs ∧ ∀ e ∈ s.outstandingRpcs, e ∈ s'.outstandingRpcs := by
  have hfresh : ¬ s.outstandingRpcs.any (fun e => e.1 == c.seq) = true := by
    intro hany
    obtain ⟨⟨q, k⟩, he, hk⟩ := List.any_eq_true.mp hany
    obtain rfl : q = c.seq := by simpa using hk
    exact hq (h.mem_calls he)
  rw [emplace, if_neg hfresh] at hout
  refine ⟨⟨fun q k => ?_, fun x hx => ?_, fun x hx => ?_⟩, ?_, fun e he => ?_⟩
  · rw [hout, hctx, List.mem_append, h.outstanding, List.mem_singleton, Prod.mk.injEq]
    constructor
    · rintro (⟨x, hx, hxq⟩ | ⟨rfl, rfl⟩)
      · refine ⟨x, ?_, hxq⟩
        rw [List.getElem?_append_left (List.getElem?_eq_some_iff.mp hx).1]
        exact hx
      · exact ⟨⟨c, []⟩, List.getElem?_concat_length .., rfl, rfl⟩
    · rintro ⟨x, hx, hxq, hxv⟩
      by_cases hk : k < s.contexts.length
      · rw [List.getElem?_append_left hk] at hx
        exact Or.inl ⟨x, hx, hxq, hxv⟩
      · obtain ⟨hlt, hget⟩ := List.getElem?_eq_some_iff.mp hx
        rw [List.length_append, List.length_singleton] at hlt
        obtain rfl : k = s.contexts.length := by omega
        rw [List.getElem?_concat_length] at hx
        cases hx
        exact Or.inr ⟨hxq.symm, rfl⟩
  · rw [hctx] at hx
    rw [hh]
    rcases List.mem_append.mp hx with hx | hx
    · exact h.values x hx
    · obtain rfl := List.mem_singleton.mp hx
      exact Or.inl rfl
  · rw [St.calls, hctx, List.map_append] at hx
    rcases List.mem_append.mp hx with hx | hx
    · exact h.rpcs x hx
    · obtain rfl := List.mem_singleton.mp hx
      exact hc
  · rw [hout]
    exact List.mem_append_right _ (List.mem_singleton_self _)
  · rw [hout]
    exact List.mem_append_left _ he

/-- The messages with the request of a new call, which is posted or not. -/
theorem Inv.messages_post (h : Inv s) {c : Call P} (hr : P.isOneway c.rpc = false) (hq : c.seq ∉ s.calls.map Call.seq)
    {m : List Bytes} (hm : m = [] ∨ ∃ rest, m = [requestBytes P c.rpc c.req c.seq ++ rest])
    (hcalls : s'.calls = s.calls ++ [c]) (hnew : ∃ k, (c.seq, k) ∈ s'.outstandingRpcs)
    (hold : ∀ e ∈ s.outstandingRpcs, e ∈ s'.outstandingRpcs) (hreq : s'.requests = s.requests ++ m)
    (hrep : s'.replies = s.replies) (hrec : s'.received = s.received) (hh : s'.handled = s.handled) :
    Messages s' ∧ s'.flight.length = s.flight.length + m.length := by
  have hseqs : m.filterMap (seq? P) = m.map fun _ => c.seq := by
    rcases hm with rfl | ⟨rest, rfl⟩
    · rfl
    · rw [List.filterMap_cons, seq?_request hr]
      rfl
  have hsub : ∀ q ∈ m.map fun _ => c.seq, q = c.seq := by
    intro q hq
    obtain ⟨-, -, rfl⟩ := List.mem_map.mp hq
    rfl
  have hnodup : (m.map fun _ => c.seq).Nodup := by
    rcases hm with rfl | ⟨rest, rfl⟩
    · exact List.nodup_nil
    · exact List.nodup_singleton _
  have hmem : ∀ x ∈ s.calls, x ∈ s'.calls := fun x hx => hcalls ▸ List.mem_append_left _ hx
  have hcmem : c ∈ s'.calls := hcalls ▸ List.mem_append_right _ (List.mem_singleton_self _)
  have hreqs : s'.requests.filterMap (seq? P) = s.requests.filterMap (seq? P) ++ m.map fun _ => c.seq := by
    rw [hreq, List.filterMap_append, hseqs]
  have hperm : s'.flight.Perm (s.flight ++ m.map fun _ => c.seq) := by
    rw [flight_eq s', hreqs, hrep, hrec, flight_eq s, List.append_assoc, List.append_assoc]
    exact List.perm_append_comm.append_left _
  refine ⟨⟨fun x hx => ?_, fun x hx => ?_, ?_, fun q hq' => ?_, ?_, fun q hq' => ?_⟩, ?_⟩
  · rw [hreq] at hx
    rcases List.mem_append.mp hx with hx | hx
    · obtain hnone | ⟨y, hy, hrest⟩ := h.messages.requests x hx
      · exact Or.inl hnone
      · exact Or.inr ⟨y, hmem y hy, hrest⟩
    · rcases hm with rfl | ⟨rest, rfl⟩
      · cases hx
      · exact Or.inr ⟨c, hcmem, rest, List.mem_singleton.mp hx⟩
  · rw [hrep, hrec] at hx
    rw [hh]
    obtain ⟨y, hy, hrest⟩ := h.messages.replies x hx
    exact ⟨y, hmem y hy, hrest⟩
  · refine hperm.nodup_iff.mpr (List.Nodup.append h.messages.nodup hnodup fun q hq₁ hq₂ => ?_)
    obtain rfl := hsub q hq₂
    exact hq (h.mem_calls_of_flight hq₁)
  · rcases List.mem_append.mp (hperm.subset hq') with hq' | hq'
    · obtain ⟨k, hk⟩ := h.messages.isOpen q hq'
      exact ⟨k, hold _ hk⟩
    · obtain rfl := hsub q hq'
      exact hnew
  · rw [hh, hreqs, ← List.append_assoc]
    refine List.Nodup.append h.messages.once hnodup fun q hq₁ hq₂ => ?_
    obtain rfl := hsub q hq₂
    rcases List.mem_append.mp hq₁ with hq₁ | hq₁
    · exact hq (h.mem_calls_of_handled hq₁)
    · exact hq (h.mem_calls_of_flight (mem_flight_of_request hq₁))
  · rw [hh] at hq'
    obtain ⟨y, hy, hyq⟩ := h.messages.handled q hq'
    exact ⟨y, hmem y hy, hyq⟩
  · rw [hperm.length_eq, List.length_append, List.length_map]

/-- A call posts its request, or does not if the endpoint has stopped, and puts its context into the table. -/
theorem Inv.postCall {r : R} {req : P.Req r} {b : ℕ} {q : BitVec 32} (h : Inv s)
    (hf : s.fibers[i]? = some (.sendPost r req b q)) (hr : P.isOneway r = false) (stale : Bytes)
    (res : Option ℤ) :
    Inv { s.goto i (.sendWait b (some s.contexts.length) res) with
      requests := if s.running then s.requests ++ [requestBytes P r req q ++ stale] else s.requests
      contexts := s.contexts ++ [⟨⟨r, req, q⟩, []⟩]
      outstandingRpcs := emplace s.outstandingRpcs q s.contexts.length } := by
  obtain ⟨n, hn⟩ := h.numbered
  have hperm := numbers_take hf
  have hnodup := hperm.nodup_iff.mp hn.nodup
  have hq : q ∉ s.calls.map Call.seq := fun hmem =>
    (List.nodup_append.mp hnodup).2.2 q hmem q List.mem_cons_self rfl
  set s' : St P := { s.goto i (.sendWait b (some s.contexts.length) res) with
      requests := if s.running then s.requests ++ [requestBytes P r req q ++ stale] else s.requests
      contexts := s.contexts ++ [⟨⟨r, req, q⟩, []⟩]
      outstandingRpcs := emplace s.outstandingRpcs q s.contexts.length } with hs'
  have hcalls : s'.calls = s.calls ++ [⟨r, req, q⟩] := List.map_append ..
  obtain ⟨htable, hnew, hold⟩ : Table s' ∧ (q, s.contexts.length) ∈ s'.outstandingRpcs ∧
      ∀ e ∈ s.outstandingRpcs, e ∈ s'.outstandingRpcs :=
    h.table.post (c := ⟨r, req, q⟩) (valid_of_get h hf hr) hq rfl rfl rfl
  have hreq : s'.requests = s.requests ++ if s.running then [requestBytes P r req q ++ stale] else [] := by
    show (if s.running then _ else _) = _
    split
    · rfl
    · rw [List.append_nil]
  obtain ⟨hmsg, hlen⟩ := h.messages_post (c := ⟨r, req, q⟩) hr hq
    (by split; exacts [Or.inr ⟨stale, rfl⟩, Or.inl rfl]) hcalls ⟨_, hnew⟩ hold hreq rfl rfl rfl
  have hnumbers : s'.numbers.Perm s.numbers := by
    refine List.Perm.trans ?_ hperm.symm
    show (s'.calls.map Call.seq ++ (s.fibers.eraseIdx i).filterMap Fiber.seq?).Perm _
    rw [hcalls, List.map_append, List.append_assoc]
    exact List.Perm.refl _
  refine ⟨⟨n, hn.of_perm hnumbers rfl ?_⟩, htable, hmsg, valid_of_mem_eraseIdx h trivial, ?_, h.faults⟩
  · show n + (.sendWait b (some s.contexts.length) res :: s.fibers.eraseIdx i).countP Fiber.unnumbered = s.invoked
    rw [← hn.count, countP_take _ hf, List.countP_cons]
    rfl
  · have hroom := h.room
    rw [countP_take _ hf] at hroom
    rw [hlen]
    show _ + (if s.running then (.sendWait b (some s.contexts.length) res :: s.fibers.eraseIdx i).countP
      Fiber.expecting else 0) ≤ s.posted.length + s.received.length
    rw [List.countP_cons_of_neg Bool.false_ne_true]
    have hexp : (Fiber.sendPost r req b q).expecting = true := by rw [Fiber.expecting, hr]; rfl
    rw [if_pos hexp] at hroom
    split at hroom
    case isTrue hrun =>
      rw [if_pos hrun, if_pos hrun, List.length_singleton]
      omega
    case isFalse hrun =>
      rw [if_neg hrun, if_neg hrun]
      exact hroom

/-! ### The connection and the peer -/

/-- Messages are gone. -/
theorem Inv.drop (h : Inv s) {requests replies : List Bytes} (hreq : requests.Sublist s.requests)
    (hrep : replies.Sublist s.replies) : Inv { s with requests := requests, replies := replies } := by
  have hflight : (St.flight { s with requests := requests, replies := replies }).Sublist s.flight :=
    (hreq.append (hrep.append_right _)).filterMap _
  refine ⟨?_, ⟨h.table.outstanding, h.table.values, h.table.rpcs⟩, ⟨fun m hm => h.messages.requests m (hreq.subset hm),
    fun m hm => h.messages.replies m ((hrep.append_right _).subset hm), h.messages.nodup.sublist hflight,
    fun q hq => h.messages.isOpen q (hflight.subset hq), h.messages.once.sublist ((hreq.filterMap _).append_left _),
    h.messages.handled⟩, h.fibers, le_trans (Nat.add_le_add_right hflight.length_le _) h.room, h.faults⟩
  obtain ⟨n, hn⟩ := h.numbered
  exact ⟨n, hn.current, hn.count, hn.nodup, hn.below⟩

/-- The RPC of a call has a response. -/
theorem Table.normal (h : Table s) {c : Call P} (hc : c ∈ s.calls) : P.isOneway c.rpc = false := by
  simpa using (List.mem_filter.mp (h.rpcs c hc)).2

/-- What `serve_once` does with a message that is no request of a call. -/
theorem serveOnce_of_seq?_eq_none {m : Bytes} (hm : seq? P m = none) (found : H) (stale : Bytes) :
    serveOnce s m found stale = s := by
  rw [serveOnce]
  cases hget : P.header.get m with
  | none => rfl
  | some x =>
    rw [seq?, hget, Option.bind_some] at hm
    have hone : x.1.isOnewayReq = true := by
      by_contra hno
      rw [if_neg hno] at hm
      cases hm
    simp [hone]

/-- What it does with the request of a call: it dies, or it handles the request. -/
theorem serveOnce_request (hid : Function.Injective P.id) {c : Call P} (hc : P.isOneway c.rpc = false) (rest : Bytes)
    (found : H) (stale : Bytes) :
    serveOnce s (requestBytes P c.rpc c.req c.seq ++ rest) found stale = s ∨
      ∃ resp m, P.handler found c.rpc c.req = some resp ∧
        (m = [] ∨ m = [replyBytes P c.rpc resp c.seq (P.id c.rpc) ++ stale]) ∧
        serveOnce s (requestBytes P c.rpc c.req c.seq ++ rest) found stale =
          { s with handled := s.handled ++ [(c.seq, found)], replies := s.replies ++ m } := by
  rw [serveOnce, get_request, hc]
  simp only [Bool.false_eq_true, if_false, PayloadHeader.isResp_addressed, PayloadHeader.isOnewayReq_addressed,
    PayloadHeader.isResp_new, PayloadHeader.isOnewayReq_new, Bool.or_false, PayloadHeader.id_addressed,
    PayloadHeader.seq_addressed]
  cases hpick : pick P P.peerRpcs (P.id c.rpc) with
  | none => exact Or.inl rfl
  | some r =>
    obtain rfl := pick_eq_some hid hpick
    simp only [(P.req c.rpc).get_put]
    cases hres : P.handler found c.rpc c.req with
    | none => exact Or.inl rfl
    | some resp =>
      refine Or.inr ⟨resp, if (replyBytes P c.rpc resp c.seq (P.id c.rpc)).length ≤ P.peerMaxRpcMsgSize then
        [replyBytes P c.rpc resp c.seq (P.id c.rpc) ++ stale] else [], rfl, ?_, ?_⟩
      · split
        · exact Or.inr rfl
        · exact Or.inl rfl
      · by_cases hfits : (replyBytes P c.rpc resp c.seq (P.id c.rpc)).length ≤ P.peerMaxRpcMsgSize
        · simp only [if_pos hfits]
        · simp only [if_neg hfits, List.append_nil]

theorem Call.Handled.mono {c : Call P} {handled handled' : List (BitVec 32 × H)} {resp : P.Resp c.rpc}
    (h : c.Handled handled resp) (hsub : ∀ x ∈ handled, x ∈ handled') : c.Handled handled' resp := by
  obtain ⟨found, hmem, hres⟩ := h
  exact ⟨found, hsub _ hmem, hres⟩

/-- The request of a call is one of those in flight. -/
theorem Inv.requests_take (h : Inv s) {c : Call P} (hc : c ∈ s.calls) {k : ℕ} {rest : Bytes}
    (hk : s.requests[k]? = some (requestBytes P c.rpc c.req c.seq ++ rest)) :
    (s.requests.filterMap (seq? P)).Perm (c.seq :: (s.requests.eraseIdx k).filterMap (seq? P)) := by
  refine ((perm_eraseIdx hk).filterMap _).trans ?_
  rw [List.filterMap_cons, seq?_request (h.table.normal hc)]

/-- A request that is handled is replaced by its response, or by nothing. -/
theorem Inv.flight_handle (h : Inv s) {c : Call P} (hc : c ∈ s.calls) {k : ℕ} {rest : Bytes}
    (hk : s.requests[k]? = some (requestBytes P c.rpc c.req c.seq ++ rest)) {resp : P.Resp c.rpc} {m : List Bytes}
    {stale : Bytes} (hm : m = [] ∨ m = [replyBytes P c.rpc resp c.seq (P.id c.rpc) ++ stale])
    (hreq : s'.requests = s.requests.eraseIdx k) (hrep : s'.replies = s.replies ++ m) (hrec : s'.received = s.received) :
    s'.flight.Subperm s.flight := by
  have hseqs : m.filterMap (seq? P) = [] ∨ m.filterMap (seq? P) = [c.seq] := by
    rcases hm with rfl | rfl
    · exact Or.inl rfl
    · exact Or.inr (by rw [List.filterMap_cons, seq?_reply]; rfl)
  have hflight : s.flight.Perm (c.seq :: ((s.requests.eraseIdx k).filterMap (seq? P) ++
      (s.replies ++ s.received.map Prod.snd).filterMap (seq? P))) := by
    rw [flight_eq]
    exact (h.requests_take hc hk).append_right _
  have hflight' : s'.flight.Perm (m.filterMap (seq? P) ++ ((s.requests.eraseIdx k).filterMap (seq? P) ++
      (s.replies ++ s.received.map Prod.snd).filterMap (seq? P))) := by
    rw [flight_eq, hreq, hrep, hrec, List.filterMap_append (l := s.replies ++ m), List.filterMap_append (l := s.replies),
      List.filterMap_append (l := s.replies), List.append_assoc]
    refine List.Perm.trans ?_ (List.perm_append_comm_assoc ..)
    exact (List.perm_append_comm_assoc ..).append_left _
  refine List.Subperm.trans hflight'.subperm (List.Subperm.trans ?_ hflight.symm.subperm)
  rcases hseqs with hnil | hone
  · rw [hnil]
    exact (List.sublist_cons_self ..).subperm
  · rw [hone]
    exact List.Subperm.refl _

/-- The peer has handled the request of a call, and the response is in flight or not. -/
theorem Inv.handle (h : Inv s) {c : Call P} (hc : c ∈ s.calls) {k : ℕ} {rest : Bytes}
    (hk : s.requests[k]? = some (requestBytes P c.rpc c.req c.seq ++ rest)) {found : H} {resp : P.Resp c.rpc}
    (hres : P.handler found c.rpc c.req = some resp) {m : List Bytes} {stale : Bytes}
    (hm : m = [] ∨ m = [replyBytes P c.rpc resp c.seq (P.id c.rpc) ++ stale]) :
    Inv { s with requests := s.requests.eraseIdx k, handled := s.handled ++ [(c.seq, found)],
                 replies := s.replies ++ m } := by
  set s' : St P := { s with requests := s.requests.eraseIdx k, handled := s.handled ++ [(c.seq, found)],
                            replies := s.replies ++ m } with hs'
  have hsub : ∀ x ∈ s.handled, x ∈ s'.handled := fun x hx => List.mem_append_left _ hx
  have hle : s'.flight.Subperm s.flight := h.flight_handle hc hk hm rfl rfl rfl
  refine ⟨?_, ⟨h.table.outstanding, fun x hx => ?_, h.table.rpcs⟩,
    ⟨fun x hx => h.messages.requests x (List.mem_of_mem_eraseIdx hx), fun x hx => ?_, ?_, fun q hq => ?_, ?_, fun q hq => ?_⟩,
    h.fibers, le_trans (Nat.add_le_add_right hle.length_le _) h.room, h.faults⟩
  · obtain ⟨n, hn⟩ := h.numbered
    exact ⟨n, hn.current, hn.count, hn.nodup, hn.below⟩
  · obtain hnil | ⟨resp', hval, hhandled⟩ := h.table.values x hx
    · exact Or.inl hnil
    · exact Or.inr ⟨resp', hval, hhandled.mono hsub⟩
  · rcases List.mem_append.mp hx with hx | hx
    · rcases List.mem_append.mp hx with hx | hx
      · obtain ⟨y, hy, resp', rest', hhandled, hrest⟩ := h.messages.replies x (List.mem_append_left _ hx)
        exact ⟨y, hy, resp', rest', hhandled.mono hsub, hrest⟩
      · rcases hm with rfl | rfl
        · cases hx
        · exact ⟨c, hc, resp, stale, ⟨found, List.mem_append_right _ (List.mem_singleton_self _), hres⟩,
            List.mem_singleton.mp hx⟩
    · obtain ⟨y, hy, resp', rest', hhandled, hrest⟩ := h.messages.replies x (List.mem_append_right _ hx)
      exact ⟨y, hy, resp', rest', hhandled.mono hsub, hrest⟩
  · obtain ⟨l, hl, hsubl⟩ := hle
    exact hl.nodup_iff.mp (h.messages.nodup.sublist hsubl)
  · exact h.messages.isOpen q (hle.subset hq)
  · show ((s.handled ++ [(c.seq, found)]).map Prod.fst ++ (s.requests.eraseIdx k).filterMap (seq? P)).Nodup
    rw [List.map_append, List.append_assoc]
    exact ((h.requests_take hc hk).append_left _).nodup_iff.mp h.messages.once
  · rw [show s'.handled.map Prod.fst = s.handled.map Prod.fst ++ [c.seq] from List.map_append ..] at hq
    rcases List.mem_append.mp hq with hq | hq
    · exact h.messages.handled q hq
    · exact ⟨c, hc, (List.mem_singleton.mp hq).symm⟩

theorem Inv.serve (h : Inv s) (hid : Function.Injective P.id) {k : ℕ} {m : Bytes} (hk : s.requests[k]? = some m) (found : H)
    (stale : Bytes) : Inv (serveOnce { s with requests := s.requests.eraseIdx k } m found stale) := by
  have hdrop : Inv { s with requests := s.requests.eraseIdx k } :=
    h.drop (List.eraseIdx_sublist ..) (List.Sublist.refl _)
  obtain hnone | ⟨c, hc, rest, rfl⟩ := h.messages.requests m (List.mem_of_getElem? hk)
  · rw [serveOnce_of_seq?_eq_none hnone]
    exact hdrop
  · obtain hs | ⟨resp, m, hres, hm, hs⟩ := serveOnce_request hid (h.table.normal hc) rest found stale
    · rw [hs]
      exact hdrop
    · rw [hs]
      exact h.handle hc hk hres hm

/-- A response that comes in stays in flight. -/
theorem flight_arrive {c : Call P} {resp : P.Resp c.rpc} {rest stale : Bytes} {k b : ℕ}
    (hk : s.replies[k]? = some (replyBytes P c.rpc resp c.seq (P.id c.rpc) ++ rest)) (hreq : s'.requests = s.requests)
    (hrep : s'.replies = s.replies.eraseIdx k)
    (hrec : s'.received = s.received ++ [(b, replyBytes P c.rpc resp c.seq (P.id c.rpc) ++ rest ++ stale)]) :
    s'.flight.Perm s.flight := by
  have hreps : (s.replies.filterMap (seq? P)).Perm (c.seq :: (s.replies.eraseIdx k).filterMap (seq? P)) := by
    refine ((perm_eraseIdx hk).filterMap _).trans ?_
    rw [List.filterMap_cons, seq?_reply]
  have hseqs : (s'.received.map Prod.snd).filterMap (seq? P) =
      (s.received.map Prod.snd).filterMap (seq? P) ++ [c.seq] := by
    rw [hrec, List.map_append, List.map_singleton, List.filterMap_append, List.append_assoc, List.filterMap_cons, seq?_reply]
    rfl
  rw [flight_eq, flight_eq, List.filterMap_append (l := s'.replies), hseqs, List.filterMap_append (l := s.replies), hreq,
    hrep]
  refine List.Perm.append_left _ (List.Perm.trans ?_ (hreps.symm.append_right _))
  rw [← List.append_assoc]
  exact List.perm_append_comm

/-- A response comes in. -/
theorem Inv.arrive (h : Inv s) {k j b : ℕ} {m : Bytes} (hk : s.replies[k]? = some m) (hj : s.posted[j]? = some b)
    (stale : Bytes) :
    Inv { s with replies := s.replies.eraseIdx k, posted := s.posted.eraseIdx j,
                 received := s.received ++ [(b, m ++ stale)] } := by
  obtain ⟨c, hc, resp, rest, hhandled, rfl⟩ := h.messages.replies m (List.mem_append_left _ (List.mem_of_getElem? hk))
  set s' : St P :=
    { s with replies := s.replies.eraseIdx k, posted := s.posted.eraseIdx j,
             received := s.received ++ [(b, replyBytes P c.rpc resp c.seq (P.id c.rpc) ++ rest ++ stale)] } with hs'
  have hflight : s'.flight.Perm s.flight := flight_arrive hk rfl rfl rfl
  refine ⟨?_, ⟨h.table.outstanding, h.table.values, h.table.rpcs⟩, ⟨h.messages.requests, fun x hx => ?_,
    hflight.nodup_iff.mpr h.messages.nodup, fun q hq => h.messages.isOpen q (hflight.subset hq), h.messages.once,
    h.messages.handled⟩, h.fibers, ?_, h.faults⟩
  · obtain ⟨n, hn⟩ := h.numbered
    exact ⟨n, hn.current, hn.count, hn.nodup, hn.below⟩
  · rcases List.mem_append.mp hx with hx | hx
    · exact h.messages.replies x (List.mem_append_left _ (List.mem_of_mem_eraseIdx hx))
    · rw [show s'.received.map Prod.snd = s.received.map Prod.snd ++
        [replyBytes P c.rpc resp c.seq (P.id c.rpc) ++ rest ++ stale] from List.map_append ..] at hx
      rcases List.mem_append.mp hx with hx | hx
      · exact h.messages.replies x (List.mem_append_right _ hx)
      · exact ⟨c, hc, resp, rest ++ stale, hhandled, by rw [List.mem_singleton.mp hx, List.append_assoc]⟩
  · have hroom := h.room
    have hposted := (perm_eraseIdx hj).length_eq
    rw [hflight.length_eq]
    show _ ≤ (s.posted.eraseIdx j).length + (s.received ++ [_]).length
    rw [List.length_append, List.length_singleton]
    rw [hposted, List.length_cons] at hroom
    show s.flight.length + (if s.running then s.fibers.countP Fiber.expecting else 0) ≤ _
    omega

/-! ### Dispatching a response -/

/-- Setting a promise keeps the calls. -/
theorem map_call_modify (contexts : List (RpcContext P)) (k : ℕ) (v : (r : R) × P.Resp r) :
    (contexts.modify k fun c => c.setValue v).map RpcContext.call = contexts.map RpcContext.call := by
  refine List.ext_getElem? fun j => ?_
  rw [List.getElem?_map, List.getElem?_map, List.getElem?_modify]
  by_cases hjk : k = j
  · simp only [if_pos hjk]
    cases contexts[j]? <;> rfl
  · simp only [if_neg hjk]
    cases contexts[j]? <;> rfl

/-- Two contexts with one number are one. -/
theorem Inv.context_unique (h : Inv s) {k k' : ℕ} {c c' : RpcContext P} (hk : s.contexts[k]? = some c)
    (hk' : s.contexts[k']? = some c') (hq : c.call.seq = c'.call.seq) : k = k' := by
  obtain ⟨n, hn⟩ := h.numbered
  have hnodup : ((s.contexts.map RpcContext.call).map Call.seq).Nodup := (List.nodup_append.mp hn.nodup).1
  rw [List.map_map] at hnodup
  obtain ⟨hlt, rfl⟩ := List.getElem?_eq_some_iff.mp hk
  obtain ⟨hlt', rfl⟩ := List.getElem?_eq_some_iff.mp hk'
  have hmk : k < (s.contexts.map (Call.seq ∘ RpcContext.call)).length := by rwa [List.length_map]
  have hmk' : k' < (s.contexts.map (Call.seq ∘ RpcContext.call)).length := by rwa [List.length_map]
  have heq : (s.contexts.map (Call.seq ∘ RpcContext.call))[k] = (s.contexts.map (Call.seq ∘ RpcContext.call))[k'] := by
    rw [List.getElem_map, List.getElem_map]
    exact hq
  exact hnodup.getElem_inj_iff.mp heq

/-- The context of a response that has come in. -/
theorem Inv.context_of_received (h : Inv s) {j b : ℕ} {m : Bytes} (hj : s.received[j]? = some (b, m)) :
    ∃ k c resp rest, s.contexts[k]? = some c ∧ c.values = [] ∧ c.call.Handled s.handled resp ∧
      m = replyBytes P c.call.rpc resp c.call.seq (P.id c.call.rpc) ++ rest ∧
      s.outstandingRpcs.find? (fun e => e.1 == c.call.seq) = some (c.call.seq, k) := by
  have hmem : m ∈ s.received.map Prod.snd := List.mem_map.mpr ⟨(b, m), List.mem_of_getElem? hj, rfl⟩
  obtain ⟨x, hx, resp, rest, hhandled, rfl⟩ := h.messages.replies m (List.mem_append_right _ hmem)
  have hq : x.seq ∈ s.flight :=
    List.mem_filterMap.mpr ⟨_, List.mem_append_right _ (List.mem_append_right _ hmem), seq?_reply ..⟩
  obtain ⟨k₀, hk₀⟩ := h.messages.isOpen _ hq
  cases hfind : s.outstandingRpcs.find? (fun e => e.1 == x.seq) with
  | none =>
    have hno := List.find?_eq_none.mp hfind _ hk₀
    simp at hno
  | some e =>
    obtain ⟨q, k⟩ := e
    obtain rfl : q = x.seq := by simpa using List.find?_some hfind
    obtain ⟨c, hc, hcq, hv⟩ := (h.table.outstanding _ k).mp (List.mem_of_find?_eq_some hfind)
    obtain ⟨c', hc', rfl⟩ := List.mem_map.mp hx
    obtain ⟨k', hk'⟩ := List.mem_iff_getElem?.mp hc'
    obtain rfl := h.context_unique hc hk' hcq
    obtain rfl : c = c' := Option.some.inj (hc.symm.trans hk')
    exact ⟨k, c, resp, rest, hc, hv, hhandled, rfl, hfind⟩

/-- What the fiber of a receive does with the response of a call. -/
theorem dispatchResp_reply (hid : Function.Injective P.id) {c : Call P} (hc : c.rpc ∈ normalRpcs P P.rpcs) {k : ℕ}
    (hfind : s.outstandingRpcs.find? (fun e => e.1 == c.seq) = some (c.seq, k)) (resp : P.Resp c.rpc) (rest : Bytes)
    (b : ℕ) :
    dispatchResp s b (replyBytes P c.rpc resp c.seq (P.id c.rpc) ++ rest) =
      { s with contexts := s.contexts.modify k (fun x => x.setValue ⟨c.rpc, resp⟩),
               outstandingRpcs := s.outstandingRpcs.filter fun e => e.1 != c.seq,
               recvBufs := s.recvBufs ++ [b] } := by
  rw [dispatchResp, get_reply]
  simp only [PayloadHeader.isResp_addressed, PayloadHeader.isResp_asResp, if_true, PayloadHeader.id_addressed,
    PayloadHeader.seq_addressed, pick_of_mem hid hc, (P.resp c.rpc).get_put, hfind]

/-- The table after a call is answered. -/
theorem Inv.table_answer (h : Inv s) {k : ℕ} {c : RpcContext P} (hk : s.contexts[k]? = some c) (hv : c.values = [])
    {resp : P.Resp c.call.rpc} (hhandled : c.call.Handled s.handled resp)
    (hctx : s'.contexts = s.contexts.modify k fun x => x.setValue ⟨c.call.rpc, resp⟩)
    (hout : s'.outstandingRpcs = s.outstandingRpcs.filter fun e => e.1 != c.call.seq) (hh : s'.handled = s.handled) :
    Table s' := by
  have hcalls : s'.calls = s.calls := by rw [St.calls, hctx, map_call_modify, St.calls]
  refine ⟨fun q j => ?_, fun x hx => ?_, ?_⟩
  · rw [hout, hctx, List.mem_filter, h.table.outstanding]
    by_cases hjk : k = j
    · subst hjk
      rw [List.getElem?_modify_eq, hk]
      constructor
      · rintro ⟨⟨y, hy, hyq, -⟩, hne⟩
        obtain rfl := Option.some.inj hy
        simp [hyq] at hne
      · rintro ⟨y, hy, -, hyv⟩
        obtain rfl := Option.some.inj hy
        exact absurd hyv (List.append_ne_nil_of_right_ne_nil _ (List.cons_ne_nil _ _))
    · rw [List.getElem?_modify_ne _ _ hjk]
      constructor
      · rintro ⟨hy, -⟩
        exact hy
      · rintro ⟨y, hy, hyq, hyv⟩
        refine ⟨⟨y, hy, hyq, hyv⟩, ?_⟩
        have hne : q ≠ c.call.seq := fun hq => hjk (h.context_unique hk hy (hq.symm.trans hyq.symm))
        simpa using hne
  · rw [hh]
    rw [hctx] at hx
    obtain ⟨j, hj⟩ := List.mem_iff_getElem?.mp hx
    by_cases hjk : k = j
    · subst hjk
      rw [List.getElem?_modify_eq, hk] at hj
      obtain rfl := Option.some.inj hj
      refine Or.inr ⟨resp, ?_, hhandled⟩
      show c.values ++ _ = _
      rw [hv]
      rfl
    · rw [List.getElem?_modify_ne _ _ hjk] at hj
      exact h.table.values x (List.mem_of_getElem? hj)
  · rw [hcalls]
    exact h.table.rpcs

/-- A response that is given to its call is no longer in flight. -/
theorem flight_dispatch {c : Call P} {resp : P.Resp c.rpc} {rest : Bytes} {j b : ℕ}
    (hj : s.received[j]? = some (b, replyBytes P c.rpc resp c.seq (P.id c.rpc) ++ rest)) (hreq : s'.requests = s.requests)
    (hrep : s'.replies = s.replies) (hrec : s'.received = s.received.eraseIdx j) : s.flight.Perm (c.seq :: s'.flight) := by
  have hperm := (((perm_eraseIdx hj).map Prod.snd).append_left s.replies).append_left s.requests
  refine (hperm.filterMap (seq? P)).trans (List.Perm.trans (List.Perm.filterMap _
    (List.perm_middle.append_left s.requests |>.trans List.perm_middle)) ?_)
  rw [List.filterMap_cons, seq?_reply, St.flight, hreq, hrep, hrec]

/-- A response is given to its call. -/
theorem Inv.dispatch (h : Inv s) (hid : Function.Injective P.id) {j b : ℕ} {m : Bytes}
    (hj : s.received[j]? = some (b, m)) : Inv (dispatchResp { s with received := s.received.eraseIdx j } b m) := by
  obtain ⟨k, c, resp, rest, hk, hv, hhandled, rfl, hfind⟩ := h.context_of_received hj
  have hc : c.call ∈ s.calls := List.mem_map.mpr ⟨c, List.mem_of_getElem? hk, rfl⟩
  rw [dispatchResp_reply (s := { s with received := s.received.eraseIdx j }) hid (h.table.rpcs _ hc) hfind]
  set s' : St P :=
    { s with received := s.received.eraseIdx j,
             contexts := s.contexts.modify k (fun x => x.setValue ⟨c.call.rpc, resp⟩),
             outstandingRpcs := s.outstandingRpcs.filter fun e => e.1 != c.call.seq,
             recvBufs := s.recvBufs ++ [b] } with hs'
  have hcalls : s'.calls = s.calls := map_call_modify ..
  have hrec : (s.received.map Prod.snd).Perm
      ((replyBytes P c.call.rpc resp c.call.seq (P.id c.call.rpc) ++ rest) :: s'.received.map Prod.snd) :=
    (perm_eraseIdx hj).map Prod.snd
  have hflight : s.flight.Perm (c.call.seq :: s'.flight) := flight_dispatch hj rfl rfl rfl
  have hnodup := List.nodup_cons.mp (hflight.nodup_iff.mp h.messages.nodup)
  refine ⟨?_, h.table_answer hk hv hhandled rfl rfl rfl, ⟨?_, fun x hx => ?_, hnodup.2, fun q hq => ?_, h.messages.once, ?_⟩,
    h.fibers, ?_, h.faults⟩
  · obtain ⟨n, hn⟩ := h.numbered
    have hnum : s'.numbers = s.numbers := by rw [St.numbers, hcalls, St.numbers]
    exact ⟨n, hn.of_perm (hnum ▸ List.Perm.refl _) rfl hn.count⟩
  · rw [hcalls]
    exact h.messages.requests
  · rw [hcalls]
    refine h.messages.replies x ?_
    rcases List.mem_append.mp hx with hx | hx
    · exact List.mem_append_left _ hx
    · exact List.mem_append_right _ (hrec.symm.subset (List.mem_cons_of_mem _ hx))
  · obtain ⟨k', hk'⟩ := h.messages.isOpen q (hflight.symm.subset (List.mem_cons_of_mem _ hq))
    have hne : q ≠ c.call.seq := fun hqc => hnodup.1 (hqc ▸ hq)
    exact ⟨k', List.mem_filter.mpr ⟨hk', by simpa using hne⟩⟩
  · rw [hcalls]
    exact h.messages.handled
  · have hroom := h.room
    have hlen := hflight.length_eq
    have hreclen := (perm_eraseIdx hj).length_eq
    rw [List.length_cons] at hlen hreclen
    show s'.flight.length + (if s.running then s.fibers.countP Fiber.expecting else 0) ≤
      s.posted.length + (s.received.eraseIdx j).length
    omega

/-! ### Every run -/

variable [DecidableEq R] {act : Act P}

/-- Every step keeps the invariant while there are fewer than `2 ^ 32` calls and oneways. -/
theorem Inv.step (h : Inv s) (hid : Function.Injective P.id) (hn : s.invoked < 2 ^ 32) (hs : step s act = some s') :
    Inv s' := by
  cases moves_of_step hs with
  | call hr => exact h.invoke (f := .recvBuffer _ _) hr rfl rfl rfl
  | @oneway r req hone =>
    exact h.invoke (f := .sendBuffer r req) (fun hno => absurd (hone.symm.trans hno) Bool.noConfusion) rfl rfl
      (by rw [Fiber.expecting, hone]; rfl)
  | @acquireRecv i r req b bs hf =>
    have hv : r ∈ normalRpcs P P.rpcs := valid_of_get h hf
    exact h.goto hf (show (Fiber.recvPost r req b).Valid from hv) rfl rfl rfl bs
  | postRecv hf => exact h.postRecv hf
  | acquireSend hf hb => exact (h.acquireSend hn hf _ _).1
  | throws hf hb => exact (h.acquireSend hn hf 0 _).2
  | @postOneway i stale r req b q hf hone =>
    by_cases hrun : s.running = true
    · simp only [if_pos hrun]
      exact h.postOneway hf (fun x hx => List.mem_singleton.mp hx ▸ seq?_oneway hone req q stale) none
    · have hnone := h.postOneway hf (m := []) (fun x hx => absurd hx List.not_mem_nil) (some 0)
      simp only [if_neg hrun]
      rwa [List.append_nil] at hnone
  | postCall hf hone => exact h.postCall hf (Bool.eq_false_iff.mpr hone) _ _
  | sendFails hf => exact h.sent hf s.sendBufs
  | sent hf => exact h.sent hf _
  | serve hk => exact h.serve hid hk _ _
  | arrive hk hj => exact h.arrive hk hj _
  | dispatch hj => exact h.dispatch hid hj
  | loseRequest => exact h.drop (List.eraseIdx_sublist ..) (List.Sublist.refl _)
  | loseReply => exact h.drop (List.Sublist.refl _) (List.eraseIdx_sublist ..)
  | stop =>
    refine h.ofFibers ?_ h.fibers (le_trans (Nat.add_le_add_left (Nat.zero_le _) _) h.room) h.faults rfl rfl rfl rfl rfl rfl
    obtain ⟨n, hn⟩ := h.numbered
    exact ⟨n, hn.current, hn.count, hn.nodup, hn.below⟩

omit [DecidableEq R] in
/-- `serve_once` changes what the peer has done and what it has sent. -/
theorem serveOnce_frame (s : St P) (m : Bytes) (found : H) (stale : Bytes) :
    ∃ handled replies, serveOnce s m found stale = { s with handled := handled, replies := replies } := by
  unfold serveOnce
  repeat' split
  all_goals exact ⟨_, _, rfl⟩

omit [DecidableEq R] in
/-- The fiber of a receive changes the contexts, the table and its buffer, or dies. -/
theorem dispatchResp_frame (s : St P) (b : ℕ) (m : Bytes) :
    ∃ contexts outstandingRpcs recvBufs faults, dispatchResp s b m =
      { s with contexts := contexts, outstandingRpcs := outstandingRpcs, recvBufs := recvBufs, faults := faults } := by
  unfold dispatchResp
  repeat' split
  all_goals exact ⟨_, _, _, _, rfl⟩

/-- Serving a request leaves the fibers, the send buffers and the count alone. -/
theorem frame_serve {found : H} {stale : Bytes} (hs : step s (.serve k found stale) = some s') :
    s'.fibers = s.fibers ∧ s'.sendBufs = s.sendBufs ∧ s'.invoked = s.invoked := by
  cases moves_of_step hs with
  | @serve _ _ _ m hk =>
    obtain ⟨handled, replies, hframe⟩ := serveOnce_frame { s with requests := s.requests.eraseIdx k } m found stale
    rw [hframe]
    exact ⟨rfl, rfl, rfl⟩

/-- So does dispatching a reply. -/
theorem frame_dispatch (hs : step s (.dispatch k) = some s') :
    s'.fibers = s.fibers ∧ s'.sendBufs = s.sendBufs ∧ s'.invoked = s.invoked := by
  cases moves_of_step hs with
  | @dispatch _ b m hj =>
    obtain ⟨contexts, outstandingRpcs, recvBufs, faults, hframe⟩ :=
      dispatchResp_frame { s with received := s.received.eraseIdx k } b m
    rw [hframe]
    exact ⟨rfl, rfl, rfl⟩

/-- Calls and oneways are only counted up. -/
theorem invoked_le_of_step (hs : step s act = some s') : s.invoked ≤ s'.invoked := by
  cases act with
  | serve k found stale => exact Nat.le_of_eq (frame_serve hs).2.2.symm
  | dispatch j => exact Nat.le_of_eq (frame_dispatch hs).2.2.symm
  | postRecv i =>
    cases moves_of_step hs
    split
    · exact Nat.le_refl _
    · exact Nat.le_refl _
  | call r req =>
    cases moves_of_step hs
    exact Nat.le_succ _
  | oneway r req =>
    cases moves_of_step hs
    exact Nat.le_succ _
  | _ => cases moves_of_step hs <;> exact Nat.le_refl _

/-- What the callers see. -/
structure Answered (s : St P) : Prop where
  /-- No fiber of a receive fails, but that receives fail on an endpoint that has stopped. -/
  faults : ∀ f ∈ s.faults, f = .recv
  /-- Every call has its own number. -/
  numbers : (s.calls.map Call.seq).Nodup
  /-- A promise is set once, with the response of the call's RPC that the handler returned for the call's request. -/
  values : ∀ c ∈ s.contexts, c.values = [] ∨ ∃ resp, c.values = [⟨c.call.rpc, resp⟩] ∧ c.call.Handled s.handled resp
  /-- A request is handled once. -/
  once : (s.handled.map Prod.fst).Nodup
  /-- `outstanding_rpcs` holds exactly the calls that were not answered. -/
  outstanding : ∀ q k, (q, k) ∈ s.outstandingRpcs ↔ ∃ c, s.contexts[k]? = some c ∧ c.call.seq = q ∧ c.values = []
  /-- There is a receive for every response in flight. -/
  room : s.replies.length ≤ s.posted.length
  /-- A response that has come in is given to the call whose number it carries. -/
  delivers : ∀ j b m, s.received[j]? = some (b, m) → ∃ k c resp rest s', s.contexts[k]? = some c ∧ c.values = [] ∧
    m = replyBytes P c.call.rpc resp c.call.seq (P.id c.call.rpc) ++ rest ∧ c.call.Handled s.handled resp ∧
    step s (.dispatch j) = some s' ∧ s'.faults = s.faults ∧
    s'.contexts = s.contexts.modify k fun x => x.setValue ⟨c.call.rpc, resp⟩

omit [DecidableEq R] in
/-- A response is in flight under the number of its call. -/
theorem Inv.length_replies (h : Inv s) : s.replies.length + s.received.length ≤ s.flight.length := by
  have hall : ∀ m ∈ s.replies ++ s.received.map Prod.snd, (seq? P m).isSome := by
    intro m hm
    obtain ⟨c, -, resp, rest, -, rfl⟩ := h.messages.replies m hm
    rw [seq?_reply]
    rfl
  have hlen : ((s.replies ++ s.received.map Prod.snd).filterMap (seq? P)).length = s.replies.length + s.received.length := by
    rw [List.length_filterMap_eq_countP, List.countP_eq_length.mpr hall, List.length_append, List.length_map]
  rw [flight_eq, List.length_append, hlen]
  exact Nat.le_add_left ..

theorem Inv.answered (h : Inv s) (hid : Function.Injective P.id) : Answered s where
  faults := h.faults
  numbers := by
    obtain ⟨n, hn⟩ := h.numbered
    exact (List.nodup_append.mp hn.nodup).1
  values := h.table.values
  once := (List.nodup_append.mp h.messages.once).1
  outstanding := h.table.outstanding
  room := by
    have hlen := h.length_replies
    have hroom := h.room
    omega
  delivers j b m hj := by
    obtain ⟨k, c, resp, rest, hk, hv, hhandled, hm, hfind⟩ := h.context_of_received hj
    have hc : c.call ∈ s.calls := List.mem_map.mpr ⟨c, List.mem_of_getElem? hk, rfl⟩
    have hd := dispatchResp_reply (s := { s with received := s.received.eraseIdx j }) hid (h.table.rpcs _ hc) hfind resp
      rest b
    rw [← hm] at hd
    refine ⟨k, c, resp, rest, dispatchResp { s with received := s.received.eraseIdx j } b m, hk, hv, hm, hhandled, ?_, ?_, ?_⟩
    · simp only [Transport.step, hj]
    · rw [hd]
    · rw [hd]

/-- **Responses reach their callers.** In every run with fewer than `2 ^ 32` calls and oneways, whatever the interleaving of
the fibers and the order in which messages come in. -/
theorem answered_of_run (hid : Function.Injective P.id) (acts : List (Act P)) (s : St P)
    (hr : run step (init P) acts = some s) (hn : s.invoked < 2 ^ 32) : Answered s := by
  have hinv : s.invoked < 2 ^ 32 → Inv s := by
    refine inv_of_run (I := fun s => s.invoked < 2 ^ 32 → Inv s) (fun s a s' hi hs hlt => ?_) (fun _ => inv_init) hr
    have hle := invoked_le_of_step hs
    exact (hi (by omega)).step hid (by omega) hs
  exact (hinv hn).answered hid

/-! ### The transport of the disk agent -/

/-- The RPCs of `Transport<DOCA_Comch, MountRpc, UmountRpc>`. -/
inductive DiskRpc where
  /-- `Bulk`. -/
  | bulk
  /-- `RegisterMemory`. -/
  | registerMemory
  /-- `UnregisterMemory`. -/
  | unregisterMemory
  /-- `MountRpc`. -/
  | mount
  /-- `UmountRpc`. -/
  | umount
  deriving DecidableEq

/-- The ids: the first four bytes of the SHA-1 of the names, as a signed number. -/
def DiskRpc.id : DiskRpc → BitVec 64
  | .bulk => -1757728808
  | .registerMemory => -627800282
  | .unregisterMemory => -1969943801
  | .mount => 1493823013
  | .umount => -1445917445

/-- They differ. -/
theorem DiskRpc.id_injective : Function.Injective DiskRpc.id := by
  intro a b h
  cases a <;> cases b <;> first | rfl | exact absurd h (by decide)

/-- The size of a request; of a remote buffer only the region. -/
def DiskRpc.reqSize : DiskRpc → ℕ
  | .mount => 8
  | .umount => 8
  | _ => 16

/-- The size of a response. -/
def DiskRpc.respSize : DiskRpc → ℕ
  | .bulk => 8
  | .mount => 4
  | .umount => 4
  | _ => 0

/-- The bytes of a header, field by field. -/
def headerCodec : Codec PayloadHeader :=
  ((Codec.word 4).prod ((Codec.word 4).prod (Codec.word 8))).record (fun x => ⟨x.1, x.2.1, x.2.2⟩)
    (fun h => (h.flags, h.seq, h.id)) fun _ => rfl

/-- The agent and a worker whose handlers return the low bytes of the request. -/
def diskService : Service DiskRpc Unit where
  Req r := BitVec (8 * r.reqSize)
  Resp r := BitVec (8 * r.respSize)
  isOneway r := r == .registerMemory || r == .unregisterMemory
  id := DiskRpc.id
  header := headerCodec
  req r := Codec.word r.reqSize
  resp r := Codec.word r.respSize
  handler _ _ req := some (req.setWidth _)
  rpcs := [.bulk, .registerMemory, .unregisterMemory, .mount, .umount]
  peerRpcs := [.bulk, .registerMemory, .unregisterMemory, .mount, .umount]
  maxRpcMsgSize := 4096
  peerMaxRpcMsgSize := 4096
  queueDepth := 2

/-- Two calls; the later one is answered first, on the receive of the other. -/
def swapped : List (Act diskService) :=
  [.call .mount 3#64, .call .umount 5#64, .acquireRecv 0, .postRecv 0, .acquireRecv 1, .postRecv 0, .acquireSend 1,
    .acquireSend 1, .postSend 1 [], .postSend 1 [], .serve 1 () [], .serve 0 () [], .arrive 0 1 [7], .dispatch 0, .sent 0 16]

/-- The number of a call, and the values of its promise. -/
def RpcContext.summary (c : RpcContext diskService) : ℕ × List (DiskRpc × ℕ) :=
  (c.call.seq.toNat, c.values.map fun v => (v.1, BitVec.toNat v.2))

theorem answered_of_run_swapped :
    ∃ s, run step (init diskService) swapped = some s ∧ s.invoked < 2 ^ 32 ∧ s.outstandingRpcs = [(1, 0)] ∧
      s.contexts.map RpcContext.summary = [(1, []), (2, [(.mount, 3)])] ∧ Answered s := by
  have hrun : ((run step (init diskService) swapped).map fun s => decide (s.invoked < 2 ^ 32 ∧
      s.outstandingRpcs = [(1, 0)] ∧ s.contexts.map RpcContext.summary = [(1, []), (2, [(.mount, 3)])])) =
      some true := by decide +kernel
  obtain ⟨s, hs, hsum⟩ := Option.map_eq_some_iff.mp hrun
  obtain ⟨hn, hout, hctx⟩ := of_decide_eq_true hsum
  exact ⟨s, hs, hn, hout, hctx, answered_of_run DiskRpc.id_injective swapped s hs hn⟩

end DShuffle.Trans.Transport
