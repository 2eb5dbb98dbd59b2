import DShuffle.Base.ByteMemory
import DShuffle.Base.Transition
import Mathlib.Algebra.Order.Ring.Nat

/-!
# Operations over TCP

`tcp::Endpoint` hands an operation to the kernel through an io_uring: `post` fills in
a request for the operation's buffer, and `progress` takes a completion off the ring
and adds the bytes that were moved to `tx_size`. Messages have nothing but their size
to tell them apart, so an operation has to move its whole buffer before `op_res` is set.

## The model

* One machine for the endpoint and the kernel. An operation is posted while no other
  of its kind is outstanding, which is one for each socket and direction. The kernel
  moves bytes of a request and completes it, and `progress` handles the oldest completion.
* `wire` is what went over the socket in the direction of an operation. Bytes that
  leave are those of the request's part of the buffer; bytes that come in are the
  peer's, whatever they are, and are put there.
* The length of a request is 32 bits wide, and a count of moved bytes is an `int`.

## What is proved

* `Inv.step` — what a step keeps, if it does not take a short completion for a whole one.
* `whole_iff` — exactly when every operation is whole.
* `recv_prefix_send` — then the messages that one side received are those that the
  other sent, one by one.

## Honest scope

The ring has room for the four operations, as it has more entries than buffers. Sockets
stay open: `stop` makes requests fail, and those are the completions `fail`.
-/

namespace DShuffle.Trans.Tcp

open Base

/-- `Op`. -/
inductive Op where
  | send | recv | read | write
  deriving DecidableEq, Repr

/-- The operation sends the bytes of its buffer. -/
def Op.outgoing : Op → Bool
  | .send | .write => true
  | .recv | .read => false

/-- `OpContext`. -/
structure OpContext where
  /-- `op`. -/
  op : Op
  /-- The bytes of `l_buf`. -/
  lBuf : Bytes
  /-- `tx_size`. -/
  txSize : ℕ
  /-- What the promise `op_res` was set to. -/
  opRes : List ℤ
  deriving DecidableEq, Repr

namespace OpContext

/-- A new context. -/
def new (op : Op) (lBuf : Bytes) : OpContext := ⟨op, lBuf, 0, []⟩

/-- `op_res.set_value`. -/
def setValue (ctx : OpContext) (v : ℤ) : OpContext := { ctx with opRes := ctx.opRes ++ [v] }

end OpContext

/-- A request: which part of the buffer the kernel is to move. -/
structure Sqe where
  /-- Where the part starts. -/
  off : ℕ
  /-- Its length, in 32 bits. -/
  len : ℕ
  deriving DecidableEq, Repr

/-- `post`. -/
def post (ctx : OpContext) : Sqe :=
  match ctx.op with
  | .send => ⟨0, u32 ctx.lBuf.length⟩
  | .recv => ⟨0, u32 ctx.lBuf.length⟩
  | .read => ⟨0, u32 ctx.lBuf.length⟩
  | .write => ⟨ctx.txSize, u32 (ctx.lBuf.length - ctx.txSize)⟩

/-- The endpoint and the kernel. -/
structure St where
  /-- The requests that the kernel works on. -/
  sq : Op → Option (OpContext × Sqe)
  /-- The completions on the ring, each with its `res`. -/
  cq : List (OpContext × ℤ)
  /-- The operations whose `op_res` is set, in that order. -/
  finished : List OpContext
  /-- The bytes that went over the socket of an operation in its direction. -/
  wire : Op → Bytes

/-- What can happen. -/
inductive Act where
  /-- `post_send`, `post_recv`, `post_read` or `post_write`, with a buffer that holds these bytes. -/
  | post (op : Op) (lBuf : Bytes)
  /-- The kernel moves these bytes and completes the request. -/
  | transfer (op : Op) (bytes : Bytes)
  /-- The request completes with `res`, which is no count of bytes. -/
  | fail (op : Op) (res : ℤ)
  /-- `progress`. -/
  | progress
  deriving DecidableEq, Repr

/-- The kernel completes the request with a positive count. -/
def Act.Positive : Act → Prop
  | .fail _ _ => False
  | _ => True

/-- A state without operations. -/
def init : St := ⟨fun _ => none, [], [], fun _ => []⟩

/-- What `progress` does with a completion. -/
def handle (s : St) (ctx : OpContext) (res : ℤ) : St :=
  if 0 < res then
    let ctx := { ctx with txSize := ctx.txSize + res.toNat }
    if ctx.op = .write ∧ ctx.txSize < ctx.lBuf.length then { s with sq := Function.update s.sq .write (some (ctx, Tcp.post ctx)) }
    else { s with finished := s.finished ++ [ctx.setValue ctx.txSize] }
  else { s with finished := s.finished ++ [ctx.setValue res] }

/-- The context after the kernel moved the bytes: those that come in are in the buffer. -/
def moved (ctx : OpContext) (op : Op) (off : ℕ) (bytes : Bytes) : OpContext :=
  if op.outgoing then ctx else { ctx with lBuf := patch ctx.lBuf off bytes }

/-- A step; `none` if it cannot be taken. -/
def step (s : St) : Act → Option St
  | .post op lBuf =>
    -- one operation for each socket and direction
    if s.sq op = none ∧ ∀ e ∈ s.cq, e.1.op ≠ op then
      some { s with sq := Function.update s.sq op (some (.new op lBuf, Tcp.post (.new op lBuf))) }
    else none
  | .transfer op bytes =>
    match s.sq op with
    | none => none
    | some (ctx, sqe) =>
      if 0 < bytes.length ∧ bytes.length ≤ sqe.len ∧ bytes.length < 2 ^ 31 ∧
          (op.outgoing = true → bytes = slice ctx.lBuf sqe.off bytes.length) then
        some { s with sq := Function.update s.sq op none, cq := s.cq ++ [(moved ctx op sqe.off bytes, (bytes.length : ℤ))]
                      wire := Function.update s.wire op (s.wire op ++ bytes) }
      else none
  | .fail op res =>
    match s.sq op with
    | none => none
    | some (ctx, _) =>
      if res ≤ 0 then some { s with sq := Function.update s.sq op none, cq := s.cq ++ [(ctx, res)] } else none
  | .progress =>
    match s.cq with
    | [] => some s
    | (ctx, res) :: cq => some (handle { s with cq := cq } ctx res)

/-! ### Whole operations -/

/-- The buffers of the finished operations of a kind, in order. -/
def St.messages (s : St) (op : Op) : List Bytes := (s.finished.filter fun c => c.op = op).map OpContext.lBuf

/-- The bytes that were moved for the outstanding operation of a kind. -/
def St.inFlight (s : St) (op : Op) : Bytes :=
  match s.sq op with
  | some (ctx, _) => ctx.lBuf.take ctx.txSize
  | none =>
    match s.cq.find? fun e => e.1.op = op with
    | some (ctx, res) => ctx.lBuf.take (ctx.txSize + res.toNat)
    | none => []

/-- **Operations are whole**: the bytes on a wire are those of the buffers of the finished operations, then those that
were moved for the outstanding one. So no byte is left out, repeated or out of order. -/
structure Whole (s : St) : Prop where
  /-- `op_res` of a finished operation was set once, to the size of its buffer. -/
  set : ∀ c ∈ s.finished, c.opRes = [(c.lBuf.length : ℤ)]
  /-- That of an operation the kernel works on was not set. -/
  unsetSq : ∀ op ctx sqe, s.sq op = some (ctx, sqe) → ctx.opRes = []
  /-- Nor was that of one with a completion on the ring. -/
  unsetCq : ∀ e ∈ s.cq, e.1.opRes = []
  /-- The bytes on a wire. -/
  wire : ∀ op, s.wire op = (s.messages op).flatten ++ s.inFlight op
  /-- While bytes are missing, the kernel is asked for some. -/
  asked : ∀ op ctx sqe, s.sq op = some (ctx, sqe) → ctx.txSize < ctx.lBuf.length → 0 < sqe.len

/-- **The condition**: a buffer that is posted has no multiple of 2^32 bytes, and the completion that `progress` takes
off the ring finishes the buffer, or is of a `Write` that still has bytes to move, again no multiple of 2^32. -/
def Condition (s : St) : Act → Prop
  | .post _ lBuf => lBuf ≠ [] → 0 < u32 lBuf.length
  | .progress => ∀ ctx res, s.cq.head? = some (ctx, res) →
      ctx.txSize + res.toNat = ctx.lBuf.length ∨
        ctx.op = .write ∧ 0 < u32 (ctx.lBuf.length - (ctx.txSize + res.toNat))
  | _ => True

theorem condition_progress_iff {s : St} : (∀ e ∈ s.cq.head?, e.1.txSize + e.2.toNat = e.1.lBuf.length ∨
    e.1.op = .write ∧ 0 < u32 (e.1.lBuf.length - (e.1.txSize + e.2.toNat))) ↔ Condition s .progress :=
  ⟨fun h ctx res he => h (ctx, res) he, fun h e he => h e.1 e.2 he⟩

instance decidableCondition (s : St) : ∀ a, Decidable (Condition s a)
  | .post _ lBuf => inferInstanceAs (Decidable (lBuf ≠ [] → 0 < u32 lBuf.length))
  | .progress => decidable_of_iff _ condition_progress_iff
  | .transfer .. | .fail .. => isTrue trivial

/-! ### The invariant -/

/-- An operation that is not finished, and of whose buffer `moved` bytes were moved. -/
structure OpContext.Running (ctx : OpContext) (moved : ℕ) : Prop where
  /-- `op_res` is not set. -/
  unset : ctx.opRes = []
  /-- No more bytes were moved than there are. -/
  le : moved ≤ ctx.lBuf.length
  /-- Only a `Write` is posted again. -/
  fresh : ctx.op ≠ .write → ctx.txSize = 0

/-- What holds of the endpoint as long as operations are whole. -/
structure Inv (s : St) : Prop where
  /-- What the kernel works on was posted. -/
  sq : ∀ op ctx sqe, s.sq op = some (ctx, sqe) → ctx.op = op ∧ sqe = Tcp.post ctx ∧ ctx.Running ctx.txSize
  /-- It is asked for bytes as long as some are missing. -/
  asked : ∀ op ctx sqe, s.sq op = some (ctx, sqe) → ctx.txSize < ctx.lBuf.length → 0 < sqe.len
  /-- The completions on the ring count bytes. -/
  cq : ∀ e ∈ s.cq, 0 < e.2 ∧ e.1.Running (e.1.txSize + e.2.toNat)
  /-- There is one of a kind. -/
  one : (s.cq.map fun e => e.1.op).Nodup
  /-- The kernel does not work on an operation that is complete. -/
  free : ∀ e ∈ s.cq, s.sq e.1.op = none
  /-- Finished operations were set once, to the size of the buffer. -/
  set : ∀ c ∈ s.finished, c.opRes = [(c.lBuf.length : ℤ)]
  /-- The bytes on a wire. -/
  wire : ∀ op, s.wire op = (s.messages op).flatten ++ s.inFlight op

variable {s s' : St} {op : Op} {ctx : OpContext} {sqe : Sqe} {bytes lBuf : Bytes} {res : ℤ} {cq : List (OpContext × ℤ)}

theorem Inv.whole (h : Inv s) : Whole s :=
  ⟨h.set, fun op ctx sqe hs => (h.sq op ctx sqe hs).2.2.unset, fun e he => (h.cq e he).2.unset, h.wire, h.asked⟩

theorem inv_init : Inv init := by
  refine ⟨fun op ctx sqe hs => ?_, fun op ctx sqe hs => ?_, fun e he => ?_, List.nodup_nil, fun e he => ?_, fun c hc => ?_,
    fun op => rfl⟩
  · cases hs
  · cases hs
  · cases he
  · cases he
  · cases hc

/-- The request starts where the bytes that were moved end, and does not reach past the buffer. -/
theorem OpContext.Running.post (h : ctx.Running ctx.txSize) :
    (Tcp.post ctx).off = ctx.txSize ∧ ctx.txSize + (Tcp.post ctx).len ≤ ctx.lBuf.length := by
  have hle := h.le
  cases hop : ctx.op with
  | write =>
    have hrest := u32_le (ctx.lBuf.length - ctx.txSize)
    simp only [Tcp.post, hop]
    exact ⟨trivial, by omega⟩
  | _ =>
    have hzero := h.fresh (by rw [hop]; decide)
    have hall := u32_le ctx.lBuf.length
    simp only [Tcp.post, hop]
    omega

/-! ### Bytes in flight -/

theorem inFlight_of_sq (h : s.sq op = some (ctx, sqe)) : s.inFlight op = ctx.lBuf.take ctx.txSize := by
  rw [St.inFlight, h]

theorem inFlight_of_cq (h : s.sq op = none) (hfind : s.cq.find? (fun e => e.1.op = op) = some (ctx, res)) :
    s.inFlight op = ctx.lBuf.take (ctx.txSize + res.toNat) := by
  rw [St.inFlight, h, hfind]

theorem inFlight_of_idle (h : s.sq op = none) (hcq : ∀ e ∈ s.cq, e.1.op ≠ op) : s.inFlight op = [] := by
  have hfind : s.cq.find? (fun e => e.1.op = op) = none := by
    refine List.find?_eq_none.mpr fun e he => ?_
    simpa using hcq e he
  rw [St.inFlight, h, hfind]

/-- The bytes in flight depend on the request and the completion of the kind. -/
theorem inFlight_congr {t : St} (hsq : t.sq op = s.sq op)
    (hcq : t.cq.find? (fun e => e.1.op = op) = s.cq.find? (fun e => e.1.op = op)) : t.inFlight op = s.inFlight op := by
  rw [St.inFlight, St.inFlight, hsq, hcq]

/-- Another kind has a new request. -/
theorem inFlight_update {x : Option (OpContext × Sqe)} {op' : Op} (h : op' ≠ op) :
    St.inFlight { s with sq := Function.update s.sq op x } op' = s.inFlight op' :=
  inFlight_congr (Function.update_of_ne h ..) rfl

/-- No completion on the ring is of a kind that the kernel works on. -/
theorem Inv.notMem_cq (h : Inv s) (hs : s.sq op = some (ctx, sqe)) : ∀ e ∈ s.cq, e.1.op ≠ op := by
  rintro e he rfl
  rw [h.free e he] at hs
  cases hs

/-! ### Steps -/

/-- An operation that the kernel works on is the one that was just posted, or was posted before. -/
theorem cases_posted {op op' : Op} {c c' : OpContext} {e e' : Sqe}
    (h : Function.update s.sq op (some (c, e)) op' = some (c', e')) :
    (op' = op ∧ c' = c ∧ e' = e) ∨ s.sq op' = some (c', e') := by
  by_cases heq : op' = op
  · subst heq
    rw [Function.update_self, Option.some.injEq, Prod.mk.injEq] at h
    exact Or.inl ⟨rfl, h.1.symm, h.2.symm⟩
  · rw [Function.update_of_ne heq] at h
    exact Or.inr h

/-- An operation is posted. -/
theorem Inv.post (h : Inv s) (hfree : s.sq op = none) (hcq : ∀ e ∈ s.cq, e.1.op ≠ op)
    (hlen : lBuf ≠ [] → 0 < u32 lBuf.length) :
    Inv { s with sq := Function.update s.sq op (some (.new op lBuf, Tcp.post (.new op lBuf))) } := by
  refine ⟨fun op' ctx sqe hs => ?_, fun op' ctx sqe hs hlt => ?_, h.cq, h.one, fun e he => ?_, h.set, fun op' => ?_⟩
  · rcases cases_posted hs with ⟨rfl, rfl, rfl⟩ | hs
    · exact ⟨rfl, rfl, rfl, Nat.zero_le _, fun _ => rfl⟩
    · exact h.sq op' ctx sqe hs
  · rcases cases_posted hs with ⟨rfl, rfl, rfl⟩ | hs
    · have hpos := hlen (List.length_pos_iff.mp hlt)
      cases op' <;> exact hpos
    · exact h.asked op' ctx sqe hs hlt
  · show Function.update s.sq op _ e.1.op = none
    rw [Function.update_of_ne (hcq e he)]
    exact h.free e he
  · refine (h.wire op').trans ?_
    congr 1
    by_cases heq : op' = op
    · subst heq
      rw [inFlight_of_idle hfree hcq, inFlight_of_sq (Function.update_self ..)]
      rfl
    · exact (inFlight_update heq).symm

/-- What was moved is the next part of the buffer. -/
theorem take_moved (h : ctx.Running ctx.txSize) (hlen : ctx.txSize + bytes.length ≤ ctx.lBuf.length)
    (hout : op.outgoing = true → bytes = slice ctx.lBuf ctx.txSize bytes.length) :
    (moved ctx op ctx.txSize bytes).lBuf.length = ctx.lBuf.length ∧
      (moved ctx op ctx.txSize bytes).lBuf.take (ctx.txSize + bytes.length) = ctx.lBuf.take ctx.txSize ++ bytes := by
  have hle := h.le
  unfold moved
  split_ifs with hop
  · refine ⟨rfl, ?_⟩
    conv_rhs => rw [hout hop]
    rw [List.take_add, slice]
  · refine ⟨length_patch hlen, ?_⟩
    have htake : (ctx.lBuf.take ctx.txSize ++ bytes).length = ctx.txSize + bytes.length := by
      rw [List.length_append, List.length_take, Nat.min_eq_left hle]
    show (patch ctx.lBuf ctx.txSize bytes).take _ = _
    rw [patch, ← htake, List.take_left]

/-- The kernel moves bytes. -/
theorem Inv.transfer (h : Inv s) (hs : s.sq op = some (ctx, sqe)) (hpos : 0 < bytes.length) (hle : bytes.length ≤ sqe.len)
    (hout : op.outgoing = true → bytes = slice ctx.lBuf sqe.off bytes.length) :
    Inv { s with sq := Function.update s.sq op none, cq := s.cq ++ [(moved ctx op sqe.off bytes, (bytes.length : ℤ))]
                 wire := Function.update s.wire op (s.wire op ++ bytes) } := by
  obtain ⟨hop, hsqe, hrun⟩ := h.sq op ctx sqe hs
  have hnot := h.notMem_cq hs
  obtain ⟨hoff, hend⟩ := hrun.post
  rw [← hsqe] at hoff hend
  rw [hoff] at hout ⊢
  obtain ⟨hlength, htake⟩ := take_moved hrun (by omega) hout
  have hmop : (moved ctx op ctx.txSize bytes).op = op := by
    unfold moved
    split_ifs <;> exact hop
  have hmtx : (moved ctx op ctx.txSize bytes).txSize = ctx.txSize := by
    unfold moved
    split_ifs <;> rfl
  have hmres : (moved ctx op ctx.txSize bytes).opRes = ctx.opRes := by
    unfold moved
    split_ifs <;> rfl
  have hfind : s.cq.find? (fun e => e.1.op = op) = none := by
    refine List.find?_eq_none.mpr fun e he => ?_
    simpa using hnot e he
  have hsq : ∀ op' ctx sqe, Function.update s.sq op none op' = some (ctx, sqe) → s.sq op' = some (ctx, sqe) := by
    intro op' ctx sqe hs'
    by_cases heq : op' = op
    · subst heq
      rw [Function.update_self] at hs'
      cases hs'
    · rwa [Function.update_of_ne heq] at hs'
  refine ⟨fun op' ctx sqe hs' => h.sq op' ctx sqe (hsq op' ctx sqe hs'),
    fun op' ctx sqe hs' => h.asked op' ctx sqe (hsq op' ctx sqe hs'),
    fun e he => ?_, ?_, fun e he => ?_, h.set, fun op' => ?_⟩
  · rcases List.mem_append.mp he with he | he
    · exact h.cq e he
    · rw [List.mem_singleton.mp he]
      refine ⟨Int.natCast_pos.mpr hpos, by rw [hmres]; exact hrun.unset, ?_, fun hne => ?_⟩
      · show (moved ctx op ctx.txSize bytes).txSize + bytes.length ≤ _
        rw [hmtx, hlength]
        omega
      · rw [hmtx]
        exact hrun.fresh (by rw [hop]; rwa [hmop] at hne)
  · rw [List.map_append, List.nodup_append]
    refine ⟨h.one, List.pairwise_singleton _ _, fun x hx y hy => ?_⟩
    obtain ⟨e, he, rfl⟩ := List.mem_map.mp hx
    rw [List.map_singleton, List.mem_singleton, hmop] at hy
    rw [hy]
    exact hnot e he
  · show Function.update s.sq op none e.1.op = none
    rcases List.mem_append.mp he with he | he
    · rw [Function.update_of_ne (hnot e he)]
      exact h.free e he
    · rw [List.mem_singleton.mp he, hmop, Function.update_self]
  · show Function.update s.wire op (s.wire op ++ bytes) op' = (s.messages op').flatten ++ _
    by_cases heq : op' = op
    · subst heq
      have hnew : St.inFlight { s with sq := Function.update s.sq op' none
                                       cq := s.cq ++ [(moved ctx op' ctx.txSize bytes, (bytes.length : ℤ))]
                                       wire := Function.update s.wire op' (s.wire op' ++ bytes) } op' =
          (moved ctx op' ctx.txSize bytes).lBuf.take ((moved ctx op' ctx.txSize bytes).txSize + bytes.length) := by
        simp only [St.inFlight, Function.update_self, List.find?_append, hfind, Option.none_or]
        simp [hmop]
      rw [hnew, hmtx, htake, Function.update_self, h.wire, inFlight_of_sq hs, List.append_assoc]
    · rw [Function.update_of_ne heq, h.wire]
      congr 1
      refine (inFlight_congr (s := s) (Function.update_of_ne heq ..) ?_).symm
      have hne : ¬ (moved ctx op ctx.txSize bytes).op = op' := fun hm => heq (hm.symm.trans hmop)
      simp [List.find?_append, hne]

/-- The oldest completion is taken off the ring. -/
theorem Inv.handle (h : Inv s) (hcq : s.cq = (ctx, res) :: cq)
    (hc : ctx.txSize + res.toNat = ctx.lBuf.length ∨
      ctx.op = .write ∧ 0 < u32 (ctx.lBuf.length - (ctx.txSize + res.toNat))) :
    Inv (handle { s with cq := cq } ctx res) := by
  obtain ⟨hpos, hrun⟩ := h.cq _ (by rw [hcq]; exact List.mem_cons_self ..)
  have hone := h.one
  rw [hcq, List.map_cons, List.nodup_cons] at hone
  have hfree : s.sq ctx.op = none := h.free (ctx, res) (by rw [hcq]; exact List.mem_cons_self ..)
  have hmem : ∀ e ∈ cq, e ∈ s.cq := fun e he => by rw [hcq]; exact List.mem_cons_of_mem _ he
  have hne : ∀ e ∈ cq, e.1.op ≠ ctx.op := fun e he heq => hone.1 (heq ▸ List.mem_map_of_mem he)
  have hflight : s.inFlight ctx.op = ctx.lBuf.take (ctx.txSize + res.toNat) :=
    inFlight_of_cq hfree (by rw [hcq]; simp)
  have hother : ∀ op, op ≠ ctx.op → cq.find? (fun e => e.1.op = op) = s.cq.find? fun e => e.1.op = op := by
    intro op hop
    rw [hcq, List.find?_cons_of_neg (by simpa using Ne.symm hop)]
  unfold Tcp.handle
  rw [if_pos hpos]
  dsimp only
  split_ifs with hwrite
  · obtain ⟨hw, hlt⟩ := hwrite
    have hpost : 0 < u32 (ctx.lBuf.length - (ctx.txSize + res.toNat)) := by
      rcases hc with hc | hc
      · omega
      · exact hc.2
    rw [hw] at hfree hne hflight hother
    generalize hctx : ({ ctx with txSize := ctx.txSize + res.toNat } : OpContext) = ctx'
    have hop' : ctx'.op = .write := by rw [← hctx]; exact hw
    have hrun' : ctx'.Running ctx'.txSize := by
      subst hctx
      exact ⟨hrun.unset, hrun.le, fun hnot => absurd hw hnot⟩
    have hlen' : (Tcp.post ctx').len = u32 (ctx.lBuf.length - (ctx.txSize + res.toNat)) := by
      rw [Tcp.post, hop', ← hctx]
    refine ⟨fun op c sqe hs => ?_, fun op c sqe hs hlt => ?_, fun e he => h.cq e (hmem e he), hone.2, fun e he => ?_, h.set,
      fun op => ?_⟩
    · rcases cases_posted hs with ⟨rfl, rfl, rfl⟩ | hs
      · exact ⟨hop', rfl, hrun'⟩
      · exact h.sq op c sqe hs
    · rcases cases_posted hs with ⟨rfl, rfl, rfl⟩ | hs
      · rw [hlen']
        exact hpost
      · exact h.asked op c sqe hs hlt
    · show Function.update s.sq .write _ e.1.op = none
      rw [Function.update_of_ne (hne e he)]
      exact h.free e (hmem e he)
    · refine (h.wire op).trans ?_
      congr 1
      by_cases heq : op = .write
      · subst heq
        have hnew : St.inFlight { s with sq := Function.update s.sq .write (some (ctx', Tcp.post ctx')), cq := cq } .write =
            ctx'.lBuf.take ctx'.txSize := by simp only [St.inFlight, Function.update_self]
        rw [hflight, hnew, ← hctx]
      · exact (inFlight_congr (s := s) (Function.update_of_ne heq ..) (hother op heq)).symm
  · have hall : ctx.txSize + res.toNat = ctx.lBuf.length := by
      rcases hc with hc | ⟨hw, hrest⟩
      · exact hc
      · have hle := u32_le (ctx.lBuf.length - (ctx.txSize + res.toNat))
        exact absurd ⟨hw, by omega⟩ hwrite
    refine ⟨h.sq, h.asked, fun e he => h.cq e (hmem e he), hone.2, fun e he => h.free e (hmem e he), fun c hc => ?_, fun op => ?_⟩
    · rcases List.mem_append.mp hc with hc | hc
      · exact h.set c hc
      · rw [List.mem_singleton.mp hc]
        show ctx.opRes ++ [((ctx.txSize + res.toNat : ℕ) : ℤ)] = [(ctx.lBuf.length : ℤ)]
        rw [hrun.unset, hall]
        rfl
    · refine (h.wire op).trans ?_
      by_cases heq : op = ctx.op
      · subst heq
        have hnew : St.inFlight { s with cq := cq } ctx.op = [] := inFlight_of_idle hfree hne
        have hnone : St.inFlight { s with cq := cq, finished := s.finished ++ [({ ctx with txSize := ctx.txSize + res.toNat } :
            OpContext).setValue ((ctx.txSize + res.toNat : ℕ) : ℤ)] } ctx.op = [] := hnew
        rw [hflight, hall, List.take_length]
        rw [hall] at hnone
        rw [hnone, List.append_nil]
        simp [St.messages, OpContext.setValue]
      · have hkeep : (s.finished ++ [({ ctx with txSize := ctx.txSize + res.toNat } : OpContext).setValue
            ((ctx.txSize + res.toNat : ℕ) : ℤ)]).filter (fun c => c.op = op) = s.finished.filter fun c => c.op = op := by
          simp [OpContext.setValue, Ne.symm heq]
        have hnew : St.inFlight { s with cq := cq } op = s.inFlight op := inFlight_congr rfl (hother op heq)
        rw [← hnew, St.messages, St.messages, hkeep]
        rfl

/-- **What a step keeps**, if it meets the condition. -/
theorem Inv.step (h : Inv s) {a : Act} (hpos : a.Positive) (hc : Condition s a) (hs : step s a = some s') : Inv s' := by
  cases a with
  | post op lBuf =>
    simp only [Tcp.step] at hs
    split_ifs at hs with hfree
    cases hs
    exact h.post hfree.1 hfree.2 hc
  | transfer op bytes =>
    simp only [Tcp.step] at hs
    cases hsq : s.sq op with
    | none =>
      rw [hsq] at hs
      cases hs
    | some e =>
      obtain ⟨ctx, sqe⟩ := e
      rw [hsq] at hs
      dsimp only at hs
      split_ifs at hs with hok
      cases hs
      exact h.transfer hsq hok.1 hok.2.1 hok.2.2.2
  | fail op res => exact hpos.elim
  | progress =>
    simp only [Tcp.step] at hs
    cases hcq : s.cq with
    | nil =>
      rw [hcq] at hs
      cases hs
      exact h
    | cons e cq =>
      obtain ⟨ctx, res⟩ := e
      rw [hcq] at hs
      cases hs
      exact h.handle hcq (hc ctx res (by rw [hcq]; rfl))

/-- A step that does not meet the condition leads to a state in which an operation is not whole. -/
theorem condition_of_whole (h : Inv s) {a : Act} (hpos : a.Positive) (hs : step s a = some s') (hw : Whole s') :
    Condition s a := by
  cases a with
  | post op lBuf =>
    intro hne
    simp only [Tcp.step] at hs
    split_ifs at hs with hfree
    cases hs
    have hlen := hw.asked op _ _ (Function.update_self ..) (List.length_pos_iff.mpr hne)
    cases op <;> exact hlen
  | transfer op bytes => trivial
  | fail op res => exact hpos.elim
  | progress =>
    intro ctx res hhead
    cases hcq : s.cq with
    | nil =>
      rw [hcq] at hhead
      cases hhead
    | cons e cq =>
      rw [hcq] at hhead
      cases hhead
      simp only [Tcp.step, hcq, Option.some.injEq] at hs
      obtain ⟨hres, hrun⟩ := h.cq (ctx, res) (by rw [hcq]; exact List.mem_cons_self ..)
      have hle := hrun.le
      unfold handle at hs
      rw [if_pos hres] at hs
      dsimp only at hs
      split_ifs at hs with hwrite
      · subst hs
        have hreq : ∀ x, Function.update s.sq .write x .write = x := fun x => Function.update_self ..
        have hlen := hw.asked .write _ _ (hreq _) hwrite.2
        simp only [Tcp.post, hwrite.1] at hlen
        exact Or.inr ⟨hwrite.1, hlen⟩
      · subst hs
        have hset := hw.set _ (List.mem_append_right _ (List.mem_singleton_self _))
        have hunset : ctx.opRes = [] := hrun.unset
        simp only [OpContext.setValue, hunset, List.nil_append, List.cons.injEq, and_true] at hset
        exact Or.inl (Int.ofNat_inj.mp hset)

/-- **Exactly when operations are whole**: in every state of a run in which the kernel completes requests with positive
counts only, all operations are whole if and only if every step of it meets the condition. -/
theorem whole_iff {as : List Act} (hpos : ∀ a ∈ as, a.Positive) (hr : run step init as = some s) :
    Throughout step Whole init as ↔ Along step Condition init as :=
  throughout_iff_along_of (fun _ _ _ hp h hc hs => Inv.step h hp hc hs) (fun _ h => h.whole)
    (fun _ _ _ hp h hs hw => condition_of_whole h hp hs hw) inv_init hpos hr

/-- A `Write` of three bytes that is moved in two parts. -/
def resumed : List Act :=
  [.post .write [1, 2, 3], .transfer .write [1, 2], .progress, .transfer .write [3], .progress]

theorem whole_resumed : ∃ s, run step init resumed = some s ∧ (∀ a ∈ resumed, a.Positive) ∧
    Throughout step Whole init resumed := by
  have hpos : ∀ a ∈ resumed, a.Positive := by
    intro a ha
    simp only [resumed, List.mem_cons, List.not_mem_nil, or_false] at ha
    rcases ha with rfl | rfl | rfl | rfl | rfl <;> trivial
  cases hr : run step init resumed with
  | none =>
    have hsome : (run step init resumed).isSome = true := by decide
    rw [hr] at hsome
    cases hsome
  | some s => exact ⟨s, rfl, hpos, (whole_iff hpos hr).mpr (by decide)⟩

/-- A message of three bytes, of which the kernel takes two. -/
def short : List Act := [.post .send [1, 2, 3], .transfer .send [1, 2], .progress]

/-- **A short `Send` is reported as it is, and the rest of the message is never sent.** -/
theorem not_whole_short : ∃ s, run step init short = some s ∧ (∀ a ∈ short, a.Positive) ∧
    s.finished = [⟨.send, [1, 2, 3], 2, [2]⟩] ∧ s.sq .send = none ∧ s.wire .send = [1, 2] ∧ ¬ Throughout step Whole init short := by
  have hpos : ∀ a ∈ short, a.Positive := by
    intro a ha
    simp only [short, List.mem_cons, List.not_mem_nil, or_false] at ha
    rcases ha with rfl | rfl | rfl <;> trivial
  cases hr : run step init short with
  | none =>
    have hsome : (run step init short).isSome = true := by decide
    rw [hr] at hsome
    cases hsome
  | some s =>
    have hfin : (run step init short).map (fun s => (s.finished, s.sq .send, s.wire .send)) =
        some ([⟨.send, [1, 2, 3], 2, [2]⟩], none, [1, 2]) := by decide
    rw [hr, Option.map_some, Option.some.injEq, Prod.mk.injEq, Prod.mk.injEq] at hfin
    refine ⟨s, rfl, hpos, hfin.1, hfin.2.1, hfin.2.2, fun ht => ?_⟩
    have hset := (ht short [] s (by simp) hr).set ⟨.send, [1, 2, 3], 2, [2]⟩ (by rw [hfin.1]; exact List.mem_singleton_self _)
    exact absurd hset (by decide)

/-! ### Alignment -/

/-- Pieces of one size are found again in what they make up. -/
theorem prefix_of_flatten {ps qs : List Bytes} {r t : Bytes} {m : ℕ} (hm : 0 < m) (hp : ∀ p ∈ ps, p.length = m)
    (hq : ∀ q ∈ qs, q.length = m) (ht : t.length ≤ m) (h : ps.flatten ++ r <+: qs.flatten ++ t) : ps <+: qs ++ [t] := by
  induction ps generalizing qs with
  | nil => exact List.nil_prefix
  | cons p ps ih =>
    have hpm : p.length = m := hp p (List.mem_cons_self ..)
    rw [List.flatten_cons, List.append_assoc] at h
    cases qs with
    | nil =>
      obtain ⟨rest, hrest⟩ := h
      have hlen := congrArg List.length hrest
      simp only [List.flatten_nil, List.nil_append, List.length_append] at hlen
      have hps : ps = [] := by
        cases ps with
        | nil => rfl
        | cons p' ps =>
          have hp' := hp p' (List.mem_cons_of_mem _ (List.mem_cons_self ..))
          rw [List.flatten_cons, List.length_append] at hlen
          omega
      subst hps
      have hr : r = [] := List.eq_nil_of_length_eq_zero (by omega)
      have hrest' : rest = [] := List.eq_nil_of_length_eq_zero (by omega)
      subst hr hrest'
      simp only [List.flatten_nil, List.append_nil, List.nil_append] at hrest
      rw [hrest]
      exact List.prefix_rfl
    | cons q qs =>
      have hqm : q.length = m := hq q (List.mem_cons_self ..)
      rw [List.flatten_cons, List.append_assoc] at h
      obtain ⟨rest, hrest⟩ := h
      rw [List.append_assoc] at hrest
      obtain ⟨rfl, htail⟩ := List.append_inj hrest (by omega)
      rw [List.cons_append]
      refine (List.prefix_cons_inj p).mpr (ih (fun p' hp' => hp p' (List.mem_cons_of_mem _ hp'))
        (fun q' hq' => hq q' (List.mem_cons_of_mem _ hq')) ⟨rest, ?_⟩)
      rw [← htail]

/-- **The messages keep their alignment**: when operations are whole, all messages have one size, and what one side took
off the socket is what the other side put on it, the messages received are those sent, in order. -/
theorem recv_prefix_send {a b : St} {m : ℕ} (ha : Whole a) (hb : Whole b) (hm : 0 < m) (hwire : b.wire .recv <+: a.wire .send)
    (hsent : ∀ x ∈ a.messages .send, x.length = m) (hrecv : ∀ x ∈ b.messages .recv, x.length = m)
    (hflight : (a.inFlight .send).length ≤ m) : b.messages .recv <+: a.messages .send ++ [a.inFlight .send] := by
  rw [ha.wire, hb.wire] at hwire
  exact prefix_of_flatten hm hrecv hsent hflight hwire

end DShuffle.Trans.Tcp
