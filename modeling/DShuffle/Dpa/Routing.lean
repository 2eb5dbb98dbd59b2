import Mathlib.Algebra.BigOperators.Group.List.Basic
import DShuffle.Base.ByteMemory
import DShuffle.Base.Transition

/-!
# Which task a completion is for

Any number of fibers call `trigger` on one `DPAThreadGroup`. A call takes the first inactive thread, posts a receive
task and then a send task on the thread's queues, and waits; the thread sends a payload with the id it was given. The
poller's `task_cb` finds the context of a payload by the id alone, in `outstanding_tasks`.

## The model

* One machine, whose actions are the steps of the calls, of the DPA threads and of the poller. Fibers switch only where
  they yield: in `get_one_inactive_thread`, and in `submit_task` while the submission has to be tried again. What stands
  between two such places is one action, and an attempt that fails is none.
* The queues between the host and a thread keep their order, and every message arrives. A receive completes when there
  is a message and a receive task that was posted.
* A message is tagged with the context it is for. The tag is not in the message of the source, and no step reads it.
* What a thread computes is arbitrary.

## What is proved

* `Inv.step` — every context is at one stage, and the flags, the table and the queues are what the stages say.
* `routed_of_run` — every key of the table is an active thread, `emplace` finds no key, a thread has one task, and a
  promise is set once, with what the thread sent for the context's own input; no run is longer than seven steps for a
  call, and when nothing is left to do every promise was set.

## Honest scope

The threads were added before the first call, as many as the group has flags for. Tasks do not fail, and a submission
that is not to be tried again is not refused. The completion of a send task does nothing but write to the log; it is no
step.
-/

namespace DShuffle.Dpa.Routing

open Base

/-! ### The state -/

/-- `payload_t`. -/
structure Payload where
  /-- `id`. -/
  id : ℕ
  /-- `payload`. -/
  payload : Bytes
  deriving DecidableEq

/-- Where a call of `trigger` stands. -/
inductive Phase where
  /-- In `get_one_inactive_thread`. -/
  | select
  /-- Submitting the receive task; `t` is `inactive_thread`. -/
  | postRecv (t : ℕ)
  /-- Submitting the send task. -/
  | send (t : ℕ)
  /-- It has returned the future. -/
  | returned
  deriving DecidableEq

/-- A `TaskContext`, and where the call that it was given to stands. -/
structure TaskContext where
  /-- The call. -/
  phase : Phase
  /-- `input`. -/
  input : Payload
  /-- `output`, at each `done.set_value()`. -/
  done : List Payload
  deriving DecidableEq

/-- A message. -/
structure Msg where
  /-- The context it is for. -/
  ctx : ℕ
  /-- What is sent. -/
  data : Payload
  deriving DecidableEq

/-- The queues of a DPA thread. -/
structure Wire where
  /-- How many receive tasks are posted on `cpu_cons`. -/
  recvs : ℕ
  /-- `in_q`. -/
  inQ : List Msg
  /-- What the thread works on. -/
  running : Option Msg
  /-- `out_q`. -/
  outQ : List Msg
  deriving DecidableEq

/-- Nothing is posted or sent. -/
def Wire.empty : Wire := ⟨0, [], none, []⟩

/-- A `DPAThreadGroup` and its threads. -/
structure Group where
  /-- `active_flags`. -/
  active : ℕ → Bool
  /-- `outstanding_tasks`. -/
  outstanding : ℕ → Option ℕ
  /-- The queues of each thread. -/
  wires : ℕ → Wire
  /-- The contexts, in the order of the calls. -/
  ctxs : List TaskContext
  /-- How often `task_cb` found no context, "drop one ?". -/
  dropped : ℕ
  /-- What the threads took, and what they sent for it. -/
  sent : List (Msg × Payload)

/-! ### The steps -/

/-- The steps. -/
inductive Act where
  /-- A call of `trigger`, on a context with this input, whose id is not set yet. -/
  | trigger (input : Payload)
  /-- `get_one_inactive_thread` returns. -/
  | pick (c : ℕ)
  /-- The receive task is submitted, and the context entered in `outstanding_tasks`. -/
  | posted (c : ℕ)
  /-- The send task is submitted, and `trigger` returns. -/
  | submitted (c : ℕ)
  /-- Thread `t` takes a message, in `comch_cons_comp`. -/
  | take (t : ℕ)
  /-- Thread `t` sends its output. -/
  | reply (t : ℕ) (payload : Bytes)
  /-- A receive task of thread `t` completes, `task_cb`. -/
  | complete (t : ℕ)
  deriving DecidableEq

/-- It is a step of a call, of a thread or of the poller, and no new call. -/
def Act.pending : Act → Bool
  | .trigger _ => false
  | _ => true

/-- The number that an id of 64 bits is as a key. -/
def key (id : ℕ) : ℕ := id % 2 ^ 32

/-- `emplace`: an entry that is there stays. -/
def emplace (outstanding : ℕ → Option ℕ) (k c : ℕ) : ℕ → Option ℕ :=
  Function.update outstanding k ((outstanding k).or (some c))

/-- The first inactive thread. -/
def firstInactive (n : UInt32) (s : Group) : Option ℕ := (List.range n.toNat).find? fun t => !s.active t

/-- The queues of thread `t` are now `w`. -/
def Group.setWire (s : Group) (t : ℕ) (w : Wire) : Group := { s with wires := Function.update s.wires t w }

/-- `task_cb<Recv, Success>`, once the receive task and the message are off the queues. -/
def taskCb (s : Group) (p : Payload) : Group :=
  match s.outstanding (key p.id) with
  | none => { s with dropped := s.dropped + 1 }
  | some c =>
    { s with
      outstanding := Function.update s.outstanding (key p.id) none
      active := Function.update s.active p.id false
      ctxs := s.ctxs.modify c fun ctx => { ctx with done := ctx.done ++ [p] } }

/-- A step. -/
def step (n : UInt32) (s : Group) : Act → Option Group
  | .trigger input => some { s with ctxs := s.ctxs ++ [⟨.select, input, []⟩] }
  | .pick c =>
    match s.ctxs[c]?, firstInactive n s with
    | some ⟨.select, input, done⟩, some t =>
      some { s with
        active := Function.update s.active t true
        ctxs := s.ctxs.set c ⟨.postRecv t, { input with id := t }, done⟩ }
    | _, _ => none
  | .posted c =>
    match s.ctxs[c]? with
    | some ⟨.postRecv t, input, done⟩ =>
      some { s.setWire t { s.wires t with recvs := (s.wires t).recvs + 1 } with
        outstanding := emplace s.outstanding (key input.id) c
        ctxs := s.ctxs.set c ⟨.send t, input, done⟩ }
    | _ => none
  | .submitted c =>
    match s.ctxs[c]? with
    | some ⟨.send t, input, done⟩ =>
      some { s.setWire t { s.wires t with inQ := (s.wires t).inQ ++ [⟨c, input⟩] } with
        ctxs := s.ctxs.set c ⟨.returned, input, done⟩ }
    | _ => none
  | .take t =>
    match s.wires t with
    | ⟨recvs, m :: inQ, none, outQ⟩ => some (s.setWire t ⟨recvs, inQ, some m, outQ⟩)
    | _ => none
  | .reply t payload =>
    match s.wires t with
    | ⟨recvs, inQ, some m, outQ⟩ =>
      some { s.setWire t ⟨recvs, inQ, none, outQ ++ [⟨m.ctx, ⟨m.data.id, payload⟩⟩]⟩ with
        sent := s.sent ++ [(m, ⟨m.data.id, payload⟩)] }
    | _ => none
  | .complete t =>
    match s.wires t with
    | ⟨recvs + 1, inQ, running, m :: outQ⟩ => some (taskCb (s.setWire t ⟨recvs, inQ, running, outQ⟩) m.data)
    | _ => none

/-- The group before the first call. -/
def init : Group := ⟨fun _ => false, fun _ => none, fun _ => .empty, [], 0, []⟩

/-! ### The stages of a task -/

/-- How far a task is. -/
inductive Stage where
  /-- It has no thread. -/
  | select
  /-- It was given thread `t`. -/
  | given (t : ℕ)
  /-- It is in `outstanding_tasks`. -/
  | entered (t : ℕ)
  /-- Its input is on its way. -/
  | queued (t : ℕ)
  /-- The thread works on it. -/
  | running (t : ℕ)
  /-- The thread has sent `p`. -/
  | replied (t : ℕ) (p : Payload)
  /-- The promise was set. -/
  | done (p : Payload)

namespace Stage

/-- The thread that the task has. -/
def thread : Stage → Option ℕ
  | select => none
  | given t => some t
  | entered t => some t
  | queued t => some t
  | running t => some t
  | replied t _ => some t
  | done _ => none

/-- Where its call stands. -/
def phase : Stage → Phase
  | select => .select
  | given t => .postRecv t
  | entered t => .send t
  | queued _ | running _ | replied .. | done _ => .returned

/-- Whether it is in `outstanding_tasks`. -/
def entry (c : ℕ) : Stage → Option ℕ
  | entered _ | queued _ | running _ | replied .. => some c
  | select | given _ | done _ => none

/-- What the queues of its thread have. -/
def wire (m : Msg) : Stage → Wire
  | select | given _ | done _ => .empty
  | entered _ => ⟨1, [], none, []⟩
  | queued _ => ⟨1, [m], none, []⟩
  | running _ => ⟨1, [], some m, []⟩
  | replied _ p => ⟨1, [], none, [⟨m.ctx, p⟩]⟩

/-- What was sent for it. -/
def answers (input : Payload) : Stage → List (Payload × Payload)
  | replied _ p | done p => [(input, p)]
  | select | given _ | entered _ | queued _ | running _ => []

/-- What its promise was set to. -/
def value : Stage → List Payload
  | done p => [p]
  | select | given _ | entered _ | queued _ | running _ | replied .. => []

/-- The steps that are left to it. -/
def rank : Stage → ℕ
  | select => 6
  | given _ => 5
  | entered _ => 4
  | queued _ => 3
  | running _ => 2
  | replied .. => 1
  | done _ => 0

end Stage

/-- What threads took for context `c`, and what they sent for it. -/
def Group.answers (s : Group) (c : ℕ) : List (Payload × Payload) :=
  (s.sent.filter fun e => e.1.ctx = c).map fun e => (e.1.data, e.2)

/-- The entries of thread `t`. -/
structure Shows (s : Group) (t : ℕ) (active : Bool) (entry : Option ℕ) (wire : Wire) : Prop where
  active : s.active t = active
  outstanding : s.outstanding t = entry
  wires : s.wires t = wire

/-- Context `c` is at the stage. -/
structure Fits (n : UInt32) (s : Group) (c : ℕ) (ctx : TaskContext) (st : Stage) : Prop where
  phase : ctx.phase = st.phase
  done : ctx.done = st.value
  answers : s.answers c = st.answers ctx.input
  /-- The id is that of its thread. -/
  id : ∀ t, st.thread = some t → ctx.input.id = t ∧ t < n.toNat
  /-- The thread sends the id back. -/
  reply : ∀ t p, st = .replied t p → p.id = t

/-- **The invariant**: the contexts are at the stages, thread `t` has the task of context `own t`, and what has no
task has nothing. -/
structure Inv (n : UInt32) (own : ℕ → Option ℕ) (stages : List Stage) (s : Group) : Prop where
  length : stages.length = s.ctxs.length
  ctxs : ∀ c st ctx, stages[c]? = some st → s.ctxs[c]? = some ctx → Fits n s c ctx st
  held : ∀ c st t, stages[c]? = some st → st.thread = some t → own t = some c
  busy : ∀ t c, own t = some c → ∃ st ctx, stages[c]? = some st ∧ s.ctxs[c]? = some ctx ∧ st.thread = some t ∧
    Shows s t true (st.entry c) (st.wire ⟨c, ctx.input⟩)
  idle : ∀ t, own t = none → Shows s t false none .empty
  ahead : ∀ c, s.ctxs.length ≤ c → s.answers c = []
  dropped : s.dropped = 0

variable {n : UInt32} {own : ℕ → Option ℕ} {stages : List Stage} {s s' : Group}

theorem Inv.stage (h : Inv n own stages s) {c : ℕ} {ctx : TaskContext} (hctx : s.ctxs[c]? = some ctx) :
    ∃ st, stages[c]? = some st ∧ Fits n s c ctx st := by
  obtain ⟨hlt, -⟩ := List.getElem?_eq_some_iff.mp hctx
  have hlt' : c < stages.length := h.length ▸ hlt
  exact ⟨stages[c], List.getElem?_eq_getElem hlt', h.ctxs c _ ctx (List.getElem?_eq_getElem hlt') hctx⟩

/-- **A task goes on.** Context `c` goes from a stage to another. Thread `t` was that of the task, or had none; and only
its entries change. -/
theorem Inv.advance (h : Inv n own stages s) {c t : ℕ} {st st' : Stage} {ctx' : TaskContext} (hst : stages[c]? = some st)
    (hfrom : st.thread = some t ∨ st.thread = none ∧ own t = none) (hctxs : s'.ctxs = s.ctxs.set c ctx')
    (hfits : Fits n s' c ctx' st')
    (hto : st'.thread = some t ∧ Shows s' t true (st'.entry c) (st'.wire ⟨c, ctx'.input⟩) ∨
      st'.thread = none ∧ Shows s' t false none .empty)
    (hframe : ∀ u, u ≠ t → s'.active u = s.active u ∧ s'.outstanding u = s.outstanding u ∧ s'.wires u = s.wires u)
    (hanswers : ∀ d, d ≠ c → s'.answers d = s.answers d) (hdropped : s'.dropped = s.dropped) :
    Inv n (Function.update own t (st'.thread.map fun _ => c)) (stages.set c st') s' := by
  obtain ⟨hlt, -⟩ := List.getElem?_eq_some_iff.mp hst
  have hself : (stages.set c st')[c]? = some st' := List.getElem?_set_self hlt
  have hctx' : s'.ctxs[c]? = some ctx' := by rw [hctxs, List.getElem?_set_self (h.length ▸ hlt)]
  -- the thread of another task is another thread
  have hother : ∀ d u, d ≠ c → own u = some d → u ≠ t := by
    rintro d u hd hu rfl
    rcases hfrom with hthread | ⟨-, hnone⟩
    · exact hd (Option.some.inj (hu.symm.trans (h.held c st u hst hthread)))
    · rw [hnone] at hu
      cases hu
  refine ⟨?_, ?_, ?_, ?_, ?_, ?_, hdropped.trans h.dropped⟩
  · rw [List.length_set, hctxs, List.length_set, h.length]
  · intro d std ctxd hstd hctxd
    by_cases hd : d = c
    · subst hd
      rw [hself] at hstd
      rw [hctx'] at hctxd
      cases hstd
      cases hctxd
      exact hfits
    · rw [List.getElem?_set_ne (Ne.symm hd)] at hstd
      rw [hctxs, List.getElem?_set_ne (Ne.symm hd)] at hctxd
      have hold := h.ctxs d std ctxd hstd hctxd
      exact ⟨hold.phase, hold.done, (hanswers d hd).trans hold.answers, hold.id, hold.reply⟩
  · intro d std u hstd hu
    by_cases hd : d = c
    · subst hd
      rw [hself] at hstd
      cases hstd
      rcases hto with ⟨hthread, -⟩ | ⟨hthread, -⟩
      · rw [hthread] at hu
        cases hu
        rw [Function.update_self, hthread]
        rfl
      · rw [hthread] at hu
        cases hu
    · rw [List.getElem?_set_ne (Ne.symm hd)] at hstd
      have hown := h.held d std u hstd hu
      rw [Function.update_of_ne (hother d u hd hown), hown]
  · intro u d hu
    by_cases hut : u = t
    · subst hut
      rw [Function.update_self] at hu
      rcases hto with ⟨hthread, hshows⟩ | ⟨hthread, -⟩
      · rw [hthread] at hu
        cases hu
        exact ⟨st', ctx', hself, hctx', hthread, hshows⟩
      · rw [hthread] at hu
        cases hu
    · rw [Function.update_of_ne hut] at hu
      obtain ⟨std, ctxd, hstd, hctxd, hthread, hshows⟩ := h.busy u d hu
      have hd : d ≠ c := by
        rintro rfl
        rw [hst] at hstd
        cases hstd
        rcases hfrom with hsame | ⟨hnone, -⟩
        · exact hut (Option.some.inj (hthread.symm.trans hsame))
        · rw [hnone] at hthread
          cases hthread
      obtain ⟨ha, ho, hw⟩ := hframe u hut
      refine ⟨std, ctxd, ?_, ?_, hthread, ha.trans hshows.active, ho.trans hshows.outstanding, hw.trans hshows.wires⟩
      · rw [List.getElem?_set_ne (Ne.symm hd), hstd]
      · rw [hctxs, List.getElem?_set_ne (Ne.symm hd), hctxd]
  · intro u hu
    by_cases hut : u = t
    · subst hut
      rw [Function.update_self] at hu
      rcases hto with ⟨hthread, -⟩ | ⟨-, hshows⟩
      · rw [hthread] at hu
        cases hu
      · exact hshows
    · rw [Function.update_of_ne hut] at hu
      obtain ⟨ha, ho, hw⟩ := hframe u hut
      have hshows := h.idle u hu
      exact ⟨ha.trans hshows.active, ho.trans hshows.outstanding, hw.trans hshows.wires⟩
  · intro d hd
    rw [hctxs, List.length_set] at hd
    have hdc : d ≠ c := by
      have := h.length ▸ hlt
      omega
    rw [hanswers d hdc]
    exact h.ahead d hd

/-! ### Every step is one of a task -/

/-- The steps that are left to all tasks. -/
def left (stages : List Stage) : ℕ := (stages.map Stage.rank).sum

theorem left_set {c : ℕ} {st : Stage} (hst : stages[c]? = some st) (st' : Stage) :
    left (stages.set c st') + st.rank = left stages + st'.rank := by
  induction stages generalizing c with
  | nil => cases hst
  | cons a stages ih =>
    cases c with
    | zero =>
      cases hst
      simp only [left, List.set_cons_zero, List.map_cons, List.sum_cons]
      omega
    | succ c =>
      have htail := ih (c := c) (by simpa using hst)
      simp only [left, List.set_cons_succ, List.map_cons, List.sum_cons] at htail ⊢
      omega

/-- The state after one step of a task. -/
def Next (n : UInt32) (stages : List Stage) (s s' : Group) : Prop :=
  ∃ own' stages', Inv n own' stages' s' ∧ s'.ctxs.length = s.ctxs.length ∧ left stages' + 1 = left stages

theorem Inv.next (h : Inv n own stages s) {c t : ℕ} {st : Stage} (st' : Stage) {ctx' : TaskContext}
    (hst : stages[c]? = some st)
    (hfrom : st.thread = some t ∨ st.thread = none ∧ own t = none) (hctxs : s'.ctxs = s.ctxs.set c ctx')
    (hfits : Fits n s' c ctx' st')
    (hto : st'.thread = some t ∧ Shows s' t true (st'.entry c) (st'.wire ⟨c, ctx'.input⟩) ∨
      st'.thread = none ∧ Shows s' t false none .empty)
    (hframe : ∀ u, u ≠ t → s'.active u = s.active u ∧ s'.outstanding u = s.outstanding u ∧ s'.wires u = s.wires u)
    (hanswers : ∀ d, d ≠ c → s'.answers d = s.answers d) (hdropped : s'.dropped = s.dropped)
    (hrank : st'.rank + 1 = st.rank) : Next n stages s s' := by
  refine ⟨_, _, h.advance hst hfrom hctxs hfits hto hframe hanswers hdropped, ?_, ?_⟩
  · rw [hctxs, List.length_set]
  · have := left_set hst st'
    omega

theorem key_of_lt {t : ℕ} (h : t < n.toNat) : key t = t := Nat.mod_eq_of_lt (Nat.lt_trans h n.toNat_lt)

/-- The task that a thread has. -/
theorem Inv.at_thread (h : Inv n own stages s) {t c : ℕ} (hown : own t = some c) :
    ∃ st ctx, stages[c]? = some st ∧ s.ctxs[c]? = some ctx ∧ st.thread = some t ∧ Fits n s c ctx st ∧
      Shows s t true (st.entry c) (st.wire ⟨c, ctx.input⟩) := by
  obtain ⟨st, ctx, hst, hctx, hthread, hshows⟩ := h.busy t c hown
  exact ⟨st, ctx, hst, hctx, hthread, h.ctxs c st ctx hst hctx, hshows⟩

/-- The thread that a task has. -/
theorem Inv.shows (h : Inv n own stages s) {c t : ℕ} {st : Stage} {ctx : TaskContext} (hst : stages[c]? = some st)
    (hctx : s.ctxs[c]? = some ctx) (hthread : st.thread = some t) :
    Shows s t true (st.entry c) (st.wire ⟨c, ctx.input⟩) := by
  obtain ⟨st', ctx', hst', hctx', -, hshows⟩ := h.busy t c (h.held c st t hst hthread)
  rw [hst] at hst'
  rw [hctx] at hctx'
  cases hst'
  cases hctx'
  exact hshows

theorem firstInactive_some {t : ℕ} (h : firstInactive n s = some t) : t < n.toNat ∧ s.active t = false := by
  have hmem := List.mem_of_find?_eq_some h
  have hp := List.find?_some h
  exact ⟨List.mem_range.mp hmem, by simpa using hp⟩

theorem Inv.pick (h : Inv n own stages s) {c : ℕ} (hs : step n s (.pick c) = some s') : Next n stages s s' := by
  simp only [step] at hs
  split at hs
  · rename_i input done t hctx ht
    cases hs
    obtain ⟨hlt, hinactive⟩ := firstInactive_some ht
    obtain ⟨st, hst, hfits⟩ := h.stage hctx
    have hfree : own t = none := by
      cases hown : own t with
      | none => rfl
      | some d =>
        obtain ⟨_, _, _, _, _, _, hshows⟩ := h.at_thread hown
        rw [hshows.active] at hinactive
        cases hinactive
    have hshows := h.idle t hfree
    obtain ⟨hphase, hdone, hans, -, -⟩ := hfits
    cases st <;> cases hphase
    refine h.next (.given t) hst (.inr ⟨rfl, hfree⟩) rfl ⟨rfl, hdone, hans, ?_, ?_⟩ (.inl ⟨rfl, ?_⟩) ?_ ?_ rfl rfl
    · rintro u ⟨⟩
      exact ⟨rfl, hlt⟩
    · rintro u p ⟨⟩
    · exact ⟨Function.update_self .., hshows.outstanding, hshows.wires⟩
    · intro u hu
      exact ⟨Function.update_of_ne hu .., rfl, rfl⟩
    · intro d _
      rfl
  · cases hs

theorem Inv.posted (h : Inv n own stages s) {c : ℕ} (hs : step n s (.posted c) = some s') : Next n stages s s' := by
  simp only [step] at hs
  split at hs
  · rename_i t input done hctx
    cases hs
    obtain ⟨st, hst, hfits⟩ := h.stage hctx
    obtain ⟨hphase, hdone, hans, hid, -⟩ := hfits
    cases st <;> cases hphase
    obtain ⟨hin, hlt⟩ := hid t rfl
    have hshows := h.shows hst hctx rfl
    have hkey : key input.id = t := by rw [show input.id = t from hin, key_of_lt hlt]
    refine h.next (.entered t) hst (.inl rfl) rfl ⟨rfl, hdone, hans, hid, ?_⟩ (.inl ⟨rfl, ?_⟩) ?_ ?_ rfl rfl
    · rintro u p ⟨⟩
    · refine ⟨hshows.active, ?_, ?_⟩
      · show emplace s.outstanding (key input.id) c t = some c
        rw [hkey, emplace, Function.update_self, hshows.outstanding]
        rfl
      · show Function.update s.wires t _ t = _
        rw [Function.update_self, hshows.wires]
        rfl
    · intro u hu
      refine ⟨rfl, ?_, Function.update_of_ne hu ..⟩
      show emplace s.outstanding (key input.id) c u = _
      rw [hkey, emplace, Function.update_of_ne hu]
    · intro d _
      rfl
  · cases hs

theorem Inv.submitted (h : Inv n own stages s) {c : ℕ} (hs : step n s (.submitted c) = some s') : Next n stages s s' := by
  simp only [step] at hs
  split at hs
  · rename_i t input done hctx
    cases hs
    obtain ⟨st, hst, hfits⟩ := h.stage hctx
    obtain ⟨hphase, hdone, hans, hid, -⟩ := hfits
    cases st <;> cases hphase
    have hshows := h.shows hst hctx rfl
    refine h.next (.queued t) hst (.inl rfl) rfl ⟨rfl, hdone, hans, hid, ?_⟩ (.inl ⟨rfl, ?_⟩) ?_ ?_ rfl rfl
    · rintro u p ⟨⟩
    · refine ⟨hshows.active, hshows.outstanding, ?_⟩
      show Function.update s.wires t _ t = _
      rw [Function.update_self, hshows.wires]
      rfl
    · intro u hu
      exact ⟨rfl, rfl, Function.update_of_ne hu ..⟩
    · intro d _
      rfl
  · cases hs

/-- The task of a thread whose queues are not empty. -/
theorem Inv.at_wire (h : Inv n own stages s) {t : ℕ} (hw : s.wires t ≠ .empty) :
    ∃ c st ctx, stages[c]? = some st ∧ s.ctxs[c]? = some ctx ∧ st.thread = some t ∧ Fits n s c ctx st ∧
      Shows s t true (st.entry c) (st.wire ⟨c, ctx.input⟩) := by
  cases hown : own t with
  | none => exact absurd (h.idle t hown).wires hw
  | some c => exact ⟨c, h.at_thread hown⟩

theorem set_self {α : Type} {l : List α} {i : ℕ} {a : α} (h : l[i]? = some a) : l.set i a = l := by
  obtain ⟨hlt, rfl⟩ := List.getElem?_eq_some_iff.mp h
  exact List.set_getElem_self hlt

theorem Inv.take (h : Inv n own stages s) {t : ℕ} (hs : step n s (.take t) = some s') : Next n stages s s' := by
  simp only [step] at hs
  split at hs
  · rename_i recvs m inQ outQ hw
    cases hs
    obtain ⟨c, st, ctx, hst, hctx, hthread, hfits, hshows⟩ := h.at_wire (by rw [hw]; intro hne; cases hne)
    have hwire := hw.symm.trans hshows.wires
    cases st <;> cases hwire
    obtain ⟨hphase, hdone, hans, hid, -⟩ := hfits
    cases hthread
    refine h.next (.running t) hst (.inl rfl) (set_self hctx).symm ⟨hphase, hdone, hans, hid, ?_⟩ (.inl ⟨rfl, ?_⟩) ?_ ?_
      rfl rfl
    · rintro u p ⟨⟩
    · exact ⟨hshows.active, hshows.outstanding, Function.update_self ..⟩
    · intro u hu
      exact ⟨rfl, rfl, Function.update_of_ne hu ..⟩
    · intro d _
      rfl
  · cases hs

theorem answers_of_sent {m : Msg} {p : Payload} (h : s'.sent = s.sent ++ [(m, p)]) (c : ℕ) :
    s'.answers c = s.answers c ++ if m.ctx = c then [(m.data, p)] else [] := by
  by_cases hc : m.ctx = c <;> simp [Group.answers, h, hc]

theorem Inv.reply (h : Inv n own stages s) {t : ℕ} {payload : Bytes} (hs : step n s (.reply t payload) = some s') :
    Next n stages s s' := by
  simp only [step] at hs
  split at hs
  · rename_i recvs inQ m outQ hw
    cases hs
    obtain ⟨c, st, ctx, hst, hctx, hthread, hfits, hshows⟩ := h.at_wire (by rw [hw]; intro hne; cases hne)
    have hwire := hw.symm.trans hshows.wires
    cases st <;> cases hwire
    obtain ⟨hphase, hdone, hans, hid, -⟩ := hfits
    cases hthread
    refine h.next (.replied t ⟨ctx.input.id, payload⟩) hst (.inl rfl) (set_self hctx).symm ⟨hphase, hdone, ?_, hid, ?_⟩
      (.inl ⟨rfl, ?_⟩) ?_ ?_ rfl rfl
    · rw [answers_of_sent rfl c, hans, if_pos rfl]
      rfl
    · rintro u p ⟨⟩
      exact (hid t rfl).1
    · exact ⟨hshows.active, hshows.outstanding, Function.update_self ..⟩
    · intro u hu
      exact ⟨rfl, rfl, Function.update_of_ne hu ..⟩
    · intro d hd
      rw [answers_of_sent rfl d, if_neg (Ne.symm hd), List.append_nil]
  · cases hs

theorem Inv.complete (h : Inv n own stages s) {t : ℕ} (hs : step n s (.complete t) = some s') : Next n stages s s' := by
  simp only [step] at hs
  split at hs
  · rename_i recvs inQ running m outQ hw
    cases hs
    obtain ⟨c, st, ctx, hst, hctx, hthread, hfits, hshows⟩ := h.at_wire (by rw [hw]; intro hne; cases hne)
    have hwire := hw.symm.trans hshows.wires
    cases st with
    | replied u p =>
      cases hwire
      cases hthread
      obtain ⟨hphase, hdone, hans, hid, hreply⟩ := hfits
      obtain ⟨hin, hlt⟩ := hid t rfl
      have hp : p.id = t := hreply t p rfl
      have hkey : key p.id = t := by rw [hp, key_of_lt hlt]
      have hfound : (s.setWire t ⟨0, [], none, []⟩).outstanding (key p.id) = some c := by
        rw [hkey]
        exact hshows.outstanding
      have htask : taskCb (s.setWire t ⟨0, [], none, []⟩) p =
          { s.setWire t ⟨0, [], none, []⟩ with
            outstanding := Function.update s.outstanding t none
            active := Function.update s.active t false
            ctxs := s.ctxs.set c { ctx with done := ctx.done ++ [p] } } := by
        unfold taskCb
        rw [hfound, hkey, hp]
        simp only [Group.setWire, List.modify_eq_set_getElem?, hctx]
        rfl
      show Next n stages s (taskCb (s.setWire t ⟨0, [], none, []⟩) p)
      rw [htask]
      refine h.next (.done p) hst (.inl rfl) rfl ⟨hphase, ?_, hans, ?_, ?_⟩ (.inr ⟨rfl, ?_⟩) ?_ ?_ rfl rfl
      · show ctx.done ++ [p] = [p]
        rw [hdone]
        rfl
      · rintro u ⟨⟩
      · rintro u q ⟨⟩
      · exact ⟨Function.update_self .., Function.update_self .., Function.update_self ..⟩
      · intro u hu
        exact ⟨Function.update_of_ne hu .., Function.update_of_ne hu .., Function.update_of_ne hu ..⟩
      · intro d _
        rfl
    | _ => cases hwire
  · cases hs

/-! ### Runs -/

theorem Inv.trigger (h : Inv n own stages s) (input : Payload) :
    Inv n own (stages ++ [.select]) { s with ctxs := s.ctxs ++ [⟨.select, input, []⟩] } := by
  have hold : ∀ {c st}, (stages ++ [Stage.select])[c]? = some st → c ≠ stages.length → stages[c]? = some st := by
    intro c st hst hc
    obtain ⟨hlt, -⟩ := List.getElem?_eq_some_iff.mp hst
    rw [List.length_append, List.length_singleton] at hlt
    rwa [List.getElem?_append_left (by omega)] at hst
  have hnew : (stages ++ [Stage.select])[stages.length]? = some .select := List.getElem?_concat_length
  refine ⟨?_, ?_, ?_, ?_, ?_, ?_, h.dropped⟩
  · rw [List.length_append, List.length_append, h.length]
    rfl
  · intro c st ctx hst hctx
    by_cases hc : c = stages.length
    · subst hc
      rw [hnew] at hst
      cases hst
      rw [h.length, List.getElem?_concat_length] at hctx
      cases hctx
      exact ⟨rfl, rfl, h.ahead _ (Nat.le_of_eq h.length.symm), fun t ht => (by cases ht), fun t p hp => (by cases hp)⟩
    · have hst := hold hst hc
      obtain ⟨hlt, -⟩ := List.getElem?_eq_some_iff.mp hst
      rw [List.getElem?_append_left (h.length ▸ hlt)] at hctx
      have hfits := h.ctxs c st ctx hst hctx
      exact ⟨hfits.phase, hfits.done, hfits.answers, hfits.id, hfits.reply⟩
  · intro c st t hst ht
    by_cases hc : c = stages.length
    · subst hc
      rw [hnew] at hst
      cases hst
      cases ht
    · exact h.held c st t (hold hst hc) ht
  · intro t c hown
    obtain ⟨st, ctx, hst, hctx, hthread, hshows⟩ := h.busy t c hown
    obtain ⟨hlt, -⟩ := List.getElem?_eq_some_iff.mp hst
    refine ⟨st, ctx, ?_, ?_, hthread, hshows.active, hshows.outstanding, hshows.wires⟩
    · rwa [List.getElem?_append_left hlt]
    · rwa [List.getElem?_append_left (h.length ▸ hlt)]
  · intro t hown
    have hshows := h.idle t hown
    exact ⟨hshows.active, hshows.outstanding, hshows.wires⟩
  · intro c hc
    rw [List.length_append] at hc
    exact h.ahead c (by omega)

/-- The state, and how many steps led to it. -/
def Reached (n : UInt32) (acts : List Act) (s : Group) : Prop :=
  ∃ own stages, Inv n own stages s ∧ acts.length + left stages = 7 * s.ctxs.length

theorem Reached.of_next {acts : List Act} {a : Act} (hlen : acts.length + left stages = 7 * s.ctxs.length)
    (h : Next n stages s s') : Reached n (acts ++ [a]) s' := by
  obtain ⟨own', stages', hinv, hctxs, hleft⟩ := h
  refine ⟨own', stages', hinv, ?_⟩
  rw [List.length_append, List.length_singleton, hctxs]
  omega

/-- **Every step is one of a task, and there are seven for a task.** -/
theorem Reached.step {acts : List Act} {a : Act} (h : Reached n acts s) (hs : step n s a = some s') :
    Reached n (acts ++ [a]) s' := by
  obtain ⟨own, stages, hinv, hlen⟩ := h
  cases a with
  | trigger input =>
    cases hs
    refine ⟨own, _, hinv.trigger input, ?_⟩
    simp only [left, List.length_append, List.length_singleton, List.map_append, List.sum_append, List.map_singleton,
      List.sum_singleton, Stage.rank] at hlen ⊢
    omega
  | pick c => exact .of_next hlen (hinv.pick hs)
  | posted c => exact .of_next hlen (hinv.posted hs)
  | submitted c => exact .of_next hlen (hinv.submitted hs)
  | take t => exact .of_next hlen (hinv.take hs)
  | reply t payload => exact .of_next hlen (hinv.reply hs)
  | complete t => exact .of_next hlen (hinv.complete hs)

theorem reached_init : Reached n [] init := by
  refine ⟨fun _ => none, [], ⟨rfl, ?_, ?_, ?_, ?_, ?_, rfl⟩, rfl⟩
  · rintro c st ctx ⟨⟩
  · rintro c st t ⟨⟩
  · rintro t c ⟨⟩
  · intro t _
    exact ⟨rfl, rfl, rfl⟩
  · intro c _
    rfl

theorem reached_of_run {acts : List Act} (hrun : run (step n) init acts = some s) : Reached n acts s :=
  inv_of_history (fun _ _ _ _ h hs => Reached.step h hs) reached_init hrun

/-! ### The results -/

/-- Context `c` has a thread, and its promise was not set: its task is outstanding on thread `t`. -/
def Outstanding (s : Group) (t c : ℕ) : Prop :=
  ∃ ctx, s.ctxs[c]? = some ctx ∧ ctx.phase ≠ .select ∧ ctx.done = [] ∧ ctx.input.id = t

/-- What is sent to a thread or by it and did not arrive, and what it works on. -/
def Wire.messages (w : Wire) : List Msg := w.inQ ++ w.running.toList ++ w.outQ

/-- Tasks and threads belong together. -/
structure Routed (n : UInt32) (s : Group) : Prop where
  /-- Every key of `outstanding_tasks` is the index of an active thread. -/
  keys : ∀ k c, s.outstanding k = some c → k < n.toNat ∧ s.active k = true
  /-- No `trigger` finds its key present. -/
  absent : ∀ ctx ∈ s.ctxs, ∀ t, ctx.phase = .postRecv t → s.outstanding (key ctx.input.id) = none
  /-- A thread has one outstanding task at most. -/
  single : ∀ t c c', Outstanding s t c → Outstanding s t c' → c = c'
  /-- And one message at most. -/
  messages : ∀ t, (s.wires t).messages.length ≤ 1
  /-- The promise was not set, or once, to the one payload that a thread sent for the one message it took for the
  context, which is the context's own input. -/
  promise : ∀ c ctx, s.ctxs[c]? = some ctx → ctx.done = [] ∨ ∃ p, ctx.done = [p] ∧ s.answers c = [(ctx.input, p)]
  /-- No completion is dropped. -/
  dropped : s.dropped = 0

/-- The thread of an outstanding task. -/
theorem Inv.of_outstanding (h : Inv n own stages s) {t c : ℕ} (ho : Outstanding s t c) : own t = some c := by
  obtain ⟨ctx, hctx, hphase, hdone, hid⟩ := ho
  obtain ⟨st, hst, hfits⟩ := h.stage hctx
  have hthread : st.thread = some t := by
    cases st with
    | select => exact absurd hfits.phase hphase
    | done p =>
      rw [hfits.done] at hdone
      cases hdone
    | _ => exact congrArg some ((hfits.id _ rfl).1.symm.trans hid)
  exact h.held c st t hst hthread

theorem Inv.routed (h : Inv n own stages s) : Routed n s := by
  refine ⟨?_, ?_, ?_, ?_, ?_, h.dropped⟩
  · intro k c hk
    cases hown : own k with
    | none =>
      rw [(h.idle k hown).outstanding] at hk
      cases hk
    | some d =>
      obtain ⟨st, ctx, -, -, hthread, hfits, hshows⟩ := h.at_thread hown
      exact ⟨(hfits.id k hthread).2, hshows.active⟩
  · intro ctx hmem t ht
    obtain ⟨c, hctx⟩ := List.mem_iff_getElem?.mp hmem
    obtain ⟨st, hst, hfits⟩ := h.stage hctx
    have hphase := hfits.phase.symm.trans ht
    cases st <;> cases hphase
    obtain ⟨hin, hlt⟩ := hfits.id t rfl
    rw [hin, key_of_lt hlt]
    exact (h.shows hst hctx rfl).outstanding
  · intro t c c' hc hc'
    exact Option.some.inj ((h.of_outstanding hc).symm.trans (h.of_outstanding hc'))
  · intro t
    cases hown : own t with
    | none =>
      rw [(h.idle t hown).wires]
      exact Nat.zero_le 1
    | some c =>
      obtain ⟨st, ctx, -, -, -, -, hshows⟩ := h.at_thread hown
      rw [hshows.wires]
      cases st <;> simp [Stage.wire, Wire.empty, Wire.messages]
  · intro c ctx hctx
    obtain ⟨st, -, hfits⟩ := h.stage hctx
    rw [hfits.done, hfits.answers]
    cases st with
    | done p => exact .inr ⟨p, rfl, rfl⟩
    | _ => exact .inl rfl

/-- A thread that has a task can go on, or the call that gave it the task can. -/
theorem Inv.progress_thread (h : Inv n own stages s) {t c : ℕ} (hown : own t = some c) :
    ∃ a : Act, a.pending = true ∧ (step n s a).isSome := by
  obtain ⟨st, ⟨phase, input, done⟩, hst, hctx, hthread, hfits, hshows⟩ := h.at_thread hown
  have hphase : phase = st.phase := hfits.phase
  have hwire := hshows.wires
  cases st with
  | select => cases hthread
  | given u =>
    rw [hphase] at hctx
    exact ⟨.posted c, rfl, by simp [step, hctx, Stage.phase]⟩
  | entered u =>
    rw [hphase] at hctx
    exact ⟨.submitted c, rfl, by simp [step, hctx, Stage.phase]⟩
  | queued u => exact ⟨.take t, rfl, by simp [step, hwire, Stage.wire]⟩
  | running u => exact ⟨.reply t [], rfl, by simp [step, hwire, Stage.wire]⟩
  | replied u p => exact ⟨.complete t, rfl, by simp [step, hwire, Stage.wire]⟩
  | done p => cases hthread

/-- **A task whose promise was not set is not stuck**: if there is a thread, some step is possible. -/
theorem Inv.progress (h : Inv n own stages s) (hn : 0 < n.toNat) {c : ℕ} {ctx : TaskContext} (hctx : s.ctxs[c]? = some ctx)
    (hdone : ctx.done = []) : ∃ a : Act, a.pending = true ∧ (step n s a).isSome := by
  obtain ⟨st, hst, hfits⟩ := h.stage hctx
  cases hthread : st.thread with
  | some t => exact h.progress_thread (h.held c st t hst hthread)
  | none =>
    cases st with
    | select =>
      cases hfirst : firstInactive n s with
      | some t =>
        obtain ⟨phase, input, done⟩ := ctx
        have hphase : phase = .select := hfits.phase
        rw [hphase] at hctx
        exact ⟨.pick c, rfl, by simp [step, hctx, hfirst]⟩
      | none =>
        -- all threads are active, so that the first of them has a task
        have hactive : s.active 0 = true := by
          have := List.find?_eq_none.mp hfirst 0 (List.mem_range.mpr hn)
          simpa using this
        cases hown : own 0 with
        | none =>
          rw [(h.idle 0 hown).active] at hactive
          cases hactive
        | some d => exact h.progress_thread hown
    | done p =>
      rw [hfits.done] at hdone
      cases hdone
    | _ => cases hthread

/-- **Which task a completion is for.** In every state of every run, whatever the number of threads, tasks and threads
belong together. No run has more than seven steps for a call; and when only new calls are possible, every promise was set
once, to what the thread sent for the context's own input. -/
theorem routed_of_run {acts : List Act} (hrun : run (step n) init acts = some s) :
    Routed n s ∧ acts.length ≤ 7 * s.ctxs.length ∧
      (0 < n.toNat → (∀ a : Act, a.pending = true → step n s a = none) →
        ∀ c ctx, s.ctxs[c]? = some ctx → ∃ p, ctx.done = [p] ∧ s.answers c = [(ctx.input, p)]) := by
  obtain ⟨own, stages, hinv, hlen⟩ := reached_of_run hrun
  refine ⟨hinv.routed, by omega, ?_⟩
  intro hn hstuck c ctx hctx
  refine (hinv.routed.promise c ctx hctx).resolve_left ?_
  intro hdone
  obtain ⟨a, ha, hsome⟩ := hinv.progress hn hctx hdone
  rw [hstuck a ha] at hsome
  cases hsome

/-- Three calls on two threads: the third waits until a thread is inactive again, and the threads answer in the other
order. -/
def threeCalls : List Act :=
  [.trigger ⟨9, [1]⟩, .trigger ⟨9, [2]⟩, .trigger ⟨9, [3]⟩, .pick 1, .pick 0, .posted 0, .posted 1, .submitted 0,
    .submitted 1, .take 1, .take 0, .reply 1 [10], .complete 1, .pick 2, .posted 2, .reply 0 [20], .submitted 2,
    .complete 0, .take 1, .reply 1 [30], .complete 1]

theorem routed_threeCalls :
    ∃ s, run (step 2) init threeCalls = some s ∧ Routed 2 s ∧
      s.ctxs.map (fun ctx => (ctx.input, ctx.done)) =
        [(⟨1, [1]⟩, [⟨1, [10]⟩]), (⟨0, [2]⟩, [⟨0, [20]⟩]), (⟨1, [3]⟩, [⟨1, [30]⟩])] := by
  obtain ⟨s, hrun, hctxs⟩ : ∃ s, run (step 2) init threeCalls = some s ∧
      s.ctxs.map (fun ctx => (ctx.input, ctx.done)) =
        [(⟨1, [1]⟩, [⟨1, [10]⟩]), (⟨0, [2]⟩, [⟨0, [20]⟩]), (⟨1, [3]⟩, [⟨1, [30]⟩])] := ⟨_, rfl, rfl⟩
  exact ⟨s, hrun, (routed_of_run hrun).1, hctxs⟩

end DShuffle.Dpa.Routing
