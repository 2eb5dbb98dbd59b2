import DShuffle.Base.ByteMemory
import DShuffle.Base.Transition

/-!
# The threads of the DPA

`do_array_obj_serialize` runs in a fiber of the host. It gives the elements of a
batch to the threads of a `DPAThreadGroup`, waits for each, and copies what each
has left in its host output buffer. A second fiber handles completions; it runs
whenever the first yields: when no thread is inactive, when a submission has to
be tried again, and when a future is not ready. The DPA threads run all the time.

## The model

* One machine, whose actions are the steps of the two fibers and of the threads.
  The element of index `k` stands for its task, its object and its context.
* A DPA thread has one host output buffer. It writes into it while it runs, a
  part at a time (`store`), and reports when it is done.
* `task_cb` finds the task's context by the thread's index, marks the thread
  inactive, and makes the future ready. The buffer is copied later.

## What is proved

* `copied_of_run` — in every run in which `get_one_inactive_thread` never picks a
  thread whose last result still waits to be copied, what is copied for an
  element is what was written for it.
* `overwritten` — with three threads it can pick such a thread, and then the
  bytes of another element are copied.

## Honest scope

Submissions that fail for good, and failed tasks, end the process or the task in
the source; they are not steps here. A message to a thread arrives at once.
-/

namespace DShuffle.Dpa

open Base

/-- A call of `do_array_obj_serialize`, as far as the threads are concerned. -/
structure Job where
  /-- The number of threads, which is the batch size. -/
  nThread : ℕ
  /-- The batch size divides. -/
  nThread_pos : 0 < nThread
  /-- The length of the array. -/
  length : ℕ
  /-- What the kernel writes for an element, header included. -/
  output : ℕ → Bytes

/-- What the group and the device keep for a thread. -/
structure ThreadSt where
  /-- `active_flags`. -/
  active : Bool
  /-- `outstanding_tasks`: the task that waits for the thread. -/
  outstanding : Option ℕ
  /-- The tasks sent to the thread. -/
  inbox : List ℕ
  /-- The task it works on. -/
  running : Option ℕ
  /-- The lengths it has reported. -/
  outbox : List ℕ
  /-- Its host output buffer. -/
  buffer : Bytes

/-- Where the fiber of `do_array_obj_serialize` stands; `j` counts the tasks of the batch. -/
inductive Phase where
  /-- In `get_one_inactive_thread`. -/
  | select (j : ℕ)
  /-- Submitting the receive task for thread `t`. -/
  | postRecv (j t : ℕ)
  /-- Submitting the send task for thread `t`. -/
  | send (j t : ℕ)
  /-- Waiting for the `j`-th future. -/
  | collect (j : ℕ)
  /-- All batches are done. -/
  | finished
  deriving DecidableEq

/-- The state of the machine. -/
structure GroupSt where
  /-- The first element of the batch. -/
  base : ℕ
  /-- Where the fiber stands. -/
  phase : Phase
  /-- The threads. -/
  threads : ℕ → ThreadSt
  /-- `ctx.output`, once the future is ready: the length, and the thread whose buffer it names. -/
  out : ℕ → Option (ℕ × ℕ)
  /-- What was copied for each element, in order. -/
  copied : List (ℕ × Bytes)

/-- The steps. -/
inductive Act where
  /-- `get_one_inactive_thread` returns. -/
  | pick
  /-- The receive task is submitted; the task is entered in `outstanding_tasks`. -/
  | posted
  /-- The send task is submitted. -/
  | sent
  /-- The completion of thread `t` is handled, `task_cb`. -/
  | progress (t : ℕ)
  /-- Thread `t` takes a task. -/
  | start (t : ℕ)
  /-- Thread `t` has written the first `m` bytes of its result. -/
  | store (t m : ℕ)
  /-- Thread `t` has written its result and reports. -/
  | finish (t : ℕ)
  /-- The next future is ready: copy the result. -/
  | copy
  deriving DecidableEq

namespace Job

variable (job : Job)

/-- `n_task` of the batch. -/
def nTask (s : GroupSt) : ℕ := min job.nThread (job.length - s.base)

/-- The first inactive thread. -/
def firstInactive (s : GroupSt) : Option ℕ := (List.range job.nThread).find? fun t => !(s.threads t).active

/-- The fiber yields: there is no inactive thread, a submission is tried again, or the future is not ready. -/
def yields (s : GroupSt) : Bool :=
  match s.phase with
  | .select _ => (job.firstInactive s).isNone
  | .postRecv _ _ => true
  | .send _ _ => true
  | .collect j => (s.out (s.base + j)).isNone
  | .finished => false

/-- The buffer with the bytes written at its start. -/
def overwrite (buffer bs : Bytes) : Bytes := bs ++ buffer.drop bs.length

/-- A new state of one thread. -/
def setThread (s : GroupSt) (t : ℕ) (th : ThreadSt) : GroupSt := { s with threads := Function.update s.threads t th }

/-- Where the fiber goes when the `j`-th task of the batch was sent. -/
def afterSend (s : GroupSt) (j : ℕ) : Phase := if j + 1 < job.nTask s then .select (j + 1) else .collect 0

/-- The next batch. -/
def nextBatch (s : GroupSt) : GroupSt :=
  { s with base := s.base + job.nTask s, phase := if s.base + job.nTask s < job.length then .select 0 else .finished }

/-- A step of the machine. -/
def step (s : GroupSt) : Act → Option GroupSt
  | .pick =>
    match s.phase, job.firstInactive s with
    | .select j, some t =>
      some { setThread s t { s.threads t with active := true } with phase := .postRecv j t }
    | _, _ => none
  | .posted =>
    match s.phase with
    | .postRecv j t =>
      -- `emplace` keeps an entry that is there
      some { setThread s t { s.threads t with outstanding := (s.threads t).outstanding.or (some (s.base + j)) } with
        phase := .send j t }
    | _ => none
  | .sent =>
    match s.phase with
    | .send j t =>
      some { setThread s t { s.threads t with inbox := (s.threads t).inbox ++ [s.base + j] } with phase := job.afterSend s j }
    | _ => none
  | .progress t =>
    if job.yields s then
      match (s.threads t).outbox, (s.threads t).outstanding with
      | len :: rest, some k =>
        some { setThread s t { s.threads t with active := false, outstanding := none, outbox := rest } with
          out := Function.update s.out k (some (len, t)) }
      | _ :: rest, none => some (setThread s t { s.threads t with outbox := rest })
      | [], _ => none
    else none
  | .start t =>
    match (s.threads t).running, (s.threads t).inbox with
    | none, k :: ks => some (setThread s t { s.threads t with running := some k, inbox := ks })
    | _, _ => none
  | .store t m =>
    match (s.threads t).running with
    | some k => some (setThread s t { s.threads t with buffer := overwrite (s.threads t).buffer ((job.output k).take m) })
    | none => none
  | .finish t =>
    match (s.threads t).running with
    | some k =>
      some (setThread s t { s.threads t with
        running := none, outbox := (s.threads t).outbox ++ [(job.output k).length]
        buffer := overwrite (s.threads t).buffer (job.output k) })
    | none => none
  | .copy =>
    match s.phase with
    | .collect j =>
      match s.out (s.base + j) with
      | some (len, t) =>
        let s' := { s with copied := s.copied ++ [(s.base + j, ((s.threads t).buffer.drop 8).take (len - 8))] }
        if j + 1 < job.nTask s then some { s' with phase := .collect (j + 1) } else some (job.nextBatch s')
      | none => none
    | _ => none

/-- The start: no thread has anything to do. -/
def init (buffers : ℕ → Bytes) : GroupSt :=
  { base := 0, phase := if 0 < job.length then .select 0 else .finished
    threads := fun t => ⟨false, none, [], none, [], buffers t⟩, out := fun _ => none, copied := [] }

@[simp] theorem setThread_self (s : GroupSt) (t : ℕ) (th : ThreadSt) : (setThread s t th).threads t = th :=
  Function.update_self ..

theorem setThread_of_ne {s : GroupSt} {t t' : ℕ} {th : ThreadSt} (h : t' ≠ t) : (setThread s t th).threads t' = s.threads t' :=
  Function.update_of_ne h ..

end Job

/-! ### What a thread can be doing -/

/-- The thread's entries, apart from its buffer. -/
def ThreadSt.Is (th : ThreadSt) (active : Bool) (outstanding : Option ℕ) (inbox : List ℕ) (running : Option ℕ)
    (outbox : List ℕ) : Prop :=
  th.active = active ∧ th.outstanding = outstanding ∧ th.inbox = inbox ∧ th.running = running ∧ th.outbox = outbox

/-- The thread has nothing to do. -/
def ThreadSt.Idle (th : ThreadSt) : Prop := th.Is false none [] none []

namespace Job

variable {job : Job}

/-- The buffer of the thread holds the result of task `k`. -/
def Holds (job : Job) (th : ThreadSt) (k : ℕ) : Prop := th.buffer.take (job.output k).length = job.output k

/-- Task `k` was sent to thread `t`, whose state is `th`, and is not copied yet. -/
inductive Held (job : Job) (out : ℕ → Option (ℕ × ℕ)) (th : ThreadSt) (t k : ℕ) : Prop where
  /-- It waits for the thread. -/
  | queued (h : th.Is true (some k) [k] none []) (ho : out k = none)
  /-- The thread works on it. -/
  | running (h : th.Is true (some k) [] (some k) []) (ho : out k = none)
  /-- The thread has reported. -/
  | reported (h : th.Is true (some k) [] none [(job.output k).length]) (ho : out k = none) (hb : job.Holds th k)
  /-- The future is ready. -/
  | ready (h : th.Idle) (ho : out k = some ((job.output k).length, t)) (hb : job.Holds th k)

/-- The state of a thread that has task `k`, by where the fiber stands. -/
def Stage (job : Job) (s : GroupSt) (t k : ℕ) : Prop :=
  match s.phase with
  | .postRecv _ t' => if t' = t then (s.threads t).Is true none [] none [] ∧ s.out k = none else job.Held s.out (s.threads t) t k
  | .send _ t' => if t' = t then (s.threads t).Is true (some k) [] none [] ∧ s.out k = none else job.Held s.out (s.threads t) t k
  | _ => job.Held s.out (s.threads t) t k

/-- The first task of the batch that is not copied yet. -/
def low (s : GroupSt) : ℕ :=
  match s.phase with
  | .collect j => s.base + j
  | _ => s.base

/-- The first task that has no thread yet. -/
def high (job : Job) (s : GroupSt) : ℕ :=
  match s.phase with
  | .select j => s.base + j
  | .postRecv j _ => s.base + j + 1
  | .send j _ => s.base + j + 1
  | .collect _ => s.base + job.nTask s
  | .finished => s.base

/-- The task of the batch that the fiber is at. -/
def Phase.At (s : GroupSt) (j : ℕ) : Prop :=
  s.phase = .select j ∨ (∃ t, s.phase = .postRecv j t) ∨ (∃ t, s.phase = .send j t) ∨ s.phase = .collect j

/-- **The invariant**: `own` says which task each thread has. -/
structure Inv (job : Job) (own : ℕ → Option ℕ) (s : GroupSt) : Prop where
  /-- A thread without a task is idle. -/
  idle : ∀ t, own t = none → (s.threads t).Idle
  /-- A task lies in the batch, picked and not copied, and its thread is where it should be. -/
  stage : ∀ t k, own t = some k → low s ≤ k ∧ k < job.high s ∧ job.Stage s t k
  /-- Every such task has a thread. -/
  covers : ∀ k, low s ≤ k → k < job.high s → ∃ t, own t = some k
  /-- A task has one thread. -/
  inj : ∀ t t' k, own t = some k → own t' = some k → t = t'
  /-- The thread that is being given a task has that task. -/
  busy : ∀ j t, s.phase = .postRecv j t ∨ s.phase = .send j t → own t = some (s.base + j)
  /-- Tasks that have no thread have no result. -/
  ahead : ∀ k, job.high s ≤ k → s.out k = none
  /-- The fiber is at a task of the batch. -/
  within : ∀ j, Phase.At s j → j < job.nTask s
  /-- What was copied is right. -/
  right : ∀ c ∈ s.copied, c.2 = (job.output c.1).drop 8

/-- The fiber is giving thread `t` a task. -/
def Giving (s : GroupSt) (t : ℕ) : Prop := ∃ j, s.phase = .postRecv j t ∨ s.phase = .send j t

theorem stage_iff_held {s : GroupSt} {t k : ℕ} (h : ¬ Giving s t) : job.Stage s t k ↔ job.Held s.out (s.threads t) t k := by
  unfold Stage
  cases hp : s.phase with
  | select j => rfl
  | postRecv j t' =>
    simp only
    rw [if_neg]
    rintro rfl
    exact h ⟨j, Or.inl hp⟩
  | send j t' =>
    simp only
    rw [if_neg]
    rintro rfl
    exact h ⟨j, Or.inr hp⟩
  | collect j => rfl
  | finished => rfl

theorem Held.congr {out out' : ℕ → Option (ℕ × ℕ)} {th : ThreadSt} {t k : ℕ} (h : job.Held out th t k)
    (ho : out' k = out k) : job.Held out' th t k := by
  cases h with
  | queued h ho' => exact .queued h (ho.trans ho')
  | running h ho' => exact .running h (ho.trans ho')
  | reported h ho' hb => exact .reported h (ho.trans ho') hb
  | ready h ho' hb => exact .ready h (ho.trans ho') hb

/-- The stage of a thread depends on the phase, on the thread and on the result of its task. -/
theorem Stage.congr {s s' : GroupSt} {t k : ℕ} (h : job.Stage s t k) (hp : s'.phase = s.phase)
    (ht : s'.threads t = s.threads t) (ho : s'.out k = s.out k) : job.Stage s' t k := by
  unfold Stage at h ⊢
  rw [hp, ht, ho]
  cases hph : s.phase with
  | select j => rw [hph] at h; exact h.congr ho
  | postRecv j x =>
    rw [hph] at h
    simp only at h ⊢
    split_ifs at h ⊢ with hx
    · exact h
    · exact h.congr ho
  | send j x =>
    rw [hph] at h
    simp only at h ⊢
    split_ifs at h ⊢ with hx
    · exact h
    · exact h.congr ho
  | collect j => rw [hph] at h; exact h.congr ho
  | finished => rw [hph] at h; exact h.congr ho

/-- A thread that is being given a task does nothing. -/
theorem Stage.of_giving {s : GroupSt} {t k : ℕ} (h : job.Stage s t k) (hg : Giving s t) :
    (s.threads t).inbox = [] ∧ (s.threads t).running = none ∧ (s.threads t).outbox = [] := by
  obtain ⟨j, hp | hp⟩ := hg
  · simp only [Stage, hp, if_true] at h
    exact ⟨h.1.2.2.1, h.1.2.2.2.1, h.1.2.2.2.2⟩
  · simp only [Stage, hp, if_true] at h
    exact ⟨h.1.2.2.1, h.1.2.2.2.1, h.1.2.2.2.2⟩

variable {own : ℕ → Option ℕ} {s s' : GroupSt}

/-- A thread that has a message, works, or has reported has a task that was sent to it. -/
theorem Inv.held {t : ℕ} (h : job.Inv own s)
    (hb : (s.threads t).inbox ≠ [] ∨ (s.threads t).running ≠ none ∨ (s.threads t).outbox ≠ []) :
    ∃ k, own t = some k ∧ ¬ Giving s t ∧ job.Held s.out (s.threads t) t k := by
  cases ho : own t with
  | none =>
    obtain ⟨-, -, h₁, h₂, h₃⟩ := h.idle t ho
    rcases hb with hb | hb | hb
    · exact absurd h₁ hb
    · exact absurd h₂ hb
    · exact absurd h₃ hb
  | some k =>
    have hs := (h.stage t k ho).2.2
    have hg : ¬ Giving s t := by
      intro hg
      obtain ⟨h₁, h₂, h₃⟩ := hs.of_giving hg
      rcases hb with hb | hb | hb
      · exact hb h₁
      · exact hb h₂
      · exact hb h₃
    exact ⟨k, rfl, hg, (stage_iff_held hg).mp hs⟩

/-- A step of a thread, or of the callback for it, that leaves it with its task. -/
theorem Inv.update {t k : ℕ} {th : ThreadSt} {out : ℕ → Option (ℕ × ℕ)} (h : job.Inv own s) (ho : own t = some k)
    (hg : ¬ Giving s t) (hout : ∀ k', k' ≠ k → out k' = s.out k') (hth : job.Held out th t k) :
    job.Inv own { setThread s t th with out := out } where
  idle t' ht' := by
    have hne : t' ≠ t := by
      rintro rfl
      rw [ho] at ht'
      cases ht'
    change ((setThread s t th).threads t').Idle
    rw [setThread_of_ne hne]
    exact h.idle t' ht'
  stage t' k' ht' := by
    obtain ⟨h₁, h₂, h₃⟩ := h.stage t' k' ht'
    refine ⟨h₁, h₂, ?_⟩
    by_cases hne : t' = t
    · subst hne
      rw [ho] at ht'
      cases ht'
      have hg' : ¬ Giving { setThread s t' th with out := out } t' := hg
      rw [stage_iff_held hg']
      change job.Held out ((setThread s t' th).threads t') t' k
      rw [setThread_self]
      exact hth
    · have hk : k' ≠ k := by
        rintro rfl
        exact hne (h.inj t' t k' ht' ho)
      exact h₃.congr rfl (setThread_of_ne hne) (hout k' hk)
  covers := h.covers
  inj := h.inj
  busy := h.busy
  ahead k' hk' := by
    have hlt := (h.stage t k ho).2.1
    have hk'' : job.high s ≤ k' := hk'
    change out k' = none
    rw [hout k' (by omega)]
    exact h.ahead k' hk''
  within := h.within
  right := h.right

/-! ### The steps of the threads and of the callback -/

theorem Inv.start {t : ℕ} (h : job.Inv own s) (hs : job.step s (.start t) = some s') : job.Inv own s' := by
  simp only [step] at hs
  cases hr : (s.threads t).running with
  | some k => simp [hr] at hs
  | none =>
    cases hi : (s.threads t).inbox with
    | nil => simp [hr, hi] at hs
    | cons k ks =>
      simp only [hr, hi] at hs
      cases hs
      obtain ⟨k', ho, hg, hheld⟩ := h.held (t := t) (Or.inl (by rw [hi]; exact List.cons_ne_nil k ks))
      cases hheld with
      | queued hq hout =>
        obtain ⟨h₁, h₂, h₃, h₄, h₅⟩ := hq
        rw [hi] at h₃
        cases h₃
        exact h.update ho hg (fun _ _ => rfl) (.running ⟨h₁, h₂, rfl, rfl, h₅⟩ hout)
      | running hq hout => cases hi.symm.trans hq.2.2.1
      | reported hq hout hb => cases hi.symm.trans hq.2.2.1
      | ready hq hout hb => cases hi.symm.trans hq.2.2.1

/-- Only a thread that works has something in `running`. -/
theorem Inv.running {t k : ℕ} (h : job.Inv own s) (hr : (s.threads t).running = some k) :
    own t = some k ∧ ¬ Giving s t ∧ (s.threads t).Is true (some k) [] (some k) [] ∧ s.out k = none := by
  obtain ⟨k', ho, hg, hheld⟩ := h.held (t := t) (Or.inr (Or.inl (by rw [hr]; exact Option.some_ne_none k)))
  cases hheld with
  | queued hq hout => cases hr.symm.trans hq.2.2.2.1
  | running hq hout =>
    have hk := hq.2.2.2.1
    rw [hr] at hk
    cases hk
    exact ⟨ho, hg, hq, hout⟩
  | reported hq hout hb => cases hr.symm.trans hq.2.2.2.1
  | ready hq hout hb => cases hr.symm.trans hq.2.2.2.1

theorem Inv.store {t m : ℕ} (h : job.Inv own s) (hs : job.step s (.store t m) = some s') : job.Inv own s' := by
  simp only [step] at hs
  cases hr : (s.threads t).running with
  | none => simp [hr] at hs
  | some k =>
    simp only [hr] at hs
    cases hs
    obtain ⟨ho, hg, hq, hout⟩ := h.running hr
    exact h.update ho hg (fun _ _ => rfl) (.running ⟨hq.1, hq.2.1, hq.2.2.1, rfl, hq.2.2.2.2⟩ hout)

theorem Inv.finish {t : ℕ} (h : job.Inv own s) (hs : job.step s (.finish t) = some s') : job.Inv own s' := by
  simp only [step] at hs
  cases hr : (s.threads t).running with
  | none => simp [hr] at hs
  | some k =>
    simp only [hr] at hs
    cases hs
    obtain ⟨ho, hg, ⟨h₁, h₂, h₃, -, h₅⟩, hout⟩ := h.running hr
    refine h.update ho hg (fun _ _ => rfl) (.reported ⟨h₁, h₂, h₃, rfl, ?_⟩ hout ?_)
    · rw [h₅]
      rfl
    · exact List.take_left

theorem Inv.progress {t : ℕ} (h : job.Inv own s) (hs : job.step s (.progress t) = some s') : job.Inv own s' := by
  simp only [step] at hs
  split_ifs at hs with hy
  cases hb : (s.threads t).outbox with
  | nil => simp [hb] at hs
  | cons len rest =>
    obtain ⟨k, ho, hg, hheld⟩ := h.held (t := t) (Or.inr (Or.inr (by rw [hb]; exact List.cons_ne_nil len rest)))
    cases hheld with
    | queued hq hout => cases hb.symm.trans hq.2.2.2.2
    | running hq hout => cases hb.symm.trans hq.2.2.2.2
    | ready hq hout hbuf => cases hb.symm.trans hq.2.2.2.2
    | reported hq hout hbuf =>
      obtain ⟨h₁, h₂, h₃, h₄, h₅⟩ := hq
      rw [hb] at h₅
      cases h₅
      simp only [hb, h₂] at hs
      cases hs
      refine h.update ho hg (fun k' hk' => Function.update_of_ne hk' ..) (.ready ⟨rfl, rfl, h₃, h₄, rfl⟩ ?_ hbuf)
      exact Function.update_self ..

/-! ### The steps of the fiber -/

theorem firstInactive_eq_some {t : ℕ} (h : job.firstInactive s = some t) : (s.threads t).active = false := by
  have hf := List.find?_some h
  simpa using hf

/-- The condition under which nothing is overwritten: the thread that is picked has no result of the batch that
waits to be copied. -/
def Clear (job : Job) (s : GroupSt) : Act → Prop
  | .pick => ∀ t ∈ job.firstInactive s, ∀ j < job.nTask s, (s.out (s.base + j)).map Prod.snd ≠ some t
  | _ => True

instance decidableClear (job : Job) (s : GroupSt) : ∀ act, Decidable (job.Clear s act)
  | .pick =>
    inferInstanceAs (Decidable (∀ t ∈ job.firstInactive s, ∀ j < job.nTask s, (s.out (s.base + j)).map Prod.snd ≠ some t))
  | .posted | .sent | .progress _ | .start _ | .store _ _ | .finish _ | .copy => isTrue trivial

theorem not_giving_of_select {j : ℕ} (hp : s.phase = .select j) (x : ℕ) : ¬ Giving s x := by
  rintro ⟨i, hi⟩
  rw [hp] at hi
  rcases hi with hi | hi <;> cases hi

theorem not_giving_of_collect {j : ℕ} (hp : s.phase = .collect j) (x : ℕ) : ¬ Giving s x := by
  rintro ⟨i, hi⟩
  rw [hp] at hi
  rcases hi with hi | hi <;> cases hi

/-- The thread that is picked has no task. -/
theorem Inv.free_of_clear {j t : ℕ} (h : job.Inv own s) (hc : job.Clear s .pick) (hp : s.phase = .select j)
    (hf : job.firstInactive s = some t) : own t = none := by
  have hlow : low s = s.base := by simp [low, hp]
  have hhigh : job.high s = s.base + j := by simp [high, hp]
  have hact := firstInactive_eq_some hf
  cases ho : own t with
  | none => rfl
  | some k =>
    obtain ⟨h₁, h₂, h₃⟩ := h.stage t k ho
    have hj := h.within j (Or.inl hp)
    rw [hlow] at h₁
    rw [hhigh] at h₂
    rw [stage_iff_held (not_giving_of_select hp t)] at h₃
    cases h₃ with
    | queued hq hout => cases hact.symm.trans hq.1
    | running hq hout => cases hact.symm.trans hq.1
    | reported hq hout hb => cases hact.symm.trans hq.1
    | ready hq hout hb =>
      refine absurd ?_ (hc t hf (k - s.base) (by omega))
      rw [Nat.add_sub_cancel' h₁, hout]
      rfl

/-- A task that no thread has yet is given to one. -/
theorem Inv.inj_give {t k x y l : ℕ} (h : job.Inv own s) (hk : k = job.high s)
    (hx : Function.update own t (some k) x = some l) (hy : Function.update own t (some k) y = some l) : x = y := by
  subst hk
  have hnew : ∀ z, own z ≠ some (job.high s) := fun z hz => absurd (h.stage z _ hz).2.1 (Nat.lt_irrefl _)
  by_cases hxt : x = t
  · by_cases hyt : y = t
    · rw [hxt, hyt]
    · rw [hxt, Function.update_self] at hx
      cases hx
      rw [Function.update_of_ne hyt] at hy
      exact absurd hy (hnew y)
  · rw [Function.update_of_ne hxt] at hx
    by_cases hyt : y = t
    · rw [hyt, Function.update_self] at hy
      cases hy
      exact absurd hx (hnew x)
    · rw [Function.update_of_ne hyt] at hy
      exact h.inj x y l hx hy

theorem Inv.pick (h : job.Inv own s) (hc : job.Clear s .pick) (hs : job.step s .pick = some s') :
    ∃ own', job.Inv own' s' := by
  simp only [step] at hs
  cases hp : s.phase with
  | postRecv j t => simp [hp] at hs
  | send j t => simp [hp] at hs
  | collect j => simp [hp] at hs
  | finished => simp [hp] at hs
  | select j =>
    cases hf : job.firstInactive s with
    | none => simp [hp, hf] at hs
    | some t =>
      simp only [hp, hf] at hs
      cases hs
      have hlow : low s = s.base := by simp [low, hp]
      have hhigh : job.high s = s.base + j := by simp [high, hp]
      have hgiv := not_giving_of_select hp
      have hown := h.free_of_clear hc hp hf
      have hnew : ∀ x k, own x = some k → x ≠ t := by
        rintro x k hx rfl
        rw [hown] at hx
        cases hx
      have hidle := h.idle t hown
      refine ⟨Function.update own t (some (s.base + j)), ?_, ?_, ?_, ?_, ?_, ?_, ?_, h.right⟩
      · intro x hx
        have hne : x ≠ t := by
          rintro rfl
          rw [Function.update_self] at hx
          cases hx
        rw [Function.update_of_ne hne] at hx
        change ((setThread s t _).threads x).Idle
        rw [setThread_of_ne hne]
        exact h.idle x hx
      · intro x k hx
        by_cases hne : x = t
        · subst hne
          rw [Function.update_self] at hx
          cases hx
          refine ⟨Nat.le_add_right .., Nat.lt_succ_self _, ?_⟩
          simp only [Stage, if_true]
          change ((setThread s x _).threads x).Is true none [] none [] ∧ s.out (s.base + j) = none
          rw [setThread_self]
          exact ⟨⟨rfl, hidle.2⟩, h.ahead _ (Nat.le_of_eq hhigh)⟩
        · rw [Function.update_of_ne hne] at hx
          obtain ⟨h₁, h₂, h₃⟩ := h.stage x k hx
          rw [hlow] at h₁
          rw [hhigh] at h₂
          refine ⟨h₁, Nat.lt_succ_of_lt h₂, ?_⟩
          rw [stage_iff_held (hgiv x)] at h₃
          simp only [Stage]
          rw [if_neg (Ne.symm hne)]
          change job.Held s.out ((setThread s t _).threads x) x k
          rw [setThread_of_ne hne]
          exact h₃
      · intro k h₁ h₂
        have h₁' : s.base ≤ k := h₁
        have h₂' : k < s.base + j + 1 := h₂
        by_cases hk : k = s.base + j
        · exact ⟨t, by rw [hk, Function.update_self]⟩
        · obtain ⟨x, hx⟩ := h.covers k (by rw [hlow]; exact h₁') (by rw [hhigh]; omega)
          exact ⟨x, by rw [Function.update_of_ne (hnew x k hx), hx]⟩
      · exact fun x y k hx hy => h.inj_give hhigh.symm hx hy
      · rintro i x (hi | hi)
        · cases hi
          exact Function.update_self ..
        · cases hi
      · intro k hk
        have hk' : s.base + j + 1 ≤ k := hk
        exact h.ahead k (by rw [hhigh]; omega)
      · rintro i (hi | ⟨x, hi⟩ | ⟨x, hi⟩ | hi)
        · cases hi
        · cases hi
          exact h.within j (Or.inl hp)
        · cases hi
        · cases hi

/-- The fiber goes on with the task that it gives to thread `t`. -/
theorem Inv.advance {t k : ℕ} {th : ThreadSt} {ph : Phase} (h : job.Inv own s) (ho : own t = some k)
    (hg : ∀ x, Giving s x → x = t) (hg' : ∀ x, Giving { setThread s t th with phase := ph } x → x = t)
    (hlow : low { setThread s t th with phase := ph } = low s)
    (hhigh : job.high { setThread s t th with phase := ph } = job.high s)
    (hth : job.Stage { setThread s t th with phase := ph } t k)
    (hbusy : ∀ j x, ph = .postRecv j x ∨ ph = .send j x → own x = some (s.base + j))
    (hin : ∀ j, Phase.At { setThread s t th with phase := ph } j → j < job.nTask s) :
    job.Inv own { setThread s t th with phase := ph } where
  idle x hx := by
    have hne : x ≠ t := by
      rintro rfl
      rw [ho] at hx
      cases hx
    change ((setThread s t th).threads x).Idle
    rw [setThread_of_ne hne]
    exact h.idle x hx
  stage x k' hx := by
    rw [hlow, hhigh]
    obtain ⟨h₁, h₂, h₃⟩ := h.stage x k' hx
    refine ⟨h₁, h₂, ?_⟩
    by_cases hne : x = t
    · subst hne
      rw [ho] at hx
      cases hx
      exact hth
    · rw [stage_iff_held fun hx' => hne (hg x hx')] at h₃
      rw [stage_iff_held fun hx' => hne (hg' x hx')]
      change job.Held s.out ((setThread s t th).threads x) x k'
      rw [setThread_of_ne hne]
      exact h₃
  covers k' h₁ h₂ := by
    rw [hlow] at h₁
    rw [hhigh] at h₂
    exact h.covers k' h₁ h₂
  inj := h.inj
  busy := hbusy
  ahead k' hk' := by
    rw [hhigh] at hk'
    exact h.ahead k' hk'
  within := hin
  right := h.right

theorem Inv.posted (h : job.Inv own s) (hs : job.step s .posted = some s') : job.Inv own s' := by
  simp only [step] at hs
  cases hp : s.phase with
  | select j => simp [hp] at hs
  | send j t => simp [hp] at hs
  | collect j => simp [hp] at hs
  | finished => simp [hp] at hs
  | postRecv j t =>
    simp only [hp] at hs
    cases hs
    have ho := h.busy j t (Or.inl hp)
    have hst := (h.stage t _ ho).2.2
    simp only [Stage, hp, if_true] at hst
    obtain ⟨⟨h₁, h₂, h₃, h₄, h₅⟩, hout⟩ := hst
    refine h.advance ho ?_ ?_ (by simp [low, hp, setThread]) (by simp [high, hp, setThread]) ?_ ?_ ?_
    · rintro x ⟨i, hi | hi⟩
      · rw [hp] at hi
        cases hi
        rfl
      · rw [hp] at hi
        cases hi
    · rintro x ⟨i, hi | hi⟩
      · cases hi
      · cases hi
        rfl
    · simp only [Stage, if_true]
      change ((setThread s t _).threads t).Is true (some (s.base + j)) [] none [] ∧ s.out (s.base + j) = none
      rw [setThread_self]
      refine ⟨⟨h₁, ?_, h₃, h₄, h₅⟩, hout⟩
      change (s.threads t).outstanding.or _ = _
      rw [h₂]
      rfl
    · rintro i x (hi | hi)
      · cases hi
      · cases hi
        exact ho
    · rintro i (hi | ⟨x, hi⟩ | ⟨x, hi⟩ | hi)
      · cases hi
      · cases hi
      · cases hi
        exact h.within j (Or.inr (Or.inl ⟨t, hp⟩))
      · cases hi

theorem Inv.sent (h : job.Inv own s) (hs : job.step s .sent = some s') : job.Inv own s' := by
  simp only [step] at hs
  cases hp : s.phase with
  | select j => simp [hp] at hs
  | postRecv j t => simp [hp] at hs
  | collect j => simp [hp] at hs
  | finished => simp [hp] at hs
  | send j t =>
    simp only [hp] at hs
    cases hs
    have ho := h.busy j t (Or.inr hp)
    have hst := (h.stage t _ ho).2.2
    simp only [Stage, hp, if_true] at hst
    obtain ⟨⟨h₁, h₂, h₃, h₄, h₅⟩, hout⟩ := hst
    have hj := h.within j (Or.inr (Or.inr (Or.inl ⟨t, hp⟩)))
    have hlast : ¬ j + 1 < job.nTask s → job.nTask s = j + 1 := fun hlt => by omega
    have hafter : ∀ x i, job.afterSend s j ≠ .postRecv i x ∧ job.afterSend s j ≠ .send i x := by
      intro x i
      unfold afterSend
      split_ifs <;> constructor <;> intro hh <;> cases hh
    refine h.advance ho ?_ ?_ ?_ ?_ ?_ ?_ ?_
    · rintro x ⟨i, hi | hi⟩
      · rw [hp] at hi
        cases hi
      · rw [hp] at hi
        cases hi
        rfl
    · rintro x ⟨i, hi | hi⟩
      · exact absurd hi (hafter x i).1
      · exact absurd hi (hafter x i).2
    · simp only [low, hp, afterSend, setThread]
      split_ifs
      · rfl
      · rfl
    · simp only [high, hp, afterSend, setThread]
      split_ifs with hlt
      · rfl
      · change s.base + job.nTask s = s.base + j + 1
        rw [hlast hlt]
        rfl
    · rw [stage_iff_held]
      · change job.Held s.out ((setThread s t _).threads t) t (s.base + j)
        rw [setThread_self]
        refine .queued ⟨h₁, h₂, ?_, h₄, h₅⟩ hout
        change (s.threads t).inbox ++ [s.base + j] = [s.base + j]
        rw [h₃]
        rfl
      · rintro ⟨i, hi | hi⟩
        · exact absurd hi (hafter t i).1
        · exact absurd hi (hafter t i).2
    · rintro i x (hi | hi)
      · exact absurd hi (hafter x i).1
      · exact absurd hi (hafter x i).2
    · intro i hi
      by_cases hlt : j + 1 < job.nTask s
      · have hsel : job.afterSend s j = .select (j + 1) := if_pos hlt
        rcases hi with hi | ⟨x, hi⟩ | ⟨x, hi⟩ | hi
        · change job.afterSend s j = _ at hi
          rw [hsel] at hi
          cases hi
          exact hlt
        · exact absurd hi (hafter x i).1
        · exact absurd hi (hafter x i).2
        · change job.afterSend s j = _ at hi
          rw [hsel] at hi
          cases hi
      · have hcol : job.afterSend s j = .collect 0 := if_neg hlt
        rcases hi with hi | ⟨x, hi⟩ | ⟨x, hi⟩ | hi
        · change job.afterSend s j = _ at hi
          rw [hcol] at hi
          cases hi
        · exact absurd hi (hafter x i).1
        · exact absurd hi (hafter x i).2
        · change job.afterSend s j = _ at hi
          rw [hcol] at hi
          cases hi
          omega

theorem low_nextBatch (s : GroupSt) : low (job.nextBatch s) = s.base + job.nTask s := by
  unfold low nextBatch
  split_ifs
  · rfl
  · rfl

theorem high_nextBatch (s : GroupSt) : job.high (job.nextBatch s) = s.base + job.nTask s := by
  unfold high nextBatch
  split_ifs
  · rfl
  · rfl

/-- The task that is copied is ready, and its thread still holds its result. -/
theorem Inv.ready {j len t : ℕ} (h : job.Inv own s) (hp : s.phase = .collect j) (ho : s.out (s.base + j) = some (len, t)) :
    own t = some (s.base + j) ∧ (s.threads t).Idle ∧
      ((s.threads t).buffer.drop 8).take (len - 8) = (job.output (s.base + j)).drop 8 := by
  have hlow : low s = s.base + j := by simp [low, hp]
  have hhigh : job.high s = s.base + job.nTask s := by simp [high, hp]
  have hj := h.within j (Or.inr (Or.inr (Or.inr hp)))
  obtain ⟨x, hx⟩ := h.covers (s.base + j) (Nat.le_of_eq hlow) (by rw [hhigh]; omega)
  have hst := (h.stage x _ hx).2.2
  rw [stage_iff_held (not_giving_of_collect hp x)] at hst
  cases hst with
  | queued hq hout => cases ho.symm.trans hout
  | running hq hout => cases ho.symm.trans hout
  | reported hq hout hb => cases ho.symm.trans hout
  | ready hq hout hb =>
    rw [ho] at hout
    cases hout
    refine ⟨hx, hq, ?_⟩
    rw [← List.drop_take, hb]

/-- Who still has a task when the result of thread `t` is copied. -/
theorem Inv.released {j t : ℕ} (h : job.Inv own s) (hp : s.phase = .collect j) (hown : own t = some (s.base + j)) {x k : ℕ}
    (hx : Function.update own t none x = some k) :
    own x = some k ∧ s.base + j + 1 ≤ k ∧ k < s.base + job.nTask s ∧ job.Held s.out (s.threads x) x k := by
  have hlow : low s = s.base + j := by simp [low, hp]
  have hhigh : job.high s = s.base + job.nTask s := by simp [high, hp]
  have hne : x ≠ t := by
    rintro rfl
    rw [Function.update_self] at hx
    cases hx
  rw [Function.update_of_ne hne] at hx
  obtain ⟨h₁, h₂, h₃⟩ := h.stage x k hx
  rw [hlow] at h₁
  rw [hhigh] at h₂
  rw [stage_iff_held (not_giving_of_collect hp x)] at h₃
  have hk : k ≠ s.base + j := by
    rintro rfl
    exact hne (h.inj x t _ hx hown)
  exact ⟨hx, by omega, h₂, h₃⟩

/-- A batch begins at its first task. -/
theorem nextBatch_at {j : ℕ} (h : Phase.At (job.nextBatch s) j) : j < job.nTask (job.nextBatch s) := by
  have hpos := job.nThread_pos
  unfold Phase.At nextBatch at h
  split_ifs at h with hmore
  · rcases h with h | ⟨x, h⟩ | ⟨x, h⟩ | h
    · cases h
      unfold nTask nextBatch
      simp only
      omega
    · cases h
    · cases h
    · cases h
  · rcases h with h | ⟨x, h⟩ | ⟨x, h⟩ | h <;> cases h

/-- At its start no thread is being given a task. -/
theorem nextBatch_not_giving {j x : ℕ} : ¬ ((job.nextBatch s).phase = .postRecv j x ∨ (job.nextBatch s).phase = .send j x) := by
  intro h
  unfold nextBatch at h
  split_ifs at h <;> rcases h with h | h <;> cases h

/-- Taking the last task that is not copied yet from its thread. -/
theorem Inv.copy (h : job.Inv own s) (hs : job.step s .copy = some s') : ∃ own', job.Inv own' s' := by
  simp only [step] at hs
  cases hp : s.phase with
  | select j => simp [hp] at hs
  | postRecv j t => simp [hp] at hs
  | send j t => simp [hp] at hs
  | finished => simp [hp] at hs
  | collect j =>
    cases ho : s.out (s.base + j) with
    | none => simp [hp, ho] at hs
    | some p =>
      obtain ⟨len, t⟩ := p
      obtain ⟨hown, hidle, hbytes⟩ := h.ready hp ho
      have hlow : low s = s.base + j := by simp [low, hp]
      have hhigh : job.high s = s.base + job.nTask s := by simp [high, hp]
      have hidle' : ∀ x, Function.update own t none x = none → (s.threads x).Idle := by
        intro x hx
        by_cases hne : x = t
        · rw [hne]
          exact hidle
        · rw [Function.update_of_ne hne] at hx
          exact h.idle x hx
      have hinj : ∀ x y k, Function.update own t none x = some k → Function.update own t none y = some k → x = y :=
        fun x y k hx hy => h.inj x y k (h.released hp hown hx).1 (h.released hp hown hy).1
      have hright : ∀ c ∈ s.copied ++ [(s.base + j, ((s.threads t).buffer.drop 8).take (len - 8))],
          c.2 = (job.output c.1).drop 8 := by
        intro c hc
        rcases List.mem_append.mp hc with hc | hc
        · exact h.right c hc
        · rw [List.mem_singleton.mp hc]
          exact hbytes
      refine ⟨Function.update own t none, ?_⟩
      simp only [hp, ho] at hs
      split_ifs at hs with hlt
      · cases hs
        refine ⟨hidle', fun x k hx => (h.released hp hown hx).2, fun k h₁ h₂ => ?_, hinj, ?_,
          fun k hk => h.ahead k (hhigh ▸ hk), ?_, hright⟩
        · have h₁' : s.base + (j + 1) ≤ k := h₁
          obtain ⟨x, hx⟩ := h.covers k (by rw [hlow]; omega) (hhigh ▸ h₂)
          refine ⟨x, ?_⟩
          rw [Function.update_of_ne, hx]
          rintro rfl
          rw [hown] at hx
          cases hx
          omega
        · rintro i x (hi | hi)
          · cases hi
          · cases hi
        · rintro i (hi | ⟨x, hi⟩ | ⟨x, hi⟩ | hi)
          · cases hi
          · cases hi
          · cases hi
          · cases hi
            exact hlt
      · cases hs
        have hj := h.within j (Or.inr (Or.inr (Or.inr hp)))
        -- the batch is done, and no thread has a task
        have hnone : ∀ x, Function.update own t none x = none := by
          intro x
          cases hx : Function.update own t none x with
          | none => rfl
          | some k =>
            obtain ⟨-, h₁, h₂, -⟩ := h.released hp hown hx
            omega
        refine ⟨fun x hx => hidle' x hx, fun x k hx => ?_, fun k h₁ h₂ => ?_, hinj,
          fun i x hi => absurd hi nextBatch_not_giving, fun k hk => ?_, fun i hi => nextBatch_at hi, hright⟩
        · rw [hnone x] at hx
          cases hx
        · rw [low_nextBatch] at h₁
          rw [high_nextBatch] at h₂
          exact absurd (Nat.lt_of_le_of_lt h₁ h₂) (Nat.lt_irrefl _)
        · rw [high_nextBatch] at hk
          exact h.ahead k (by rw [hhigh]; exact hk)

/-! ### Every run -/

/-- At the start no thread has a task. -/
theorem inv_init (buffers : ℕ → Bytes) : job.Inv (fun _ => none) (job.init buffers) := by
  have hlow : low (job.init buffers) = 0 := by
    unfold low init
    split_ifs <;> rfl
  have hhigh : job.high (job.init buffers) = 0 := by
    unfold high init
    split_ifs <;> rfl
  refine ⟨fun t _ => ⟨rfl, rfl, rfl, rfl, rfl⟩, fun t k hk => ?_, fun k _ h₂ => ?_, fun t t' k hk => ?_, fun j t hp => ?_,
    fun k _ => rfl, fun j hj => ?_, fun c hc => ?_⟩
  · cases hk
  · rw [hhigh] at h₂
    exact absurd h₂ (Nat.not_lt_zero k)
  · cases hk
  · unfold init at hp
    split_ifs at hp <;> rcases hp with hp | hp <;> cases hp
  · have hpos := job.nThread_pos
    unfold Phase.At init at hj
    split_ifs at hj with hlen
    · rcases hj with hj | ⟨x, hj⟩ | ⟨x, hj⟩ | hj
      · cases hj
        change 0 < min job.nThread (job.length - 0)
        omega
      · cases hj
      · cases hj
      · cases hj
    · rcases hj with hj | ⟨x, hj⟩ | ⟨x, hj⟩ | hj <;> cases hj
  · cases hc

/-- Every step keeps the invariant. -/
theorem Inv.step {act : Act} (h : job.Inv own s) (hc : job.Clear s act) (hs : job.step s act = some s') :
    ∃ own', job.Inv own' s' := by
  cases act with
  | pick => exact h.pick hc hs
  | posted => exact ⟨own, h.posted hs⟩
  | sent => exact ⟨own, h.sent hs⟩
  | progress t => exact ⟨own, h.progress hs⟩
  | start t => exact ⟨own, h.start hs⟩
  | store t m => exact ⟨own, h.store hs⟩
  | finish t => exact ⟨own, h.finish hs⟩
  | copy => exact h.copy hs

/-- **What is copied is what was written for the element**, in every run in which no thread is picked whose result
waits to be copied. -/
theorem copied_of_run (job : Job) (buffers : ℕ → Bytes) (acts : List Act) (s : GroupSt)
    (hc : Along job.step job.Clear (job.init buffers) acts) (hr : run job.step (job.init buffers) acts = some s) :
    ∀ c ∈ s.copied, c.2 = (job.output c.1).drop 8 := by
  obtain ⟨own, h⟩ := inv_of_along (I := fun s => ∃ own, job.Inv own s) (fun s a s' ⟨_, h⟩ hc hs => h.step hc hs)
    ⟨_, inv_init buffers⟩ hc hr
  exact h.right

/-- Three elements for three threads. -/
def three : Job := ⟨3, by decide, 3, fun k => List.replicate 8 0 ++ [UInt8.ofNat k]⟩

/-- The run in which the threads are done only when all were picked. -/
def orderly : List Act :=
  [.pick, .posted, .sent, .pick, .posted, .sent, .pick, .posted, .sent, .start 0, .finish 0, .start 1, .finish 1, .start 2,
    .finish 2, .progress 0, .copy, .progress 1, .copy, .progress 2, .copy]

theorem copied_of_run_orderly :
    Along three.step three.Clear (three.init fun _ => []) orderly ∧
      (∀ s, run three.step (three.init fun _ => []) orderly = some s → ∀ c ∈ s.copied, c.2 = (three.output c.1).drop 8) ∧
      (run three.step (three.init fun _ => []) orderly).map GroupSt.copied = some [(0, [0]), (1, [1]), (2, [2])] := by
  have hc : Along three.step three.Clear (three.init fun _ => []) orderly := by decide
  exact ⟨hc, fun s hs => copied_of_run three _ orderly s hc hs, by decide⟩

/-- The run in which thread 0 is done before the second element is sent, and is picked for the third. -/
def hasty : List Act :=
  [.pick, .posted, .sent, .start 0, .finish 0, .pick, .progress 0, .posted, .sent, .pick, .posted, .sent, .start 0,
    .finish 0, .copy]

/-- **A result is overwritten before it is copied**: for the first element, the bytes of the third are copied. -/
theorem overwritten :
    ¬ ∀ (job : Job) (buffers : ℕ → Bytes) (acts : List Act) (s : GroupSt), run job.step (job.init buffers) acts = some s →
      ∀ c ∈ s.copied, c.2 = (job.output c.1).drop 8 := by
  intro hall
  have hcopied : (run three.step (three.init fun _ => []) hasty).map GroupSt.copied = some [(0, [2])] := by decide
  obtain ⟨s, hs, hcs⟩ := Option.map_eq_some_iff.mp hcopied
  have hbytes := hall three (fun _ => []) hasty s hs (0, [2]) (by rw [hcs]; exact List.mem_singleton.mpr rfl)
  revert hbytes
  decide

end Job

end DShuffle.Dpa
