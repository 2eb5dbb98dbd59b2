import Mathlib.Data.List.Nodup
import Mathlib.Data.List.Range
import DShuffle.Base.Transition

/-!
# The end of the naive pool

`NaiveShuffleWorkerPool` has two queues, `ldq` for the tasks of the host and `rdq` for those of the other node, each with a
mutex and a condition variable of its own. The first half of the workers serves `ldq`, the other half `rdq`. A worker waits
until its queue is not empty or `running` is false; it returns if `running` is false and both queues are empty, and else it
takes the front of its own queue.

## The model

* One machine, whose actions are the calls of `submit_task`, the destructor, and the steps of the workers. Between the wait
  and the return, or the `pop`, a worker holds the mutex of its queue, so that its own queue does not change. The other
  queue does: the worker looks at it once, in the exit test.
* A task is the number of its call of `submit_task`.
* `front` on an empty queue ends the model of the worker, as nothing is known of what follows.

## What is proved

* `Inv.step` — a step that meets `Steady` keeps the invariant.
* `safe_of_steady_run` — in every run whose steps meet `Steady`, no worker calls `front` or `pop` on an empty queue, every
  worker returns with both queues empty, and every task is taken by exactly one worker.
* `Inv.steady` — before the stop every step meets `Steady`.
* `unsafe_of_not_steady` — after a step that does not meet it, one more step at most breaks that.
* `not_safe_front` — the destructor runs while there is a task of the other node, and a worker of the host wakes.

## Honest scope

What a worker does with a task is not in this module, nor is the order in which waiting workers wake. The exit test reads
the other queue without its mutex; here it reads whether that is empty, in one step.
-/

namespace DShuffle.Shuffle.Shutdown

open Base

/-! ### The state -/

/-- The queues. -/
inductive Queue where
  /-- The tasks of the host. -/
  | ldq
  /-- The tasks of the other node. -/
  | rdq
  deriving DecidableEq

/-- A pool. -/
structure Pool where
  /-- `n_worker`. -/
  nWorker : ℕ
  /-- Fewer than four are refused. -/
  four_le : 4 ≤ nWorker

/-- The queue that a worker serves. -/
def Pool.queueOf (pool : Pool) (w : ℕ) : Queue := if w < pool.nWorker / 2 then .ldq else .rdq

/-- Where a worker stands. -/
inductive Pc where
  /-- It waits. -/
  | wait
  /-- The wait is over, and it holds the mutex. -/
  | woken
  /-- The exit test was true, and it holds the mutex. -/
  | leave
  /-- The exit test was false, and it holds the mutex. -/
  | take
  /-- It works on a task. -/
  | busy (k : ℕ)
  /-- It has returned; both queues were empty then, or not. -/
  | gone (empty : Bool)
  /-- It has called `front` on an empty queue. -/
  | lost
  deriving DecidableEq

/-- It has returned. -/
def Pc.isGone : Pc → Bool
  | gone _ => true
  | wait | woken | leave | take | busy _ | lost => false

/-- The state. -/
structure St where
  /-- `running`. -/
  running : Bool
  /-- The worker that holds `lmu`, and the one that holds `rmu`. -/
  lock : Queue → Option ℕ
  /-- `ldq` and `rdq`. -/
  queue : Queue → List ℕ
  /-- The workers. -/
  pc : ℕ → Pc
  /-- How many tasks were submitted. -/
  submitted : ℕ
  /-- Who took which task. -/
  taken : List (ℕ × ℕ)

/-- Both queues are empty. -/
def St.allEmpty (s : St) : Bool := (s.queue .ldq).isEmpty && (s.queue .rdq).isEmpty

/-! ### The steps -/

/-- The steps. -/
inductive Act where
  /-- `submit_task`, with the queue that `from_remote` names. -/
  | submit (q : Queue)
  /-- The destructor sets `running`. -/
  | stop
  /-- A worker is done with its wait. -/
  | wake (w : ℕ)
  /-- The exit test. -/
  | test (w : ℕ)
  /-- A worker returns. -/
  | leave (w : ℕ)
  /-- `front` and `pop`. -/
  | take (w : ℕ)
  /-- A worker is done with its task. -/
  | done (w : ℕ)

variable (pool : Pool)

/-- A step. -/
def step (s : St) : Act → Option St
  | .submit q =>
    if s.lock q = none then
      some { s with queue := Function.update s.queue q (s.queue q ++ [s.submitted]), submitted := s.submitted + 1 }
    else none
  | .stop =>
    if s.lock .ldq = none ∧ s.lock .rdq = none ∧ s.running = true then some { s with running := false } else none
  | .wake w =>
    let q := pool.queueOf w
    if w < pool.nWorker ∧ s.pc w = .wait ∧ s.lock q = none ∧ (s.running = false ∨ s.queue q ≠ []) then
      some { s with lock := Function.update s.lock q (some w), pc := Function.update s.pc w .woken }
    else none
  | .test w =>
    if w < pool.nWorker ∧ s.pc w = .woken then
      some { s with pc := Function.update s.pc w (if !s.running && s.allEmpty then .leave else .take) }
    else none
  | .leave w =>
    if w < pool.nWorker ∧ s.pc w = .leave then
      some { s with
        lock := Function.update s.lock (pool.queueOf w) none, pc := Function.update s.pc w (.gone s.allEmpty) }
    else none
  | .take w =>
    if w < pool.nWorker ∧ s.pc w = .take then
      match s.queue (pool.queueOf w) with
      | [] => some { s with pc := Function.update s.pc w .lost }
      | k :: rest =>
        some { s with
          lock := Function.update s.lock (pool.queueOf w) none
          queue := Function.update s.queue (pool.queueOf w) rest
          pc := Function.update s.pc w (.busy k)
          taken := s.taken ++ [(w, k)] }
    else none
  | .done w =>
    match s.pc w with
    | .busy _ => if w < pool.nWorker then some { s with pc := Function.update s.pc w .wait } else none
    | _ => none

/-- The pool after its constructor. -/
def init : St := ⟨true, fun _ => none, fun _ => [], fun _ => .wait, 0, []⟩

/-! ### What is asked for -/

/-- All workers that serve the queue have returned. -/
def St.Deserted (s : St) (q : Queue) : Prop := ∀ w < pool.nWorker, pool.queueOf w = q → (s.pc w).isGone = true

instance (s : St) (q : Queue) : Decidable (s.Deserted pool q) :=
  inferInstanceAs (Decidable (∀ w < pool.nWorker, pool.queueOf w = q → (s.pc w).isGone = true))

/-- The pool shuts down safely. -/
structure Safe (s : St) : Prop where
  /-- No worker has called `front` on an empty queue. -/
  front : ∀ w, s.pc w ≠ .lost
  /-- Those that have returned did so with both queues empty. -/
  returned : ∀ w b, s.pc w = .gone b → b = true
  /-- No task was taken twice. -/
  once : (s.taken.map Prod.snd).Nodup
  /-- No task is left to a queue that no worker serves any more. -/
  served : ∀ q, s.Deserted pool q → s.queue q = []
  /-- In the end every task was taken by one worker. -/
  all : (∀ q, s.Deserted pool q) → ∀ k < s.submitted, ∃! w, (w, k) ∈ s.taken

/-- The condition on a step. A worker that goes through the exit test after the stop, with its own queue empty, finds the
other queue empty too; and a task is submitted to a queue that a worker still serves, while no worker of the other queue is
between its exit test and its return. -/
def Steady (s : St) : Act → Prop
  | .test w => s.running = false → s.queue (pool.queueOf w) = [] → s.allEmpty = true
  | .submit q => ¬ s.Deserted pool q ∧ ∀ w < pool.nWorker, s.pc w = .leave → pool.queueOf w = q
  | .stop | .wake _ | .leave _ | .take _ | .done _ => True

instance : ∀ (s : St) (a : Act), Decidable (Steady pool s a)
  | s, .test w => inferInstanceAs (Decidable (s.running = false → s.queue (pool.queueOf w) = [] → s.allEmpty = true))
  | s, .submit q =>
    inferInstanceAs (Decidable (¬ s.Deserted pool q ∧ ∀ w < pool.nWorker, s.pc w = .leave → pool.queueOf w = q))
  | _, .stop | _, .wake _ | _, .leave _ | _, .take _ | _, .done _ => isTrue trivial

/-! ### The invariant -/

/-- What holds of the state where a worker stands. -/
def Fits (s : St) (w : ℕ) : Pc → Prop
  | .wait | .busy _ => True
  | .woken => s.lock (pool.queueOf w) = some w ∧ (s.running = false ∨ s.queue (pool.queueOf w) ≠ [])
  | .leave => s.lock (pool.queueOf w) = some w ∧ w < pool.nWorker ∧ s.running = false ∧ ∀ q, s.queue q = []
  | .take => s.lock (pool.queueOf w) = some w ∧ s.queue (pool.queueOf w) ≠ []
  | .gone b => b = true ∧ s.running = false
  | .lost => False

/-- **The invariant.** -/
structure Inv (s : St) : Prop where
  /-- The workers. -/
  fits : ∀ w, Fits pool s w (s.pc w)
  /-- The tasks were taken, or lie in a queue. -/
  conserved : (s.taken.map Prod.snd ++ (s.queue .ldq ++ s.queue .rdq)).Perm (List.range s.submitted)
  /-- A queue that no worker serves is empty. -/
  served : ∀ q, s.Deserted pool q → s.queue q = []

variable {pool} {s s' : St}

/-- Another worker's step leaves the worker where it stands. -/
theorem Fits.frame {w : ℕ} {c : Pc} (h : Fits pool s w c) (hrun : s.running = false → s'.running = false)
    (hlock : s.lock (pool.queueOf w) = some w →
      s'.lock (pool.queueOf w) = some w ∧ (s.queue (pool.queueOf w) ≠ [] → s'.queue (pool.queueOf w) ≠ []))
    (hempty : c = .leave → (∀ q, s.queue q = []) → ∀ q, s'.queue q = []) : Fits pool s' w c := by
  cases c with
  | wait => trivial
  | woken => exact ⟨(hlock h.1).1, h.2.imp hrun (hlock h.1).2⟩
  | leave => exact ⟨(hlock h.1).1, h.2.1, hrun h.2.2.1, hempty rfl h.2.2.2⟩
  | take => exact ⟨(hlock h.1).1, (hlock h.1).2 h.2⟩
  | busy k => trivial
  | gone b => exact ⟨h.1, hrun h.2⟩
  | lost => exact h

/-- A worker that is still there serves its queue. -/
theorem not_deserted {w : ℕ} (hw : w < pool.nWorker) (hpc : (s.pc w).isGone = false) : ¬ s.Deserted pool (pool.queueOf w) := by
  intro h
  rw [h w hw rfl] at hpc
  cases hpc

theorem exists_queueOf (pool : Pool) (q : Queue) : ∃ w < pool.nWorker, pool.queueOf w = q := by
  have h4 := pool.four_le
  cases q with
  | ldq => exact ⟨0, by omega, if_pos (by omega)⟩
  | rdq => exact ⟨pool.nWorker / 2, by omega, if_neg (lt_irrefl _)⟩

theorem inv_init (pool : Pool) : Inv pool init := by
  refine ⟨fun _ => trivial, List.Perm.refl _, fun q _ => rfl⟩

/-- The workers that have returned, when one goes on and does not. -/
theorem St.Deserted.of_update {w : ℕ} {c : Pc} {q : Queue} (h : s'.Deserted pool q) (hpc : s'.pc = Function.update s.pc w c)
    (hw : w < pool.nWorker) (hc : c.isGone = false) : pool.queueOf w ≠ q ∧ s.Deserted pool q := by
  have hne : pool.queueOf w ≠ q := by
    intro hq
    have hgone := h w hw hq
    rw [hpc, Function.update_self, hc] at hgone
    cases hgone
  refine ⟨hne, fun v hv hvq => ?_⟩
  have hvw : v ≠ w := by
    rintro rfl
    exact hne hvq
  have hgone := h v hv hvq
  rwa [hpc, Function.update_of_ne hvw] at hgone

/-- Two workers do not hold one mutex. -/
theorem update_lock_of_holds {v w : ℕ} {l : Option ℕ} (hv : v ≠ w)
    (hmutex : s.lock (pool.queueOf w) = none ∨ s.lock (pool.queueOf w) = some w)
    (hlock : s.lock (pool.queueOf v) = some v) :
    pool.queueOf v ≠ pool.queueOf w ∧ Function.update s.lock (pool.queueOf w) l (pool.queueOf v) = some v := by
  have hne : pool.queueOf v ≠ pool.queueOf w := by
    intro heq
    rw [heq] at hlock
    rcases hmutex with hm | hm
    · rw [hm] at hlock
      cases hlock
    · rw [hm] at hlock
      cases hlock
      exact hv rfl
  exact ⟨hne, by rwa [Function.update_of_ne hne]⟩

theorem Inv.submit {q : Queue} (h : Inv pool s) (hc : Steady pool s (.submit q)) (hs : step pool s (.submit q) = some s') :
    Inv pool s' := by
  simp only [step] at hs
  split_ifs at hs with hlock
  cases hs
  have hother : ∀ w, s.lock (pool.queueOf w) = some w → pool.queueOf w ≠ q := by
    rintro w hw rfl
    rw [hlock] at hw
    cases hw
  refine ⟨fun w => ?_, ?_, fun p hp => ?_⟩
  · -- the workers of `q` do not hold its mutex, and none of the others is leaving
    refine (h.fits w).frame id (fun hw => ⟨hw, fun hne => ?_⟩) fun hpc _ => ?_
    · show Function.update s.queue q _ (pool.queueOf w) ≠ []
      rwa [Function.update_of_ne (hother w hw)]
    · have hfit := h.fits w
      rw [hpc] at hfit
      exact absurd (hc.2 w hfit.2.1 hpc) (hother w hfit.1)
  · show (_ ++ (Function.update s.queue q _ .ldq ++ Function.update s.queue q _ .rdq)).Perm _
    rw [List.range_succ]
    refine List.Perm.trans ?_ (h.conserved.append_right [s.submitted])
    rw [List.append_assoc]
    refine List.Perm.append_left _ ?_
    cases q with
    | ldq =>
      rw [Function.update_self, Function.update_of_ne Queue.noConfusion, List.append_assoc, List.append_assoc]
      exact List.Perm.append_left _ List.perm_append_comm
    | rdq =>
      rw [Function.update_self, Function.update_of_ne Queue.noConfusion, List.append_assoc]
  · show Function.update s.queue q _ p = []
    have hpq : p ≠ q := by
      rintro rfl
      exact hc.1 hp
    rw [Function.update_of_ne hpq]
    exact h.served p hp

theorem Inv.stop (h : Inv pool s) (hs : step pool s .stop = some s') : Inv pool s' := by
  simp only [step] at hs
  split_ifs at hs
  cases hs
  exact ⟨fun w => (h.fits w).frame (fun _ => rfl) (fun hw => ⟨hw, id⟩) fun _ => id, h.conserved, h.served⟩

/-- A worker goes on, and the queues keep their tasks. -/
theorem Inv.goto {w : ℕ} {c : Pc} {lock : Queue → Option ℕ} (h : Inv pool s) (hw : w < pool.nWorker)
    (hfit : Fits pool { s with lock := lock, pc := Function.update s.pc w c } w c)
    (hlock : ∀ v, v ≠ w → s.lock (pool.queueOf v) = some v → lock (pool.queueOf v) = some v)
    (hgone : c.isGone = true → ∀ q, s.queue q = []) : Inv pool { s with lock := lock, pc := Function.update s.pc w c } := by
  refine ⟨fun v => ?_, h.conserved, fun q hq => ?_⟩
  · show Fits pool _ v (Function.update s.pc w c v)
    by_cases hv : v = w
    · subst hv
      rwa [Function.update_self]
    · rw [Function.update_of_ne hv]
      exact (h.fits v).frame id (fun hl => ⟨hlock v hv hl, id⟩) fun _ => id
  · cases hc : c.isGone with
    | true => exact hgone hc q
    | false => exact h.served q (hq.of_update rfl hw hc).2

theorem Inv.wake {w : ℕ} (h : Inv pool s) (hs : step pool s (.wake w) = some s') : Inv pool s' := by
  simp only [step] at hs
  split_ifs at hs with hwake
  cases hs
  obtain ⟨hw, -, hlock, hready⟩ := hwake
  refine h.goto hw ⟨Function.update_self .., hready⟩ (fun v hv hl => ?_) Bool.noConfusion
  exact (update_lock_of_holds hv (Or.inl hlock) hl).2

theorem allEmpty_iff : s.allEmpty = true ↔ ∀ q, s.queue q = [] := by
  rw [St.allEmpty, Bool.and_eq_true, List.isEmpty_iff, List.isEmpty_iff]
  constructor
  · rintro ⟨hl, hr⟩ q
    cases q with
    | ldq => exact hl
    | rdq => exact hr
  · exact fun h => ⟨h _, h _⟩

/-- The exit test. -/
theorem Inv.test {w : ℕ} (h : Inv pool s) (hc : Steady pool s (.test w)) (hs : step pool s (.test w) = some s') :
    Inv pool s' := by
  simp only [step] at hs
  split_ifs at hs with htest hexit
  · obtain ⟨hw, hpc⟩ := htest
    have hfit := h.fits w
    rw [hpc] at hfit
    rw [Bool.and_eq_true, Bool.not_eq_true'] at hexit
    cases hs
    exact h.goto hw ⟨hfit.1, hw, hexit.1, allEmpty_iff.mp hexit.2⟩ (fun _ _ => id) Bool.noConfusion
  · obtain ⟨hw, hpc⟩ := htest
    have hfit := h.fits w
    rw [hpc] at hfit
    rw [Bool.and_eq_true, Bool.not_eq_true'] at hexit
    cases hs
    refine h.goto hw ⟨hfit.1, fun hempty => ?_⟩ (fun _ _ => id) Bool.noConfusion
    -- the wait was over because of the stop, so that the other queue is empty too
    have hrun := hfit.2.resolve_right fun hne => hne hempty
    exact hexit ⟨hrun, hc hrun hempty⟩

theorem Inv.leave {w : ℕ} (h : Inv pool s) (hs : step pool s (.leave w) = some s') : Inv pool s' := by
  simp only [step] at hs
  split_ifs at hs with hleave
  cases hs
  obtain ⟨hw, hpc⟩ := hleave
  have hfit := h.fits w
  rw [hpc] at hfit
  obtain ⟨hlock, -, hrun, hall⟩ := hfit
  refine h.goto hw ⟨?_, hrun⟩ (fun v hv hl => ?_) fun _ => hall
  · exact allEmpty_iff.mpr hall
  · exact (update_lock_of_holds hv (Or.inr hlock) hl).2

theorem Inv.done {w : ℕ} (h : Inv pool s) (hs : step pool s (.done w) = some s') : Inv pool s' := by
  simp only [step] at hs
  split at hs
  · split_ifs at hs with hw
    cases hs
    exact h.goto hw trivial (fun _ _ => id) Bool.noConfusion
  · cases hs

theorem Inv.take {w : ℕ} (h : Inv pool s) (hs : step pool s (.take w) = some s') : Inv pool s' := by
  simp only [step] at hs
  split_ifs at hs with htake
  obtain ⟨hw, hpc⟩ := htake
  have hfit := h.fits w
  rw [hpc] at hfit
  obtain ⟨hlock, hne⟩ := hfit
  split at hs
  · next hempty => exact absurd hempty hne
  · next k rest hqueue =>
    cases hs
    refine ⟨fun v => ?_, ?_, fun q hq => ?_⟩
    · show Fits pool _ v (Function.update s.pc w (.busy k) v)
      by_cases hv : v = w
      · subst hv
        rw [Function.update_self]
        trivial
      · rw [Function.update_of_ne hv]
        refine (h.fits v).frame id (fun hl => ?_) fun _ hall => absurd (hall _) hne
        obtain ⟨hvw, hl'⟩ := update_lock_of_holds hv (Or.inr hlock) hl
        refine ⟨hl', fun hq => ?_⟩
        show Function.update s.queue (pool.queueOf w) rest (pool.queueOf v) ≠ []
        rwa [Function.update_of_ne hvw]
    · show ((s.taken ++ [(w, k)]).map Prod.snd ++
        (Function.update s.queue (pool.queueOf w) rest .ldq ++ Function.update s.queue (pool.queueOf w) rest .rdq)).Perm _
      refine List.Perm.trans ?_ h.conserved
      rw [List.map_append, List.append_assoc]
      refine List.Perm.append_left _ ?_
      cases hqw : pool.queueOf w with
      | ldq =>
        rw [hqw] at hqueue
        rw [Function.update_self, Function.update_of_ne Queue.noConfusion, hqueue]
        rfl
      | rdq =>
        rw [hqw] at hqueue
        rw [Function.update_self, Function.update_of_ne Queue.noConfusion, hqueue]
        show (k :: (s.queue .ldq ++ rest)).Perm _
        exact List.perm_middle.symm
    · obtain ⟨hwq, hold⟩ := St.Deserted.of_update hq rfl hw rfl
      show Function.update s.queue (pool.queueOf w) rest q = []
      rw [Function.update_of_ne (Ne.symm hwq)]
      exact h.served q hold

/-- **A step that meets the condition keeps the invariant.** -/
theorem Inv.step (a : Act) (h : Inv pool s) (hc : Steady pool s a) (hs : step pool s a = some s') : Inv pool s' := by
  cases a with
  | submit q => exact h.submit hc hs
  | stop => exact h.stop hs
  | wake w => exact h.wake hs
  | test w => exact h.test hc hs
  | leave w => exact h.leave hs
  | take w => exact h.take hs
  | done w => exact h.done hs

/-! ### The end -/

/-- Every task was taken once, when the queues are empty. -/
theorem Inv.taken_once (h : Inv pool s) (hall : ∀ q, s.queue q = []) {k : ℕ} (hk : k < s.submitted) :
    ∃! w, (w, k) ∈ s.taken := by
  have hperm := h.conserved
  rw [hall, hall, List.append_nil, List.append_nil] at hperm
  obtain ⟨⟨w, _⟩, hw, rfl⟩ := List.mem_map.mp (hperm.symm.subset (List.mem_range.mpr hk))
  refine ⟨w, hw, fun v hv => ?_⟩
  have hnodup : (s.taken.map Prod.snd).Nodup := hperm.symm.nodup List.nodup_range
  exact congrArg Prod.fst (List.inj_on_of_nodup_map hnodup hv hw rfl)

theorem Inv.safe (h : Inv pool s) : Safe pool s where
  front w hw := by
    have hfit := h.fits w
    rw [hw] at hfit
    exact hfit
  returned w b hw := by
    have hfit := h.fits w
    rw [hw] at hfit
    exact hfit.1
  once := (h.conserved.symm.nodup List.nodup_range).of_append_left
  served := h.served
  all hgone k hk := h.taken_once (fun q => h.served q (hgone q)) hk

/-- **The pool shuts down safely in every run whose steps meet the condition**: in every state that the run goes through,
no worker has called `front` or `pop` on an empty queue, those that have returned did so with both queues empty, no task
was taken twice, and, when all have returned, every task was taken by one worker. -/
theorem safe_of_steady_run (pool : Pool) (acts : List Act) (hc : Along (step pool) (Steady pool) init acts) :
    Throughout (step pool) (Safe pool) init acts := by
  intro pre post s heq hr
  subst heq
  have hinv : Inv pool s :=
    inv_of_along (fun _ a _ h hc hs => h.step a hc hs) (inv_init pool) hc.of_append hr
  exact hinv.safe

/-- **Before the stop every step meets the condition.** -/
theorem Inv.steady (h : Inv pool s) (hrun : s.running = true) (a : Act) : Steady pool s a := by
  cases a with
  | submit q =>
    constructor
    · obtain ⟨w, hw, rfl⟩ := exists_queueOf pool q
      refine not_deserted hw ?_
      have hfit := h.fits w
      cases hpc : s.pc w with
      | gone b =>
        rw [hpc] at hfit
        exact absurd hfit.2 (by rw [hrun]; exact Bool.noConfusion)
      | wait | woken | leave | take | busy k | lost => rfl
    · intro w hw hpc
      have hfit := h.fits w
      rw [hpc] at hfit
      exact absurd hfit.2.2.1 (by rw [hrun]; exact Bool.noConfusion)
  | test w => exact fun hstop => absurd hstop (by rw [hrun]; exact Bool.noConfusion)
  | stop | wake w | leave w | take w | done w => trivial

/-- **The condition leaves out nothing else**: after a step that does not meet it, the state is not safe, or one step of a
worker leads to one that is not. -/
theorem unsafe_of_not_steady {a : Act} (hc : ¬ Steady pool s a) (hs : step pool s a = some s') :
    ∃ bs s'', run (step pool) s' bs = some s'' ∧ ¬ Safe pool s'' := by
  cases a with
  | submit q =>
    simp only [step] at hs
    split_ifs at hs with hlock
    cases hs
    have hne : Function.update s.queue q (s.queue q ++ [s.submitted]) q ≠ [] := by
      rw [Function.update_self]
      exact List.append_ne_nil_of_right_ne_nil _ (List.cons_ne_nil _ _)
    by_cases hleave : ∃ w < pool.nWorker, s.pc w = .leave ∧ pool.queueOf w ≠ q
    · -- the worker returns, and the task is in the queue
      obtain ⟨w, hw, hpc, -⟩ := hleave
      have hstep : step pool { s with
          queue := Function.update s.queue q (s.queue q ++ [s.submitted]), submitted := s.submitted + 1 } (.leave w) =
          some _ := if_pos ⟨hw, hpc⟩
      refine ⟨[.leave w], _, run_cons_of_step hstep [], fun hsafe => ?_⟩
      exact hne (allEmpty_iff.mp (hsafe.returned w _ (Function.update_self ..)) q)
    · refine ⟨[], _, rfl, fun hsafe => hc ⟨fun hdes => ?_, fun w hw hpc => ?_⟩⟩
      · -- nobody is left to take it
        exact hne (hsafe.served q hdes)
      · by_contra hwq
        exact hleave ⟨w, hw, hpc, hwq⟩
  | test w =>
    simp only [step] at hs
    split_ifs at hs with htest hexit
    · rw [Bool.and_eq_true] at hexit
      exact absurd (fun _ _ => hexit.2) hc
    · -- it goes on to `front` with an empty queue
      have hempty : s.queue (pool.queueOf w) = [] := by
        by_contra hne
        exact hc fun _ hempty => absurd hempty hne
      cases hs
      have hstep : step pool { s with pc := Function.update s.pc w .take } (.take w) =
          some { s with pc := Function.update (Function.update s.pc w .take) w .lost } := by
        simp only [step]
        rw [if_pos ⟨htest.1, Function.update_self ..⟩, hempty]
      exact ⟨[.take w], _, run_cons_of_step hstep [], fun hsafe => hsafe.front w (Function.update_self ..)⟩
  | stop | wake w | leave w | take w | done w => exact absurd trivial hc

/-! ### Two runs -/

/-- Four workers. -/
def four : Pool := ⟨4, le_refl 4⟩

/-- A task is submitted, taken and done, and then all stop. -/
def orderly : List Act :=
  [.submit .rdq, .wake 2, .test 2, .take 2, .done 2, .stop, .wake 0, .test 0, .wake 2, .leave 0, .test 2, .leave 2, .wake 1,
    .test 1, .leave 1, .wake 3, .test 3, .leave 3]

theorem safe_of_steady_run_orderly : Throughout (step four) (Safe four) init orderly :=
  safe_of_steady_run four orderly (by decide)

/-- **The destructor runs while there is a task of the other node**: a worker of the host wakes first, and calls `front` on
its empty queue. -/
theorem not_safe_front : ∃ s, run (step four) init [.submit .rdq, .stop, .wake 0, .test 0, .take 0] = some s ∧
    s.pc 0 = .lost ∧ ¬ ∀ acts, Throughout (step four) (Safe four) init acts := by
  have hrun : run (step four) init [.submit .rdq, .stop, .wake 0, .test 0, .take 0] = some _ := rfl
  refine ⟨_, hrun, rfl, fun hall => ?_⟩
  have hsafe := hall [.submit .rdq, .stop, .wake 0, .test 0, .take 0] _ [] _ (List.append_nil _).symm hrun
  exact hsafe.front 0 rfl

end DShuffle.Shuffle.Shutdown
