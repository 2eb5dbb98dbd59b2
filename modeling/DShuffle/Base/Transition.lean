import Mathlib.Data.Nat.Notation
import Mathlib.Logic.Function.Basic

/-!
# Machines that take steps

A machine is a function `step : S → A → Option S`: in a state, an action leads
to a state, or it is not enabled. Threads, fibers and devices that run at the
same time are one machine whose actions are the steps of each, so an
interleaving is a list of actions, and what holds after every list of actions
holds in every interleaving.

* `run` — the state after a list of actions.
* `Along` — every step of a run meets a condition on the state it starts from.
* `inv_of_run`, `inv_of_along` — an invariant of every step, or of every step
  that meets the condition, holds after every such run.
* `countP_le` — what every step of a kind uses up bounds how many of them there are.
* `inv_of_history` — the same for what relates the state to the actions taken.
* `throughout_iff_along` — what holds in every state of a run, as a condition on its steps.
-/

namespace DShuffle.Base

variable {S A : Type}

section
variable (step : S → A → Option S)

/-- The state after the actions, in order; none if one of them is not enabled. -/
def run (s : S) : List A → Option S
  | [] => some s
  | a :: as => (step s a).bind fun s' => run s' as

/-- Every state of the run, the first and the last included, has the property. -/
def Throughout (W : S → Prop) (s : S) (as : List A) : Prop :=
  ∀ pre post s', as = pre ++ post → run step s pre = some s' → W s'

/-- Every step of the run meets the condition. -/
def Along (C : S → A → Prop) (s : S) : List A → Prop
  | [] => True
  | a :: as => C s a ∧ ∀ s', step s a = some s' → Along C s' as

end

variable {step : S → A → Option S} {C : S → A → Prop} {I : S → Prop}

/-- Whether a condition holds along a run can be computed. -/
instance decidableAlong [∀ s a, Decidable (C s a)] : ∀ (s : S) (as : List A), Decidable (Along step C s as)
  | _, [] => isTrue trivial
  | s, a :: as =>
    match h : step s a with
    | none => decidable_of_iff (C s a) ⟨fun hc => ⟨hc, fun s' hs' => by rw [h] at hs'; cases hs'⟩, fun hc => hc.1⟩
    | some s₁ =>
      have := decidableAlong s₁ as
      decidable_of_iff (C s a ∧ Along step C s₁ as)
        ⟨fun hc => ⟨hc.1, fun s' hs' => by rw [h] at hs'; cases hs'; exact hc.2⟩, fun hc => ⟨hc.1, hc.2 s₁ h⟩⟩

theorem run_cons {s s' : S} {a : A} {as : List A} (h : run step s (a :: as) = some s') :
    ∃ s₁, step s a = some s₁ ∧ run step s₁ as = some s' := Option.bind_eq_some_iff.mp h

theorem run_append {s s' : S} {as bs : List A} (h : run step s (as ++ bs) = some s') :
    ∃ s₁, run step s as = some s₁ ∧ run step s₁ bs = some s' := by
  induction as generalizing s with
  | nil => exact ⟨s, rfl, h⟩
  | cons a as ih =>
    obtain ⟨s₁, h₁, h₂⟩ := run_cons h
    obtain ⟨s₂, h₃, h₄⟩ := ih h₂
    exact ⟨s₂, by rw [run, h₁]; exact h₃, h₄⟩

/-- A part of a run in front. -/
theorem Along.of_append {s : S} {as bs : List A} (h : Along step C s (as ++ bs)) : Along step C s as := by
  induction as generalizing s with
  | nil => trivial
  | cons a as ih => exact ⟨h.1, fun s' hs' => ih (h.2 s' hs')⟩

/-- A condition on the actions alone. -/
theorem Along.of_forall {P : A → Prop} {s : S} {as : List A} (h : ∀ a ∈ as, P a) : Along step (fun _ a => P a) s as := by
  induction as generalizing s with
  | nil => trivial
  | cons a as ih => exact ⟨h a (List.mem_cons_self ..), fun s' _ => ih fun b hb => h b (List.mem_cons_of_mem _ hb)⟩

/-- A condition on the steps, and one on the actions. -/
theorem Along.and_forall {P : A → Prop} {s : S} {as : List A} (h : Along step C s as) (hP : ∀ a ∈ as, P a) :
    Along step (fun s a => C s a ∧ P a) s as := by
  induction as generalizing s with
  | nil => trivial
  | cons a as ih =>
    exact ⟨⟨h.1, hP a (List.mem_cons_self ..)⟩, fun s' hs' => ih (h.2 s' hs') fun b hb => hP b (List.mem_cons_of_mem _ hb)⟩

/-- **Invariants of runs that meet a condition.** -/
theorem inv_of_along (hstep : ∀ s a s', I s → C s a → step s a = some s' → I s') {s s' : S} {as : List A} (h : I s)
    (ha : Along step C s as) (hr : run step s as = some s') : I s' := by
  induction as generalizing s with
  | nil =>
    cases hr
    exact h
  | cons a as ih =>
    obtain ⟨s₁, h₁, h₂⟩ := run_cons hr
    exact ih (hstep s a s₁ h ha.1 h₁) (ha.2 s₁ h₁) h₂

/-- A condition that follows from an invariant and another condition. -/
theorem Along.imp {D : S → A → Prop} (hstep : ∀ s a s', I s → C s a → step s a = some s' → I s')
    (himp : ∀ s a, I s → C s a → D s a) {s : S} {as : List A} (h : I s) (ha : Along step C s as) : Along step D s as := by
  induction as generalizing s with
  | nil => trivial
  | cons a as ih => exact ⟨himp s a h ha.1, fun s' hs' => ih (hstep s a s' h ha.1 hs') (ha.2 s' hs')⟩

/-- **Invariants of all runs.** -/
theorem inv_of_run (hstep : ∀ s a s', I s → step s a = some s' → I s') {s s' : S} {as : List A} (h : I s)
    (hr : run step s as = some s') : I s' := by
  induction as generalizing s with
  | nil =>
    cases hr
    exact h
  | cons a as ih =>
    obtain ⟨s₁, h₁, h₂⟩ := run_cons hr
    exact ih (hstep s a s₁ h h₁) h₂

/-- **Steps that use something up.** What decreases with every step that counts bounds how many there are. -/
theorem countP_le {m : S → ℕ} {c : A → Bool} (hI : ∀ s a s', I s → step s a = some s' → I s')
    (hm : ∀ s a s', I s → step s a = some s' → m s' + (if c a then 1 else 0) ≤ m s) {s s' : S} {as : List A} (h : I s)
    (hr : run step s as = some s') : m s' + as.countP c ≤ m s := by
  induction as generalizing s with
  | nil =>
    cases hr
    exact Nat.le_refl _
  | cons a as ih =>
    obtain ⟨s₁, h₁, h₂⟩ := run_cons hr
    have hfirst := hm s a s₁ h h₁
    have hrest := ih (hI s a s₁ h h₁) h₂
    rw [List.countP_cons]
    omega

/-- **Invariants of a state and the actions that led to it.** -/
theorem inv_of_history {H : List A → S → Prop} (hstep : ∀ as s a s', H as s → step s a = some s' → H (as ++ [a]) s')
    {s s' : S} {as bs : List A} (h : H as s) (hr : run step s bs = some s') : H (as ++ bs) s' := by
  induction bs generalizing s as with
  | nil =>
    cases hr
    rwa [List.append_nil]
  | cons b bs ih =>
    obtain ⟨s₁, h₁, h₂⟩ := run_cons hr
    rw [List.append_cons]
    exact ih (hstep as s b s₁ h h₁) h₂

theorem run_cons_of_step {s s₁ : S} {a : A} (h : step s a = some s₁) (as : List A) : run step s (a :: as) = run step s₁ as := by
  rw [run, h]
  rfl

/-- What holds in every state of a run of actions that meet `P`, as a condition on its steps. An invariant `I` that the
condition keeps gives the property; and a step that does not meet the condition leads to a state without it. -/
theorem throughout_iff_along_of {W : S → Prop} {P : A → Prop}
    (hstep : ∀ s a s', P a → I s → C s a → step s a = some s' → I s') (hI : ∀ s, I s → W s)
    (hback : ∀ s a s', P a → I s → step s a = some s' → W s' → C s a) {s sf : S} {as : List A} (h : I s)
    (hP : ∀ a ∈ as, P a) (hr : run step s as = some sf) : Throughout step W s as ↔ Along step C s as := by
  induction as generalizing s with
  | nil =>
    refine ⟨fun _ => trivial, fun _ pre post s' heq hpre => ?_⟩
    obtain ⟨rfl, -⟩ := List.nil_eq_append_iff.mp heq
    cases hpre
    exact hI s h
  | cons a as ih =>
    obtain ⟨s₁, h₁, h₂⟩ := run_cons hr
    have hPa : P a := hP a (List.mem_cons_self ..)
    have hPas : ∀ b ∈ as, P b := fun b hb => hP b (List.mem_cons_of_mem _ hb)
    constructor
    · intro ht
      have hfirst : run step s [a] = some s₁ := run_cons_of_step h₁ []
      have hC : C s a := hback s a s₁ hPa h h₁ (ht [a] as s₁ rfl hfirst)
      refine ⟨hC, fun s' hs' => ?_⟩
      cases h₁.symm.trans hs'
      refine (ih (hstep s a s₁ hPa h hC h₁) hPas h₂).mp fun pre post s' heq hpre => ?_
      exact ht (a :: pre) post s' (by rw [heq]; rfl) ((run_cons_of_step h₁ pre).trans hpre)
    · intro ha pre post s' heq hpre
      cases pre with
      | nil =>
        cases hpre
        exact hI s h
      | cons b pre =>
        obtain ⟨rfl, rfl⟩ := List.cons_eq_cons.mp heq
        rw [run_cons_of_step h₁] at hpre
        exact (ih (hstep s a s₁ hPa h ha.1 h₁) hPas h₂).mpr (ha.2 s₁ h₁) pre post s' rfl hpre

/-- **What holds in every state of a run, as a condition on its steps.** -/
theorem throughout_iff_along {W : S → Prop} (hstep : ∀ s a s', I s → C s a → step s a = some s' → I s')
    (hI : ∀ s, I s → W s) (hback : ∀ s a s', I s → step s a = some s' → W s' → C s a) {s sf : S} {as : List A} (h : I s)
    (hr : run step s as = some sf) : Throughout step W s as ↔ Along step C s as :=
  throughout_iff_along_of (P := fun _ => True) (fun s a s' _ => hstep s a s') hI (fun s a s' _ => hback s a s') h
    (fun _ _ => trivial) hr

end DShuffle.Base
