import DShuffle.Base.Transition
import Mathlib.Data.List.Basic

/-!
# Waiting until the spilling is done

`WaitForSpillDone` polls the flag `spilling` of the host's spill worker and closes
the partition files when it is clear. Only the completion poller writes the flag:
a completion sets it, and a row of empty polls clears it. A spill request that
`handle_spill_request` has accepted reads its buffer, waits in `io_q`, is held by
the submitter until the files are there, and is in flight, before it completes.

## The model

* One machine, whose actions are the steps of the request handlers, of the
  submitter, of the poller, of the disk and of the thread in `WaitForSpillDone`.
* The two environments differ in the number of empty polls: `PipelineTransEnv` has
  a `BufferredHostSpillWorker`, `NaiveTransEnv` a `HostSpillWorker`.
* A request has a serial number.

## What is proved

* `completed_of_steady_run` — in every run in which the flag is never clear over an
  outstanding request while a thread waits, every accepted request is written when
  the files are closed.
* `closed_with_outstanding` — before the first completion the flag is clear, and a
  wait then closes the files at once.

## Honest scope

One thread waits at a time. The shutdown of the worker is left out.
-/

namespace DShuffle.Spill.Quiesce

open Base

/-- The environments that have a `WaitForSpillDone`. -/
inductive Env where
  /-- `PipelineTransEnv`. -/
  | pipeline
  /-- `NaiveTransEnv`. -/
  | naive
  deriving DecidableEq

/-- The number of empty polls at which the poller clears the flag. -/
def Env.quietPolls : Env → ℕ
  | .pipeline => 5000
  | .naive => 10000

/-- Where the thread in `WaitForSpillDone` stands. -/
inductive Waiter where
  /-- There is none. -/
  | none
  /-- In the loop. -/
  | waiting
  /-- The flag was clear. -/
  | passed
  deriving DecidableEq

/-- The state of the worker. -/
structure St where
  /-- `spilling`. -/
  spilling : Bool
  /-- The files are open. -/
  filesOpen : Bool
  /-- How many requests were accepted. -/
  accepted : ℕ
  /-- The requests that read their buffers. -/
  reading : List ℕ
  /-- `io_q`. -/
  ioQ : List ℕ
  /-- The request that the submitter holds. -/
  held : Option ℕ
  /-- The writes in flight. -/
  ring : List ℕ
  /-- The completions that were not polled yet. -/
  cq : List ℕ
  /-- The requests whose writes are complete. -/
  completed : List ℕ
  /-- The empty polls since the last completion. -/
  count : ℕ
  /-- The thread in `WaitForSpillDone`. -/
  waiter : Waiter

/-- The steps. -/
inductive Act where
  /-- `create_partition_files`. -/
  | create
  /-- `handle_spill_request` accepts a request. -/
  | accept
  /-- A request has read its buffer and is queued. -/
  | read (i : ℕ)
  /-- The submitter takes a request. -/
  | pop
  /-- The files are there: the submitter submits the write. -/
  | submit
  /-- A write in flight completes. -/
  | complete (i : ℕ)
  /-- The poller finds nothing. -/
  | pollEmpty
  /-- The poller finds a completion. -/
  | pollDone
  /-- `WaitForSpillDone` is called. -/
  | wait
  /-- It reads the flag. -/
  | check
  /-- `close_partition_files`. -/
  | close
  deriving DecidableEq

/-- A step of the worker. -/
def step (env : Env) (s : St) : Act → Option St
  | .create => some { s with filesOpen := true }
  | .accept => some { s with accepted := s.accepted + 1, reading := s.reading ++ [s.accepted] }
  | .read i =>
    match s.reading[i]? with
    | some r => some { s with reading := s.reading.eraseIdx i, ioQ := s.ioQ ++ [r] }
    | none => none
  | .pop =>
    match s.held, s.ioQ with
    | none, r :: q => some { s with held := some r, ioQ := q }
    | _, _ => none
  | .submit =>
    match s.held with
    | some r => if s.filesOpen then some { s with held := none, ring := s.ring ++ [r] } else none
    | none => none
  | .complete i =>
    match s.ring[i]? with
    | some r => some { s with ring := s.ring.eraseIdx i, cq := s.cq ++ [r], completed := s.completed ++ [r] }
    | none => none
  | .pollEmpty =>
    if s.cq = [] then
      some { s with spilling := if s.count = env.quietPolls then false else s.spilling, count := s.count + 1 }
    else none
  | .pollDone =>
    match s.cq with
    | _ :: cq => some { s with cq := cq, spilling := true, count := 0 }
    | [] => none
  | .wait => if s.waiter = .none then some { s with waiter := .waiting } else none
  | .check =>
    if s.waiter = .waiting then some { s with waiter := if s.spilling then .waiting else .passed } else none
  | .close => if s.waiter = .passed then some { s with filesOpen := false, waiter := .none } else none

/-- The start: the flag is clear. -/
def init : St :=
  { spilling := false, filesOpen := false, accepted := 0, reading := [], ioQ := [], held := none, ring := [], cq := []
    completed := [], count := 0, waiter := .none }

/-- No accepted request is on its way to the disk. -/
def Quiet (s : St) : Prop := s.reading = [] ∧ s.ioQ = [] ∧ s.held = none ∧ s.ring = []

instance (s : St) : Decidable (Quiet s) := inferInstanceAs (Decidable (_ ∧ _ ∧ _ ∧ _))

/-- The condition. A wait begins when the flag is set or nothing is outstanding; while it lasts, the flag is cleared
only when nothing is outstanding, and requests are accepted only in its loop, while the flag is set. -/
def Steady (env : Env) (s : St) : Act → Prop
  | .wait => s.spilling = true ∨ Quiet s
  | .pollEmpty => s.count = env.quietPolls → s.waiter = .none ∨ Quiet s
  | .accept => s.waiter = .none ∨ (s.waiter = .waiting ∧ s.spilling = true)
  | _ => True

instance decidableSteady (env : Env) (s : St) : ∀ act, Decidable (Steady env s act)
  | .wait => inferInstanceAs (Decidable (_ ∨ _))
  | .pollEmpty => inferInstanceAs (Decidable (_ → _ ∨ _))
  | .accept => inferInstanceAs (Decidable (_ ∨ _))
  | .create | .read _ | .pop | .submit | .complete _ | .pollDone | .check | .close => isTrue trivial

/-- Where a request can be. -/
def Somewhere (s : St) (r : ℕ) : Prop :=
  r ∈ s.reading ∨ r ∈ s.ioQ ∨ s.held = some r ∨ r ∈ s.ring ∨ r ∈ s.completed

/-- **The invariant**: no request is lost, and while a thread waits a clear flag means that nothing is outstanding. -/
structure Inv (s : St) : Prop where
  /-- Every accepted request is somewhere. -/
  kept : ∀ r < s.accepted, Somewhere s r
  /-- In the loop, the flag is set or nothing is outstanding. -/
  waiting : s.waiter = .waiting → s.spilling = true ∨ Quiet s
  /-- After the loop, nothing is outstanding. -/
  passed : s.waiter = .passed → Quiet s

variable {env : Env} {s s' : St} {act : Act}

theorem inv_init : Inv init := by
  refine ⟨fun r hr => absurd hr (Nat.not_lt_zero r), fun h => ?_, fun h => ?_⟩
  · cases h
  · cases h

/-- A step on a request that is outstanding, by the handlers, the submitter or the disk. -/
theorem Inv.move (h : Inv s) (hq : ¬ Quiet s) (hk : ∀ r < s'.accepted, Somewhere s' r) (hw : s'.waiter = s.waiter)
    (hf : s'.spilling = s.spilling) : Inv s' := by
  refine ⟨hk, fun hwait => ?_, fun hpass => ?_⟩
  · rw [hw] at hwait
    rw [hf]
    exact Or.inl ((h.waiting hwait).resolve_right hq)
  · rw [hw] at hpass
    exact absurd (h.passed hpass) hq

theorem Inv.accept (h : Inv s) (hc : Steady env s .accept) (hs : step env s .accept = some s') : Inv s' := by
  cases hs
  refine ⟨fun r hr => ?_, fun hwait => ?_, fun hpass => ?_⟩
  · rcases Nat.lt_succ_iff_lt_or_eq.mp hr with hlt | rfl
    · rcases h.kept r hlt with hread | hrest
      · exact Or.inl (List.mem_append_left _ hread)
      · exact Or.inr hrest
    · exact Or.inl (List.mem_append_right _ (List.mem_singleton_self _))
  · rcases hc with hnone | ⟨-, hset⟩
    · cases hwait.symm.trans hnone
    · exact Or.inl hset
  · rcases hc with hnone | ⟨hw, -⟩
    · cases hpass.symm.trans hnone
    · cases hpass.symm.trans hw

/-- What is taken out of a list is the element, and the rest stays. -/
theorem mem_eraseIdx_or {xs : List ℕ} {i r x : ℕ} (hi : xs[i]? = some r) (hx : x ∈ xs) : x = r ∨ x ∈ xs.eraseIdx i := by
  by_cases hxr : x = r
  · exact Or.inl hxr
  · obtain ⟨j, hj⟩ := List.mem_iff_getElem?.mp hx
    refine Or.inr (List.mem_eraseIdx_iff_getElem?.mpr ⟨j, ?_, hj⟩)
    rintro rfl
    rw [hi] at hj
    cases hj
    exact hxr rfl

theorem Inv.read {i : ℕ} (h : Inv s) (hs : step env s (.read i) = some s') : Inv s' := by
  simp only [step] at hs
  split at hs
  · rename_i r hi
    cases hs
    refine h.move ?_ (fun x hx => ?_) rfl rfl
    · rintro ⟨hnil, -⟩
      rw [hnil] at hi
      cases hi
    · rcases h.kept x hx with hread | hq | hrest
      · rcases mem_eraseIdx_or hi hread with rfl | hread
        · exact Or.inr (Or.inl (List.mem_append_right _ (List.mem_singleton_self _)))
        · exact Or.inl hread
      · exact Or.inr (Or.inl (List.mem_append_left _ hq))
      · exact Or.inr (Or.inr hrest)
  · cases hs

theorem Inv.pop (h : Inv s) (hs : step env s .pop = some s') : Inv s' := by
  simp only [step] at hs
  split at hs
  · rename_i r q hheld hq
    cases hs
    refine h.move ?_ (fun x hx => ?_) rfl rfl
    · rintro ⟨-, hnil, -⟩
      rw [hq] at hnil
      cases hnil
    · rcases h.kept x hx with hread | hmem | hhas | hrest
      · exact Or.inl hread
      · rw [hq] at hmem
        rcases List.mem_cons.mp hmem with rfl | hmem
        · exact Or.inr (Or.inr (Or.inl rfl))
        · exact Or.inr (Or.inl hmem)
      · rw [hheld] at hhas
        cases hhas
      · exact Or.inr (Or.inr (Or.inr hrest))
  · cases hs

theorem Inv.submit (h : Inv s) (hs : step env s .submit = some s') : Inv s' := by
  simp only [step] at hs
  split at hs
  · rename_i r hheld
    split_ifs at hs
    cases hs
    refine h.move ?_ (fun x hx => ?_) rfl rfl
    · rintro ⟨-, -, hnone, -⟩
      rw [hheld] at hnone
      cases hnone
    · rcases h.kept x hx with hread | hq | hhas | hring | hdone
      · exact Or.inl hread
      · exact Or.inr (Or.inl hq)
      · rw [hheld] at hhas
        cases hhas
        exact Or.inr (Or.inr (Or.inr (Or.inl (List.mem_append_right _ (List.mem_singleton_self _)))))
      · exact Or.inr (Or.inr (Or.inr (Or.inl (List.mem_append_left _ hring))))
      · exact Or.inr (Or.inr (Or.inr (Or.inr hdone)))
  · cases hs

theorem Inv.complete {i : ℕ} (h : Inv s) (hs : step env s (.complete i) = some s') : Inv s' := by
  simp only [step] at hs
  split at hs
  · rename_i r hi
    cases hs
    refine h.move ?_ (fun x hx => ?_) rfl rfl
    · rintro ⟨-, -, -, hnil⟩
      rw [hnil] at hi
      cases hi
    · rcases h.kept x hx with hread | hq | hhas | hring | hdone
      · exact Or.inl hread
      · exact Or.inr (Or.inl hq)
      · exact Or.inr (Or.inr (Or.inl hhas))
      · rcases mem_eraseIdx_or hi hring with rfl | hring
        · exact Or.inr (Or.inr (Or.inr (Or.inr (List.mem_append_right _ (List.mem_singleton_self _)))))
        · exact Or.inr (Or.inr (Or.inr (Or.inl hring)))
      · exact Or.inr (Or.inr (Or.inr (Or.inr (List.mem_append_left _ hdone))))
  · cases hs

theorem Inv.pollEmpty (h : Inv s) (hc : Steady env s .pollEmpty) (hs : step env s .pollEmpty = some s') : Inv s' := by
  simp only [step] at hs
  split_ifs at hs with hcq hcount
  · cases hs
    refine ⟨h.kept, fun hwait => ?_, h.passed⟩
    rcases hc hcount with hnone | hquiet
    · cases hwait.symm.trans hnone
    · exact Or.inr hquiet
  · cases hs
    exact ⟨h.kept, h.waiting, h.passed⟩

theorem Inv.pollDone (h : Inv s) (hs : step env s .pollDone = some s') : Inv s' := by
  simp only [step] at hs
  split at hs
  · cases hs
    exact ⟨h.kept, fun _ => Or.inl rfl, h.passed⟩
  · cases hs

theorem Inv.wait (h : Inv s) (hc : Steady env s .wait) (hs : step env s .wait = some s') : Inv s' := by
  simp only [step] at hs
  split_ifs at hs
  cases hs
  refine ⟨h.kept, fun _ => hc, fun hpass => ?_⟩
  cases hpass

theorem Inv.check (h : Inv s) (hs : step env s .check = some s') : Inv s' := by
  simp only [step] at hs
  split_ifs at hs with hwait hset
  · cases hs
    refine ⟨h.kept, fun _ => Or.inl hset, fun hpass => ?_⟩
    cases hpass
  · cases hs
    refine ⟨h.kept, fun hw => ?_, fun _ => (h.waiting hwait).resolve_left hset⟩
    cases hw

theorem Inv.close (h : Inv s) (hs : step env s .close = some s') : Inv s' := by
  simp only [step] at hs
  split_ifs at hs
  cases hs
  refine ⟨h.kept, fun hw => ?_, fun hpass => ?_⟩
  · cases hw
  · cases hpass

theorem Inv.step (h : Inv s) (hc : Steady env s act) (hs : step env s act = some s') : Inv s' := by
  cases act with
  | create =>
    cases hs
    exact ⟨h.kept, h.waiting, h.passed⟩
  | accept => exact h.accept hc hs
  | read i => exact h.read hs
  | pop => exact h.pop hs
  | submit => exact h.submit hs
  | complete i => exact h.complete hs
  | pollEmpty => exact h.pollEmpty hc hs
  | pollDone => exact h.pollDone hs
  | wait => exact h.wait hc hs
  | check => exact h.check hs
  | close => exact h.close hs

/-- **Every accepted request is written when the files are closed**, in every run whose steps meet the condition. -/
theorem completed_of_steady_run (env : Env) (acts : List Act) (s s' : St) (hc : Along (step env) (Steady env) init acts)
    (hr : run (step env) init acts = some s) (hclose : step env s .close = some s') :
    ∀ r < s.accepted, r ∈ s.completed := by
  have hinv := inv_of_along (fun _ _ _ h hc hs => h.step hc hs) inv_init hc hr
  have hpass : s.waiter = .passed := by
    simp only [step] at hclose
    split_ifs at hclose with hpass
    exact hpass
  obtain ⟨hread, hq, hheld, hring⟩ := hinv.passed hpass
  intro r hr
  rcases hinv.kept r hr with hmem | hmem | hmem | hmem | hdone
  · rw [hread] at hmem
    cases hmem
  · rw [hq] at hmem
    cases hmem
  · rw [hheld] at hmem
    cases hmem
  · rw [hring] at hmem
    cases hmem
  · exact hdone

/-- One request, written before the wait. -/
def orderly : List Act := [.create, .accept, .read 0, .pop, .submit, .complete 0, .wait, .check]

theorem completed_of_steady_run_orderly :
    Along (step .pipeline) (Steady .pipeline) init orderly ∧
      (∀ s s', run (step .pipeline) init orderly = some s → step .pipeline s .close = some s' →
        ∀ r < s.accepted, r ∈ s.completed) ∧
      ((run (step .pipeline) init orderly).bind fun s => step .pipeline s .close).map (fun s => (s.accepted, s.completed)) =
        some (1, [0]) := by
  have hc : Along (step .pipeline) (Steady .pipeline) init orderly := by decide
  exact ⟨hc, fun s s' hr hclose => completed_of_steady_run .pipeline orderly s s' hc hr hclose, by decide⟩

/-- **The files are closed over the first request**: it is accepted, and nothing has completed yet. -/
theorem closed_with_outstanding :
    ¬ ∀ (env : Env) (acts : List Act) (s s' : St), run (step env) init acts = some s → step env s .close = some s' →
      s.filesOpen = true → ∀ r < s.accepted, r ∈ s.completed := by
  intro hall
  have hrun : ((run (step .pipeline) init [.create, .accept, .wait, .check]).bind fun s =>
      (step .pipeline s .close).map fun _ => (s.filesOpen, s.accepted, s.completed)) = some (true, 1, []) := by decide
  obtain ⟨s, hs, hrest⟩ := Option.bind_eq_some_iff.mp hrun
  obtain ⟨s', hs', htriple⟩ := Option.map_eq_some_iff.mp hrest
  obtain ⟨hopen, hpair⟩ := Prod.mk.inj htriple
  obtain ⟨haccepted, hdone⟩ := Prod.mk.inj hpair
  have hall' := hall .pipeline _ s s' hs hs' hopen 0
  rw [haccepted, hdone] at hall'
  exact List.not_mem_nil (hall' Nat.one_pos)

end DShuffle.Spill.Quiesce
