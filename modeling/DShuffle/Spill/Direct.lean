import Mathlib.Algebra.Order.Ring.Nat
import DShuffle.Base.Transition
import Mathlib.Data.List.Basic
import Mathlib.Data.Int.Basic

/-!
# Mounting and unmounting on the DPU

`DirectSpillWorker` writes to a disk that the host lends it. `do_mount` opens a
file for every partition; `do_umount` waits until the queue is empty and no write
is counted, and closes the files. In between the spiller fiber takes tasks from
the queue, waits until there are as many files as partitions, prepares a write,
submits it and counts it; the poller fiber takes completions and counts them off.
The queue is filled by another thread.

## The model

* One machine, whose actions are the steps of the fibers, of the handlers, of the
  thread that pushes and of the disk. A task has a serial number.
* A descriptor is named by the call of `open` that made it: the numbers that the
  system gives are used again after a `close`.
* `issued_io` is an integer: a write may complete before it is counted.

## What is proved

* `completed_of_run` — in every run in which the spiller holds no task when the
  drain test passes, and nothing is pushed between the test and the close, every
  task that was pushed is written when the files are closed.
* `closed_with_pending` — a task that was taken before the mount is still held
  when the files are closed.
* `fresh_iff` — after a mount the files are those of this session exactly if no
  earlier mount opened one; `do_umount` leaves the closed files in the vector.

## Honest scope

The agent waits for the reply of each request, so there is one at a time. The
shutdown of the worker, and system calls that fail, are left out.
-/

namespace DShuffle.Spill.Direct

open Base

/-- A task in the queue. -/
structure Task where
  /-- How many were pushed before. -/
  serial : ℕ
  /-- Its partition. -/
  partitionId : ℕ
  /-- The size of its payload. -/
  actualSize : ℕ
  deriving DecidableEq

/-- An entry of `files`. -/
structure PartitionFile where
  /-- The descriptor, by the call of `open`. -/
  fd : ℕ
  /-- The partition. -/
  partitionId : ℕ
  /-- Where the next payload goes. -/
  offset : ℕ
  deriving DecidableEq

/-- Where the spiller stands. -/
inductive Spiller where
  /-- At the top of its loop. -/
  | idle
  /-- It has taken a task, and waits for the files. -/
  | holding (t : Task)
  /-- The write is prepared. -/
  | prepared (t : Task)
  /-- The write is submitted, but not counted. -/
  | submitted
  deriving DecidableEq

/-- Where the handler of an `UmountRpc` stands. -/
inductive Umount where
  /-- There is none. -/
  | none
  /-- In the drain loop. -/
  | draining
  /-- The drain test passed. -/
  | drained
  deriving DecidableEq

/-- The state of the worker. -/
structure St where
  /-- `mounted`. -/
  mounted : Bool
  /-- `max_n_partition`. -/
  maxNPartition : ℕ
  /-- `files`. -/
  files : List PartitionFile
  /-- How many descriptors were opened. -/
  nOpen : ℕ
  /-- The descriptors that were closed. -/
  closed : List ℕ
  /-- How many tasks were pushed. -/
  pushed : ℕ
  /-- `spill_q`. -/
  spillQ : List Task
  /-- The spiller. -/
  spiller : Spiller
  /-- The writes in flight. -/
  ring : List Task
  /-- The completions that were not polled yet. -/
  cq : List Task
  /-- The tasks whose writes are complete. -/
  completed : List ℕ
  /-- `issued_io`. -/
  issuedIo : ℤ
  /-- The handler of an `UmountRpc`. -/
  umount : Umount

/-- The steps. -/
inductive Act where
  /-- A task is pushed to `spill_q`. -/
  | push (partitionId actualSize : ℕ)
  /-- `do_mount`. -/
  | mount (maxNPartition : ℕ)
  /-- `do_umount` is entered. -/
  | umount
  /-- The drain test passes. -/
  | drained
  /-- `do_umount` closes the files and returns. -/
  | close
  /-- The spiller takes a task. -/
  | pop
  /-- The files are there: the spiller prepares the write. -/
  | prepare
  /-- The spiller submits the write. -/
  | submit
  /-- The spiller counts the write. -/
  | count
  /-- A write in flight completes. -/
  | complete (i : ℕ)
  /-- The poller takes a completion. -/
  | poll
  deriving DecidableEq

/-- The loop of `do_mount` over the partitions. -/
def openFiles (nOpen maxNPartition : ℕ) : List PartitionFile :=
  (List.range maxNPartition).map fun i => ⟨nOpen + i, i, 0⟩

/-- A step of the worker. -/
def step (s : St) : Act → Option St
  | .push partitionId actualSize =>
    some { s with pushed := s.pushed + 1, spillQ := s.spillQ ++ [⟨s.pushed, partitionId, actualSize⟩] }
  | .mount maxNPartition =>
    if s.mounted then none
    else
      some { s with
        mounted := true, maxNPartition := maxNPartition, files := s.files ++ openFiles s.nOpen maxNPartition
        nOpen := s.nOpen + maxNPartition }
  | .umount => if s.mounted ∧ s.umount = .none then some { s with umount := .draining } else none
  | .drained =>
    if s.umount = .draining ∧ s.spillQ = [] ∧ s.issuedIo = 0 then some { s with umount := .drained } else none
  | .close =>
    -- the vector is not cleared
    if s.umount = .drained then
      some { s with closed := s.closed ++ s.files.map PartitionFile.fd, mounted := false, umount := .none }
    else none
  | .pop =>
    match s.spiller, s.spillQ with
    | .idle, t :: q => some { s with spiller := .holding t, spillQ := q }
    | _, _ => none
  | .prepare =>
    match s.spiller with
    | .holding t =>
      if s.files.length = s.maxNPartition then
        match s.files[t.partitionId]? with
        | some f => some { s with
            spiller := .prepared t, files := s.files.set t.partitionId { f with offset := f.offset + t.actualSize } }
        | none => none
      else none
    | _ => none
  | .submit =>
    match s.spiller with
    | .prepared t => some { s with spiller := .submitted, ring := s.ring ++ [t] }
    | _ => none
  | .count =>
    match s.spiller with
    | .submitted => some { s with spiller := .idle, issuedIo := s.issuedIo + 1 }
    | _ => none
  | .complete i =>
    match s.ring[i]? with
    | some t => some { s with ring := s.ring.eraseIdx i, cq := s.cq ++ [t], completed := s.completed ++ [t.serial] }
    | none => none
  | .poll =>
    match s.cq with
    | _ :: cq => some { s with cq := cq, issuedIo := s.issuedIo - 1 }
    | [] => none

/-- The start. The source does not initialize `max_n_partition`. -/
def init (maxNPartition : ℕ) : St :=
  { mounted := false, maxNPartition := maxNPartition, files := [], nOpen := 0, closed := [], pushed := 0, spillQ := []
    spiller := .idle, ring := [], cq := [], completed := [], issuedIo := 0, umount := .none }

variable {s s' : St} {act : Act}

/-! ### Draining -/

/-- The serial number of the task that the spiller holds and has not submitted. -/
def Spiller.Has : Spiller → ℕ → Prop
  | .holding t, n => t.serial = n
  | .prepared t, n => t.serial = n
  | _, _ => False

/-- Where a task can be. -/
def Somewhere (s : St) (n : ℕ) : Prop :=
  (∃ t ∈ s.spillQ, t.serial = n) ∨ s.spiller.Has n ∨ (∃ t ∈ s.ring, t.serial = n) ∨ n ∈ s.completed

/-- The writes that are submitted but not counted. -/
def Spiller.uncounted : Spiller → ℤ
  | .submitted => 1
  | _ => 0

/-- **The invariant**: no task is lost, the count is right, and nothing is left when the drain test has passed. -/
structure Inv (s : St) : Prop where
  /-- Every task that was pushed is somewhere. -/
  kept : ∀ n < s.pushed, Somewhere s n
  /-- The writes that were submitted and not polled are those counted, and the one that is not. -/
  counted : s.issuedIo + s.spiller.uncounted = s.ring.length + s.cq.length
  /-- When the drain test has passed, there is nothing to write. -/
  empty : s.umount = .drained → s.spillQ = [] ∧ s.spiller = .idle ∧ s.ring = []

/-- The condition: the spiller holds no task when the drain test passes, and nothing is pushed from then to the close. -/
def Careful (s : St) : Act → Prop
  | .drained => s.spiller = .idle
  | .push _ _ => s.umount ≠ .drained
  | _ => True

instance decidableCareful (s : St) : ∀ act, Decidable (Careful s act)
  | .drained => inferInstanceAs (Decidable (s.spiller = .idle))
  | .push _ _ => inferInstanceAs (Decidable (s.umount ≠ .drained))
  | .mount _ | .umount | .close | .pop | .prepare | .submit | .count | .complete _ | .poll => isTrue trivial

theorem inv_init (m : ℕ) : Inv (init m) := by
  refine ⟨fun n hn => absurd hn (Nat.not_lt_zero n), rfl, fun h => ?_⟩
  cases h

theorem Inv.push {partitionId actualSize : ℕ} (h : Inv s) (hc : Careful s (.push partitionId actualSize))
    (hs : step s (.push partitionId actualSize) = some s') : Inv s' := by
  cases hs
  refine ⟨fun n hn => ?_, h.counted, fun hd => absurd hd hc⟩
  rcases Nat.lt_succ_iff_lt_or_eq.mp hn with hlt | rfl
  · rcases h.kept n hlt with ⟨t, ht, htn⟩ | hrest
    · exact Or.inl ⟨t, List.mem_append_left _ ht, htn⟩
    · exact Or.inr hrest
  · exact Or.inl ⟨_, List.mem_append_right _ (List.mem_singleton_self _), rfl⟩

theorem Inv.mount {maxNPartition : ℕ} (h : Inv s) (hs : step s (.mount maxNPartition) = some s') : Inv s' := by
  simp only [step] at hs
  split_ifs at hs
  cases hs
  exact ⟨h.kept, h.counted, h.empty⟩

theorem Inv.umount (h : Inv s) (hs : step s .umount = some s') : Inv s' := by
  simp only [step] at hs
  split_ifs at hs
  cases hs
  refine ⟨h.kept, h.counted, fun hd => ?_⟩
  cases hd

theorem Inv.drained (h : Inv s) (hc : Careful s .drained) (hs : step s .drained = some s') : Inv s' := by
  simp only [step] at hs
  split_ifs at hs with hcond
  cases hs
  obtain ⟨-, hq, hio⟩ := hcond
  have hidle : s.spiller = .idle := hc
  have hcount := h.counted
  rw [hio, hidle] at hcount
  have hring : s.ring.length = 0 := by
    simp only [Spiller.uncounted] at hcount
    omega
  exact ⟨h.kept, h.counted, fun _ => ⟨hq, hidle, List.length_eq_zero_iff.mp hring⟩⟩

theorem Inv.close (h : Inv s) (hs : step s .close = some s') : Inv s' := by
  simp only [step] at hs
  split_ifs at hs
  cases hs
  refine ⟨h.kept, h.counted, fun hd => ?_⟩
  cases hd

theorem Inv.pop (h : Inv s) (hs : step s .pop = some s') : Inv s' := by
  simp only [step] at hs
  split at hs
  · rename_i t q hidle hq
    cases hs
    refine ⟨fun n hn => ?_, ?_, fun hd => ?_⟩
    · rcases h.kept n hn with ⟨x, hx, hxn⟩ | hhas | hrest
      · rw [hq] at hx
        rcases List.mem_cons.mp hx with rfl | hx
        · exact Or.inr (Or.inl hxn)
        · exact Or.inl ⟨x, hx, hxn⟩
      · rw [hidle] at hhas
        exact absurd hhas id
      · exact Or.inr (Or.inr hrest)
    · have hcount := h.counted
      rw [hidle] at hcount
      exact hcount
    · have hnil := (h.empty hd).1
      rw [hq] at hnil
      cases hnil
  · cases hs

theorem Inv.prepare (h : Inv s) (hs : step s .prepare = some s') : Inv s' := by
  simp only [step] at hs
  split at hs
  · rename_i t hhold
    split_ifs at hs
    split at hs
    · cases hs
      refine ⟨fun n hn => ?_, ?_, fun hd => ?_⟩
      · rcases h.kept n hn with hq | hhas | hrest
        · exact Or.inl hq
        · rw [hhold] at hhas
          exact Or.inr (Or.inl hhas)
        · exact Or.inr (Or.inr hrest)
      · have hcount := h.counted
        rw [hhold] at hcount
        exact hcount
      · have hidle := (h.empty hd).2.1
        rw [hhold] at hidle
        cases hidle
    · cases hs
  · cases hs

theorem Inv.submit (h : Inv s) (hs : step s .submit = some s') : Inv s' := by
  simp only [step] at hs
  split at hs
  · rename_i t hprep
    cases hs
    refine ⟨fun n hn => ?_, ?_, fun hd => ?_⟩
    · rcases h.kept n hn with hq | hhas | ⟨x, hx, hxn⟩ | hdone
      · exact Or.inl hq
      · rw [hprep] at hhas
        exact Or.inr (Or.inr (Or.inl ⟨t, List.mem_append_right _ (List.mem_singleton_self _), hhas⟩))
      · exact Or.inr (Or.inr (Or.inl ⟨x, List.mem_append_left _ hx, hxn⟩))
      · exact Or.inr (Or.inr (Or.inr hdone))
    · have hcount := h.counted
      rw [hprep] at hcount
      simp only [Spiller.uncounted, List.length_append, List.length_singleton] at hcount ⊢
      omega
    · have hidle := (h.empty hd).2.1
      rw [hprep] at hidle
      cases hidle
  · cases hs

theorem Inv.count (h : Inv s) (hs : step s .count = some s') : Inv s' := by
  simp only [step] at hs
  split at hs
  · rename_i hsub
    cases hs
    refine ⟨fun n hn => ?_, ?_, fun hd => ?_⟩
    · rcases h.kept n hn with hq | hhas | hrest
      · exact Or.inl hq
      · rw [hsub] at hhas
        exact absurd hhas id
      · exact Or.inr (Or.inr hrest)
    · have hcount := h.counted
      rw [hsub] at hcount
      simp only [Spiller.uncounted] at hcount ⊢
      omega
    · have hidle := (h.empty hd).2.1
      rw [hsub] at hidle
      cases hidle
  · cases hs

theorem Inv.complete {i : ℕ} (h : Inv s) (hs : step s (.complete i) = some s') : Inv s' := by
  simp only [step] at hs
  split at hs
  · rename_i t hi
    cases hs
    have hlt := (List.getElem?_eq_some_iff.mp hi).1
    refine ⟨fun n hn => ?_, ?_, fun hd => ?_⟩
    · rcases h.kept n hn with hq | hhas | ⟨x, hx, hxn⟩ | hdone
      · exact Or.inl hq
      · exact Or.inr (Or.inl hhas)
      · by_cases hxt : x = t
        · subst hxt
          exact Or.inr (Or.inr (Or.inr (List.mem_append_right _ (List.mem_singleton.mpr hxn.symm))))
        · have hmem : x ∈ s.ring.eraseIdx i := by
            obtain ⟨j, hj⟩ := List.mem_iff_getElem?.mp hx
            have hne : j ≠ i := by
              rintro rfl
              rw [hi] at hj
              cases hj
              exact hxt rfl
            exact List.mem_eraseIdx_iff_getElem?.mpr ⟨j, hne, hj⟩
          exact Or.inr (Or.inr (Or.inl ⟨x, hmem, hxn⟩))
      · exact Or.inr (Or.inr (Or.inr (List.mem_append_left _ hdone)))
    · have hcount := h.counted
      simp only [List.length_eraseIdx_of_lt hlt, List.length_append, List.length_singleton]
      omega
    · have hnil := (h.empty hd).2.2
      rw [hnil] at hi
      cases hi
  · cases hs

theorem Inv.poll (h : Inv s) (hs : step s .poll = some s') : Inv s' := by
  simp only [step] at hs
  split at hs
  · rename_i t cq hcq
    cases hs
    have hcount := h.counted
    rw [hcq, List.length_cons] at hcount
    refine ⟨h.kept, ?_, h.empty⟩
    simp only
    omega
  · cases hs

theorem Inv.step (h : Inv s) (hc : Careful s act) (hs : step s act = some s') : Inv s' := by
  cases act with
  | push partitionId actualSize => exact h.push hc hs
  | mount maxNPartition => exact h.mount hs
  | umount => exact h.umount hs
  | drained => exact h.drained hc hs
  | close => exact h.close hs
  | pop => exact h.pop hs
  | prepare => exact h.prepare hs
  | submit => exact h.submit hs
  | count => exact h.count hs
  | complete i => exact h.complete hs
  | poll => exact h.poll hs

/-- **Everything that was pushed is written when the files are closed**, in every run whose steps meet the condition. -/
theorem completed_of_run (m : ℕ) (acts : List Act) (s s' : St) (hc : Along step Careful (init m) acts)
    (hr : run step (init m) acts = some s) (hclose : step s .close = some s') : ∀ n < s.pushed, n ∈ s.completed := by
  have hinv := inv_of_along (fun _ _ _ h hc hs => h.step hc hs) (inv_init m) hc hr
  have hd : s.umount = .drained := by
    simp only [step] at hclose
    split_ifs at hclose with hd
    exact hd
  obtain ⟨hq, hidle, hring⟩ := hinv.empty hd
  intro n hn
  rcases hinv.kept n hn with ⟨t, ht, -⟩ | hhas | ⟨t, ht, -⟩ | hdone
  · rw [hq] at ht
    cases ht
  · rw [hidle] at hhas
    exact absurd hhas id
  · rw [hring] at ht
    cases ht
  · exact hdone

/-- One task, written between a mount and an unmount. -/
def orderly : List Act :=
  [.mount 1, .push 0 8, .pop, .prepare, .submit, .count, .umount, .complete 0, .poll, .drained]

theorem completed_of_run_orderly :
    Along step Careful (init 7) orderly ∧
      (∀ s s', run step (init 7) orderly = some s → step s .close = some s' → ∀ n < s.pushed, n ∈ s.completed) ∧
      ((run step (init 7) orderly).bind fun s => step s .close).map (fun s => (s.pushed, s.completed)) = some (1, [0]) := by
  have hc : Along step Careful (init 7) orderly := by decide
  exact ⟨hc, fun s s' hr hclose => completed_of_run 7 orderly s s' hc hr hclose, by decide⟩

/-- **The files are closed over a pending task**: the spiller took it before the mount, and had no time to write it. -/
theorem closed_with_pending :
    ¬ ∀ (m : ℕ) (acts : List Act) (s s' : St), run step (init m) acts = some s → step s .close = some s' →
      ∀ n < s.pushed, n ∈ s.completed := by
  intro hall
  have hrun : ((run step (init 7) [.push 0 8, .pop, .mount 1, .umount, .drained]).bind fun s =>
      (step s .close).map fun _ => (s.pushed, s.completed)) = some (1, []) := by decide
  obtain ⟨s, hs, hrest⟩ := Option.bind_eq_some_iff.mp hrun
  obtain ⟨s', hs', hpair⟩ := Option.map_eq_some_iff.mp hrest
  have hall' := hall 7 _ s s' hs hs' 0
  obtain ⟨hpushed, hdone⟩ := Prod.mk.inj hpair
  rw [hpushed, hdone] at hall'
  exact List.not_mem_nil (hall' Nat.one_pos)

/-! ### The files of a session -/

/-- After a mount: as many files as partitions, and each is the one that this session opened for its partition, at
offset 0, and is not closed. -/
def Fresh (s : St) : Prop :=
  s.files.length = s.maxNPartition ∧
    ∀ i < s.maxNPartition, s.files[i]? = some ⟨s.nOpen - s.maxNPartition + i, i, 0⟩ ∧
      s.nOpen - s.maxNPartition + i ∉ s.closed

/-- Files are only added to the vector, and only files of the vector are closed. -/
structure Grown (s : St) : Prop where
  /-- There is an entry for every descriptor that was opened. -/
  length : s.files.length = s.nOpen
  /-- The entries have descriptors that were opened. -/
  opened : ∀ f ∈ s.files, f.fd < s.nOpen
  /-- What was closed was opened. -/
  closed : ∀ fd ∈ s.closed, fd < s.nOpen

theorem grown_init (m : ℕ) : Grown (init m) := by
  refine ⟨rfl, fun f hf => ?_, fun fd hfd => ?_⟩
  · cases hf
  · cases hfd

theorem Grown.mount {n : ℕ} (h : Grown s) (hs : step s (.mount n) = some s') : Grown s' := by
  simp only [step] at hs
  split_ifs at hs
  cases hs
  refine ⟨?_, fun f hf => ?_, fun fd hfd => ?_⟩
  · simp [openFiles, h.length]
  · show f.fd < s.nOpen + n
    rcases List.mem_append.mp hf with hf | hf
    · exact Nat.lt_add_right n (h.opened f hf)
    · obtain ⟨i, hi, rfl⟩ := List.mem_map.mp hf
      exact Nat.add_lt_add_left (List.mem_range.mp hi) s.nOpen
  · exact Nat.lt_add_right n (h.closed fd hfd)

theorem Grown.prepare (h : Grown s) (hs : step s .prepare = some s') : Grown s' := by
  simp only [step] at hs
  split at hs
  · split_ifs at hs
    split at hs
    · rename_i f hf
      cases hs
      refine ⟨List.length_set.trans h.length, fun g hg => ?_, h.closed⟩
      rcases List.mem_or_eq_of_mem_set hg with hg | rfl
      · exact h.opened g hg
      · exact h.opened f (List.mem_of_getElem? hf)
    · cases hs
  · cases hs

theorem Grown.close (h : Grown s) (hs : step s .close = some s') : Grown s' := by
  simp only [step] at hs
  split_ifs at hs
  cases hs
  refine ⟨h.length, h.opened, fun fd hfd => ?_⟩
  rcases List.mem_append.mp hfd with hfd | hfd
  · exact h.closed fd hfd
  · obtain ⟨f, hf, rfl⟩ := List.mem_map.mp hfd
    exact h.opened f hf

/-- The number of files that a step opens. -/
def Act.opens : Act → ℕ
  | .mount n => n
  | _ => 0

/-- A step that is neither a mount nor a close nor a preparation leaves the files and the descriptors alone. -/
theorem step_frame (hs : step s act = some s') (hm : ∀ n, act ≠ .mount n) (hp : act ≠ .prepare) (hc : act ≠ .close) :
    s'.files = s.files ∧ s'.nOpen = s.nOpen ∧ s'.closed = s.closed := by
  cases act with
  | mount n => exact absurd rfl (hm n)
  | prepare => exact absurd rfl hp
  | close => exact absurd rfl hc
  | push partitionId actualSize =>
    cases hs
    exact ⟨rfl, rfl, rfl⟩
  | umount =>
    simp only [step] at hs
    split_ifs at hs
    cases hs
    exact ⟨rfl, rfl, rfl⟩
  | drained =>
    simp only [step] at hs
    split_ifs at hs
    cases hs
    exact ⟨rfl, rfl, rfl⟩
  | pop | submit | count | complete | poll =>
    simp only [step] at hs
    split at hs <;> cases hs
    exact ⟨rfl, rfl, rfl⟩

/-- Every step keeps the vector grown, and counts the files it opens. -/
theorem Grown.step (h : Grown s) (hs : step s act = some s') : Grown s' ∧ s'.nOpen = s.nOpen + act.opens := by
  by_cases hm : ∃ n, act = .mount n
  · obtain ⟨n, rfl⟩ := hm
    refine ⟨h.mount hs, ?_⟩
    simp only [Direct.step] at hs
    split_ifs at hs
    cases hs
    rfl
  by_cases hp : act = .prepare
  · subst hp
    refine ⟨h.prepare hs, ?_⟩
    simp only [Direct.step] at hs
    split at hs
    · split_ifs at hs
      split at hs <;> cases hs
      rfl
    · cases hs
  by_cases hc : act = .close
  · subst hc
    refine ⟨h.close hs, ?_⟩
    simp only [Direct.step] at hs
    split_ifs at hs
    cases hs
    rfl
  have hne : ∀ n, act ≠ .mount n := fun n hn => hm ⟨n, hn⟩
  obtain ⟨h₁, h₂, h₃⟩ := step_frame hs hne hp hc
  have hopens : act.opens = 0 := by
    cases act with
    | mount n => exact absurd rfl (hne n)
    | push _ _ | umount | drained | close | pop | prepare | submit | count | complete _ | poll => rfl
  refine ⟨⟨?_, ?_, ?_⟩, ?_⟩
  · rw [h₁, h₂]
    exact h.length
  · rw [h₁, h₂]
    exact h.opened
  · rw [h₂, h₃]
    exact h.closed
  · rw [h₂, hopens]
    rfl

theorem grown_of_run {acts : List Act} (h : Grown s) (hr : run step s acts = some s') :
    Grown s' ∧ s'.nOpen = s.nOpen + (acts.map Act.opens).sum := by
  induction acts generalizing s with
  | nil =>
    cases hr
    exact ⟨h, rfl⟩
  | cons act acts ih =>
    obtain ⟨s₁, h₁, h₂⟩ := run_cons hr
    obtain ⟨hg, hn⟩ := h.step h₁
    obtain ⟨hg', hn'⟩ := ih hg h₂
    refine ⟨hg', ?_⟩
    rw [hn', hn, List.map_cons, List.sum_cons, Nat.add_assoc]

/-- Nothing was opened exactly if every mount was for no partition. -/
theorem sum_opens_eq_zero_iff (acts : List Act) :
    (acts.map Act.opens).sum = 0 ↔ ∀ k, Act.mount k ∈ acts → k = 0 := by
  induction acts with
  | nil => simp
  | cons act acts ih =>
    rw [List.map_cons, List.sum_cons, Nat.add_eq_zero_iff, ih]
    constructor
    · rintro ⟨hzero, hrest⟩ k hk
      rcases List.mem_cons.mp hk with rfl | hk
      · exact hzero
      · exact hrest k hk
    · intro hall
      refine ⟨?_, fun k hk => hall k (List.mem_cons_of_mem _ hk)⟩
      cases act with
      | mount n => exact hall n (List.mem_cons_self ..)
      | push _ _ | umount | drained | close | pop | prepare | submit | count | complete _ | poll => rfl

/-- **When a mount gives fresh files**: exactly if every earlier mount was for no partition. -/
theorem fresh_iff (m : ℕ) (acts : List Act) (n : ℕ) (s : St) (hr : run step (init m) (acts ++ [.mount n]) = some s) :
    Fresh s ↔ ∀ k, Act.mount k ∈ acts → k = 0 := by
  obtain ⟨s₁, h₁, h₂⟩ := run_append hr
  obtain ⟨hg, hn⟩ := grown_of_run (grown_init m) h₁
  obtain ⟨s₂, h₃, h₄⟩ := run_cons h₂
  cases h₄
  simp only [step] at h₃
  split_ifs at h₃
  cases h₃
  have hzero : s₁.nOpen = (acts.map Act.opens).sum := hn.trans (Nat.zero_add _)
  rw [← sum_opens_eq_zero_iff, ← hzero]
  constructor
  · rintro ⟨hlen, -⟩
    simp only [List.length_append, openFiles, List.length_map, List.length_range] at hlen
    rw [hg.length] at hlen
    omega
  · intro hnone
    have hfiles : s₁.files = [] := List.length_eq_zero_iff.mp (hg.length.trans hnone)
    refine ⟨?_, fun i hi => ⟨?_, fun hcl => ?_⟩⟩
    · simp [hfiles, openFiles]
    · have hi' : i < n := hi
      simp [hfiles, hnone, openFiles, hi']
    · have hlt := hg.closed _ hcl
      rw [hnone] at hlt
      exact Nat.not_lt_zero _ hlt

/-- A session, and a second mount. -/
def again : List Act := [.mount 1, .umount, .drained, .close]

theorem fresh_iff_again :
    (run step (init 7) (again ++ [.mount 1])).isSome = true ∧
      ∀ s, run step (init 7) (again ++ [.mount 1]) = some s → ¬ Fresh s := by
  refine ⟨by decide, fun s hs hf => ?_⟩
  have hzero := (fresh_iff 7 again 1 s hs).mp hf 1 (by decide)
  cases hzero

/-- **A second mount leaves closed files in front**: there are two files for one partition. -/
theorem not_fresh_again :
    ¬ ∀ (m : ℕ) (acts : List Act) (n : ℕ) (s : St), run step (init m) (acts ++ [.mount n]) = some s → Fresh s := by
  intro hall
  have hrun : (run step (init 7) (again ++ [.mount 1])).map (fun s => (s.files.length, s.maxNPartition)) = some (2, 1) := by
    decide
  obtain ⟨s, hs, hpair⟩ := Option.map_eq_some_iff.mp hrun
  obtain ⟨hlen, hmax⟩ := Prod.mk.inj hpair
  have hfresh := (hall 7 again 1 s hs).1
  rw [hlen, hmax] at hfresh
  cases hfresh

end DShuffle.Spill.Direct
