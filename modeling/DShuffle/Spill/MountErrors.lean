import DShuffle.Spill.Direct
import DShuffle.Spill.Mount

/-!
# Commands that fail on the DPU

`do_mount` and `do_umount` of the `DirectSpillWorker` run `mount` and `umount` through `system`, log the code and return
it. Neither looks at it: `do_mount` sets `mounted` and opens the files whatever the code is, and `do_umount` has closed them
before, and clears `mounted`.

## The model

* The worker of `Direct`, with the disk on the DPU, and with a code for each command. As in `Mount`, a command does what it
  is for exactly if its code is 0.
* What the flag and the files were when a request came in is kept, and so is the code of the handler that has just
  returned.

## What is proved

* `mounted_of_step` — the two handlers are all that changes the flag.
* `truthful_iff` — in every state of a run the flag is the state of the disk, and a handler that returned another code than
  0 left the flag and the files as they were, exactly if every command of the run returned 0.
* `not_truthful_failed` — a `mount` that fails, and an `umount` that fails.

## Honest scope

A handler that dies ends the process, and returns no code. One request is served at a time, as in `Direct`.
-/

namespace DShuffle.Spill.MountErrors

open Base

/-- A step of the worker, with the code that its command returns, if it runs one. -/
structure Act where
  /-- The step. -/
  act : Direct.Act
  /-- The code. -/
  rc : ℤ
  deriving DecidableEq

/-- The worker and the disk. -/
structure St where
  /-- The worker. -/
  worker : Direct.St
  /-- The disk is mounted on the DPU. -/
  disk : Bool
  /-- The flag and the files when the last request came in. -/
  before : Bool × List Direct.PartitionFile
  /-- The code of the handler that has just returned. -/
  code : Option ℤ

namespace Act

/-- The disk after the step. -/
def disk (a : Act) (d : Bool) : Bool :=
  match a.act with
  | .mount _ => Mount.mount d a.rc
  | .close => Mount.umount d a.rc
  | .push _ _ | .umount | .drained | .pop | .prepare | .submit | .count | .complete _ | .poll => d

/-- The code that a handler returns with the step. -/
def code (a : Act) : Option ℤ :=
  match a.act with
  | .mount _ | .close => some a.rc
  | .push _ _ | .umount | .drained | .pop | .prepare | .submit | .count | .complete _ | .poll => none

/-- A request comes in with the step. -/
def isRequest (a : Act) : Bool :=
  match a.act with
  | .mount _ | .umount => true
  | .push _ _ | .drained | .close | .pop | .prepare | .submit | .count | .complete _ | .poll => false

end Act

/-- A step. -/
def step (s : St) (a : Act) : Option St :=
  (Direct.step s.worker a.act).map fun w =>
    { worker := w, disk := a.disk s.disk, code := a.code
      before := if a.isRequest then (s.worker.mounted, s.worker.files) else s.before }

/-- The start: nothing is mounted. -/
def init (maxNPartition : ℕ) : St := ⟨Direct.init maxNPartition, false, (false, []), none⟩

/-- The flag says what is so, and a failed request changed nothing. -/
structure Truthful (s : St) : Prop where
  /-- The flag is the state of the disk. -/
  flag : s.worker.mounted = s.disk
  /-- A handler that has just returned another code than 0 left the flag and the files as they were. -/
  kept : ∀ rc, s.code = some rc → rc ≠ 0 → (s.worker.mounted, s.worker.files) = s.before

/-- The command of the step, if it runs one, returns 0. -/
def Succeeds (_ : St) (a : Act) : Prop := ∀ rc ∈ a.code, rc = 0

variable {s s' : St} {a : Act}

/-- The flag after a step of the worker: `do_mount` sets it and `do_umount` clears it, whatever their commands return. -/
def flagAfter (mounted : Bool) : Direct.Act → Bool
  | .mount _ => true
  | .close => false
  | .push _ _ | .umount | .drained | .pop | .prepare | .submit | .count | .complete _ | .poll => mounted

/-- While `do_umount` is under way, the flag is set. -/
def Serving (w : Direct.St) : Prop := w.umount ≠ .none → w.mounted = true

/-- **What changes the flag.** -/
theorem mounted_of_step {w w' : Direct.St} {act : Direct.Act} (hs : Direct.step w act = some w') :
    w'.mounted = flagAfter w.mounted act ∧ (Serving w → Serving w') := by
  cases act with
  | mount n =>
    simp only [Direct.step] at hs
    split_ifs at hs
    cases hs
    exact ⟨rfl, fun _ _ => rfl⟩
  | push partitionId actualSize =>
    cases hs
    exact ⟨rfl, id⟩
  | umount =>
    simp only [Direct.step] at hs
    split_ifs at hs with hm
    cases hs
    exact ⟨rfl, fun _ _ => hm.1⟩
  | drained =>
    simp only [Direct.step] at hs
    split_ifs at hs with hd
    cases hs
    refine ⟨rfl, fun h _ => h ?_⟩
    rw [hd.1]
    exact Direct.Umount.noConfusion
  | close =>
    simp only [Direct.step] at hs
    split_ifs at hs
    cases hs
    exact ⟨rfl, fun _ h => absurd rfl h⟩
  | pop | submit | count | complete i | poll =>
    simp only [Direct.step] at hs
    split at hs <;> cases hs
    exact ⟨rfl, id⟩
  | prepare =>
    simp only [Direct.step] at hs
    split at hs
    · split_ifs at hs
      split at hs <;> cases hs
      exact ⟨rfl, id⟩
    · cases hs

/-- `do_mount` and `do_umount` die if the flag is not as they need it. -/
theorem ne_flagAfter {w w' : Direct.St} {act : Direct.Act} (h : Serving w) (hs : Direct.step w act = some w')
    (hact : (∃ n, act = .mount n) ∨ act = .close) : flagAfter w.mounted act ≠ w.mounted := by
  rcases hact with ⟨n, rfl⟩ | rfl
  · simp only [Direct.step] at hs
    split_ifs at hs with hm
    rw [Bool.eq_false_iff.mpr hm]
    exact Bool.noConfusion
  · simp only [Direct.step] at hs
    split_ifs at hs with hd
    rw [h (by rw [hd]; exact Direct.Umount.noConfusion)]
    exact Bool.noConfusion

/-! ### The runs in which no command fails -/

/-- The state after commands that did not fail. -/
structure Inv (s : St) : Prop where
  /-- The flag is the state of the disk. -/
  flag : s.worker.mounted = s.disk
  /-- While `do_umount` is under way, the flag is set. -/
  serving : Serving s.worker
  /-- The handler that has just returned, if one has, returned 0. -/
  code : ∀ rc, s.code = some rc → rc = 0

theorem inv_init (m : ℕ) : Inv (init m) := by
  refine ⟨rfl, fun h => absurd rfl h, fun rc hrc => ?_⟩
  cases hrc

theorem Inv.truthful (h : Inv s) : Truthful s := ⟨h.flag, fun rc hrc hne => absurd (h.code rc hrc) hne⟩

theorem Inv.step (h : Inv s) (hc : Succeeds s a) (hs : step s a = some s') : Inv s' := by
  obtain ⟨w, hw, rfl⟩ := Option.map_eq_some_iff.mp hs
  obtain ⟨hmounted, hserving⟩ := mounted_of_step hw
  refine ⟨?_, hserving h.serving, hc⟩
  show w.mounted = a.disk s.disk
  obtain ⟨act, rc⟩ := a
  rw [hmounted, h.flag]
  cases act with
  | mount n =>
    have hrc : rc = 0 := hc rc rfl
    rw [Act.disk, Mount.mount, if_pos hrc]
    rfl
  | close =>
    have hrc : rc = 0 := hc rc rfl
    rw [Act.disk, Mount.umount, if_pos hrc]
    rfl
  | _ => rfl

/-- A command that fails leaves the disk, and the flag has changed. -/
theorem succeeds_of_truthful (h : Inv s) (hs : step s a = some s') (ht : Truthful s') : Succeeds s a := by
  obtain ⟨w, hw, rfl⟩ := Option.map_eq_some_iff.mp hs
  intro rc hcode
  by_contra hrc
  have hflag : w.mounted = a.disk s.disk := ht.flag
  rw [(mounted_of_step hw).1] at hflag
  obtain ⟨act, rc'⟩ := a
  cases act with
  | mount n =>
    cases hcode
    rw [Act.disk, Mount.mount, if_neg hrc, ← h.flag] at hflag
    exact ne_flagAfter h.serving hw (Or.inl ⟨n, rfl⟩) hflag
  | close =>
    cases hcode
    rw [Act.disk, Mount.umount, if_neg hrc, ← h.flag] at hflag
    exact ne_flagAfter h.serving hw (Or.inr rfl) hflag
  | _ => cases hcode

/-- **When the flag does not lie**: in every state of a run the flag is the state of the disk, and a handler that returned
another code than 0 left the flag and the files as they were, exactly if every command of the run returned 0. -/
theorem truthful_iff (m : ℕ) {acts : List Act} (hr : run step (init m) acts = some s) :
    Throughout step Truthful (init m) acts ↔ Along step Succeeds (init m) acts := by
  refine throughout_iff_along (I := Inv) ?_ ?_ ?_ (inv_init m) hr
  · exact fun _ _ _ h hc hs => h.step hc hs
  · exact fun _ h => h.truthful
  · exact fun _ _ _ h hs ht => succeeds_of_truthful h hs ht

/-- One session, with the codes of its two commands. -/
def session (mountRc umountRc : ℤ) : List Act :=
  [⟨.mount 1, mountRc⟩, ⟨.push 0 8, 0⟩, ⟨.pop, 0⟩, ⟨.prepare, 0⟩, ⟨.submit, 0⟩, ⟨.count, 0⟩, ⟨.complete 0, 0⟩, ⟨.poll, 0⟩,
    ⟨.umount, 0⟩, ⟨.drained, 0⟩, ⟨.close, umountRc⟩]

theorem truthful_iff_session : ∃ s, run step (init 1) (session 0 0) = some s ∧
    Throughout step Truthful (init 1) (session 0 0) := by
  have hrun : run step (init 1) (session 0 0) = some _ := rfl
  have hcodes : ∀ a ∈ session 0 0, ∀ rc ∈ a.code, rc = 0 := by decide
  exact ⟨_, hrun, (truthful_iff 1 hrun).mpr (Along.of_forall hcodes)⟩

/-- **A `mount` that fails, and an `umount` that fails**: the one leaves the flag set, and a write is done to a file in the
bare directory; the other leaves the flag cleared while the disk is still mounted. -/
theorem not_truthful_failed :
    (∃ s, run step (init 1) ((session 8192 0).take 8) = some s ∧ (s.worker.mounted, s.disk) = (true, false) ∧
      s.worker.completed = [0]) ∧
    (∃ s, run step (init 1) (session 0 8192) = some s ∧ (s.worker.mounted, s.disk) = (false, true)) ∧
    ¬ ∀ acts, Throughout step Truthful (init 1) acts := by
  refine ⟨⟨_, rfl, rfl, rfl⟩, ⟨_, rfl, rfl⟩, fun hall => ?_⟩
  have hrun : run step (init 1) [⟨.mount 1, 8192⟩] = some _ := rfl
  have hflag := (hall [⟨.mount 1, 8192⟩] _ [] _ (List.append_nil _).symm hrun).flag
  cases hflag

end DShuffle.Spill.MountErrors
