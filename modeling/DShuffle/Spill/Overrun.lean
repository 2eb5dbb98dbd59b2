import DShuffle.Spill.AgentBuffers

/-!
# Records that are larger than a buffer

`append_or_spill` asks `need_spill` of the active buffer only. If the record does not fit, or if there is no active
buffer, it gets a fresh one and appends to it without asking.

## What is proved

* `step_within` — a step keeps every buffer within its size if the record that it puts into a fresh buffer fits one.
* `within_iff` — in every state of a run every `PartitionBuffer` is within its buffer exactly if every record that was put
  into a fresh buffer fits one.
* `not_within_five` — a record of five bytes runs over a buffer of twenty.

## Honest scope

The lengths are natural numbers: the key and the value lie in the memory, so `need_spill` does not wrap. A run is the same
behind an overrun; what the bytes behind the buffer do to others is not modelled.
-/

namespace DShuffle.Spill.Agent

open Base

/-- Every `PartitionBuffer`, that is every buffer that is not in the pool, is within its buffer. -/
def Within (cfg : Config) (s : St) : Prop :=
  ∀ b pl, pl ≠ .free → s.At b pl → (s.buf b).totalSize ≤ cfg.bufferSize

/-- The record that the step puts into a fresh buffer, if it does, fits one. -/
def FreshFits (cfg : Config) (s : St) : Act → Prop
  | .acquire p => ∀ r, s.pending p = some (some r) → headerSize + r.bytes.length ≤ cfg.bufferSize
  | _ => True

/-- Every pool buffer, one that is free too, was last left within its size. -/
def AllWithin (cfg : Config) (s : St) : Prop := ∀ b, (s.buf b).totalSize ≤ cfg.bufferSize

variable {cfg : Config} {s s' : St} {p : ℕ}

theorem totalSize_append (b : Buffer) (r : Record) :
    (b.append r).totalSize = b.totalSize + (r.key.length + r.value.length) := by
  simp only [Buffer.totalSize, Buffer.append, List.length_append, Nat.add_assoc]

/-- An append to the active buffer was asked for. -/
theorem AllWithin.append {r : Record} (h : AllWithin cfg s) (hs : step cfg s (.append p r) = some s') :
    AllWithin cfg s' := by
  simp only [step] at hs
  split_ifs at hs
  cases hs
  intro b
  show ((s.appendOrSpill cfg p r).buf b).totalSize ≤ cfg.bufferSize
  unfold St.appendOrSpill
  cases s.active p with
  | none => exact h b
  | some a =>
    dsimp only
    split_ifs with hneed
    · exact h b
    · by_cases hb : b = a
      · subst hb
        simp only [Function.update_self]
        rw [Buffer.needSpill, decide_eq_true_eq] at hneed
        rw [totalSize_append]
        omega
      · simp only [Function.update_of_ne hb]
        exact h b

theorem AllWithin.force (h : AllWithin cfg s) (hs : step cfg s (.force p) = some s') : AllWithin cfg s' := by
  simp only [step] at hs
  split_ifs at hs
  cases hs
  intro b
  show ((s.forceSpill p).buf b).totalSize ≤ cfg.bufferSize
  unfold St.forceSpill
  cases s.active p with
  | none => exact h b
  | some a => exact h b

/-- What a fresh buffer holds. -/
theorem totalSize_fill (p : ℕ) (ro : Option Record) :
    (fill p ro).totalSize = headerSize + (ro.elim 0 fun r => r.bytes.length) := by
  cases ro with
  | none => rfl
  | some r =>
    show ((Buffer.new p).append r).totalSize = headerSize + (r.key ++ r.value).length
    rw [totalSize_append, List.length_append]
    rfl

theorem AllWithin.acquire (h : AllWithin cfg s) (hc : FreshFits cfg s (.acquire p))
    (hs : step cfg s (.acquire p) = some s') : AllWithin cfg s' := by
  obtain ⟨ro, a, rest, hpend, -, rfl⟩ := step_acquire hs
  intro b
  show (Function.update s.buf a (fill p ro) b).totalSize ≤ cfg.bufferSize
  by_cases hb : b = a
  · subst hb
    rw [Function.update_self, totalSize_fill]
    cases ro with
    | none => exact cfg.header_le
    | some r => exact hc r hpend
  · rw [Function.update_of_ne hb]
    exact h b

/-- The steps that are no part of a call for a record leave the buffers and the calls alone. -/
theorem step_frame {act : Act} (hs : step cfg s act = some s') (ha : ∀ p r, act ≠ .append p r) (hf : ∀ p, act ≠ .force p)
    (hq : ∀ p, act ≠ .acquire p) : s'.buf = s.buf ∧ s'.pending = s.pending := by
  cases act with
  | append p r => exact absurd rfl (ha p r)
  | force p => exact absurd rfl (hf p)
  | acquire p => exact absurd rfl (hq p)
  | take w =>
    obtain ⟨-, -, rfl⟩ := step_take hs
    exact ⟨rfl, rfl⟩
  | send w =>
    obtain ⟨k, ks, sub, -, -, rfl⟩ := step_send hs
    exact ⟨rfl, rfl⟩
  | complete w size =>
    obtain ⟨k, ks, sub, -, -, -, rfl⟩ := step_complete hs
    exact ⟨rfl, rfl⟩
  | shutdown =>
    cases hs
    exact ⟨rfl, rfl⟩
  | exit w =>
    simp only [step] at hs
    split_ifs at hs
    cases hs
    exact ⟨rfl, rfl⟩

/-- **A step keeps every buffer within its size** if the record that it puts into a fresh one fits. -/
theorem step_within (act : Act) (h : AllWithin cfg s) (hc : FreshFits cfg s act) (hs : step cfg s act = some s') :
    AllWithin cfg s' := by
  cases act with
  | append p r => exact h.append hs
  | force p => exact h.force hs
  | acquire p => exact h.acquire hc hs
  | take | send | complete | shutdown | exit =>
    have hbuf := (step_frame hs (fun _ _ => Act.noConfusion) (fun _ => Act.noConfusion) fun _ => Act.noConfusion).1
    intro b
    rw [hbuf]
    exact h b

/-- A record that does not fit overruns its fresh buffer. -/
theorem freshFits_of_within (act : Act) (hs : step cfg s act = some s') (hw : Within cfg s') : FreshFits cfg s act := by
  cases act with
  | acquire p =>
    intro r hr
    obtain ⟨ro, a, rest, hpend, -, rfl⟩ := step_acquire hs
    cases hr.symm.trans hpend
    have hat : (s.acquired p (some r) a rest).At a (.active p) := Function.update_self ..
    have hle := hw a (.active p) Place.noConfusion hat
    have hbuf : (s.acquired p (some r) a rest).buf a = fill p (some r) := Function.update_self ..
    rw [hbuf, totalSize_fill] at hle
    exact hle
  | append | force | take | send | complete | shutdown | exit => trivial

/-- **Exactly the runs in which no buffer is overrun.** In every state of a run, `header->length` of every
`PartitionBuffer` is at most the size of its buffer, exactly if every record that a step put into a fresh buffer fits one
behind the header. -/
theorem within_iff (cfg : Config) {acts : List Act} {s : St} (hr : run (step cfg) (init cfg) acts = some s) :
    Throughout (step cfg) (Within cfg) (init cfg) acts ↔ Along (step cfg) (FreshFits cfg) (init cfg) acts := by
  have hinit : AllWithin cfg (init cfg) := fun _ => cfg.header_le
  exact throughout_iff_along (fun _ act _ h hc hs => step_within act h hc hs) (fun _ h b _ _ _ => h b)
    (fun _ act _ _ hs hw => freshFits_of_within act hs hw) hinit hr

/-- The records of the calls that wait for a buffer fit one. -/
def PendingFits (cfg : Config) (s : St) : Prop :=
  ∀ p r, s.pending p = some (some r) → headerSize + r.bytes.length ≤ cfg.bufferSize

/-- A partition that is locked for a record, or not. -/
theorem PendingFits.update (h : PendingFits cfg s) {o : Option (Option Record)}
    (ho : ∀ r, o = some (some r) → headerSize + r.bytes.length ≤ cfg.bufferSize)
    (hs' : s'.pending = Function.update s.pending p o) : PendingFits cfg s' := by
  intro q r hq
  rw [hs'] at hq
  by_cases hqp : q = p
  · subst hqp
    rw [Function.update_self] at hq
    exact ho r hq
  · rw [Function.update_of_ne hqp] at hq
    exact h q r hq

theorem PendingFits.step (act : Act) (h : PendingFits cfg s) (hfit : act.Fits cfg) (hs : step cfg s act = some s') :
    PendingFits cfg s' := by
  cases act with
  | append p r =>
    simp only [Agent.step] at hs
    split_ifs at hs
    cases hs
    have hone : ∀ r', some (some r) = some (some r') → headerSize + r'.bytes.length ≤ cfg.bufferSize := by
      rintro r' ⟨⟩
      exact hfit
    have hcall : PendingFits cfg (s.appendOrSpill cfg p r) := by
      unfold St.appendOrSpill
      cases s.active p with
      | none => exact h.update hone rfl
      | some a =>
        dsimp only
        split_ifs
        · exact h.update hone rfl
        · exact h
    exact hcall
  | force p =>
    simp only [Agent.step] at hs
    split_ifs at hs
    cases hs
    unfold St.forceSpill
    cases s.active p with
    | none => exact h
    | some a => exact h.update (fun r hr => by cases hr) rfl
  | acquire p =>
    obtain ⟨ro, a, rest, -, -, rfl⟩ := step_acquire hs
    exact h.update (fun r hr => by cases hr) rfl
  | take | send | complete | shutdown | exit =>
    have hpending := (step_frame hs (fun _ _ => Act.noConfusion) (fun _ => Act.noConfusion) fun _ => Act.noConfusion).2
    intro p r hp
    rw [hpending] at hp
    exact h p r hp

/-- It is enough that the records of all calls fit a buffer. -/
theorem freshFits_of_fits {acts : List Act} (hfit : ∀ act ∈ acts, act.Fits cfg) :
    Along (step cfg) (FreshFits cfg) (init cfg) acts := by
  have hinit : PendingFits cfg (init cfg) := fun p r hp => by cases hp
  refine Along.imp (I := PendingFits cfg) (fun _ act _ h hf hs => h.step act hf hs) (fun s act h _ => ?_) hinit
    (Along.of_forall hfit)
  cases act with
  | acquire p => exact h p
  | append | force | take | send | complete | shutdown | exit => trivial

/-- **A record that is larger than a buffer.** Five bytes are appended to a fresh buffer of twenty, behind a header of
sixteen. -/
theorem not_within_five : ¬ ∀ acts, Throughout (step small) (Within small) (init small) acts := by
  intro hall
  have hrun : run (step small) (init small) [.append 0 ⟨[1, 2, 3], [4, 5]⟩, .acquire 0] = some _ := rfl
  have hw := hall [.append 0 ⟨[1, 2, 3], [4, 5]⟩, .acquire 0] _ [] _ (List.append_nil _).symm hrun
  exact absurd (hw 0 (.active 0) Place.noConfusion (by rfl)) (by decide)

/-- The two records of `twoRecords` fit. -/
theorem within_iff_twoRecords :
    ∃ s, run (step small) (init small) twoRecords = some s ∧ Throughout (step small) (Within small) (init small) twoRecords := by
  have hrun : run (step small) (init small) twoRecords = some _ := rfl
  exact ⟨_, hrun, (within_iff small hrun).mpr (freshFits_of_fits (by decide))⟩

end DShuffle.Spill.Agent
