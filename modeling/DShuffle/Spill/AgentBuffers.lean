import DShuffle.Spill.Agent

/-!
# The buffers of the spill agent

Every pool buffer of the agent is in one of four states: free, active for a
partition, queued, or in transfer. Only an active buffer is written. So what a
worker transfers is what was submitted, and the records of a partition stand in its
submissions and in its active buffer, in the order of the calls.

## What is proved

* `Loc` — the states of the buffers, and `Con` — their contents. Every step keeps
  both.
* `agent_of_run` — in every run in which every record fits a buffer: for every
  partition, the buffers submitted and the active one hold exactly the records of
  its calls, in order and each in one buffer; every submission has its partition's
  id, and is taken by one worker, transferred once in full, and released once; and
  every pool buffer is in exactly one state.
-/

namespace DShuffle.Spill.Agent

open Base

/-! ### The pool buffers -/

/-- The states of a pool buffer. -/
inductive Place where
  /-- In the pool. -/
  | free
  /-- The active buffer of a partition. -/
  | active (p : ℕ)
  /-- Queued, as a submission. -/
  | queued (k : ℕ)
  /-- Taken by a worker, as a submission. -/
  | transfer (w k : ℕ)

/-- The buffer of a submission. -/
def St.bufferOf (s : St) (k : ℕ) : Option ℕ := (s.subs[k]?).map Submission.buffer

/-- The buffer is in the state. -/
def St.At (s : St) (b : ℕ) : Place → Prop
  | .free => b ∈ s.pool
  | .active p => s.active p = some b
  | .queued k => k ∈ s.spillQ ∧ s.bufferOf k = some b
  | .transfer w k => (k ∈ s.toSend w ∨ k ∈ s.waiting w) ∧ s.bufferOf k = some b

/-- **The places**: `loc` says in which state each buffer is. -/
structure Loc (cfg : Config) (loc : ℕ → Place) (s : St) : Prop where
  /-- A pool buffer is in its state and in no other. -/
  at_iff : ∀ b pl, s.At b pl ↔ b < cfg.nBuffer ∧ loc b = pl
  /-- It is in the pool once. -/
  nodup : s.pool.Nodup
  /-- A partition that waits for a buffer has none. -/
  locked : ∀ p, s.pending p ≠ none → s.active p = none

namespace Loc

variable {cfg : Config} {loc : ℕ → Place} {s : St} {p b b' w k : ℕ} {ks : List ℕ} {pl : Place}

/-- A buffer that is in one state is in no other. -/
theorem unique (h : Loc cfg loc s) {pl pl' : Place} (h₁ : s.At b pl) (h₂ : s.At b pl') : pl = pl' :=
  ((h.at_iff b pl).mp h₁).2.symm.trans ((h.at_iff b pl').mp h₂).2

/-- One buffer goes to another state. -/
theorem at_update {s' : St} (h : Loc cfg loc s) (hb : b < cfg.nBuffer) {pl₀ : Place} (hself : ∀ pl, s'.At b pl ↔ pl = pl₀)
    (hother : ∀ b' pl, b' ≠ b → (s'.At b' pl ↔ s.At b' pl)) (b' : ℕ) (pl : Place) :
    s'.At b' pl ↔ b' < cfg.nBuffer ∧ Function.update loc b pl₀ b' = pl := by
  by_cases hbb : b' = b
  · subst hbb
    rw [hself, Function.update_self]
    exact ⟨fun hpl => ⟨hb, hpl.symm⟩, fun hpl => hpl.2.symm⟩
  · rw [hother b' pl hbb, h.at_iff, Function.update_of_ne hbb]

theorem init (cfg : Config) : Loc cfg (fun _ => .free) (Agent.init cfg) := by
  refine ⟨fun b pl => ?_, List.nodup_range, fun p hp => rfl⟩
  cases pl with
  | free => exact List.mem_range.trans ⟨fun hb => ⟨hb, rfl⟩, fun hb => hb.1⟩
  | active p => exact ⟨fun hb => (by cases hb), fun hb => by cases hb.2⟩
  | queued k => exact ⟨fun hb => (by cases hb.1), fun hb => by cases hb.2⟩
  | transfer w k => exact ⟨fun hb => (by rcases hb.1 with hk | hk <;> cases hk), fun hb => by cases hb.2⟩

/-- The places depend on the pool, the active buffers and the queues. -/
theorem at_congr {s' : St} (h₁ : s'.pool = s.pool) (h₂ : s'.active = s.active) (h₃ : s'.spillQ = s.spillQ)
    (h₄ : s'.toSend = s.toSend) (h₅ : s'.waiting = s.waiting) (h₆ : s'.subs = s.subs) : s'.At b pl ↔ s.At b pl := by
  cases pl with
  | free => rw [St.At, St.At, h₁]
  | active p => rw [St.At, St.At, h₂]
  | queued k => rw [St.At, St.At, St.bufferOf, St.bufferOf, h₃, h₆]
  | transfer w k => rw [St.At, St.At, St.bufferOf, St.bufferOf, h₄, h₅, h₆]

theorem submit (h : Loc cfg loc s) (ha : Acc s) (hb : s.active p = some b) (b' : ℕ) (pl : Place) :
    (s.submit p b).At b' pl ↔ b' < cfg.nBuffer ∧ Function.update loc b (.queued s.subs.length) b' = pl := by
  have hact : s.At b (.active p) := hb
  have hnew : (s.submit p b).bufferOf s.subs.length = some b := by simp [St.bufferOf, St.submit]
  have hold : ∀ k < s.subs.length, (s.submit p b).bufferOf k = s.bufferOf k := by
    intro k hk
    rw [St.bufferOf, St.bufferOf, St.submit, List.getElem?_append_left hk]
  have hactive : ∀ q b', (s.submit p b).active q = some b' ↔ q ≠ p ∧ s.active q = some b' := by
    intro q b'
    show Function.update s.active p none q = some b' ↔ _
    by_cases hq : q = p
    · subst hq
      rw [Function.update_self]
      exact ⟨fun hx => (by cases hx), fun hx => absurd rfl hx.1⟩
    · rw [Function.update_of_ne hq]
      exact ⟨fun hx => ⟨hq, hx⟩, fun hx => hx.2⟩
  have hqueue : ∀ k b', (s.submit p b).At b' (.queued k) ↔ s.At b' (.queued k) ∨ (k = s.subs.length ∧ b' = b) := by
    intro k b'
    show k ∈ s.spillQ ++ [s.subs.length] ∧ _ ↔ _
    rw [List.mem_append, List.mem_singleton]
    constructor
    · rintro ⟨hk | rfl, hbuf⟩
      · rw [hold k (ha.lt_of_queued hk)] at hbuf
        exact Or.inl ⟨hk, hbuf⟩
      · rw [hnew] at hbuf
        cases hbuf
        exact Or.inr ⟨rfl, rfl⟩
    · rintro (⟨hk, hbuf⟩ | ⟨rfl, rfl⟩)
      · exact ⟨Or.inl hk, by rw [hold k (ha.lt_of_queued hk)]; exact hbuf⟩
      · exact ⟨Or.inr rfl, hnew⟩
  have htransfer : ∀ w k b', (s.submit p b).At b' (.transfer w k) ↔ s.At b' (.transfer w k) := by
    intro w k b'
    refine and_congr_right fun hk => ?_
    rw [hold k (ha.lt_of_taken (ha.taken_of_mem hk))]
  refine h.at_update ((h.at_iff _ _).mp hact).1 (fun pl => ?_) (fun b' pl hne => ?_) b' pl
  · cases pl with
    | free =>
      refine ⟨fun hx => ?_, fun hx => by cases hx⟩
      have hx' : s.At b .free := hx
      cases h.unique hact hx'
    | active q =>
      refine ⟨fun hx => ?_, fun hx => by cases hx⟩
      obtain ⟨hq, hx⟩ := (hactive q b).mp hx
      have hx' : s.At b (.active q) := hx
      cases h.unique hact hx'
      exact absurd rfl hq
    | queued k =>
      rw [hqueue]
      constructor
      · rintro (hx | ⟨rfl, -⟩)
        · cases h.unique hact hx
        · rfl
      · intro hx
        cases hx
        exact Or.inr ⟨rfl, rfl⟩
    | transfer w k =>
      rw [htransfer]
      exact ⟨fun hx => (by cases h.unique hact hx), fun hx => by cases hx⟩
  · cases pl with
    | free => rfl
    | active q =>
      refine (hactive q b').trans ⟨fun hx => hx.2, fun hx => ⟨?_, hx⟩⟩
      rintro rfl
      exact hne (Option.some.inj (Eq.trans (Eq.symm hx) hb))
    | queued k =>
      rw [hqueue]
      exact ⟨fun hx => hx.resolve_right fun hy => hne hy.2, Or.inl⟩
    | transfer w k => exact htransfer w k b'

theorem acquired {ro : Option Record} {rest : List ℕ} (h : Loc cfg loc s) (hpend : s.pending p = some ro)
    (hpool : s.pool = b :: rest) : Loc cfg (Function.update loc b (.active p)) (s.acquired p ro b rest) := by
  have hfree : s.At b .free := by
    show b ∈ s.pool
    rw [hpool]
    exact List.mem_cons_self ..
  have hnone : s.active p = none := h.locked p (by rw [hpend]; exact Option.some_ne_none _)
  have hnodup := h.nodup
  rw [hpool] at hnodup
  obtain ⟨hnot, hrest⟩ := List.nodup_cons.mp hnodup
  have hactive : ∀ q b', (s.acquired p ro b rest).active q = some b' ↔ (q = p ∧ b' = b) ∨ s.active q = some b' := by
    intro q b'
    show Function.update s.active p (some b) q = some b' ↔ _
    by_cases hq : q = p
    · subst hq
      rw [Function.update_self, hnone, Option.some.injEq]
      exact ⟨fun hx => Or.inl ⟨rfl, hx.symm⟩, fun hx => (hx.resolve_right fun hy => by cases hy).2.symm⟩
    · rw [Function.update_of_ne hq]
      exact ⟨Or.inr, fun hx => hx.resolve_left fun hy => hq hy.1⟩
  refine ⟨h.at_update ((h.at_iff _ _).mp hfree).1 (fun pl => ?_) fun b' pl hne => ?_, hrest, fun q hq => ?_⟩
  · cases pl with
    | free => exact ⟨fun hx => absurd hx hnot, fun hx => by cases hx⟩
    | active q =>
      refine (hactive q b).trans ⟨?_, fun hx => ?_⟩
      · rintro (⟨rfl, -⟩ | hx)
        · rfl
        · have hx' : s.At b (.active q) := hx
          cases h.unique hfree hx'
      · cases hx
        exact Or.inl ⟨rfl, rfl⟩
    | queued k =>
      refine ⟨fun hx => ?_, fun hx => by cases hx⟩
      have hx' : s.At b (.queued k) := hx
      cases h.unique hfree hx'
    | transfer w k =>
      refine ⟨fun hx => ?_, fun hx => by cases hx⟩
      have hx' : s.At b (.transfer w k) := hx
      cases h.unique hfree hx'
  · cases pl with
    | free =>
      show b' ∈ rest ↔ b' ∈ s.pool
      rw [hpool, List.mem_cons]
      exact ⟨Or.inr, fun hx => hx.resolve_left hne⟩
    | active q => exact (hactive q b').trans ⟨fun hx => hx.resolve_left fun hy => hne hy.2, Or.inr⟩
    | queued k => rfl
    | transfer w k => rfl
  · have hqp : q ≠ p := by
      rintro rfl
      exact hq (Function.update_self ..)
    have hq' : s.pending q ≠ none := by
      intro hnone'
      exact hq ((Function.update_of_ne hqp ..).trans hnone')
    show Function.update s.active p (some b) q = none
    rw [Function.update_of_ne hqp]
    exact h.locked q hq'

theorem swapped (h : Loc cfg loc s) (hsend : s.toSend w = []) (hwait : s.waiting w = []) :
    Loc cfg (fun b => match loc b with | .queued k => .transfer w k | pl => pl) (s.swapped w) := by
  have hnot : ∀ b k, ¬ (b < cfg.nBuffer ∧ loc b = .transfer w k) := by
    intro b k hx
    rcases ((h.at_iff b (.transfer w k)).mpr hx).1 with hk | hk
    · rw [hsend] at hk
      cases hk
    · rw [hwait] at hk
      cases hk
  refine ⟨fun b pl => ?_, h.nodup, h.locked⟩
  cases pl with
  | free =>
    refine (h.at_iff b .free).trans (and_congr_right fun _ => ?_)
    cases loc b <;> simp
  | active q =>
    refine (h.at_iff b (.active q)).trans (and_congr_right fun _ => ?_)
    cases loc b <;> simp
  | queued k =>
    refine ⟨fun hx => ?_, fun hx => ?_⟩
    · cases hx.1
    · have hx' := hx.2
      cases hl : loc b <;> rw [hl] at hx' <;> cases hx'
  | transfer x k =>
    by_cases hx : x = w
    · subst hx
      have hat : (s.swapped x).At b (.transfer x k) ↔ s.At b (.queued k) := by
        show (k ∈ Function.update s.toSend x s.spillQ x ∨ k ∈ s.waiting x) ∧ _ ↔ k ∈ s.spillQ ∧ _
        rw [Function.update_self, hwait]
        simp [St.bufferOf, St.swapped]
      rw [hat, h.at_iff]
      refine and_congr_right fun hb => ?_
      have hnot' := fun hl => hnot b k ⟨hb, hl⟩
      cases hl : loc b <;> simp
      rintro rfl rfl
      exact hnot' hl
    · have hat : (s.swapped w).At b (.transfer x k) ↔ s.At b (.transfer x k) := by
        show (k ∈ Function.update s.toSend w s.spillQ x ∨ k ∈ s.waiting x) ∧ _ ↔ _
        rw [Function.update_of_ne hx]
        rfl
      rw [hat, h.at_iff]
      refine and_congr_right fun hb => ?_
      cases hl : loc b <;> simp
      rintro rfl
      exact absurd rfl hx

theorem sent (h : Loc cfg loc s) (hsend : s.toSend w = k :: ks) : Loc cfg loc (s.sent w k b ks) := by
  refine ⟨fun b' pl => ?_, h.nodup, h.locked⟩
  rw [← h.at_iff]
  cases pl with
  | free => rfl
  | active q => rfl
  | queued j => rfl
  | transfer x j =>
    refine and_congr_left fun _ => ?_
    show j ∈ Function.update s.toSend w ks x ∨ j ∈ Function.update s.waiting w (s.waiting w ++ [k]) x ↔ _
    by_cases hx : x = w
    · subst hx
      rw [Function.update_self, Function.update_self, hsend, List.mem_append, List.mem_singleton, List.mem_cons]
      tauto
    · rw [Function.update_of_ne hx, Function.update_of_ne hx]

theorem freed (h : Loc cfg loc s) (ha : Acc s) (hsend : s.toSend w = []) (hwait : s.waiting w = k :: ks)
    (hbuf : s.bufferOf k = some b) : Loc cfg (Function.update loc b .free) (s.freed w k b ks) := by
  have hat : s.At b (.transfer w k) := ⟨Or.inr (by rw [hwait]; exact List.mem_cons_self ..), hbuf⟩
  have hks : k ∉ ks := by
    have hnodup := ha.worker_nodup w
    rw [hwait, hsend, List.append_nil] at hnodup
    exact (List.nodup_cons.mp (List.Nodup.of_append_right hnodup)).1
  have htransfer : ∀ x j b', (s.freed w k b ks).At b' (.transfer x j) ↔
      s.At b' (.transfer x j) ∧ ¬ (x = w ∧ j = k) := by
    intro x j b'
    show (j ∈ s.toSend x ∨ j ∈ Function.update s.waiting w ks x) ∧ _ ↔ _
    by_cases hx : x = w
    · subst hx
      rw [Function.update_self, St.At, hsend, hwait]
      refine ⟨fun hj => ?_, fun hj => ?_⟩
      · have hmem := hj.1.resolve_left (fun hy => by cases hy)
        refine ⟨⟨Or.inr (List.mem_cons_of_mem _ hmem), hj.2⟩, fun hy => hks ?_⟩
        rw [← hy.2]
        exact hmem
      · have hmem := hj.1.1.resolve_left (fun hy => by cases hy)
        refine ⟨Or.inr ((List.mem_cons.mp hmem).resolve_left fun hy => hj.2 ⟨rfl, hy⟩), hj.1.2⟩
    · rw [Function.update_of_ne hx]
      exact ⟨fun hj => ⟨hj, fun hy => hx hy.1⟩, fun hj => hj.1⟩
  refine ⟨h.at_update ((h.at_iff _ _).mp hat).1 (fun pl => ?_) fun b' pl hne => ?_, ?_, h.locked⟩
  · cases pl with
    | free => exact ⟨fun _ => rfl, fun _ => List.mem_append_right _ (List.mem_singleton_self b)⟩
    | active q =>
      refine ⟨fun hx => ?_, fun hx => by cases hx⟩
      have hx' : s.At b (.active q) := hx
      cases h.unique hat hx'
    | queued j =>
      refine ⟨fun hx => ?_, fun hx => by cases hx⟩
      have hx' : s.At b (.queued j) := hx
      cases h.unique hat hx'
    | transfer x j =>
      refine ⟨fun hx => ?_, fun hx => by cases hx⟩
      obtain ⟨hx', hne⟩ := (htransfer x j b).mp hx
      cases h.unique hat hx'
      exact absurd ⟨rfl, rfl⟩ hne
  · cases pl with
    | free =>
      show b' ∈ s.pool ++ [b] ↔ b' ∈ s.pool
      rw [List.mem_append, List.mem_singleton]
      exact ⟨fun hx => hx.resolve_right hne, Or.inl⟩
    | active q => rfl
    | queued j => rfl
    | transfer x j =>
      rw [htransfer]
      refine ⟨fun hx => hx.1, fun hx => ⟨hx, ?_⟩⟩
      rintro ⟨rfl, rfl⟩
      have hb' := hx.2
      rw [hbuf] at hb'
      exact hne (Option.some.inj hb').symm
  · show (s.pool ++ [b]).Nodup
    rw [← List.concat_eq_append]
    refine h.nodup.concat fun hmem => ?_
    have hfree : s.At b .free := hmem
    cases h.unique hat hfree

end Loc

/-! ### What the buffers hold -/

/-- The payload is whole records, and lies in the buffer. -/
def Buffer.Whole (bufferSize : ℕ) (b : Buffer) : Prop :=
  b.payload = (b.records.map Record.bytes).flatten ∧ b.totalSize ≤ bufferSize

theorem Buffer.Whole.append {bufferSize : ℕ} {b : Buffer} {r : Record} (h : b.Whole bufferSize)
    (hfit : b.totalSize + r.bytes.length ≤ bufferSize) : (b.append r).Whole bufferSize := by
  refine ⟨?_, ?_⟩
  · show b.payload ++ r.key ++ r.value = ((b.records ++ [r]).map Record.bytes).flatten
    rw [h.1]
    simp [Record.bytes]
  · refine le_trans (le_of_eq ?_) hfit
    simp only [Buffer.totalSize, Buffer.append, Record.bytes, List.length_append]
    omega

theorem Buffer.whole_new {bufferSize : ℕ} (p : ℕ) (h : headerSize ≤ bufferSize) : (Buffer.new p).Whole bufferSize :=
  ⟨rfl, h⟩

/-- The submissions of a partition, in order. -/
def St.submitted (s : St) (p : ℕ) : List Submission := s.subs.filter fun sub => sub.partition = p

/-- The records in the active buffer of a partition. -/
def St.activeRecords (s : St) (p : ℕ) : List Record :=
  match s.active p with
  | some b => (s.buf b).records
  | none => []

/-- The record of a call that waits for a buffer. -/
def St.pendingRecords (s : St) (p : ℕ) : List Record :=
  match s.pending p with
  | some (some r) => [r]
  | _ => []

/-- The records of a partition: in its submissions, in its active buffer, and in a call that waits. -/
def St.recordsOf (s : St) (p : ℕ) : List Record :=
  ((s.submitted p).map fun sub => sub.content.records).flatten ++ s.activeRecords p ++ s.pendingRecords p

/-- Submission `k` is queued or in transfer, in buffer `b`. -/
def St.Busy (s : St) (b k : ℕ) : Prop := s.At b (.queued k) ∨ ∃ w, s.At b (.transfer w k)

/-- **The contents**. -/
structure Con (cfg : Config) (s : St) : Prop where
  /-- An active buffer has the id of its partition. -/
  active : ∀ p b, s.active p = some b → (s.buf b).partitionId = p ∧ (s.buf b).Whole cfg.bufferSize
  /-- A buffer that was submitted had the id of its partition. -/
  subs : ∀ sub ∈ s.subs, sub.content.partitionId = sub.partition ∧ sub.content.Whole cfg.bufferSize
  /-- A buffer that is queued or in transfer is as it was submitted. -/
  kept : ∀ k sub, s.subs[k]? = some sub → s.Busy sub.buffer k → s.buf sub.buffer = sub.content
  /-- The records are those of the calls. -/
  log : ∀ p, s.recordsOf p = s.calls p
  /-- Every transfer was of the whole buffer. -/
  sizes : ∀ t ∈ s.transfers, ∃ sub, s.subs[t.serial]? = some sub ∧ t.size = sub.content.totalSize
  /-- A record that waits for a buffer fits one. -/
  fits : ∀ p r, s.pending p = some (some r) → headerSize + r.bytes.length ≤ cfg.bufferSize

namespace Con

variable {cfg : Config} {loc : ℕ → Place} {s s' : St} {p b w k : ℕ} {ks : List ℕ}

theorem init (cfg : Config) : Con cfg (Agent.init cfg) := by
  refine ⟨fun p b hb => ?_, fun sub hsub => ?_, fun k sub hsub => ?_, fun p => rfl, fun t ht => ?_, fun p r hr => ?_⟩
  · cases hb
  · cases hsub
  · cases hsub
  · cases ht
  · cases hr

/-- A buffer that is queued or in transfer is neither free nor active. -/
theorem busy_ne (h : Loc cfg loc s) {b' : ℕ} (hb : s.At b .free ∨ s.At b (.active p)) (hk : s.Busy b' k) : b' ≠ b := by
  rintro rfl
  rcases hb with hb | hb
  · rcases hk with hk | ⟨w, hk⟩
    · cases h.unique hb hk
    · cases h.unique hb hk
  · rcases hk with hk | ⟨w, hk⟩
    · cases h.unique hb hk
    · cases h.unique hb hk

/-- A record is appended to the active buffer. -/
theorem appended {r : Record} (h : Con cfg s) (hl : Loc cfg loc s) (hb : s.active p = some b) (hpend : s.pending p = none)
    (hfit : (s.buf b).totalSize + r.bytes.length ≤ cfg.bufferSize) :
    Con cfg { s with
      buf := Function.update s.buf b ((s.buf b).append r), calls := Function.update s.calls p (s.calls p ++ [r]) } := by
  have hat : s.At b (.active p) := hb
  have hother : ∀ q b', s.active q = some b' → q ≠ p → b' ≠ b := by
    rintro q b' hq hne rfl
    have hq' : s.At b' (.active q) := hq
    cases hl.unique hat hq'
    exact hne rfl
  refine ⟨fun q b' hq => ?_, h.subs, fun k sub hsub hk => ?_, fun q => ?_, h.sizes, h.fits⟩
  · dsimp only at hq ⊢
    by_cases hqp : q = p
    · subst hqp
      rw [hb] at hq
      cases hq
      rw [Function.update_self]
      obtain ⟨h₁, h₂⟩ := h.active q b hb
      exact ⟨h₁, h₂.append hfit⟩
    · rw [Function.update_of_ne (hother q b' hq hqp)]
      exact h.active q b' hq
  · dsimp only
    rw [Function.update_of_ne (busy_ne hl (Or.inr hat) hk)]
    exact h.kept k sub hsub hk
  · have hlog := h.log q
    dsimp only
    by_cases hqp : q = p
    · subst hqp
      rw [Function.update_self, ← hlog]
      simp [St.recordsOf, St.submitted, St.activeRecords, St.pendingRecords, hb, hpend, Buffer.append]
    · rw [Function.update_of_ne hqp, ← hlog]
      simp only [St.recordsOf, St.submitted, St.activeRecords, St.pendingRecords]
      cases hq : s.active q with
      | none => rfl
      | some b' =>
        simp only
        rw [Function.update_of_ne (hother q b' hq hqp)]

/-- The active buffer is submitted; `pd` is what the call waits with. -/
theorem submit {pd : Option Record} (h : Con cfg s) (hb : s.active p = some b)
    (hpend : s.pending p = none) (hfit : ∀ r ∈ pd, headerSize + r.bytes.length ≤ cfg.bufferSize) :
    Con cfg { s.submit p b with
      pending := Function.update s.pending p (some pd), calls := Function.update s.calls p (s.calls p ++ pd.toList) } := by
  obtain ⟨hid, hwhole⟩ := h.active p b hb
  refine ⟨fun q b' hq => ?_, fun sub hsub => ?_, fun j sub hsub hj => ?_, fun q => ?_, fun t ht => ?_, fun q r hr => ?_⟩
  · have hq' : Function.update s.active p none q = some b' := hq
    by_cases hqp : q = p
    · subst hqp
      rw [Function.update_self] at hq'
      cases hq'
    · rw [Function.update_of_ne hqp] at hq'
      exact h.active q b' hq'
  · rcases List.mem_append.mp hsub with hsub | hsub
    · exact h.subs sub hsub
    · rw [List.mem_singleton.mp hsub]
      exact ⟨hid, hwhole⟩
  · have hsub' : (s.subs ++ [⟨b, p, s.buf b⟩])[j]? = some sub := hsub
    show s.buf sub.buffer = sub.content
    by_cases hlt : j < s.subs.length
    · rw [List.getElem?_append_left hlt] at hsub'
      refine h.kept j sub hsub' ?_
      have hbuf : s.bufferOf j = some sub.buffer := by rw [St.bufferOf, hsub']; rfl
      rcases hj with ⟨hj, -⟩ | ⟨w, hj, -⟩
      · have hj' : j ∈ s.spillQ ++ [s.subs.length] := hj
        rcases List.mem_append.mp hj' with hj' | hj'
        · exact Or.inl ⟨hj', hbuf⟩
        · rw [List.mem_singleton.mp hj'] at hlt
          exact absurd hlt (Nat.lt_irrefl _)
      · exact Or.inr ⟨w, hj, hbuf⟩
    · rw [List.getElem?_append_right (Nat.not_lt.mp hlt)] at hsub'
      rw [List.mem_singleton.mp (List.mem_of_getElem? hsub')]
  · have hlog := h.log q
    show St.recordsOf _ q = Function.update s.calls p (s.calls p ++ pd.toList) q
    by_cases hqp : q = p
    · subst hqp
      rw [Function.update_self, ← hlog]
      cases pd with
      | none => simp [St.recordsOf, St.submitted, St.activeRecords, St.pendingRecords, St.submit, hb, hpend]
      | some r => simp [St.recordsOf, St.submitted, St.activeRecords, St.pendingRecords, St.submit, hb, hpend]
    · rw [Function.update_of_ne hqp, ← hlog]
      simp [St.recordsOf, St.submitted, St.activeRecords, St.pendingRecords, St.submit, hqp, Ne.symm hqp]
  · obtain ⟨sub, hsub, hsize⟩ := h.sizes t ht
    refine ⟨sub, ?_, hsize⟩
    show (s.subs ++ [_])[t.serial]? = some sub
    rw [List.getElem?_append_left (List.getElem?_eq_some_iff.mp hsub).1]
    exact hsub
  · have hr' : Function.update s.pending p (some pd) q = some (some r) := hr
    by_cases hqp : q = p
    · subst hqp
      rw [Function.update_self] at hr'
      cases hr'
      exact hfit r rfl
    · rw [Function.update_of_ne hqp] at hr'
      exact h.fits q r hr'

/-- A call without an active buffer waits with its record. -/
theorem waits {r : Record} (h : Con cfg s) (hnone : s.active p = none) (hpend : s.pending p = none)
    (hfit : headerSize + r.bytes.length ≤ cfg.bufferSize) :
    Con cfg { s with
      pending := Function.update s.pending p (some (some r)), calls := Function.update s.calls p (s.calls p ++ [r]) } := by
  refine ⟨h.active, h.subs, h.kept, fun q => ?_, h.sizes, fun q r' hr => ?_⟩
  · have hlog := h.log q
    show St.recordsOf _ q = Function.update s.calls p (s.calls p ++ [r]) q
    by_cases hqp : q = p
    · subst hqp
      rw [Function.update_self, ← hlog]
      simp [St.recordsOf, St.submitted, St.activeRecords, St.pendingRecords, hnone, hpend]
    · rw [Function.update_of_ne hqp, ← hlog]
      simp [St.recordsOf, St.submitted, St.activeRecords, St.pendingRecords, hqp]
  · have hr' : Function.update s.pending p (some (some r)) q = some (some r') := hr
    by_cases hqp : q = p
    · subst hqp
      rw [Function.update_self] at hr'
      cases hr'
      exact hfit
    · rw [Function.update_of_ne hqp] at hr'
      exact h.fits q r' hr'

/-- The call gets a buffer. -/
theorem acquired {ro : Option Record} {rest : List ℕ} (h : Con cfg s) (hl : Loc cfg loc s) (hpend : s.pending p = some ro)
    (hpool : s.pool = b :: rest) : Con cfg (s.acquired p ro b rest) := by
  have hfree : s.At b .free := by
    show b ∈ s.pool
    rw [hpool]
    exact List.mem_cons_self ..
  have hnone : s.active p = none := hl.locked p (by rw [hpend]; exact Option.some_ne_none _)
  have hother : ∀ q b', s.active q = some b' → b' ≠ b := by
    rintro q b' hq rfl
    have hq' : s.At b' (.active q) := hq
    cases hl.unique hfree hq'
  have hfill : (fill p ro).partitionId = p ∧ (fill p ro).Whole cfg.bufferSize := by
    cases ro with
    | none => exact ⟨rfl, Buffer.whole_new p cfg.header_le⟩
    | some r => exact ⟨rfl, (Buffer.whole_new p cfg.header_le).append (h.fits p r hpend)⟩
  refine ⟨fun q b' hq => ?_, h.subs, fun k sub hsub hk => ?_, fun q => ?_, h.sizes, fun q r hr => ?_⟩
  · have hq' : Function.update s.active p (some b) q = some b' := hq
    show (Function.update s.buf b (fill p ro) b').partitionId = q ∧ (Function.update s.buf b (fill p ro) b').Whole _
    by_cases hqp : q = p
    · subst hqp
      rw [Function.update_self] at hq'
      cases hq'
      rw [Function.update_self]
      exact hfill
    · rw [Function.update_of_ne hqp] at hq'
      rw [Function.update_of_ne (hother q b' hq')]
      exact h.active q b' hq'
  · have hbusy : s.Busy sub.buffer k := hk
    show Function.update s.buf b (fill p ro) sub.buffer = sub.content
    rw [Function.update_of_ne (busy_ne (p := p) hl (Or.inl hfree) hbusy)]
    exact h.kept k sub hsub hbusy
  · have hlog := h.log q
    show St.recordsOf _ q = s.calls q
    rw [← hlog]
    by_cases hqp : q = p
    · subst hqp
      cases ro with
      | none =>
        simp [St.recordsOf, St.submitted, St.activeRecords, St.pendingRecords, St.acquired, hnone, hpend, fill, Buffer.new]
      | some r =>
        simp [St.recordsOf, St.submitted, St.activeRecords, St.pendingRecords, St.acquired, hnone, hpend, fill, Buffer.new,
          Buffer.append]
    · simp only [St.recordsOf, St.submitted, St.activeRecords, St.pendingRecords, St.acquired, Function.update_of_ne hqp]
      cases hq : s.active q with
      | none => rfl
      | some b' =>
        simp only
        rw [Function.update_of_ne (hother q b' hq)]
  · have hr' : Function.update s.pending p none q = some (some r) := hr
    by_cases hqp : q = p
    · subst hqp
      rw [Function.update_self] at hr'
      cases hr'
    · rw [Function.update_of_ne hqp] at hr'
      exact h.fits q r hr'

/-- A worker's step, which leaves the calls and the buffers alone. -/
theorem worker (h : Con cfg s) (h₁ : s'.buf = s.buf) (h₂ : s'.active = s.active) (h₃ : s'.subs = s.subs)
    (h₄ : s'.pending = s.pending) (h₅ : s'.calls = s.calls) (hbusy : ∀ b k, s'.Busy b k → s.Busy b k)
    (hsizes : ∀ t ∈ s'.transfers, ∃ sub, s.subs[t.serial]? = some sub ∧ t.size = sub.content.totalSize) : Con cfg s' := by
  refine ⟨?_, ?_, fun k sub hsub hk => ?_, fun p => ?_, ?_, ?_⟩
  · rw [h₁, h₂]
    exact h.active
  · rw [h₃]
    exact h.subs
  · rw [h₁]
    rw [h₃] at hsub
    exact h.kept k sub hsub (hbusy _ _ hk)
  · rw [h₅, ← h.log p]
    simp only [St.recordsOf, St.submitted, St.activeRecords, St.pendingRecords, h₁, h₂, h₃, h₄]
  · rw [h₃]
    exact hsizes
  · rw [h₄]
    exact h.fits

theorem swapped (h : Con cfg s) : Con cfg (s.swapped w) := by
  refine h.worker rfl rfl rfl rfl rfl (fun b k hk => ?_) h.sizes
  rcases hk with ⟨hk, -⟩ | ⟨x, hk, hbuf⟩
  · cases hk
  · have hk' : k ∈ Function.update s.toSend w s.spillQ x ∨ k ∈ s.waiting x := hk
    by_cases hx : x = w
    · subst hx
      rw [Function.update_self] at hk'
      rcases hk' with hk' | hk'
      · exact Or.inl ⟨hk', hbuf⟩
      · exact Or.inr ⟨x, Or.inr hk', hbuf⟩
    · rw [Function.update_of_ne hx] at hk'
      exact Or.inr ⟨x, hk', hbuf⟩

theorem sent {sub : Submission} (h : Con cfg s) (hsend : s.toSend w = k :: ks) (hsub : s.subs[k]? = some sub) :
    Con cfg (s.sent w k sub.buffer ks) := by
  have hbuf : s.bufferOf k = some sub.buffer := by rw [St.bufferOf, hsub]; rfl
  have hmem : k ∈ s.toSend w := by rw [hsend]; exact List.mem_cons_self ..
  refine h.worker rfl rfl rfl rfl rfl (fun b j hj => ?_) fun t ht => ?_
  · rcases hj with hj | ⟨x, hj, hb⟩
    · exact Or.inl hj
    · refine Or.inr ⟨x, ?_, hb⟩
      have hj' : j ∈ Function.update s.toSend w ks x ∨ j ∈ Function.update s.waiting w (s.waiting w ++ [k]) x := hj
      by_cases hx : x = w
      · subst hx
        rw [Function.update_self, Function.update_self, List.mem_append, List.mem_singleton] at hj'
        rcases hj' with hj' | hj' | rfl
        · exact Or.inl (by rw [hsend]; exact List.mem_cons_of_mem _ hj')
        · exact Or.inr hj'
        · exact Or.inl hmem
      · rw [Function.update_of_ne hx, Function.update_of_ne hx] at hj'
        exact hj'
  · rcases List.mem_append.mp ht with ht | ht
    · exact h.sizes t ht
    · rw [List.mem_singleton.mp ht]
      refine ⟨sub, hsub, ?_⟩
      show (s.buf sub.buffer).totalSize = sub.content.totalSize
      rw [h.kept k sub hsub (Or.inr ⟨w, Or.inl hmem, hbuf⟩)]

theorem freed (h : Con cfg s) (hwait : s.waiting w = k :: ks) : Con cfg (s.freed w k b ks) := by
  refine h.worker rfl rfl rfl rfl rfl (fun b' j hj => ?_) h.sizes
  rcases hj with hj | ⟨x, hj, hb⟩
  · exact Or.inl hj
  · refine Or.inr ⟨x, ?_, hb⟩
    have hj' : j ∈ s.toSend x ∨ j ∈ Function.update s.waiting w ks x := hj
    by_cases hx : x = w
    · subst hx
      rw [Function.update_self] at hj'
      rw [hwait]
      exact hj'.imp_right (List.mem_cons_of_mem _)
    · rw [Function.update_of_ne hx] at hj'
      exact hj'

end Con

/-! ### Every step -/

/-- **The invariant of the agent.** -/
structure Inv (cfg : Config) (loc : ℕ → Place) (s : St) : Prop where
  /-- The accounts. -/
  acc : Acc s
  /-- The places. -/
  places : Loc cfg loc s
  /-- The contents. -/
  con : Con cfg s
  /-- A worker stops when nothing is queued, and nothing is queued after the shutdown. -/
  stopped : ∀ w, s.exited w = true → s.spillQ = [] ∧ s.running = false

/-- The record of the call fits a buffer. -/
def Act.Fits (cfg : Config) : Act → Prop
  | .append _ r => headerSize + r.bytes.length ≤ cfg.bufferSize
  | _ => True

instance decidableFits (cfg : Config) : ∀ act, Decidable (Act.Fits cfg act)
  | .append _ r => inferInstanceAs (Decidable (headerSize + r.bytes.length ≤ cfg.bufferSize))
  | .force _ | .acquire _ | .take _ | .send _ | .complete _ _ | .shutdown | .exit _ => isTrue trivial

section
variable {cfg : Config} {loc : ℕ → Place} {s s' : St} {p w size : ℕ} {act : Act}

theorem callable_iff : s.callable p = true ↔ s.running = true ∧ s.pending p = none := by
  rw [St.callable, Bool.and_eq_true, Option.isNone_iff_eq_none]

theorem Inv.init (cfg : Config) : Inv cfg (fun _ => .free) (Agent.init cfg) :=
  ⟨Acc.init cfg, Loc.init cfg, Con.init cfg, fun _ h => by cases h⟩

/-- The call on the partition submits the active buffer. -/
theorem Inv.submit {b : ℕ} (h : Inv cfg loc s) (pd : Option Record) (hc : s.callable p = true) (hb : s.active p = some b)
    (hfit : ∀ r ∈ pd, headerSize + r.bytes.length ≤ cfg.bufferSize) :
    ∃ loc', Inv cfg loc' { s.submit p b with
      pending := Function.update s.pending p (some pd), calls := Function.update s.calls p (s.calls p ++ pd.toList) } := by
  obtain ⟨hrun, hpend⟩ := callable_iff.mp hc
  refine ⟨_, (h.acc.submit p b).congr rfl rfl rfl rfl rfl rfl rfl, ⟨h.places.submit h.acc hb, h.places.nodup, fun q hq => ?_⟩,
    h.con.submit hb hpend hfit, fun w hw => ?_⟩
  · show Function.update s.active p none q = none
    by_cases hqp : q = p
    · subst hqp
      exact Function.update_self ..
    · rw [Function.update_of_ne hqp]
      refine h.places.locked q fun hnone => hq ?_
      exact (Function.update_of_ne hqp ..).trans hnone
  · have hstop := (h.stopped w hw).2
    rw [hrun] at hstop
    cases hstop

theorem Inv.append {r : Record} (h : Inv cfg loc s) (hfit : headerSize + r.bytes.length ≤ cfg.bufferSize)
    (hs : step cfg s (.append p r) = some s') : ∃ loc', Inv cfg loc' s' := by
  simp only [step] at hs
  split_ifs at hs with hc
  cases hs
  obtain ⟨hrun, hpend⟩ := callable_iff.mp hc
  unfold St.appendOrSpill
  cases hb : s.active p with
  | none =>
    refine ⟨loc, h.acc.congr rfl rfl rfl rfl rfl rfl rfl, ⟨fun b pl => ?_, h.places.nodup, fun q hq => ?_⟩,
      h.con.waits hb hpend hfit, h.stopped⟩
    · rw [← h.places.at_iff b pl]
      exact Loc.at_congr rfl rfl rfl rfl rfl rfl
    · by_cases hqp : q = p
      · rw [hqp]
        exact hb
      · refine h.places.locked q fun hnone => hq ?_
        exact (Function.update_of_ne hqp ..).trans hnone
  | some b =>
    dsimp only
    by_cases hspill : (s.buf b).needSpill cfg.bufferSize (r.key.length + r.value.length) = true
    · rw [if_pos hspill]
      exact h.submit (some r) hc hb (fun x hx => by cases hx; exact hfit)
    · rw [if_neg hspill]
      have hroom : (s.buf b).totalSize + r.bytes.length ≤ cfg.bufferSize := by
        simp only [Buffer.needSpill, decide_eq_true_eq, not_lt] at hspill
        rw [Record.bytes, List.length_append]
        exact hspill
      refine ⟨loc, h.acc.congr rfl rfl rfl rfl rfl rfl rfl, ⟨fun b pl => ?_, h.places.nodup, h.places.locked⟩,
        h.con.appended h.places hb hpend hroom, h.stopped⟩
      rw [← h.places.at_iff b pl]
      exact Loc.at_congr rfl rfl rfl rfl rfl rfl

theorem Inv.force (h : Inv cfg loc s) (hs : step cfg s (.force p) = some s') : ∃ loc', Inv cfg loc' s' := by
  simp only [step] at hs
  split_ifs at hs with hc
  cases hs
  unfold St.forceSpill
  cases hb : s.active p with
  | none => exact ⟨loc, h⟩
  | some b =>
    obtain ⟨loc', h'⟩ := h.submit none hc hb (fun x hx => by cases hx)
    have hcalls : Function.update s.calls p (s.calls p ++ (none : Option Record).toList) = s.calls := by simp
    rw [hcalls] at h'
    exact ⟨loc', h'⟩

theorem Inv.step (h : Inv cfg loc s) (hfit : act.Fits cfg) (hs : step cfg s act = some s') : ∃ loc', Inv cfg loc' s' := by
  cases act with
  | append p r => exact h.append hfit hs
  | force p => exact h.force hs
  | acquire p =>
    obtain ⟨ro, b, rest, hpend, hpool, rfl⟩ := step_acquire hs
    exact ⟨_, h.acc.congr rfl rfl rfl rfl rfl rfl rfl, h.places.acquired hpend hpool, h.con.acquired h.places hpend hpool,
      h.stopped⟩
  | take w =>
    obtain ⟨hsend, hwait, rfl⟩ := step_take hs
    exact ⟨_, h.acc.swapped hsend, h.places.swapped hsend hwait, h.con.swapped, fun x hx => ⟨rfl, (h.stopped x hx).2⟩⟩
  | send w =>
    obtain ⟨k, ks, sub, hsend, hsub, rfl⟩ := step_send hs
    exact ⟨_, h.acc.sent hsend, h.places.sent hsend, h.con.sent hsend hsub, h.stopped⟩
  | complete w size =>
    obtain ⟨k, ks, sub, hsend, hwait, hsub, rfl⟩ := step_complete hs
    have hbuf : s.bufferOf k = some sub.buffer := by rw [St.bufferOf, hsub]; rfl
    exact ⟨_, h.acc.freed hwait, h.places.freed h.acc hsend hwait hbuf, h.con.freed hwait, h.stopped⟩
  | shutdown =>
    cases hs
    refine ⟨loc, h.acc.congr rfl rfl rfl rfl rfl rfl rfl, ⟨fun b pl => ?_, h.places.nodup, h.places.locked⟩,
      h.con.worker rfl rfl rfl rfl rfl (fun _ _ hk => hk) h.con.sizes, fun w hw => ⟨(h.stopped w hw).1, rfl⟩⟩
    rw [← h.places.at_iff b pl]
    exact Loc.at_congr rfl rfl rfl rfl rfl rfl
  | exit w =>
    simp only [Agent.step] at hs
    split_ifs at hs with hcond
    cases hs
    simp only [Bool.and_eq_true, Bool.not_eq_true', List.isEmpty_iff] at hcond
    refine ⟨loc, h.acc.congr rfl rfl rfl rfl rfl rfl rfl, ⟨fun b pl => ?_, h.places.nodup, h.places.locked⟩,
      h.con.worker rfl rfl rfl rfl rfl (fun _ _ hk => hk) h.con.sizes, fun x hx => ⟨hcond.2, hcond.1.2⟩⟩
    rw [← h.places.at_iff b pl]
    exact Loc.at_congr rfl rfl rfl rfl rfl rfl

/-! ### Every run -/

/-- The records of the calls on a partition, in order. -/
def callsOf (acts : List Act) (p : ℕ) : List Record :=
  acts.filterMap fun act => match act with | .append q r => if q = p then some r else none | _ => none

theorem calls_step (hs : step cfg s act = some s') (p : ℕ) : s'.calls p = s.calls p ++ callsOf [act] p := by
  cases act with
  | append q r =>
    simp only [step] at hs
    split_ifs at hs
    cases hs
    show Function.update s.calls q (s.calls q ++ [r]) p = _
    by_cases hqp : q = p
    · subst hqp
      simp [callsOf]
    · simp [callsOf, hqp, Ne.symm hqp]
  | force q =>
    simp only [step] at hs
    split_ifs at hs
    cases hs
    unfold St.forceSpill
    cases s.active q <;> exact (List.append_nil _).symm
  | acquire q =>
    obtain ⟨ro, b, rest, -, -, rfl⟩ := step_acquire hs
    exact (List.append_nil _).symm
  | take w =>
    obtain ⟨-, -, rfl⟩ := step_take hs
    exact (List.append_nil _).symm
  | send w =>
    obtain ⟨k, ks, sub, -, -, rfl⟩ := step_send hs
    exact (List.append_nil _).symm
  | complete w size =>
    obtain ⟨k, ks, sub, -, -, -, rfl⟩ := step_complete hs
    exact (List.append_nil _).symm
  | shutdown =>
    cases hs
    exact (List.append_nil _).symm
  | exit w =>
    simp only [step] at hs
    split_ifs at hs
    cases hs
    exact (List.append_nil _).symm

theorem calls_of_run {acts : List Act} (hr : run (step cfg) s acts = some s') (p : ℕ) :
    s'.calls p = s.calls p ++ callsOf acts p := by
  induction acts generalizing s with
  | nil =>
    cases hr
    exact (List.append_nil _).symm
  | cons act acts ih =>
    obtain ⟨s₁, h₁, h₂⟩ := run_cons hr
    rw [ih h₂, calls_step h₁, List.append_assoc, callsOf, callsOf, callsOf, ← List.filterMap_append]
    rfl

/-- No worker can take, post or release anything. -/
def Ended (cfg : Config) (s : St) : Prop :=
  ∀ w, step cfg s (.take w) = none ∧ step cfg s (.send w) = none ∧ ∀ size, step cfg s (.complete w size) = none

/-- When the workers can do nothing, nothing is queued or in transfer. -/
theorem Inv.drained (h : Inv cfg loc s) (hpos : 0 < cfg.nWorker) (he : Ended cfg s) :
    s.spillQ = [] ∧ ∀ w, s.toSend w = [] ∧ s.waiting w = [] := by
  have hsub : ∀ w k, k ∈ s.toSend w ∨ k ∈ s.waiting w → ∃ sub, s.subs[k]? = some sub := fun w k hk =>
    ⟨_, List.getElem?_eq_getElem (h.acc.lt_of_taken (h.acc.taken_of_mem hk))⟩
  have hsend : ∀ w, s.toSend w = [] := by
    intro w
    cases hw : s.toSend w with
    | nil => rfl
    | cons k ks =>
      obtain ⟨sub, hk⟩ := hsub w k (Or.inl (by rw [hw]; exact List.mem_cons_self ..))
      have hnone := (he w).2.1
      simp only [Agent.step, hw, hk] at hnone
      cases hnone
  have hwait : ∀ w, s.waiting w = [] := by
    intro w
    cases hw : s.waiting w with
    | nil => rfl
    | cons k ks =>
      obtain ⟨sub, hk⟩ := hsub w k (Or.inr (by rw [hw]; exact List.mem_cons_self ..))
      have hnone := (he w).2.2 (s.buf sub.buffer).totalSize
      simp only [Agent.step, hsend w, hw, hk, if_true] at hnone
      cases hnone
  refine ⟨?_, fun w => ⟨hsend w, hwait w⟩⟩
  by_contra hne
  have hexit : s.exited 0 = false := by
    cases hx : s.exited 0 with
    | false => rfl
    | true => exact absurd (h.stopped 0 hx).1 hne
  have hnone := (he 0).1
  simp [Agent.step, St.atTop, hpos, hexit, hsend 0, hwait 0, hne] at hnone

theorem count_ofWorker (log : List (ℕ × ℕ)) (w k : ℕ) : (ofWorker log w).count k = log.count (w, k) := by
  induction log with
  | nil => rfl
  | cons x log ih =>
    obtain ⟨w', k'⟩ := x
    have hcons : ofWorker ((w', k') :: log) w = if w' = w then k' :: ofWorker log w else ofWorker log w := by
      unfold ofWorker
      by_cases hw : w' = w
      · simp [hw]
      · simp [hw]
    rw [hcons]
    by_cases hw : w' = w
    · subst hw
      simp [List.count_cons, ih]
    · simp [ih, hw]

/-- Logs with the same entries for every worker have the same entries. -/
theorem perm_of_ofWorker {log log' : List (ℕ × ℕ)} (h : ∀ w, ofWorker log w = ofWorker log' w) : log.Perm log' := by
  refine List.perm_iff_count.mpr fun x => ?_
  obtain ⟨w, k⟩ := x
  rw [← count_ofWorker, ← count_ofWorker, h w]

/-- The payload of the active buffer of a partition. -/
def St.activePayload (s : St) (p : ℕ) : Bytes :=
  match s.active p with
  | some b => (s.buf b).payload
  | none => []

/-- Nothing is lost, duplicated or split. -/
structure Sound (cfg : Config) (acts : List Act) (s : St) : Prop where
  /-- The payloads of the submissions of a partition, in order, the payload of its active buffer, and the record of a call
  that waits for a buffer, are the records of the calls. -/
  content : ∀ p, ((s.submitted p).map fun sub => sub.content.payload).flatten ++ s.activePayload p ++
    ((s.pendingRecords p).map Record.bytes).flatten = ((callsOf acts p).map Record.bytes).flatten
  /-- Every record lies within one buffer. -/
  whole : ∀ p, ((s.submitted p).map fun sub => sub.content.records).flatten ++ s.activeRecords p ++ s.pendingRecords p =
    callsOf acts p
  /-- A submission has the id of its partition, and its payload is its records. -/
  subs : ∀ sub ∈ s.subs, sub.content.partitionId = sub.partition ∧ sub.content.Whole cfg.bufferSize
  /-- Every submission is taken once, or queued. -/
  taken : s.takes.map Prod.snd ++ s.spillQ = List.range s.subs.length
  /-- What a worker took it transfers once. -/
  posted : ∀ w, ofWorker s.takes w = ofWorker (s.transfers.map Transfer.key) w ++ s.toSend w
  /-- What a worker transferred it releases once. -/
  released : ∀ w, ofWorker (s.transfers.map Transfer.key) w = ofWorker s.releases w ++ s.waiting w
  /-- A transfer is of the whole buffer. -/
  sizes : ∀ t ∈ s.transfers, ∃ sub, s.subs[t.serial]? = some sub ∧ t.size = sub.content.totalSize
  /-- While it is queued or in transfer, the buffer is as it was submitted. -/
  kept : ∀ k sub, s.subs[k]? = some sub → s.Busy sub.buffer k → s.buf sub.buffer = sub.content
  /-- Every pool buffer is in exactly one state. -/
  places : ∀ b < cfg.nBuffer, ∃! pl, s.At b pl
  /-- When the workers have nothing left to do, every submission was taken, transferred and released exactly once, each
  time by the same worker. -/
  ended : 0 < cfg.nWorker → Ended cfg s →
    s.takes.map Prod.snd = List.range s.subs.length ∧ (s.transfers.map Transfer.key).Perm s.takes ∧ s.releases.Perm s.takes

theorem Inv.content (h : Inv cfg loc s) (p : ℕ) :
    ((s.submitted p).map fun sub => sub.content.payload).flatten ++ s.activePayload p ++
      ((s.pendingRecords p).map Record.bytes).flatten = ((s.calls p).map Record.bytes).flatten := by
  have hsubs : ((s.submitted p).map fun sub => sub.content.payload).flatten =
      (((s.submitted p).map fun sub => sub.content.records).flatten.map Record.bytes).flatten := by
    rw [List.map_flatten, List.map_map, List.flatten_flatten, List.map_map]
    refine congrArg List.flatten (List.map_congr_left fun sub hsub => ?_)
    exact (h.con.subs sub (List.mem_of_mem_filter hsub)).2.1
  have hactive : s.activePayload p = ((s.activeRecords p).map Record.bytes).flatten := by
    unfold St.activePayload St.activeRecords
    cases hb : s.active p with
    | none => rfl
    | some b => exact (h.con.active p b hb).2.1
  rw [← h.con.log p, hsubs, hactive, St.recordsOf]
  simp only [List.map_append, List.flatten_append]

/-- **The agent loses, duplicates and splits nothing**, in every run in which every record fits a buffer. -/
theorem agent_of_run (cfg : Config) (acts : List Act) (s : St) (hfit : ∀ act ∈ acts, act.Fits cfg)
    (hr : run (step cfg) (init cfg) acts = some s) : Sound cfg acts s := by
  have halong : Along (step cfg) (fun _ act => act.Fits cfg) (init cfg) acts := Along.of_forall hfit
  obtain ⟨loc, h⟩ := inv_of_along (I := fun s => ∃ loc, Inv cfg loc s) (fun _ _ _ ⟨_, h⟩ hf hs => h.step hf hs)
    ⟨_, Inv.init cfg⟩ halong hr
  have hcalls : ∀ p, s.calls p = callsOf acts p := fun p => calls_of_run hr p
  refine ⟨fun p => ?_, fun p => ?_, h.con.subs, h.acc.taken, h.acc.posted, h.acc.released, h.con.sizes, h.con.kept,
    fun b hb => ?_, fun hpos he => ?_⟩
  · rw [h.content p, hcalls p]
  · exact (h.con.log p).trans (hcalls p)
  · refine ⟨loc b, (h.places.at_iff b _).mpr ⟨hb, rfl⟩, fun pl hpl => ?_⟩
    exact ((h.places.at_iff b pl).mp hpl).2.symm
  · obtain ⟨hq, hlists⟩ := h.drained hpos he
    have hposted : ∀ w, ofWorker (s.transfers.map Transfer.key) w = ofWorker s.takes w := by
      intro w
      rw [h.acc.posted w, (hlists w).1, List.append_nil]
    refine ⟨?_, perm_of_ofWorker hposted, perm_of_ofWorker fun w => ?_⟩
    · rw [← h.acc.taken, hq, List.append_nil]
    · rw [← hposted w, h.acc.released w, (hlists w).2, List.append_nil]

end

/-- One worker and two buffers of twenty bytes. -/
def small : Config := ⟨1, 2, 20, by decide⟩

/-- Two records, of which the second needs a new buffer; the first is transferred and released. -/
def twoRecords : List Act :=
  [.append 0 ⟨[1, 2], [3]⟩, .acquire 0, .append 0 ⟨[4, 5], [6]⟩, .acquire 0, .take 0, .send 0, .complete 0 19]

theorem agent_of_run_twoRecords :
    (∀ act ∈ twoRecords, act.Fits small) ∧
      (∀ s, run (step small) (init small) twoRecords = some s → Sound small twoRecords s) ∧
      (run (step small) (init small) twoRecords).map (fun s => (s.subs.map fun sub => sub.content.payload, s.activePayload 0, s.pool)) =
        some ([[1, 2, 3]], [4, 5, 6], [0]) := by
  have hfit : ∀ act ∈ twoRecords, act.Fits small := by decide
  exact ⟨hfit, fun s hs => agent_of_run small twoRecords s hfit hs, by decide⟩

end DShuffle.Spill.Agent
