import DShuffle.Base.File
import DShuffle.Base.Transition

/-!
# The partition files

Three workers write partition buffers to files: `DirectSpillWorker` on the DPU,
`HostSpillWorker` and `BufferredHostSpillWorker` on the host. Each has one spiller
that takes tasks in order, prepares a write at the offset it keeps for the
partition, and advances the offset by the length of the payload. The writes
complete in any order. A completion fulfils the task's promise, and the request
handler compares what it gets with the value it expects.

## The model

* A task is a buffer that starts with a `PartitionDataHeader`. The three workers
  take its payload in three ways: by the header's length, or by the size of the
  buffer.
* A session has the files, each with its offset and its bytes, and the writes in
  flight. `submit` is a round of the spiller; `complete` is a write that completes
  in full.
* `fulfil` is the completion poller, `acknowledged` the test of the handler.

## What is proved

* `files_of_run` — when no write is in flight, every file is its header followed
  by the payloads of its tasks, in the order of their submission, and the offset
  is its length.
* `acknowledged_iff_written_iff` — exactly when a task is acknowledged if and only
  if all its bytes were written.

## Honest scope

A write that completes in full has written the whole payload. `io_uring` takes a
length of 32 bits, so a longer payload never completes in full.
-/

namespace DShuffle.Spill

open Base

/-- `sizeof(PartitionDataHeader)`. -/
def headerSize : ℕ := 16

/-- `partition_id` in the header of a buffer. -/
def partitionIdOf (buffer : Bytes) : ℕ := ofLe (slice buffer 0 8)

/-- `length` in the header of a buffer. -/
def lengthOf (buffer : Bytes) : ℕ := ofLe (slice buffer 8 8)

/-- A spill task: a partition buffer. -/
structure Task where
  /-- The buffer, with its header. -/
  buffer : Bytes
  /-- The length counts the header. -/
  header_le : headerSize ≤ lengthOf buffer
  /-- The partition lies in the buffer. -/
  length_le : lengthOf buffer ≤ buffer.length
  /-- The buffer lies in the memory. -/
  inMemory : buffer.length < 2 ^ 63

/-- The workers. -/
inductive Worker where
  /-- `DirectSpillWorker`. -/
  | direct
  /-- `HostSpillWorker`. -/
  | host
  /-- `BufferredHostSpillWorker`. -/
  | buffered
  deriving DecidableEq

namespace Task

/-- The partition. -/
def partitionId (t : Task) : ℕ := partitionIdOf t.buffer

/-- What the worker takes for the size of the buffer: `total_size()`, `buffer->size()` or `header->length`. -/
def totalSize (t : Task) : Worker → ℕ
  | .direct => lengthOf t.buffer
  | .host => t.buffer.length
  | .buffered => lengthOf t.buffer

/-- The bytes that the worker writes. -/
def payload (t : Task) (k : Worker) : Bytes := slice t.buffer headerSize (t.totalSize k - headerSize)

theorem headerSize_le_totalSize (t : Task) (k : Worker) : headerSize ≤ t.totalSize k := by
  cases k with
  | direct => exact t.header_le
  | host => exact le_trans t.header_le t.length_le
  | buffered => exact t.header_le

theorem totalSize_le (t : Task) (k : Worker) : t.totalSize k ≤ t.buffer.length := by
  cases k with
  | direct => exact t.length_le
  | host => exact le_rfl
  | buffered => exact t.length_le

end Task

/-- `PartitionFile`, with what is on the disk. -/
structure PartitionFile where
  /-- Where the next payload goes. -/
  offset : ℕ
  /-- The bytes of the file. -/
  content : Bytes
  deriving DecidableEq

/-- A session: the files are open. -/
structure Session where
  /-- The files, by partition. -/
  files : List PartitionFile
  /-- The writes in flight, with their partitions. -/
  inflight : List (ℕ × Write)
  /-- All tasks that were submitted. -/
  log : List Task

/-- What a file starts with. The direct worker never writes a header. -/
def initialHeader : Worker → Bool → Bytes
  | .direct, _ => []
  | _, true => le 4 0x0500edac
  | _, false => []

/-- `create_partition_files`, or the part of `do_mount` that opens the files. -/
def createPartitionFiles (k : Worker) (needHeader : Bool) (maxNPartition : ℕ) : Session :=
  { files := List.replicate maxNPartition ⟨(initialHeader k needHeader).length, initialHeader k needHeader⟩
    inflight := [], log := [] }

/-- The length that `io_uring_prep_write` takes for the write of a task. -/
def Task.nbytes (t : Task) (k : Worker) : ℕ := (t.payload k).length % 2 ^ 32

/-- `progress_io`: the value of the promise for the result of the write. -/
def fulfil (k : Worker) (t : Task) (res : ℤ) : ℤ := if 0 < res then t.totalSize k else res

/-- `handle_spill_request`: the value, as a `size_t`, is the one it expects. -/
def acknowledged (k : Worker) (t : Task) (res : ℤ) : Bool := (fulfil k t res % 2 ^ 64).toNat == t.totalSize k

/-- The steps of a session. -/
inductive SessionAct where
  /-- The spiller takes a task and submits its write. -/
  | submit (t : Task)
  /-- A write in flight completes in full. -/
  | complete (i : ℕ)

/-- A round of `submit_direct_spill`. -/
def submitDirectSpill (k : Worker) (s : Session) (t : Task) : Option Session :=
  match s.files[t.partitionId]? with
  | some f =>
    some { files := s.files.set t.partitionId { f with offset := f.offset + (t.payload k).length }
           inflight := s.inflight ++ [(t.partitionId, ⟨f.offset, t.payload k⟩)], log := s.log ++ [t] }
  | none => none

/-- The `i`-th write in flight is done. -/
def completeWrite (s : Session) (i : ℕ) : Option Session :=
  match s.inflight[i]? with
  | some (pid, w) =>
    match s.files[pid]? with
    | some f => some { s with
        files := s.files.set pid { f with content := pwrite f.content w }, inflight := s.inflight.eraseIdx i }
    | none => none
  | none => none

/-- A step of a session. -/
def Session.step (k : Worker) (s : Session) : SessionAct → Option Session
  | .submit t => submitDirectSpill k s t
  | .complete i => completeWrite s i

/-- The tasks submitted by the steps, in order. -/
def tasks (acts : List SessionAct) : List Task :=
  acts.filterMap fun act => match act with | .submit t => some t | .complete _ => none

/-! ### The files of a session -/

namespace Session

variable {k : Worker} {hdr : Bytes} {s s' : Session}

/-- What the file of a partition will be. -/
def plan (s : Session) (k : Worker) (hdr : Bytes) (pid : ℕ) : Bytes :=
  hdr ++ ((s.log.filter fun t => t.partitionId = pid).map fun t => t.payload k).flatten

/-- The writes in flight to the file of a partition. -/
def pending (s : Session) (pid : ℕ) : List Write := (s.inflight.filter fun w => w.1 = pid).map Prod.snd

/-- **The invariant**: the offset is the length of the plan, and the file is as planned but for the writes in flight. -/
def Inv (s : Session) (k : Worker) (hdr : Bytes) : Prop :=
  ∀ pid f, s.files[pid]? = some f → f.offset = (s.plan k hdr pid).length ∧ Upto (s.plan k hdr pid) f.content (s.pending pid)

theorem inv_create (k : Worker) (needHeader : Bool) (n : ℕ) :
    (createPartitionFiles k needHeader n).Inv k (initialHeader k needHeader) := by
  intro pid f hf
  have hf' : f = ⟨(initialHeader k needHeader).length, initialHeader k needHeader⟩ :=
    List.eq_of_mem_replicate (List.mem_of_getElem? hf)
  have hplan : (createPartitionFiles k needHeader n).plan k (initialHeader k needHeader) pid = initialHeader k needHeader := by
    simp [plan, createPartitionFiles]
  rw [hf', hplan]
  exact ⟨rfl, Upto.refl _⟩

theorem Inv.submit {t : Task} (h : s.Inv k hdr) (hs : submitDirectSpill k s t = some s') : s'.Inv k hdr := by
  unfold submitDirectSpill at hs
  cases hf : s.files[t.partitionId]? with
  | none =>
    rw [hf] at hs
    cases hs
  | some f =>
    rw [hf] at hs
    cases hs
    obtain ⟨hoff, hupto⟩ := h _ f hf
    intro pid g hg
    simp only at hg
    by_cases hpid : pid = t.partitionId
    · subst hpid
      rw [List.getElem?_set_self (List.getElem?_eq_some_iff.mp hf).1] at hg
      cases hg
      -- the write goes to the end of the plan
      have hplan : plan { s with log := s.log ++ [t] } k hdr t.partitionId = s.plan k hdr t.partitionId ++ t.payload k := by
        simp [plan]
      have hpend : pending { s with inflight := s.inflight ++ [(t.partitionId, ⟨f.offset, t.payload k⟩)] } t.partitionId =
          s.pending t.partitionId ++ [⟨(s.plan k hdr t.partitionId).length, t.payload k⟩] := by
        simp [pending, hoff]
      refine ⟨?_, ?_⟩
      · refine Eq.trans ?_ (congrArg List.length hplan.symm)
        rw [List.length_append, ← hoff]
      · have happ := hupto.append (t.payload k)
        rw [← hplan, ← hpend] at happ
        exact happ
    · rw [List.getElem?_set_ne (Ne.symm hpid)] at hg
      have hplan : plan { s with log := s.log ++ [t] } k hdr pid = s.plan k hdr pid := by
        simp [plan, Ne.symm hpid]
      have hpend : pending { s with inflight := s.inflight ++ [(t.partitionId, ⟨f.offset, t.payload k⟩)] } pid =
          s.pending pid := by
        simp [pending, Ne.symm hpid]
      have hold := h pid g hg
      rw [← hplan, ← hpend] at hold
      exact hold

/-- Taking an element out of a list. -/
theorem exists_eraseIdx {α : Type} {xs : List α} {i : ℕ} {x : α} (h : xs[i]? = some x) :
    ∃ as bs, xs = as ++ x :: bs ∧ xs.eraseIdx i = as ++ bs := by
  obtain ⟨hlt, hget⟩ := List.getElem?_eq_some_iff.mp h
  refine ⟨xs.take i, xs.drop (i + 1), ?_, List.eraseIdx_eq_take_drop_succ ..⟩
  rw [← hget, ← List.drop_eq_getElem_cons hlt, List.take_append_drop]

theorem Inv.complete {i : ℕ} (h : s.Inv k hdr) (hs : completeWrite s i = some s') : s'.Inv k hdr := by
  unfold completeWrite at hs
  cases hi : s.inflight[i]? with
  | none =>
    rw [hi] at hs
    cases hs
  | some p =>
    obtain ⟨pid, w⟩ := p
    cases hf : s.files[pid]? with
    | none =>
      simp only [hi, hf] at hs
      cases hs
    | some f =>
      simp only [hi, hf] at hs
      cases hs
      obtain ⟨as, bs, hsplit, herase⟩ := exists_eraseIdx hi
      intro q g hg
      simp only at hg
      by_cases hq : q = pid
      · subst hq
        rw [List.getElem?_set_self (List.getElem?_eq_some_iff.mp hf).1] at hg
        cases hg
        obtain ⟨hoff, hupto⟩ := h q f hf
        refine ⟨hoff, ?_⟩
        have hpend : s.pending q = pending { s with inflight := as } q ++ w :: pending { s with inflight := bs } q := by
          rw [pending, hsplit]
          simp [pending]
        rw [hpend] at hupto
        show Upto _ _ (((s.inflight.eraseIdx i).filter _).map _)
        rw [herase, List.filter_append, List.map_append]
        exact hupto.pwrite
      · rw [List.getElem?_set_ne (Ne.symm hq)] at hg
        have hpend : pending { s with inflight := s.inflight.eraseIdx i } q = s.pending q := by
          rw [pending, pending, herase, hsplit]
          simp [Ne.symm hq]
        have hold := h q g hg
        rw [← hpend] at hold
        exact hold

theorem Inv.step {act : SessionAct} (h : s.Inv k hdr) (hs : s.step k act = some s') : s'.Inv k hdr := by
  cases act with
  | submit t => exact h.submit hs
  | complete i => exact h.complete hs

theorem step_files {act : SessionAct} (hs : s.step k act = some s') :
    s'.files.length = s.files.length ∧ s'.log = s.log ++ tasks [act] := by
  cases act with
  | submit t =>
    simp only [Session.step, submitDirectSpill] at hs
    split at hs
    · cases hs
      exact ⟨List.length_set, rfl⟩
    · cases hs
  | complete i =>
    simp only [Session.step, completeWrite] at hs
    split at hs
    · split at hs
      · cases hs
        exact ⟨List.length_set, (List.append_nil _).symm⟩
      · cases hs
    · cases hs

/-- A run neither opens nor closes files, and its log is the tasks of its submissions. -/
theorem run_files {acts : List SessionAct} (hr : run (Session.step k) s acts = some s') :
    s'.files.length = s.files.length ∧ s'.log = s.log ++ tasks acts := by
  induction acts generalizing s with
  | nil =>
    cases hr
    exact ⟨rfl, (List.append_nil _).symm⟩
  | cons act acts ih =>
    obtain ⟨s₁, h₁, h₂⟩ := run_cons hr
    obtain ⟨hlen, hlog⟩ := step_files h₁
    obtain ⟨hlen', hlog'⟩ := ih h₂
    refine ⟨hlen'.trans hlen, ?_⟩
    rw [hlog', hlog, List.append_assoc, tasks, tasks, tasks, ← List.filterMap_append]
    rfl

end Session

/-- **The files hold the data**: when no write is in flight, the file of a partition is its header followed by the
payloads of its tasks in the order of their submission, and its offset is its length. -/
theorem files_of_run (k : Worker) (needHeader : Bool) (maxNPartition : ℕ) (acts : List SessionAct) (s : Session)
    (hr : run (Session.step k) (createPartitionFiles k needHeader maxNPartition) acts = some s) (hdone : s.inflight = [])
    (pid : ℕ) (hpid : pid < maxNPartition) :
    ∃ f, s.files[pid]? = some f ∧ f.offset = f.content.length ∧
      f.content = initialHeader k needHeader ++
        (((tasks acts).filter fun t => t.partitionId = pid).map fun t => t.payload k).flatten := by
  have hinv := inv_of_run (I := fun s => s.Inv k (initialHeader k needHeader)) (fun _ _ _ h hs => h.step hs)
    (Session.inv_create k needHeader maxNPartition) hr
  obtain ⟨hlen, hlog⟩ := Session.run_files hr
  have hlt : pid < s.files.length := by
    rw [hlen]
    simpa [createPartitionFiles] using hpid
  obtain ⟨hoff, hupto⟩ := hinv pid _ (List.getElem?_eq_getElem hlt)
  have hpend : s.pending pid = [] := by
    rw [Session.pending, hdone]
    rfl
  rw [hpend] at hupto
  have heq := hupto.eq
  refine ⟨_, List.getElem?_eq_getElem hlt, ?_, ?_⟩
  · rw [hoff, heq]
  · rw [heq, Session.plan, hlog]
    rfl

/-- Two bytes for partition 0. -/
def two : Task := ⟨le 8 0 ++ (le 8 18 ++ [1, 2]), by decide, by decide, by decide⟩

/-- Three more bytes for it. -/
def three : Task := ⟨le 8 0 ++ (le 8 19 ++ [3, 4, 5]), by decide, by decide, by decide⟩

/-- The second write completes first. -/
theorem files_of_run_crossed :
    (run (Session.step .buffered) (createPartitionFiles .buffered true 1)
        [.submit two, .submit three, .complete 1, .complete 0]).map (fun s => s.inflight) = some [] ∧
      (run (Session.step .buffered) (createPartitionFiles .buffered true 1)
        [.submit two, .submit three, .complete 1, .complete 0]).map (fun s => s.files) =
          some [⟨9, [0xac, 0xed, 0, 5, 1, 2, 3, 4, 5]⟩] := by
  have hdone : (run (Session.step .buffered) (createPartitionFiles .buffered true 1)
      [.submit two, .submit three, .complete 1, .complete 0]).map (fun s => s.inflight) = some [] := by decide
  refine ⟨hdone, ?_⟩
  obtain ⟨s, hs, hin⟩ := Option.map_eq_some_iff.mp hdone
  obtain ⟨f, hf, hoff, hcontent⟩ := files_of_run .buffered true 1 _ s hs hin 0 (by decide)
  have hlen := (Session.run_files hs).1
  have hbytes : f.content = [0xac, 0xed, 0, 5, 1, 2, 3, 4, 5] := by
    rw [hcontent]
    decide
  rw [hs, Option.map_some, Option.some.injEq]
  have hone : s.files = [f] := by
    rw [List.eq_cons_of_length_one (show s.files.length = 1 from hlen)] at hf ⊢
    cases hf
    rfl
  rw [hone]
  cases f
  simp only at hbytes hoff
  rw [hoff, hbytes]
  rfl

/-! ### The acknowledgement -/

/-- A write is acknowledged exactly if its result is positive. -/
theorem acknowledged_iff (k : Worker) (t : Task) (res : ℤ) (hres : -(2 ^ 31) ≤ res) :
    acknowledged k t res = true ↔ 0 < res := by
  have h₁ := t.headerSize_le_totalSize k
  have h₂ := t.totalSize_le k
  have h₃ := t.inMemory
  have hsize : headerSize = 16 := rfl
  rw [acknowledged, beq_iff_eq, fulfil]
  split_ifs with hpos
  · refine ⟨fun _ => hpos, fun _ => ?_⟩
    omega
  · refine ⟨fun h => ?_, fun h => absurd h hpos⟩
    omega

/-- **When a task is acknowledged if and only if it is on disk**: the write is not short, and the payload is not
empty if nothing was written. -/
theorem acknowledged_iff_written_iff (k : Worker) (t : Task) (res : ℤ) (hres : -(2 ^ 31) ≤ res) (hle : res ≤ t.nbytes k) :
    (acknowledged k t res = true ↔ res = (t.payload k).length) ↔
      ¬ (0 < res ∧ res < (t.payload k).length) ∧ ¬ ((t.payload k).length = 0 ∧ res = 0) := by
  have hmod : t.nbytes k ≤ (t.payload k).length := Nat.mod_le _ _
  rw [acknowledged_iff k t res hres]
  constructor
  · intro h
    constructor
    · rintro ⟨hpos, hlt⟩
      have heq := h.mp hpos
      omega
    · rintro ⟨hlen, hzero⟩
      have hpos := h.mpr (by omega)
      omega
  · rintro ⟨hshort, hempty⟩
    constructor
    · intro hpos
      omega
    · intro heq
      omega

theorem acknowledged_iff_written_iff_two :
    (-(2 ^ 31) ≤ (2 : ℤ) ∧ (2 : ℤ) ≤ two.nbytes .direct) ∧
      (acknowledged .direct two 2 = true ↔ (2 : ℤ) = (two.payload .direct).length) := by
  have hres : -(2 ^ 31) ≤ (2 : ℤ) := by decide
  have hle : (2 : ℤ) ≤ two.nbytes .direct := by decide
  exact ⟨⟨hres, hle⟩, (acknowledged_iff_written_iff .direct two 2 hres hle).mpr ⟨by decide, by decide⟩⟩

/-- **A short write is acknowledged**: one byte of two was written. -/
theorem acknowledged_short :
    ¬ ∀ (k : Worker) (t : Task) (res : ℤ), -(2 ^ 31) ≤ res → res ≤ t.nbytes k →
      (acknowledged k t res = true ↔ res = (t.payload k).length) := by
  intro hall
  have hack := (hall .direct two 1 (by decide) (by decide)).mp (by decide)
  revert hack
  decide

end DShuffle.Spill
