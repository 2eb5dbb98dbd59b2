import DShuffle.Spill.Files

/-!
# Who finishes a spill task

`handle_spill_request` reads a partition buffer from a peer, queues it as a `SpillTask` and waits for the task's promise.
Whoever takes the task from the queue sets the promise: `do_transfer` of a `SpillWorker` and the remote branch of
`ShuffleWorker::handle_spill_task`, which both hand the buffer to another peer, or `progress_io` of a
`DirectSpillWorker`, which has written it to its file. The waiter dies if the value is not `total_size()`, which counts
the header; a peer dies if the number of bytes it was asked to read is not the length in the header it has read.

## The model

* A bulk call hands a region of the buffer to the peer, whose handler is the same code. Its buffer has old bytes behind
  what is read into it.
* `actual_size()` is computed in `size_t`.
* On full success a bulk read reads all it is asked for, a peer's own waiter gets the value it expects, and a write writes
  the whole payload.

## What is proved

* `handleSpillRequest_of_task` — a peer that is asked to read all of a task accepts it.
* `stage_agrees_iff` — a stage agrees with the waiter and with the peer exactly if it is not the remote branch of
  `handle_spill_task` and, if it is `progress_io`, the payload is not empty.
* `not_agrees_remote` — a buffer with seventeen bytes of payload: the remote branch asks the peer to read seventeen of its
  thirty-three bytes, and the peer dies; the value would be seventeen.
-/

namespace DShuffle.Spill.Completion

open Base

/-! ### The stages -/

/-- Why a process dies. -/
inductive Fault where
  /-- "Fail to bulk read". -/
  | bulkRead
  /-- "Fail to read partition buffer". -/
  | readCheck
  /-- "Fail to spill partition buffer". -/
  | spillCheck
  /-- "Fail to transfer buffer of partition". -/
  | transferCheck
  deriving DecidableEq

/-- `actual_size()`. -/
def actualSize (t : Task) : ℕ := (lengthOf t.buffer + (2 ^ 64 - headerSize)) % 2 ^ 64

/-- `bulk_read` of a region into a buffer: what the buffer holds then, and the number of bytes. -/
def bulkRead (stale region : Bytes) : Except Fault (Bytes × ℕ) :=
  if region.length = 0 then .error .bulkRead else .ok (region ++ stale.drop region.length, region.length)

/-- `handle_spill_request`, on a buffer that held `stale`; `spill` is the value of the promise for what was read. -/
def handleSpillRequest (spill : Bytes → ℤ) (stale region : Bytes) : Except Fault ℕ := do
  let (buf, nRead) ← bulkRead stale region
  if lengthOf buf ≠ nRead then throw .readCheck
  let nSpill := (spill buf % 2 ^ 64).toNat
  if nSpill ≠ lengthOf buf then throw .spillCheck
  return nRead

/-- Who may set the promise. -/
inductive Stage where
  /-- `SpillWorker::do_transfer`. -/
  | doTransfer
  /-- `DirectSpillWorker::progress_io`. -/
  | progressIo
  /-- The remote branch of `ShuffleWorker::handle_spill_task`. -/
  | handleSpillTask
  deriving DecidableEq

namespace Stage

/-- The region of the buffer that the peer is asked to read. -/
def region (t : Task) : Stage → Option Bytes
  | doTransfer => some (t.buffer.take (t.totalSize .direct))
  | progressIo => none
  | handleSpillTask => some (t.buffer.take (actualSize t))

/-- What the stage sets the promise to. `bulk` is the reply of the peer for a region, `res` the result of the write. -/
def finish (bulk : Bytes → Except Fault ℕ) (res : ℤ) (t : Task) : Stage → Except Fault ℤ
  | doTransfer => do
    let nBulk ← bulk (t.buffer.take (t.totalSize .direct))
    return nBulk
  | progressIo => .ok (fulfil .direct t res)
  | handleSpillTask => do
    let length := actualSize t
    let nBulk ← bulk (t.buffer.take length)
    if nBulk ≠ length then throw .transferCheck
    return length

end Stage

/-- **The stage agrees with the task's waiter, and with the peer.** -/
structure Agrees (t : Task) (stage : Stage) : Prop where
  /-- On full success the promise is set to what `handle_spill_request` compares with. -/
  value : stage.finish (fun region => .ok region.length) (t.payload .direct).length t = .ok (t.totalSize .direct : ℤ)
  /-- The peer is asked to read the whole buffer, -/
  asks : ∀ region, stage.region t = some region → region.length = t.totalSize .direct
  /-- and accepts it, whatever its own buffer held before. -/
  peer : ∀ region, stage.region t = some region → ∀ (spill : Bytes → ℤ) (stale : Bytes),
    (∀ buf, (spill buf % 2 ^ 64).toNat = lengthOf buf) → handleSpillRequest spill stale region = .ok region.length

/-! ### Which stages agree -/

theorem totalSize_direct (t : Task) : t.totalSize .direct = lengthOf t.buffer := rfl

theorem actualSize_eq (t : Task) : actualSize t = lengthOf t.buffer - headerSize := by
  have h₁ := t.header_le
  have h₂ := t.length_le
  have h₃ := t.inMemory
  have hsize : headerSize = 16 := rfl
  rw [actualSize]
  omega

/-- The header says how much of the buffer is read, if the header is read. -/
theorem lengthOf_take_append {buf rest : Bytes} {n : ℕ} (hn : headerSize ≤ n) (hle : n ≤ buf.length) :
    lengthOf (buf.take n ++ rest) = lengthOf buf := by
  have hsize : headerSize = 16 := rfl
  rw [lengthOf, slice_append_left (by rw [List.length_take]; omega), lengthOf]
  have hsplit : slice (buf.take n ++ buf.drop n) 8 8 = slice (buf.take n) 8 8 :=
    slice_append_left (by rw [List.length_take]; omega)
  rw [← hsplit, List.take_append_drop]

/-- **A peer that is asked to read all of a task accepts it.** -/
theorem handleSpillRequest_of_task (t : Task) {spill : Bytes → ℤ} (stale : Bytes)
    (hspill : ∀ buf, (spill buf % 2 ^ 64).toNat = lengthOf buf) :
    handleSpillRequest spill stale (t.buffer.take (t.totalSize .direct)) = .ok (t.totalSize .direct) := by
  have h₁ := t.header_le
  have h₂ := t.length_le
  have hsize : headerSize = 16 := rfl
  have hlen : (t.buffer.take (lengthOf t.buffer)).length = lengthOf t.buffer := by
    rw [List.length_take]
    omega
  have hheader : lengthOf (t.buffer.take (lengthOf t.buffer) ++ stale.drop (lengthOf t.buffer)) = lengthOf t.buffer :=
    lengthOf_take_append h₁ h₂
  rw [totalSize_direct, handleSpillRequest, bulkRead, hlen, if_neg (by omega)]
  simp only [bind, Except.bind, hheader, hspill]
  simp [pure, Except.pure]

theorem length_region (t : Task) {n : ℕ} (hn : n ≤ t.totalSize .direct) : (t.buffer.take n).length = n := by
  have hle := t.totalSize_le .direct
  rw [List.length_take]
  omega

theorem length_payload_direct (t : Task) : (t.payload .direct).length = t.totalSize .direct - headerSize := by
  have h₁ := t.header_le
  have h₂ := t.totalSize_le .direct
  rw [Task.payload, slice, List.length_take, List.length_drop]
  omega

theorem agrees_doTransfer (t : Task) : Agrees t .doTransfer := by
  refine ⟨?_, ?_, ?_⟩
  · show Except.ok (((t.buffer.take (t.totalSize .direct)).length : ℕ) : ℤ) = _
    rw [length_region t le_rfl]
  · rintro region ⟨⟩
    exact length_region t le_rfl
  · rintro region ⟨⟩ spill stale hspill
    rw [handleSpillRequest_of_task t stale hspill, length_region t le_rfl]

theorem agrees_progressIo_iff (t : Task) : Agrees t .progressIo ↔ headerSize < t.totalSize .direct := by
  have hpos : 0 < headerSize := by decide
  have hlen := length_payload_direct t
  constructor
  · intro h
    have hvalue := h.value
    by_contra hempty
    have hzero : (t.payload .direct).length = 0 := by omega
    have hval : Stage.finish (fun region => .ok region.length) (t.payload .direct).length t .progressIo = .ok 0 := by
      rw [hzero]
      rfl
    rw [hval] at hvalue
    have h₁ := t.headerSize_le_totalSize .direct
    injection hvalue with hvalue
    omega
  · intro h
    refine ⟨?_, ?_, ?_⟩
    · show Except.ok (fulfil .direct t (t.payload .direct).length) = _
      rw [fulfil, if_pos (by omega)]
    · rintro region ⟨⟩
    · rintro region ⟨⟩

theorem not_agrees_handleSpillTask (t : Task) : ¬ Agrees t .handleSpillTask := by
  intro h
  have hasks := h.asks _ rfl
  have hpos : 0 < headerSize := by decide
  have h₁ := t.headerSize_le_totalSize .direct
  have hactual := actualSize_eq t
  rw [← totalSize_direct] at hactual
  rw [length_region t (by omega)] at hasks
  omega

/-- **All ways of finishing a spill task.** For every task, a stage puts `total_size()` in the promise, asks its peer to
read all of the buffer and is accepted by the peer, exactly if it is not the remote branch of `handle_spill_task` and, if
it is `progress_io`, the payload is not empty. -/
theorem stage_agrees_iff (t : Task) (stage : Stage) :
    Agrees t stage ↔ stage ≠ .handleSpillTask ∧ (stage = .progressIo → headerSize < t.totalSize .direct) := by
  cases stage with
  | doTransfer => simp [agrees_doTransfer]
  | progressIo => simp [agrees_progressIo_iff]
  | handleSpillTask => simp [not_agrees_handleSpillTask]

/-- Seventeen bytes for partition 0. -/
def seventeen : Task := ⟨le 8 0 ++ (le 8 33 ++ List.replicate 17 7), by decide, by decide, by decide⟩

/-- **The remote branch asks for too little.** The peer reads seventeen of the thirty-three bytes that the header
announces, and dies; had it replied, the value would be seventeen. -/
theorem not_agrees_remote :
    seventeen.totalSize .direct = 33 ∧
      Stage.finish (fun region => .ok region.length) 17 seventeen .handleSpillTask = .ok 17 ∧
      Stage.finish (handleSpillRequest (fun buf => lengthOf buf) (List.replicate 64 0)) 17 seventeen .handleSpillTask =
        .error .readCheck ∧
      ¬ Agrees seventeen .handleSpillTask := by
  refine ⟨by decide, by decide, by decide, not_agrees_handleSpillTask seventeen⟩

/-- An empty payload. -/
def nothing : Task := ⟨le 8 0 ++ le 8 16, by decide, by decide, by decide⟩

/-- The result of its write is zero, and so is the value that `progress_io` sets. -/
example : nothing.totalSize .direct = 16 ∧
    Stage.finish (fun region => .ok region.length) (nothing.payload .direct).length nothing .progressIo = .ok 0 := by decide

end DShuffle.Spill.Completion
