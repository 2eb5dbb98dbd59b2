import DShuffle.Spill.Files
import Mathlib.Data.List.Nodup

/-!
# The spill agent

`SpillAgent` collects the records of every partition in a buffer of a pool. When a
record does not fit any more, or when a spill is forced, the buffer is submitted to
a shared queue and a new one is acquired. Worker threads take the whole queue at
once, transfer the buffers to the DPU, and give them back to the pool.

## The model

* One machine, whose actions are the steps of the calls and of the workers. A call
  runs under the lock of its partition; it may have to wait for a buffer, so it has
  two steps: up to the acquisition (`append`, `force`), and the acquisition. In
  between the partition is locked.
* A submission has a serial number. `toSend` and `waiting` are a worker's buffers
  whose transfers are not posted, and not known to be done.
* What was submitted, taken, transferred and released is logged.

## What is proved

* `step_acquire`, `step_take`, `step_send`, `step_complete` — what the steps do.
* `Acc` — the accounts: every submission is taken once or queued, and what a worker
  took it transfers once and releases once, in order. Every step keeps them.

## Honest scope

A transfer that fails ends the process in the source; it is no step here. Calls are
made before the agent is destroyed. The entry of `active_buffers` that a call has
submitted is stale until the acquisition; the lock is held, and nothing reads it.
-/

namespace DShuffle.Spill.Agent

open Base

/-- A record: what one call appends. -/
structure Record where
  /-- The serialized key. -/
  key : Bytes
  /-- The serialized value. -/
  value : Bytes
  deriving DecidableEq

/-- The bytes of a record. -/
def Record.bytes (r : Record) : Bytes := r.key ++ r.value

/-- A `PartitionBuffer`: its header, its payload, and the records that were appended to it. -/
structure Buffer where
  /-- `partition_id`. -/
  partitionId : ℕ
  /-- What follows the header. -/
  payload : Bytes
  /-- The records. -/
  records : List Record
  deriving DecidableEq

namespace Buffer

/-- The constructor that resets the header. -/
def new (partitionId : ℕ) : Buffer := ⟨partitionId, [], []⟩

/-- `total_size()`, which is `length` in the header. -/
def totalSize (b : Buffer) : ℕ := headerSize + b.payload.length

/-- `append(key)` and `append(value)`. -/
def append (b : Buffer) (r : Record) : Buffer :=
  { b with payload := b.payload ++ r.key ++ r.value, records := b.records ++ [r] }

/-- `need_spill`. -/
def needSpill (b : Buffer) (bufferSize expectedSize : ℕ) : Bool := bufferSize < b.totalSize + expectedSize

end Buffer

/-- The parameters of the agent. -/
structure Config where
  /-- The number of workers. -/
  nWorker : ℕ
  /-- The number of buffers. -/
  nBuffer : ℕ
  /-- The size of a buffer. -/
  bufferSize : ℕ
  /-- A buffer has room for its header. -/
  header_le : headerSize ≤ bufferSize

/-- A buffer that was submitted: which, for which partition, and what it held. -/
structure Submission where
  /-- The pool buffer. -/
  buffer : ℕ
  /-- The partition of the call. -/
  partition : ℕ
  /-- What the buffer held. -/
  content : Buffer
  deriving DecidableEq

/-- A transfer that was posted. -/
structure Transfer where
  /-- The worker. -/
  worker : ℕ
  /-- The submission. -/
  serial : ℕ
  /-- The number of bytes. -/
  size : ℕ
  deriving DecidableEq

/-- Who transferred what. -/
def Transfer.key (t : Transfer) : ℕ × ℕ := (t.worker, t.serial)

/-- The state of the agent. -/
structure St where
  /-- The free list of the pool. -/
  pool : List ℕ
  /-- What the pool buffers hold. -/
  buf : ℕ → Buffer
  /-- `active_buffers`. -/
  active : ℕ → Option ℕ
  /-- The partition is locked by a call that waits for a buffer, for its record if it has one. -/
  pending : ℕ → Option (Option Record)
  /-- `spill_q`. -/
  spillQ : List ℕ
  /-- What a worker has taken and not posted. -/
  toSend : ℕ → List ℕ
  /-- What a worker has posted and not released. -/
  waiting : ℕ → List ℕ
  /-- The worker has stopped. -/
  exited : ℕ → Bool
  /-- `running`. -/
  running : Bool
  /-- All submissions. -/
  subs : List Submission
  /-- Which worker took which submission. -/
  takes : List (ℕ × ℕ)
  /-- All transfers. -/
  transfers : List Transfer
  /-- Which worker released which submission. -/
  releases : List (ℕ × ℕ)
  /-- The records of the calls on a partition, in the order of its lock. -/
  calls : ℕ → List Record

/-- The steps. -/
inductive Act where
  /-- `append_or_spill`, up to the acquisition of a buffer if it needs one. -/
  | append (p : ℕ) (r : Record)
  /-- `force_spill`, up to the acquisition of a buffer. -/
  | force (p : ℕ)
  /-- The call on the partition gets a buffer and returns. -/
  | acquire (p : ℕ)
  /-- Worker `w` takes the queue. -/
  | take (w : ℕ)
  /-- Worker `w` posts a transfer. -/
  | send (w : ℕ)
  /-- The next transfer of worker `w` is done, with a size. -/
  | complete (w size : ℕ)
  /-- The destructor clears `running`. -/
  | shutdown
  /-- Worker `w` stops. -/
  | exit (w : ℕ)

/-- `submit_spill_buffer`, by a call on partition `p`. -/
def St.submit (s : St) (p b : ℕ) : St :=
  { s with
    spillQ := s.spillQ ++ [s.subs.length], subs := s.subs ++ [⟨b, p, s.buf b⟩]
    active := Function.update s.active p none }

/-- `append_or_spill`, up to the acquisition. -/
def St.appendOrSpill (cfg : Config) (s : St) (p : ℕ) (r : Record) : St :=
  match s.active p with
  | none => { s with pending := Function.update s.pending p (some (some r)) }
  | some b =>
    if (s.buf b).needSpill cfg.bufferSize (r.key.length + r.value.length) then
      { s.submit p b with pending := Function.update s.pending p (some (some r)) }
    else { s with buf := Function.update s.buf b ((s.buf b).append r) }

/-- `force_spill`, up to the acquisition. -/
def St.forceSpill (s : St) (p : ℕ) : St :=
  match s.active p with
  | none => s
  | some b => { s.submit p b with pending := Function.update s.pending p (some none) }

/-- A call on the partition can take its lock. -/
def St.callable (s : St) (p : ℕ) : Bool := s.running && (s.pending p).isNone

/-- A worker is at the top of its loop. -/
def St.atTop (cfg : Config) (s : St) (w : ℕ) : Bool :=
  decide (w < cfg.nWorker) && !s.exited w && (s.toSend w).isEmpty && (s.waiting w).isEmpty

/-- What a call puts into the buffer it acquires. -/
def fill (p : ℕ) : Option Record → Buffer
  | none => .new p
  | some r => (Buffer.new p).append r

/-- The call on partition `p` gets buffer `b`; `rest` stays in the pool. -/
def St.acquired (s : St) (p : ℕ) (ro : Option Record) (b : ℕ) (rest : List ℕ) : St :=
  { s with
    pool := rest, buf := Function.update s.buf b (fill p ro), active := Function.update s.active p (some b)
    pending := Function.update s.pending p none }

/-- Worker `w` has swapped the queue for its empty vector. -/
def St.swapped (s : St) (w : ℕ) : St :=
  { s with
    spillQ := [], toSend := Function.update s.toSend w s.spillQ, takes := s.takes ++ s.spillQ.map fun k => (w, k) }

/-- Worker `w` has posted the transfer of submission `k`, in buffer `b`; `ks` are to be posted. -/
def St.sent (s : St) (w k b : ℕ) (ks : List ℕ) : St :=
  { s with
    toSend := Function.update s.toSend w ks, waiting := Function.update s.waiting w (s.waiting w ++ [k])
    transfers := s.transfers ++ [⟨w, k, (s.buf b).totalSize⟩] }

/-- Worker `w` has released buffer `b` of submission `k`; it waits for `ks`. -/
def St.freed (s : St) (w k b : ℕ) (ks : List ℕ) : St :=
  { s with waiting := Function.update s.waiting w ks, pool := s.pool ++ [b], releases := s.releases ++ [(w, k)] }

/-- A step of the agent. -/
def step (cfg : Config) (s : St) : Act → Option St
  | .append p r =>
    if s.callable p then
      some { s.appendOrSpill cfg p r with calls := Function.update s.calls p (s.calls p ++ [r]) }
    else none
  | .force p => if s.callable p then some (s.forceSpill p) else none
  | .acquire p =>
    match s.pending p, s.pool with
    | some ro, b :: rest => some (s.acquired p ro b rest)
    | _, _ => none
  | .take w => if s.atTop cfg w && !s.spillQ.isEmpty then some (s.swapped w) else none
  | .send w =>
    match s.toSend w with
    | k :: ks => (s.subs[k]?).map fun sub => s.sent w k sub.buffer ks
    | [] => none
  | .complete w size =>
    match s.toSend w, s.waiting w with
    | [], k :: ks =>
      match s.subs[k]? with
      | some sub => if size = (s.buf sub.buffer).totalSize then some (s.freed w k sub.buffer ks) else none
      | none => none
    | _, _ => none
  | .shutdown => some { s with running := false }
  | .exit w =>
    if s.atTop cfg w && !s.running && s.spillQ.isEmpty then some { s with exited := Function.update s.exited w true }
    else none

/-- The start: all buffers are free. -/
def init (cfg : Config) : St :=
  { pool := List.range cfg.nBuffer, buf := fun _ => .new 0, active := fun _ => none, pending := fun _ => none, spillQ := []
    toSend := fun _ => [], waiting := fun _ => [], exited := fun _ => false, running := true, subs := [], takes := []
    transfers := [], releases := [], calls := fun _ => [] }

/-! ### What a step does -/

section
variable {cfg : Config} {s s' : St} {p w size : ℕ}

theorem step_acquire (hs : step cfg s (.acquire p) = some s') :
    ∃ ro b rest, s.pending p = some ro ∧ s.pool = b :: rest ∧ s' = s.acquired p ro b rest := by
  simp only [step] at hs
  split at hs
  · rename_i ro b rest hpend hpool
    cases hs
    exact ⟨ro, b, rest, hpend, hpool, rfl⟩
  · cases hs

theorem step_take (hs : step cfg s (.take w) = some s') : s.toSend w = [] ∧ s.waiting w = [] ∧ s' = s.swapped w := by
  simp only [step] at hs
  split_ifs at hs with hcond
  cases hs
  simp only [St.atTop, Bool.and_eq_true, List.isEmpty_iff] at hcond
  exact ⟨hcond.1.1.2, hcond.1.2, rfl⟩

theorem step_send (hs : step cfg s (.send w) = some s') :
    ∃ k ks sub, s.toSend w = k :: ks ∧ s.subs[k]? = some sub ∧ s' = s.sent w k sub.buffer ks := by
  simp only [step] at hs
  split at hs
  · rename_i k ks hsend
    obtain ⟨sub, hsub, rfl⟩ := Option.map_eq_some_iff.mp hs
    exact ⟨k, ks, sub, hsend, hsub, rfl⟩
  · cases hs

theorem step_complete (hs : step cfg s (.complete w size) = some s') :
    ∃ k ks sub, s.toSend w = [] ∧ s.waiting w = k :: ks ∧ s.subs[k]? = some sub ∧
      s' = s.freed w k sub.buffer ks := by
  simp only [step] at hs
  split at hs
  · rename_i k ks hsend hwait
    split at hs
    · rename_i sub hsub
      split_ifs at hs
      cases hs
      exact ⟨k, ks, sub, hsend, hwait, hsub, rfl⟩
    · cases hs
  · cases hs

end

/-! ### The serial numbers -/

/-- What a worker did, of a log. -/
def ofWorker (log : List (ℕ × ℕ)) (w : ℕ) : List ℕ := (log.filter fun x => x.1 = w).map Prod.snd

theorem ofWorker_append (as bs : List (ℕ × ℕ)) (w : ℕ) : ofWorker (as ++ bs) w = ofWorker as w ++ ofWorker bs w := by
  rw [ofWorker, List.filter_append, List.map_append]
  rfl

theorem ofWorker_map_self (ks : List ℕ) (w : ℕ) : ofWorker (ks.map fun k => (w, k)) w = ks := by
  simp [ofWorker, List.filter_map, Function.comp_def]

theorem ofWorker_map_of_ne (ks : List ℕ) {w w' : ℕ} (h : w' ≠ w) : ofWorker (ks.map fun k => (w, k)) w' = [] := by
  simp [ofWorker, List.filter_map, Function.comp_def, h.symm]

theorem mem_ofWorker {log : List (ℕ × ℕ)} {w k : ℕ} : k ∈ ofWorker log w ↔ (w, k) ∈ log := by
  simp only [ofWorker, List.mem_map, List.mem_filter, decide_eq_true_eq]
  constructor
  · rintro ⟨⟨w', k'⟩, ⟨hmem, rfl⟩, rfl⟩
    exact hmem
  · intro hmem
    exact ⟨(w, k), ⟨hmem, rfl⟩, rfl⟩

/-- **The accounts**: every submission is queued or taken, what a worker took it has posted or will post, and what it
posted it has released or waits for. -/
structure Acc (s : St) : Prop where
  /-- The submissions are taken, or queued, in order. -/
  taken : s.takes.map Prod.snd ++ s.spillQ = List.range s.subs.length
  /-- What was taken is posted, or will be, in order. -/
  posted : ∀ w, ofWorker s.takes w = ofWorker (s.transfers.map Transfer.key) w ++ s.toSend w
  /-- What was posted is released, or will be, in order. -/
  released : ∀ w, ofWorker (s.transfers.map Transfer.key) w = ofWorker s.releases w ++ s.waiting w

namespace Acc

variable {cfg : Config} {s s' : St} {w k p b : ℕ}

theorem nodup (h : Acc s) : (s.takes.map Prod.snd ++ s.spillQ).Nodup := by
  rw [h.taken]
  exact List.nodup_range

theorem lt_of_queued (h : Acc s) (hk : k ∈ s.spillQ) : k < s.subs.length := by
  have hmem : k ∈ List.range s.subs.length := h.taken ▸ List.mem_append_right _ hk
  exact List.mem_range.mp hmem

theorem lt_of_taken (h : Acc s) (hk : (w, k) ∈ s.takes) : k < s.subs.length := by
  have hmem : k ∈ List.range s.subs.length := h.taken ▸ List.mem_append_left _ (List.mem_map_of_mem hk)
  exact List.mem_range.mp hmem

/-- What a worker has, it took. -/
theorem taken_of_mem (h : Acc s) (hk : k ∈ s.toSend w ∨ k ∈ s.waiting w) : (w, k) ∈ s.takes := by
  rw [← mem_ofWorker, h.posted w, h.released w]
  rcases hk with hk | hk
  · exact List.mem_append_right _ hk
  · exact List.mem_append_left _ (List.mem_append_right _ hk)

/-- A worker has each of its submissions once. -/
theorem worker_nodup (h : Acc s) (w : ℕ) : (ofWorker s.releases w ++ s.waiting w ++ s.toSend w).Nodup := by
  rw [← h.released, ← h.posted]
  have hsub : (ofWorker s.takes w).Sublist (s.takes.map Prod.snd) := List.Sublist.map _ List.filter_sublist
  exact hsub.nodup (List.Nodup.of_append_left h.nodup)

theorem init (cfg : Config) : Acc (Agent.init cfg) := ⟨rfl, fun _ => rfl, fun _ => rfl⟩

/-- The accounts depend on the logs and the queues. -/
theorem congr (h : Acc s) (h₁ : s'.spillQ = s.spillQ) (h₂ : s'.toSend = s.toSend) (h₃ : s'.waiting = s.waiting)
    (h₄ : s'.subs = s.subs) (h₅ : s'.takes = s.takes) (h₆ : s'.transfers = s.transfers) (h₇ : s'.releases = s.releases) :
    Acc s' := by
  refine ⟨?_, fun w => ?_, fun w => ?_⟩
  · rw [h₅, h₁, h₄]
    exact h.taken
  · rw [h₅, h₆, h₂]
    exact h.posted w
  · rw [h₆, h₇, h₃]
    exact h.released w

theorem submit (h : Acc s) (p b : ℕ) : Acc (s.submit p b) := by
  refine ⟨?_, h.posted, h.released⟩
  show s.takes.map Prod.snd ++ (s.spillQ ++ [s.subs.length]) = List.range (s.subs ++ [_]).length
  rw [← List.append_assoc, h.taken, List.length_append, List.length_singleton, List.range_succ]

theorem swapped (h : Acc s) (hsend : s.toSend w = []) : Acc (s.swapped w) := by
  refine ⟨?_, fun x => ?_, h.released⟩
  · rw [show (s.swapped w).subs = s.subs from rfl, ← h.taken]
    simp [St.swapped, Function.comp_def]
  · show ofWorker (s.takes ++ s.spillQ.map fun k => (w, k)) x = _ ++ Function.update s.toSend w s.spillQ x
    rw [ofWorker_append, h.posted x]
    by_cases hx : x = w
    · subst hx
      rw [ofWorker_map_self, Function.update_self, hsend, List.append_nil]
      rfl
    · rw [ofWorker_map_of_ne _ hx, Function.update_of_ne hx, List.append_nil]
      rfl

theorem sent {ks : List ℕ} (h : Acc s) (hsend : s.toSend w = k :: ks) : Acc (s.sent w k b ks) := by
  have hkey : ∀ x, ofWorker ((s.sent w k b ks).transfers.map Transfer.key) x =
      ofWorker (s.transfers.map Transfer.key) x ++ ofWorker ([k].map fun k => (w, k)) x := by
    intro x
    rw [← ofWorker_append, St.sent, List.map_append]
    rfl
  refine ⟨h.taken, fun x => ?_, fun x => ?_⟩
  · show ofWorker s.takes x = _ ++ Function.update s.toSend w ks x
    rw [hkey, h.posted x]
    by_cases hx : x = w
    · subst hx
      rw [ofWorker_map_self, Function.update_self, hsend, List.append_assoc]
      rfl
    · rw [ofWorker_map_of_ne _ hx, Function.update_of_ne hx, List.append_nil]
  · show _ = ofWorker s.releases x ++ Function.update s.waiting w (s.waiting w ++ [k]) x
    rw [hkey, h.released x]
    by_cases hx : x = w
    · subst hx
      rw [ofWorker_map_self, Function.update_self, List.append_assoc]
    · rw [ofWorker_map_of_ne _ hx, Function.update_of_ne hx, List.append_nil]

theorem freed {ks : List ℕ} (h : Acc s) (hwait : s.waiting w = k :: ks) : Acc (s.freed w k b ks) := by
  refine ⟨h.taken, h.posted, fun x => ?_⟩
  show _ = ofWorker (s.releases ++ [k].map fun k => (w, k)) x ++ Function.update s.waiting w ks x
  rw [ofWorker_append]
  refine (h.released x).trans ?_
  by_cases hx : x = w
  · subst hx
    rw [ofWorker_map_self, Function.update_self, hwait, List.append_assoc]
    rfl
  · rw [ofWorker_map_of_ne _ hx, Function.update_of_ne hx, List.append_nil]

end Acc

end DShuffle.Spill.Agent
