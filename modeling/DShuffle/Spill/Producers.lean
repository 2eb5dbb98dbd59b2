import DShuffle.Base.Pool
import DShuffle.Base.Transition

/-!
# The producers and their pool

A producer serves bulk requests: in `handle_spill_request` it takes a buffer from a `SpillBufferPool`, reads the peer's
data into it, hands it to another stage and waits, and gives the buffer back. If the pool is empty it dies: "Too fast! No
buffer to use". Several `SpillWorker`s share one pool; a `BufferredHostSpillWorker` has its own.

## The model

* `serve_until` starts `queue_depth` fibers for each transport. The state has the fibers of all transports, one after the
  other; a fiber is in the loop or in the handler, at one of the two places where it waits.
* Requests come to any fiber that is in the loop, in any order. What a read and what the other stage gives is part of the
  action, and so is when.
* `die` ends the process.

## What is proved

* `Inv.step` — every buffer is in the pool or with one fiber.
* `buffer_for_every_request` — with as many buffers as fibers, no request finds the pool empty, and no buffer is with two.

## Honest scope

The calls of the pool are atomic: the servers call `enable_mt` on the pool that workers share, and the fibers of the one
transport of a `BufferredHostSpillWorker` do not yield in them. The queue to the other stage is left out: the promise may
be set at any time once the task was pushed.
-/

namespace DShuffle.Spill.Producers

open Base

/-! ### The pool -/

/-- `BufferPool`: the buffers that are free. -/
abbrev BufferPool := List ℕ

/-- `acquire_one`. -/
def BufferPool.acquireOne : BufferPool → Option (ℕ × BufferPool)
  | [] => none
  | buf :: q => some (buf, q)

/-- `release_one`. -/
def BufferPool.releaseOne (q : BufferPool) (buf : ℕ) : BufferPool := q ++ [buf]

/-! ### The handlers -/

/-- `MemoryRegion`. -/
structure MemoryRegion where
  /-- Where it starts. -/
  data : ℕ
  /-- How long it is. -/
  size : ℕ
  deriving DecidableEq

/-- Why a process dies. -/
inductive Death where
  /-- No buffer in the pool, with its text. -/
  | noBuffer (text : String)
  /-- "Fail to bulk read", with the number. -/
  | bulkRead (errno : ℤ)
  /-- "Fail to read partition buffer", with the two lengths. -/
  | read (expected got : ℕ)
  /-- "Fail to spill partition buffer", with the two lengths. -/
  | spill (expected got : ℕ)
  deriving DecidableEq

/-- The producers of a pool. -/
inductive Workers where
  /-- `SpillWorker`s that `run_as_producer`, each with its `queue_depth`. -/
  | spillWorkers (queueDepths : List ℕ)
  /-- One `BufferredHostSpillWorker`. -/
  | bufferredHost (queueDepth : ℕ)
  deriving DecidableEq

namespace Workers

/-- The queue depths of their transports. -/
def queueDepths : Workers → List ℕ
  | spillWorkers ds => ds
  | bufferredHost d => [d]

/-- The text for a request that finds no buffer. -/
def tooFast : Workers → String
  | spillWorkers _ => "Too fast! No buffer to use"
  | bufferredHost _ => "Too fast! No buffer to use!"

/-- The length that is named as the one it got, when a spill fails: a `SpillWorker` names `n_read`. -/
def spillGot (nRead nSpill : ℕ) : Workers → ℕ
  | spillWorkers _ => nRead
  | bufferredHost _ => nSpill

end Workers

/-- A fiber of `serve_until`. -/
inductive Fiber where
  /-- In the loop: no request. -/
  | serving
  /-- In the handler, in `bulk_read` of the region into its buffer. -/
  | reading (buf : ℕ) (rbuf : MemoryRegion)
  /-- In the handler, at the future of its task. -/
  | waiting (buf : ℕ) (nRead : ℕ)
  /-- Out of the loop. -/
  | stopped
  deriving DecidableEq

/-- The buffer that the fiber has. -/
def Fiber.buffer : Fiber → Option ℕ
  | serving => none
  | reading buf _ => some buf
  | waiting buf _ => some buf
  | stopped => none

/-- A process. -/
structure St where
  /-- The pool. -/
  q : BufferPool
  /-- The fibers of all transports. -/
  fibers : List Fiber
  /-- `header->length` in each buffer. -/
  length : ℕ → ℕ
  /-- Why it died, if it did. -/
  dead : Option Death

/-- What happens next. -/
inductive Act where
  /-- A bulk request comes to a fiber. -/
  | request (i : ℕ) (rbuf : MemoryRegion)
  /-- The read of a fiber ends with a result; the buffer has a header with a length now. -/
  | read (i : ℕ) (length : ℕ) (res : ℤ)
  /-- The other stage sets the promise of a fiber's task. -/
  | complete (i : ℕ) (value : ℤ)
  /-- A fiber leaves the loop. -/
  | stop (i : ℕ)
  deriving DecidableEq

variable (w : Workers)

/-- `handle_spill_request`, up to the read. -/
def request (s : St) (i : ℕ) (rbuf : MemoryRegion) : St :=
  match s.q.acquireOne with
  | none => { s with dead := some (.noBuffer w.tooFast) }
  | some (buf, q) => { s with q := q, fibers := s.fibers.set i (.reading buf rbuf) }

/-- `handle_spill_request`, from the read to the future of the task. -/
def read (s : St) (i buf length : ℕ) (res : ℤ) : St :=
  let s := { s with length := Function.update s.length buf length }
  if res ≤ 0 then { s with dead := some (.bulkRead (-res)) }
  else if length ≠ res.toNat then { s with dead := some (.read length res.toNat) }
  else { s with fibers := s.fibers.set i (.waiting buf res.toNat) }

/-- `handle_spill_request`, from the future to the end. The value is a `ssize_t` that becomes a `size_t`. -/
def complete (s : St) (i buf nRead : ℕ) (value : ℤ) : St :=
  let nSpill := (value % 2 ^ 64).toNat
  if nSpill ≠ s.length buf then { s with dead := some (.spill (s.length buf) (w.spillGot nRead nSpill)) }
  else { s with q := s.q.releaseOne buf, fibers := s.fibers.set i .serving }

/-- One step. -/
def step (s : St) (act : Act) : Option St :=
  match s.dead, act with
  | some _, _ => none
  | none, .request i rbuf =>
    match s.fibers[i]? with
    | some .serving => some (request w s i rbuf)
    | _ => none
  | none, .read i length res =>
    match s.fibers[i]? with
    | some (.reading buf _) => some (read s i buf length res)
    | _ => none
  | none, .complete i value =>
    match s.fibers[i]? with
    | some (.waiting buf nRead) => some (complete w s i buf nRead value)
    | _ => none
  | none, .stop i =>
    match s.fibers[i]? with
    | some .serving => some { s with fibers := s.fibers.set i .stopped }
    | _ => none

/-- All fibers are in the loop, and all buffers in the pool. -/
def start (nBuffer : ℕ) : St :=
  { q := List.range nBuffer
    fibers := w.queueDepths.flatMap fun d => List.replicate d .serving
    length := fun _ => 0
    dead := none }

variable {w} {s s' : St} {nBuffer : ℕ}

/-! ### Every buffer is somewhere -/

theorem set_same {α : Type} {l : List α} {i : ℕ} {a : α} (h : l[i]? = some a) : l.set i a = l := by
  obtain ⟨hlt, rfl⟩ := List.getElem?_eq_some_iff.mp h
  exact List.set_getElem_self hlt

/-- The pool and the buffers that the fibers have. -/
def St.pool (s : St) : Pool ℕ := ⟨s.q, s.fibers.map Fiber.buffer⟩

/-- In every state: every buffer is in the pool or with one fiber, there is one for every fiber, and the process did not
die of an empty pool. -/
structure Inv (nBuffer : ℕ) (s : St) : Prop where
  conserves : s.pool.Conserves (List.range nBuffer)
  enough : s.fibers.length ≤ nBuffer
  alive : ∀ text, s.dead ≠ some (.noBuffer text)

theorem getElem?_pool {i : ℕ} {f : Fiber} (h : s.fibers[i]? = some f) : s.pool.held[i]? = some f.buffer := by
  rw [St.pool, List.getElem?_map, h]
  rfl

theorem Inv.exists_buffer (h : Inv nBuffer s) {i : ℕ} {f : Fiber} (hf : s.fibers[i]? = some f) (hnone : f.buffer = none) :
    ∃ buf rest, s.q = buf :: rest := by
  have hi := getElem?_pool hf
  rw [hnone] at hi
  refine h.conserves.exists_free ?_ hi
  rw [List.length_range, St.pool, List.length_map]
  exact h.enough

/-- A fiber that keeps its buffer, or stays without one. -/
theorem Inv.keep (h : Inv nBuffer s) {i : ℕ} {f : Fiber} (f' : Fiber) (hf : s.fibers[i]? = some f) (hb : f'.buffer = f.buffer)
    (hq : s'.q = s.q) (hfibers : s'.fibers = s.fibers.set i f') (halive : ∀ text, s'.dead ≠ some (.noBuffer text)) :
    Inv nBuffer s' := by
  have hheld : s'.fibers.map Fiber.buffer = s.fibers.map Fiber.buffer := by
    rw [hfibers, List.map_set, hb]
    exact set_same (getElem?_pool hf)
  refine ⟨?_, ?_, halive⟩
  · rw [St.pool, hq, hheld]
    exact h.conserves
  · rw [hfibers, List.length_set]
    exact h.enough

theorem Inv.request (h : Inv nBuffer s) {i : ℕ} (rbuf : MemoryRegion) (hf : s.fibers[i]? = some .serving)
    (hdead : s.dead = none) : Inv nBuffer (request w s i rbuf) := by
  obtain ⟨buf, rest, hq⟩ := h.exists_buffer hf rfl
  rw [Producers.request, hq]
  refine ⟨?_, ?_, ?_⟩
  · have hheld : (s.fibers.set i (.reading buf rbuf)).map Fiber.buffer = s.pool.held.set i (some buf) := List.map_set
    rw [St.pool, BufferPool.acquireOne]
    dsimp only
    rw [hheld]
    exact h.conserves.take (getElem?_pool hf) hq
  · show (s.fibers.set i (.reading buf rbuf)).length ≤ nBuffer
    rw [List.length_set]
    exact h.enough
  · intro text
    simp [BufferPool.acquireOne, hdead]

theorem Inv.read (h : Inv nBuffer s) {i buf : ℕ} {rbuf : MemoryRegion} (length : ℕ) (res : ℤ)
    (hf : s.fibers[i]? = some (.reading buf rbuf)) (hdead : s.dead = none) :
    Inv nBuffer (Producers.read s i buf length res) := by
  have hsame : s.fibers.set i (.reading buf rbuf) = s.fibers := set_same hf
  unfold Producers.read
  split_ifs
  · exact h.keep _ hf rfl rfl hsame.symm (by simp)
  · exact h.keep _ hf rfl rfl hsame.symm (by simp)
  · exact h.keep (.waiting buf res.toNat) hf rfl rfl rfl (by simp [hdead])

theorem Inv.complete (h : Inv nBuffer s) {i buf nRead : ℕ} (value : ℤ) (hf : s.fibers[i]? = some (.waiting buf nRead))
    (hdead : s.dead = none) : Inv nBuffer (Producers.complete w s i buf nRead value) := by
  have hsame : s.fibers.set i (.waiting buf nRead) = s.fibers := set_same hf
  unfold Producers.complete
  dsimp only
  split_ifs
  · exact h.keep _ hf rfl rfl hsame.symm (by simp)
  · refine ⟨?_, ?_, by simp [hdead]⟩
    · have hheld : (s.fibers.set i .serving).map Fiber.buffer = s.pool.held.set i none := List.map_set
      rw [St.pool]
      dsimp only
      rw [hheld]
      exact h.conserves.put (getElem?_pool hf)
    · show (s.fibers.set i .serving).length ≤ nBuffer
      rw [List.length_set]
      exact h.enough

/-- **Every step keeps every buffer in its place.** -/
theorem Inv.step (h : Inv nBuffer s) {act : Act} (hs : step w s act = some s') : Inv nBuffer s' := by
  unfold Producers.step at hs
  split at hs
  · cases hs
  · rename_i i rbuf hdead
    split at hs
    · rename_i hf
      cases hs
      exact h.request rbuf hf hdead
    · cases hs
  · rename_i i length res hdead
    split at hs
    · rename_i buf rbuf hf
      cases hs
      exact h.read length res hf hdead
    · cases hs
  · rename_i i value hdead
    split at hs
    · rename_i buf nRead hf
      cases hs
      exact h.complete value hf hdead
    · cases hs
  · rename_i i hdead
    split at hs
    · rename_i hf
      cases hs
      exact h.keep .stopped hf rfl rfl rfl h.alive
    · cases hs

theorem length_start (w : Workers) (nBuffer : ℕ) : (start w nBuffer).fibers.length = w.queueDepths.sum := by
  simp [start, List.length_flatMap]

theorem inv_start (h : w.queueDepths.sum ≤ nBuffer) : Inv nBuffer (start w nBuffer) := by
  refine ⟨?_, by rw [length_start]; exact h, by simp [start]⟩
  have hheld : (start w nBuffer).fibers.map Fiber.buffer = List.replicate w.queueDepths.sum none := by
    refine List.eq_replicate_iff.mpr ⟨by rw [List.length_map, length_start], fun o ho => ?_⟩
    obtain ⟨f, hf, rfl⟩ := List.mem_map.mp ho
    obtain ⟨d, -, hd⟩ := List.mem_flatMap.mp hf
    rw [List.eq_of_mem_replicate hd]
    rfl
  rw [St.pool, hheld]
  exact Pool.conserves_new _ _

/-- **The death "Too fast! No buffer to use" is unreachable.** If the pool has as many buffers as the sum of the queue
depths, then after every run the process has not died of an empty pool, a fiber that gets a request finds a buffer, which
is with no fiber, and no two fibers have one buffer. -/
theorem buffer_for_every_request (w : Workers) {nBuffer : ℕ} (h : w.queueDepths.sum ≤ nBuffer) {acts : List Act} {s : St}
    (hr : run (step w) (start w nBuffer) acts = some s) :
    (∀ text, s.dead ≠ some (.noBuffer text)) ∧
      (∀ i : ℕ, s.fibers[i]? = some .serving → ∃ buf q, s.q.acquireOne = some (buf, q) ∧ ∀ f ∈ s.fibers, f.buffer ≠ some buf) ∧
      ∀ (i j : ℕ) f g buf, s.fibers[i]? = some f → s.fibers[j]? = some g → f.buffer = some buf → g.buffer = some buf → i = j := by
  have hinv : Inv nBuffer s := inv_of_run (fun _ _ _ hi hs => Inv.step hi hs) (inv_start h) hr
  refine ⟨hinv.alive, ?_, ?_⟩
  · intro i hi
    obtain ⟨buf, rest, hq⟩ := hinv.exists_buffer hi rfl
    refine ⟨buf, rest, by rw [hq]; rfl, fun f hf hbuf => ?_⟩
    have hfree : buf ∈ s.pool.free := by
      show buf ∈ s.q
      rw [hq]
      exact List.mem_cons_self
    refine hinv.conserves.not_held List.nodup_range hfree ?_
    rw [← hbuf]
    exact List.mem_map_of_mem hf
  · intro i j f g buf hi hj hf hg
    have hi' := getElem?_pool hi
    have hj' := getElem?_pool hj
    rw [hf] at hi'
    rw [hg] at hj'
    exact hinv.conserves.held_inj List.nodup_range hi' hj'

/-- Two workers with one fiber each. -/
def two : Workers := .spillWorkers [1, 1]

/-- Both read; the first is done, and gets the next request while the other still waits. -/
def twoRequests : List Act :=
  [.request 0 ⟨64, 20⟩, .request 1 ⟨0, 16⟩, .read 1 16 16, .read 0 20 20, .complete 0 20, .request 0 ⟨64, 20⟩]

theorem buffer_for_every_request_two :
    ∃ s, run (step two) (start two 3) twoRequests = some s ∧ s.fibers = [.reading 2 ⟨64, 20⟩, .waiting 1 16] ∧
      ∀ text, s.dead ≠ some (.noBuffer text) := by
  have hrun : run (step two) (start two 3) twoRequests = some _ := rfl
  exact ⟨_, hrun, by decide, (buffer_for_every_request two (by decide) hrun).1⟩

/-- With a buffer less than fibers, the second request finds none. -/
example : (run (step two) (start two 1) [.request 0 ⟨64, 20⟩, .request 1 ⟨0, 16⟩]).map (·.dead) =
    some (some (.noBuffer "Too fast! No buffer to use")) := by decide

end DShuffle.Spill.Producers
