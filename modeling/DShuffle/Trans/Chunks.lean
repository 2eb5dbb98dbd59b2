import DShuffle.Base.Extents
import DShuffle.Trans.Bulk

/-!
# The chunks of a bulk operation

`Endpoint::post` of comch makes a DMA task for every `max_bulk_task_size` bytes of the operation, from the local buffer to
the remote one for a write and the other way for a read. All tasks have the context of the operation.

## The model

* `postTasks` is the loop of `post` over the addresses of both buffers; `postTasks_eq` says that its tasks are the chunks
  of `Bulk`, and `size_t_loop_eq` that the same offsets come out in `size_t`, as a buffer is not longer than `2 ^ 63`.
* The callbacks are those of `Bulk`, and every task succeeds.

## What is proved

* `tiles_chunksFrom` — the chunks lie one behind the other.
* `counted_of_perm` — in any order of the tasks `tx_size` reaches the length with the last task and not before, and
  `op_res` is set by it, once, if there is a task.
* `exact_iff` — the chunking is exact but for the length zero.
* `not_exact_zero` — then there is no task, and `op_res` is never set.
-/

namespace DShuffle.Trans

open Base

/-- `Op`. -/
inductive Op where
  /-- `Op::Write`. -/
  | write
  /-- `Op::Read`. -/
  | read
  deriving DecidableEq

/-- A memcpy task. -/
structure Memcpy where
  /-- The buffer that it reads. -/
  src : Extent
  /-- The buffer that it writes. -/
  dst : Extent
  /-- The data length of the first. -/
  dataLen : ℕ
  deriving DecidableEq

namespace Memcpy

/-- The task for a local and a remote buffer. -/
def ofBuffers (op : Op) (localBuf remoteBuf : Extent) (len : ℕ) : Memcpy :=
  match op with
  | .write => ⟨localBuf, remoteBuf, len⟩
  | .read => ⟨remoteBuf, localBuf, len⟩

/-- Its buffer on the local side. -/
def localBuf (op : Op) (t : Memcpy) : Extent :=
  match op with
  | .write => t.src
  | .read => t.dst

/-- Its buffer on the remote side. -/
def remoteBuf (op : Op) (t : Memcpy) : Extent :=
  match op with
  | .write => t.dst
  | .read => t.src

/-- What `task_cb` sees of it. -/
def chunk (t : Memcpy) : Chunk := ⟨t.src.off, t.dataLen⟩

end Memcpy

/-- The loop of `post`, from the offset on: `lAddr` and `rAddr` are where the buffers start. -/
def postTasks (e : Endpoint) (op : Op) (lAddr rAddr len : ℕ) : (fuel off : ℕ) → List Memcpy
  | 0, _ => []
  | fuel + 1, off =>
    if off < len then
      let n := min e.maxBulkTaskSize (len - off)
      .ofBuffers op ⟨lAddr + off, n⟩ ⟨rAddr + off, n⟩ n :: postTasks e op lAddr rAddr len fuel (off + e.maxBulkTaskSize)
    else []

/-- The tasks of an operation. -/
def tasksOf (e : Endpoint) (op : Op) (lAddr rAddr len : ℕ) : List Memcpy := postTasks e op lAddr rAddr len len 0

/-! ### What is asked for -/

/-- The callbacks of tasks that succeed, in order. -/
def succeedAll (ctx : BulkContext) (tasks : List Memcpy) : Option BulkContext :=
  completeAll ctx (tasks.map fun t => (t.chunk, .success))

/-- Until the last of the tasks is complete, fewer bytes are counted than the operation has, and `op_res` is not set; the
last one sets it to the length. -/
structure Counted (len : ℕ) (order : List Memcpy) : Prop where
  /-- Before the last. -/
  before : ∀ front back, order = front ++ back → back ≠ [] →
    ∃ ctx, succeedAll (.new len) front = some ctx ∧ ctx.txSize < len ∧ ctx.opRes = none
  /-- In the end. -/
  last : ∃ ctx, succeedAll (.new len) order = some ctx ∧ ctx.txSize = len ∧ ctx.opRes = some (len : ℤ)

/-- The buffers on one side: they fill the operation's buffer, and no two overlap. -/
def Parts (buffers : List Extent) (addr len : ℕ) : Prop :=
  Fills buffers addr (addr + len) ∧ buffers.Pairwise Extent.Apart

/-- The chunking is exact. -/
structure Exact (e : Endpoint) (op : Op) (lAddr rAddr len : ℕ) : Prop where
  /-- The local side. -/
  localSide : Parts ((tasksOf e op lAddr rAddr len).map (Memcpy.localBuf op)) lAddr len
  /-- The remote side. -/
  remoteSide : Parts ((tasksOf e op lAddr rAddr len).map (Memcpy.remoteBuf op)) rAddr len
  /-- A task has the same place on both sides, and a size that the device can copy. -/
  same : ∀ t ∈ tasksOf e op lAddr rAddr len, ∃ off, t.localBuf op = ⟨lAddr + off, t.dataLen⟩ ∧
    t.remoteBuf op = ⟨rAddr + off, t.dataLen⟩ ∧ 0 < t.dataLen ∧ t.dataLen ≤ e.maxBulkTaskSize
  /-- The completions, in any order. -/
  counted : ∀ order, order.Perm (tasksOf e op lAddr rAddr len) → Counted len order

/-! ### The chunks -/

variable {e : Endpoint} {op : Op} {lAddr rAddr len : ℕ}

/-- The task of a chunk. -/
def Chunk.memcpy (op : Op) (lAddr rAddr : ℕ) (c : Chunk) : Memcpy :=
  .ofBuffers op ⟨lAddr + c.off, c.len⟩ ⟨rAddr + c.off, c.len⟩ c.len

/-- The place of a chunk in the operation. -/
def Chunk.extent (c : Chunk) : Extent := ⟨c.off, c.len⟩

theorem postTasks_eq (fuel off : ℕ) :
    postTasks e op lAddr rAddr len fuel off = (chunksFrom e len fuel off).map (Chunk.memcpy op lAddr rAddr) := by
  induction fuel generalizing off with
  | zero => rfl
  | succ fuel ih =>
    rw [postTasks, chunksFrom]
    split_ifs with hlt
    · rw [List.map_cons, ih]
      rfl
    · rfl

/-- **The chunks lie one behind the other.** -/
theorem tiles_chunksFrom {fuel off : ℕ} (hoff : off ≤ len) (hfuel : len ≤ off + fuel) :
    Tiles ((chunksFrom e len fuel off).map Chunk.extent) off len := by
  have hpos := e.pos
  induction fuel generalizing off with
  | zero => exact Nat.le_antisymm hoff hfuel
  | succ fuel ih =>
    rw [chunksFrom]
    split_ifs with hlt
    · refine ⟨rfl, ?_⟩
      show Tiles _ (off + min e.maxBulkTaskSize (len - off)) len
      by_cases hlast : len ≤ off + e.maxBulkTaskSize
      · -- the last chunk ends with the operation, and the offset goes past it
        have hnil : chunksFrom e len fuel (off + e.maxBulkTaskSize) = [] := by
          cases fuel with
          | zero => rfl
          | succ fuel => rw [chunksFrom, if_neg (Nat.not_lt.mpr hlast)]
        rw [hnil, Nat.min_eq_right (by omega)]
        exact Nat.add_sub_of_le hoff
      · rw [Nat.min_eq_left (by omega)]
        exact ih (by omega) (by omega)
    · exact Nat.le_antisymm hoff (Nat.not_lt.mp hlt)

theorem le_of_mem_chunksFrom {fuel off : ℕ} {c : Chunk} (h : c ∈ chunksFrom e len fuel off) : c.len ≤ e.maxBulkTaskSize := by
  induction fuel generalizing off with
  | zero => cases h
  | succ fuel ih =>
    rw [chunksFrom] at h
    split_ifs at h with hlt
    · rcases List.mem_cons.mp h with rfl | h
      · exact Nat.min_le_left ..
      · exact ih h
    · cases h

/-- The offsets of the loop, in `size_t`. -/
def offsets64 (maxBulkTaskSize len : ℕ) : (fuel off : ℕ) → List ℕ
  | 0, _ => []
  | fuel + 1, off =>
    if off < len then off :: offsets64 maxBulkTaskSize len fuel ((off + maxBulkTaskSize) % 2 ^ 64) else []

/-- In `size_t` the offset does not wrap: a second round has an offset that is at least the size of a task. -/
theorem size_t_loop_eq (hlen : len ≤ 2 ^ 63) (hmax : e.maxBulkTaskSize < 2 ^ 64) (fuel : ℕ) {off : ℕ}
    (hoff : off = 0 ∨ e.maxBulkTaskSize ≤ off) :
    offsets64 e.maxBulkTaskSize len fuel off = (chunksFrom e len fuel off).map Chunk.off := by
  induction fuel generalizing off with
  | zero => rfl
  | succ fuel ih =>
    rw [offsets64, chunksFrom]
    split_ifs with hlt
    · rw [Nat.mod_eq_of_lt (by omega), ih (Or.inr (Nat.le_add_left ..)), List.map_cons]
    · rfl

theorem tasksOf_eq : tasksOf e op lAddr rAddr len = (chunksFrom e len len 0).map (Chunk.memcpy op lAddr rAddr) :=
  postTasks_eq len 0

/-- The place of a task on both sides, and its size. -/
theorem mem_tasksOf {t : Memcpy} (ht : t ∈ tasksOf e op lAddr rAddr len) :
    ∃ off, t.localBuf op = ⟨lAddr + off, t.dataLen⟩ ∧ t.remoteBuf op = ⟨rAddr + off, t.dataLen⟩ ∧ 0 < t.dataLen ∧
      t.dataLen ≤ e.maxBulkTaskSize := by
  rw [tasksOf_eq] at ht
  obtain ⟨c, hc, rfl⟩ := List.mem_map.mp ht
  have hpos := pos_of_mem_chunksFrom hc
  have hle := le_of_mem_chunksFrom hc
  cases op with
  | write => exact ⟨c.off, rfl, rfl, hpos, hle⟩
  | read => exact ⟨c.off, rfl, rfl, hpos, hle⟩

/-- Buffers that lie where the chunks do are the parts of the operation's buffer. -/
theorem parts_of_chunks (addr len : ℕ) : Parts ((chunksFrom e len len 0).map fun c => (⟨addr + c.off, c.len⟩ : Extent)) addr len := by
  have htiles := (tiles_chunksFrom (e := e) (Nat.zero_le len) (Nat.le_add_left len 0)).shift addr
  rw [List.map_map, Nat.add_zero] at htiles
  exact ⟨htiles.fills, htiles.pairwise⟩

theorem localSide_tasksOf : Parts ((tasksOf e op lAddr rAddr len).map (Memcpy.localBuf op)) lAddr len := by
  have hparts := parts_of_chunks (e := e) lAddr len
  rw [tasksOf_eq, List.map_map]
  cases op with
  | write => exact hparts
  | read => exact hparts

theorem remoteSide_tasksOf : Parts ((tasksOf e op lAddr rAddr len).map (Memcpy.remoteBuf op)) rAddr len := by
  have hparts := parts_of_chunks (e := e) rAddr len
  rw [tasksOf_eq, List.map_map]
  cases op with
  | write => exact hparts
  | read => exact hparts

/-! ### The completions -/

/-- The bytes of tasks. -/
def bytes (tasks : List Memcpy) : ℕ := size (tasks.map Memcpy.chunk)

theorem bytes_append (xs ys : List Memcpy) : bytes (xs ++ ys) = bytes xs + bytes ys := by
  simp [bytes, size]

theorem bytes_tasksOf (e : Endpoint) (op : Op) (lAddr rAddr len : ℕ) :
    bytes (tasksOf e op lAddr rAddr len) = len := by
  have hlen := size_chunksFrom e len len 0 (Nat.le_add_left len 0)
  have hchunk : ∀ c : Chunk, (c.memcpy op lAddr rAddr).chunk.len = c.len := by
    intro c
    cases op with
    | write => rfl
    | read => rfl
  rw [bytes, size, tasksOf_eq, List.map_map, List.map_map]
  simp only [Function.comp_def, hchunk]
  exact hlen

theorem bytes_pos {tasks : List Memcpy} (hne : tasks ≠ []) (hpos : ∀ t ∈ tasks, 0 < t.dataLen) : 0 < bytes tasks := by
  cases tasks with
  | nil => exact absurd rfl hne
  | cons t ts =>
    have hfirst := hpos t (List.mem_cons_self ..)
    have hsum : bytes (t :: ts) = t.dataLen + bytes ts := by simp [bytes, size, Memcpy.chunk]
    omega

/-- Tasks that are not all are only counted. -/
theorem succeedAll_front (tasks : List Memcpy) (hlt : bytes tasks < len) :
    succeedAll (.new len) tasks = some { BulkContext.new len with txSize := bytes tasks } := by
  have hsize : size ((tasks.map fun t => (t.chunk, Outcome.success)).map Prod.fst) = bytes tasks := by
    rw [bytes, List.map_map]
    rfl
  have hfront := completeAll_front (.new len) (tasks.map fun t => (t.chunk, .success))
    (fun t ht => by
      obtain ⟨x, -, rfl⟩ := List.mem_map.mp ht
      exact Outcome.noConfusion)
    (by
      rw [hsize]
      simpa only [BulkContext.new, Nat.zero_add] using hlt)
  rw [hsize] at hfront
  simp only [BulkContext.new, Nat.zero_add] at hfront
  exact hfront

/-- **The completions are counted, in any order**, if there is one. -/
theorem counted_of_perm {order : List Memcpy} (hlen : len ≠ 0) (h : order.Perm (tasksOf e op lAddr rAddr len)) :
    Counted len order := by
  have hsum : bytes order = len := by
    rw [← bytes_tasksOf e op lAddr rAddr len]
    exact ((h.map Memcpy.chunk).map Chunk.len).sum_eq
  have hpos : ∀ t ∈ order, 0 < t.dataLen := by
    intro t ht
    obtain ⟨-, -, -, hpos, -⟩ := mem_tasksOf (h.subset ht)
    exact hpos
  constructor
  · rintro front back rfl hback
    have hrest := bytes_pos hback fun t ht => hpos t (List.mem_append_right _ ht)
    rw [bytes_append] at hsum
    have hlt : bytes front < len := by omega
    exact ⟨_, succeedAll_front front hlt, hlt, rfl⟩
  · rcases List.eq_nil_or_concat order with rfl | ⟨front, last, rfl⟩
    · exact absurd hsum.symm hlen
    · rw [List.concat_eq_append] at hsum hpos ⊢
      have hone : bytes [last] = last.dataLen := by simp [bytes, size, Memcpy.chunk]
      have hlast := hpos last (List.mem_append_right _ (List.mem_singleton_self _))
      rw [bytes_append, hone] at hsum
      have hcb := taskCb_last { BulkContext.new len with txSize := bytes front } (last.chunk, .success) rfl hsum
      refine ⟨⟨len, len, some len⟩, ?_, rfl, rfl⟩
      have hfront := succeedAll_front front (show bytes front < len by omega)
      rw [succeedAll, List.map_append, completeAll_append]
      rw [succeedAll] at hfront
      rw [hfront]
      show (taskCb true _ last.chunk .success).bind _ = _
      rw [hcb]
      rfl

/-- **The chunking is exact unless the length is zero.** -/
theorem exact_iff (e : Endpoint) (op : Op) (lAddr rAddr len : ℕ) : Exact e op lAddr rAddr len ↔ len ≠ 0 := by
  constructor
  · rintro h rfl
    obtain ⟨ctx, hrun, -, hres⟩ := (h.counted [] (List.Perm.refl _)).last
    cases hrun
    cases hres
  · intro hlen
    exact ⟨localSide_tasksOf, remoteSide_tasksOf, fun t ht => mem_tasksOf ht, fun order h => counted_of_perm hlen h⟩

/-- **The length zero**: `post` submits nothing, and nothing ever sets `op_res`. -/
theorem not_exact_zero : post four true (.new 0) = some (.new 0, []) ∧ (BulkContext.new 0).opRes = none ∧
    ¬ Exact four .write 4096 8192 0 := by
  refine ⟨rfl, rfl, fun h => ?_⟩
  obtain ⟨ctx, hrun, -, hres⟩ := (h.counted [] (List.Perm.refl _)).last
  cases hrun
  cases hres

end DShuffle.Trans
