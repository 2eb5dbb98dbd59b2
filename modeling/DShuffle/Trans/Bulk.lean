import Mathlib.Algebra.Order.Ring.Nat
import Mathlib.Data.List.Perm.Basic
import Mathlib.Algebra.BigOperators.Group.List.Basic
import Mathlib.Data.Int.Basic

/-!
# Bulk operations over comch

`Endpoint::post` splits a bulk read or write into DMA tasks of at most
`max_bulk_task_size` bytes. The tasks complete in any order; each completion runs
`Endpoint::task_cb` on the context that all of them share.

## The model

* A chunk is an offset and a length. `post` is the loop over the offsets.
* `taskCb` adds the chunk's length, whether the task succeeded or not, and
  decides whether to set `op_res`. Setting it a second time throws.
* The completions are a list: any order of the chunks, any outcome for each.

## What is proved

* `Completions.size` — the tasks have the length of the operation.
* `completeAll_honest_iff` — exactly when the operation reports what happened.
* `completeAll_not_honest` — a failed chunk is reported as a success.

## Honest scope

Lengths are natural numbers: the buffers lie in the memory, so no sum of their
lengths wraps. Addresses, buffer references and the queue of the device are left
out.
-/

namespace DShuffle.Trans

/-- The part of a comch endpoint that splits an operation. -/
structure Endpoint where
  /-- `max_bulk_task_size`, the device's `max_buf_size`. -/
  maxBulkTaskSize : ℕ
  /-- A device copies something. -/
  pos : 0 < maxBulkTaskSize

/-- `BulkContext`, with its `op_res`. -/
structure BulkContext where
  /-- The length of the operation. -/
  len : ℕ
  /-- The bytes of the tasks that are complete. -/
  txSize : ℕ
  /-- The promise `op_res`. -/
  opRes : Option ℤ
  deriving DecidableEq

/-- A DMA task: what it copies. -/
structure Chunk where
  /-- Where it starts. -/
  off : ℕ
  /-- Its data length. -/
  len : ℕ
  deriving DecidableEq

/-- How a task ends. -/
inductive Outcome where
  /-- The callback for success runs. -/
  | success
  /-- The task failed with `DOCA_ERROR_BAD_STATE`. -/
  | badState
  /-- The task failed with another status. -/
  | failure (status : ℕ)
  deriving DecidableEq

namespace BulkContext

/-- A new context. -/
def new (len : ℕ) : BulkContext := ⟨len, 0, none⟩

/-- `op_res.set_value`; a promise that is already satisfied throws. -/
def setValue (ctx : BulkContext) (v : ℤ) : Option BulkContext :=
  match ctx.opRes with
  | none => some { ctx with opRes := some v }
  | some _ => none

end BulkContext

/-- The loop of `post`; each round has at least one byte, so `len` rounds are enough. -/
def chunksFrom (e : Endpoint) (len : ℕ) : ℕ → ℕ → List Chunk
  | 0, _ => []
  | fuel + 1, off =>
    if off < len then
      ⟨off, min e.maxBulkTaskSize (len - off)⟩ :: chunksFrom e len fuel (off + e.maxBulkTaskSize)
    else []

/-- `Endpoint::post`: the context and the tasks that are submitted. -/
def post (e : Endpoint) (dmaRunning : Bool) (ctx : BulkContext) : Option (BulkContext × List Chunk) :=
  if dmaRunning then some (ctx, chunksFrom e ctx.len ctx.len 0) else (ctx.setValue 0).map fun ctx => (ctx, [])

/-- `Endpoint::task_cb` for a memcpy task. -/
def taskCb (running : Bool) (ctx : BulkContext) (chunk : Chunk) (outcome : Outcome) : Option BulkContext :=
  if running then
    let ctx := { ctx with txSize := ctx.txSize + chunk.len }
    match outcome with
    | .success => if ctx.txSize = ctx.len then ctx.setValue ctx.txSize else some ctx
    | .badState => ctx.setValue 0
    | .failure status => if ctx.txSize = ctx.len then ctx.setValue (-status) else some ctx
  else some ctx

/-- The callbacks of the completions, in order, while the endpoint runs. -/
def completeAll (ctx : BulkContext) : List (Chunk × Outcome) → Option BulkContext
  | [] => some ctx
  | t :: ts => (taskCb true ctx t.1 t.2).bind fun ctx => completeAll ctx ts

/-! ### The chunks -/

/-- The length of a list of chunks. -/
def size (chunks : List Chunk) : ℕ := (chunks.map Chunk.len).sum

theorem size_chunksFrom (e : Endpoint) (len fuel off : ℕ) (h : len ≤ off + fuel) :
    size (chunksFrom e len fuel off) = len - off := by
  have hpos := e.pos
  induction fuel generalizing off with
  | zero =>
    show 0 = len - off
    omega
  | succ fuel ih =>
    unfold chunksFrom
    split_ifs with hlt
    · show min e.maxBulkTaskSize (len - off) + size (chunksFrom e len fuel (off + e.maxBulkTaskSize)) = len - off
      rw [ih (off + e.maxBulkTaskSize) (by omega)]
      omega
    · show 0 = len - off
      omega

theorem pos_of_mem_chunksFrom {e : Endpoint} {len fuel off : ℕ} {c : Chunk} (h : c ∈ chunksFrom e len fuel off) :
    0 < c.len := by
  have hpos := e.pos
  induction fuel generalizing off with
  | zero => cases h
  | succ fuel ih =>
    unfold chunksFrom at h
    split_ifs at h with hlt
    · rcases List.mem_cons.mp h with rfl | h
      · show 0 < min e.maxBulkTaskSize (len - off)
        omega
      · exact ih h
    · cases h

/-- The tasks that `post` submits for an operation, each with its outcome, in the order of their completions. -/
def Completions (e : Endpoint) (len : ℕ) (ts : List (Chunk × Outcome)) : Prop :=
  ∃ ctx chunks, post e true (.new len) = some (ctx, chunks) ∧ (ts.map Prod.fst).Perm chunks

variable {e : Endpoint} {len : ℕ} {ts : List (Chunk × Outcome)}

theorem Completions.perm (h : Completions e len ts) : (ts.map Prod.fst).Perm (chunksFrom e len len 0) := by
  obtain ⟨ctx, chunks, hpost, hperm⟩ := h
  cases hpost
  exact hperm

/-- The tasks that complete have the length of the operation. -/
theorem Completions.size (h : Completions e len ts) : size (ts.map Prod.fst) = len := by
  have hsum := (h.perm.map Chunk.len).sum_eq
  have hlen := size_chunksFrom e len len 0 (Nat.le_add_left len 0)
  exact hsum.trans hlen

theorem Completions.pos (h : Completions e len ts) : ∀ t ∈ ts, 0 < t.1.len := fun _ ht =>
  pos_of_mem_chunksFrom (h.perm.subset (List.mem_map_of_mem ht))

/-! ### The callbacks -/

theorem completeAll_append (ctx : BulkContext) (xs ys : List (Chunk × Outcome)) :
    completeAll ctx (xs ++ ys) = (completeAll ctx xs).bind fun ctx => completeAll ctx ys := by
  induction xs generalizing ctx with
  | nil => rfl
  | cons t ts ih =>
    show (taskCb true ctx t.1 t.2).bind _ = ((taskCb true ctx t.1 t.2).bind _).bind _
    rw [Option.bind_assoc]
    exact congrArg _ (funext ih)

/-- Tasks that are not the last and do not end in `BAD_STATE` are only counted. -/
theorem completeAll_front (ctx : BulkContext) (ts : List (Chunk × Outcome)) (hb : ∀ t ∈ ts, t.2 ≠ .badState)
    (hlt : ctx.txSize + size (ts.map Prod.fst) < ctx.len) :
    completeAll ctx ts = some { ctx with txSize := ctx.txSize + size (ts.map Prod.fst) } := by
  induction ts generalizing ctx with
  | nil => rfl
  | cons t ts ih =>
    have hsize : size ((t :: ts).map Prod.fst) = t.1.len + size (ts.map Prod.fst) := by simp [size]
    rw [hsize] at hlt ⊢
    have hcb : taskCb true ctx t.1 t.2 = some { ctx with txSize := ctx.txSize + t.1.len } := by
      unfold taskCb
      cases ht : t.2 with
      | success => exact if_neg (show ¬ ctx.txSize + t.1.len = ctx.len by omega)
      | badState => exact absurd ht (hb t (List.mem_cons_self ..))
      | failure status => exact if_neg (show ¬ ctx.txSize + t.1.len = ctx.len by omega)
    show (taskCb true ctx t.1 t.2).bind _ = _
    rw [hcb]
    have hrest := ih { ctx with txSize := ctx.txSize + t.1.len } (fun x hx => hb x (List.mem_cons_of_mem _ hx))
      (by simp only; omega)
    simp only [Nat.add_assoc] at hrest
    exact hrest

/-- Once `op_res` is set, the last task sets it again. -/
theorem completeAll_set (ctx : BulkContext) (ts : List (Chunk × Outcome)) (hset : ctx.opRes ≠ none) (hts : ts ≠ [])
    (hsum : ctx.txSize + size (ts.map Prod.fst) = ctx.len) : completeAll ctx ts = none := by
  have hthrow : ∀ v n, ({ ctx with txSize := n } : BulkContext).setValue v = none := by
    intro v n
    unfold BulkContext.setValue
    cases ho : ctx.opRes with
    | none => exact absurd ho hset
    | some w => rfl
  induction ts generalizing ctx with
  | nil => exact absurd rfl hts
  | cons t ts ih =>
    have hsize : size ((t :: ts).map Prod.fst) = t.1.len + size (ts.map Prod.fst) := by simp [size]
    rw [hsize] at hsum
    show (taskCb true ctx t.1 t.2).bind _ = _
    cases ts with
    | nil =>
      have hlast : ctx.txSize + t.1.len = ctx.len := hsum
      unfold taskCb
      cases t.2 with
      | success => simp [hlast, hthrow]
      | badState => simp [hthrow]
      | failure status => simp [hlast, hthrow]
    | cons u us =>
      have hrest := ih { ctx with txSize := ctx.txSize + t.1.len } hset (List.cons_ne_nil u us)
        (by simp only; omega) hthrow
      unfold taskCb
      cases t.2 with
      | success =>
        simp only [if_true]
        split_ifs
        · simp [hthrow]
        · exact hrest
      | badState => simp [hthrow]
      | failure status =>
        simp only [if_true]
        split_ifs
        · simp [hthrow]
        · exact hrest

/-- A task that ends in `BAD_STATE` sets `op_res` at once, so that the last one throws. -/
theorem completeAll_badState (ctx : BulkContext) (front : List (Chunk × Outcome)) (last : Chunk × Outcome)
    (hb : ∃ t ∈ front, t.2 = .badState) (hpos : 0 < last.1.len)
    (hsum : ctx.txSize + size (front.map Prod.fst) + last.1.len = ctx.len) :
    completeAll ctx (front ++ [last]) = none := by
  induction front generalizing ctx with
  | nil =>
    obtain ⟨t, ht, -⟩ := hb
    cases ht
  | cons t ts ih =>
    have hsize : size ((t :: ts).map Prod.fst) = t.1.len + size (ts.map Prod.fst) := by simp [size]
    have hsize' : size ((ts ++ [last]).map Prod.fst) = size (ts.map Prod.fst) + last.1.len := by simp [size]
    rw [hsize] at hsum
    show (taskCb true ctx t.1 t.2).bind _ = _
    by_cases ht : t.2 = .badState
    · rw [ht]
      show (BulkContext.setValue { ctx with txSize := ctx.txSize + t.1.len } 0).bind _ = _
      unfold BulkContext.setValue
      cases ctx.opRes with
      | some v => rfl
      | none =>
        refine completeAll_set _ (ts ++ [last]) (Option.some_ne_none _) (by simp) ?_
        show ctx.txSize + t.1.len + size ((ts ++ [last]).map Prod.fst) = ctx.len
        rw [hsize']
        omega
    · have hrest : ∃ x ∈ ts, x.2 = .badState := by
        obtain ⟨x, hx, hxb⟩ := hb
        rcases List.mem_cons.mp hx with rfl | hx
        · exact absurd hxb ht
        · exact ⟨x, hx, hxb⟩
      have hone := completeAll_front ctx [t] (by simpa using ht) (by simp [size]; omega)
      have hcb : taskCb true ctx t.1 t.2 = some { ctx with txSize := ctx.txSize + t.1.len } := by
        simpa [completeAll, size] using hone
      rw [hcb]
      refine ih _ hrest ?_
      simp only
      omega

/-! ### Exactly when the result is honest -/

/-- `op_res` was set exactly once, and to a positive value only if every task succeeded and the value is the full
length. -/
def Honest (len : ℕ) (ts : List (Chunk × Outcome)) : Prop :=
  ∃ ctx v, completeAll (.new len) ts = some ctx ∧ ctx.opRes = some v ∧ (0 < v → v = len ∧ ∀ t ∈ ts, t.2 = .success)

/-- The value that the last task sets, if none was set before. -/
def Outcome.result (len : ℕ) : Outcome → ℤ
  | .success => len
  | .badState => 0
  | .failure status => -status

/-- What the callback of the last task does to a context that only was counted. -/
theorem taskCb_last (ctx : BulkContext) (last : Chunk × Outcome) (hnone : ctx.opRes = none)
    (hsum : ctx.txSize + last.1.len = ctx.len) :
    taskCb true ctx last.1 last.2 = some { ctx with txSize := ctx.len, opRes := some (last.2.result ctx.len) } := by
  unfold taskCb BulkContext.setValue Outcome.result
  cases last.2 with
  | success => simp [hsum, hnone]
  | badState => simp [hsum, hnone]
  | failure status => simp [hsum, hnone]

/-- **When a bulk operation reports what happened**: it has a task, no task but the last to complete ends in
`BAD_STATE`, and if the last succeeded then all did. -/
theorem completeAll_honest_iff (e : Endpoint) (len : ℕ) (ts : List (Chunk × Outcome)) (h : Completions e len ts) :
    Honest len ts ↔ ∃ front last, ts = front ++ [last] ∧ (∀ t ∈ front, t.2 ≠ .badState) ∧
      (last.2 = .success → ∀ t ∈ front, t.2 = .success) := by
  rcases List.eq_nil_or_concat ts with rfl | ⟨front, last, rfl⟩
  · constructor
    · rintro ⟨ctx, v, hc, hv, -⟩
      cases hc
      cases hv
    · rintro ⟨front, last, hts, -⟩
      simp at hts
  have hpos : 0 < last.1.len := h.pos last (by simp)
  have hsum := h.size
  have hsize : size ((front ++ [last]).map Prod.fst) = size (front.map Prod.fst) + last.1.len := by simp [size]
  rw [List.concat_eq_append] at *
  rw [hsize] at hsum
  by_cases hb : ∃ t ∈ front, t.2 = .badState
  · -- the promise is set twice
    have hthrow := completeAll_badState (.new len) front last hb hpos (by simp only [BulkContext.new]; omega)
    constructor
    · rintro ⟨ctx, v, hc, -⟩
      rw [hthrow] at hc
      cases hc
    · rintro ⟨front', last', hts, hno, -⟩
      obtain ⟨rfl, -⟩ := List.append_inj' hts rfl
      obtain ⟨t, ht, htb⟩ := hb
      exact absurd htb (hno t ht)
  · have hno : ∀ t ∈ front, t.2 ≠ .badState := fun t ht htb => hb ⟨t, ht, htb⟩
    have hfront := completeAll_front (.new len) front hno (by simp only [BulkContext.new]; omega)
    have hlast := taskCb_last { BulkContext.new len with txSize := 0 + size (front.map Prod.fst) } last rfl
      (by simp only [BulkContext.new]; omega)
    have hall : completeAll (.new len) (front ++ [last]) = some ⟨len, len, some (last.2.result len)⟩ := by
      rw [completeAll_append, hfront]
      show (taskCb true _ last.1 last.2).bind _ = _
      exact congrArg (fun o => Option.bind o fun ctx => completeAll ctx []) hlast
    constructor
    · rintro ⟨ctx, v, hc, hv, hgood⟩
      refine ⟨front, last, rfl, hno, fun hs t ht => ?_⟩
      rw [hall, hs] at hc
      cases hc
      cases hv
      have hlen : (0 : ℤ) < len := by omega
      exact (hgood hlen).2 t (List.mem_append_left _ ht)
    · rintro ⟨front', last', hts, -, hsuc⟩
      obtain ⟨rfl, hl⟩ := List.append_inj' hts rfl
      cases hl
      refine ⟨_, _, hall, rfl, fun hv => ?_⟩
      cases hl : last.2 with
      | success =>
        refine ⟨rfl, fun t ht => ?_⟩
        rcases List.mem_append.mp ht with ht | ht
        · exact hsuc hl t ht
        · rw [List.mem_singleton.mp ht]
          exact hl
      | badState =>
        rw [hl] at hv
        exact absurd hv (Int.lt_irrefl 0)
      | failure status =>
        rw [hl] at hv
        have hneg : (0 : ℤ) < -(status : ℤ) := hv
        omega

/-- A device that copies four bytes at a time. -/
def four : Endpoint := ⟨4, by decide⟩

theorem completeAll_honest_iff_eight :
    Completions four 8 [(⟨4, 4⟩, .success), (⟨0, 4⟩, .failure 5)] ∧ Honest 8 [(⟨4, 4⟩, .success), (⟨0, 4⟩, .failure 5)] := by
  have hc : Completions four 8 [(⟨4, 4⟩, .success), (⟨0, 4⟩, .failure 5)] := ⟨_, _, rfl, by decide⟩
  refine ⟨hc, (completeAll_honest_iff four 8 _ hc).mpr ⟨[(⟨4, 4⟩, .success)], (⟨0, 4⟩, .failure 5), rfl, by decide, ?_⟩⟩
  intro h
  cases h

/-- **A failed task is reported as a success**: the first of two tasks fails, and the second, which succeeds, sets
`op_res` to the full length. -/
theorem completeAll_not_honest : ¬ ∀ (e : Endpoint) (len : ℕ) (ts : List (Chunk × Outcome)), Completions e len ts → Honest len ts := by
  intro hall
  obtain ⟨ctx, v, hc, hv, hgood⟩ := hall four 8 [(⟨0, 4⟩, .failure 5), (⟨4, 4⟩, .success)] ⟨_, _, rfl, by decide⟩
  have hres : completeAll (.new 8) [(⟨0, 4⟩, .failure 5), (⟨4, 4⟩, .success)] = some ⟨8, 8, some 8⟩ := by decide
  rw [hres] at hc
  cases hc
  cases hv
  have hfirst := (hgood (by decide)).2 (⟨0, 4⟩, .failure 5) (List.mem_cons_self ..)
  cases hfirst

end DShuffle.Trans
