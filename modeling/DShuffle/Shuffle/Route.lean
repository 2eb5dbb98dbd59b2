import DShuffle.Base.ByteMemory

/-!
# Routing the partitions of a task

`NaiveShuffleWorkerPool::do_shuffle` takes a task, partitions the bytes of a local
one and sends the partitions: to its own host over the `io` transport, and to the
other node over one of the RDMA transports. The partitions lie behind each other
in one buffer, `scatter`, with a table of offsets and one of lengths.

## The model

* `flatten` is the loop that fills the buffer and the tables; `split` is the loop
  that makes the two lists of ids.
* `sendAll` is one of the two sending loops: it posts a bulk request for every id
  of a list, and then compares every reply with the size of the buffer; a reply
  that differs ends the process.
* The partition function, the dispatch predicate and the replies are parameters.

## What is proved

* `slice_flatten` — every entry of the tables names the bytes of its partition.
* `doShuffle_requests` — what is sent: the local partitions, over `io` and then
  over RDMA. The second loop runs over `local_ps` again.
* `doShuffle_routes_iff` — so every partition is routed as it should be exactly if
  there is none.
-/

namespace DShuffle.Shuffle

open Base

/-- Where a bulk request goes. -/
inductive Via where
  /-- The `io` transport, to the host. -/
  | io
  /-- An RDMA transport, by its index. -/
  | rdma (idx : ℕ)
  deriving DecidableEq

/-- A bulk request of a partition. -/
structure Request where
  /-- The transport. -/
  via : Via
  /-- The partition. -/
  pid : ℕ
  /-- The bytes that the request offers to the peer. -/
  bytes : Bytes
  deriving DecidableEq

/-- `scatter`, `partition_offsets` and `partition_length`. -/
structure Scatter where
  /-- The partitions behind each other. -/
  bytes : Bytes
  /-- Where each starts. -/
  offsets : List ℕ
  /-- How long each is. -/
  lengths : List ℕ

namespace Scatter

/-- One round of the loop over the partitions. -/
def push (sc : Scatter) (p : Bytes) : Scatter :=
  { bytes := sc.bytes ++ p, offsets := sc.offsets ++ [sc.bytes.length], lengths := sc.lengths ++ [p.length] }

/-- The loop over the partitions. -/
def flatten (partitions : List Bytes) : Scatter := partitions.foldl push ⟨[], [], []⟩

/-- The request for a partition over a transport. -/
def request (sc : Scatter) (via : Via) (pid : ℕ) : Request :=
  ⟨via, pid, slice sc.bytes (sc.offsets.getD pid 0) (sc.lengths.getD pid 0)⟩

/-- A sending loop: all requests, then all replies. -/
def sendAll (sc : Scatter) (via : Via) (pids : List ℕ) (reply : Request → ℕ) : Option (List Request) :=
  if ∀ r ∈ pids.map (sc.request via), reply r = sc.bytes.length then some (pids.map (sc.request via)) else none

end Scatter

/-- A pool and what its tasks see: its RDMA transports, the next one, and its functions. -/
structure Pool where
  /-- The number of RDMA transports. -/
  nRdma : ℕ
  /-- There is one. -/
  nRdma_pos : 0 < nRdma
  /-- `active_rdma_idx`. -/
  active : ℕ
  /-- The partition function. -/
  pfn : Bytes → List Bytes
  /-- The dispatch predicate: the partition belongs to the other node. -/
  fn : ℕ → Bool

namespace Pool

/-- The RDMA transport of the task. -/
def rdmaIdx (pool : Pool) : ℕ := if 1 < pool.nRdma then pool.active % pool.nRdma else 0

/-- `remote_ps` and `local_ps`. -/
def split (pool : Pool) (n : ℕ) : List ℕ × List ℕ :=
  (List.range n).foldl (fun ps pid => if pool.fn pid then (ps.1 ++ [pid], ps.2) else (ps.1, ps.2 ++ [pid])) ([], [])

/-- `do_shuffle` for a task from the host: the requests, and the value the task is completed with. -/
def doShuffle (pool : Pool) (b : Bytes) (reply : Request → ℕ) : Option (List Request × ℕ) :=
  let sc := Scatter.flatten (pool.pfn b)
  let ps := pool.split sc.lengths.length
  (sc.sendAll .io ps.2 reply).bind fun rs =>
    -- the source iterates over `local_ps` here too
    (sc.sendAll (.rdma pool.rdmaIdx) ps.2 reply).bind fun rs' => some (rs ++ rs', b.length)

end Pool

/-! ### The buffer and its tables -/

namespace Scatter

theorem foldl_push (sc : Scatter) (partitions : List Bytes) :
    (partitions.foldl push sc).bytes = sc.bytes ++ partitions.flatten ∧
      (partitions.foldl push sc).offsets =
        sc.offsets ++ (List.range partitions.length).map (fun i => sc.bytes.length + (partitions.take i).flatten.length) ∧
      (partitions.foldl push sc).lengths = sc.lengths ++ partitions.map List.length := by
  induction partitions generalizing sc with
  | nil => simp
  | cons p ps ih =>
    obtain ⟨h₁, h₂, h₃⟩ := ih (sc.push p)
    refine ⟨?_, ?_, ?_⟩
    · rw [List.foldl_cons, h₁]
      simp [push]
    · rw [List.foldl_cons, h₂, List.length_cons, List.range_succ_eq_map]
      simp [push, Function.comp_def, Nat.add_assoc]
    · rw [List.foldl_cons, h₃]
      simp [push]

theorem length_lengths (partitions : List Bytes) : (flatten partitions).lengths.length = partitions.length := by
  rw [flatten, (foldl_push _ partitions).2.2]
  simp

/-- **The tables name the partitions.** -/
theorem slice_flatten (partitions : List Bytes) (pid : ℕ) (h : pid < partitions.length) :
    slice (flatten partitions).bytes ((flatten partitions).offsets.getD pid 0) ((flatten partitions).lengths.getD pid 0) =
      partitions[pid] := by
  obtain ⟨h₁, h₂, h₃⟩ := foldl_push ⟨[], [], []⟩ partitions
  have hoff : (flatten partitions).offsets.getD pid 0 = (partitions.take pid).flatten.length := by
    rw [flatten, h₂]
    simp [List.getD_eq_getElem?_getD, h]
  have hlen : (flatten partitions).lengths.getD pid 0 = partitions[pid].length := by
    rw [flatten, h₃]
    simp [List.getD_eq_getElem?_getD, h]
  have hsplit : partitions.flatten = (partitions.take pid).flatten ++ (partitions[pid] ++ (partitions.drop (pid + 1)).flatten) := by
    rw [← List.flatten_cons, ← List.drop_eq_getElem_cons h, ← List.flatten_append, List.take_append_drop]
  rw [hoff, hlen, flatten, h₁, List.nil_append, hsplit, slice, List.drop_left, List.take_left]

theorem sendAll_eq_some {sc : Scatter} {via : Via} {pids : List ℕ} {reply : Request → ℕ} {rs : List Request}
    (h : sc.sendAll via pids reply = some rs) : rs = pids.map (sc.request via) := by
  unfold sendAll at h
  split_ifs at h
  cases h
  rfl

end Scatter

/-! ### What is sent -/

namespace Pool

variable {pool : Pool}

theorem split_foldl (pool : Pool) (pids : List ℕ) (ps : List ℕ × List ℕ) :
    pids.foldl (fun ps pid => if pool.fn pid then (ps.1 ++ [pid], ps.2) else (ps.1, ps.2 ++ [pid])) ps =
      (ps.1 ++ pids.filter pool.fn, ps.2 ++ pids.filter fun pid => !pool.fn pid) := by
  induction pids generalizing ps with
  | nil => simp
  | cons pid pids ih =>
    rw [List.foldl_cons, ih]
    cases hf : pool.fn pid with
    | true => simp [hf]
    | false => simp [hf]

/-- The two lists are the ids that satisfy the predicate, and those that do not. -/
theorem split_eq (pool : Pool) (n : ℕ) :
    pool.split n = ((List.range n).filter pool.fn, (List.range n).filter fun pid => !pool.fn pid) := by
  rw [split, split_foldl, List.nil_append, List.nil_append]

/-- The request that carries a partition over a transport. -/
def carries (partitions : List Bytes) (via : Via) (pid : ℕ) : Request := ⟨via, pid, partitions.getD pid []⟩

/-- The partitions that stay with the host. -/
def localPs (pool : Pool) (b : Bytes) : List ℕ := (List.range (pool.pfn b).length).filter fun pid => !pool.fn pid

theorem map_request (pool : Pool) (b : Bytes) (via : Via) :
    (pool.localPs b).map ((Scatter.flatten (pool.pfn b)).request via) = (pool.localPs b).map (carries (pool.pfn b) via) := by
  refine List.map_congr_left fun pid hpid => ?_
  have hlt : pid < (pool.pfn b).length := List.mem_range.mp (List.mem_filter.mp hpid).1
  show Request.mk via pid (slice _ _ _) = ⟨via, pid, _⟩
  rw [Scatter.slice_flatten _ pid hlt, List.getD_eq_getElem _ _ hlt]

/-- **What is sent**: each local partition over `io`, and then each of them over RDMA. -/
theorem doShuffle_requests (pool : Pool) (b : Bytes) (reply : Request → ℕ) (rs : List Request) (res : ℕ)
    (h : pool.doShuffle b reply = some (rs, res)) :
    res = b.length ∧ rs = (pool.localPs b).map (carries (pool.pfn b) .io) ++
      (pool.localPs b).map (carries (pool.pfn b) (.rdma pool.rdmaIdx)) := by
  unfold doShuffle at h
  simp only [split_eq, Scatter.length_lengths] at h
  obtain ⟨rs₁, h₁, h⟩ := Option.bind_eq_some_iff.mp h
  obtain ⟨rs₂, h₂, h⟩ := Option.bind_eq_some_iff.mp h
  cases h
  refine ⟨rfl, ?_⟩
  rw [Scatter.sendAll_eq_some h₁, Scatter.sendAll_eq_some h₂, ← map_request, ← map_request]
  rfl

/-! ### Exactly when every partition is routed -/

/-- Every partition is sent by exactly one request, with exactly its bytes: over an RDMA transport if it belongs to
the other node, and over `io` if it does not. -/
def Routes (pool : Pool) (b : Bytes) (rs : List Request) : Prop :=
  ∀ pid < (pool.pfn b).length, ∃ r, rs.filter (fun r => r.pid = pid) = [r] ∧ r.bytes = (pool.pfn b).getD pid [] ∧
    if pool.fn pid then ∃ idx < pool.nRdma, r.via = .rdma idx else r.via = .io

/-- The requests for a partition among those for a list of them. -/
theorem filter_carries (partitions : List Bytes) (via : Via) (pids : List ℕ) (pid : ℕ) :
    (pids.map (carries partitions via)).filter (fun r => r.pid = pid) =
      (pids.filter fun p => p = pid).map (carries partitions via) := by
  rw [List.filter_map]
  rfl

/-- **The routing is right exactly if there is no partition**: a local one is sent twice, a remote one never. -/
theorem doShuffle_routes_iff (pool : Pool) (b : Bytes) (reply : Request → ℕ) (rs : List Request) (res : ℕ)
    (h : pool.doShuffle b reply = some (rs, res)) : pool.Routes b rs ↔ pool.pfn b = [] := by
  obtain ⟨-, hrs⟩ := doShuffle_requests pool b reply rs res h
  constructor
  · intro hr
    by_contra hne
    have hpos : 0 < (pool.pfn b).length := List.length_pos_iff.mpr hne
    obtain ⟨r, hone, -, -⟩ := hr 0 hpos
    rw [hrs, List.filter_append, filter_carries, filter_carries] at hone
    have hlen := congrArg List.length hone
    simp only [List.length_append, List.length_map, List.length_cons, List.length_nil] at hlen
    omega
  · intro he pid hpid
    rw [he] at hpid
    exact absurd hpid (Nat.not_lt_zero pid)

/-- A pool that makes two partitions, of which the second belongs to the other node. -/
def two : Pool := ⟨1, by decide, 0, fun b => [b, b ++ b], fun pid => pid == 1⟩

theorem doShuffle_two : two.doShuffle [7] (fun _ => 3) = some ([⟨.io, 0, [7]⟩, ⟨.rdma 0, 0, [7]⟩], 1) := by decide

theorem doShuffle_routes_iff_two :
    two.doShuffle [7] (fun _ => 3) = some ([⟨.io, 0, [7]⟩, ⟨.rdma 0, 0, [7]⟩], 1) ∧
      ¬ two.Routes [7] [⟨.io, 0, [7]⟩, ⟨.rdma 0, 0, [7]⟩] := by
  refine ⟨doShuffle_two, fun hr => ?_⟩
  have hnil := (doShuffle_routes_iff two [7] (fun _ => 3) _ 1 doShuffle_two).mp hr
  cases hnil

/-- **A partition is sent to both nodes, and another to none.** -/
theorem doShuffle_not_routes :
    ¬ ∀ (pool : Pool) (b : Bytes) (reply : Request → ℕ) (rs : List Request) (res : ℕ),
      pool.doShuffle b reply = some (rs, res) → pool.Routes b rs := by
  intro hall
  obtain ⟨r, hone, -, -⟩ := hall two [7] (fun _ => 3) _ 1 doShuffle_two 1 (by decide)
  cases hone

end Pool

end DShuffle.Shuffle
