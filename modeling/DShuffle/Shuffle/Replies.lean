import DShuffle.Shuffle.Frames
import DShuffle.Shuffle.Route

/-!
# The replies to a worker

A worker of the `NaiveShuffleWorkerPool` compares what the peers reply with the number of bytes that it meant to transfer.
For a task from the other node that is the size of its buffer, and there is one request. For a task from the host there is
a request for every local partition, over `io` and then over RDMA, and in both loops every reply is compared with the size
of the whole `scatter` buffer.

## The model

* A task is served by `serve`; `none` is a call of `die`.
* The replies are parameters, and so is which sizes of a `MappedRegion` the DOCA library accepts.

## What is proved

* `honest_accepted_iff` — when replies with the lengths of the requests are accepted: always for a task from the other
  node, and for a task from the host exactly if every local partition is as long as `scatter`.
* `native_partition_dies` — with the partitions that `native_partition` makes and the odd ones local, never.
* `not_honest_accepted_two` — two partitions.
-/

namespace DShuffle.Shuffle

open Base

/-- What the peers reply. -/
structure Replies where
  /-- To the request for a partition. -/
  part : Request → ℕ
  /-- To the request for the buffer of a task. -/
  whole : Bytes → ℕ

/-- Every reply is the number of bytes that were to be transferred. -/
structure Replies.Honest (replies : Replies) : Prop where
  /-- For a partition. -/
  part : ∀ r, replies.part r = r.bytes.length
  /-- For a buffer. -/
  whole : ∀ b, replies.whole b = b.length

/-- The replies of peers that transfer what they are asked to. -/
def honestReplies : Replies := ⟨fun r => r.bytes.length, List.length⟩

theorem honestReplies_honest : honestReplies.Honest := ⟨fun _ => rfl, fun _ => rfl⟩

namespace Pool

/-- `do_shuffle` for a task from the other node. -/
def serveRemote (b : Bytes) (nBulk : ℕ) : Option ℕ := if nBulk = b.length then some b.length else none

/-- A task is served: the value that it is fulfilled with. -/
def serve (pool : Pool) (maps : ℕ → Bool) (fromRemote : Bool) (b : Bytes) (replies : Replies) : Option ℕ :=
  if fromRemote then serveRemote b (replies.whole b)
  else if maps (Scatter.flatten (pool.pfn b)).bytes.length then (pool.doShuffle b replies.part).map Prod.snd
  else none

variable {pool : Pool} {b : Bytes}

theorem bytes_flatten (partitions : List Bytes) : (Scatter.flatten partitions).bytes = partitions.flatten := by
  rw [Scatter.flatten, (Scatter.foldl_push _ partitions).1, List.nil_append]

/-- A local partition is as long as all the partitions together. -/
def Alone (pool : Pool) (b : Bytes) : Prop :=
  ∀ pid ∈ pool.localPs b, ((pool.pfn b).getD pid []).length = (pool.pfn b).flatten.length

instance (pool : Pool) (b : Bytes) : Decidable (pool.Alone b) := inferInstanceAs (Decidable (∀ pid ∈ pool.localPs b, _))

/-- One of the two loops. -/
theorem sendAll_honest {via : Via} {reply : Request → ℕ} (hreply : ∀ r, reply r = r.bytes.length) :
    (Scatter.flatten (pool.pfn b)).sendAll via (pool.localPs b) reply =
      if pool.Alone b then some ((pool.localPs b).map (carries (pool.pfn b) via)) else none := by
  have hcheck : (∀ r ∈ (pool.localPs b).map (carries (pool.pfn b) via), reply r = (pool.pfn b).flatten.length) ↔
      pool.Alone b := by
    constructor
    · intro h pid hpid
      rw [← h _ (List.mem_map_of_mem hpid), hreply]
      rfl
    · intro h r hr
      obtain ⟨pid, hpid, rfl⟩ := List.mem_map.mp hr
      rw [hreply]
      exact h pid hpid
  rw [Scatter.sendAll, map_request, bytes_flatten, if_congr hcheck rfl rfl]

/-- Both loops. -/
theorem doShuffle_honest {reply : Request → ℕ} (hreply : ∀ r, reply r = r.bytes.length) :
    (pool.doShuffle b reply).map Prod.snd = if pool.Alone b then some b.length else none := by
  have hlocal : (pool.split (Scatter.flatten (pool.pfn b)).lengths.length).2 = pool.localPs b := by
    rw [split_eq, Scatter.length_lengths, localPs]
  simp only [doShuffle, hlocal, sendAll_honest hreply]
  by_cases halone : pool.Alone b
  · simp only [if_pos halone, Option.bind_some, Option.map_some]
  · simp only [if_neg halone, Option.bind_none, Option.map_none]

/-- **When honest replies are accepted**: always for a task from the other node, and for a task from the host if its
`scatter` can be mapped and a local partition is as long as all the partitions together. -/
theorem honest_accepted_iff (pool : Pool) (maps : ℕ → Bool) (fromRemote : Bool) (b : Bytes) (replies : Replies)
    (h : replies.Honest) : pool.serve maps fromRemote b replies = some b.length ↔
      fromRemote = true ∨ maps (pool.pfn b).flatten.length = true ∧ pool.Alone b := by
  cases fromRemote with
  | true =>
    refine ⟨fun _ => Or.inl rfl, fun _ => ?_⟩
    rw [serve, if_pos rfl, serveRemote, if_pos (h.whole b)]
  | false =>
    rw [serve, if_neg Bool.false_ne_true, bytes_flatten, doShuffle_honest h.part]
    constructor
    · intro hserve
      split_ifs at hserve with hmaps halone
      exact Or.inr ⟨hmaps, halone⟩
    · rintro (hfalse | ⟨hmaps, halone⟩)
      · cases hfalse
      · rw [if_pos hmaps, if_pos halone]

/-- One local partition that is not empty. -/
theorem honest_accepted_single :
    Pool.serve ⟨1, by decide, 0, fun b => [[], b], fun pid => pid == 0⟩ (fun n => n != 0) false [7, 8] honestReplies =
      some 2 :=
  (honest_accepted_iff ⟨1, by decide, 0, fun b => [[], b], fun pid => pid == 0⟩ (fun n => n != 0) false [7, 8] honestReplies
    honestReplies_honest).mpr (Or.inr ⟨rfl, by decide⟩)

/-- **The pool of the server never accepts them**: the partitions of `native_partition` have their headers, and the odd
ones are local. -/
theorem native_partition_dies (pool : Pool) (maps : ℕ → Bool) (b : Bytes) (kvs : List KeyValue)
    (hpfn : pool.pfn b = resultsOf kvs) (hfn : pool.fn = fun pid => pid % 2 == 0) (replies : Replies)
    (h : replies.Honest) : pool.serve maps false b replies = none := by
  have hnot : ¬ pool.Alone b := by
    intro halone
    have hmem : 1 ∈ pool.localPs b := by
      rw [localPs, hpfn, hfn, (resultsOf_partitions kvs).count]
      decide
    have hone := halone 1 hmem
    obtain ⟨p, q, rest, hparts⟩ : ∃ p q rest, pool.pfn b = (le 8 0 ++ p) :: q :: rest := by
      rw [hpfn]
      exact ⟨_, _, _, rfl⟩
    rw [hparts] at hone
    simp only [List.flatten_cons, List.length_append, length_le, List.getD_cons_succ, List.getD_cons_zero] at hone
    omega
  rw [serve, if_neg Bool.false_ne_true, doShuffle_honest h.part, if_neg hnot]
  exact ite_self none

/-- **Two partitions**, of which one is local: its reply is 1, and `scatter` has 3 bytes. -/
theorem not_honest_accepted_two : honestReplies.Honest ∧ two.serve (fun _ => true) false [7] honestReplies = none :=
  ⟨honestReplies_honest, by decide⟩

end Pool

end DShuffle.Shuffle
