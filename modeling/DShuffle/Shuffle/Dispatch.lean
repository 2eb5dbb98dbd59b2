import Mathlib.Algebra.Order.Ring.Nat
import Mathlib.Data.List.Nodup
import DShuffle.Base.Transition

/-!
# The dispatcher of a pipeline

`PipelineShuffleWorkerPool` has one dispatcher. It goes round the source queues, those of the local workers (`lsqs`)
and then those of the remote ones (`rsqs`), takes one task from each that is not empty, and pushes it to the queue of
the disk worker (`dsq`) or, if it is a local one and `fn` says so, to one of the `trsqs`, in turn.

## The model

* One machine, whose actions are the steps of the dispatcher, of the producers and of the consumers. The dispatcher
  looks at one queue at a time, so that the queues change while it goes round.
* A queue keeps its order and has a capacity. `push` waits until there is room.
* An item is a task with the queue it was pushed to and its number there. The source has the task alone, and no step
  reads the rest.
* `trsqs_i` has 32 bits and wraps around.

## What is proved

* `Inv.step` — what was pushed to a source is what was dispatched from it, what the dispatcher holds of it and what is
  still in it, in this order; and what a target got is what was dispatched to it.
* `dispatched_of_run` — every item is at one place, the targets are as `fn` says, the order from a source to a target is
  kept, and `choose_one_trsq` is in range for every value of the counter.
-/

namespace DShuffle.Shuffle.Dispatch

open Base

/-! ### The state -/

/-- A `PipelineShuffleWorkerPool`. -/
structure Pool (T : Type) where
  /-- `lsqs.size()`. -/
  nLsq : ℕ
  /-- `rsqs.size()`. -/
  nRsq : ℕ
  /-- `trsqs.size()`. -/
  nTrsq : ℕ
  /-- There are as many of the ones as of the others. -/
  same : nTrsq = nRsq
  /-- There is one. -/
  pos : 0 < nRsq
  /-- `t->buffer.partition_id()`. -/
  partitionId : T → ℕ
  /-- `fn`. -/
  fn : ℕ → Bool

/-- A task that was pushed to a source queue. -/
structure Item (T : Type) where
  /-- The queue: the `lsqs`, and then the `rsqs`. -/
  src : ℕ
  /-- Its number there. -/
  seq : ℕ
  /-- The task. -/
  task : T
  deriving DecidableEq

/-- The target queues. -/
inductive Target where
  /-- `trsqs[i]`. -/
  | trsq (i : ℕ)
  /-- `dsq`. -/
  | dsq
  deriving DecidableEq

/-- Where the dispatcher stands. -/
inductive Pc (T : Type) where
  /-- At `running &&`. -/
  | loop
  /-- In `all_queue_empty`, at the `k`-th source. -/
  | scan (k : ℕ)
  /-- At `if (!running)`. -/
  | enter
  /-- At the `k`-th source. -/
  | poll (k : ℕ)
  /-- It has taken the item from the `k`-th source. -/
  | hold (k : ℕ) (x : Item T)
  /-- It pushes the item. -/
  | push (k : ℕ) (x : Item T) (j : Target)
  /-- It has stopped. -/
  | stopped

/-- The state. -/
structure St (T : Type) where
  /-- `running`. -/
  running : Bool
  /-- The dispatcher. -/
  pc : Pc T
  /-- `trsqs_i`. -/
  trsqsI : ℕ
  /-- The source queues. -/
  sources : ℕ → List (Item T)
  /-- The target queues. -/
  queues : Target → List (Item T)
  /-- What was taken from each target. -/
  consumed : Target → List (Item T)
  /-- What was pushed to each source. -/
  pushed : ℕ → List (Item T)
  /-- What was dispatched, and where to. -/
  trace : List (Item T × Target)

/-! ### The steps -/

/-- The steps. -/
inductive Act (T : Type) where
  /-- The producer of the `k`-th source pushes a task. -/
  | produce (k : ℕ) (t : T)
  /-- The consumer of a target pops one. -/
  | consume (j : Target)
  /-- `running = false`. -/
  | stop
  /-- The dispatcher goes on. -/
  | dispatch

variable {T : Type}

namespace Pool

variable (pool : Pool T)

/-- The number of sources. -/
def nSource : ℕ := pool.nLsq + pool.nRsq

/-- `choose_one_trsq`: the counter and the index. -/
def chooseOneTrsq (trsqsI : ℕ) : ℕ × ℕ :=
  let i := (trsqsI + 1) % 2 ^ 32
  (i, i % pool.nRsq)

/-- A step of `do_dispatch`. -/
def dispatch (capacity : Target → ℕ) (s : St T) : Option (St T) :=
  match s.pc with
  | .loop => some { s with pc := if s.running then .scan 0 else .enter }
  | .scan k =>
    if k < pool.nSource then some { s with pc := if (s.sources k).isEmpty then .scan (k + 1) else .enter }
    -- all are empty: it yields
    else some { s with pc := .loop }
  | .enter => some { s with pc := if s.running then .poll 0 else .stopped }
  | .poll k =>
    if k < pool.nSource then
      match s.sources k with
      | [] => some { s with pc := .poll (k + 1) }
      | x :: rest => some { s with sources := Function.update s.sources k rest, pc := .hold k x }
    else some { s with pc := .loop }
  | .hold k x =>
    if k < pool.nLsq ∧ pool.fn (pool.partitionId x.task) = true then
      let (i, idx) := pool.chooseOneTrsq s.trsqsI
      some { s with trsqsI := i, pc := .push k x (.trsq idx) }
    else some { s with pc := .push k x .dsq }
  | .push k x j =>
    if (s.queues j).length < capacity j then
      some { s with
        queues := Function.update s.queues j (s.queues j ++ [x]), trace := s.trace ++ [(x, j)], pc := .poll (k + 1) }
    else none
  | .stopped => none

/-- A step. -/
def step (srcCapacity : ℕ → ℕ) (capacity : Target → ℕ) (s : St T) : Act T → Option (St T)
  | .produce k t =>
    if k < pool.nSource ∧ (s.sources k).length < srcCapacity k then
      let x := ⟨k, (s.pushed k).length, t⟩
      some { s with
        sources := Function.update s.sources k (s.sources k ++ [x])
        pushed := Function.update s.pushed k (s.pushed k ++ [x]) }
    else none
  | .consume j =>
    match s.queues j with
    | [] => none
    | x :: rest =>
      some { s with
        queues := Function.update s.queues j rest, consumed := Function.update s.consumed j (s.consumed j ++ [x]) }
  | .stop => some { s with running := false }
  | .dispatch => pool.dispatch capacity s

end Pool

/-- The pool before its first task. -/
def init : St T := ⟨true, .loop, 0, fun _ => [], fun _ => [], fun _ => [], fun _ => [], []⟩

/-! ### Where an item can be -/

/-- What the dispatcher holds. -/
def Pc.hand : Pc T → List (Item T)
  | hold _ x | push _ x _ => [x]
  | loop | scan _ | enter | poll _ | stopped => []

/-- The places. -/
inductive Place where
  /-- The `k`-th source. -/
  | source (k : ℕ)
  /-- The dispatcher's hands. -/
  | hand
  /-- A target queue. -/
  | queue (j : Target)
  /-- It was taken from a target queue. -/
  | consumed (j : Target)
  deriving DecidableEq

/-- What is at a place. -/
def St.at (s : St T) : Place → List (Item T)
  | .source k => s.sources k
  | .hand => s.pc.hand
  | .queue j => s.queues j
  | .consumed j => s.consumed j

/-- The target is right for the item. -/
def Pool.Right (pool : Pool T) (x : Item T) (j : Target) : Prop :=
  if x.src < pool.nLsq ∧ pool.fn (pool.partitionId x.task) = true then ∃ i, i < pool.nTrsq ∧ j = .trsq i else j = .dsq

/-! ### The invariant -/

/-- What was dispatched from a source. -/
def St.sentFrom (s : St T) (k : ℕ) : List (Item T) := (s.trace.filter fun e => e.1.src = k).map Prod.fst

/-- What was dispatched to a target. -/
def St.sentTo (s : St T) (j : Target) : List (Item T) := (s.trace.filter fun e => e.2 = j).map Prod.fst

/-- What the dispatcher is about to do is right. -/
def Pool.Fits (pool : Pool T) : Pc T → Prop
  | .hold k x => x.src = k
  | .push _ x j => pool.Right x j
  | .loop | .scan _ | .enter | .poll _ | .stopped => True

/-- **The invariant.** -/
structure Inv (pool : Pool T) (s : St T) : Prop where
  /-- What was pushed to a source was dispatched, is held, or is still there. -/
  sources : ∀ k, s.pushed k = s.sentFrom k ++ (s.pc.hand.filter fun x => x.src = k) ++ s.sources k
  /-- What a target got was dispatched to it. -/
  targets : ∀ j, s.consumed j ++ s.queues j = s.sentTo j
  /-- The items of a source are numbered. -/
  numbered : ∀ k, (s.pushed k).map (fun x => (x.src, x.seq)) = (List.range (s.pushed k).length).map fun i => (k, i)
  /-- What was dispatched went to a right target. -/
  routed : ∀ e ∈ s.trace, pool.Right e.1 e.2
  fits : pool.Fits s.pc

variable {pool : Pool T} {s s' : St T} {srcCapacity : ℕ → ℕ} {capacity : Target → ℕ}

theorem inv_init : Inv pool (init : St T) :=
  ⟨fun _ => rfl, fun _ => rfl, fun _ => rfl, fun _ h => absurd h List.not_mem_nil, trivial⟩

theorem Inv.src_of_mem (h : Inv pool s) {k : ℕ} {x : Item T} (hx : x ∈ s.pushed k) : x.src = k := by
  have hmem : (x.src, x.seq) ∈ (s.pushed k).map fun x => (x.src, x.seq) := List.mem_map_of_mem hx
  rw [h.numbered k] at hmem
  obtain ⟨i, -, hi⟩ := List.mem_map.mp hmem
  cases hi
  rfl

theorem Inv.nodup (h : Inv pool s) (k : ℕ) : (s.pushed k).Nodup := by
  refine List.Nodup.of_map (fun x => (x.src, x.seq)) ?_
  rw [h.numbered k]
  exact List.nodup_range.map fun i j hij => (Prod.mk.inj hij).2

/-- The dispatcher goes on, and nothing moves. -/
theorem Inv.goto (h : Inv pool s) (running : Bool) (i : ℕ) {pc : Pc T} (hhand : pc.hand = s.pc.hand)
    (hfits : pool.Fits pc) : Inv pool { s with running := running, trsqsI := i, pc := pc } := by
  refine ⟨fun k => ?_, h.targets, h.numbered, h.routed, hfits⟩
  show s.pushed k = s.sentFrom k ++ (pc.hand.filter fun x => x.src = k) ++ s.sources k
  rw [hhand]
  exact h.sources k

theorem Inv.produce (h : Inv pool s) (k : ℕ) (t : T) :
    Inv pool { s with
      sources := Function.update s.sources k (s.sources k ++ [⟨k, (s.pushed k).length, t⟩])
      pushed := Function.update s.pushed k (s.pushed k ++ [⟨k, (s.pushed k).length, t⟩]) } := by
  refine ⟨fun l => ?_, h.targets, fun l => ?_, h.routed, h.fits⟩
  · show Function.update s.pushed k _ l = s.sentFrom l ++ _ ++ Function.update s.sources k _ l
    by_cases hl : l = k
    · subst hl
      rw [Function.update_self, Function.update_self, ← List.append_assoc, ← h.sources l]
    · rw [Function.update_of_ne hl, Function.update_of_ne hl]
      exact h.sources l
  · show (Function.update s.pushed k _ l).map _ = (List.range (Function.update s.pushed k _ l).length).map _
    by_cases hl : l = k
    · subst hl
      rw [Function.update_self, List.map_append, h.numbered l, List.length_append, List.length_singleton, List.range_succ,
        List.map_append]
      rfl
    · rw [Function.update_of_ne hl]
      exact h.numbered l

theorem Inv.consume (h : Inv pool s) {j : Target} {x : Item T} {rest : List (Item T)} (hj : s.queues j = x :: rest) :
    Inv pool { s with
      queues := Function.update s.queues j rest, consumed := Function.update s.consumed j (s.consumed j ++ [x]) } := by
  refine ⟨h.sources, fun l => ?_, h.numbered, h.routed, h.fits⟩
  show Function.update s.consumed j _ l ++ Function.update s.queues j _ l = s.sentTo l
  by_cases hl : l = j
  · subst hl
    rw [Function.update_self, Function.update_self, List.append_assoc, List.singleton_append, ← hj]
    exact h.targets l
  · rw [Function.update_of_ne hl, Function.update_of_ne hl]
    exact h.targets l

/-- It takes an item. -/
theorem Inv.take (h : Inv pool s) (hpc : s.pc.hand = []) {k : ℕ} {x : Item T} {rest : List (Item T)}
    (hk : s.sources k = x :: rest) :
    Inv pool { s with sources := Function.update s.sources k rest, pc := .hold k x } := by
  have hmem : x ∈ s.pushed k := by
    rw [h.sources k, hk]
    exact List.mem_append_right _ (List.mem_cons_self ..)
  have hsrc := h.src_of_mem hmem
  refine ⟨fun l => ?_, h.targets, h.numbered, h.routed, hsrc⟩
  show s.pushed l = s.sentFrom l ++ ([x].filter fun y => y.src = l) ++ Function.update s.sources k rest l
  have hold := h.sources l
  rw [hpc, List.filter_nil, List.append_nil] at hold
  by_cases hl : l = k
  · subst hl
    rw [Function.update_self, hold, hk, List.filter_cons_of_pos (by simpa using hsrc), List.filter_nil, List.append_assoc,
      List.singleton_append]
  · have hne : x.src ≠ l := by
      rw [hsrc]
      exact Ne.symm hl
    rw [Function.update_of_ne hl, hold, List.filter_cons_of_neg (by simpa using hne), List.filter_nil, List.append_nil]

/-- It pushes the item. -/
theorem Inv.push (h : Inv pool s) {k : ℕ} {x : Item T} {j : Target} (hpc : s.pc = .push k x j) :
    Inv pool { s with
      queues := Function.update s.queues j (s.queues j ++ [x]), trace := s.trace ++ [(x, j)], pc := .poll (k + 1) } := by
  have hright : pool.Right x j := by
    have := h.fits
    rwa [hpc] at this
  refine ⟨fun l => ?_, fun l => ?_, h.numbered, ?_, trivial⟩
  · show s.pushed l = ((s.trace ++ [(x, j)]).filter fun e => e.1.src = l).map Prod.fst ++ [] ++ s.sources l
    have hold := h.sources l
    rw [hpc] at hold
    rw [hold, List.filter_append, List.map_append, List.append_nil]
    by_cases hl : x.src = l <;> simp [Pc.hand, St.sentFrom, hl]
  · show s.consumed l ++ Function.update s.queues j _ l = ((s.trace ++ [(x, j)]).filter fun e => e.2 = l).map Prod.fst
    rw [List.filter_append, List.map_append]
    have hold := h.targets l
    by_cases hl : l = j
    · subst hl
      rw [Function.update_self, ← List.append_assoc, hold]
      simp [St.sentTo]
    · rw [Function.update_of_ne hl, hold]
      simp [St.sentTo, Ne.symm hl]
  · intro e he
    rcases List.mem_append.mp he with hold | hnew
    · exact h.routed e hold
    · cases List.mem_singleton.mp hnew
      exact hright

/-! ### Every step keeps it -/

/-- **`choose_one_trsq` is in range**, whatever the counter is. -/
theorem Pool.chooseOneTrsq_lt (pool : Pool T) (i : ℕ) : (pool.chooseOneTrsq i).2 < pool.nTrsq := by
  rw [pool.same]
  exact Nat.mod_lt _ pool.pos

theorem Inv.dispatch (h : Inv pool s) (hs : pool.dispatch capacity s = some s') : Inv pool s' := by
  unfold Pool.dispatch at hs
  split at hs
  · rename_i hpc
    cases hs
    refine h.goto s.running s.trsqsI ?_ ?_
    · rw [hpc]
      split_ifs <;> rfl
    · split_ifs <;> trivial
  · rename_i k hpc
    split_ifs at hs
    · cases hs
      exact h.goto s.running s.trsqsI (by rw [hpc]; rfl) trivial
    · cases hs
      exact h.goto s.running s.trsqsI (by rw [hpc]; rfl) trivial
    · cases hs
      exact h.goto s.running s.trsqsI (by rw [hpc]; rfl) trivial
  · rename_i hpc
    cases hs
    refine h.goto s.running s.trsqsI ?_ ?_
    · rw [hpc]
      split_ifs <;> rfl
    · split_ifs <;> trivial
  · rename_i k hpc
    split_ifs at hs
    · split at hs
      · cases hs
        exact h.goto s.running s.trsqsI (by rw [hpc]; rfl) trivial
      · rename_i x rest hk
        cases hs
        exact h.take (by rw [hpc]; rfl) hk
    · cases hs
      exact h.goto s.running s.trsqsI (by rw [hpc]; rfl) trivial
  · rename_i k x hpc
    have hsrc : x.src = k := by
      have := h.fits
      rwa [hpc] at this
    split_ifs at hs with hfn
    · cases hs
      refine h.goto s.running _ (by rw [hpc]; rfl) ?_
      show pool.Right x (.trsq (pool.chooseOneTrsq s.trsqsI).2)
      rw [Pool.Right, if_pos (hsrc ▸ hfn)]
      exact ⟨_, pool.chooseOneTrsq_lt s.trsqsI, rfl⟩
    · cases hs
      refine h.goto s.running s.trsqsI (by rw [hpc]; rfl) ?_
      show pool.Right x .dsq
      rw [Pool.Right, if_neg (hsrc ▸ hfn)]
  · rename_i k x j hpc
    split_ifs at hs
    cases hs
    exact h.push hpc
  · cases hs

/-- **Every step keeps the invariant.** -/
theorem Inv.step {act : Act T} (h : Inv pool s) (hs : pool.step srcCapacity capacity s act = some s') : Inv pool s' := by
  cases act with
  | produce k t =>
    simp only [Pool.step] at hs
    split_ifs at hs
    cases hs
    exact h.produce k t
  | consume j =>
    simp only [Pool.step] at hs
    split at hs
    · cases hs
    · rename_i x rest hj
      cases hs
      exact h.consume hj
  | stop =>
    cases hs
    exact h.goto false s.trsqsI rfl h.fits
  | dispatch => exact h.dispatch hs

/-! ### The results -/

/-- What a dispatcher is to do. -/
structure Dispatched (pool : Pool T) (s : St T) : Prop where
  /-- Everything that was pushed to a source is at one place. -/
  place : ∀ k, ∀ x ∈ s.pushed k, ∃! p, x ∈ s.at p
  /-- It is there once. -/
  once : ∀ p, (s.at p).Nodup
  /-- A source has what was pushed to it, -/
  own : ∀ k, ∀ x ∈ s.sources k, x ∈ s.pushed k
  /-- and every other place what was pushed to some source. -/
  known : ∀ p, ∀ x ∈ s.at p, x ∈ s.pushed x.src
  /-- A task went to some `trsq` if it came from an `lsq` and `fn` holds, and to `dsq` otherwise. -/
  route : ∀ j, ∀ x ∈ s.consumed j ++ s.queues j, pool.Right x j
  /-- So will the one that is being pushed. -/
  next : pool.Fits s.pc
  /-- What goes from a source to a target keeps its order. -/
  order : ∀ k j, ((s.consumed j ++ s.queues j).filter fun x => x.src = k).Sublist (s.pushed k)

/-- A list without repetitions is one whose parts are. -/
theorem nodup_of_filter {α : Type} [DecidableEq α] {f : α → ℕ} {l : List α} (h : ∀ k, (l.filter fun x => f x = k).Nodup) :
    l.Nodup := by
  rw [List.nodup_iff_count_le_one]
  intro x
  have hcount : (l.filter fun y => f y = f x).count x = l.count x := List.count_filter (by simp)
  rw [← hcount]
  exact List.nodup_iff_count_le_one.mp (h (f x)) x

theorem Inv.nodup_sent (h : Inv pool s) : (s.trace.map Prod.fst).Nodup := by
  classical
  refine nodup_of_filter (f := Item.src) fun k => ?_
  have hsent : (s.trace.map Prod.fst).filter (fun x => x.src = k) = s.sentFrom k := by
    rw [List.filter_map]
    rfl
  have hnodup := h.nodup k
  rw [h.sources k, List.append_assoc] at hnodup
  rw [hsent]
  exact (List.nodup_append.mp hnodup).1

/-- The three parts of what was pushed to a source. -/
theorem Inv.mem_pushed (h : Inv pool s) {k : ℕ} {x : Item T} :
    x ∈ s.pushed k ↔ x.src = k ∧ (x ∈ s.trace.map Prod.fst ∨ x ∈ s.pc.hand) ∨ x ∈ s.sources k := by
  rw [h.sources k]
  simp only [List.mem_append, St.sentFrom, List.mem_map, List.mem_filter, decide_eq_true_eq]
  constructor
  · rintro ((⟨e, ⟨he, hk⟩, rfl⟩ | ⟨hx, hk⟩) | hx)
    · exact .inl ⟨hk, .inl ⟨e, he, rfl⟩⟩
    · exact .inl ⟨hk, .inr hx⟩
    · exact .inr hx
  · rintro (⟨hk, ⟨e, he, rfl⟩ | hx⟩ | hx)
    · exact .inl (.inl ⟨e, ⟨he, hk⟩, rfl⟩)
    · exact .inl (.inr ⟨hx, hk⟩)
    · exact .inr hx

/-- What is at a target was dispatched to it. -/
theorem Inv.mem_trace (h : Inv pool s) {x : Item T} {j : Target} (hx : x ∈ s.consumed j ++ s.queues j) :
    (x, j) ∈ s.trace := by
  rw [h.targets j] at hx
  obtain ⟨⟨y, l⟩, he, rfl⟩ := List.mem_map.mp hx
  obtain ⟨he, hl⟩ := List.mem_filter.mp he
  have hl : l = j := by simpa using hl
  rwa [← hl]

theorem Inv.mem_target (h : Inv pool s) {x : Item T} {j : Target} (hx : (x, j) ∈ s.trace) :
    x ∈ s.consumed j ++ s.queues j := by
  rw [h.targets j]
  exact List.mem_map.mpr ⟨(x, j), List.mem_filter.mpr ⟨hx, by simp⟩, rfl⟩

theorem Inv.nodup_target (h : Inv pool s) (j : Target) : (s.consumed j ++ s.queues j).Nodup := by
  rw [h.targets j]
  exact h.nodup_sent.sublist (List.filter_sublist.map Prod.fst)

theorem Inv.target_unique (h : Inv pool s) {x : Item T} {j l : Target} (hj : (x, j) ∈ s.trace) (hl : (x, l) ∈ s.trace) :
    j = l :=
  (Prod.mk.inj (List.inj_on_of_nodup_map h.nodup_sent hj hl rfl)).2

/-- What was dispatched, what is held and what waits are different things. -/
theorem Inv.disjoint (h : Inv pool s) (x : Item T) :
    ¬ (x ∈ s.trace.map Prod.fst ∧ x ∈ s.pc.hand) ∧ ¬ (x ∈ s.trace.map Prod.fst ∧ x ∈ s.sources x.src) ∧
      ¬ (x ∈ s.pc.hand ∧ x ∈ s.sources x.src) := by
  have hnodup := h.nodup x.src
  rw [h.sources x.src, List.nodup_append, List.nodup_append] at hnodup
  obtain ⟨⟨-, -, hsentHand⟩, -, hrest⟩ := hnodup
  have hsent : x ∈ s.trace.map Prod.fst → x ∈ s.sentFrom x.src := by
    intro hx
    obtain ⟨e, he, rfl⟩ := List.mem_map.mp hx
    exact List.mem_map.mpr ⟨e, List.mem_filter.mpr ⟨he, by simp⟩, rfl⟩
  have hhand : x ∈ s.pc.hand → x ∈ s.pc.hand.filter fun y => y.src = x.src :=
    fun hx => List.mem_filter.mpr ⟨hx, by simp⟩
  refine ⟨?_, ?_, ?_⟩
  · rintro ⟨h₁, h₂⟩
    exact hsentHand x (hsent h₁) x (hhand h₂) rfl
  · rintro ⟨h₁, h₂⟩
    exact hrest x (List.mem_append_left _ (hsent h₁)) x h₂ rfl
  · rintro ⟨h₁, h₂⟩
    exact hrest x (List.mem_append_right _ (hhand h₁)) x h₂ rfl

/-- The part of what was pushed that a place has. -/
theorem Inv.part (h : Inv pool s) {x : Item T} {p : Place} (hx : x ∈ s.at p) :
    p = .source x.src ∧ x ∈ s.sources x.src ∨ p = .hand ∧ x ∈ s.pc.hand ∨
      ∃ j, (x, j) ∈ s.trace ∧ (p = .queue j ∧ x ∈ s.queues j ∨ p = .consumed j ∧ x ∈ s.consumed j) := by
  cases p with
  | source k =>
    have hk := h.src_of_mem (h.mem_pushed.mpr (.inr hx))
    subst hk
    exact .inl ⟨rfl, hx⟩
  | hand => exact .inr (.inl ⟨rfl, hx⟩)
  | queue j => exact .inr (.inr ⟨j, h.mem_trace (List.mem_append_right _ hx), .inl ⟨rfl, hx⟩⟩)
  | consumed j => exact .inr (.inr ⟨j, h.mem_trace (List.mem_append_left _ hx), .inr ⟨rfl, hx⟩⟩)

theorem Inv.place_unique (h : Inv pool s) {x : Item T} {p q : Place} (hp : x ∈ s.at p) (hq : x ∈ s.at q) : p = q := by
  obtain ⟨hd₁, hd₂, hd₃⟩ := h.disjoint x
  have hsent : ∀ {j}, (x, j) ∈ s.trace → x ∈ s.trace.map Prod.fst := fun hj => List.mem_map.mpr ⟨_, hj, rfl⟩
  rcases h.part hp with ⟨rfl, hx⟩ | ⟨rfl, hx⟩ | ⟨j, hj, hx⟩ <;> rcases h.part hq with ⟨rfl, hy⟩ | ⟨rfl, hy⟩ | ⟨l, hl, hy⟩
  · rfl
  · exact absurd ⟨hy, hx⟩ hd₃
  · exact absurd ⟨hsent hl, hx⟩ hd₂
  · exact absurd ⟨hx, hy⟩ hd₃
  · rfl
  · exact absurd ⟨hsent hl, hx⟩ hd₁
  · exact absurd ⟨hsent hj, hy⟩ hd₂
  · exact absurd ⟨hsent hj, hy⟩ hd₁
  · obtain rfl := h.target_unique hj hl
    have hnot : ∀ y ∈ s.consumed j, ∀ z ∈ s.queues j, y ≠ z := (List.nodup_append.mp (h.nodup_target j)).2.2
    rcases hx with ⟨rfl, hx⟩ | ⟨rfl, hx⟩ <;> rcases hy with ⟨rfl, hy⟩ | ⟨rfl, hy⟩
    · rfl
    · exact absurd rfl (hnot x hy x hx)
    · exact absurd rfl (hnot x hx x hy)
    · rfl

theorem Inv.exists_place (h : Inv pool s) {k : ℕ} {x : Item T} (hx : x ∈ s.pushed k) : ∃ p, x ∈ s.at p := by
  rcases h.mem_pushed.mp hx with ⟨-, hsent | hhand⟩ | hsource
  · obtain ⟨⟨y, j⟩, he, rfl⟩ := List.mem_map.mp hsent
    rcases List.mem_append.mp (h.mem_target he) with hc | hq
    · exact ⟨.consumed j, hc⟩
    · exact ⟨.queue j, hq⟩
  · exact ⟨.hand, hhand⟩
  · exact ⟨.source k, hsource⟩

theorem Inv.mem_pushed_of_at (h : Inv pool s) {x : Item T} {p : Place} (hx : x ∈ s.at p) : x ∈ s.pushed x.src := by
  rw [h.mem_pushed]
  rcases h.part hx with ⟨-, hs⟩ | ⟨-, hh⟩ | ⟨j, hj, -⟩
  · exact .inr hs
  · exact .inl ⟨rfl, .inr hh⟩
  · exact .inl ⟨rfl, .inl (List.mem_map.mpr ⟨_, hj, rfl⟩)⟩

theorem Inv.nodup_at (h : Inv pool s) (p : Place) : (s.at p).Nodup := by
  cases p with
  | source k =>
    have hnodup := h.nodup k
    rw [h.sources k] at hnodup
    exact (List.nodup_append.mp hnodup).2.1
  | hand =>
    show s.pc.hand.Nodup
    cases s.pc <;> simp [Pc.hand]
  | queue j => exact (List.nodup_append.mp (h.nodup_target j)).2.1
  | consumed j => exact (List.nodup_append.mp (h.nodup_target j)).1

theorem Inv.order (h : Inv pool s) (k : ℕ) (j : Target) :
    ((s.consumed j ++ s.queues j).filter fun x => x.src = k).Sublist (s.pushed k) := by
  have hsub : ((s.consumed j ++ s.queues j).filter fun x => x.src = k).Sublist (s.sentFrom k) := by
    rw [h.targets j, St.sentTo, List.filter_map, List.filter_comm, St.sentFrom]
    exact List.filter_sublist.map Prod.fst
  rw [h.sources k, List.append_assoc]
  exact hsub.trans (List.sublist_append_left ..)

theorem Inv.dispatched (h : Inv pool s) : Dispatched pool s := by
  refine ⟨?_, h.nodup_at, ?_, ?_, ?_, h.fits, h.order⟩
  · intro k x hx
    obtain ⟨p, hp⟩ := h.exists_place hx
    exact ⟨p, hp, fun q hq => h.place_unique hq hp⟩
  · intro k x hx
    exact h.mem_pushed.mpr (.inr hx)
  · intro p x hx
    exact h.mem_pushed_of_at hx
  · intro j x hx
    exact h.routed (x, j) (h.mem_trace hx)

/-- **The dispatcher of a pipeline.** In every run, whatever the producers and the consumers do meanwhile, every task that
was pushed to a source queue is at one place; it went to some `trsq` if it came from an `lsq` and `fn` holds, and to `dsq`
otherwise; what goes from one source to one target keeps its order; and `choose_one_trsq` is in range for every value of
the counter. -/
theorem dispatched_of_run (pool : Pool T) (srcCapacity : ℕ → ℕ) (capacity : Target → ℕ) {acts : List (Act T)}
    (hrun : run (pool.step srcCapacity capacity) init acts = some s) :
    Dispatched pool s ∧ ∀ i, (pool.chooseOneTrsq i).2 < pool.nTrsq :=
  ⟨(inv_of_run (fun _ _ _ h hs => Inv.step h hs) inv_init hrun).dispatched, pool.chooseOneTrsq_lt⟩

/-- The pool of `pipeline_offload_server`; a task is its partition. -/
def samplePool : Pool ℕ := ⟨1, 2, 2, rfl, by decide, id, fun pid => pid % 2 == 0⟩

/-- Two tasks of the local worker and one of a remote worker; the first is dispatched, and the second comes while the
dispatcher goes on. -/
def sampleActs : List (Act ℕ) :=
  [.produce 0 4, .produce 1 6] ++ List.replicate 6 .dispatch ++ [.produce 0 5, .consume (.trsq 1)] ++
    List.replicate 10 .dispatch

theorem dispatched_sample :
    ∃ s, run (samplePool.step (fun _ => 32) fun _ => 64) init sampleActs = some s ∧ Dispatched samplePool s ∧
      s.consumed (.trsq 1) = [⟨0, 0, 4⟩] ∧ s.queues .dsq = [⟨1, 0, 6⟩] ∧ s.pc.hand = [⟨0, 1, 5⟩] := by
  obtain ⟨s, hrun, h₁, h₂, h₃⟩ : ∃ s, run (samplePool.step (fun _ => 32) fun _ => 64) init sampleActs = some s ∧
      s.consumed (.trsq 1) = [⟨0, 0, 4⟩] ∧ s.queues .dsq = [⟨1, 0, 6⟩] ∧ s.pc.hand = [⟨0, 1, 5⟩] := ⟨_, rfl, rfl, rfl, rfl⟩
  exact ⟨s, hrun, (dispatched_of_run samplePool _ _ hrun).1, h₁, h₂, h₃⟩

end DShuffle.Shuffle.Dispatch
