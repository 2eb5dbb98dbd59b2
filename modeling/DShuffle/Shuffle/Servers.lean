import DShuffle.Base.Tokens
import DShuffle.Base.Transition
import Mathlib.Data.List.Nodup

/-!
# The pair of DPU servers

A server takes partition buffers from its host (`lsqs`) and from the other server
(`rsqs`). Its dispatcher keeps what comes from the other server; what comes from
its host it keeps or forwards (`trsqs`), by a predicate on the partition. What is
kept (`dsq`) is spilled on this node. Both servers of `pipeline_offload_server`
have the same predicate; those of `offload_server` have opposite ones.

## The model

* The buffers of both nodes are tokens, and every queue is a place. A step of a
  dispatcher or of a worker moves the first buffer of a queue; transfers and spills
  end in any order.
* A buffer that is forwarded is in transit until the other server's handler has
  read it and queued it.

## What is proved

* `length_le_of_run` — every run comes to an end when no more buffers arrive.
* `colocated_iff` — in every run that has come to an end each buffer is spilled
  once, and the buffers of every partition are on one node exactly if the servers
  are those of `offload_server` or no partition came from both hosts.

## Honest scope

Every transfer succeeds and the queues have room. Which of the two hosts' workers
a server is connected to, and the contents of the buffers, are left out.
-/

namespace DShuffle.Shuffle

open Base

/-- The nodes. -/
inductive Node where
  /-- `dpu20`, and its host. -/
  | dpu20
  /-- `dpu21`, and its host. -/
  | dpu21
  deriving DecidableEq

/-- The other node. -/
def Node.peer : Node → Node
  | .dpu20 => .dpu21
  | .dpu21 => .dpu20

/-- The applications. -/
inductive App where
  /-- `pipeline_offload_server`. -/
  | pipelineOffloadServer
  /-- `offload_server`. -/
  | offloadServer
  deriving DecidableEq

namespace App

/-- `n_l_worker`. -/
def nLWorker : App → ℕ
  | .pipelineOffloadServer => 1
  | .offloadServer => 2

/-- `n_r_worker`. -/
def nRWorker : App → ℕ
  | .pipelineOffloadServer => 2
  | .offloadServer => 2

/-- The dispatch predicate of a server: the partition belongs to the other node. -/
def fn : App → Node → ℕ → Bool
  | .pipelineOffloadServer, _, pid => pid % 2 == 0
  | .offloadServer, .dpu21, pid => pid % 2 == 0
  | .offloadServer, .dpu20, pid => pid % 2 == 1

end App

/-- A partition buffer that a host sends. -/
structure Buf where
  /-- The host that produced it. -/
  host : Node
  /-- How many buffers were sent before. -/
  serial : ℕ
  /-- Its partition. -/
  pid : ℕ
  deriving DecidableEq

/-- Where a buffer can be. -/
inductive Place where
  /-- In `lsqs[i]`. -/
  | lsq (n : Node) (i : ℕ)
  /-- In `trsqs[i]`. -/
  | trsq (n : Node) (i : ℕ)
  /-- On the way to the other node, by worker `i`. -/
  | transit (n : Node) (i : ℕ)
  /-- In `rsqs[i]`. -/
  | rsq (n : Node) (i : ℕ)
  /-- In `dsq`. -/
  | dsq (n : Node)
  /-- Being spilled. -/
  | spilling (n : Node)
  /-- Spilled. -/
  | spilled (n : Node)
  deriving DecidableEq

/-- The state of both servers. -/
structure Servers where
  /-- The buffers. -/
  tokens : Tokens Buf Place
  /-- `trsqs_i` of each. -/
  turn : Node → ℕ
  /-- The buffers that the hosts have sent. -/
  fed : List Buf

/-- The steps. -/
inductive ServerAct where
  /-- A host sends a buffer of a partition to local worker `i`. -/
  | feed (n : Node) (i pid : ℕ)
  /-- The dispatcher takes a task from `lsqs[i]`. -/
  | dispatchLocal (n : Node) (i : ℕ)
  /-- The dispatcher takes a task from `rsqs[i]`. -/
  | dispatchRemote (n : Node) (i : ℕ)
  /-- A worker takes a task from `trsqs[i]`. -/
  | send (n : Node) (i : ℕ)
  /-- A buffer in transit has been read by the other node and is queued there. -/
  | arrive (n : Node) (i : ℕ) (b : Buf)
  /-- A task is taken from `dsq`. -/
  | take (n : Node)
  /-- A buffer has been spilled. -/
  | spill (n : Node) (b : Buf)
  deriving DecidableEq

namespace Servers

/-- The first buffer of a queue goes elsewhere. -/
def pop (s : Servers) (p : Place) (next : Buf → Place) : Option Servers :=
  (s.tokens.first? p).map fun b => { s with tokens := s.tokens.move b p (next b) }

/-- A given buffer goes elsewhere. -/
def finish (s : Servers) (b : Buf) (p p' : Place) : Option Servers :=
  if (b, p) ∈ s.tokens then some { s with tokens := s.tokens.move b p p' } else none

/-- A step of the servers. -/
def step (app : App) (s : Servers) : ServerAct → Option Servers
  | .feed n i pid =>
    if i < app.nLWorker then
      let b : Buf := ⟨n, s.fed.length, pid⟩
      some { s with tokens := s.tokens ++ [(b, .lsq n i)], fed := s.fed ++ [b] }
    else none
  | .dispatchLocal n i =>
    match s.tokens.first? (.lsq n i) with
    | some b =>
      if app.fn n b.pid then
        let turn := (s.turn n + 1) % 2 ^ 32
        some { s with
          tokens := s.tokens.move b (.lsq n i) (.trsq n (turn % app.nRWorker)), turn := Function.update s.turn n turn }
      else some { s with tokens := s.tokens.move b (.lsq n i) (.dsq n) }
    | none => none
  | .dispatchRemote n i => s.pop (.rsq n i) fun _ => .dsq n
  | .send n i => s.pop (.trsq n i) fun _ => .transit n i
  | .arrive n i b => s.finish b (.transit n i) (.rsq n.peer i)
  | .take n => s.pop (.dsq n) fun _ => .spilling n
  | .spill n b => s.finish b (.spilling n) (.spilled n)

/-- The start. -/
def init : Servers := ⟨[], fun _ => 0, []⟩

end Servers

/-- The step brings a new buffer. -/
def ServerAct.isFeed : ServerAct → Bool
  | .feed _ _ _ => true
  | _ => false

/-! ### What a step does -/

namespace Servers

variable {app : App} {s s' : Servers} {act : ServerAct}

/-- The node where a buffer is spilled. -/
def dest (app : App) (b : Buf) : Node := if app.fn b.host b.pid then b.host.peer else b.host

/-- The places where a buffer can be, by the predicates. -/
def Fits (app : App) (b : Buf) : Place → Prop
  | .lsq n _ => b.host = n
  | .trsq n _ => b.host = n ∧ app.fn n b.pid = true
  | .transit n _ => b.host = n ∧ app.fn n b.pid = true
  | .rsq n _ => dest app b = n
  | .dsq n => dest app b = n
  | .spilling n => dest app b = n
  | .spilled n => dest app b = n

/-- The steps that a buffer has before it. -/
def steps : Place → ℕ
  | .lsq _ _ => 6
  | .trsq _ _ => 5
  | .transit _ _ => 4
  | .rsq _ _ => 3
  | .dsq _ => 2
  | .spilling _ => 1
  | .spilled _ => 0

/-- **A step that brings no buffer moves one**, forward and to a place where it may be. -/
theorem step_move (hs : s.step app act = some s') (hf : act.isFeed = false) :
    ∃ b p p', (b, p) ∈ s.tokens ∧ s'.tokens = s.tokens.move b p p' ∧ s'.fed = s.fed ∧ steps p' < steps p ∧
      (Fits app b p → Fits app b p') := by
  have hpop : ∀ p next, s.pop p next = some s' → ∃ b, (b, p) ∈ s.tokens ∧ s'.tokens = s.tokens.move b p (next b) ∧
      s'.fed = s.fed := by
    intro p next h
    obtain ⟨b, hb, rfl⟩ := Option.map_eq_some_iff.mp h
    exact ⟨b, Tokens.mem_of_first? hb, rfl, rfl⟩
  have hfinish : ∀ b p p', s.finish b p p' = some s' → (b, p) ∈ s.tokens ∧ s'.tokens = s.tokens.move b p p' ∧
      s'.fed = s.fed := by
    intro b p p' h
    unfold finish at h
    split_ifs at h with hb
    cases h
    exact ⟨hb, rfl, rfl⟩
  cases act with
  | feed n i pid => cases hf
  | dispatchLocal n i =>
    simp only [step] at hs
    split at hs
    · rename_i b hb
      have hmem := Tokens.mem_of_first? hb
      split_ifs at hs with hfn
      · cases hs
        exact ⟨b, _, _, hmem, rfl, rfl, by simp only [steps]; omega, fun h => ⟨h, hfn⟩⟩
      · cases hs
        refine ⟨b, _, _, hmem, rfl, rfl, by simp only [steps]; omega, fun h => ?_⟩
        have hhost : b.host = n := h
        show (if app.fn b.host b.pid then b.host.peer else b.host) = n
        rw [hhost, if_neg hfn]
    · cases hs
  | dispatchRemote n i =>
    obtain ⟨b, hb, ht, hfed⟩ := hpop _ _ hs
    exact ⟨b, _, _, hb, ht, hfed, by simp only [steps]; omega, id⟩
  | send n i =>
    obtain ⟨b, hb, ht, hfed⟩ := hpop _ _ hs
    exact ⟨b, _, _, hb, ht, hfed, by simp only [steps]; omega, id⟩
  | arrive n i b =>
    obtain ⟨hb, ht, hfed⟩ := hfinish _ _ _ hs
    refine ⟨b, _, _, hb, ht, hfed, by simp only [steps]; omega, fun h => ?_⟩
    obtain ⟨hhost, hfn⟩ := h
    show (if app.fn b.host b.pid then b.host.peer else b.host) = n.peer
    rw [hhost, if_pos hfn]
  | take n =>
    obtain ⟨b, hb, ht, hfed⟩ := hpop _ _ hs
    exact ⟨b, _, _, hb, ht, hfed, by simp only [steps]; omega, id⟩
  | spill n b =>
    obtain ⟨hb, ht, hfed⟩ := hfinish _ _ _ hs
    exact ⟨b, _, _, hb, ht, hfed, by simp only [steps]; omega, id⟩

/-- A step that brings a buffer puts it into a queue of its host. -/
theorem step_feed {n : Node} {i pid : ℕ} (hs : s.step app (.feed n i pid) = some s') :
    s'.tokens = s.tokens ++ [(⟨n, s.fed.length, pid⟩, .lsq n i)] ∧ s'.fed = s.fed ++ [⟨n, s.fed.length, pid⟩] := by
  simp only [step] at hs
  split_ifs at hs
  cases hs
  exact ⟨rfl, rfl⟩

/-- **The invariant**: every buffer that was sent is at one place, and it may be there. -/
structure Inv (app : App) (s : Servers) : Prop where
  /-- The buffers are those that were sent. -/
  perm : (s.tokens.map Prod.fst).Perm s.fed
  /-- Each is where it may be. -/
  fits : ∀ t ∈ s.tokens, Fits app t.1 t.2
  /-- They are numbered. -/
  serial : s.fed.map Buf.serial = List.range s.fed.length

theorem inv_init (app : App) : Inv app init := ⟨List.Perm.refl _, fun _ h => (List.not_mem_nil h).elim, rfl⟩

theorem Inv.step (h : Inv app s) (hs : s.step app act = some s') : Inv app s' := by
  cases hf : act.isFeed with
  | true =>
    cases act with
    | feed n i pid =>
      obtain ⟨ht, hfed⟩ := step_feed hs
      refine ⟨?_, fun t hmem => ?_, ?_⟩
      · rw [ht, hfed, List.map_append]
        exact h.perm.append_right _
      · rw [ht] at hmem
        rcases List.mem_append.mp hmem with hmem | hmem
        · exact h.fits t hmem
        · rw [List.mem_singleton.mp hmem]
          rfl
      · rw [hfed, List.map_append, h.serial, List.length_append, List.length_singleton, List.range_succ]
        rfl
    | dispatchLocal | dispatchRemote | send | arrive | take | spill => cases hf
  | false =>
    obtain ⟨b, p, p', hb, ht, hfed, -, hfits⟩ := step_move hs hf
    refine ⟨?_, fun t hmem => ?_, ?_⟩
    · rw [ht, hfed]
      exact (Tokens.map_fst_move hb).trans h.perm
    · rw [ht] at hmem
      rcases Tokens.mem_move hmem with hmem | rfl
      · exact h.fits t hmem
      · exact hfits (h.fits _ hb)
    · rw [hfed]
      exact h.serial

/-- No buffer was sent twice. -/
theorem Inv.nodup (h : Inv app s) : (s.tokens.map Prod.fst).Nodup := by
  refine h.perm.nodup_iff.mpr (List.Nodup.of_map Buf.serial ?_)
  rw [h.serial]
  exact List.nodup_range

/-! ### Every run comes to an end -/

/-- The steps that are still to be taken. -/
def remaining (s : Servers) : ℕ := s.tokens.weight steps

theorem remaining_step (hs : s.step app act = some s') :
    s'.remaining + (if act.isFeed then 0 else 1) ≤ s.remaining + (if act.isFeed then 6 else 0) := by
  cases hf : act.isFeed with
  | true =>
    cases act with
    | feed n i pid =>
      obtain ⟨ht, -⟩ := step_feed hs
      have hw : s'.remaining = s.remaining + 6 := by
        rw [remaining, remaining, ht]
        simp [Tokens.weight, steps]
      rw [hw]
      exact Nat.le_refl _
    | dispatchLocal | dispatchRemote | send | arrive | take | spill => cases hf
  | false =>
    obtain ⟨b, p, p', hb, ht, -, hlt, -⟩ := step_move hs hf
    have hw := Tokens.weight_move steps hb p'
    rw [← ht] at hw
    have hw' : s'.remaining + steps p = s.remaining + steps p' := hw
    simp only [Bool.false_eq_true, if_false]
    omega

/-- **Every run comes to an end**: a buffer takes at most six steps. -/
theorem length_le_of_run {acts : List ServerAct} (hr : run (step app) s acts = some s') :
    acts.length ≤ s.remaining + 7 * acts.countP ServerAct.isFeed := by
  have hcount : s'.remaining + acts.length ≤ s.remaining + 7 * acts.countP ServerAct.isFeed := by
    induction acts generalizing s with
    | nil =>
      cases hr
      exact Nat.le_refl _
    | cons act acts ih =>
      obtain ⟨s₁, h₁, h₂⟩ := run_cons hr
      have hstep := remaining_step h₁
      have hrest := ih h₂
      rw [List.countP_cons, List.length_cons]
      split_ifs at hstep ⊢
      · omega
      · omega
  omega

/-- The run has come to an end: no step is possible but a new buffer. -/
def Ended (app : App) (s : Servers) : Prop := ∀ act, act.isFeed = false → s.step app act = none

/-- At the end every buffer is spilled. -/
theorem Ended.spilled (h : Ended app s) {b : Buf} {p : Place} (hb : (b, p) ∈ s.tokens) : ∃ n, p = .spilled n := by
  have hpop : ∀ p next, (b, p) ∈ s.tokens → s.pop p next ≠ none := by
    intro p next hmem hnone
    obtain ⟨b', hb'⟩ := Tokens.exists_first? hmem
    rw [pop, hb'] at hnone
    cases hnone
  have hfinish : ∀ p p', (b, p) ∈ s.tokens → s.finish b p p' ≠ none := by
    intro p p' hmem hnone
    rw [finish, if_pos hmem] at hnone
    cases hnone
  cases p with
  | lsq n i =>
    obtain ⟨b', hb'⟩ := Tokens.exists_first? hb
    have hnone := h (.dispatchLocal n i) rfl
    simp only [Servers.step, hb'] at hnone
    split_ifs at hnone
  | trsq n i => exact absurd (h (.send n i) rfl) (hpop _ _ hb)
  | transit n i => exact absurd (h (.arrive n i b) rfl) (hfinish _ _ hb)
  | rsq n i => exact absurd (h (.dispatchRemote n i) rfl) (hpop _ _ hb)
  | dsq n => exact absurd (h (.take n) rfl) (hpop _ _ hb)
  | spilling n => exact absurd (h (.spill n b) rfl) (hfinish _ _ hb)
  | spilled n => exact ⟨n, rfl⟩

/-- When every buffer is spilled, the run is at its end. -/
theorem ended_of_spilled (h : ∀ t ∈ s.tokens, ∃ n, t.2 = .spilled n) : Ended app s := by
  intro act hf
  cases hs : s.step app act with
  | none => rfl
  | some s' =>
    obtain ⟨b, p, p', hb, -, -, hlt, -⟩ := step_move hs hf
    obtain ⟨n, hn⟩ := h _ hb
    have hp : p = .spilled n := hn
    rw [hp] at hlt
    exact absurd hlt (Nat.not_lt_zero _)

/-! ### Where the buffers of a partition are spilled -/

/-- A buffer is spilled exactly once, on node `n`. -/
def SpilledOnce (s : Servers) (b : Buf) (n : Node) : Prop :=
  s.tokens.filter (fun t => t.1 = b) = [(b, .spilled n)]

/-- At the end every buffer is spilled once, where the predicates say. -/
theorem Inv.spilledOnce (h : Inv app s) (he : Ended app s) {b : Buf} (hb : b ∈ s.fed) : s.SpilledOnce b (dest app b) := by
  obtain ⟨⟨b', p⟩, hmem, rfl⟩ := List.mem_map.mp (h.perm.mem_iff.mpr hb)
  obtain ⟨n, rfl⟩ := he.spilled hmem
  have hdest : dest app b' = n := h.fits _ hmem
  rw [hdest]
  exact Tokens.filter_of_nodup h.nodup hmem

theorem SpilledOnce.unique {b : Buf} {n n' : Node} (h : s.SpilledOnce b n) (h' : s.SpilledOnce b n') : n = n' := by
  unfold SpilledOnce at h h'
  rw [h] at h'
  cases h'
  rfl

/-- The predicates of `offload_server` agree on where a partition belongs. -/
theorem dest_offloadServer (b : Buf) : dest .offloadServer b = if b.pid % 2 = 0 then .dpu20 else .dpu21 := by
  unfold dest
  rcases Nat.mod_two_eq_zero_or_one b.pid with hp | hp
  · cases hh : b.host with
    | dpu20 => simp [App.fn, hp]
    | dpu21 => simp [App.fn, hp, Node.peer]
  · cases hh : b.host with
    | dpu20 => simp [App.fn, hp, Node.peer]
    | dpu21 => simp [App.fn, hp]

/-- The equal predicates of `pipeline_offload_server` keep the buffers of the two hosts apart. -/
theorem dest_pipelineOffloadServer {b b' : Buf} (hp : b.pid = b'.pid) :
    dest .pipelineOffloadServer b = dest .pipelineOffloadServer b' ↔ b.host = b'.host := by
  have hpeer : ∀ n n' : Node, n.peer = n'.peer ↔ n = n' := by
    intro n n'
    cases n <;> cases n' <;> decide
  unfold dest
  by_cases heven : b'.pid % 2 = 0
  · simp [App.fn, hp, heven, hpeer]
  · simp [App.fn, hp, heven]

/-- The hosts and the partitions of the buffers that the steps bring. -/
def produced (acts : List ServerAct) : List (Node × ℕ) :=
  acts.filterMap fun act => match act with | .feed n _ pid => some (n, pid) | _ => none

theorem fed_of_run {acts : List ServerAct} (hr : run (step app) s acts = some s') :
    s'.fed.map (fun b => (b.host, b.pid)) = s.fed.map (fun b => (b.host, b.pid)) ++ produced acts := by
  induction acts generalizing s with
  | nil =>
    cases hr
    exact (List.append_nil _).symm
  | cons act acts ih =>
    obtain ⟨s₁, h₁, h₂⟩ := run_cons hr
    rw [ih h₂]
    cases hf : act.isFeed with
    | true =>
      cases act with
      | feed n i pid =>
        rw [(step_feed h₁).2, List.map_append, List.append_assoc]
        rfl
      | dispatchLocal | dispatchRemote | send | arrive | take | spill => cases hf
    | false =>
      obtain ⟨b, p, p', -, -, hfed, -⟩ := step_move h₁ hf
      rw [hfed]
      cases act with
      | feed n i pid => cases hf
      | dispatchLocal | dispatchRemote | send | arrive | take | spill => rfl

/-- Every buffer is spilled exactly once, and the buffers of every partition on one node. -/
def Colocated (s : Servers) : Prop :=
  (∀ b ∈ s.fed, ∃ n, s.SpilledOnce b n) ∧ ∀ pid, ∃ n, ∀ b ∈ s.fed, b.pid = pid → s.SpilledOnce b n

/-- **When the partitions are co-located**: the servers are those of `offload_server`, or no partition came from both
hosts. -/
theorem colocated_iff (app : App) (acts : List ServerAct) (s : Servers) (hr : run (step app) init acts = some s)
    (he : Ended app s) :
    s.Colocated ↔ app = .offloadServer ∨
      ∀ pid, ¬ ((Node.dpu20, pid) ∈ produced acts ∧ (Node.dpu21, pid) ∈ produced acts) := by
  have hinv := inv_of_run (I := Inv app) (fun _ _ _ h hs => h.step hs) (inv_init app) hr
  have honce : ∀ b ∈ s.fed, s.SpilledOnce b (dest app b) := fun b hb => hinv.spilledOnce he hb
  have hproduced : ∀ n pid, (n, pid) ∈ produced acts ↔ ∃ b ∈ s.fed, b.host = n ∧ b.pid = pid := by
    intro n pid
    have hmap := fed_of_run hr
    rw [show init.fed.map (fun b => (b.host, b.pid)) = [] from rfl, List.nil_append] at hmap
    rw [← hmap, List.mem_map]
    simp only [Prod.mk.injEq]
  constructor
  · rintro ⟨-, hcol⟩
    cases app with
    | offloadServer => exact Or.inl rfl
    | pipelineOffloadServer =>
      refine Or.inr fun pid ⟨h₀, h₁⟩ => ?_
      obtain ⟨b, hb, hbh, hbp⟩ := (hproduced _ _).mp h₀
      obtain ⟨b', hb', hbh', hbp'⟩ := (hproduced _ _).mp h₁
      obtain ⟨n, hn⟩ := hcol pid
      have h₂ := (honce b hb).unique (hn b hb hbp)
      have h₃ := (honce b' hb').unique (hn b' hb' hbp')
      have hhost := (dest_pipelineOffloadServer (hbp.trans hbp'.symm)).mp (h₂.trans h₃.symm)
      rw [hbh, hbh'] at hhost
      cases hhost
  · intro hcond
    refine ⟨fun b hb => ⟨_, honce b hb⟩, fun pid => ?_⟩
    rcases hcond with rfl | hone
    · refine ⟨if pid % 2 = 0 then .dpu20 else .dpu21, fun b hb hbp => ?_⟩
      have h := honce b hb
      rw [dest_offloadServer, hbp] at h
      exact h
    · by_cases hex : ∃ b ∈ s.fed, b.pid = pid
      · obtain ⟨b, hb, hbp⟩ := hex
        refine ⟨dest app b, fun b' hb' hbp' => ?_⟩
        -- all of them came from one host
        have hhost : b'.host = b.host := by
          by_contra hne
          refine hone pid ?_
          rw [hproduced, hproduced]
          cases hb₀ : b.host with
          | dpu20 =>
            refine ⟨⟨b, hb, hb₀, hbp⟩, ⟨b', hb', ?_, hbp'⟩⟩
            cases hb₁ : b'.host with
            | dpu20 => exact absurd (hb₁.trans hb₀.symm) hne
            | dpu21 => rfl
          | dpu21 =>
            refine ⟨⟨b', hb', ?_, hbp'⟩, ⟨b, hb, hb₀, hbp⟩⟩
            cases hb₁ : b'.host with
            | dpu20 => rfl
            | dpu21 => exact absurd (hb₁.trans hb₀.symm) hne
        have hdest : dest app b' = dest app b := by
          unfold dest
          rw [hhost, hbp, hbp']
        rw [← hdest]
        exact honce b' hb'
      · exact ⟨.dpu20, fun b hb hbp => absurd ⟨b, hb, hbp⟩ hex⟩

/-- Each host sends a buffer of partition 1, and `dpu20` forwards its own. -/
def forwarded : List ServerAct :=
  [.feed .dpu20 0 1, .feed .dpu21 0 1, .dispatchLocal .dpu20 0, .dispatchLocal .dpu21 0, .send .dpu20 1,
    .arrive .dpu20 1 ⟨.dpu20, 0, 1⟩, .dispatchRemote .dpu21 1, .take .dpu21, .take .dpu21, .spill .dpu21 ⟨.dpu20, 0, 1⟩,
    .spill .dpu21 ⟨.dpu21, 1, 1⟩]

theorem colocated_iff_forwarded :
    (run (step .offloadServer) init forwarded).isSome = true ∧
      ∀ s, run (step .offloadServer) init forwarded = some s → Ended .offloadServer s ∧ s.Colocated := by
  refine ⟨by decide, fun s hs => ?_⟩
  have htokens : (run (step .offloadServer) init forwarded).map tokens =
      some [(⟨.dpu20, 0, 1⟩, .spilled .dpu21), (⟨.dpu21, 1, 1⟩, .spilled .dpu21)] := by decide
  rw [hs, Option.map_some, Option.some.injEq] at htokens
  have he : Ended .offloadServer s := by
    refine ended_of_spilled fun t ht => ?_
    rw [htokens] at ht
    simp only [List.mem_cons, List.not_mem_nil, or_false] at ht
    rcases ht with rfl | rfl
    · exact ⟨_, rfl⟩
    · exact ⟨_, rfl⟩
  exact ⟨he, (colocated_iff .offloadServer forwarded s hs he).mpr (Or.inl rfl)⟩

/-- Each host sends a buffer of partition 1, and each server keeps its own. -/
def kept : List ServerAct :=
  [.feed .dpu20 0 1, .feed .dpu21 0 1, .dispatchLocal .dpu20 0, .dispatchLocal .dpu21 0, .take .dpu20, .take .dpu21,
    .spill .dpu20 ⟨.dpu20, 0, 1⟩, .spill .dpu21 ⟨.dpu21, 1, 1⟩]

/-- **The servers of `pipeline_offload_server` spill a partition on both nodes.** -/
theorem not_colocated_kept :
    ¬ ∀ (app : App) (acts : List ServerAct) (s : Servers), run (step app) init acts = some s → Ended app s → s.Colocated := by
  intro hall
  have htokens : (run (step .pipelineOffloadServer) init kept).map (fun s => (s.tokens, s.fed)) =
      some ([(⟨.dpu20, 0, 1⟩, .spilled .dpu20), (⟨.dpu21, 1, 1⟩, .spilled .dpu21)],
        [⟨.dpu20, 0, 1⟩, ⟨.dpu21, 1, 1⟩]) := by decide
  obtain ⟨s, hs, hpair⟩ := Option.map_eq_some_iff.mp htokens
  obtain ⟨ht, hfed⟩ := Prod.mk.inj hpair
  have he : Ended .pipelineOffloadServer s := by
    refine ended_of_spilled fun t hmem => ?_
    rw [ht] at hmem
    simp only [List.mem_cons, List.not_mem_nil, or_false] at hmem
    rcases hmem with rfl | rfl
    · exact ⟨_, rfl⟩
    · exact ⟨_, rfl⟩
  obtain ⟨n, hn⟩ := (hall .pipelineOffloadServer kept s hs he).2 1
  have h₀ := hn ⟨.dpu20, 0, 1⟩ (by rw [hfed]; decide) rfl
  have h₁ := hn ⟨.dpu21, 1, 1⟩ (by rw [hfed]; decide) rfl
  unfold SpilledOnce at h₀ h₁
  rw [ht] at h₀ h₁
  have hn₀ : n = .dpu20 := by
    have h₂ : [((⟨.dpu20, 0, 1⟩ : Buf), Place.spilled .dpu20)] = [(⟨.dpu20, 0, 1⟩, .spilled n)] := h₀
    cases h₂
    rfl
  have hn₁ : n = .dpu21 := by
    have h₂ : [((⟨.dpu21, 1, 1⟩ : Buf), Place.spilled .dpu21)] = [(⟨.dpu21, 1, 1⟩, .spilled n)] := h₁
    cases h₂
    rfl
  rw [hn₀] at hn₁
  cases hn₁

end Servers

end DShuffle.Shuffle
