import DShuffle.Shuffle.Servers
import DShuffle.Spill.AgentBuffers
import DShuffle.Spill.Durable

/-!
# The whole pipeline

A host appends records to its spill agent. A worker of the agent posts a buffer; the
local worker of the server that has the same name reads it, and the servers queue it,
forward it or keep it. What is kept goes to a spiller: that of the server's own
`DirectSpillWorker` (`offload_server`), or that of the host's `BufferredHostSpillWorker`
(`pipeline_offload_server`). The write's completion is passed back from handler to
handler, and when it comes to the agent the buffer is free again.

## The model

* One machine for two hosts, two servers and two spillers. Its parts are the machines
  of `Spill.Agent`, `Servers` and `Spill.Session`; the steps of their own are steps of
  the whole, and those that join two of them move the bytes.
* `fetch` reads as many bytes as were posted from the buffer as it is at that time, and
  the server dies if the header has another length.
* Whether a handler gets a buffer from its pool and reads the whole of what was posted is
  a part of the action (`ok`). If not, its process dies.
* A spiller takes the buffers in any order: the `DirectSpillWorker` takes them in the
  order of `dsq`, but sixteen fibers carry them to the `BufferredHostSpillWorker`.
* The result of a write is a part of the action too. If it is positive the buffer is
  spilled, also if the write was short; if not, the process that wrote dies.
* A process that died takes no further step.
* A transfer of an agent completes only when its buffer is spilled.

## What is proved

* `Inv` — a buffer that a server has is a submission of an agent, as it was submitted;
  no submission is sent twice; what a spiller was given is being written, or was spilled,
  or its process died; and what an agent released is spilled. Every step keeps it
  (`Inv.step`).

## Honest scope

Any request may find its pool empty: `Spill.Producers` says when it does not. The queues
have room, and a worker has a fiber for every request. The replies are passed back in one
step, with the completion of the write. A process that waits for one that died goes on
waiting, and the writes in flight of one that died do not complete. The files are open for
the whole run. A server's buffer is not used again before the reply, so a forwarded buffer
is not read anew.
-/

namespace DShuffle.Shuffle

open Base Spill

/-! ### The model -/

/-- The bytes of a partition buffer. -/
def image (b : Agent.Buffer) : Bytes := le 8 b.partitionId ++ (le 8 b.totalSize ++ b.payload)

/-- `SpillTask(buf)`: a buffer that was read, as a task. -/
def taskOf (buffer : Bytes) : Option Task :=
  if h : headerSize ≤ lengthOf buffer ∧ lengthOf buffer ≤ buffer.length ∧ buffer.length < 2 ^ 63 then
    some ⟨buffer, h.1, h.2.1, h.2.2⟩
  else none

/-- Who writes the files. -/
def App.spiller : App → Worker
  | .pipelineOffloadServer => .buffered
  | .offloadServer => .direct

/-- The processes of both nodes. -/
inductive Process where
  /-- The host: its agent, and its `BufferredHostSpillWorker` if it has one. -/
  | host (n : Node)
  /-- The server on the DPU, and its `DirectSpillWorker` if it has one. -/
  | server (n : Node)
  deriving DecidableEq

/-- The process that writes the files of a node. -/
def App.writer : App → Node → Process
  | .pipelineOffloadServer, n => .host n
  | .offloadServer, n => .server n

/-- The hosts and the servers, as they are set up. -/
structure Deployment where
  /-- The application of the servers. -/
  app : App
  /-- The agent of a host. -/
  agent : Agent.Config
  /-- `max_n_partition`. -/
  maxNPartition : ℕ
  /-- The workers `spill0`, `spill1`, ... of the agent and of the server. -/
  workers : agent.nWorker = app.nLWorker
  /-- A write takes a whole buffer. -/
  bufferSize_lt : agent.bufferSize < 2 ^ 31
  /-- A partition is a `size_t`. -/
  partitions_le : maxNPartition ≤ 2 ^ 64

/-- The state of everything. -/
structure Cluster where
  /-- The agents. -/
  agents : Node → Agent.St
  /-- The servers. -/
  servers : Servers
  /-- By the serial number of a buffer: which submission it is, and what was read. -/
  fetched : List (ℕ × Bytes)
  /-- The files of each node. -/
  sessions : Node → Session
  /-- The buffers that the spiller was given. -/
  given : Node → List Buf
  /-- Which of them are being written. -/
  writing : Node → List ℕ
  /-- Which of them have been written, and how many bytes the write has put down. -/
  done : Node → List (ℕ × ℕ)
  /-- The processes that died. -/
  died : Process → Bool

/-- The steps. -/
inductive ClusterAct where
  /-- A step of the agent. -/
  | host (n : Node) (act : Agent.Act)
  /-- The server reads submission `k`, which worker `w` of the agent has posted. -/
  | fetch (n : Node) (w k : ℕ) (ok : Bool)
  /-- The servers move a buffer. -/
  | move (act : ServerAct) (ok : Bool)
  /-- The spiller takes a buffer and submits its write. -/
  | write (n : Node) (b : Buf)
  /-- A write completes, with this result. -/
  | written (n : Node) (i : ℕ) (res : ℤ)

/-- The step moves a buffer between the queues. -/
def ServerAct.isTransport : ServerAct → Bool
  | .feed _ _ _ => false
  | .spill _ _ => false
  | _ => true

/-- The processes that take part in a step. -/
def ServerAct.parties (app : App) : ServerAct → List Process
  | .feed n _ _ => [.host n, .server n]
  | .dispatchLocal n _ => [.server n]
  | .dispatchRemote n _ => [.server n]
  | .send n _ => [.server n]
  | .arrive n _ _ => [.server n, .server n.peer]
  | .take n => [.server n, app.writer n]
  | .spill n _ => [app.writer n]

/-- The process that has to act on a buffer at a place. -/
def Place.owner (app : App) : Place → Option Process
  | .lsq n _ => some (.server n)
  | .trsq n _ => some (.server n)
  | .transit n _ => some (.server n.peer)
  | .rsq n _ => some (.server n)
  | .dsq n => some (app.writer n)
  | .spilling n => some (app.writer n)
  | .spilled _ => none

/-- The process whose `handle_spill_request` reads the buffer in a step: the other server, or the host that has the
`BufferredHostSpillWorker`. -/
def ServerAct.handler (app : App) : ServerAct → Option Process
  | .arrive n _ _ => some (.server n.peer)
  | .take n => if app.writer n = .host n then some (.host n) else none
  | _ => none

namespace Cluster

/-- The submission that a buffer is. -/
def origin (s : Cluster) (b : Buf) : Option ℕ := (s.fetched[b.serial]?).map Prod.fst

/-- What was read of it. -/
def bytesOf (s : Cluster) (b : Buf) : Bytes := ((s.fetched[b.serial]?).map Prod.snd).getD []

/-- The server has read submission `k` of its host. -/
def isSent (s : Cluster) (n : Node) (k : ℕ) : Bool := s.servers.fed.any fun b => b.host == n && s.origin b == some k

/-- Submission `k` of the host is spilled. -/
def isAnswered (s : Cluster) (n : Node) (k : ℕ) : Bool :=
  s.servers.tokens.any fun t => t.1.host == n && s.origin t.1 == some k &&
    (t.2 == .spilled .dpu20 || t.2 == .spilled .dpu21)

/-- The replies allow the step of the agent. -/
def mayAct (s : Cluster) (n : Node) : Agent.Act → Bool
  | .complete w _ =>
    match (s.agents n).waiting w with
    | k :: _ => s.isAnswered n k
    | [] => false
  | _ => true

/-- None of the processes died. -/
def alive (s : Cluster) (ps : List Process) : Bool := ps.all fun p => !s.died p

/-- A process dies. -/
def die (s : Cluster) (p : Process) : Cluster := { s with died := Function.update s.died p true }

/-- A step of an agent. -/
def stepHost (dep : Deployment) (s : Cluster) (n : Node) (act : Agent.Act) : Option Cluster :=
  if s.alive [.host n] = true ∧ s.mayAct n act = true then
    (Agent.step dep.agent (s.agents n) act).map fun a => { s with agents := Function.update s.agents n a }
  else none

/-- `handle_spill_request` reads a buffer that was posted. -/
def fetch (dep : Deployment) (s : Cluster) (n : Node) (w k : ℕ) (ok : Bool) : Option Cluster :=
  if s.alive [.host n, .server n] = true ∧ k ∈ (s.agents n).waiting w ∧ s.isSent n k = false then
    match (s.agents n).subs[k]?, (s.agents n).transfers.find? fun t => t.key == (w, k) with
    | some sub, some t =>
      let bytes := (image ((s.agents n).buf sub.buffer)).take t.size
      if ok = true ∧ lengthOf bytes = t.size then
        (s.servers.step dep.app (.feed n w (partitionIdOf bytes))).map fun servers =>
          { s with servers := servers, fetched := s.fetched ++ [(k, bytes)] }
      else some (s.die (.server n))
    | _, _ => none
  else none

/-- The servers move a buffer. -/
def stepServers (dep : Deployment) (s : Cluster) (act : ServerAct) (ok : Bool) : Option Cluster :=
  if act.isTransport = true ∧ s.alive (act.parties dep.app) = true then
    (s.servers.step dep.app act).map fun servers =>
      match act.handler dep.app with
      | some p => if ok then { s with servers := servers } else s.die p
      | none => { s with servers := servers }
  else none

instance : LawfulBEq (Buf × Place) := inferInstance

/-- A round of `submit_direct_spill`. -/
def write (dep : Deployment) (s : Cluster) (n : Node) (b : Buf) : Option Cluster :=
  if s.alive [dep.app.writer n] = true ∧ (b, Place.spilling n) ∈ s.servers.tokens ∧ b ∉ s.given n then
    (taskOf (s.bytesOf b)).bind fun t =>
      (submitDirectSpill dep.app.spiller (s.sessions n) t).map fun session =>
        { s with
          sessions := Function.update s.sessions n session, given := Function.update s.given n (s.given n ++ [b])
          writing := Function.update s.writing n (s.writing n ++ [(s.sessions n).log.length]) }
  else none

/-- `io_uring` has put down what `res` says of write `j`, the `i`-th in flight. -/
def land (s : Cluster) (n : Node) (i j : ℕ) (res : ℤ) : Option Cluster :=
  ((s.sessions n).completePart i res.toNat).map fun session =>
    { s with
      sessions := Function.update s.sessions n session, writing := Function.update s.writing n ((s.writing n).eraseIdx i)
      done := Function.update s.done n (s.done n ++ [(j, res.toNat)]) }

/-- `progress_io`, and the handlers that wait for the result. -/
def written (dep : Deployment) (s : Cluster) (n : Node) (i : ℕ) (res : ℤ) : Option Cluster :=
  ((s.writing n)[i]?).bind fun j => ((s.given n)[j]?).bind fun b => (taskOf (s.bytesOf b)).bind fun t =>
    if s.alive [dep.app.writer n] = true ∧ -(2 ^ 31) ≤ res ∧ res ≤ t.nbytes dep.app.spiller then
      (s.land n i j res).bind fun s' =>
        if acknowledged dep.app.spiller t res then
          (s.servers.step dep.app (.spill n b)).map fun servers => { s' with servers := servers }
        else some (s'.die (dep.app.writer n))
    else none

/-- A step of the system. -/
def step (dep : Deployment) (s : Cluster) : ClusterAct → Option Cluster
  | .host n act => s.stepHost dep n act
  | .fetch n w k ok => s.fetch dep n w k ok
  | .move act ok => s.stepServers dep act ok
  | .write n b => s.write dep n b
  | .written n i res => s.written dep n i res

/-- A call names a partition that has a file, and its record fits a buffer. -/
def Fits (dep : Deployment) : ClusterAct → Prop
  | .host _ (.append p r) => p < dep.maxNPartition ∧ headerSize + r.bytes.length ≤ dep.agent.bufferSize
  | .host _ (.force p) => p < dep.maxNPartition
  | _ => True

/-- The start. -/
def init (dep : Deployment) : Cluster :=
  { agents := fun _ => Agent.init dep.agent, servers := Servers.init, fetched := []
    sessions := fun _ => createPartitionFiles dep.app.spiller false dep.maxNPartition, given := fun _ => []
    writing := fun _ => [], done := fun _ => [], died := fun _ => false }

end Cluster

/-! ### What the parts do -/

section
variable {cfg : Agent.Config} {a a' : Agent.St} {act : Agent.Act}

/-- What an agent submits: the active buffer of the partition of a call. -/
theorem agent_subs (hs : Agent.step cfg a act = some a') :
    a'.subs = a.subs ∨ ∃ p b, a.active p = some b ∧ a'.subs = a.subs ++ [⟨b, p, a.buf b⟩] ∧
      ((∃ r, act = .append p r ∧ (a.buf b).needSpill cfg.bufferSize (r.key.length + r.value.length) = true) ∨
        act = .force p) := by
  cases act with
  | append p r =>
    simp only [Agent.step] at hs
    split_ifs at hs
    cases hs
    show (a.appendOrSpill cfg p r).subs = _ ∨ _
    unfold Agent.St.appendOrSpill
    cases hb : a.active p with
    | none => exact Or.inl rfl
    | some b =>
      dsimp only
      split_ifs with hneed
      · exact Or.inr ⟨p, b, hb, rfl, Or.inl ⟨r, rfl, hneed⟩⟩
      · exact Or.inl rfl
  | force p =>
    simp only [Agent.step] at hs
    split_ifs at hs
    cases hs
    unfold Agent.St.forceSpill
    cases hb : a.active p with
    | none => exact Or.inl rfl
    | some b => exact Or.inr ⟨p, b, hb, rfl, Or.inr rfl⟩
  | acquire p =>
    obtain ⟨ro, b, rest, -, -, rfl⟩ := Agent.step_acquire hs
    exact Or.inl rfl
  | take w =>
    obtain ⟨-, -, rfl⟩ := Agent.step_take hs
    exact Or.inl rfl
  | send w =>
    obtain ⟨k, ks, sub, -, -, rfl⟩ := Agent.step_send hs
    exact Or.inl rfl
  | complete w size =>
    obtain ⟨k, ks, sub, -, -, -, rfl⟩ := Agent.step_complete hs
    exact Or.inl rfl
  | shutdown =>
    cases hs
    exact Or.inl rfl
  | exit w =>
    simp only [Agent.step] at hs
    split_ifs at hs
    cases hs
    exact Or.inl rfl

/-- The submissions keep their numbers. -/
theorem agent_subs_grow (hs : Agent.step cfg a act = some a') : a.subs <+: a'.subs := by
  rcases agent_subs hs with h | ⟨p, b, -, h, -⟩
  · exact ⟨[], by rw [h, List.append_nil]⟩
  · exact ⟨_, h.symm⟩

/-- What an agent has posted stays posted, what its workers take they take by number, and it releases the first buffer
that a worker waits for. -/
theorem agent_logs (hs : Agent.step cfg a act = some a') :
    (∀ t ∈ a.transfers, t ∈ a'.transfers) ∧ (∀ x ∈ a'.takes, x ∈ a.takes ∨ x.1 < cfg.nWorker) ∧
      (a'.releases = a.releases ∨ ∃ w size k ks, act = .complete w size ∧ a.waiting w = k :: ks ∧
        a'.releases = a.releases ++ [(w, k)]) := by
  have hsame : (∀ t ∈ a.transfers, t ∈ a.transfers) ∧ ∀ x ∈ a.takes, x ∈ a.takes ∨ x.1 < cfg.nWorker :=
    ⟨fun _ h => h, fun _ h => Or.inl h⟩
  cases act with
  | append p r =>
    simp only [Agent.step] at hs
    split_ifs at hs
    cases hs
    unfold Agent.St.appendOrSpill
    cases a.active p with
    | none => exact ⟨hsame.1, hsame.2, Or.inl rfl⟩
    | some b =>
      dsimp only
      split_ifs
      · exact ⟨hsame.1, hsame.2, Or.inl rfl⟩
      · exact ⟨hsame.1, hsame.2, Or.inl rfl⟩
  | force p =>
    simp only [Agent.step] at hs
    split_ifs at hs
    cases hs
    unfold Agent.St.forceSpill
    cases a.active p with
    | none => exact ⟨hsame.1, hsame.2, Or.inl rfl⟩
    | some b => exact ⟨hsame.1, hsame.2, Or.inl rfl⟩
  | acquire p =>
    obtain ⟨ro, b, rest, -, -, rfl⟩ := Agent.step_acquire hs
    exact ⟨hsame.1, hsame.2, Or.inl rfl⟩
  | take w =>
    have hw : w < cfg.nWorker := by
      simp only [Agent.step] at hs
      split_ifs at hs with hcond
      simp only [Agent.St.atTop, Bool.and_eq_true, decide_eq_true_eq] at hcond
      exact hcond.1.1.1.1
    obtain ⟨-, -, rfl⟩ := Agent.step_take hs
    refine ⟨hsame.1, fun x hx => ?_, Or.inl rfl⟩
    rcases List.mem_append.mp hx with hx | hx
    · exact Or.inl hx
    · obtain ⟨k, -, rfl⟩ := List.mem_map.mp hx
      exact Or.inr hw
  | send w =>
    obtain ⟨k, ks, sub, -, -, rfl⟩ := Agent.step_send hs
    exact ⟨fun _ h => List.mem_append_left _ h, hsame.2, Or.inl rfl⟩
  | complete w size =>
    obtain ⟨k, ks, sub, -, hwait, -, rfl⟩ := Agent.step_complete hs
    exact ⟨hsame.1, hsame.2, Or.inr ⟨w, size, k, ks, rfl, hwait, rfl⟩⟩
  | shutdown =>
    cases hs
    exact ⟨hsame.1, hsame.2, Or.inl rfl⟩
  | exit w =>
    simp only [Agent.step] at hs
    split_ifs at hs
    cases hs
    exact ⟨hsame.1, hsame.2, Or.inl rfl⟩

end

/-- A transport step moves a buffer that no spiller has, and spills none. The process that has to act on the buffer takes part in
it, and if a handler reads the buffer it is that process. -/
theorem servers_transport {app : App} {s s' : Servers} {act : ServerAct} (hs : s.step app act = some s')
    (ht : act.isTransport = true) :
    ∃ b p p', (b, p) ∈ s.tokens ∧ s'.tokens = s.tokens.move b p p' ∧ s'.fed = s.fed ∧ 2 ≤ Servers.steps p ∧
      1 ≤ Servers.steps p' ∧ ∃ q ∈ act.parties app, p.owner app = some q ∧ ∀ q', act.handler app = some q' → q' = q := by
  have hpop : ∀ p next, s.pop p next = some s' → ∃ b, (b, p) ∈ s.tokens ∧ s'.tokens = s.tokens.move b p (next b) ∧
      s'.fed = s.fed := by
    intro p next h
    obtain ⟨b, hb, rfl⟩ := Option.map_eq_some_iff.mp h
    exact ⟨b, Tokens.mem_of_first? hb, rfl, rfl⟩
  have hnone : ∀ q q' : Process, none = some q' → q' = q := fun _ _ h => by cases h
  cases act with
  | feed n i pid => cases ht
  | spill n b => cases ht
  | dispatchLocal n i =>
    have hq : ∃ q ∈ (ServerAct.dispatchLocal n i).parties app, (Place.lsq n i).owner app = some q ∧
        ∀ q', (ServerAct.dispatchLocal n i).handler app = some q' → q' = q :=
      ⟨_, List.mem_singleton_self _, rfl, hnone _⟩
    simp only [Servers.step] at hs
    split at hs
    · rename_i b hb
      split_ifs at hs
      · cases hs
        exact ⟨b, _, _, Tokens.mem_of_first? hb, rfl, rfl, by simp [Servers.steps], by simp [Servers.steps], hq⟩
      · cases hs
        exact ⟨b, _, _, Tokens.mem_of_first? hb, rfl, rfl, by simp [Servers.steps], by simp [Servers.steps], hq⟩
    · cases hs
  | dispatchRemote n i =>
    obtain ⟨b, hb, htok, hfed⟩ := hpop _ _ hs
    exact ⟨b, _, _, hb, htok, hfed, by simp [Servers.steps], by simp [Servers.steps], _, List.mem_singleton_self _, rfl, hnone _⟩
  | send n i =>
    obtain ⟨b, hb, htok, hfed⟩ := hpop _ _ hs
    exact ⟨b, _, _, hb, htok, hfed, by simp [Servers.steps], by simp [Servers.steps], _, List.mem_singleton_self _, rfl, hnone _⟩
  | take n =>
    obtain ⟨b, hb, htok, hfed⟩ := hpop _ _ hs
    refine ⟨b, _, _, hb, htok, hfed, by simp [Servers.steps], by simp [Servers.steps], app.writer n, by simp [ServerAct.parties], rfl,
      fun q' hq' => ?_⟩
    simp only [ServerAct.handler] at hq'
    split_ifs at hq' with hw
    rw [hw]
    exact (Option.some.inj hq').symm
  | arrive n i b =>
    simp only [Servers.step, Servers.finish] at hs
    split_ifs at hs with hb
    cases hs
    exact ⟨b, _, _, hb, rfl, rfl, by simp [Servers.steps], by simp [Servers.steps], _, by simp [ServerAct.parties], rfl,
      fun q' hq' => (Option.some.inj hq').symm⟩

/-- No transport step brings a new buffer. -/
theorem isFeed_of_transport {act : ServerAct} (ht : act.isTransport = true) : act.isFeed = false := by
  cases act with
  | feed n i pid => cases ht
  | dispatchLocal | dispatchRemote | send | arrive | take | spill => rfl

/-! ### The bytes of a buffer -/

theorem length_image (b : Agent.Buffer) : (image b).length = b.totalSize := by
  simp [image, Agent.Buffer.totalSize, headerSize, length_le]
  omega

theorem slice_le (v : ℕ) (bs : Bytes) : slice (le 8 v ++ bs) 0 8 = le 8 v := by
  rw [slice_append_left (by rw [length_le])]
  have h := slice_all (le 8 v)
  rwa [length_le] at h

theorem lengthOf_image (b : Agent.Buffer) (h : b.totalSize < 2 ^ 64) : lengthOf (image b) = b.totalSize := by
  have hslice := slice_append_right (le 8 b.partitionId) (le 8 b.totalSize ++ b.payload) 0 8
  rw [length_le, slice_le] at hslice
  rw [lengthOf, image, hslice, ofLe_le]
  exact Nat.mod_eq_of_lt h

theorem partitionIdOf_image (b : Agent.Buffer) (h : b.partitionId < 2 ^ 64) : partitionIdOf (image b) = b.partitionId := by
  rw [partitionIdOf, image, slice_le, ofLe_le]
  exact Nat.mod_eq_of_lt h

/-- What a spiller writes of a buffer is its payload. -/
theorem payload_of_image {b : Agent.Buffer} {t : Task} (h : b.totalSize < 2 ^ 64) (ht : t.buffer = image b) (k : Worker) :
    t.payload k = b.payload := by
  have hsize : t.totalSize k = b.totalSize := by
    cases k with
    | direct => exact (congrArg lengthOf ht).trans (lengthOf_image b h)
    | host => exact (congrArg List.length ht).trans (length_image b)
    | buffered => exact (congrArg lengthOf ht).trans (lengthOf_image b h)
  have hassoc : image b = (le 8 b.partitionId ++ le 8 b.totalSize) ++ b.payload := (List.append_assoc ..).symm
  have hlen : (le 8 b.partitionId ++ le 8 b.totalSize).length = headerSize := by
    rw [List.length_append, length_le, length_le]
    rfl
  have hslice := slice_append_right (le 8 b.partitionId ++ le 8 b.totalSize) b.payload 0 b.payload.length
  rw [hlen, slice_all] at hslice
  rw [Task.payload, ht, hsize, hassoc]
  refine Eq.trans ?_ hslice
  congr 1
  exact Nat.add_sub_cancel_left ..

/-- A buffer that was read whole is a task. -/
theorem taskOf_image (b : Agent.Buffer) (h : b.totalSize < 2 ^ 63) : ∃ t, taskOf (image b) = some t ∧ t.buffer = image b := by
  have hlen := length_image b
  have hlength : lengthOf (image b) = b.totalSize := lengthOf_image b (by omega)
  have hle : headerSize ≤ b.totalSize := Nat.le_add_right ..
  have hcond : headerSize ≤ lengthOf (image b) ∧ lengthOf (image b) ≤ (image b).length ∧ (image b).length < 2 ^ 63 :=
    ⟨by omega, by omega, by omega⟩
  exact ⟨_, dif_pos hcond, rfl⟩

/-- A task is its buffer. -/
theorem task_ext {t t' : Task} (h : t.buffer = t'.buffer) : t = t' := by
  cases t
  cases t'
  cases h
  rfl

theorem buffer_of_taskOf {bytes : Bytes} {t : Task} (h : taskOf bytes = some t) : t.buffer = bytes := by
  unfold taskOf at h
  split_ifs at h
  cases h
  rfl

/-! ### The invariant -/

namespace Cluster

variable {dep : Deployment} {s s' : Cluster} {b b' : Buf} {n : Node} {i j k w : ℕ} {res : ℤ} {ok : Bool}

/-- The buffer is submission `k` of its host, as it was submitted, and posted. -/
structure IsSubmission (s : Cluster) (b : Buf) (k : ℕ) (sub : Agent.Submission) : Prop where
  /-- What was read. -/
  read : s.fetched[b.serial]? = some (k, image sub.content)
  /-- What was submitted. -/
  subs : (s.agents b.host).subs[k]? = some sub
  /-- Its partition. -/
  pid : b.pid = sub.partition
  /-- It was posted. -/
  posted : ∃ t ∈ (s.agents b.host).transfers, t.serial = k

/-- **The invariant.** -/
structure Inv (dep : Deployment) (s : Cluster) : Prop where
  /-- The agents are as they should be. -/
  agents : ∀ n, ∃ loc, Agent.Inv dep.agent loc (s.agents n)
  /-- The calls are for partitions that have a file. -/
  parts : ∀ n, ∀ sub ∈ (s.agents n).subs, sub.partition < dep.maxNPartition
  /-- The workers of the agents are numbered. -/
  workers : ∀ n, ∀ x ∈ (s.agents n).takes, x.1 < dep.agent.nWorker
  /-- The servers are as they should be. -/
  servers : Servers.Inv dep.app s.servers
  /-- Every buffer of a server was read. -/
  length : s.fetched.length = s.servers.fed.length
  /-- It is a submission. -/
  origin : ∀ b ∈ s.servers.fed, ∃ k sub, s.IsSubmission b k sub
  /-- No submission is read twice. -/
  unique : ∀ b ∈ s.servers.fed, ∀ b' ∈ s.servers.fed, b.host = b'.host → s.origin b = s.origin b' → b = b'
  /-- What an agent has released is spilled. -/
  released : ∀ n w k, (w, k) ∈ (s.agents n).releases → s.isAnswered n k = true
  /-- Every partition has a file. -/
  files : ∀ n, (s.sessions n).files.length = dep.maxNPartition
  /-- The files are as they should be. -/
  torn : ∀ n, Session.Torn dep.app.spiller [] (s.sessions n) (s.writing n) (s.done n)
  /-- A spiller writes what was read. -/
  log : ∀ n, (s.sessions n).log.map Task.buffer = (s.given n).map s.bytesOf
  /-- A spiller is given a buffer once. -/
  nodup : ∀ n, (s.given n).Nodup
  /-- What it was given is being written, or was: if something was put down it is spilled. -/
  given : ∀ n i b, (s.given n)[i]? = some b →
    i ∈ s.writing n ∧ (b, Place.spilling n) ∈ s.servers.tokens ∨
      ∃ len, (i, len) ∈ s.done n ∧ (b, if len = 0 then Place.spilling n else Place.spilled n) ∈ s.servers.tokens
  /-- If nothing was put down, the process that wrote died. -/
  failed : ∀ n i, (i, 0) ∈ s.done n → s.died (dep.app.writer n) = true
  /-- What is spilled it was given. -/
  spilled : ∀ n b, (b, Place.spilled n) ∈ s.servers.tokens → b ∈ s.given n

theorem isAnswered_iff : s.isAnswered n k = true ↔
    ∃ b m, (b, Place.spilled m) ∈ s.servers.tokens ∧ b.host = n ∧ s.origin b = some k := by
  simp only [isAnswered, List.any_eq_true, Bool.and_eq_true, beq_iff_eq, Bool.or_eq_true]
  constructor
  · rintro ⟨⟨b, p⟩, hmem, ⟨hhost, hk⟩, hp⟩
    rcases hp with hp | hp
    · exact ⟨b, .dpu20, hp ▸ hmem, hhost, hk⟩
    · exact ⟨b, .dpu21, hp ▸ hmem, hhost, hk⟩
  · rintro ⟨b, m, hmem, hhost, hk⟩
    refine ⟨_, hmem, ⟨hhost, hk⟩, ?_⟩
    cases m with
    | dpu20 => exact Or.inl rfl
    | dpu21 => exact Or.inr rfl

theorem isSent_eq_false_iff : s.isSent n k = false ↔ ∀ b ∈ s.servers.fed, b.host = n → s.origin b ≠ some k := by
  simp only [isSent, List.any_eq_false, Bool.and_eq_true, beq_iff_eq, not_and]

theorem IsSubmission.origin {sub : Agent.Submission} (h : s.IsSubmission b k sub) : s.origin b = some k := by
  rw [Cluster.origin, h.read]
  rfl

theorem IsSubmission.bytesOf {sub : Agent.Submission} (h : s.IsSubmission b k sub) : s.bytesOf b = image sub.content := by
  rw [Cluster.bytesOf, h.read]
  rfl

theorem alive_iff {ps : List Process} : s.alive ps = true ↔ ∀ p ∈ ps, s.died p = false := by
  simp only [alive, List.all_eq_true, Bool.not_eq_true']

/-! ### What the steps do -/

/-- What the agent of a host does. -/
theorem stepHost_eq {act : Agent.Act} (hs : s.stepHost dep n act = some s') :
    s.alive [.host n] = true ∧ s.mayAct n act = true ∧ ∃ a, Agent.step dep.agent (s.agents n) act = some a ∧
      s' = { s with agents := Function.update s.agents n a } := by
  unfold stepHost at hs
  split_ifs at hs with hcond
  obtain ⟨a, ha, rfl⟩ := Option.map_eq_some_iff.mp hs
  exact ⟨hcond.1, hcond.2, a, ha, rfl⟩

/-- What a server does that reads: the buffer is queued, or the server dies. -/
theorem fetch_eq (hs : s.fetch dep n w k ok = some s') :
    s.alive [.host n, .server n] = true ∧ k ∈ (s.agents n).waiting w ∧ s.isSent n k = false ∧
      ∃ sub t, (s.agents n).subs[k]? = some sub ∧ t ∈ (s.agents n).transfers ∧ t.serial = k ∧
        ((∃ sv, s.servers.step dep.app (.feed n w (partitionIdOf ((image ((s.agents n).buf sub.buffer)).take t.size))) = some sv ∧
          s' = { s with servers := sv, fetched := s.fetched ++ [(k, (image ((s.agents n).buf sub.buffer)).take t.size)] }) ∨
            s' = s.die (.server n)) := by
  unfold fetch at hs
  split_ifs at hs with hcond
  split at hs
  · rename_i sub t hsub hfind
    have hkey : t.key = (w, k) := by simpa using List.find?_some hfind
    refine ⟨hcond.1, hcond.2.1, hcond.2.2, sub, t, hsub, List.mem_of_find?_eq_some hfind, (Prod.mk.inj hkey).2, ?_⟩
    simp only at hs
    split_ifs at hs
    · obtain ⟨sv, hsv, rfl⟩ := Option.map_eq_some_iff.mp hs
      exact Or.inl ⟨sv, hsv, rfl⟩
    · cases hs
      exact Or.inr rfl
  · cases hs

/-- What a step of the servers does: it moves a buffer, or the process whose handler reads the buffer dies. -/
theorem stepServers_eq {act : ServerAct} (hs : s.stepServers dep act ok = some s') :
    ∃ sv, act.isTransport = true ∧ s.alive (act.parties dep.app) = true ∧ s.servers.step dep.app act = some sv ∧
      (s' = { s with servers := sv } ∨ ∃ p, act.handler dep.app = some p ∧ s' = s.die p) := by
  unfold stepServers at hs
  by_cases hcond : act.isTransport = true ∧ s.alive (act.parties dep.app) = true
  · rw [if_pos hcond] at hs
    obtain ⟨sv, hsv, rfl⟩ := Option.map_eq_some_iff.mp hs
    refine ⟨sv, hcond.1, hcond.2, hsv, ?_⟩
    cases hp : act.handler dep.app with
    | none => exact Or.inl rfl
    | some p =>
      cases ok with
      | true => exact Or.inl rfl
      | false => exact Or.inr ⟨p, rfl, rfl⟩
  · rw [if_neg hcond] at hs
    cases hs

/-- What a spiller does that takes a buffer. -/
theorem write_eq (hs : s.write dep n b = some s') :
    s.alive [dep.app.writer n] = true ∧ (b, Place.spilling n) ∈ s.servers.tokens ∧ b ∉ s.given n ∧
      ∃ t session, taskOf (s.bytesOf b) = some t ∧ submitDirectSpill dep.app.spiller (s.sessions n) t = some session ∧
        s' = { s with
          sessions := Function.update s.sessions n session, given := Function.update s.given n (s.given n ++ [b])
          writing := Function.update s.writing n (s.writing n ++ [(s.sessions n).log.length]) } := by
  unfold write at hs
  split_ifs at hs with hcond
  obtain ⟨t, ht, hs⟩ := Option.bind_eq_some_iff.mp hs
  obtain ⟨session, hsub, rfl⟩ := Option.map_eq_some_iff.mp hs
  exact ⟨hcond.1, hcond.2.1, hcond.2.2, t, session, ht, hsub, rfl⟩

/-- What a completion does: the buffer is spilled if anything was put down, and the process that wrote dies if not. -/
theorem written_eq (hs : s.written dep n i res = some s') :
    ∃ j b t s₁, (s.writing n)[i]? = some j ∧ (s.given n)[j]? = some b ∧ taskOf (s.bytesOf b) = some t ∧
      s.alive [dep.app.writer n] = true ∧ res ≤ t.nbytes dep.app.spiller ∧ s.land n i j res = some s₁ ∧
        ((0 < res ∧ ∃ sv, s.servers.step dep.app (.spill n b) = some sv ∧ s' = { s₁ with servers := sv }) ∨
          res ≤ 0 ∧ s' = s₁.die (dep.app.writer n)) := by
  unfold written at hs
  obtain ⟨j, hj, hs⟩ := Option.bind_eq_some_iff.mp hs
  obtain ⟨b, hb, hs⟩ := Option.bind_eq_some_iff.mp hs
  obtain ⟨t, ht, hs⟩ := Option.bind_eq_some_iff.mp hs
  by_cases hcond : s.alive [dep.app.writer n] = true ∧ -(2 ^ 31) ≤ res ∧ res ≤ t.nbytes dep.app.spiller
  · rw [if_pos hcond] at hs
    obtain ⟨s₁, hland, hs⟩ := Option.bind_eq_some_iff.mp hs
    refine ⟨j, b, t, s₁, hj, hb, ht, hcond.1, hcond.2.2, hland, ?_⟩
    have hack := acknowledged_iff dep.app.spiller t res hcond.2.1
    split_ifs at hs with hpos
    · obtain ⟨sv, hsv, rfl⟩ := Option.map_eq_some_iff.mp hs
      exact Or.inl ⟨hack.mp hpos, sv, hsv, rfl⟩
    · cases hs
      exact Or.inr ⟨Int.not_lt.mp fun h => hpos (hack.mpr h), rfl⟩
  · rw [if_neg hcond] at hs
    cases hs

/-! ### Every step keeps the invariant -/

theorem inv_init (dep : Deployment) : Inv dep (init dep) := by
  have hhdr : initialHeader dep.app.spiller false = [] := by cases dep.app <;> rfl
  refine ⟨fun _ => ⟨_, Agent.Inv.init _⟩, fun _ _ h => ?_, fun _ _ h => ?_, Servers.inv_init _, rfl, fun _ h => ?_, fun _ h => ?_,
    fun _ _ _ h => ?_, fun _ => List.length_replicate, fun _ => ?_, fun _ => rfl, fun _ => List.nodup_nil,
    fun _ _ _ h => ?_, fun _ _ h => ?_, fun _ _ h => ?_⟩
  · cases h
  · cases h
  · cases h
  · cases h
  · cases h
  · have h := Session.Torn.create dep.app.spiller false dep.maxNPartition
    rwa [hhdr] at h
  · cases h
  · cases h
  · cases h

namespace Inv

/-- A buffer at a place was sent. -/
theorem fed_of_mem (h : Inv dep s) {p : Place} (hb : (b, p) ∈ s.servers.tokens) : b ∈ s.servers.fed :=
  h.servers.perm.mem_iff.mp (List.mem_map_of_mem hb)

/-- A buffer is at one place. -/
theorem place_unique (h : Inv dep s) {p p' : Place} (hb : (b, p) ∈ s.servers.tokens) (hb' : (b, p') ∈ s.servers.tokens) :
    p = p' := (Prod.mk.inj (List.inj_on_of_nodup_map h.servers.nodup hb hb' rfl)).2

theorem fed_of_given (h : Inv dep s) (hb : b ∈ s.given n) : b ∈ s.servers.fed := by
  obtain ⟨i, hi⟩ := List.getElem?_of_mem hb
  rcases h.given n i b hi with ⟨-, ht⟩ | ⟨len, -, ht⟩
  · exact h.fed_of_mem ht
  · exact h.fed_of_mem ht

theorem serial_lt (h : Inv dep s) (hb : b ∈ s.servers.fed) : b.serial < s.fetched.length := by
  have hmem : b.serial ∈ s.servers.fed.map Buf.serial := List.mem_map_of_mem hb
  rw [h.servers.serial, List.mem_range] at hmem
  rw [h.length]
  exact hmem

/-- Which submission a buffer is depends on what was read and on the agents. -/
theorem origin_congr (h : Inv dep s) (hread : s'.fetched = s.fetched) (hagents : s'.agents = s.agents)
    (hb : b ∈ s.servers.fed) : ∃ k sub, s'.IsSubmission b k sub := by
  obtain ⟨k, sub, h₁, h₂, h₃, h₄⟩ := h.origin b hb
  refine ⟨k, sub, ?_, ?_, h₃, ?_⟩
  · rw [hread]
    exact h₁
  · rw [hagents]
    exact h₂
  · rw [hagents]
    exact h₄

theorem length_given (h : Inv dep s) (n : Node) : (s.sessions n).log.length = (s.given n).length := by
  have hlen := congrArg List.length (h.log n)
  rwa [List.length_map, List.length_map] at hlen

/-- An agent takes a step. -/
theorem host {act : Agent.Act} (h : Inv dep s) (hfit : Fits dep (.host n act)) (hs : s.stepHost dep n act = some s') :
    Inv dep s' := by
  obtain ⟨-, hmay, a, ha, rfl⟩ := stepHost_eq hs
  have hself : Function.update s.agents n a n = a := Function.update_self ..
  have hne : ∀ {m}, m ≠ n → Function.update s.agents n a m = s.agents m := fun hm => Function.update_of_ne hm ..
  have hfits : act.Fits dep.agent := by
    cases act with
    | append p r => exact hfit.2
    | force | acquire | take | send | complete | shutdown | exit => trivial
  obtain ⟨htr, htakes, hrel⟩ := agent_logs ha
  refine ⟨fun m => ?_, fun m sub hsub => ?_, fun m x hx => ?_, h.servers, h.length, fun b hb => ?_, h.unique, fun m w k hk => ?_,
    h.files, h.torn, h.log, h.nodup, h.given, h.failed, h.spilled⟩
  · by_cases hm : m = n
    · subst hm
      obtain ⟨loc, hinv⟩ := h.agents m
      simp only [hself]
      exact hinv.step hfits ha
    · simp only [hne hm]
      exact h.agents m
  · by_cases hm : m = n
    · subst hm
      simp only [hself] at hsub
      rcases agent_subs ha with heq | ⟨p, b, -, heq, hcall⟩
      · rw [heq] at hsub
        exact h.parts m sub hsub
      · rw [heq] at hsub
        rcases List.mem_append.mp hsub with hsub | hsub
        · exact h.parts m sub hsub
        · rw [List.mem_singleton.mp hsub]
          rcases hcall with ⟨r, rfl, -⟩ | rfl
          · exact hfit.1
          · exact hfit
    · simp only [hne hm] at hsub
      exact h.parts m sub hsub
  · by_cases hm : m = n
    · subst hm
      simp only [hself] at hx
      rcases htakes x hx with hx | hx
      · exact h.workers m x hx
      · exact hx
    · simp only [hne hm] at hx
      exact h.workers m x hx
  · obtain ⟨k, sub, hread, hsubs, hpid, t, ht, htk⟩ := h.origin b hb
    by_cases hm : b.host = n
    · refine ⟨k, sub, hread, ?_, hpid, t, ?_, htk⟩
      · simp only [hm, hself]
        rw [hm] at hsubs
        obtain ⟨ext, hext⟩ := agent_subs_grow ha
        rw [← hext, List.getElem?_append_left (List.getElem?_eq_some_iff.mp hsubs).1, hsubs]
      · simp only [hm, hself]
        rw [hm] at ht
        exact htr t ht
    · refine ⟨k, sub, hread, ?_, hpid, t, ?_, htk⟩
      · simp only [hne hm]
        exact hsubs
      · simp only [hne hm]
        exact ht
  · by_cases hm : m = n
    · subst hm
      simp only [hself] at hk
      rcases hrel with heq | ⟨w', size, k', ks, rfl, hwait, heq⟩
      · rw [heq] at hk
        exact h.released m w k hk
      · rw [heq] at hk
        rcases List.mem_append.mp hk with hk | hk
        · exact h.released m w k hk
        · obtain ⟨rfl, rfl⟩ := Prod.mk.inj (List.mem_singleton.mp hk)
          simp only [mayAct, hwait] at hmay
          exact hmay
    · simp only [hne hm] at hk
      exact h.released m w k hk

/-- A buffer that a worker has posted is as it was submitted. -/
theorem kept (h : Inv dep s) {sub : Agent.Submission} (hk : k ∈ (s.agents n).waiting w)
    (hsub : (s.agents n).subs[k]? = some sub) : (s.agents n).buf sub.buffer = sub.content := by
  obtain ⟨loc, hinv⟩ := h.agents n
  refine hinv.con.kept k sub hsub (Or.inr ⟨w, Or.inr hk, ?_⟩)
  rw [Agent.St.bufferOf, hsub]
  rfl

/-- A submission lies in a buffer. -/
theorem totalSize_lt (h : Inv dep s) {sub : Agent.Submission} (hsub : sub ∈ (s.agents n).subs) :
    sub.content.totalSize < 2 ^ 31 := by
  obtain ⟨loc, hinv⟩ := h.agents n
  exact lt_of_le_of_lt (hinv.con.subs sub hsub).2.2 dep.bufferSize_lt

theorem partitionId_eq (h : Inv dep s) {sub : Agent.Submission} (hsub : sub ∈ (s.agents n).subs) :
    sub.content.partitionId = sub.partition := by
  obtain ⟨loc, hinv⟩ := h.agents n
  exact (hinv.con.subs sub hsub).1

/-- The server reads the whole buffer, and its header has the length that was posted. -/
theorem read_eq (h : Inv dep s) {sub : Agent.Submission} {t : Agent.Transfer} (hk : k ∈ (s.agents n).waiting w)
    (hsub : (s.agents n).subs[k]? = some sub) (ht : t ∈ (s.agents n).transfers) (htk : t.serial = k) :
    (image ((s.agents n).buf sub.buffer)).take t.size = image sub.content ∧ lengthOf (image sub.content) = t.size ∧
      partitionIdOf (image sub.content) = sub.partition := by
  have hmem := List.mem_of_getElem? hsub
  have hlt := h.totalSize_lt hmem
  have hid := h.partitionId_eq hmem
  have hpart := h.parts n sub hmem
  have hle := dep.partitions_le
  obtain ⟨loc, hinv⟩ := h.agents n
  have hsize : t.size = sub.content.totalSize := by
    obtain ⟨sub', hsub', hsize⟩ := hinv.con.sizes t ht
    rw [htk, hsub] at hsub'
    cases hsub'
    exact hsize
  rw [h.kept hk hsub, hsize]
  refine ⟨List.take_of_length_le (length_image _).le, lengthOf_image _ (by omega), ?_⟩
  rw [partitionIdOf_image _ (by omega), hid]

/-- A process dies. -/
theorem die (h : Inv dep s) (p : Process) : Inv dep (s.die p) := by
  refine ⟨h.agents, h.parts, h.workers, h.servers, h.length, fun _ => h.origin_congr rfl rfl, h.unique, h.released, h.files, h.torn,
    h.log, h.nodup, h.given, fun m i hi => ?_, h.spilled⟩
  show Function.update s.died p true _ = true
  by_cases hp : dep.app.writer m = p
  · rw [hp, Function.update_self]
  · rw [Function.update_of_ne hp]
    exact h.failed m i hi

/-- A server reads a buffer. -/
theorem fetch (h : Inv dep s) (hs : s.fetch dep n w k ok = some s') : Inv dep s' := by
  obtain ⟨-, hk, hsent, sub, t, hsub, ht, htk, ⟨sv, hsv, rfl⟩ | rfl⟩ := fetch_eq hs
  swap
  · exact h.die _
  obtain ⟨hread, -, hpid⟩ := h.read_eq hk hsub ht htk
  rw [hread] at hsv ⊢
  rw [hpid] at hsv
  obtain ⟨htok, hfed⟩ := Servers.step_feed hsv
  have hlen := h.length
  -- what was read before keeps its number
  have hold : ∀ b ∈ s.servers.fed, (s.fetched ++ [(k, image sub.content)])[b.serial]? = s.fetched[b.serial]? :=
    fun b hb => List.getElem?_append_left (h.serial_lt hb)
  have hnew : (s.fetched ++ [(k, image sub.content)])[s.servers.fed.length]? = some (k, image sub.content) := by
    rw [← hlen, List.getElem?_append_right le_rfl, Nat.sub_self]
    rfl
  have horigin : ∀ b ∈ s.servers.fed,
      Cluster.origin { s with servers := sv, fetched := s.fetched ++ [(k, image sub.content)] } b = s.origin b := by
    intro b hb
    simp only [Cluster.origin, hold b hb]
  have hbytes : ∀ b ∈ s.servers.fed,
      Cluster.bytesOf { s with servers := sv, fetched := s.fetched ++ [(k, image sub.content)] } b = s.bytesOf b := by
    intro b hb
    simp only [Cluster.bytesOf, hold b hb]
  have horigin' : Cluster.origin { s with servers := sv, fetched := s.fetched ++ [(k, image sub.content)] }
      ⟨n, s.servers.fed.length, sub.partition⟩ = some k := by
    simp only [Cluster.origin, hnew, Option.map_some]
  have hno := isSent_eq_false_iff.mp hsent
  refine ⟨h.agents, h.parts, h.workers, h.servers.step hsv, ?_, fun b hb => ?_, fun b hb b' hb' hhost heq => ?_,
    fun m w' k' hk' => ?_, h.files, h.torn, fun m => ?_, h.nodup, fun m i b hb => ?_, h.failed, fun m b hb => ?_⟩
  · show (s.fetched ++ [_]).length = sv.fed.length
    rw [hfed, List.length_append, List.length_append, hlen]
    rfl
  · replace hb : b ∈ s.servers.fed ++ [_] := hfed ▸ hb
    rcases List.mem_append.mp hb with hb | hb
    · obtain ⟨k', sub', hread', hsubs', hpid', ht'⟩ := h.origin b hb
      exact ⟨k', sub', (hold b hb).trans hread', hsubs', hpid', ht'⟩
    · rw [List.mem_singleton.mp hb]
      exact ⟨k, sub, hnew, hsub, rfl, t, ht, htk⟩
  · replace hb : b ∈ s.servers.fed ++ [_] := hfed ▸ hb
    replace hb' : b' ∈ s.servers.fed ++ [_] := hfed ▸ hb'
    rcases List.mem_append.mp hb with hb | hb
    · rcases List.mem_append.mp hb' with hb' | hb'
      · rw [horigin b hb, horigin b' hb'] at heq
        exact h.unique b hb b' hb' hhost heq
      · rw [List.mem_singleton.mp hb'] at heq hhost
        rw [horigin b hb, horigin'] at heq
        exact absurd heq (hno b hb hhost)
    · rcases List.mem_append.mp hb' with hb' | hb'
      · rw [List.mem_singleton.mp hb] at heq hhost
        rw [horigin b' hb', horigin'] at heq
        exact absurd heq.symm (hno b' hb' hhost.symm)
      · rw [List.mem_singleton.mp hb, List.mem_singleton.mp hb']
  · obtain ⟨b, m', hb, hhost, hbk⟩ := isAnswered_iff.mp (h.released m w' k' hk')
    refine isAnswered_iff.mpr ⟨b, m', ?_, hhost, (horigin b (h.fed_of_mem hb)).trans hbk⟩
    show _ ∈ sv.tokens
    rw [htok]
    exact List.mem_append_left _ hb
  · refine (h.log m).trans (List.map_congr_left fun b hb => ?_)
    exact (hbytes b (h.fed_of_given hb)).symm
  · show _ ∧ _ ∈ sv.tokens ∨ ∃ len, _ ∧ _ ∈ sv.tokens
    rw [htok]
    rcases h.given m i b hb with ⟨hw, ht⟩ | ⟨len, hd, ht⟩
    · exact Or.inl ⟨hw, List.mem_append_left _ ht⟩
    · exact Or.inr ⟨len, hd, List.mem_append_left _ ht⟩
  · replace hb : _ ∈ sv.tokens := hb
    rw [htok] at hb
    rcases List.mem_append.mp hb with hb | hb
    · exact h.spilled m b hb
    · cases List.mem_singleton.mp hb

/-- The servers move a buffer. -/
theorem stepServers {act : ServerAct} (h : Inv dep s) (hs : s.stepServers dep act ok = some s') : Inv dep s' := by
  obtain ⟨sv, htransport, -, hsv, rfl | ⟨q, -, rfl⟩⟩ := stepServers_eq hs
  swap
  · exact h.die q
  obtain ⟨b₀, p, p', -, htok, hfed, hp, hp', -⟩ := servers_transport hsv htransport
  -- no buffer of a spiller is moved
  have hkeep : ∀ t ∈ s.servers.tokens, Servers.steps t.2 ≤ 1 → t ∈ sv.tokens := by
    intro t hmem hle
    rw [htok]
    refine Tokens.mem_move_of_ne hmem ?_
    rintro rfl
    exact absurd (hp.trans hle) (by decide)
  refine ⟨h.agents, h.parts, h.workers, h.servers.step hsv, h.length.trans (congrArg List.length hfed.symm), fun b hb => ?_,
    fun b hb b' hb' => ?_, fun m w k hk => ?_, h.files, h.torn, h.log, h.nodup, fun m i b hb => ?_, h.failed, fun m b hb => ?_⟩
  · exact h.origin_congr rfl rfl (hfed ▸ hb)
  · exact h.unique b (hfed ▸ hb) b' (hfed ▸ hb')
  · obtain ⟨b, m', hb, hhost, hbk⟩ := isAnswered_iff.mp (h.released m w k hk)
    exact isAnswered_iff.mpr ⟨b, m', hkeep _ hb (Nat.zero_le _), hhost, hbk⟩
  · rcases h.given m i b hb with ⟨hw, ht⟩ | ⟨len, hd, ht⟩
    · exact Or.inl ⟨hw, hkeep _ ht (Nat.le_refl _)⟩
    · refine Or.inr ⟨len, hd, hkeep _ ht ?_⟩
      split_ifs
      · exact Nat.le_refl _
      · exact Nat.zero_le _
  · replace hb : _ ∈ sv.tokens := hb
    rw [htok] at hb
    rcases Tokens.mem_move hb with hb | hb
    · exact h.spilled m b hb
    · obtain ⟨-, rfl⟩ := Prod.mk.inj hb
      exact absurd hp' (Nat.not_succ_le_zero 0)

/-- What a spiller was given. -/
theorem lt_of_writing (h : Inv dep s) (hi : i ∈ s.writing n) : i < (s.given n).length := by
  rw [← h.length_given n]
  exact (h.torn n).tracks.lt hi

/-- A spiller takes a buffer. -/
theorem write (h : Inv dep s) (hs : s.write dep n b = some s') : Inv dep s' := by
  obtain ⟨-, hb, hnot, t, session, ht, hsub, rfl⟩ := write_eq hs
  have hbuf : t.buffer = s.bytesOf b := buffer_of_taskOf ht
  have hstep : (s.sessions n).step dep.app.spiller (.submit t) = some session := hsub
  obtain ⟨hlen, hlog⟩ := Session.step_files hstep
  have hcount := h.length_given n
  refine ⟨h.agents, h.parts, h.workers, h.servers, h.length, fun _ => h.origin_congr rfl rfl, h.unique, h.released, fun m => ?_,
    fun m => ?_, fun m => ?_, fun m => ?_, fun m i b' hb' => ?_, h.failed, fun m b' hb' => ?_⟩
  all_goals by_cases hm : m = n
  · subst hm
    simp only [Function.update_self]
    rw [hlen, h.files m]
  · simp only [Function.update_of_ne hm]
    exact h.files m
  · subst hm
    simp only [Function.update_self]
    exact (h.torn m).submit hsub
  · simp only [Function.update_of_ne hm]
    exact h.torn m
  · subst hm
    simp only [Function.update_self]
    rw [hlog, List.map_append, List.map_append, h.log m]
    show _ ++ [t.buffer] = _ ++ [s.bytesOf b]
    rw [hbuf]
    rfl
  · simp only [Function.update_of_ne hm]
    exact h.log m
  · subst hm
    simp only [Function.update_self]
    refine List.nodup_append.mpr ⟨h.nodup m, List.nodup_singleton _, fun x hx y hy => ?_⟩
    rw [List.mem_singleton.mp hy]
    rintro rfl
    exact hnot hx
  · simp only [Function.update_of_ne hm]
    exact h.nodup m
  · subst hm
    simp only [Function.update_self] at hb' ⊢
    by_cases hi : i < (s.given m).length
    · rw [List.getElem?_append_left hi] at hb'
      rcases h.given m i b' hb' with ⟨hw, ht⟩ | hdone
      · exact Or.inl ⟨List.mem_append_left _ hw, ht⟩
      · exact Or.inr hdone
    · obtain ⟨hlt, -⟩ := List.getElem?_eq_some_iff.mp hb'
      rw [List.length_append, List.length_singleton] at hlt
      have heq : i = (s.given m).length := by omega
      subst heq
      rw [List.getElem?_append_right le_rfl, Nat.sub_self] at hb'
      cases hb'
      exact Or.inl ⟨List.mem_append_right _ (by rw [hcount]; exact List.mem_singleton_self _), hb⟩
  · simp only [Function.update_of_ne hm] at hb' ⊢
    exact h.given m i b' hb'
  · subst hm
    simp only [Function.update_self]
    exact List.mem_append_left _ (h.spilled m b' hb')
  · simp only [Function.update_of_ne hm]
    exact h.spilled m b' hb'

/-- A spiller's log has the task of what it was given. -/
theorem log_of_given (h : Inv dep s) {t : Task} (hb : (s.given n)[j]? = some b) (ht : taskOf (s.bytesOf b) = some t) :
    (s.sessions n).log[j]? = some t := by
  have hmap : ((s.sessions n).log.map Task.buffer)[j]? = some (s.bytesOf b) := by
    rw [h.log n, List.getElem?_map, hb]
    rfl
  rw [List.getElem?_map] at hmap
  obtain ⟨t', ht', hbuf⟩ := Option.map_eq_some_iff.mp hmap
  rw [ht', task_ext (hbuf.trans (buffer_of_taskOf ht).symm)]

/-- What is being written is not spilled. -/
theorem token_of_writing (h : Inv dep s) (hj : j ∈ s.writing n) (hb : (s.given n)[j]? = some b) :
    (b, Place.spilling n) ∈ s.servers.tokens := by
  rcases h.given n j b hb with ⟨-, ht⟩ | ⟨len, hd, -⟩
  · exact ht
  · exact absurd hj ((h.torn n).landed _ hd)

/-- A write puts something down. -/
theorem land (h : Inv dep s) {t : Task} (hj : (s.writing n)[i]? = some j) (hb : (s.given n)[j]? = some b)
    (ht : taskOf (s.bytesOf b) = some t) (hle : res.toNat ≤ (t.payload dep.app.spiller).length)
    (hs : s.land n i j res = some s') :
    s' = { s with sessions := s'.sessions, writing := s'.writing, done := s'.done } ∧
      (∀ m, (s'.sessions m).files.length = dep.maxNPartition) ∧
      (∀ m, Session.Torn dep.app.spiller [] (s'.sessions m) (s'.writing m) (s'.done m)) ∧
      (∀ m, (s'.sessions m).log = (s.sessions m).log) ∧
      (∀ m x, x ∈ s.writing m → ¬ (m = n ∧ x = j) → x ∈ s'.writing m) ∧
      (∀ m r, r ∈ s'.done m ↔ r ∈ s.done m ∨ m = n ∧ r = (j, res.toNat)) := by
  obtain ⟨session, hcomp, rfl⟩ := Option.map_eq_some_iff.mp hs
  obtain ⟨hlen, hlog⟩ := Session.completePart_files hcomp
  refine ⟨rfl, fun m => ?_, fun m => ?_, fun m => ?_, fun m x hx hne => ?_, fun m r => ?_⟩
  all_goals by_cases hm : m = n
  · subst hm
    simp only [Function.update_self]
    rw [hlen, h.files m]
  · simp only [Function.update_of_ne hm]
    exact h.files m
  · subst hm
    simp only [Function.update_self]
    exact (h.torn m).complete hj (h.log_of_given hb ht) hle hcomp
  · simp only [Function.update_of_ne hm]
    exact h.torn m
  · subst hm
    simp only [Function.update_self]
    exact hlog
  · simp only [Function.update_of_ne hm]
  · subst hm
    simp only [Function.update_self]
    obtain ⟨as, bs, hsplit, hrest⟩ := Session.exists_eraseIdx hj
    rw [hrest]
    rw [hsplit] at hx
    have hxj : x ≠ j := fun heq => hne ⟨rfl, heq⟩
    simpa [hxj] using hx
  · simp only [Function.update_of_ne hm]
    exact hx
  · subst hm
    simp only [Function.update_self, List.mem_append, List.mem_singleton, true_and]
  · simp only [Function.update_of_ne hm, hm, false_and, or_false]

/-- A write completes. -/
theorem written (h : Inv dep s) (hs : s.written dep n i res = some s') : Inv dep s' := by
  obtain ⟨j, b, t, s₁, hj, hb, ht, -, hle, hland, hout⟩ := written_eq hs
  have hle' : res.toNat ≤ (t.payload dep.app.spiller).length := by
    have hmod : t.nbytes dep.app.spiller ≤ (t.payload dep.app.spiller).length := Nat.mod_le _ _
    omega
  obtain ⟨heq, hfiles, htorn, hlog, hwriting, hdone⟩ := h.land hj hb ht hle' hland
  have hmem := List.mem_of_getElem? hj
  have htoken := h.token_of_writing hmem hb
  rcases hout with ⟨hpos, sv, hsv, rfl⟩ | ⟨hneg, rfl⟩
  · have hservers := h.servers.step hsv
    simp only [Servers.step, Servers.finish, htoken, if_true, Option.some.injEq] at hsv
    subst hsv
    -- the other buffers of a spiller stay where they are
    have hkeep : ∀ m x b' p, (s.given m)[x]? = some b' → ¬ (m = n ∧ x = j) → (b', p) ∈ s.servers.tokens →
        p = Place.spilling m ∨ p = Place.spilled m →
          (b', p) ∈ s.servers.tokens.move b (.spilling n) (.spilled n) := by
      intro m x b' p hb' hne htok hp
      refine Tokens.mem_move_of_ne htok fun hpair => hne ?_
      obtain ⟨rfl, rfl⟩ := Prod.mk.inj hpair
      rcases hp with hp | hp
      · cases hp
        exact ⟨rfl, (List.getElem?_inj (List.getElem?_eq_some_iff.mp hb').1 (h.nodup n)).mp (hb'.trans hb.symm)⟩
      · cases hp
    rw [heq]
    refine ⟨h.agents, h.parts, h.workers, hservers, h.length, fun _ => h.origin_congr rfl rfl, h.unique, fun m w k hk => ?_,
      hfiles, htorn, fun m => (congrArg _ (hlog m)).trans (h.log m), h.nodup, fun m x b' hb' => ?_, fun m x hx => ?_, fun m b' hb' => ?_⟩
    · obtain ⟨b', m', hb', hhost, hbk⟩ := isAnswered_iff.mp (h.released m w k hk)
      refine isAnswered_iff.mpr ⟨b', m', Tokens.mem_move_of_ne hb' ?_, hhost, hbk⟩
      intro hpair
      cases (Prod.mk.inj hpair).2
    · by_cases hmx : m = n ∧ x = j
      · obtain ⟨rfl, rfl⟩ := hmx
        rw [hb] at hb'
        cases hb'
        refine Or.inr ⟨res.toNat, (hdone m _).mpr (Or.inr ⟨rfl, rfl⟩), ?_⟩
        rw [if_neg (by omega)]
        exact Tokens.mem_move_self
      · rcases h.given m x b' hb' with ⟨hw, htok⟩ | ⟨len, hd, htok⟩
        · exact Or.inl ⟨hwriting m x hw hmx, hkeep m x b' _ hb' hmx htok (Or.inl rfl)⟩
        · refine Or.inr ⟨len, (hdone m _).mpr (Or.inl hd), hkeep m x b' _ hb' hmx htok ?_⟩
          split_ifs
          · exact Or.inl rfl
          · exact Or.inr rfl
    · rcases (hdone m _).mp hx with hx | ⟨-, hx⟩
      · exact h.failed m x hx
      · have hzero := (Prod.mk.inj hx).2
        omega
    · rcases Tokens.mem_move hb' with hb' | hb'
      · exact h.spilled m b' hb'
      · obtain ⟨rfl, hplace⟩ := Prod.mk.inj hb'
        rw [Place.spilled.inj hplace]
        exact List.mem_of_getElem? hb
  · have hzero : res.toNat = 0 := by omega
    rw [hzero] at hdone
    rw [heq]
    refine ⟨h.agents, h.parts, h.workers, h.servers, h.length, fun _ => h.origin_congr rfl rfl, h.unique, h.released, hfiles, htorn,
      fun m => (congrArg _ (hlog m)).trans (h.log m), h.nodup, fun m x b' hb' => ?_, fun m x hx => ?_, h.spilled⟩
    · replace hb' : (s.given m)[x]? = some b' := hb'
      by_cases hmx : m = n ∧ x = j
      · obtain ⟨rfl, rfl⟩ := hmx
        rw [hb] at hb'
        cases hb'
        exact Or.inr ⟨0, (hdone m _).mpr (Or.inr ⟨rfl, rfl⟩), htoken⟩
      · rcases h.given m x b' hb' with ⟨hw, htok⟩ | ⟨len, hd, htok⟩
        · exact Or.inl ⟨hwriting m x hw hmx, htok⟩
        · exact Or.inr ⟨len, (hdone m _).mpr (Or.inl hd), htok⟩
    · show Function.update s.died _ true _ = true
      by_cases hp : dep.app.writer m = dep.app.writer n
      · rw [hp, Function.update_self]
      · rw [Function.update_of_ne hp]
        rcases (hdone m _).mp hx with hx | ⟨rfl, -⟩
        · exact h.failed m x hx
        · exact absurd rfl hp

/-- **Every step keeps the invariant.** -/
theorem step {act : ClusterAct} (h : Inv dep s) (hfit : Fits dep act) (hs : s.step dep act = some s') : Inv dep s' := by
  cases act with
  | host n act => exact h.host hfit hs
  | fetch n w k ok => exact h.fetch hs
  | move act ok => exact h.stepServers hs
  | write n b => exact h.write hs
  | written n i res => exact h.written hs

end Inv

end Cluster

end DShuffle.Shuffle
