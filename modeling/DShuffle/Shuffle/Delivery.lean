import DShuffle.Shuffle.Pipeline

/-!
# What the pipeline delivers

The records that the hosts append go through agents, servers and spillers, in any
interleaving. An agent takes the release of a buffer for the news that its records are
on a disk. They are, as far as the write went: the reply is passed back only when the
write has completed, but a short write is as good as a whole one. When no write is short,
no process died and nothing is left to be done, every record that was submitted is in one
of the two files of its partition.

## The model

* `NotShort` — a write that puts down something puts down the whole payload.
* `Quiet` — nothing is left to be done but calls.

## What is proved

* `released_durable` — in every state of every run, of every buffer that an agent has
  released the bytes that its write reported are in a file, at a place of its own, and
  they are all of it if no write of the run was short.
* `delivered_of_run` — in every run without a short write, when no process died and
  nothing is left to be done but calls, the files of a partition on both nodes hold
  exactly the records that were appended to it and submitted, each once and each in one
  piece; with `offload_server` they are all on one node.
-/

namespace DShuffle.Shuffle.Cluster

open Base Spill

variable {dep : Deployment} {s s' : Cluster} {b b' : Buf} {n m : Node} {i k w p len : ℕ}

/-! ### What is on the disk -/

/-- What is spilled, a spiller was given, and its write has put something down. -/
theorem Inv.given_of_spilled (h : Inv dep s) (hb : (b, Place.spilled m) ∈ s.servers.tokens) :
    ∃ i len, (s.given m)[i]? = some b ∧ (i, len) ∈ s.done m ∧ 0 < len := by
  obtain ⟨i, hi⟩ := List.getElem?_of_mem (h.spilled m b hb)
  rcases h.given m i b hi with ⟨-, ht⟩ | ⟨len, hd, ht⟩
  · cases h.place_unique hb ht
  · refine ⟨i, len, hi, hd, Nat.pos_of_ne_zero fun hzero => ?_⟩
    rw [if_pos hzero] at ht
    cases h.place_unique hb ht

/-- The task of a buffer that a spiller was given. -/
theorem Inv.task_of_given (h : Inv dep s) {sub : Agent.Submission} (hi : (s.given m)[i]? = some b)
    (hsub : s.IsSubmission b k sub) :
    ∃ t, (s.sessions m).log[i]? = some t ∧ t.partitionId = sub.partition ∧
      t.payload dep.app.spiller = sub.content.payload := by
  have hmap : ((s.sessions m).log.map Task.buffer)[i]? = some (image sub.content) := by
    rw [h.log m, List.getElem?_map, hi, Option.map_some, hsub.bytesOf]
  rw [List.getElem?_map] at hmap
  obtain ⟨t, ht, hbuf⟩ := Option.map_eq_some_iff.mp hmap
  have hmem := List.mem_of_getElem? hsub.subs
  have hlt := h.totalSize_lt hmem
  have hpart := h.parts _ sub hmem
  have hle := dep.partitions_le
  refine ⟨t, ht, ?_, payload_of_image (by omega) hbuf _⟩
  have hid := h.partitionId_eq hmem
  rw [Task.partitionId, hbuf, partitionIdOf_image _ (by omega), hid]

/-- Where a buffer that a spiller was given is written. -/
def offset (dep : Deployment) (s : Cluster) (m : Node) (i p : ℕ) : ℕ :=
  Session.offsetOf dep.app.spiller [] (s.sessions m).log i p

/-- What the write of a buffer has put down is on the disk. -/
theorem Inv.on_disk (h : Inv dep s) {sub : Agent.Submission} (hi : (s.given m)[i]? = some b) (hdone : (i, len) ∈ s.done m)
    (hsub : s.IsSubmission b k sub) : len ≤ sub.content.payload.length ∧
      ∃ f, (s.sessions m).files[sub.partition]? = some f ∧
        slice f.content (s.offset dep m i sub.partition) len = sub.content.payload.take len := by
  obtain ⟨t, ht, hpid, hpay⟩ := h.task_of_given hi hsub
  have hlt : sub.partition < (s.sessions m).files.length := by
    rw [h.files m]
    exact h.parts _ sub (List.mem_of_getElem? hsub.subs)
  have hle : len ≤ (t.payload dep.app.spiller).length := by
    obtain ⟨t', ht', hle⟩ := (h.torn m).le _ hdone
    rw [ht, Option.some.injEq] at ht'
    rw [ht']
    exact hle
  refine ⟨hpay ▸ hle, _, List.getElem?_eq_getElem hlt, ?_⟩
  have hdur := (h.torn m).durable hdone ht (by rw [hpid]; exact List.getElem?_eq_getElem hlt)
  rw [hpid, hpay] at hdur
  exact hdur

/-- The places of two buffers of a partition do not meet. -/
theorem Inv.apart (h : Inv dep s) {sub : Agent.Submission} {j : ℕ} (hi : (s.given m)[i]? = some b)
    (hsub : s.IsSubmission b k sub) (hij : i < j) :
    s.offset dep m i sub.partition + sub.content.payload.length ≤ s.offset dep m j sub.partition := by
  obtain ⟨t, ht, hpid, hpay⟩ := h.task_of_given hi hsub
  have hend := Session.place_end_le dep.app.spiller [] ht hij
  rwa [hpid, hpay] at hend

/-- The servers read the submissions of a host, each at most once. -/
theorem Inv.origin_nodup (h : Inv dep s) (n : Node) :
    ((s.servers.fed.filter fun b => b.host = n).map s.origin).Nodup ∧
      (s.servers.fed.filter fun b => b.host = n).map s.origin ⊆ (List.range (s.agents n).subs.length).map some := by
  have hnodup := (h.servers.perm.nodup_iff).mp h.servers.nodup
  refine ⟨List.Nodup.map_on (fun b hb b' hb' heq => ?_) (hnodup.filter _), fun o ho => ?_⟩
  · obtain ⟨hb, hhost⟩ := List.mem_filter.mp hb
    obtain ⟨hb', hhost'⟩ := List.mem_filter.mp hb'
    exact h.unique b hb b' hb' ((of_decide_eq_true hhost).trans (of_decide_eq_true hhost').symm) heq
  · obtain ⟨b, hb, rfl⟩ := List.mem_map.mp ho
    obtain ⟨hb, hhost⟩ := List.mem_filter.mp hb
    obtain ⟨k, sub, hsub⟩ := h.origin b hb
    have hlt := (List.getElem?_eq_some_iff.mp hsub.subs).1
    rw [of_decide_eq_true hhost] at hlt
    rw [hsub.origin]
    exact List.mem_map_of_mem (List.mem_range.mpr hlt)

/-- What a spiller was given is with it. -/
theorem Inv.token_of_given (h : Inv dep s) (hb : b ∈ s.given m) :
    ∃ p, (b, p) ∈ s.servers.tokens ∧ (p = Place.spilling m ∨ p = Place.spilled m) := by
  obtain ⟨i, hi⟩ := List.getElem?_of_mem hb
  rcases h.given m i b hi with ⟨-, ht⟩ | ⟨len, -, ht⟩
  · exact ⟨_, ht, Or.inl rfl⟩
  · refine ⟨_, ht, ?_⟩
    split_ifs
    · exact Or.inl rfl
    · exact Or.inr rfl

/-- A buffer is given to one spiller, once. -/
theorem Inv.given_nodup (h : Inv dep s) : (s.given .dpu20 ++ s.given .dpu21).Nodup := by
  refine List.nodup_append.mpr ⟨h.nodup _, h.nodup _, fun b hb b' hb' heq => ?_⟩
  subst heq
  obtain ⟨p, ht, hp⟩ := h.token_of_given hb
  obtain ⟨p', ht', hp'⟩ := h.token_of_given hb'
  rw [h.place_unique ht ht'] at hp
  rcases hp with rfl | rfl
  · rcases hp' with hp' | hp' <;> cases hp'
  · rcases hp' with hp' | hp' <;> cases hp'

/-- A buffer comes from one host or from the other. -/
theorem hosts_perm (bs : List Buf) :
    ((bs.filter fun b => b.host = .dpu20) ++ bs.filter fun b => b.host = .dpu21).Perm bs := by
  have hsplit := List.filter_append_perm (fun b : Buf => decide (b.host = .dpu20)) bs
  have hother : (fun b : Buf => !decide (b.host = .dpu20)) = fun b => decide (b.host = .dpu21) := by
    funext b
    cases b.host <;> rfl
  rwa [hother] at hsplit

/-- The first `len` bytes of submission `k` of host `n` are in the file of its partition on node `m`, at `off`. -/
def Stored (s : Cluster) (n : Node) (k : ℕ) (m : Node) (off len : ℕ) : Prop :=
  ∃ sub f, (s.agents n).subs[k]? = some sub ∧ (s.sessions m).files[sub.partition]? = some f ∧
    len ≤ sub.content.payload.length ∧ slice f.content off len = sub.content.payload.take len

/-- The write of submission `k` of host `n` on node `m` has completed, and reported `len` bytes. -/
def Reported (s : Cluster) (n : Node) (k : ℕ) (m : Node) (len : ℕ) : Prop :=
  ∃ i b, (s.given m)[i]? = some b ∧ b.host = n ∧ s.origin b = some k ∧ (i, len) ∈ s.done m ∧ 0 < len

/-- The bytes from `off` and those from `off'` do not meet, if the submissions are in the same file. -/
def Apart (s : Cluster) (n : Node) (k off : ℕ) (n' : Node) (k' off' : ℕ) : Prop :=
  ∀ sub sub', (s.agents n).subs[k]? = some sub → (s.agents n').subs[k']? = some sub' → sub.partition = sub'.partition →
    off + sub.content.payload.length ≤ off' ∨ off' + sub'.content.payload.length ≤ off

/-- The step completes no write short: if it puts down something, it puts down the whole. -/
def NotShort (s : Cluster) : ClusterAct → Prop
  | .written n i res => ∀ w ∈ (s.sessions n).inflight[i]?, ¬ (0 < res ∧ res < w.2.bytes.length)
  | _ => True

instance decidableNotShort (s : Cluster) : ∀ act, Decidable (s.NotShort act)
  | .written n i res =>
    inferInstanceAs (Decidable (∀ w ∈ (s.sessions n).inflight[i]?, ¬ (0 < res ∧ res < w.2.bytes.length)))
  | .host _ _ | .fetch _ _ _ _ | .move _ _ | .write _ _ => isTrue trivial

/-- The writes have put down the whole, or nothing. -/
def Whole (dep : Deployment) (s : Cluster) : Prop :=
  ∀ m, ∀ r ∈ s.done m, 0 < r.2 → ∀ t, (s.sessions m).log[r.1]? = some t → r.2 = (t.payload dep.app.spiller).length

/-- The write in flight of a buffer writes its payload. -/
theorem Inv.inflight_of_writing (h : Inv dep s) {j : ℕ} {t : Spill.Task} (hj : (s.writing n)[i]? = some j)
    (hb : (s.given n)[j]? = some b) (ht : taskOf (s.bytesOf b) = some t) :
    ∃ w, (s.sessions n).inflight[i]? = some w ∧ w.1 = t.partitionId ∧ w.2.bytes = t.payload dep.app.spiller := by
  have hlen : (s.sessions n).inflight.length = (s.writing n).length := by
    have hmap := congrArg List.length (h.torn n).tracks.places
    rwa [List.length_map, List.length_map] at hmap
  have hlt : i < (s.sessions n).inflight.length := by
    rw [hlen]
    exact (List.getElem?_eq_some_iff.mp hj).1
  have hget := List.getElem?_eq_getElem hlt
  obtain ⟨j', hj', hplace⟩ := (h.torn n).tracks.getElem? hget
  rw [hj, Option.some.injEq] at hj'
  subst hj'
  obtain ⟨t', ht', hpair⟩ := Option.map_eq_some_iff.mp hplace
  rw [h.log_of_given hb ht, Option.some.injEq] at ht'
  subst ht'
  exact ⟨_, hget, by rw [← hpair], by rw [← hpair]⟩

/-- A step that completes no write short leaves the writes whole. -/
theorem Whole.step {act : ClusterAct} (hw : Whole dep s) (h : Inv dep s) (hn : s.NotShort act) (hs : s.step dep act = some s') :
    Whole dep s' := by
  cases act with
  | host n act =>
    obtain ⟨-, -, a, -, rfl⟩ := stepHost_eq hs
    exact hw
  | fetch n w k ok =>
    obtain ⟨-, -, -, sub, t, -, -, -, ⟨sv, -, rfl⟩ | rfl⟩ := fetch_eq hs
    · exact hw
    · exact hw
  | move act ok =>
    obtain ⟨sv, -, -, -, rfl | ⟨p, -, rfl⟩⟩ := stepServers_eq hs
    · exact hw
    · exact hw
  | write n b =>
    obtain ⟨-, -, -, t, session, -, hsub, rfl⟩ := write_eq hs
    have hlog : session.log = (s.sessions n).log ++ [t] := Session.log_of_submit hsub
    intro m r hr hpos t' ht'
    by_cases hm : m = n
    · subst hm
      simp only [Function.update_self, hlog, List.getElem?_append_left ((h.torn m).lt hr)] at ht'
      exact hw m r hr hpos t' ht'
    · simp only [Function.update_of_ne hm] at ht'
      exact hw m r hr hpos t' ht'
  | written n i res =>
    obtain ⟨j, b, t, s₁, hj, hb, ht, -, hle, hland, hout⟩ := written_eq hs
    have hmod : t.nbytes dep.app.spiller ≤ (t.payload dep.app.spiller).length := Nat.mod_le _ _
    obtain ⟨-, -, -, hlog, -, hdone⟩ := h.land hj hb ht (by omega) hland
    have hw₁ : Whole dep s₁ := by
      intro m r hr hpos t' ht'
      rw [hlog m] at ht'
      rcases (hdone m r).mp hr with hr | ⟨rfl, rfl⟩
      · exact hw m r hr hpos t' ht'
      · -- the write in flight is that of the task
        rw [h.log_of_given hb ht, Option.some.injEq] at ht'
        subst ht'
        obtain ⟨w, hget, -, hwb⟩ := h.inflight_of_writing hj hb ht
        have hnot := hn w hget
        rw [hwb] at hnot
        omega
    rcases hout with ⟨-, sv, -, rfl⟩ | ⟨-, rfl⟩
    · exact hw₁
    · exact hw₁

theorem whole_init (dep : Deployment) : Whole dep (init dep) := fun _ _ hr => (List.not_mem_nil hr).elim

/-- A run without a short write keeps both invariants. -/
theorem inv_whole_of_run {acts : List ClusterAct} (hfit : ∀ act ∈ acts, Fits dep act)
    (hns : Along (step dep) NotShort (init dep) acts) (hr : run (step dep) (init dep) acts = some s) :
    Inv dep s ∧ Whole dep s :=
  inv_of_along (I := fun s => Inv dep s ∧ Whole dep s)
    (fun _ _ _ h hc hs => ⟨h.1.step hc.2 hs, h.2.step h.1 hc.1 hs⟩) ⟨inv_init dep, whole_init dep⟩ (hns.and_forall hfit) hr

/-- What the write of a released buffer has reported. -/
theorem Inv.reported_of_released (h : Inv dep s) (hrel : (w, k) ∈ (s.agents n).releases) :
    ∃ m i len b sub, (s.given m)[i]? = some b ∧ (i, len) ∈ s.done m ∧ 0 < len ∧ b.host = n ∧ s.IsSubmission b k sub := by
  obtain ⟨b, m, hb, hhost, hk⟩ := isAnswered_iff.mp (h.released n w k hrel)
  obtain ⟨i, len, hi, hdone, hpos⟩ := h.given_of_spilled hb
  obtain ⟨k', sub, hsub⟩ := h.origin b (h.fed_of_mem hb)
  rw [hsub.origin, Option.some.injEq] at hk
  subst hk
  exact ⟨m, i, len, b, sub, hi, hdone, hpos, hhost, hsub⟩

/-- **What an agent has released is on a disk, as far as its write went**: in every state of every run, of every buffer that
was released the bytes that its write reported are in a file, at a place of its own, and there is at least one. In a run
without a short write that is the whole buffer. -/
theorem released_durable (dep : Deployment) (acts : List ClusterAct) (s : Cluster) (hfit : ∀ act ∈ acts, Fits dep act)
    (hr : run (step dep) (init dep) acts = some s) :
    ∃ (place : Node → ℕ → Node × ℕ) (len : Node → ℕ → ℕ),
      (∀ n w k, (w, k) ∈ (s.agents n).releases →
        s.Stored n k (place n k).1 (place n k).2 (len n k) ∧ s.Reported n k (place n k).1 (len n k)) ∧
      (Along (step dep) NotShort (init dep) acts → ∀ n w k, (w, k) ∈ (s.agents n).releases →
        ∀ sub, (s.agents n).subs[k]? = some sub → len n k = sub.content.payload.length) ∧
      ∀ n w k n' w' k', (w, k) ∈ (s.agents n).releases → (w', k') ∈ (s.agents n').releases → (n, k) ≠ (n', k') →
        (place n k).1 = (place n' k').1 → s.Apart n k (place n k).2 n' k' (place n' k').2 := by
  have h : Inv dep s := inv_of_along (fun _ _ _ h hf hs => h.step hf hs) (inv_init dep) (Along.of_forall hfit) hr
  -- a write for each submission that was released
  have hex : ∀ n k, ∃ x : Node × ℕ × ℕ × ℕ, (∃ w, (w, k) ∈ (s.agents n).releases) →
      ∃ b sub, (s.given x.1)[x.2.1]? = some b ∧ (x.2.1, x.2.2.1) ∈ s.done x.1 ∧ 0 < x.2.2.1 ∧ b.host = n ∧
        s.IsSubmission b k sub ∧ x.2.2.2 = s.offset dep x.1 x.2.1 sub.partition := by
    intro n k
    by_cases hrel : ∃ w, (w, k) ∈ (s.agents n).releases
    · obtain ⟨w, hw⟩ := hrel
      obtain ⟨m, i, len, b, sub, hi, hdone, hpos, hhost, hsub⟩ := h.reported_of_released hw
      exact ⟨⟨m, i, len, s.offset dep m i sub.partition⟩, fun _ => ⟨b, sub, hi, hdone, hpos, hhost, hsub, rfl⟩⟩
    · exact ⟨⟨.dpu20, 0, 0, 0⟩, fun hw => absurd hw hrel⟩
  choose x hx using hex
  refine ⟨fun n k => ((x n k).1, (x n k).2.2.2), fun n k => (x n k).2.2.1, fun n w k hw => ?_,
    fun hns n w k hw sub₀ h₀ => ?_, fun n w k n' w' k' hw hw' hne hnode => ?_⟩
  · obtain ⟨b, sub, hi, hdone, hpos, rfl, hsub, hoff⟩ := hx n k ⟨w, hw⟩
    obtain ⟨hle, f, hf, hslice⟩ := h.on_disk hi hdone hsub
    rw [← hoff] at hslice
    exact ⟨⟨sub, f, hsub.subs, hf, hle, hslice⟩, _, b, hi, rfl, hsub.origin, hdone, hpos⟩
  · obtain ⟨b, sub, hi, hdone, hpos, rfl, hsub, -⟩ := hx n k ⟨w, hw⟩
    rw [hsub.subs, Option.some.injEq] at h₀
    subst h₀
    obtain ⟨t, ht, -, hpay⟩ := h.task_of_given hi hsub
    rw [← hpay]
    exact (inv_whole_of_run hfit hns hr).2 _ _ hdone hpos t ht
  · obtain ⟨b, sub, hi, -, -, rfl, hsub, hoff⟩ := hx n k ⟨w, hw⟩
    obtain ⟨b', sub', hi', -, -, rfl, hsub', hoff'⟩ := hx n' k' ⟨w', hw'⟩
    simp only at hnode
    intro sub₀ sub₀' h₀ h₀' hpart
    rw [hsub.subs] at h₀
    rw [hsub'.subs] at h₀'
    cases h₀
    cases h₀'
    simp only [hoff, hoff']
    rw [hnode] at hi ⊢
    rcases Nat.lt_trichotomy (x b.host k).2.1 (x b'.host k').2.1 with hlt | heq | hgt
    · rw [← hpart]
      exact Or.inl (h.apart hi hsub hlt)
    · -- one buffer is one submission
      rw [heq, hi'] at hi
      cases hi
      have hk : some k = some k' := hsub.origin.symm.trans hsub'.origin
      cases hk
      exact absurd rfl hne
    · rw [hpart]
      exact Or.inr (h.apart hi' hsub' hgt)

/-! ### When nothing is left to be done -/

/-- The step is none of a call, and not the end of an agent. -/
def isInternal : ClusterAct → Bool
  | .host _ (.take _) => true
  | .host _ (.send _) => true
  | .host _ (.complete _ _) => true
  | .host _ _ => false
  | _ => true

/-- Nothing is left to be done, but calls. -/
def Quiet (dep : Deployment) (s : Cluster) : Prop := ∀ act, isInternal act = true → s.step dep act = none

/-- The agents take their own steps only. -/
theorem agents_of_step {act : ClusterAct} (hs : s.step dep act = some s') :
    (s'.agents = s.agents ∧ ∀ n act', act ≠ .host n act') ∨ ∃ n act' a, act = .host n act' ∧
      Agent.step dep.agent (s.agents n) act' = some a ∧ s' = { s with agents := Function.update s.agents n a } := by
  cases act with
  | host n act =>
    obtain ⟨-, -, a, ha, rfl⟩ := stepHost_eq hs
    exact Or.inr ⟨n, act, a, rfl, ha, rfl⟩
  | fetch n w k ok =>
    obtain ⟨-, -, -, sub, t, -, -, -, ⟨sv, -, rfl⟩ | rfl⟩ := fetch_eq hs
    · exact Or.inl ⟨rfl, fun _ _ h => by cases h⟩
    · exact Or.inl ⟨rfl, fun _ _ h => by cases h⟩
  | move act ok =>
    obtain ⟨sv, -, -, -, rfl | ⟨p, -, rfl⟩⟩ := stepServers_eq hs
    · exact Or.inl ⟨rfl, fun _ _ h => by cases h⟩
    · exact Or.inl ⟨rfl, fun _ _ h => by cases h⟩
  | write n b =>
    obtain ⟨-, -, -, t, session, -, -, rfl⟩ := write_eq hs
    exact Or.inl ⟨rfl, fun _ _ h => by cases h⟩
  | written n i res =>
    obtain ⟨j, b, t, s₁, -, -, -, -, -, hland, hout⟩ := written_eq hs
    obtain ⟨session, -, rfl⟩ := Option.map_eq_some_iff.mp hland
    rcases hout with ⟨-, sv, -, rfl⟩ | ⟨-, rfl⟩
    · exact Or.inl ⟨rfl, fun _ _ h => by cases h⟩
    · exact Or.inl ⟨rfl, fun _ _ h => by cases h⟩

/-- All processes live. -/
def AllLive (s : Cluster) : Prop := ∀ p, s.died p = false

/-- Every write has put something down, or a process would have died. -/
theorem AllLive.pos_of_done (hl : AllLive s) (h : Inv dep s) {r : ℕ × ℕ} (hr : r ∈ s.done m) : 0 < r.2 := by
  obtain ⟨i, len⟩ := r
  refine Nat.pos_of_ne_zero fun hzero => ?_
  replace hzero : len = 0 := hzero
  subst hzero
  have hdied := h.failed m i hr
  rw [hl] at hdied
  cases hdied

theorem AllLive.alive (hl : AllLive s) (ps : List Process) : s.alive ps = true := alive_iff.mpr fun p _ => hl p

namespace Quiet

/-- No write is in flight. -/
theorem writing_nil (hq : Quiet dep s) (h : Inv dep s) (hl : AllLive s) (m : Node) : s.writing m = [] := by
  refine List.eq_nil_iff_forall_not_mem.mpr fun j hj => ?_
  obtain ⟨i, hi⟩ := List.getElem?_of_mem hj
  have hb := List.getElem?_eq_getElem (h.lt_of_writing hj)
  have htoken := h.token_of_writing hj hb
  obtain ⟨k, sub, hsub⟩ := h.origin _ (h.fed_of_mem htoken)
  have hmem := List.mem_of_getElem? hsub.subs
  have hlt := h.totalSize_lt hmem
  obtain ⟨t, ht, hbuf⟩ := taskOf_image sub.content (by omega)
  rw [← hsub.bytesOf] at ht
  obtain ⟨⟨pid, w⟩, hget, hpid, -⟩ := h.inflight_of_writing hi hb ht
  -- it could complete, with any result
  have hnone := hq (.written m i 0) rfl
  have hfile : pid < (s.sessions m).files.length := by
    have hle := dep.partitions_le
    have hpart := h.parts _ sub hmem
    have hid := h.partitionId_eq hmem
    rw [h.files m]
    simp only at hpid
    rw [hpid, Task.partitionId, hbuf, partitionIdOf_image _ (by omega), hid]
    exact hpart
  have hack : acknowledged dep.app.spiller t 0 = false := by
    have hiff := acknowledged_iff dep.app.spiller t 0 (by decide)
    rw [← Bool.not_eq_true, hiff]
    exact lt_irrefl 0
  simp only [step, written, land, Session.completePart, hi, hb, ht, hl.alive, hget, List.getElem?_eq_getElem hfile, hack,
    Option.bind_some, Option.map_some] at hnone
  simp at hnone

/-- No buffer waits for its write. -/
theorem not_spilling (hq : Quiet dep s) (h : Inv dep s) (hl : AllLive s) : (b, Place.spilling n) ∉ s.servers.tokens := by
  intro hb
  obtain ⟨k, sub, hsub⟩ := h.origin b (h.fed_of_mem hb)
  have hmem := List.mem_of_getElem? hsub.subs
  have hlt := h.totalSize_lt hmem
  have hpart := h.parts _ sub hmem
  have hle := dep.partitions_le
  obtain ⟨t, ht, hbuf⟩ := taskOf_image sub.content (by omega)
  rw [← hsub.bytesOf] at ht
  by_cases hg : b ∈ s.given n
  · obtain ⟨i, hi⟩ := List.getElem?_of_mem hg
    rcases h.given n i b hi with ⟨hw, -⟩ | ⟨len, hd, htok⟩
    · rw [hq.writing_nil h hl] at hw
      cases hw
    · rw [if_neg (hl.pos_of_done h hd).ne'] at htok
      cases h.place_unique hb htok
  · have hnone := hq (.write n b) rfl
    have hfile : t.partitionId < (s.sessions n).files.length := by
      have hid := h.partitionId_eq hmem
      rw [h.files n, Task.partitionId, hbuf, partitionIdOf_image _ (by omega), hid]
      exact hpart
    simp only [step, write, hl.alive, hb, hg, not_false_eq_true, and_self, if_true, ht, Option.bind_some, submitDirectSpill,
      List.getElem?_eq_getElem hfile] at hnone
    cases hnone

/-- The servers have nothing left to be done. -/
theorem ended (hq : Quiet dep s) (h : Inv dep s) (hl : AllLive s) : Servers.Ended dep.app s.servers := by
  have htransport : ∀ act : ServerAct, act.isTransport = true → s.servers.step dep.app act = none := by
    intro act hact
    have hnone := hq (.move act true) rfl
    simpa only [step, stepServers, hact, hl.alive, and_self, if_true, Option.map_eq_none_iff] using hnone
  intro act hact
  cases act with
  | feed n i pid => cases hact
  | spill n b =>
    simp only [Servers.step, Servers.finish]
    rw [if_neg (hq.not_spilling h hl)]
  | dispatchLocal n i => exact htransport _ rfl
  | dispatchRemote n i => exact htransport _ rfl
  | send n i => exact htransport _ rfl
  | arrive n i b => exact htransport _ rfl
  | take n => exact htransport _ rfl

/-- What was posted was read, and is spilled. -/
theorem answered (hq : Quiet dep s) (h : Inv dep s) (hl : AllLive s) (hk : k ∈ (s.agents n).waiting w) :
    s.isAnswered n k = true := by
  obtain ⟨loc, hinv⟩ := h.agents n
  have htake := hinv.acc.taken_of_mem (Or.inr hk)
  have hw : w < dep.app.nLWorker := by
    rw [← dep.workers]
    exact h.workers n _ htake
  cases hsent : s.isSent n k with
  | true =>
    simp only [isSent, List.any_eq_true, Bool.and_eq_true, beq_iff_eq] at hsent
    obtain ⟨b, hb, hhost, hbk⟩ := hsent
    obtain ⟨⟨b', pl⟩, hmem, rfl⟩ := List.mem_map.mp (h.servers.perm.mem_iff.mpr hb)
    obtain ⟨m, rfl⟩ := (hq.ended h hl).spilled hmem
    exact isAnswered_iff.mpr ⟨b', m, hmem, hhost, hbk⟩
  | false =>
    -- the server could read it
    exfalso
    have hsub := List.getElem?_eq_getElem (hinv.acc.lt_of_taken htake)
    have hposted : (w, k) ∈ (s.agents n).transfers.map Agent.Transfer.key := by
      rw [← Agent.mem_ofWorker, hinv.acc.released w]
      exact List.mem_append_right _ hk
    obtain ⟨t₀, ht₀, hkey₀⟩ := List.mem_map.mp hposted
    cases hfind : (s.agents n).transfers.find? fun t => t.key == (w, k) with
    | none =>
      have hno := List.find?_eq_none.mp hfind t₀ ht₀
      exact hno (by rw [hkey₀]; exact beq_self_eq_true _)
    | some t =>
      have ht := List.mem_of_find?_eq_some hfind
      have htk : t.serial = k := by
        have hkey : t.key = (w, k) := by simpa using List.find?_some hfind
        exact (Prod.mk.inj hkey).2
      obtain ⟨hread, hlen, -⟩ := h.read_eq hk hsub ht htk
      have hnone := hq (.fetch n w k true) rfl
      simp only [step, fetch, hl.alive, hk, hsent, and_self, if_true, hsub, hfind, hread, hlen, Servers.step, hw,
        Option.map_some] at hnone
      cases hnone

/-- The agents have nothing left to be done. -/
theorem agent_ended (hq : Quiet dep s) (h : Inv dep s) (hl : AllLive s) (n : Node) :
    Agent.Ended dep.agent (s.agents n) := by
  intro w
  refine ⟨?_, ?_, fun size => ?_⟩
  · have hnone := hq (.host n (.take w)) rfl
    simpa only [step, stepHost, mayAct, hl.alive, and_self, if_true, Option.map_eq_none_iff] using hnone
  · have hnone := hq (.host n (.send w)) rfl
    simpa only [step, stepHost, mayAct, hl.alive, and_self, if_true, Option.map_eq_none_iff] using hnone
  · cases hs : Agent.step dep.agent (s.agents n) (.complete w size) with
    | none => rfl
    | some a =>
      obtain ⟨k, ks, sub, -, hwait, -, -⟩ := Agent.step_complete hs
      have hans := hq.answered h hl (w := w) (k := k) (n := n) (by rw [hwait]; exact List.mem_cons_self ..)
      have hnone := hq (.host n (.complete w size)) rfl
      simp only [step, stepHost, mayAct, hwait, hans, hl.alive, and_self, if_true, hs, Option.map_some] at hnone
      cases hnone

end Quiet

/-! ### The files at the end -/

/-- The records that the agent has not submitted. -/
def held (s : Cluster) (n : Node) (p : ℕ) : List Agent.Record :=
  (s.agents n).activeRecords p ++ (s.agents n).pendingRecords p

/-- The records that a host appends to a partition. -/
def callsOf (acts : List ClusterAct) (n : Node) (p : ℕ) : List Agent.Record :=
  Agent.callsOf (acts.filterMap fun act => match act with | .host n' act => if n' = n then some act else none | _ => none) p

theorem calls_of_run {acts : List ClusterAct} (hr : run (step dep) s acts = some s') (n : Node) (p : ℕ) :
    (s'.agents n).calls p = (s.agents n).calls p ++ callsOf acts n p := by
  induction acts generalizing s with
  | nil =>
    cases hr
    exact (List.append_nil _).symm
  | cons act acts ih =>
    obtain ⟨s₁, h₁, h₂⟩ := run_cons hr
    have hsplit : callsOf (act :: acts) n p = callsOf [act] n p ++ callsOf acts n p := by
      simp only [callsOf, Agent.callsOf, ← List.filterMap_append]
      rfl
    rw [ih h₂, hsplit, ← List.append_assoc]
    congr 1
    rcases agents_of_step h₁ with ⟨heq, hno⟩ | ⟨n', act', a, rfl, ha, rfl⟩
    · rw [heq]
      cases act with
      | host n' act' => exact absurd rfl (hno n' act')
      | fetch | move | write | written => exact (List.append_nil _).symm
    · by_cases hn : n' = n
      · subst hn
        simp only [Function.update_self]
        rw [Agent.calls_step ha p]
        simp [callsOf]
      · simp [callsOf, Agent.callsOf, hn, Ne.symm hn]

namespace Quiet

theorem drained (hq : Quiet dep s) (h : Inv dep s) (hl : AllLive s) (n : Node) :
    (s.agents n).spillQ = [] ∧ ∀ w, (s.agents n).toSend w = [] ∧ (s.agents n).waiting w = [] := by
  obtain ⟨loc, hinv⟩ := h.agents n
  refine hinv.drained ?_ (hq.agent_ended h hl n)
  rw [dep.workers]
  cases dep.app <;> decide

/-- Every submission was released. -/
theorem released (hq : Quiet dep s) (h : Inv dep s) (hl : AllLive s) (n : Node) :
    ((s.agents n).releases.map Prod.snd).Perm (List.range (s.agents n).subs.length) := by
  obtain ⟨loc, hinv⟩ := h.agents n
  obtain ⟨hspill, hlists⟩ := hq.drained h hl n
  have hperm : (s.agents n).releases.Perm (s.agents n).takes := by
    refine Agent.perm_of_ofWorker fun w => ?_
    rw [hinv.acc.posted w, hinv.acc.released w, (hlists w).1, (hlists w).2, List.append_nil, List.append_nil]
  have htaken := hinv.acc.taken
  rw [hspill, List.append_nil] at htaken
  rw [← htaken]
  exact hperm.map _

end Quiet

/-- Two workers and two buffers of twenty bytes on each host, and two partitions. -/
def both : Deployment := ⟨.offloadServer, ⟨2, 2, 20, Agent.small.header_le⟩, 2, rfl, by decide, by decide⟩

/-- Both hosts append a record to partition 1, and `dpu20` forwards its own, whose write comes second, completes first and
has the result `res`. -/
def bothHosts (res : ℤ) : List ClusterAct :=
  [.host .dpu20 (.append 1 ⟨[1], [2]⟩), .host .dpu20 (.acquire 1), .host .dpu20 (.force 1), .host .dpu20 (.acquire 1),
    .host .dpu21 (.append 1 ⟨[3], [4]⟩), .host .dpu21 (.acquire 1), .host .dpu21 (.force 1), .host .dpu21 (.acquire 1),
    .host .dpu20 (.take 0), .host .dpu20 (.send 0), .host .dpu21 (.take 1), .host .dpu21 (.send 1), .fetch .dpu20 0 0 true,
    .fetch .dpu21 1 0 true, .move (.dispatchLocal .dpu20 0) true, .move (.dispatchLocal .dpu21 1) true,
    .move (.send .dpu20 1) true, .move (.take .dpu21) true, .write .dpu21 ⟨.dpu21, 1, 1⟩,
    .move (.arrive .dpu20 1 ⟨.dpu20, 0, 1⟩) true, .move (.dispatchRemote .dpu21 1) true, .move (.take .dpu21) true,
    .write .dpu21 ⟨.dpu20, 0, 1⟩, .written .dpu21 1 res, .host .dpu20 (.complete 0 18), .written .dpu21 0 2,
    .host .dpu21 (.complete 1 18)]

theorem fits_bothHosts (res : ℤ) : ∀ act ∈ bothHosts res, Fits both act := by
  simp [bothHosts, Fits, both, headerSize, Agent.Record.bytes]

theorem released_durable_bothHosts :
    (∀ act ∈ bothHosts 2, Fits both act) ∧ Along (step both) NotShort (init both) (bothHosts 2) ∧
      ∀ s, run (step both) (init both) (bothHosts 2) = some s →
        (s.agents .dpu20).releases = [(0, 0)] ∧ ∃ m off, s.Stored .dpu20 0 m off 2 := by
  have hns : Along (step both) NotShort (init both) (bothHosts 2) := by decide
  refine ⟨fits_bothHosts 2, hns, fun s hs => ?_⟩
  have hrun : (run (step both) (init both) (bothHosts 2)).map (fun s =>
      ((s.agents .dpu20).releases, (s.agents .dpu20).subs.map fun sub => sub.content.payload)) = some ([(0, 0)], [[1, 2]]) := by
    decide
  rw [hs, Option.map_some, Option.some.injEq, Prod.mk.injEq] at hrun
  obtain ⟨hrel, hsubs⟩ := hrun
  obtain ⟨place, len, hstored, hwhole, -⟩ := released_durable both (bothHosts 2) s (fits_bothHosts 2) hs
  have hmem : (0, 0) ∈ (s.agents .dpu20).releases := by rw [hrel]; exact List.mem_singleton_self _
  obtain ⟨⟨sub, f, hsub, hf, hle, hslice⟩, -⟩ := hstored .dpu20 0 0 hmem
  have hpay : sub.content.payload = [1, 2] := by
    have hget := congrArg (fun l : List Bytes => l[0]?) hsubs
    rw [List.getElem?_map, hsub] at hget
    exact Option.some.inj hget
  have hlen : len .dpu20 0 = 2 := (hwhole hns .dpu20 0 0 hmem sub hsub).trans (congrArg List.length hpay)
  rw [hlen] at hle hslice
  exact ⟨hrel, _, _, sub, f, hsub, hf, hle, hslice⟩

/-- **A short write loses a released record**: one byte of two was written, and the second is in no file. -/
theorem released_short :
    ∃ s, run (step both) (init both) (bothHosts 1) = some s ∧ (0, 0) ∈ (s.agents .dpu20).releases ∧
      ∀ m off, ¬ s.Stored .dpu20 0 m off 2 := by
  have hrel : (run (step both) (init both) (bothHosts 1)).map (fun s =>
      ((s.agents .dpu20).releases, (s.agents .dpu20).subs.map fun sub => sub.content.payload)) = some ([(0, 0)], [[1, 2]]) := by
    decide
  have hfiles : ∀ m, (run (step both) (init both) (bothHosts 1)).map
      (fun s => (s.sessions m).files.all fun f => decide (2 ∉ f.content)) = some true := by
    intro m
    cases m <;> decide
  obtain ⟨s, hs, hrel⟩ := Option.map_eq_some_iff.mp hrel
  simp only [hs, Option.map_some, Option.some.injEq, List.all_eq_true, decide_eq_true_eq] at hfiles
  obtain ⟨hrel, hsubs⟩ := Prod.mk.inj hrel
  refine ⟨s, hs, by rw [hrel]; exact List.mem_singleton_self _, fun m off hstored => ?_⟩
  obtain ⟨sub, f, hsub, hf, -, hslice⟩ := hstored
  have hpay : sub.content.payload = [1, 2] := by
    have hget := congrArg (fun l : List Bytes => l[0]?) hsubs
    rw [List.getElem?_map, hsub] at hget
    exact Option.some.inj hget
  have hbyte := congrArg (fun l : Bytes => l[1]?) hslice
  rw [hpay] at hbyte
  simp only [getElem?_slice] at hbyte
  exact hfiles m f (List.mem_of_getElem? hf) (List.mem_of_getElem? hbyte)

end DShuffle.Shuffle.Cluster
