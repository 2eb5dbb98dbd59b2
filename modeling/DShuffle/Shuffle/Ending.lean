import DShuffle.Shuffle.Delivery

/-!
# Every run of the pipeline comes to an end

A buffer that an agent submits is taken, posted, read, moved at most six times from
queue to queue, given to a spiller, and released: at most eleven steps. A process that
dies has left a buffer undone, which saves the step. So a run takes at most eleven steps
for each call, whatever the interleaving, and since a run that cannot go on has delivered
everything, if no write was short and no process died (`Delivery`), every such run that
goes on as long as it can delivers everything.

## The model

* `Stuck` — there is a buffer on which the process has to act.
* `Undone` — every process that died is stuck.

## What is proved

* `progress_step` — every step but those of the calls makes progress.
* `Undone.step` — a buffer on which a process that died has to act stays where it is.
* `Inv.progress_le` — the progress is bounded by the submissions.
* `length_le_of_calls` — the number of steps is bounded by the number of calls.
-/

namespace DShuffle.Shuffle.Cluster

open Base Spill

variable {dep : Deployment} {s s' : Cluster} {n : Node} {k : ℕ} {p : Process}

/-- The step is a call. -/
def isCall : ClusterAct → Bool
  | .host _ (.append _ _) => true
  | .host _ (.force _) => true
  | _ => false

/-- What an agent's workers have done. -/
def work (a : Agent.St) : ℕ := a.takes.length + a.transfers.length + a.releases.length

/-- How many processes died. -/
def deaths (s : Cluster) : ℕ :=
  (s.died (.host .dpu20)).toNat + (s.died (.host .dpu21)).toNat + (s.died (.server .dpu20)).toNat +
    (s.died (.server .dpu21)).toNat

/-- What was done with the buffers of both hosts, and who died; a buffer that was read has six moves before it. -/
def progress (s : Cluster) : ℕ :=
  work (s.agents .dpu20) + work (s.agents .dpu21) + (s.given .dpu20).length + (s.given .dpu21).length +
    7 * s.servers.fed.length + s.deaths

/-- The submissions of both hosts. -/
def submissions (s : Cluster) : ℕ := (s.agents .dpu20).subs.length + (s.agents .dpu21).subs.length

/-- A step of an agent that is none of a call makes progress, and only a call submits a buffer. -/
theorem agent_work {cfg : Agent.Config} {a a' : Agent.St} {act : Agent.Act} (hs : Agent.step cfg a act = some a') :
    work a + (if isInternal (.host n act) then 1 else 0) ≤ work a' ∧
      a'.subs.length ≤ a.subs.length + (if isCall (.host n act) then 1 else 0) := by
  constructor
  · cases act with
    | append p r =>
      simp only [Agent.step] at hs
      split_ifs at hs
      cases hs
      unfold Agent.St.appendOrSpill
      cases a.active p with
      | none => exact Nat.le_refl _
      | some b =>
        by_cases hneed : (a.buf b).needSpill cfg.bufferSize (r.key.length + r.value.length) = true
        · simp only [hneed, if_true]
          exact Nat.le_refl _
        · simp only [hneed]
          exact Nat.le_refl _
    | force p =>
      simp only [Agent.step] at hs
      split_ifs at hs
      cases hs
      unfold Agent.St.forceSpill
      cases a.active p with
      | none => exact Nat.le_refl _
      | some b => exact Nat.le_refl _
    | acquire p =>
      obtain ⟨ro, b, rest, -, -, rfl⟩ := Agent.step_acquire hs
      exact Nat.le_refl _
    | take w =>
      have hq : a.spillQ ≠ [] := by
        simp only [Agent.step] at hs
        split_ifs at hs with hcond
        simpa using (Bool.and_eq_true_iff.mp hcond).2
      have hpos := List.length_pos_iff.mpr hq
      obtain ⟨-, -, rfl⟩ := Agent.step_take hs
      simp only [work, isInternal, Agent.St.swapped, List.length_append, List.length_map, if_true]
      omega
    | send w =>
      obtain ⟨k, ks, sub, -, -, rfl⟩ := Agent.step_send hs
      simp only [work, isInternal, Agent.St.sent, List.length_append, List.length_singleton, if_true]
      omega
    | complete w size =>
      obtain ⟨k, ks, sub, -, -, -, rfl⟩ := Agent.step_complete hs
      simp only [work, isInternal, Agent.St.freed, List.length_append, List.length_singleton, if_true]
      omega
    | shutdown =>
      cases hs
      exact Nat.le_refl _
    | exit w =>
      simp only [Agent.step] at hs
      split_ifs at hs
      cases hs
      exact Nat.le_refl _
  · rcases agent_subs hs with heq | ⟨p, b, -, heq, hcall⟩
    · rw [heq]
      exact Nat.le_add_right ..
    · rw [heq, List.length_append, List.length_singleton]
      rcases hcall with ⟨r, rfl, -⟩ | rfl <;> exact Nat.le_refl _

/-- The sum over both nodes, when one of them changes. -/
theorem sum_update {α : Type} (f : Node → α) (g : α → ℕ) (n : Node) (a : α) :
    g (Function.update f n a .dpu20) + g (Function.update f n a .dpu21) + g (f n) = g (f .dpu20) + g (f .dpu21) + g a := by
  cases n with
  | dpu20 =>
    rw [Function.update_self, Function.update_of_ne (by decide)]
    omega
  | dpu21 =>
    rw [Function.update_self, Function.update_of_ne (by decide)]
    omega

theorem deaths_die (hp : s.died p = false) : (s.die p).deaths = s.deaths + 1 := by
  cases p with
  | host n =>
    cases n with
    | dpu20 => simp [deaths, die, Function.update, hp]; omega
    | dpu21 => simp [deaths, die, Function.update, hp]; omega
  | server n =>
    cases n with
    | dpu20 => simp [deaths, die, Function.update, hp]; omega
    | dpu21 => simp [deaths, die, Function.update, hp]

/-- A death is progress. -/
theorem progress_die (hp : s.died p = false) : (s.die p).progress = s.progress + 1 := by
  have hdeaths := deaths_die hp
  unfold progress
  rw [hdeaths]
  rfl

/-- **Every step makes progress**, but those of the calls, and only a call submits a buffer. -/
theorem progress_step {act : ClusterAct} (hs : s.step dep act = some s') :
    s.progress + s'.servers.remaining + (if isInternal act then 1 else 0) ≤ s'.progress + s.servers.remaining ∧
      s'.submissions ≤ s.submissions + (if isCall act then 1 else 0) := by
  -- a step that ends with a death
  have hdie : ∀ q, s.died q = false →
      s.progress + (s.die q).servers.remaining + 1 ≤ (s.die q).progress + s.servers.remaining ∧
        (s.die q).submissions ≤ s.submissions + 0 := by
    intro q hq
    rw [progress_die hq]
    constructor
    · show _ + s.servers.remaining + 1 ≤ _
      omega
    · exact Nat.le_refl _
  cases act with
  | host n act =>
    obtain ⟨-, -, a, ha, rfl⟩ := stepHost_eq hs
    obtain ⟨hwork, hsubs⟩ := agent_work (n := n) ha
    have h₁ := sum_update s.agents work n a
    have h₂ := sum_update s.agents (fun a => a.subs.length) n a
    simp only [progress, submissions, deaths]
    split_ifs at hwork hsubs ⊢ <;> constructor <;> omega
  | fetch n w k ok =>
    obtain ⟨halive, -, -, sub, t, -, -, -, ⟨sv, hsv, rfl⟩ | rfl⟩ := fetch_eq hs
    · have hrem := Servers.remaining_step hsv
      obtain ⟨-, hfed⟩ := Servers.step_feed hsv
      simp only [ServerAct.isFeed, if_true] at hrem
      simp only [progress, submissions, deaths, hfed, List.length_append, List.length_singleton, isInternal, isCall, if_true]
      constructor
      · omega
      · exact Nat.le_add_right ..
    · exact hdie _ (alive_iff.mp halive _ (by simp))
  | move act ok =>
    obtain ⟨sv, ht, halive, hsv, hout⟩ := stepServers_eq hs
    obtain ⟨-, -, -, -, -, hfed, -, -, q, hq, -, hhandler⟩ := servers_transport hsv ht
    rcases hout with rfl | ⟨q', hq', rfl⟩
    · have hrem := Servers.remaining_step hsv
      rw [isFeed_of_transport ht] at hrem
      simp only [Bool.false_eq_true, if_false] at hrem
      simp only [progress, submissions, deaths, hfed, isInternal, isCall, if_true]
      constructor
      · omega
      · exact Nat.le_add_right ..
    · rw [hhandler q' hq']
      exact hdie _ (alive_iff.mp halive _ hq)
  | write n b =>
    obtain ⟨-, -, -, t, session, -, -, rfl⟩ := write_eq hs
    have h₁ := sum_update s.given List.length n (s.given n ++ [b])
    simp only [List.length_append, List.length_singleton] at h₁
    simp only [progress, submissions, deaths, isInternal, isCall, if_true]
    constructor
    · omega
    · exact Nat.le_add_right ..
  | written n i res =>
    obtain ⟨j, b, t, s₁, -, -, -, halive, -, hland, hout⟩ := written_eq hs
    obtain ⟨session, -, rfl⟩ := Option.map_eq_some_iff.mp hland
    rcases hout with ⟨-, sv, hsv, rfl⟩ | ⟨-, rfl⟩
    · have hrem := Servers.remaining_step hsv
      obtain ⟨-, -, -, -, -, hfed, -⟩ := Servers.step_move hsv rfl
      simp only [ServerAct.isFeed, Bool.false_eq_true, if_false] at hrem
      simp only [progress, submissions, deaths, hfed, isInternal, isCall, if_true]
      constructor
      · omega
      · exact Nat.le_add_right ..
    · exact hdie _ (alive_iff.mp halive _ (List.mem_singleton_self _))

/-! ### What a process that died has left undone -/

/-- There is a buffer on which the process has to act. -/
def Stuck (dep : Deployment) (s : Cluster) (p : Process) : Prop :=
  (∃ t ∈ s.servers.tokens, t.2.owner dep.app = some p) ∨
    ∃ n k, p = .server n ∧ k < (s.agents n).subs.length ∧ s.isSent n k = false

/-- **Every process that died is stuck.** -/
def Undone (dep : Deployment) (s : Cluster) : Prop := ∀ p, s.died p = true → s.Stuck dep p

/-- A process that dies is stuck, if it was so before. -/
theorem Undone.die (hu : Undone dep s) (hp : s.Stuck dep p) : Undone dep (s.die p) := by
  intro q hq
  by_cases heq : q = p
  · exact heq ▸ hp
  · replace hq : Function.update s.died p true q = true := hq
    rw [Function.update_of_ne heq] at hq
    exact hu q hq

/-- A buffer that a process acts on is none that a dead process has to act on. -/
theorem Stuck.move (h : s.Stuck dep p) (hp : s.died p = true) {b : Buf} {pl pl' : Place} {q : Process}
    (hq : pl.owner dep.app = some q) (hlive : s.died q = false) {sv : Servers}
    (htok : sv.tokens = s.servers.tokens.move b pl pl') (hfed : sv.fed = s.servers.fed) :
    Stuck dep { s with servers := sv } p := by
  rcases h with ⟨t, ht, how⟩ | ⟨n, k, hn, hk, hsent⟩
  · refine Or.inl ⟨t, ?_, how⟩
    show t ∈ sv.tokens
    rw [htok]
    refine Tokens.mem_move_of_ne ht ?_
    rintro rfl
    rw [hq, Option.some.injEq] at how
    rw [how, hp] at hlive
    cases hlive
  · refine Or.inr ⟨n, k, hn, hk, ?_⟩
    rw [← hsent]
    unfold isSent
    rw [hfed]
    rfl

/-- **A buffer on which a process that died has to act stays where it is.** -/
theorem Undone.step {act : ClusterAct} (hu : Undone dep s) (h : Inv dep s) (hs : s.step dep act = some s') : Undone dep s' := by
  cases act with
  | host n act =>
    obtain ⟨-, -, a, ha, rfl⟩ := stepHost_eq hs
    intro p hp
    rcases hu p hp with htok | ⟨m, k, hm, hk, hsent⟩
    · exact Or.inl htok
    · refine Or.inr ⟨m, k, hm, ?_, hsent⟩
      by_cases hmn : m = n
      · subst hmn
        simp only [Function.update_self]
        exact lt_of_lt_of_le hk (agent_subs_grow ha).length_le
      · simp only [Function.update_of_ne hmn]
        exact hk
  | fetch n w k ok =>
    obtain ⟨halive, -, hsent, sub, t, hsub, -, -, ⟨sv, hsv, rfl⟩ | rfl⟩ := fetch_eq hs
    · obtain ⟨htok, hfed⟩ := Servers.step_feed hsv
      intro p hp
      rcases hu p hp with ⟨x, hx, how⟩ | ⟨m, k', hm, hk', hno⟩
      · refine Or.inl ⟨x, ?_, how⟩
        show x ∈ sv.tokens
        rw [htok]
        exact List.mem_append_left _ hx
      · refine Or.inr ⟨m, k', hm, hk', isSent_eq_false_iff.mpr fun b hb hhost => ?_⟩
        replace hb : b ∈ sv.fed := hb
        rw [hfed] at hb
        rcases List.mem_append.mp hb with hb | hb
        · have hold := isSent_eq_false_iff.mp hno b hb hhost
          rw [origin] at hold ⊢
          simp only [List.getElem?_append_left (h.serial_lt hb)]
          exact hold
        · -- the server that reads lives
          exfalso
          rw [List.mem_singleton.mp hb] at hhost
          have hlive := alive_iff.mp halive (.server n) (by simp)
          replace hp : s.died p = true := hp
          rw [hm, ← show n = m from hhost, hlive] at hp
          cases hp
    · exact hu.die (Or.inr ⟨n, k, rfl, (List.getElem?_eq_some_iff.mp hsub).1, hsent⟩)
  | move act ok =>
    obtain ⟨sv, ht, halive, hsv, hout⟩ := stepServers_eq hs
    obtain ⟨b, pl, pl', hb, htok, hfed, -, -, q, hq, how, hhandler⟩ := servers_transport hsv ht
    rcases hout with rfl | ⟨q', hq', rfl⟩
    · intro p hp
      exact (hu p hp).move hp how (alive_iff.mp halive q hq) htok hfed
    · refine hu.die (Or.inl ⟨_, hb, ?_⟩)
      rw [hhandler q' hq']
      exact how
  | write n b =>
    obtain ⟨-, -, -, t, session, -, -, rfl⟩ := write_eq hs
    exact hu
  | written n i res =>
    obtain ⟨j, b, t, s₁, hj, hb, -, halive, -, hland, hout⟩ := written_eq hs
    have hlive := alive_iff.mp halive _ (List.mem_singleton_self _)
    have htoken := h.token_of_writing (List.mem_of_getElem? hj) hb
    obtain ⟨session, -, rfl⟩ := Option.map_eq_some_iff.mp hland
    rcases hout with ⟨-, sv, hsv, rfl⟩ | ⟨-, rfl⟩
    · simp only [Servers.step, Servers.finish, htoken, if_true, Option.some.injEq] at hsv
      subst hsv
      intro p hp
      have htok : (⟨s.servers.tokens.move b (.spilling n) (.spilled n), s.servers.turn, s.servers.fed⟩ : Servers).tokens =
          s.servers.tokens.move b (.spilling n) (.spilled n) := rfl
      exact (hu p hp).move hp rfl hlive htok rfl
    · have hu₁ : Undone dep { s with
          sessions := Function.update s.sessions n session, writing := Function.update s.writing n ((s.writing n).eraseIdx i)
          done := Function.update s.done n (s.done n ++ [(j, res.toNat)]) } := hu
      exact hu₁.die (Or.inl ⟨_, htoken, rfl⟩)

/-- What a worker does after another thing, it does at most as often. -/
theorem length_le_of_ofWorker {log log' : List (ℕ × ℕ)}
    (h : ∀ w, ∃ rest, Agent.ofWorker log' w = Agent.ofWorker log w ++ rest) : log.length ≤ log'.length := by
  refine List.Subperm.length_le (List.subperm_ext_iff.mpr fun x _ => ?_)
  obtain ⟨w, k⟩ := x
  obtain ⟨rest, hrest⟩ := h w
  rw [← Agent.count_ofWorker, ← Agent.count_ofWorker, hrest, List.count_append]
  exact Nat.le_add_right ..

namespace Inv

/-- A buffer is taken, posted and released at most once. -/
theorem work_le (h : Inv dep s) (n : Node) : work (s.agents n) ≤ 3 * (s.agents n).subs.length := by
  obtain ⟨loc, hinv⟩ := h.agents n
  have htakes : (s.agents n).takes.length ≤ (s.agents n).subs.length := by
    have hlen := congrArg List.length hinv.acc.taken
    rw [List.length_append, List.length_map, List.length_range] at hlen
    omega
  have hposted := length_le_of_ofWorker fun w => ⟨_, hinv.acc.posted w⟩
  have hreleased := length_le_of_ofWorker fun w => ⟨_, hinv.acc.released w⟩
  rw [List.length_map] at hposted hreleased
  unfold work
  omega

/-- The server reads a submission of its host at most once. -/
theorem fed_host_le (h : Inv dep s) (n : Node) :
    (s.servers.fed.filter fun b => b.host = n).length ≤ (s.agents n).subs.length := by
  obtain ⟨hnodup, hsub⟩ := h.origin_nodup n
  have hle := (List.subperm_of_subset hnodup hsub).length_le
  rwa [List.length_map, List.length_map, List.length_range] at hle

/-- The servers read a submission at most once. -/
theorem fed_le (h : Inv dep s) : s.servers.fed.length ≤ s.submissions := by
  have hsplit := (hosts_perm s.servers.fed).length_eq
  rw [List.length_append] at hsplit
  have h₀ := h.fed_host_le .dpu20
  have h₁ := h.fed_host_le .dpu21
  unfold submissions
  omega

/-- A spiller is given what the servers have read. -/
theorem given_le (h : Inv dep s) : (s.given .dpu20).length + (s.given .dpu21).length ≤ s.servers.fed.length := by
  have hsub : s.given .dpu20 ++ s.given .dpu21 ⊆ s.servers.fed := by
    intro b hb
    rcases List.mem_append.mp hb with hb | hb
    · exact h.fed_of_given hb
    · exact h.fed_of_given hb
  have hle := (List.subperm_of_subset h.given_nodup hsub).length_le
  rwa [List.length_append] at hle

/-- A submission that was not read is one more than those that were. -/
theorem fed_lt (h : Inv dep s) (hk : k < (s.agents n).subs.length) (hsent : s.isSent n k = false) :
    (s.servers.fed.filter fun b => b.host = n).length < (s.agents n).subs.length := by
  obtain ⟨hnodup, hsub⟩ := h.origin_nodup n
  have hmem : some k ∈ (List.range (s.agents n).subs.length).map some := List.mem_map_of_mem (List.mem_range.mpr hk)
  have herase : (s.servers.fed.filter fun b => b.host = n).map s.origin ⊆
      ((List.range (s.agents n).subs.length).map some).erase (some k) := by
    intro o ho
    refine (List.mem_erase_of_ne ?_).mpr (hsub ho)
    rintro rfl
    obtain ⟨b, hb, hbk⟩ := List.mem_map.mp ho
    obtain ⟨hb, hhost⟩ := List.mem_filter.mp hb
    exact isSent_eq_false_iff.mp hsent b hb (of_decide_eq_true hhost) hbk
  have hle := (List.subperm_of_subset hnodup herase).length_le
  rw [List.length_map, List.length_erase_of_mem hmem, List.length_map, List.length_range] at hle
  omega

/-- The buffers on which the processes have to act have steps before them. -/
theorem owned_le (ts : Tokens Buf Place) (app : App) :
    ts.countP (fun t => t.2.owner app = some (.host .dpu20)) + ts.countP (fun t => t.2.owner app = some (.host .dpu21)) +
      ts.countP (fun t => t.2.owner app = some (.server .dpu20)) +
        ts.countP (fun t => t.2.owner app = some (.server .dpu21)) ≤ ts.weight Servers.steps := by
  induction ts with
  | nil => exact Nat.le_refl _
  | cons t ts ih =>
    have hone : (if t.2.owner app = some (.host .dpu20) then 1 else 0) + (if t.2.owner app = some (.host .dpu21) then 1 else 0) +
        (if t.2.owner app = some (.server .dpu20) then 1 else 0) +
          (if t.2.owner app = some (.server .dpu21) then 1 else 0) ≤ Servers.steps t.2 := by
      cases how : t.2.owner app with
      | none => simp
      | some p =>
        have hpos : 1 ≤ Servers.steps t.2 := by
          cases ht : t.2 with
          | spilled n => rw [ht] at how; cases how
          | lsq | trsq | transit | rsq | dsq | spilling => simp [Servers.steps]
        cases p with
        | host n => cases n <;> simpa using hpos
        | server n => cases n <;> simpa using hpos
    simp only [List.countP_cons, Tokens.weight, List.map_cons, List.sum_cons, decide_eq_true_eq] at ih ⊢
    omega

/-- A process that died is paid for by what it has left undone. -/
theorem deaths_le (h : Inv dep s) (hu : Undone dep s) :
    s.deaths + s.servers.fed.length ≤ s.submissions + s.servers.remaining := by
  have howned := owned_le s.servers.tokens dep.app
  have hhost : ∀ n, (s.died (.host n)).toNat ≤ s.servers.tokens.countP fun t => t.2.owner dep.app = some (.host n) := by
    intro n
    cases hd : s.died (.host n) with
    | false => exact Nat.zero_le _
    | true =>
      rcases hu _ hd with ⟨t, ht, how⟩ | ⟨m, k, hm, -⟩
      · exact List.countP_pos_iff.mpr ⟨t, ht, decide_eq_true how⟩
      · cases hm
  have hserver : ∀ n, (s.died (.server n)).toNat + (s.servers.fed.filter fun b => b.host = n).length ≤
      (s.agents n).subs.length + s.servers.tokens.countP fun t => t.2.owner dep.app = some (.server n) := by
    intro n
    have hle := h.fed_host_le n
    cases hd : s.died (.server n) with
    | false =>
      show 0 + _ ≤ _
      omega
    | true =>
      show 1 + _ ≤ _
      rcases hu _ hd with ⟨t, ht, how⟩ | ⟨m, k, hm, hk, hsent⟩
      · have hpos : 0 < s.servers.tokens.countP fun t => t.2.owner dep.app = some (.server n) :=
          List.countP_pos_iff.mpr ⟨t, ht, decide_eq_true how⟩
        omega
      · cases hm
        have hlt := h.fed_lt hk hsent
        omega
  have hsplit := (hosts_perm s.servers.fed).length_eq
  rw [List.length_append] at hsplit
  have h₀ := hhost .dpu20
  have h₁ := hhost .dpu21
  have h₂ := hserver .dpu20
  have h₃ := hserver .dpu21
  rw [deaths, submissions, Servers.remaining]
  omega

/-- **The progress is bounded**: eleven steps for a buffer. -/
theorem progress_le (h : Inv dep s) (hu : Undone dep s) : s.progress ≤ 11 * s.submissions + s.servers.remaining := by
  have h₁ := h.work_le .dpu20
  have h₂ := h.work_le .dpu21
  have h₃ := h.fed_le
  have h₄ := h.given_le
  have h₅ := h.deaths_le hu
  unfold progress
  unfold submissions at h₃ h₅ ⊢
  omega

end Inv

/-- **Every run comes to an end**: whatever the interleaving, there are at most eleven steps for a call, besides the steps of
the calls themselves. -/
theorem length_le_of_calls (dep : Deployment) (acts : List ClusterAct) (s : Cluster) (hfit : ∀ act ∈ acts, Fits dep act)
    (hr : run (step dep) (init dep) acts = some s) : acts.countP isInternal ≤ 11 * acts.countP isCall := by
  obtain ⟨h, hu⟩ : Inv dep s ∧ Undone dep s :=
    inv_of_along (I := fun s => Inv dep s ∧ Undone dep s) (C := fun _ act => Fits dep act)
      (fun _ _ _ h hf hs => ⟨h.1.step hf hs, h.2.step h.1 hs⟩) ⟨inv_init dep, fun _ hp => by cases hp⟩ (Along.of_forall hfit) hr
  have hcount : ∀ (as : List ClusterAct) (s₀ : Cluster), run (step dep) s₀ as = some s →
      s₀.progress + s.servers.remaining + as.countP isInternal ≤ s.progress + s₀.servers.remaining ∧
        s.submissions ≤ s₀.submissions + as.countP isCall := by
    intro as
    induction as with
    | nil =>
      intro s₀ hr
      cases hr
      exact ⟨Nat.le_refl _, Nat.le_refl _⟩
    | cons act as ih =>
      intro s₀ hr
      obtain ⟨s₁, h₁, h₂⟩ := run_cons hr
      obtain ⟨hp, hs⟩ := progress_step h₁
      obtain ⟨hp', hs'⟩ := ih s₁ h₂
      rw [List.countP_cons, List.countP_cons]
      exact ⟨by omega, by omega⟩
  obtain ⟨hp, hs⟩ := hcount acts (init dep) hr
  have hle := h.progress_le hu
  rw [show (init dep).servers.remaining = 0 from rfl] at hp
  rw [show (init dep).submissions = 0 from rfl] at hs
  omega

/-- Four calls and nineteen steps. -/
theorem length_le_of_calls_bothHosts :
    (∀ act ∈ bothHosts 2, Fits both act) ∧ (run (step both) (init both) (bothHosts 2)).isSome = true ∧
      (bothHosts 2).countP isInternal = 19 ∧ (bothHosts 2).countP isInternal ≤ 11 * (bothHosts 2).countP isCall := by
  have hsome : (run (step both) (init both) (bothHosts 2)).isSome = true := by decide
  obtain ⟨s, hs⟩ := Option.isSome_iff_exists.mp hsome
  exact ⟨fits_bothHosts 2, hsome, by decide, length_le_of_calls both (bothHosts 2) s (fits_bothHosts 2) hs⟩

end DShuffle.Shuffle.Cluster
