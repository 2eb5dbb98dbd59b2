import DShuffle.Spill.AgentBuffers

/-!
# Appending from Java

The native `Append` of `PipelineTransEnv` and of `TransEnv` calls `append_or_spill`,
and then, if the record is the last of its task, `force_spill`. The two take the lock
of the partition separately, so calls of other threads may come in between.

## The model

* A thread that has appended a last record has to force a spill before it appends
  again, and a call that waits for a buffer returns when it gets one (`acquire`).
  The other steps are those of the agent.
* `forced` says that the last call on a partition was `force_spill`.

## What is proved

* `nonempty_iff` — in every run with records that are not empty and fit a buffer,
  every submitted buffer has a payload exactly if no `force_spill` follows another
  on the same partition without an `append_or_spill` in between.
* `submits_empty` — two threads that finish a partition at the same time submit an
  empty buffer.
-/

namespace DShuffle.Spill.Append

open Base Agent

/-- The agent and the threads that append. -/
structure St where
  /-- The agent. -/
  agent : Agent.St
  /-- The partition for which a call of the thread waits for a buffer. -/
  waits : ℕ → Option ℕ
  /-- The partition that the thread has to force. -/
  owes : ℕ → Option ℕ
  /-- The last call on the partition was `force_spill`. -/
  forced : ℕ → Bool

/-- The steps. -/
inductive Act where
  /-- Thread `t` calls `Append`; its `append_or_spill` takes the lock. -/
  | append (t p : ℕ) (r : Record) (isLast : Bool)
  /-- The `force_spill` of thread `t` takes the lock. -/
  | force (t : ℕ)
  /-- The call of thread `t` gets a buffer. -/
  | acquire (t : ℕ)
  /-- Worker `w` takes the queue. -/
  | take (w : ℕ)
  /-- Worker `w` posts a transfer. -/
  | send (w : ℕ)
  /-- The next transfer of worker `w` is done. -/
  | complete (w size : ℕ)

/-- Thread `t` has called the agent on partition `p`, and waits if the call has to. -/
def St.called (s : St) (t p : ℕ) (agent : Agent.St) : ℕ → Option ℕ :=
  Function.update s.waits t ((agent.pending p).map fun _ => p)

/-- The agent takes a step that is not a call. -/
def St.advance (cfg : Config) (s : St) (act : Agent.Act) : Option St :=
  (Agent.step cfg s.agent act).map fun agent => { s with agent := agent }

/-- A step of the threads and the agent. -/
def step (cfg : Config) (s : St) : Act → Option St
  | .append t p r isLast =>
    if s.waits t = none ∧ s.owes t = none then
      (Agent.step cfg s.agent (.append p r)).map fun agent =>
        { agent := agent, waits := s.called t p agent, owes := Function.update s.owes t (if isLast then some p else none)
          forced := Function.update s.forced p false }
    else none
  | .force t =>
    match s.waits t, s.owes t with
    | none, some p =>
      (Agent.step cfg s.agent (.force p)).map fun agent =>
        { agent := agent, waits := s.called t p agent, owes := Function.update s.owes t none
          forced := Function.update s.forced p true }
    | _, _ => none
  | .acquire t =>
    match s.waits t with
    | some p =>
      (Agent.step cfg s.agent (.acquire p)).map fun agent =>
        { s with agent := agent, waits := Function.update s.waits t none }
    | none => none
  | .take w => s.advance cfg (.take w)
  | .send w => s.advance cfg (.send w)
  | .complete w size => s.advance cfg (.complete w size)

/-- The start. -/
def init (cfg : Config) : St := ⟨Agent.init cfg, fun _ => none, fun _ => none, fun _ => false⟩

/-- The record of the call is not empty and fits a buffer. -/
def Act.Good (cfg : Config) : Act → Prop
  | .append _ _ r _ => r.bytes ≠ [] ∧ headerSize + r.bytes.length ≤ cfg.bufferSize
  | _ => True

instance decidableGood (cfg : Config) : ∀ act, Decidable (Act.Good cfg act)
  | .append _ _ r _ => inferInstanceAs (Decidable (r.bytes ≠ [] ∧ headerSize + r.bytes.length ≤ cfg.bufferSize))
  | .force _ | .acquire _ | .take _ | .send _ | .complete _ _ => isTrue trivial

/-- The condition: no `force_spill` directly follows another on its partition. -/
def Apart (s : St) : Act → Prop
  | .force t => ∀ p ∈ s.owes t, s.forced p = false
  | _ => True

instance decidableApart (s : St) : ∀ act, Decidable (Apart s act)
  | .force t => inferInstanceAs (Decidable (∀ p ∈ s.owes t, s.forced p = false))
  | .append _ _ _ _ | .acquire _ | .take _ | .send _ | .complete _ _ => isTrue trivial

/-- Every submitted buffer has a payload: `actual_size() > 0`. -/
def Nonempty (s : St) : Prop := ∀ sub ∈ s.agent.subs, sub.content.payload ≠ []

/-- **The invariant**: a buffer of a partition is empty exactly if the last call on it was `force_spill`. -/
structure Inv (cfg : Config) (s : St) : Prop where
  /-- The agent is sound. -/
  agent : ∃ loc, Agent.Inv cfg loc s.agent
  /-- An active buffer is empty exactly after a forced spill. -/
  active : ∀ p b, s.agent.active p = some b → ((s.agent.buf b).payload = [] ↔ s.forced p = true)
  /-- A call waits without a record exactly if it is a forced spill; records are not empty. -/
  pending : ∀ p ro, s.agent.pending p = some ro → (ro = none ↔ s.forced p = true) ∧ ∀ r ∈ ro, r.bytes ≠ []
  /-- A partition that a thread has to force has a buffer, or waits for one. -/
  owed : ∀ t p, s.owes t = some p → s.agent.active p ≠ none ∨ s.agent.pending p ≠ none

section
variable {cfg : Config} {s s' : St} {ag : Agent.St} {p b : ℕ} {r : Record}

/-! ### What the agent does for a call -/

/-- A call that appends can take the lock of its partition. -/
theorem agent_append (hs : Agent.step cfg s.agent (.append p r) = some ag) :
    s.agent.pending p = none ∧ ∃ calls, ag = { s.agent.appendOrSpill cfg p r with calls := calls } := by
  simp only [Agent.step] at hs
  split_ifs at hs with hc
  cases hs
  exact ⟨(callable_iff.mp hc).2, _, rfl⟩

theorem agent_force (hs : Agent.step cfg s.agent (.force p) = some ag) :
    s.agent.pending p = none ∧ ag = s.agent.forceSpill p := by
  simp only [Agent.step] at hs
  split_ifs at hs with hc
  cases hs
  exact ⟨(callable_iff.mp hc).2, rfl⟩

/-- A buffer that a record does not fit any more is not empty. -/
theorem payload_ne_nil_of_needSpill {buf : Buffer} (hfit : headerSize + r.bytes.length ≤ cfg.bufferSize)
    (hfull : buf.needSpill cfg.bufferSize (r.key.length + r.value.length) = true) : buf.payload ≠ [] := by
  intro hnil
  have hlt := of_decide_eq_true hfull
  rw [Buffer.totalSize, hnil, List.length_nil] at hlt
  rw [Record.bytes, List.length_append] at hfit
  omega

theorem payload_append_ne_nil (buf : Buffer) (hr : r.bytes ≠ []) : (buf.append r).payload ≠ [] := by
  intro hnil
  have hnil' : buf.payload ++ r.key ++ r.value = [] := hnil
  rw [List.append_assoc] at hnil'
  exact hr (List.append_eq_nil_iff.mp hnil').2

/-- The payload that a call puts into the buffer it acquires. -/
theorem payload_fill_eq_nil {ro : Option Record} (h : ∀ r ∈ ro, r.bytes ≠ []) : (fill p ro).payload = [] ↔ ro = none := by
  cases ro with
  | none => exact ⟨fun _ => rfl, fun _ => rfl⟩
  | some r =>
    refine ⟨fun hnil => ?_, fun hnone => by cases hnone⟩
    exact absurd hnil (payload_append_ne_nil (.new p) (h r rfl))

/-! ### What a step keeps -/

theorem inv_init (cfg : Config) : Inv cfg (init cfg) := by
  refine ⟨⟨_, Agent.Inv.init cfg⟩, fun p b hb => ?_, fun p ro hro => ?_, fun t p ht => ?_⟩
  · cases hb
  · cases hro
  · cases ht

theorem Inv.sound {act : Agent.Act} (h : Inv cfg s) (hs : Agent.step cfg s.agent act = some ag)
    (hfit : act.Fits cfg) : ∃ loc, Agent.Inv cfg loc ag := by
  obtain ⟨loc, hinv⟩ := h.agent
  exact hinv.step hfit hs

/-- Two partitions have different active buffers. -/
theorem Inv.active_inj (h : Inv cfg s) {q : ℕ} (hp : s.agent.active p = some b) (hq : s.agent.active q = some b) : p = q := by
  obtain ⟨loc, hinv⟩ := h.agent
  have hp' : s.agent.At b (.active p) := hp
  have hq' : s.agent.At b (.active q) := hq
  cases hinv.places.unique hp' hq'
  rfl

/-- The active buffer of the partition, if any, is given away, and a call waits for another. -/
theorem Inv.waiting {ro : Option Record} (h : Inv cfg s) (hag : ∃ loc, Agent.Inv cfg loc s'.agent)
    (hbuf : s'.agent.buf = s.agent.buf) (hactive : s'.agent.active = Function.update s.agent.active p none)
    (hpend : s'.agent.pending = Function.update s.agent.pending p (some ro))
    (hforced : s'.forced = Function.update s.forced p ro.isNone)
    (howes : ∀ t q, s'.owes t = some q → q = p ∨ s.owes t = some q) (hro : ∀ r ∈ ro, r.bytes ≠ []) : Inv cfg s' := by
  refine ⟨hag, fun q b hb => ?_, fun q ro' hq => ?_, fun t q ht => ?_⟩
  · rw [hactive] at hb
    by_cases hqp : q = p
    · subst hqp
      rw [Function.update_self] at hb
      cases hb
    · rw [Function.update_of_ne hqp] at hb
      rw [hbuf, hforced, Function.update_of_ne hqp]
      exact h.active q b hb
  · rw [hpend] at hq
    by_cases hqp : q = p
    · subst hqp
      rw [Function.update_self] at hq
      cases hq
      rw [hforced, Function.update_self]
      exact ⟨Option.isNone_iff_eq_none.symm, hro⟩
    · rw [Function.update_of_ne hqp] at hq
      rw [hforced, Function.update_of_ne hqp]
      exact h.pending q ro' hq
  · by_cases hqp : q = p
    · subst hqp
      right
      rw [hpend, Function.update_self]
      exact Option.some_ne_none _
    · rw [hactive, hpend, Function.update_of_ne hqp, Function.update_of_ne hqp]
      exact h.owed t q ((howes t q ht).resolve_left hqp)

/-- A record is put into the active buffer of the partition. -/
theorem Inv.filled (h : Inv cfg s) (hag : ∃ loc, Agent.Inv cfg loc s'.agent) (hb : s.agent.active p = some b)
    (hbuf : s'.agent.buf = Function.update s.agent.buf b ((s.agent.buf b).append r))
    (hactive : s'.agent.active = s.agent.active) (hpend : s'.agent.pending = s.agent.pending)
    (hnone : s.agent.pending p = none) (hforced : s'.forced = Function.update s.forced p false)
    (howes : ∀ t q, s'.owes t = some q → q = p ∨ s.owes t = some q) (hr : r.bytes ≠ []) : Inv cfg s' := by
  refine ⟨hag, fun q b' hq => ?_, fun q ro hq => ?_, fun t q ht => ?_⟩
  · rw [hactive] at hq
    rw [hbuf, hforced]
    by_cases hqp : q = p
    · subst hqp
      rw [hb] at hq
      cases hq
      rw [Function.update_self, Function.update_self]
      exact ⟨fun hnil => absurd hnil (payload_append_ne_nil _ hr), fun hfalse => by cases hfalse⟩
    · have hne : b' ≠ b := by
        rintro rfl
        exact hqp (h.active_inj hq hb)
      rw [Function.update_of_ne hne, Function.update_of_ne hqp]
      exact h.active q b' hq
  · rw [hpend] at hq
    have hqp : q ≠ p := by
      rintro rfl
      rw [hnone] at hq
      cases hq
    rw [hforced, Function.update_of_ne hqp]
    exact h.pending q ro hq
  · rw [hactive, hpend]
    rcases howes t q ht with rfl | ht
    · left
      rw [hb]
      exact Option.some_ne_none _
    · exact h.owed t q ht

/-- The call on the partition gets a buffer. -/
theorem Inv.acquired {ro : Option Record} {rest : List ℕ} (h : Inv cfg s) (hag : ∃ loc, Agent.Inv cfg loc s'.agent)
    (hpend : s.agent.pending p = some ro) (hpool : s.agent.pool = b :: rest)
    (heq : s'.agent = s.agent.acquired p ro b rest) (hforced : s'.forced = s.forced) (howes : s'.owes = s.owes) :
    Inv cfg s' := by
  have hfree : ∀ q, s.agent.active q ≠ some b := by
    intro q hq
    obtain ⟨loc, hinv⟩ := h.agent
    have hq' : s.agent.At b (.active q) := hq
    have hpool' : s.agent.At b .free := by
      show b ∈ s.agent.pool
      rw [hpool]
      exact List.mem_cons_self ..
    cases hinv.places.unique hq' hpool'
  have hactive : s'.agent.active = Function.update s.agent.active p (some b) := by rw [heq]; rfl
  have hpend' : s'.agent.pending = Function.update s.agent.pending p none := by rw [heq]; rfl
  have hbuf : s'.agent.buf = Function.update s.agent.buf b (fill p ro) := by rw [heq]; rfl
  obtain ⟨hiff, hne⟩ := h.pending p ro hpend
  refine ⟨hag, fun q b' hq => ?_, fun q ro' hq => ?_, fun t q ht => ?_⟩
  · rw [hactive] at hq
    rw [hbuf, hforced]
    by_cases hqp : q = p
    · subst hqp
      rw [Function.update_self] at hq
      cases hq
      rw [Function.update_self, payload_fill_eq_nil hne]
      exact hiff
    · rw [Function.update_of_ne hqp] at hq
      have hbb : b' ≠ b := by
        rintro rfl
        exact hfree q hq
      rw [Function.update_of_ne hbb]
      exact h.active q b' hq
  · rw [hpend'] at hq
    have hqp : q ≠ p := by
      rintro rfl
      rw [Function.update_self] at hq
      cases hq
    rw [Function.update_of_ne hqp] at hq
    rw [hforced]
    exact h.pending q ro' hq
  · rw [howes] at ht
    rw [hactive, hpend']
    by_cases hqp : q = p
    · subst hqp
      left
      rw [Function.update_self]
      exact Option.some_ne_none _
    · rw [Function.update_of_ne hqp, Function.update_of_ne hqp]
      exact h.owed t q ht

/-- A worker does something. -/
theorem Inv.worker (h : Inv cfg s) (hag : ∃ loc, Agent.Inv cfg loc s'.agent) (hbuf : s'.agent.buf = s.agent.buf)
    (hactive : s'.agent.active = s.agent.active) (hpend : s'.agent.pending = s.agent.pending)
    (hforced : s'.forced = s.forced) (howes : s'.owes = s.owes) : Inv cfg s' := by
  refine ⟨hag, ?_, ?_, ?_⟩
  · rw [hactive, hbuf, hforced]
    exact h.active
  · rw [hpend, hforced]
    exact h.pending
  · rw [howes, hactive, hpend]
    exact h.owed

/-- A buffer is submitted. -/
theorem nonempty_submit (sub : Submission) (hsubs : s'.agent.subs = s.agent.subs ++ [sub]) :
    Nonempty s' ↔ Nonempty s ∧ sub.content.payload ≠ [] := by
  unfold Nonempty
  rw [hsubs]
  refine ⟨fun hall => ⟨fun x hx => hall x (List.mem_append_left _ hx), hall sub (by simp)⟩, fun hall x hx => ?_⟩
  rcases List.mem_append.mp hx with hx | hx
  · exact hall.1 x hx
  · rw [List.mem_singleton.mp hx]
    exact hall.2

/-- Nothing is submitted. -/
theorem nonempty_congr (hsubs : s'.agent.subs = s.agent.subs) : Nonempty s' ↔ Nonempty s := by
  unfold Nonempty
  rw [hsubs]

/-! ### Every run -/

theorem step_append {t : ℕ} {isLast : Bool} (h : Inv cfg s) (hgood : (Act.append t p r isLast).Good cfg)
    (hs : step cfg s (.append t p r isLast) = some s') : Inv cfg s' ∧ (Nonempty s' ↔ Nonempty s) := by
  obtain ⟨hr, hfit⟩ := hgood
  have hidle : s.waits t = none ∧ s.owes t = none := by
    by_contra hbusy
    rw [step, if_neg hbusy] at hs
    cases hs
  rw [step, if_pos hidle] at hs
  obtain ⟨ag, hag, rfl⟩ := Option.map_eq_some_iff.mp hs
  have hsound : ∃ loc, Agent.Inv cfg loc ag := h.sound hag hfit
  obtain ⟨hnone, calls, heq⟩ := agent_append hag
  have howes : ∀ x q, Function.update s.owes t (if isLast then some p else none) x = some q → q = p ∨ s.owes x = some q := by
    intro x q hx
    by_cases hxt : x = t
    · subst hxt
      rw [Function.update_self] at hx
      cases isLast with
      | true =>
        left
        exact (Option.some.inj hx).symm
      | false => cases hx
    · rw [Function.update_of_ne hxt] at hx
      exact Or.inr hx
  unfold St.appendOrSpill at heq
  cases hb : s.agent.active p with
  | none =>
    simp only [hb] at heq
    subst heq
    refine ⟨h.waiting hsound rfl ?_ rfl rfl howes ?_, nonempty_congr rfl⟩
    · dsimp only
      rw [← hb, Function.update_eq_self]
    · intro r' hr'
      cases hr'
      exact hr
  | some b =>
    simp only [hb] at heq
    split_ifs at heq with hfull
    · subst heq
      refine ⟨h.waiting hsound rfl rfl rfl rfl howes ?_, ?_⟩
      · intro r' hr'
        cases hr'
        exact hr
      · refine (nonempty_submit ⟨b, p, s.agent.buf b⟩ rfl).trans (and_iff_left ?_)
        exact payload_ne_nil_of_needSpill hfit hfull
    · subst heq
      exact ⟨h.filled hsound hb rfl rfl rfl hnone rfl howes hr, nonempty_congr rfl⟩

theorem step_force {t : ℕ} (h : Inv cfg s) (hs : step cfg s (.force t) = some s') :
    Inv cfg s' ∧ (Nonempty s' ↔ Nonempty s ∧ Apart s (.force t)) := by
  simp only [step] at hs
  split at hs
  · rename_i p hwaits howes
    obtain ⟨ag, hag, rfl⟩ := Option.map_eq_some_iff.mp hs
    have hsound : ∃ loc, Agent.Inv cfg loc ag := h.sound hag trivial
    obtain ⟨hnone, rfl⟩ := agent_force hag
    -- the thread has appended to the partition, so it has a buffer
    obtain ⟨b, hb⟩ : ∃ b, s.agent.active p = some b :=
      Option.ne_none_iff_exists'.mp ((h.owed t p howes).resolve_right fun hne => hne hnone)
    have hsubmit : s.agent.forceSpill p =
        { s.agent.submit p b with pending := Function.update s.agent.pending p (some none) } := by
      simp only [St.forceSpill, hb]
    have howes' : ∀ x q, Function.update s.owes t none x = some q → q = p ∨ s.owes x = some q := by
      intro x q hx
      by_cases hxt : x = t
      · subst hxt
        rw [Function.update_self] at hx
        cases hx
      · rw [Function.update_of_ne hxt] at hx
        exact Or.inr hx
    have hapart : Apart s (.force t) ↔ (s.agent.buf b).payload ≠ [] := by
      have hforced : Apart s (.force t) ↔ s.forced p = false := by
        refine ⟨fun hall => hall p howes, fun hfalse q hq => ?_⟩
        rw [howes] at hq
        cases hq
        exact hfalse
      rw [hforced, ne_eq, h.active p b hb, Bool.not_eq_true]
    rw [hsubmit] at hsound ⊢
    refine ⟨h.waiting hsound rfl rfl rfl rfl howes' (fun r hr => by cases hr), ?_⟩
    rw [hapart]
    exact nonempty_submit ⟨b, p, s.agent.buf b⟩ rfl
  · cases hs

theorem step_acquire {t : ℕ} (h : Inv cfg s) (hs : step cfg s (.acquire t) = some s') :
    Inv cfg s' ∧ (Nonempty s' ↔ Nonempty s) := by
  simp only [step] at hs
  split at hs
  · obtain ⟨ag, hag, rfl⟩ := Option.map_eq_some_iff.mp hs
    have hsound : ∃ loc, Agent.Inv cfg loc ag := h.sound hag trivial
    obtain ⟨ro, b, rest, hpend, hpool, rfl⟩ := Agent.step_acquire hag
    exact ⟨h.acquired hsound hpend hpool rfl rfl rfl, nonempty_congr rfl⟩
  · cases hs

/-- **One step**: it keeps the invariant, and submits a buffer without a payload exactly if it forces a spill after a
forced spill. -/
theorem step_spec {act : Act} (h : Inv cfg s) (hgood : act.Good cfg) (hs : step cfg s act = some s') :
    Inv cfg s' ∧ (Nonempty s' ↔ Nonempty s ∧ Apart s act) := by
  cases act with
  | append t p r isLast =>
    obtain ⟨hinv, hiff⟩ := step_append h hgood hs
    exact ⟨hinv, hiff.trans (and_iff_left trivial).symm⟩
  | force t => exact step_force h hs
  | acquire t =>
    obtain ⟨hinv, hiff⟩ := step_acquire h hs
    exact ⟨hinv, hiff.trans (and_iff_left trivial).symm⟩
  | take w =>
    obtain ⟨ag, hag, rfl⟩ := Option.map_eq_some_iff.mp hs
    have hsound : ∃ loc, Agent.Inv cfg loc ag := h.sound hag trivial
    obtain ⟨-, -, rfl⟩ := Agent.step_take hag
    exact ⟨h.worker hsound rfl rfl rfl rfl rfl, (nonempty_congr rfl).trans (and_iff_left trivial).symm⟩
  | send w =>
    obtain ⟨ag, hag, rfl⟩ := Option.map_eq_some_iff.mp hs
    have hsound : ∃ loc, Agent.Inv cfg loc ag := h.sound hag trivial
    obtain ⟨k, ks, sub, -, -, rfl⟩ := Agent.step_send hag
    exact ⟨h.worker hsound rfl rfl rfl rfl rfl, (nonempty_congr rfl).trans (and_iff_left trivial).symm⟩
  | complete w size =>
    obtain ⟨ag, hag, rfl⟩ := Option.map_eq_some_iff.mp hs
    have hsound : ∃ loc, Agent.Inv cfg loc ag := h.sound hag trivial
    obtain ⟨k, ks, sub, -, -, -, rfl⟩ := Agent.step_complete hag
    exact ⟨h.worker hsound rfl rfl rfl rfl rfl, (nonempty_congr rfl).trans (and_iff_left trivial).symm⟩

theorem nonempty_run {acts : List Act} (h : Inv cfg s) (hgood : ∀ act ∈ acts, act.Good cfg)
    (hr : run (step cfg) s acts = some s') : Nonempty s' ↔ Nonempty s ∧ Along (step cfg) Apart s acts := by
  induction acts generalizing s with
  | nil =>
    cases hr
    exact (and_iff_left trivial).symm
  | cons act acts ih =>
    obtain ⟨s₁, h₁, h₂⟩ := run_cons hr
    obtain ⟨hinv, hstep⟩ := step_spec h (hgood act (List.mem_cons_self ..)) h₁
    have hrest : Along (step cfg) Apart s (act :: acts) ↔ Apart s act ∧ Along (step cfg) Apart s₁ acts := by
      refine and_congr_right fun _ => ⟨fun hall => hall s₁ h₁, fun hall s₂ h₂ => ?_⟩
      rw [h₁] at h₂
      cases h₂
      exact hall
    rw [ih hinv (fun a ha => hgood a (List.mem_cons_of_mem _ ha)) h₂, hstep, hrest, and_assoc]

end

/-- **A submitted buffer has a payload**, in every run in which every record is not empty and fits a buffer, exactly if no
`force_spill` follows another on the same partition without an `append_or_spill` in between. -/
theorem nonempty_iff (cfg : Config) (acts : List Act) (s : St) (hgood : ∀ act ∈ acts, act.Good cfg)
    (hr : run (step cfg) (init cfg) acts = some s) : Nonempty s ↔ Along (step cfg) Apart (init cfg) acts := by
  have hinit : Nonempty (init cfg) := fun sub hsub => by cases hsub
  rw [nonempty_run (inv_init cfg) hgood hr]
  exact and_iff_right hinit

/-- Two threads append to a partition, one after the other. -/
def inTurn : List Act :=
  [.append 0 0 ⟨[1], []⟩ true, .acquire 0, .force 0, .acquire 0, .append 1 0 ⟨[2], []⟩ true, .force 1]

theorem nonempty_iff_inTurn :
    (∀ act ∈ inTurn, act.Good small) ∧ (run (step small) (init small) inTurn).isSome = true ∧
      ∀ s, run (step small) (init small) inTurn = some s → Nonempty s := by
  have hgood : ∀ act ∈ inTurn, act.Good small := by decide
  have hapart : Along (step small) Apart (init small) inTurn := by decide
  exact ⟨hgood, by decide, fun s hs => (nonempty_iff small inTurn s hgood hs).mpr hapart⟩

/-- Both threads append their last record before the first of them forces. -/
def crossed : List Act :=
  [.append 0 0 ⟨[1], []⟩ true, .acquire 0, .append 1 0 ⟨[2], []⟩ true, .force 0, .acquire 0, .force 1]

/-- The second `force_spill` submits an empty buffer. -/
theorem submits_empty :
    (∀ act ∈ crossed, act.Good small) ∧
      (run (step small) (init small) crossed).map (fun s => s.agent.subs.map fun sub => sub.content.payload) =
        some [[1, 2], []] ∧
      ∃ s, run (step small) (init small) crossed = some s ∧ ¬ Nonempty s := by
  have hpayloads : (run (step small) (init small) crossed).map
      (fun s => s.agent.subs.map fun sub => sub.content.payload) = some [[1, 2], []] := by decide
  obtain ⟨s, hs, hmap⟩ := Option.map_eq_some_iff.mp hpayloads
  refine ⟨by decide, hpayloads, s, hs, fun hall => ?_⟩
  have hnil : ([] : Bytes) ∈ s.agent.subs.map fun sub => sub.content.payload := by
    rw [hmap]
    decide
  obtain ⟨sub, hsub, hempty⟩ := List.mem_map.mp hnil
  exact hall sub hsub hempty

end DShuffle.Spill.Append
