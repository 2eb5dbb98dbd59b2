import DShuffle.Trans.Calls

/-!
# Calls that fail

When `post_send` resolves to 0 or less, `Transport::call` throws. By then it has a
receive posted, a send buffer, a context and an entry in `outstanding_rpcs`, and it
gives none of them back; `serve_once`, whose sends may fail the same way, does
release its buffer. `TransportGuard` joins its poller when it is destroyed, and the
poller leaves `progress_until` only when `outstanding_rpcs` is empty.

## What is proved

* `failed_call_leaves_trace` — after a call that failed, its send buffer is never in
  the pool again, and if the endpoint had stopped before the request was posted, the
  table is never empty again.
* `failed_call_leaves_trace_stopped` — such a call on an endpoint that has stopped.
-/

namespace DShuffle.Trans.Transport

open Base

variable {R H : Type} {P : Service R H} {s s' : St P} {i k b : ℕ}

/-- What a failed call should leave: no entry of its context, and its buffer in the pool. -/
structure NoTrace (s : St P) (ctx b : ℕ) : Prop where
  /-- The table does not have the context. -/
  table : ∀ q, (q, ctx) ∉ s.outstandingRpcs
  /-- The pool has the buffer. -/
  pool : b ∈ s.sendBufs

/-- The condition under which `progress_until` returns, as far as the calls decide it. -/
def Settled (s : St P) : Prop := s.outstandingRpcs = []

/-! ### The send buffers -/

/-- The send buffer that a fiber holds. -/
def Fiber.buffer? : Fiber P → Option ℕ
  | .sendPost _ _ b _ => some b
  | .sendWait b _ _ => some b
  | _ => none

/-- The send buffers in the pool and with the fibers. -/
def St.buffers (s : St P) : List ℕ := s.sendBufs ++ s.fibers.filterMap Fiber.buffer?

theorem buffers_take {f : Fiber P} (hf : s.fibers[i]? = some f) :
    s.buffers.Perm (s.sendBufs ++ (f :: s.fibers.eraseIdx i).filterMap Fiber.buffer?) :=
  ((perm_eraseIdx hf).filterMap _).append_left _

section
variable [DecidableEq R] {act : Act P}

/-- No step makes a send buffer. -/
theorem buffers_step (hs : step s act = some s') : s'.buffers.Subperm s.buffers := by
  cases moves_of_step hs with
  | call => exact List.Subperm.refl _
  | oneway => exact List.Subperm.refl _
  | acquireRecv hf => exact (buffers_take hf).symm.subperm
  | postRecv hf =>
    split
    · exact (buffers_take hf).symm.subperm
    · exact (buffers_take hf).symm.subperm
  | acquireSend hf hb =>
    have htake := buffers_take hf
    rw [hb] at htake
    exact (List.perm_middle.trans htake.symm).subperm
  | throws hf hb =>
    have htake := buffers_take hf
    rw [hb] at htake
    exact (List.sublist_cons_self ..).subperm.trans htake.symm.subperm
  | postOneway hf => exact (buffers_take hf).symm.subperm
  | postCall hf => exact (buffers_take hf).symm.subperm
  | sendFails hf =>
    exact ((List.sublist_cons_self ..).append_left _).subperm.trans (buffers_take hf).symm.subperm
  | @sent i _ b _ _ hf =>
    refine List.Subperm.trans ?_ (buffers_take hf).symm.subperm
    show ((s.sendBufs ++ [b]) ++ (s.fibers.eraseIdx i).filterMap Fiber.buffer?).Subperm _
    rw [List.append_assoc]
    exact List.Subperm.refl _
  | serve =>
    obtain ⟨hfibers, hbufs, -⟩ := frame_serve hs
    rw [St.buffers, hfibers, hbufs]
    exact List.Subperm.refl _
  | arrive => exact List.Subperm.refl _
  | dispatch =>
    obtain ⟨hfibers, hbufs, -⟩ := frame_dispatch hs
    rw [St.buffers, hfibers, hbufs]
    exact List.Subperm.refl _
  | loseRequest => exact List.Subperm.refl _
  | loseReply => exact List.Subperm.refl _
  | stop => exact List.Subperm.refl _

/-- A buffer is in one place. -/
theorem nodup_buffers_of_run {acts : List (Act P)} (hr : run step (init P) acts = some s) : s.buffers.Nodup := by
  refine inv_of_run (I := fun s => s.buffers.Nodup) (fun s a s' h hs => ?_) ?_ hr
  · obtain ⟨l, hl, hsub⟩ := buffers_step hs
    exact hl.nodup_iff.mp (h.sublist hsub)
  · show (List.range P.queueDepth ++ []).Nodup
    rw [List.append_nil]
    exact List.nodup_range

/-- A buffer that is nowhere stays so. -/
theorem lost_of_run {acts : List (Act P)} (hb : b ∉ s.buffers) (hr : run step s acts = some s') : b ∉ s'.buffers :=
  inv_of_run (I := fun s => b ∉ s.buffers) (fun _ _ _ h hs hmem => h ((buffers_step hs).subset hmem)) hb hr

/-- The buffer of a send that fails is nowhere. -/
theorem lost_of_sent {ctx : Option ℕ} {res : Option ℤ} {nSend : ℤ} (hnodup : s.buffers.Nodup)
    (hf : s.fibers[i]? = some (.sendWait b ctx res)) (hn : nSend ≤ 0) (hs : step s (.sent i nSend) = some s') :
    b ∉ s'.buffers := by
  simp only [step, hf, Option.ite_none_right_eq_some, if_pos hn, Option.some.injEq] at hs
  obtain ⟨-, rfl⟩ := hs
  have hcons := (buffers_take hf).nodup_iff.mp hnodup
  exact (List.nodup_cons.mp (List.perm_middle.nodup_iff.mp hcons)).1

/-! ### Calls whose request was not posted -/

omit [DecidableEq R] in
variable (s k) in
/-- The call is not answered, and nothing of it is in flight. -/
def Silent : Prop := ∃ c, s.contexts[k]? = some c ∧ c.values = [] ∧ c.call.seq ∉ s.flight

omit [DecidableEq R] in
/-- The table has a call that is silent. -/
theorem Silent.not_settled (hk : Silent s k) (h : Inv s) : ¬ Settled s := by
  obtain ⟨c, hc, hv, -⟩ := hk
  have hmem := (h.table.outstanding c.call.seq k).mpr ⟨c, hc, rfl, hv⟩
  intro hnil
  rw [Settled] at hnil
  rw [hnil] at hmem
  cases hmem

omit [DecidableEq R] in
/-- The number of a call is not that of a message that is not posted. -/
theorem Inv.seq_ne (h : Inv s) {c : RpcContext P} (hc : s.contexts[k]? = some c) {f : Fiber P} (hf : s.fibers[i]? = some f)
    {q : BitVec 32} (hq : f.seq? = some q) : c.call.seq ≠ q := by
  rintro rfl
  obtain ⟨n, hn⟩ := h.numbered
  have hcall : c.call.seq ∈ s.calls.map Call.seq :=
    List.mem_map.mpr ⟨c.call, List.mem_map.mpr ⟨c, List.mem_of_getElem? hc, rfl⟩, rfl⟩
  exact (List.nodup_append.mp hn.nodup).2.2 _ hcall _
    (List.mem_filterMap.mpr ⟨f, List.mem_of_getElem? hf, hq⟩) rfl

omit [DecidableEq R] in
/-- A message with another number, or with none, is posted. -/
theorem flight_post {c : RpcContext P} (hq : c.call.seq ∉ s.flight) {m : List Bytes} (hm : ∀ x ∈ m, seq? P x ≠ some c.call.seq)
    (hreq : s'.requests = s.requests ++ m) (hrep : s'.replies = s.replies) (hrec : s'.received = s.received) :
    c.call.seq ∉ s'.flight := by
  intro hmem
  obtain ⟨x, hx, hxq⟩ := List.mem_filterMap.mp hmem
  rw [hreq, hrep, hrec, List.append_assoc] at hx
  rcases List.mem_append.mp hx with hx | hx
  · exact hq (List.mem_filterMap.mpr ⟨x, List.mem_append_left _ hx, hxq⟩)
  · rcases List.mem_append.mp hx with hx | hx
    · exact hm x hx hxq
    · exact hq (List.mem_filterMap.mpr ⟨x, List.mem_append_right _ hx, hxq⟩)

omit [DecidableEq R] in
/-- What the post of a message with the number `q` adds to the requests. -/
theorem requests_post {c : RpcContext P} {r : R} {req : P.Req r} {q : BitVec 32} (hne : c.call.seq ≠ q) (stale : Bytes) :
    ∃ m, (if s.running then s.requests ++ [requestBytes P r req q ++ stale] else s.requests) = s.requests ++ m ∧
      ∀ x ∈ m, seq? P x ≠ some c.call.seq := by
  split
  · refine ⟨_, rfl, fun x hx => ?_⟩
    rw [List.mem_singleton.mp hx]
    by_cases hr : P.isOneway r = true
    · rw [seq?_oneway hr]
      intro hno
      cases hno
    · rw [seq?_request (Bool.eq_false_iff.mpr hr)]
      exact fun hno => hne (Option.some.inj hno).symm
  · exact ⟨[], (List.append_nil _).symm, fun x hx => absurd hx List.not_mem_nil⟩

theorem Silent.postSend (hk : Silent s k) (h : Inv s) {stale : Bytes} (hs : step s (.postSend i stale) = some s') :
    Silent s' k := by
  obtain ⟨c, hc, hv, hq⟩ := hk
  cases moves_of_step hs with
  | postOneway hf =>
    obtain ⟨m, hreq, hother⟩ := requests_post (s := s) (h.seq_ne hc hf rfl) stale
    exact ⟨c, hc, hv, flight_post hq hother hreq rfl rfl⟩
  | postCall hf =>
    obtain ⟨m, hreq, hother⟩ := requests_post (s := s) (h.seq_ne hc hf rfl) stale
    refine ⟨c, ?_, hv, flight_post hq hother hreq rfl rfl⟩
    rw [List.getElem?_append_left (List.getElem?_eq_some_iff.mp hc).1]
    exact hc

theorem Silent.serve (hk : Silent s k) (h : Inv s) (hid : Function.Injective P.id) {j : ℕ} {found : H} {stale : Bytes}
    (hs : step s (.serve j found stale) = some s') : Silent s' k := by
  obtain ⟨c, hc, hv, hq⟩ := hk
  cases moves_of_step hs with
  | @serve _ _ _ m hj =>
    have hdrop : c.call.seq ∉ St.flight { s with requests := s.requests.eraseIdx j } := fun hmem =>
      hq ((((List.eraseIdx_sublist ..).append_right _).filterMap (seq? P)).subset hmem)
    obtain hnone | ⟨x, hx, rest, rfl⟩ := h.messages.requests m (List.mem_of_getElem? hj)
    · rw [serveOnce_of_seq?_eq_none hnone]
      exact ⟨c, hc, hv, hdrop⟩
    · obtain hsame | ⟨resp, m, hres, hm, hdone⟩ := serveOnce_request (s := { s with requests := s.requests.eraseIdx j })
        hid (h.table.normal hx) rest found stale
      · rw [hsame]
        exact ⟨c, hc, hv, hdrop⟩
      · rw [hdone]
        refine ⟨c, hc, hv, fun hmem => hq (List.Subperm.subset ?_ hmem)⟩
        exact h.flight_handle hx hj hm rfl rfl rfl

theorem Silent.dispatch (hk : Silent s k) (h : Inv s) (hid : Function.Injective P.id) {j : ℕ}
    (hs : step s (.dispatch j) = some s') : Silent s' k := by
  obtain ⟨c, hc, hv, hq⟩ := hk
  cases moves_of_step hs with
  | @dispatch _ b m hj =>
    obtain ⟨k', x, resp, rest, hk', hxv, hhandled, rfl, hfind⟩ := h.context_of_received hj
    have hx : x.call ∈ s.calls := List.mem_map.mpr ⟨x, List.mem_of_getElem? hk', rfl⟩
    rw [dispatchResp_reply (s := { s with received := s.received.eraseIdx j }) hid (h.table.rpcs _ hx) hfind]
    have hflight : s.flight.Perm (x.call.seq :: St.flight { s with received := s.received.eraseIdx j }) :=
      flight_dispatch hj rfl rfl rfl
    have hne : k' ≠ k := by
      rintro rfl
      obtain rfl : c = x := Option.some.inj (hc.symm.trans hk')
      exact hq (hflight.symm.subset List.mem_cons_self)
    refine ⟨c, ?_, hv, fun hmem => hq (hflight.symm.subset (List.mem_cons_of_mem _ hmem))⟩
    show (s.contexts.modify k' _)[k]? = some c
    rw [List.getElem?_modify_ne _ _ hne]
    exact hc

/-- A silent call stays so. -/
theorem Silent.step (hk : Silent s k) (h : Inv s) (hid : Function.Injective P.id) (hs : step s act = some s') :
    Silent s' k := by
  cases act with
  | postSend i stale => exact hk.postSend h hs
  | serve j found stale => exact hk.serve h hid hs
  | dispatch j => exact hk.dispatch h hid hs
  | arrive j l stale =>
    obtain ⟨c, hc, hv, hq⟩ := hk
    cases moves_of_step hs with
    | @arrive _ _ b _ m hj hl =>
      obtain ⟨x, hx, resp, rest, hhandled, rfl⟩ := h.messages.replies m (List.mem_append_left _ (List.mem_of_getElem? hj))
      refine ⟨c, hc, hv, fun hmem => hq (List.Perm.subset ?_ hmem)⟩
      exact flight_arrive hj rfl rfl rfl
  | loseRequest j =>
    obtain ⟨c, hc, hv, hq⟩ := hk
    cases moves_of_step hs
    exact ⟨c, hc, hv, fun hmem => hq ((((List.eraseIdx_sublist ..).append_right _).filterMap (seq? P)).subset hmem)⟩
  | loseReply j =>
    obtain ⟨c, hc, hv, hq⟩ := hk
    cases moves_of_step hs
    exact ⟨c, hc, hv, fun hmem =>
      hq (((((List.eraseIdx_sublist ..).append_right _).append_left _).filterMap (seq? P)).subset hmem)⟩
  | postRecv i =>
    obtain ⟨c, hc, hv, hq⟩ := hk
    cases moves_of_step hs
    split
    · exact ⟨c, hc, hv, hq⟩
    · exact ⟨c, hc, hv, hq⟩
  | _ =>
    obtain ⟨c, hc, hv, hq⟩ := hk
    cases moves_of_step hs <;> exact ⟨c, hc, hv, hq⟩

omit [DecidableEq R] in
variable (s) in
/-- The calls whose post was refused are silent. -/
def Refused : Prop := ∀ b k n, Fiber.sendWait b (some k) (some n) ∈ s.fibers → Silent s k

/-- Only `post_send` makes a fiber wait for it. -/
theorem sendWait_of_step {ctx : Option ℕ} {res : Option ℤ} (hs : step s act = some s')
    (hf : Fiber.sendWait b ctx res ∈ s'.fibers) (hact : ∀ i stale, act ≠ .postSend i stale) :
    Fiber.sendWait b ctx res ∈ s.fibers := by
  have hnew : ∀ {f : Fiber P} {fs : List (Fiber P)}, f ≠ .sendWait b ctx res → Fiber.sendWait b ctx res ∈ f :: fs →
      Fiber.sendWait b ctx res ∈ fs := fun hne hmem => (List.mem_cons.mp hmem).resolve_left (Ne.symm hne)
  cases moves_of_step hs with
  | call => exact hnew (fun heq => by cases heq) hf
  | oneway => exact hnew (fun heq => by cases heq) hf
  | acquireRecv => exact List.mem_of_mem_eraseIdx (hnew (fun heq => by cases heq) hf)
  | postRecv =>
    split at hf
    · exact List.mem_of_mem_eraseIdx (hnew (fun heq => by cases heq) hf)
    · exact List.mem_of_mem_eraseIdx (hnew (fun heq => by cases heq) hf)
  | acquireSend => exact List.mem_of_mem_eraseIdx (hnew (fun heq => by cases heq) hf)
  | throws => exact List.mem_of_mem_eraseIdx hf
  | postOneway => exact absurd rfl (hact _ _)
  | postCall => exact absurd rfl (hact _ _)
  | sendFails => exact List.mem_of_mem_eraseIdx hf
  | sent => exact List.mem_of_mem_eraseIdx hf
  | serve =>
    rw [(frame_serve hs).1] at hf
    exact hf
  | arrive => exact hf
  | dispatch =>
    rw [(frame_dispatch hs).1] at hf
    exact hf
  | loseRequest => exact hf
  | loseReply => exact hf
  | stop => exact hf

theorem Refused.postSend (hr : Refused s) (h : Inv s) {stale : Bytes} (hs : step s (.postSend i stale) = some s') :
    Refused s' := by
  intro b k n hmem
  have hold : Fiber.sendWait b (some k) (some n) ∈ s.fibers.eraseIdx i → Silent s' k := fun hmem =>
    (hr b k n (List.mem_of_mem_eraseIdx hmem)).postSend h hs
  cases moves_of_step hs with
  | postOneway hf =>
    rcases List.mem_cons.mp hmem with heq | hmem
    · cases heq
    · exact hold hmem
  | @postCall _ _ r req b' q hf hone =>
    rcases List.mem_cons.mp hmem with heq | hmem
    case inr => exact hold hmem
    case inl =>
      obtain ⟨-, hk, hres⟩ := Fiber.sendWait.inj heq
      cases hk
      by_cases hrun : s.running = true
      · rw [if_pos hrun] at hres
        cases hres
      · refine ⟨⟨⟨r, req, q⟩, []⟩, List.getElem?_concat_length .., rfl, fun hq => ?_⟩
        -- the request was not posted, so what is in flight was so before
        have hflight : q ∈ s.flight := by
          simp only [if_neg hrun] at hq
          exact hq
        obtain ⟨k', hk'⟩ := h.messages.isOpen q hflight
        obtain ⟨c, hc, hcq, -⟩ := (h.table.outstanding q k').mp hk'
        exact h.seq_ne hc hf rfl hcq

theorem Refused.step (hr : Refused s) (h : Inv s) (hid : Function.Injective P.id) (hs : step s act = some s') :
    Refused s' := by
  by_cases hact : ∃ i stale, act = .postSend i stale
  · obtain ⟨i, stale, rfl⟩ := hact
    exact hr.postSend h hs
  · intro b k n hmem
    refine (hr b k n (sendWait_of_step hs hmem fun i stale heq => hact ⟨i, stale, heq⟩)).step h hid hs

/-- The invariants of a run with fewer than `2 ^ 32` calls and oneways. -/
theorem refused_of_run (hid : Function.Injective P.id) {acts : List (Act P)} (hr : run step (init P) acts = some s)
    (hn : s.invoked < 2 ^ 32) : Inv s ∧ Refused s := by
  revert hn
  refine inv_of_run (I := fun s => s.invoked < 2 ^ 32 → Inv s ∧ Refused s) (fun s a s' hi hs hlt => ?_) (fun _ => ?_) hr
  · have hle := invoked_le_of_step hs
    obtain ⟨hinv, href⟩ := hi (by omega)
    exact ⟨hinv.step hid (by omega) hs, href.step hinv hid hs⟩
  · exact ⟨inv_init, fun _ _ _ hmem => absurd hmem List.not_mem_nil⟩

/-- A silent call stays so in a run with fewer than `2 ^ 32` calls and oneways. -/
theorem silent_of_run (hid : Function.Injective P.id) {acts : List (Act P)} (h : Inv s) (hk : Silent s k)
    (hr : run step s acts = some s') (hn : s'.invoked < 2 ^ 32) : Inv s' ∧ Silent s' k := by
  revert hn
  refine inv_of_run (I := fun s => s.invoked < 2 ^ 32 → Inv s ∧ Silent s k) (fun s a s' hi hs hlt => ?_) (fun _ => ⟨h, hk⟩) hr
  have hle := invoked_le_of_step hs
  obtain ⟨hinv, hsilent⟩ := hi (by omega)
  exact ⟨hinv.step hid (by omega) hs, hsilent.step hinv hid hs⟩

/-- **A failed call leaves its trace.** When the send of a call resolves to 0 or less, its buffer is in the pool in no later
state; and if the endpoint had stopped when the request was to be posted, the table is empty in no later state. -/
theorem failed_call_leaves_trace (hid : Function.Injective P.id) (acts : List (Act P)) (s : St P)
    (hr : run step (init P) acts = some s) (i b k : ℕ) (res : Option ℤ) (hf : s.fibers[i]? = some (.sendWait b (some k) res))
    (nSend : ℤ) (hn : nSend ≤ 0) (s₁ : St P) (hs : step s (.sent i nSend) = some s₁) (later : List (Act P)) (s₂ : St P)
    (hl : run step s₁ later = some s₂) :
    ¬ NoTrace s₂ k b ∧ (res = some 0 → s₂.invoked < 2 ^ 32 → ¬ Settled s₂) := by
  constructor
  · intro htrace
    have hlost := lost_of_run (lost_of_sent (nodup_buffers_of_run hr) hf hn hs) hl
    exact hlost (List.mem_append_left _ htrace.pool)
  · rintro rfl hlt
    have hle : s.invoked ≤ s₂.invoked := by
      refine le_trans (invoked_le_of_step hs) ?_
      exact inv_of_run (I := fun s => s₁.invoked ≤ s.invoked) (fun _ _ _ h hs => le_trans h (invoked_le_of_step hs))
        (Nat.le_refl _) hl
    obtain ⟨hinv, href⟩ := refused_of_run hid hr (by omega)
    have hsilent := href b k 0 (List.mem_of_getElem? hf)
    have hrun : run step s (.sent i nSend :: later) = some s₂ := by
      rw [run, hs]
      exact hl
    obtain ⟨hinv₂, hsilent₂⟩ := silent_of_run hid hinv hsilent hrun hlt
    exact hsilent₂.not_settled hinv₂

end

/-- The endpoint stops before the request of a mount is posted. -/
def stopped : List (Act diskService) :=
  [.call .mount 3#64, .acquireRecv 0, .postRecv 0, .stop, .acquireSend 0, .postSend 0 []]

theorem stopped_waits :
    ∃ s s₁, run step (init diskService) stopped = some s ∧ s.fibers[0]? = some (.sendWait 0 (some 0) (some 0)) ∧
      step s (.sent 0 0) = some s₁ ∧ s₁.invoked < 2 ^ 32 :=
  ⟨_, _, rfl, rfl, rfl, by decide⟩

theorem failed_call_leaves_trace_stopped :
    ∃ s s₁, run step (init diskService) stopped = some s ∧ s.fibers[0]? = some (.sendWait 0 (some 0) (some 0)) ∧
      step s (.sent 0 0) = some s₁ ∧ ¬ NoTrace s₁ 0 0 ∧ ¬ Settled s₁ := by
  obtain ⟨s, s₁, hr, hf, hs, hn⟩ := stopped_waits
  obtain ⟨htrace, hsettled⟩ :=
    failed_call_leaves_trace DiskRpc.id_injective stopped s hr 0 0 0 (some 0) hf 0 (le_refl 0) s₁ hs [] s₁ rfl
  exact ⟨s, s₁, hr, hf, hs, htrace, hsettled rfl hn⟩

/-- **A call on an endpoint that has stopped** leaves its trace. -/
theorem not_noTrace_stopped :
    ¬ ∀ (acts : List (Act diskService)) (s s₁ : St diskService) (i b k : ℕ) (res : Option ℤ) (nSend : ℤ),
      run step (init diskService) acts = some s → s.fibers[i]? = some (.sendWait b (some k) res) → nSend ≤ 0 →
      step s (.sent i nSend) = some s₁ → NoTrace s₁ k b := by
  intro hall
  obtain ⟨s, s₁, hr, hf, hs, -⟩ := stopped_waits
  have hpool := (hall stopped s s₁ 0 0 0 (some 0) 0 hr hf (le_refl 0) hs).pool
  have hlost := lost_of_sent (nodup_buffers_of_run hr) hf (le_refl 0) hs
  exact hlost (List.mem_append_left _ hpool)

end DShuffle.Trans.Transport
