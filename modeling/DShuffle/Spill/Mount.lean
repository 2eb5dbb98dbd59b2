import DShuffle.Base.Transition
import Mathlib.Data.List.Perm.Basic
import Mathlib.Data.Int.Basic

/-!
# The disk and its two owners

The host lends the output disk to the DPU. `DiskAgent::mount_on_dpu` unmounts it on
the host and asks the DPU to mount it; `umount_on_dpu` asks the DPU to unmount it
and mounts it on the host. Each side keeps its own flag `mounted`: the host changes
its flag only after a command that returned 0, the DPU changes its own whatever the
command returned. A command, a request, a reply or a handler may fail at any point,
and the calls may be made again afterwards by any thread.

## The model

* One machine, whose actions are the steps of the threads that call the agent, of
  the handlers on the DPU and of the connection.
* A call of an RPC has an identity of its own, and its reply is given to it.
* A command is an action with the code that it returns, and it changes the disk
  exactly if the code is 0.
* A request is in flight as soon as it is posted, whatever the post resolves to;
  requests and replies may be lost. A handler that dies leaves no reply, and the
  state as it was when it died.

## What is proved

* `never_on_both` — in no reachable state is the disk mounted on both sides.

## Honest scope

An exception that leaves a handler ends the process of the DPU; here the other
handlers may go on, which gives more runs. The wait in `do_umount` may end at any
time, as may the wait of the guard of the transport.
-/

namespace DShuffle.Spill.Mount

open Base

/-- The RPCs of the agent; also its two calls, each of which makes one of them. -/
inductive Rpc where
  /-- `MountRpc`, made by `mount_on_dpu`. -/
  | mount
  /-- `UmountRpc`, made by `umount_on_dpu`. -/
  | umount
  deriving DecidableEq

/-- Where a thread stands. -/
inductive Pc where
  /-- Outside of the agent. -/
  | idle
  /-- At the lock of `mu`. -/
  | enter (r : Rpc)
  /-- It has the lock, and has not read `mounted`. -/
  | check (r : Rpc)
  /-- Before `umount` on the host. -/
  | hostUmount
  /-- `umount` returned 0, and the flag is not cleared. -/
  | clearFlag
  /-- Before the call of the RPC. -/
  | call (r : Rpc)
  /-- The request of the call is posted. -/
  | sending (r : Rpc) (c : ℕ)
  /-- In `get` of the call's future. -/
  | waiting (r : Rpc) (c : ℕ)
  /-- The DPU returned 0, before `mount` on the host. -/
  | hostMount
  /-- `mount` returned 0, and the flag is not set. -/
  | setFlag
  /-- It returns or throws, and still has the lock. -/
  | leave
  deriving DecidableEq

/-- Where a handler on the DPU stands. -/
inductive Handler where
  /-- `do_mount` has run `mount`, and opens the files. -/
  | opening (rc : ℤ)
  /-- `do_umount` waits until the spilling is done. -/
  | draining
  deriving DecidableEq

/-- The DPU, and what is in flight between the two sides. -/
structure Dpu where
  /-- The disk is mounted on the DPU. -/
  disk : Bool
  /-- `mounted` of the worker. -/
  mounted : Bool
  /-- How many calls were made. -/
  calls : ℕ
  /-- The requests in flight. -/
  requests : List (ℕ × Rpc)
  /-- The handlers that run. -/
  handlers : List (ℕ × Handler)
  /-- The replies in flight. -/
  replies : List (ℕ × ℤ)

/-- The state of both sides. -/
structure St where
  /-- The disk is mounted on the host. -/
  disk : Bool
  /-- `mounted` of the agent. -/
  mounted : Bool
  /-- The thread that has `mu`. -/
  mu : Option ℕ
  /-- Where each thread stands. -/
  pc : ℕ → Pc
  /-- The other side. -/
  dpu : Dpu

/-- The steps. -/
inductive Act where
  /-- A thread calls `mount_on_dpu` or `umount_on_dpu`. -/
  | enter (i : ℕ) (r : Rpc)
  /-- It gets the lock. -/
  | lock (i : ℕ)
  /-- It reads the flag. -/
  | check (i : ℕ)
  /-- `umount` on the host returns. -/
  | hostUmount (i : ℕ) (rc : ℤ)
  /-- `mounted = false`. -/
  | clearFlag (i : ℕ)
  /-- The request is posted. -/
  | post (i : ℕ)
  /-- `post_send` resolves. -/
  | sent (i : ℕ) (nSend : ℤ)
  /-- The reply at the place arrives. -/
  | answered (i k : ℕ)
  /-- `mount` on the host returns. -/
  | hostMount (i : ℕ) (rc : ℤ)
  /-- `mounted = true`. -/
  | setFlag (i : ℕ)
  /-- The lock is released. -/
  | unlock (i : ℕ)
  /-- The request at the place is lost. -/
  | loseRequest (k : ℕ)
  /-- The reply at the place is lost. -/
  | loseReply (k : ℕ)
  /-- The request at the place is served; `rc` is what `mount` returns, if it is run. -/
  | serve (k : ℕ) (rc : ℤ)
  /-- `do_mount` has opened the files, or dies because one cannot be opened. -/
  | opened (k : ℕ) (ok : Bool)
  /-- `do_umount` has waited, and runs `umount`. -/
  | drained (k : ℕ) (rc : ℤ)
  deriving DecidableEq

/-- The disk after `mount` returned. -/
def mount (disk : Bool) (rc : ℤ) : Bool := if rc = 0 then true else disk

/-- The disk after `umount` returned. -/
def umount (disk : Bool) (rc : ℤ) : Bool := if rc = 0 then false else disk

/-- The thread goes on. -/
def St.goto (s : St) (i : ℕ) (pc : Pc) : St := { s with pc := Function.update s.pc i pc }

/-- A request is posted. -/
def Dpu.post (d : Dpu) (r : Rpc) : Dpu := { d with calls := d.calls + 1, requests := d.requests ++ [(d.calls, r)] }

/-- `do_mount` up to the lock of the files, and `do_umount` up to its wait. -/
def Dpu.serve (d : Dpu) (c : ℕ) (rc : ℤ) : Rpc → Dpu
  | .mount =>
    if d.mounted then d
    else { d with disk := mount d.disk rc, mounted := true, handlers := d.handlers ++ [(c, .opening rc)] }
  | .umount => if d.mounted then { d with handlers := d.handlers ++ [(c, .draining)] } else d

/-- A step of the DPU or of the connection. -/
def Dpu.step (d : Dpu) : Act → Option Dpu
  | .loseRequest k => if k < d.requests.length then some { d with requests := d.requests.eraseIdx k } else none
  | .loseReply k => if k < d.replies.length then some { d with replies := d.replies.eraseIdx k } else none
  | .serve k rc =>
    match d.requests[k]? with
    | some (c, r) => some (Dpu.serve { d with requests := d.requests.eraseIdx k } c rc r)
    | none => none
  | .opened k ok =>
    match d.handlers[k]? with
    | some (c, .opening rc) =>
      some { d with handlers := d.handlers.eraseIdx k, replies := if ok then d.replies ++ [(c, rc)] else d.replies }
    | _ => none
  | .drained k rc =>
    match d.handlers[k]? with
    | some (c, .draining) =>
      some { d with handlers := d.handlers.eraseIdx k, disk := umount d.disk rc, mounted := false,
                    replies := d.replies ++ [(c, rc)] }
    | _ => none
  | _ => none

/-- A step of the host, of the DPU or of the connection. -/
def step (s : St) : Act → Option St
  | .enter i r => if s.pc i = .idle then some (s.goto i (.enter r)) else none
  | .lock i =>
    match s.pc i, s.mu with
    | .enter r, none => some { s.goto i (.check r) with mu := some i }
    | _, _ => none
  | .check i =>
    match s.pc i with
    | .check .mount => some (s.goto i (if s.mounted then .hostUmount else .leave))
    | .check .umount => some (s.goto i (if s.mounted then .leave else .call .umount))
    | _ => none
  | .hostUmount i rc =>
    if s.pc i = .hostUmount then
      some { s.goto i (if rc = 0 then .clearFlag else .leave) with disk := umount s.disk rc }
    else none
  | .clearFlag i => if s.pc i = .clearFlag then some { s.goto i (.call .mount) with mounted := false } else none
  | .post i =>
    match s.pc i with
    | .call r => some { s.goto i (.sending r s.dpu.calls) with dpu := s.dpu.post r }
    | _ => none
  | .sent i nSend =>
    match s.pc i with
    | .sending r c => some (s.goto i (if nSend ≤ 0 then .leave else .waiting r c))
    | _ => none
  | .answered i k =>
    match s.pc i, s.dpu.replies[k]? with
    | .waiting r c, some (c', rc) =>
      if c' = c then
        some { s.goto i (if r = .umount ∧ rc = 0 then .hostMount else .leave) with
          dpu := { s.dpu with replies := s.dpu.replies.eraseIdx k } }
      else none
    | _, _ => none
  | .hostMount i rc =>
    if s.pc i = .hostMount then
      some { s.goto i (if rc = 0 then .setFlag else .leave) with disk := mount s.disk rc }
    else none
  | .setFlag i => if s.pc i = .setFlag then some { s.goto i .leave with mounted := true } else none
  | .unlock i => if s.pc i = .leave then some { s.goto i .idle with mu := none } else none
  | act => (s.dpu.step act).map fun d => { s with dpu := d }

/-- The disk is on the host, and nothing is under way. -/
def init : St :=
  { disk := true, mounted := true, mu := none, pc := fun _ => .idle,
    dpu := { disk := false, mounted := false, calls := 0, requests := [], handlers := [], replies := [] } }

/-! ### What holds in every state -/

/-- The thread has the lock there. -/
def Pc.inside : Pc → Prop
  | .idle => False
  | .enter _ => False
  | _ => True

/-- No request to mount is in flight. -/
def Dpu.NoMount (d : Dpu) : Prop := ∀ c, (c, Rpc.mount) ∉ d.requests

/-- The DPU does not have the disk, and will not have it before it is asked again. -/
structure Dpu.Released (d : Dpu) : Prop where
  /-- The disk is not mounted there. -/
  disk : d.disk = false
  /-- Neither is the flag set. -/
  flag : d.mounted = false
  /-- And no request is in flight. -/
  noMount : d.NoMount

/-- A call of an `UmountRpc` that returns 0 will find the disk released. -/
structure Dpu.Answers (d : Dpu) (c : ℕ) : Prop where
  /-- The request of the call is what it should be. -/
  request : (c, Rpc.mount) ∉ d.requests
  /-- So is its handler. -/
  handler : ∀ rc, (c, Handler.opening rc) ∉ d.handlers
  /-- While its handler waits, no request to mount is in flight. -/
  draining : (c, Handler.draining) ∈ d.handlers → d.NoMount
  /-- When its reply is 0, the disk is released. -/
  reply : (c, (0 : ℤ)) ∈ d.replies → d.Released

/-- What is in flight. -/
structure Dpu.Flight (d : Dpu) : Prop where
  /-- A request to mount finds the DPU without the disk. -/
  mount : ∀ c, (c, Rpc.mount) ∈ d.requests → d.disk = false ∧ d.mounted = false
  /-- There is one of them at most. -/
  one : (d.requests.map Prod.snd).count .mount ≤ 1
  /-- The calls in flight were made. -/
  requests : ∀ c r, (c, r) ∈ d.requests → c < d.calls
  /-- So were those of the handlers. -/
  handlers : ∀ c h, (c, h) ∈ d.handlers → c < d.calls
  /-- So were those of the replies. -/
  replies : ∀ c rc, (c, rc) ∈ d.replies → c < d.calls

/-- What the thread that has the lock knows. -/
def Knows (disk mounted : Bool) (d : Dpu) : Pc → Prop
  | .hostUmount => d.Released
  | .clearFlag => disk = false ∧ d.Released
  | .call .mount => disk = false ∧ mounted = false ∧ d.Released
  | .sending .umount c => d.Answers c
  | .waiting .umount c => d.Answers c
  | .hostMount => d.Released
  | .setFlag => d.Released
  | _ => True

/-- What holds in every state. -/
structure Inv (s : St) : Prop where
  /-- A thread inside has the lock. -/
  locked : ∀ i, (s.pc i).inside → s.mu = some i
  /-- What the thread with the lock knows. -/
  knows : ∀ i, s.mu = some i → Knows s.disk s.mounted s.dpu (s.pc i)
  /-- While the host has the disk, the DPU does not. -/
  disk : s.disk = true → s.dpu.Released
  /-- So it is while the host's flag is set. -/
  flag : s.mounted = true → s.dpu.Released
  /-- What is in flight. -/
  flight : s.dpu.Flight

theorem inv_init : Inv init where
  locked _ h := h.elim
  knows _ h := by cases h
  disk _ := ⟨rfl, rfl, fun _ => List.not_mem_nil⟩
  flag _ := ⟨rfl, rfl, fun _ => List.not_mem_nil⟩
  flight :=
    { mount := fun _ h => absurd h List.not_mem_nil
      one := Nat.zero_le _
      requests := fun _ _ h => absurd h List.not_mem_nil
      handlers := fun _ _ h => absurd h List.not_mem_nil
      replies := fun _ _ h => absurd h List.not_mem_nil }

variable {s s' : St} {d d' : Dpu} {i k c : ℕ} {pc' : Pc} {act : Act}

/-! ### The lock -/

/-- Another thread has not moved. -/
theorem goto_of_ne {j : ℕ} (hj : j ≠ i) : (s.goto i pc').pc j = s.pc j := Function.update_of_ne hj ..

/-- The thread has moved. -/
theorem goto_self : (s.goto i pc').pc i = pc' := Function.update_self ..

/-- A thread that is inside is the one with the lock. -/
theorem Inv.owner (h : Inv s) (hi : (s.pc i).inside) {j : ℕ} (hj : s.mu = some j) : j = i :=
  Option.some.inj (hj.symm.trans (h.locked i hi))

/-- What a thread inside knows. -/
theorem Inv.known (h : Inv s) {pc : Pc} (hpc : s.pc i = pc) (hi : pc.inside) : Knows s.disk s.mounted s.dpu pc :=
  hpc ▸ h.knows i (h.locked i (hpc ▸ hi))

/-- The thread with the lock goes on. -/
theorem Inv.proceed (h : Inv s) (hi : (s.pc i).inside) (hpc : s'.pc = (s.goto i pc').pc) (hmu : s'.mu = s.mu)
    (hk : Knows s'.disk s'.mounted s'.dpu pc') (hd : s'.disk = true → s'.dpu.Released)
    (hf : s'.mounted = true → s'.dpu.Released) (hfl : s'.dpu.Flight) : Inv s' where
  locked j hj := by
    rw [hmu]
    by_cases hji : j = i
    · exact hji ▸ h.locked i hi
    · rw [hpc, goto_of_ne hji] at hj
      exact h.locked j hj
  knows j hj := by
    obtain rfl := h.owner hi (hmu ▸ hj)
    rw [hpc, goto_self]
    exact hk
  disk := hd
  flag := hf
  flight := hfl

theorem Inv.enter {r : Rpc} (h : Inv s) (hs : step s (.enter i r) = some s') : Inv s' := by
  simp only [step, Option.ite_none_right_eq_some, Option.some.injEq] at hs
  obtain ⟨_, rfl⟩ := hs
  refine ⟨fun j hj => ?_, fun j hj => ?_, h.disk, h.flag, h.flight⟩
  · by_cases hji : j = i
    · subst hji
      rw [goto_self] at hj
      exact hj.elim
    · rw [goto_of_ne hji] at hj
      exact h.locked j hj
  · by_cases hji : j = i
    · subst hji
      rw [goto_self]
      trivial
    · rw [goto_of_ne hji]
      exact h.knows j hj

theorem Inv.lock (h : Inv s) (hs : step s (.lock i) = some s') : Inv s' := by
  simp only [step] at hs
  split at hs
  case h_2 => cases hs
  case h_1 r hpc hmu =>
    cases hs
    have hout : ∀ j, ¬ (s.pc j).inside := fun j hj => by
      have hj := h.locked j hj
      rw [hmu] at hj
      cases hj
    refine ⟨fun j hj => ?_, fun j hj => ?_, h.disk, h.flag, h.flight⟩
    · by_cases hji : j = i
      · rw [hji]
      · rw [show St.pc { s.goto i (.check r) with mu := some i } j = s.pc j from goto_of_ne hji] at hj
        exact absurd hj (hout j)
    · obtain rfl := Option.some.inj hj
      rw [show St.pc { s.goto i (.check r) with mu := some i } i = .check r from goto_self]
      trivial

theorem Inv.unlock (h : Inv s) (hs : step s (.unlock i) = some s') : Inv s' := by
  simp only [step, Option.ite_none_right_eq_some, Option.some.injEq] at hs
  obtain ⟨hpc, rfl⟩ := hs
  have hi : (s.pc i).inside := hpc ▸ trivial
  refine ⟨fun j hj => ?_, fun j hj => ?_, h.disk, h.flag, h.flight⟩
  · by_cases hji : j = i
    · subst hji
      rw [show St.pc { s.goto j .idle with mu := none } j = .idle from goto_self] at hj
      exact hj.elim
    · rw [show St.pc { s.goto i .idle with mu := none } j = s.pc j from goto_of_ne hji] at hj
      exact absurd (h.owner hi (h.locked j hj)) hji
  · cases hj

/-! ### The DPU and the connection -/

/-- What a step beyond the host keeps. -/
structure Dpu.Keeps (d d' : Dpu) : Prop where
  /-- What is in flight stays so. -/
  flight : d'.Flight
  /-- A disk that is released stays so. -/
  released : d.Released → d'.Released
  /-- What is known of a call stays so. -/
  answers : ∀ c, d.Answers c → d'.Answers c

/-- Something in flight is gone. -/
theorem Dpu.Flight.drop (h : d.Flight) {requests : List (ℕ × Rpc)} {replies : List (ℕ × ℤ)}
    (hreq : requests.Sublist d.requests) (hrep : replies.Sublist d.replies) :
    d.Keeps { d with requests := requests, replies := replies } := by
  have hr : d.Released → Released { d with requests := requests, replies := replies } :=
    fun hr => ⟨hr.disk, hr.flag, fun c hc => hr.noMount c (hreq.subset hc)⟩
  refine ⟨⟨fun c hc => h.mount c (hreq.subset hc), ?_, fun c r hc => h.requests c r (hreq.subset hc), h.handlers,
    fun c rc hc => h.replies c rc (hrep.subset hc)⟩, hr, fun c ha => ?_⟩
  · exact le_trans ((hreq.map Prod.snd).count_le _) h.one
  · exact ⟨fun hc => ha.request (hreq.subset hc), ha.handler, fun hc c' hc' => ha.draining hc c' (hreq.subset hc'),
      fun hc => hr (ha.reply (hrep.subset hc))⟩

/-- The request to mount that is served was the only one. -/
theorem Dpu.Flight.noMount_eraseIdx (h : d.Flight) (hk : d.requests[k]? = some (c, .mount)) (c' : ℕ) :
    (c', Rpc.mount) ∉ d.requests.eraseIdx k := by
  intro hc
  obtain ⟨hlt, hget⟩ := List.getElem?_eq_some_iff.mp hk
  have hperm := ((List.getElem_cons_eraseIdx_perm hlt).map Prod.snd).count_eq Rpc.mount
  have hmem : 0 < ((d.requests.eraseIdx k).map Prod.snd).count .mount :=
    List.count_pos_iff.mpr (List.mem_map.mpr ⟨_, hc, rfl⟩)
  rw [hget, List.map_cons, List.count_cons_self] at hperm
  have hone := h.one
  omega

/-- A handler that was started for a request is of a call that was made. -/
theorem Dpu.Flight.handlers_append {r : Rpc} (h : d.Flight) (hmem : (c, r) ∈ d.requests) (hd : Handler) :
    ∀ c' h', (c', h') ∈ d.handlers ++ [(c, hd)] → c' < d.calls := by
  intro c' h' hc'
  rcases List.mem_append.mp hc' with hc' | hc'
  · exact h.handlers c' h' hc'
  · obtain ⟨rfl, -⟩ := Prod.mk.inj (List.mem_singleton.mp hc')
    exact h.requests c' r hmem

/-- `do_mount`. -/
theorem Dpu.Flight.serve_mount (h : d.Flight) (hk : d.requests[k]? = some (c, .mount)) (rc : ℤ) :
    d.Keeps (Dpu.serve { d with requests := d.requests.eraseIdx k } c rc .mount) := by
  have hmem : (c, Rpc.mount) ∈ d.requests := List.mem_of_getElem? hk
  have hm : d.mounted = false := (h.mount c hmem).2
  have hno := h.noMount_eraseIdx hk
  rw [Dpu.serve, if_neg (by rw [hm]; exact Bool.false_ne_true)]
  refine ⟨⟨fun c' hc' => absurd hc' (hno c'), ?_, fun c' r hc' => h.requests c' r (List.mem_of_mem_eraseIdx hc'), ?_,
    h.replies⟩, fun hr => absurd hmem (hr.noMount c), fun c' ha => ?_⟩
  · exact le_trans (((List.eraseIdx_sublist ..).map Prod.snd).count_le _) h.one
  · exact h.handlers_append hmem _
  · refine ⟨hno c', fun rc' hc' => ?_, fun _ => hno, fun hc' => absurd hmem ((ha.reply hc').noMount c)⟩
    rcases List.mem_append.mp hc' with hc' | hc'
    · exact ha.handler rc' hc'
    · obtain ⟨rfl, -⟩ := Prod.mk.inj (List.mem_singleton.mp hc')
      exact ha.request hmem

/-- `do_umount` up to its wait. -/
theorem Dpu.Flight.serve_umount (h : d.Flight) (hk : d.requests[k]? = some (c, .umount)) (rc : ℤ) :
    d.Keeps (Dpu.serve { d with requests := d.requests.eraseIdx k } c rc .umount) := by
  have hmem : (c, Rpc.umount) ∈ d.requests := List.mem_of_getElem? hk
  have hsub := List.eraseIdx_sublist d.requests k
  by_cases hm : d.mounted = true
  · rw [Dpu.serve, if_pos hm]
    have hne : d.mounted ≠ false := by rw [hm]; exact Bool.noConfusion
    have hno : ∀ c', (c', Rpc.mount) ∉ d.requests.eraseIdx k := fun c' hc' =>
      absurd (h.mount c' (hsub.subset hc')).2 hne
    refine ⟨⟨fun c' hc' => absurd hc' (hno c'), le_trans ((hsub.map Prod.snd).count_le _) h.one,
      fun c' r hc' => h.requests c' r (hsub.subset hc'), ?_, h.replies⟩,
      fun hr => absurd hr.flag hne, fun c' ha => ?_⟩
    · exact h.handlers_append hmem _
    · refine ⟨hno c', fun rc' hc' => ?_, fun _ => hno,
        fun hc' => absurd (ha.reply hc').flag hne⟩
      rcases List.mem_append.mp hc' with hc' | hc'
      · exact ha.handler rc' hc'
      · obtain ⟨-, hh⟩ := Prod.mk.inj (List.mem_singleton.mp hc')
        cases hh
  · rw [Dpu.serve, if_neg hm]
    exact h.drop hsub (List.Sublist.refl _)

/-- A handler of `do_mount` replies, or dies. -/
theorem Dpu.Flight.opened (h : d.Flight) {rc : ℤ} (hk : d.handlers[k]? = some (c, .opening rc)) (ok : Bool) :
    d.Keeps { d with handlers := d.handlers.eraseIdx k,
                     replies := if ok then d.replies ++ [(c, rc)] else d.replies } := by
  have hmem : (c, Handler.opening rc) ∈ d.handlers := List.mem_of_getElem? hk
  have hsub := List.eraseIdx_sublist d.handlers k
  have hrep : ∀ r ∈ (if ok then d.replies ++ [(c, rc)] else d.replies), r ∈ d.replies ∨ r = (c, rc) := by
    intro r hr
    cases ok with
    | true => exact (List.mem_append.mp hr).imp_right List.mem_singleton.mp
    | false => exact Or.inl hr
  refine ⟨⟨h.mount, h.one, h.requests, fun c' h' hc' => h.handlers c' h' (hsub.subset hc'), fun c' rc' hc' => ?_⟩,
    fun hr => ⟨hr.disk, hr.flag, hr.noMount⟩, fun c' ha => ?_⟩
  · rcases hrep _ hc' with hc' | hc'
    · exact h.replies c' rc' hc'
    · obtain ⟨rfl, -⟩ := Prod.mk.inj hc'
      exact h.handlers c' _ hmem
  · refine ⟨ha.request, fun rc' hc' => ha.handler rc' (hsub.subset hc'), fun hc' => ha.draining (hsub.subset hc'),
      fun hc' => ?_⟩
    rcases hrep _ hc' with hc' | hc'
    · exact ⟨(ha.reply hc').disk, (ha.reply hc').flag, (ha.reply hc').noMount⟩
    · obtain ⟨rfl, rfl⟩ := Prod.mk.inj hc'
      exact absurd hmem (ha.handler 0)

/-- A handler of `do_umount` runs `umount` and replies. -/
theorem Dpu.Flight.drained (h : d.Flight) (hk : d.handlers[k]? = some (c, .draining)) (rc : ℤ) :
    d.Keeps { d with handlers := d.handlers.eraseIdx k, disk := umount d.disk rc, mounted := false,
                     replies := d.replies ++ [(c, rc)] } := by
  have hmem : (c, Handler.draining) ∈ d.handlers := List.mem_of_getElem? hk
  have hsub := List.eraseIdx_sublist d.handlers k
  have hoff : d.disk = false → umount d.disk rc = false := fun hd => by
    rw [umount, hd, ite_self]
  refine ⟨⟨fun c' hc' => ⟨hoff (h.mount c' hc').1, rfl⟩, h.one, h.requests,
    fun c' h' hc' => h.handlers c' h' (hsub.subset hc'), fun c' rc' hc' => ?_⟩,
    fun hr => ⟨hoff hr.disk, rfl, hr.noMount⟩, fun c' ha => ?_⟩
  · rcases List.mem_append.mp hc' with hc' | hc'
    · exact h.replies c' rc' hc'
    · obtain ⟨rfl, -⟩ := Prod.mk.inj (List.mem_singleton.mp hc')
      exact h.handlers c' _ hmem
  · refine ⟨ha.request, fun rc' hc' => ha.handler rc' (hsub.subset hc'), fun hc' => ha.draining (hsub.subset hc'),
      fun hc' => ?_⟩
    rcases List.mem_append.mp hc' with hc' | hc'
    · exact ⟨hoff (ha.reply hc').disk, rfl, (ha.reply hc').noMount⟩
    · obtain ⟨rfl, rfl⟩ := Prod.mk.inj (List.mem_singleton.mp hc')
      exact ⟨show umount d.disk 0 = false from if_pos rfl, rfl, ha.draining hmem⟩

theorem Dpu.Flight.step (h : d.Flight) (hs : d.step act = some d') : d.Keeps d' := by
  cases act with
  | loseRequest k =>
    simp only [Dpu.step, Option.ite_none_right_eq_some, Option.some.injEq] at hs
    obtain ⟨-, rfl⟩ := hs
    exact h.drop (List.eraseIdx_sublist ..) (List.Sublist.refl _)
  | loseReply k =>
    simp only [Dpu.step, Option.ite_none_right_eq_some, Option.some.injEq] at hs
    obtain ⟨-, rfl⟩ := hs
    exact h.drop (List.Sublist.refl _) (List.eraseIdx_sublist ..)
  | serve k rc =>
    simp only [Dpu.step] at hs
    split at hs
    case h_2 => cases hs
    case h_1 c r hk =>
      cases hs
      cases r with
      | mount => exact h.serve_mount hk rc
      | umount => exact h.serve_umount hk rc
  | opened k ok =>
    simp only [Dpu.step] at hs
    split at hs
    case h_2 => cases hs
    case h_1 c rc hk =>
      cases hs
      exact h.opened hk ok
  | drained k rc =>
    simp only [Dpu.step] at hs
    split at hs
    case h_2 => cases hs
    case h_1 c hk =>
      cases hs
      exact h.drained hk rc
  | _ => cases hs

/-- A thread that knows something still knows it after a step beyond the host. -/
theorem Knows.keeps {disk mounted : Bool} {pc : Pc} (hd : d.Keeps d') (h : Knows disk mounted d pc) :
    Knows disk mounted d' pc := by
  cases pc with
  | hostUmount => exact hd.released h
  | clearFlag => exact ⟨h.1, hd.released h.2⟩
  | call r =>
    cases r with
    | mount => exact ⟨h.1, h.2.1, hd.released h.2.2⟩
    | umount => trivial
  | sending r c =>
    cases r with
    | mount => trivial
    | umount => exact hd.answers c h
  | waiting r c =>
    cases r with
    | mount => trivial
    | umount => exact hd.answers c h
  | hostMount => exact hd.released h
  | setFlag => exact hd.released h
  | idle => trivial
  | enter r => trivial
  | check r => trivial
  | leave => trivial

theorem Inv.beyond (h : Inv s) (hs : (s.dpu.step act).map (fun d => { s with dpu := d }) = some s') : Inv s' := by
  obtain ⟨d, hd, rfl⟩ := Option.map_eq_some_iff.mp hs
  have hk := h.flight.step hd
  exact ⟨h.locked, fun j hj => (h.knows j hj).keeps hk, fun ht => hk.released (h.disk ht),
    fun ht => hk.released (h.flag ht), hk.flight⟩

/-! ### The calls -/

theorem Inv.check (h : Inv s) (hs : step s (.check i) = some s') : Inv s' := by
  simp only [step] at hs
  split at hs
  case h_1 hpc =>
    cases hs
    refine h.proceed (hpc ▸ trivial) rfl rfl ?_ h.disk h.flag h.flight
    by_cases hm : s.mounted = true
    · rw [if_pos hm]
      exact h.flag hm
    · rw [if_neg hm]
      trivial
  case h_2 hpc =>
    cases hs
    refine h.proceed (hpc ▸ trivial) rfl rfl ?_ h.disk h.flag h.flight
    by_cases hm : s.mounted = true
    · rw [if_pos hm]
      trivial
    · rw [if_neg hm]
      trivial
  case h_3 => cases hs

theorem Inv.hostUmount {rc : ℤ} (h : Inv s) (hs : step s (.hostUmount i rc) = some s') : Inv s' := by
  simp only [step, Option.ite_none_right_eq_some, Option.some.injEq] at hs
  obtain ⟨hpc, rfl⟩ := hs
  have hr : s.dpu.Released := h.known hpc trivial
  refine h.proceed (hpc ▸ trivial) rfl rfl ?_ (fun _ => hr) h.flag h.flight
  by_cases h0 : rc = 0
  · rw [if_pos h0]
    exact ⟨if_pos h0, hr⟩
  · rw [if_neg h0]
    trivial

theorem Inv.clearFlag (h : Inv s) (hs : step s (.clearFlag i) = some s') : Inv s' := by
  simp only [step, Option.ite_none_right_eq_some, Option.some.injEq] at hs
  obtain ⟨hpc, rfl⟩ := hs
  obtain ⟨hd, hr⟩ : s.disk = false ∧ s.dpu.Released := h.known hpc trivial
  exact h.proceed (hpc ▸ trivial) rfl rfl ⟨hd, rfl, hr⟩ h.disk (fun _ => hr) h.flight

/-- A request that is posted when the DPU does not have the disk. -/
theorem Dpu.Flight.post (h : d.Flight) {r : Rpc} (hr : r = .mount → d.Released) : (d.post r).Flight where
  mount c hc := by
    rcases List.mem_append.mp hc with hc | hc
    · exact h.mount c hc
    · obtain ⟨-, rfl⟩ := Prod.mk.inj (List.mem_singleton.mp hc)
      exact ⟨(hr rfl).disk, (hr rfl).flag⟩
  one := by
    show ((d.requests ++ [(d.calls, r)]).map Prod.snd).count .mount ≤ 1
    rw [List.map_append, List.count_append]
    cases r with
    | umount => exact h.one
    | mount =>
      have hno : (d.requests.map Prod.snd).count .mount = 0 := by
        refine List.count_eq_zero.mpr fun hm => ?_
        obtain ⟨⟨c, r⟩, hc, rfl⟩ := List.mem_map.mp hm
        exact (hr rfl).noMount c hc
      rw [hno]
      exact le_refl 1
  requests c r' hc := by
    show c < d.calls + 1
    rcases List.mem_append.mp hc with hc | hc
    · exact Nat.lt_succ_of_lt (h.requests c r' hc)
    · obtain ⟨rfl, -⟩ := Prod.mk.inj (List.mem_singleton.mp hc)
      exact Nat.lt_succ_self _
  handlers c hd hc := Nat.lt_succ_of_lt (h.handlers c hd hc)
  replies c rc hc := Nat.lt_succ_of_lt (h.replies c rc hc)

/-- Nothing is known of a call that was just posted. -/
theorem Dpu.Flight.answers_post (h : d.Flight) : (d.post .umount).Answers d.calls where
  request hc := by
    rcases List.mem_append.mp hc with hc | hc
    · exact absurd (h.requests _ _ hc) (lt_irrefl _)
    · obtain ⟨-, hr⟩ := Prod.mk.inj (List.mem_singleton.mp hc)
      cases hr
  handler rc hc := absurd (h.handlers _ _ hc) (lt_irrefl _)
  draining hc := absurd (h.handlers _ _ hc) (lt_irrefl _)
  reply hc := absurd (h.replies _ _ hc) (lt_irrefl _)

/-- A request to unmount does not concern a disk that is released. -/
theorem Dpu.Released.post (h : d.Released) : (d.post .umount).Released where
  disk := h.disk
  flag := h.flag
  noMount c hc := by
    rcases List.mem_append.mp hc with hc | hc
    · exact h.noMount c hc
    · obtain ⟨-, hr⟩ := Prod.mk.inj (List.mem_singleton.mp hc)
      cases hr

theorem Inv.post (h : Inv s) (hs : step s (.post i) = some s') : Inv s' := by
  simp only [step] at hs
  split at hs
  case h_2 => cases hs
  case h_1 r hpc =>
    cases hs
    have hi : (s.pc i).inside := hpc ▸ trivial
    cases r with
    | mount =>
      obtain ⟨hd, hm, hr⟩ : s.disk = false ∧ s.mounted = false ∧ s.dpu.Released := h.known hpc trivial
      refine h.proceed hi rfl rfl trivial (fun ht => ?_) (fun ht => ?_) (h.flight.post fun _ => hr)
      · exact absurd (hd.symm.trans ht) Bool.false_ne_true
      · exact absurd (hm.symm.trans ht) Bool.false_ne_true
    | umount =>
      exact h.proceed hi rfl rfl h.flight.answers_post (fun ht => (h.disk ht).post) (fun ht => (h.flag ht).post)
        (h.flight.post fun hr => nomatch hr)

theorem Inv.sent {nSend : ℤ} (h : Inv s) (hs : step s (.sent i nSend) = some s') : Inv s' := by
  simp only [step] at hs
  split at hs
  case h_2 => cases hs
  case h_1 r c hpc =>
    cases hs
    have hk := h.known hpc trivial
    refine h.proceed (hpc ▸ trivial) rfl rfl ?_ h.disk h.flag h.flight
    by_cases hn : nSend ≤ 0
    · rw [if_pos hn]
      trivial
    · rw [if_neg hn]
      cases r with
      | mount => trivial
      | umount => exact hk

theorem Inv.answered (h : Inv s) (hs : step s (.answered i k) = some s') : Inv s' := by
  simp only [step] at hs
  split at hs
  case h_2 => cases hs
  case h_1 r c c' rc hpc hk =>
    simp only [Option.ite_none_right_eq_some, Option.some.injEq] at hs
    obtain ⟨rfl, rfl⟩ := hs
    have hdrop := h.flight.drop (List.Sublist.refl _) (List.eraseIdx_sublist s.dpu.replies k)
    refine h.proceed (hpc ▸ trivial) rfl rfl ?_ (fun ht => hdrop.released (h.disk ht))
      (fun ht => hdrop.released (h.flag ht)) hdrop.flight
    by_cases hr : r = .umount ∧ rc = 0
    · rw [if_pos hr]
      obtain ⟨rfl, rfl⟩ := hr
      have ha : s.dpu.Answers c' := h.known hpc trivial
      exact hdrop.released (ha.reply (List.mem_of_getElem? hk))
    · rw [if_neg hr]
      trivial

theorem Inv.hostMount {rc : ℤ} (h : Inv s) (hs : step s (.hostMount i rc) = some s') : Inv s' := by
  simp only [step, Option.ite_none_right_eq_some, Option.some.injEq] at hs
  obtain ⟨hpc, rfl⟩ := hs
  have hr : s.dpu.Released := h.known hpc trivial
  refine h.proceed (hpc ▸ trivial) rfl rfl ?_ (fun _ => hr) h.flag h.flight
  by_cases h0 : rc = 0
  · rw [if_pos h0]
    exact hr
  · rw [if_neg h0]
    trivial

theorem Inv.setFlag (h : Inv s) (hs : step s (.setFlag i) = some s') : Inv s' := by
  simp only [step, Option.ite_none_right_eq_some, Option.some.injEq] at hs
  obtain ⟨hpc, rfl⟩ := hs
  have hr : s.dpu.Released := h.known hpc trivial
  exact h.proceed (hpc ▸ trivial) rfl rfl trivial h.disk (fun _ => hr) h.flight

/-- Every step keeps it. -/
theorem Inv.step (h : Inv s) (hs : step s act = some s') : Inv s' := by
  cases act with
  | enter i r => exact h.enter hs
  | lock i => exact h.lock hs
  | check i => exact h.check hs
  | hostUmount i rc => exact h.hostUmount hs
  | clearFlag i => exact h.clearFlag hs
  | post i => exact h.post hs
  | sent i nSend => exact h.sent hs
  | answered i k => exact h.answered hs
  | hostMount i rc => exact h.hostMount hs
  | setFlag i => exact h.setFlag hs
  | unlock i => exact h.unlock hs
  | loseRequest k => exact h.beyond hs
  | loseReply k => exact h.beyond hs
  | serve k rc => exact h.beyond hs
  | opened k ok => exact h.beyond hs
  | drained k rc => exact h.beyond hs

/-- **The disk is never mounted on both sides.** Whatever the threads call, whatever the commands return and wherever a
request, a reply or a handler is lost, no reachable state has the disk mounted on the host and on the DPU. -/
theorem never_on_both (acts : List Act) (s : St) (hr : run step init acts = some s) :
    ¬ (s.disk = true ∧ s.dpu.disk = true) := by
  rintro ⟨hd, hdpu⟩
  have hinv : Inv s := inv_of_run (fun _ _ _ h hs => h.step hs) inv_init hr
  have hoff := (hinv.disk hd).disk
  rw [hdpu] at hoff
  cases hoff

/-- The disk goes to the DPU and comes back, and a second thread takes it there again while the first `umount` on the host
fails. -/
def thereAndBack : List Act :=
  [.enter 0 .mount, .lock 0, .check 0, .hostUmount 0 32, .unlock 0, .enter 1 .mount, .lock 1, .check 1, .hostUmount 1 0,
    .clearFlag 1, .post 1, .serve 0 0, .sent 1 16, .opened 0 true, .answered 1 0, .unlock 1, .enter 0 .umount, .lock 0,
    .check 0, .post 0, .sent 0 16, .serve 0 0, .drained 0 0, .answered 0 0, .hostMount 0 0]

theorem never_on_both_thereAndBack :
    ((run step init (thereAndBack.take 12)).map fun s => (s.disk, s.dpu.disk)) = some (false, true) ∧
      ∃ s, run step init thereAndBack = some s ∧ (s.disk, s.dpu.disk) = (true, false) ∧
        ¬ (s.disk = true ∧ s.dpu.disk = true) := by
  have hrun : ((run step init thereAndBack).map fun s => (s.disk, s.dpu.disk)) = some (true, false) := by decide
  obtain ⟨s, hs, hdisks⟩ := Option.map_eq_some_iff.mp hrun
  exact ⟨by decide, s, hs, hdisks, never_on_both thereAndBack s hs⟩

end DShuffle.Spill.Mount
