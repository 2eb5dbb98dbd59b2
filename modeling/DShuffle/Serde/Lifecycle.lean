import Mathlib.Data.List.Count
import Mathlib.Data.List.Pairwise
import DShuffle.Base.Transition

/-!
# The life of a native context

A `Serde` has a handle: the address of a native `Context`. `create` makes the context and puts it into the set `g_ctx`;
`close` takes the handle out of the set, if it is there, and deletes what the handle points to. A `SerdeOutputStream`
and a `SerdeInputStream` each have a `Serde` of their own.

## The model

* A process has any number of streams. A run is a list of calls on them, in any order.
* What the underlying streams do is part of a call: `os.flush()` and `is.close()` return or throw, and `readObject`
  gets a record to hand to `Deserialize` or throws before.
* A context is never forgotten: its handle is the number of its creation, and the log has what happened to it.

## What is proved

* `touches_of_run` — what happens to the context of a stream is what the calls on the stream do to it.
* `lifecycle_iff` — the context of a stream is deleted at most once and not used after that exactly if no call that
  reaches it follows one that deletes it.
* `not_safe_flush` — `writeObject` after `flush` uses a deleted context, and the next `flush` deletes it again.

## Honest scope

A second deletion does what it does to a context that is deleted already. That its address may meanwhile be that of
another context is not modelled.
-/

namespace DShuffle.Serde.Lifecycle

open Base

/-! ### The native side -/

/-- What happens to a context. -/
inductive Event where
  /-- `new Context`. -/
  | create (ctx : ℕ)
  /-- `serialize` or `deserialize` on it. -/
  | use (ctx : ℕ)
  /-- `delete ctx`. -/
  | delete (ctx : ℕ)
  deriving DecidableEq

/-- The native part of `Serde`. -/
structure Native where
  /-- `g_r` is set. -/
  initialized : Bool
  /-- How many contexts were created. -/
  nCtx : ℕ
  /-- `g_ctx`. -/
  gCtx : List ℕ
  /-- What happened to the contexts. -/
  log : List Event

namespace Native

/-- `Java_pdsl_dpx_Serde_create`. -/
def create (n : Native) : ℕ × Native :=
  if n.initialized = false then (0, n)
  else
    let ctx := n.nCtx + 1
    (ctx, { n with nCtx := ctx, gCtx := ctx :: n.gCtx, log := n.log ++ [.create ctx] })

/-- `Java_pdsl_dpx_Serde_Serialize` and `Java_pdsl_dpx_Serde_Deserialize`: the handle is taken for a context. -/
def use (n : Native) (handle : ℕ) : Native := { n with log := n.log ++ [.use handle] }

/-- `Java_pdsl_dpx_Serde_close`. -/
def close (n : Native) (handle : ℕ) : Native :=
  if handle ≠ 0 then { n with gCtx := n.gCtx.erase handle, log := n.log ++ [.delete handle] } else n

end Native

/-! ### The streams -/

/-- A stream, with the handle of its `Serde`. -/
inductive Stream where
  /-- A `SerdeOutputStream`. -/
  | output (sd : ℕ)
  /-- A `SerdeInputStream`. -/
  | input (sd : ℕ)
  deriving DecidableEq

/-- The handle. -/
def Stream.sd : Stream → ℕ
  | output sd => sd
  | input sd => sd

/-- A call. -/
inductive Call where
  /-- `new SerdeOutputStream`. -/
  | newOutput
  /-- `new SerdeInputStream`. -/
  | newInput
  /-- `writeObject` on the `i`-th stream. -/
  | writeObject (i : ℕ)
  /-- `flush`; `os.flush()` returns or throws. -/
  | flush (i : ℕ) (returns : Bool)
  /-- `SerdeOutputStream.close`. -/
  | closeOutput (i : ℕ)
  /-- `readObject`; it gets a record or throws. -/
  | readObject (i : ℕ) (gotRecord : Bool)
  /-- `SerdeInputStream.close`; `is.close()` returns or throws. -/
  | closeInput (i : ℕ) (returns : Bool)
  deriving DecidableEq

/-- A process. -/
structure Process where
  /-- The native side. -/
  native : Native
  /-- The streams that were made. -/
  streams : List Stream

/-- A stream on a new `Serde`, whose constructor throws if there is no context. -/
def newStream (s : Process) (make : ℕ → Stream) : Process :=
  let (handle, native) := s.native.create
  if handle = 0 then { s with native := native } else ⟨native, s.streams ++ [make handle]⟩

/-- The handle of the `i`-th stream, if it is an output stream. -/
def outputSd (s : Process) (i : ℕ) : Option ℕ :=
  match s.streams[i]? with
  | some (.output sd) => some sd
  | _ => none

/-- The handle of the `i`-th stream, if it is an input stream. -/
def inputSd (s : Process) (i : ℕ) : Option ℕ :=
  match s.streams[i]? with
  | some (.input sd) => some sd
  | _ => none

/-- One call. -/
def step (s : Process) : Call → Option Process
  | .newOutput => some (newStream s .output)
  | .newInput => some (newStream s .input)
  | .writeObject i => do
    let sd ← outputSd s i
    return { s with native := s.native.use sd }
  | .flush i returns => do
    let sd ← outputSd s i
    return if returns then { s with native := s.native.close sd } else s
  | .closeOutput i => do
    let _ ← outputSd s i
    return s
  | .readObject i gotRecord => do
    let sd ← inputSd s i
    return if gotRecord then { s with native := s.native.use sd } else s
  | .closeInput i returns => do
    let sd ← inputSd s i
    return if returns then { s with native := s.native.close sd } else s

/-- After `Serde.Initialize`. -/
def init : Process := ⟨⟨true, 0, [], []⟩, []⟩

/-! ### What touches a context -/

/-- The context is deleted at most once, and never used after its deletion. -/
def Safe (log : List Event) (ctx : ℕ) : Prop :=
  log.count (.delete ctx) ≤ 1 ∧ log.Pairwise fun a b => a = .delete ctx → b ≠ .use ctx

/-- What a call or an event does to a context. -/
inductive Touch where
  /-- It uses it. -/
  | use
  /-- It deletes it. -/
  | delete
  deriving DecidableEq

/-- What an event does to the context. -/
def Event.touch (ctx : ℕ) : Event → Option Touch
  | .create _ => none
  | .use c => if c = ctx then some .use else none
  | .delete c => if c = ctx then some .delete else none

/-- What a call does to the context of the `i`-th stream. -/
def Call.touch (i : ℕ) : Call → Option Touch
  | .newOutput | .newInput | .closeOutput _ => none
  | .writeObject j => if j = i then some .use else none
  | .flush j returns => if j = i ∧ returns = true then some .delete else none
  | .readObject j gotRecord => if j = i ∧ gotRecord = true then some .use else none
  | .closeInput j returns => if j = i ∧ returns = true then some .delete else none

/-- No call on the `i`-th stream that reaches the context follows one that deletes it: no `writeObject` and no `flush`
a `flush` whose `os.flush()` returned, no `readObject` with a record and no `close` a `close` whose `is.close()`
returned. -/
def Proper (i : ℕ) (calls : List Call) : Prop :=
  calls.Pairwise fun a b => a.touch i = some .delete → b.touch i = none

/-! ### What a call can do -/

/-- The context an event is about. -/
def Event.ctx : Event → ℕ
  | .create c => c
  | .use c => c
  | .delete c => c

theorem Event.touch_of_ne {ctx : ℕ} {e : Event} (h : e.ctx ≠ ctx) : e.touch ctx = none := by
  cases e with
  | create c => rfl
  | use c => exact if_neg h
  | delete c => exact if_neg h

/-- In every state: `g_r` is set, each stream has a context of its own, and nothing happened to a context before it was
created. -/
structure Inv (s : Process) : Prop where
  initialized : s.native.initialized = true
  /-- A handle is that of a context that was created. -/
  created : ∀ st ∈ s.streams, 0 < st.sd ∧ st.sd ≤ s.native.nCtx
  /-- No two streams share a context. -/
  distinct : (s.streams.map Stream.sd).Nodup
  logged : ∀ e ∈ s.native.log, e.ctx ≤ s.native.nCtx

theorem outputSd_some {s : Process} {i sd : ℕ} (h : outputSd s i = some sd) :
    ∃ st, s.streams[i]? = some st ∧ st.sd = sd := by
  unfold outputSd at h
  split at h
  · rename_i sd' hst
    cases h
    exact ⟨_, hst, rfl⟩
  · cases h

theorem inputSd_some {s : Process} {i sd : ℕ} (h : inputSd s i = some sd) :
    ∃ st, s.streams[i]? = some st ∧ st.sd = sd := by
  unfold inputSd at h
  split at h
  · rename_i sd' hst
    cases h
    exact ⟨_, hst, rfl⟩
  · cases h

/-- What a call does: it makes a stream on a new context, leaves all as it is, or uses or deletes the context of a
stream. -/
inductive Effect (s : Process) (c : Call) (s' : Process) : Prop where
  /-- A constructor. -/
  | made (st : Stream) (hsd : st.sd = s.native.nCtx + 1) (hinit : s'.native.initialized = true)
      (hctx : s'.native.nCtx = s.native.nCtx + 1) (hlog : s'.native.log = s.native.log ++ [.create (s.native.nCtx + 1)])
      (hstreams : s'.streams = s.streams ++ [st]) (htouch : ∀ i, c.touch i = none)
  /-- A call that does not reach the context. -/
  | skipped (hs : s' = s) (htouch : ∀ i, c.touch i = none)
  /-- `Serialize` or `Deserialize`. -/
  | used (j : ℕ) (st : Stream) (hst : s.streams[j]? = some st) (hs : s' = { s with native := s.native.use st.sd })
      (htouch : ∀ i, c.touch i = if j = i then some .use else none)
  /-- `Serde.close`. -/
  | deleted (j : ℕ) (st : Stream) (hst : s.streams[j]? = some st) (hs : s' = { s with native := s.native.close st.sd })
      (htouch : ∀ i, c.touch i = if j = i then some .delete else none)

theorem effect_newStream {s : Process} {c : Call} {make : ℕ → Stream} (hi : s.native.initialized = true)
    (hsd : ∀ n, (make n).sd = n) (htouch : ∀ i, c.touch i = none) : Effect s c (newStream s make) := by
  have hnew : newStream s make = ⟨⟨true, s.native.nCtx + 1, (s.native.nCtx + 1) :: s.native.gCtx,
      s.native.log ++ [.create (s.native.nCtx + 1)]⟩, s.streams ++ [make (s.native.nCtx + 1)]⟩ := by
    simp [newStream, Native.create, hi]
  rw [hnew]
  exact .made (make (s.native.nCtx + 1)) (hsd _) rfl rfl rfl rfl htouch

theorem effect_of_step {s s' : Process} {c : Call} (hi : s.native.initialized = true) (h : step s c = some s') :
    Effect s c s' := by
  cases c with
  | newOutput =>
    cases h
    exact effect_newStream hi (fun _ => rfl) fun _ => rfl
  | newInput =>
    cases h
    exact effect_newStream hi (fun _ => rfl) fun _ => rfl
  | writeObject j =>
    obtain ⟨sd, hsd, h⟩ := Option.bind_eq_some_iff.mp h
    obtain ⟨st, hst, rfl⟩ := outputSd_some hsd
    cases h
    exact .used j st hst rfl fun _ => rfl
  | flush j returns =>
    obtain ⟨sd, hsd, h⟩ := Option.bind_eq_some_iff.mp h
    obtain ⟨st, hst, rfl⟩ := outputSd_some hsd
    cases h
    cases returns with
    | false => exact .skipped rfl fun i => by simp [Call.touch]
    | true => exact .deleted j st hst rfl fun i => by simp [Call.touch]
  | closeOutput j =>
    obtain ⟨sd, -, h⟩ := Option.bind_eq_some_iff.mp h
    cases h
    exact .skipped rfl fun _ => rfl
  | readObject j gotRecord =>
    obtain ⟨sd, hsd, h⟩ := Option.bind_eq_some_iff.mp h
    obtain ⟨st, hst, rfl⟩ := inputSd_some hsd
    cases h
    cases gotRecord with
    | false => exact .skipped rfl fun i => by simp [Call.touch]
    | true => exact .used j st hst rfl fun i => by simp [Call.touch]
  | closeInput j returns =>
    obtain ⟨sd, hsd, h⟩ := Option.bind_eq_some_iff.mp h
    obtain ⟨st, hst, rfl⟩ := inputSd_some hsd
    cases h
    cases returns with
    | false => exact .skipped rfl fun i => by simp [Call.touch]
    | true => exact .deleted j st hst rfl fun i => by simp [Call.touch]

theorem Native.close_of_pos {n : Native} {handle : ℕ} (h : 0 < handle) :
    n.close handle = { n with gCtx := n.gCtx.erase handle, log := n.log ++ [.delete handle] } :=
  if_pos (Nat.pos_iff_ne_zero.mp h)

theorem Inv.sd_ne {s : Process} (hi : Inv s) {i j : ℕ} {st st' : Stream} (hst : s.streams[i]? = some st)
    (hst' : s.streams[j]? = some st') (hij : i ≠ j) : st.sd ≠ st'.sd := by
  intro h
  have hmap : (s.streams.map Stream.sd)[i]? = (s.streams.map Stream.sd)[j]? := by simp [hst, hst', h]
  obtain ⟨hlt, -⟩ := List.getElem?_eq_some_iff.mp hst
  exact hij ((List.getElem?_inj (by simpa using hlt) hi.distinct).mp hmap)

theorem Inv.of_logged {s : Process} (hi : Inv s) {g : List ℕ} {e : Event} (he : e.ctx ≤ s.native.nCtx) :
    Inv { s with native := { s.native with gCtx := g, log := s.native.log ++ [e] } } :=
  ⟨hi.initialized, hi.created, hi.distinct, fun e' he' =>
    (List.mem_append.mp he').elim (hi.logged e') fun h => List.mem_singleton.mp h ▸ he⟩

/-- **Every call keeps the invariant.** -/
theorem Inv.step {s s' : Process} {c : Call} (hi : Inv s) (h : Lifecycle.step s c = some s') : Inv s' := by
  cases effect_of_step hi.initialized h with
  | made st hsd hinit hctx hlog hstreams _ =>
    refine ⟨hinit, ?_, ?_, ?_⟩
    · intro st' hst'
      rw [hstreams, List.mem_append, List.mem_singleton] at hst'
      rcases hst' with hold | rfl
      · have := hi.created st' hold
        omega
      · omega
    · rw [hstreams, List.map_append, List.nodup_append]
      refine ⟨hi.distinct, by simp, ?_⟩
      intro a ha b hb
      obtain ⟨st', hst', rfl⟩ := List.mem_map.mp ha
      have hle := (hi.created st' hst').2
      have hb : b = st.sd := List.mem_singleton.mp hb
      omega
    · intro e he
      rw [hlog, List.mem_append, List.mem_singleton] at he
      rcases he with hold | rfl
      · have := hi.logged e hold
        omega
      · exact Nat.le_of_eq hctx.symm
  | skipped hs _ => exact hs ▸ hi
  | used j st hst hs _ =>
    subst hs
    exact hi.of_logged (hi.created st (List.mem_of_getElem? hst)).2
  | deleted j st hst hs _ =>
    have hsd := hi.created st (List.mem_of_getElem? hst)
    rw [hs, Native.close_of_pos hsd.1]
    exact hi.of_logged hsd.2

/-! ### What a run does to the context of a stream -/

/-- What happened to the contexts is what the calls did: to that of each stream what the calls on it do, and no call was
on a stream that is not there. -/
structure Ledger (calls : List Call) (s : Process) : Prop where
  inv : Inv s
  touches : ∀ i st, s.streams[i]? = some st →
    s.native.log.filterMap (Event.touch st.sd) = calls.filterMap (Call.touch i)
  untouched : ∀ i, s.streams[i]? = none → calls.filterMap (Call.touch i) = []

theorem filterMap_concat {α β : Type} (f : α → Option β) (l : List α) (a : α) :
    (l ++ [a]).filterMap f = l.filterMap f ++ (f a).toList := by
  rw [List.filterMap_append]
  cases h : f a <;> simp [h]

theorem filterMap_concat_none {α β : Type} {f : α → Option β} (l : List α) {a : α} (h : f a = none) :
    (l ++ [a]).filterMap f = l.filterMap f := by
  rw [filterMap_concat, h]
  exact List.append_nil _

/-- A call that adds one event to the context of a stream. -/
theorem Ledger.touch {calls : List Call} {s : Process} {c : Call} {j : ℕ} {st : Stream} {t : Touch} {e : Event}
    {n : Native} (hl : Ledger calls s) (hst : s.streams[j]? = some st) (hctx : e.ctx = st.sd)
    (he : e.touch st.sd = some t) (hlog : n.log = s.native.log ++ [e])
    (htouch : ∀ i, c.touch i = if j = i then some t else none) (hi : Inv ⟨n, s.streams⟩) :
    Ledger (calls ++ [c]) ⟨n, s.streams⟩ := by
  refine ⟨hi, ?_, ?_⟩
  · intro i st' hst'
    show n.log.filterMap _ = _
    rw [hlog, filterMap_concat, filterMap_concat, hl.touches i st' hst', htouch i]
    by_cases hji : j = i
    · subst hji
      rw [Option.some.inj (hst'.symm.trans hst), he, if_pos rfl]
    · rw [if_neg hji, Event.touch_of_ne (hctx ▸ hl.inv.sd_ne hst hst' hji)]
  · intro i hnone
    have hji : j ≠ i := by
      intro hji
      rw [hji] at hst
      exact Option.some_ne_none _ (hst.symm.trans hnone)
    rw [filterMap_concat, hl.untouched i hnone, htouch i, if_neg hji]
    rfl

theorem Ledger.step {calls : List Call} {s s' : Process} {c : Call} (hl : Ledger calls s)
    (h : Lifecycle.step s c = some s') : Ledger (calls ++ [c]) s' := by
  have hi' := hl.inv.step h
  cases effect_of_step hl.inv.initialized h with
  | made st hsd hinit hctx hlog hstreams htouch =>
    have hcalls : ∀ i, (calls ++ [c]).filterMap (Call.touch i) = calls.filterMap (Call.touch i) :=
      fun i => filterMap_concat_none calls (htouch i)
    have hevents : ∀ ctx, s'.native.log.filterMap (Event.touch ctx) = s.native.log.filterMap (Event.touch ctx) := by
      intro ctx
      rw [hlog]
      exact filterMap_concat_none _ rfl
    refine ⟨hi', ?_, ?_⟩
    · intro i st' hst'
      rw [hcalls, hevents]
      rw [hstreams] at hst'
      rcases Nat.lt_or_ge i s.streams.length with hlt | hge
      · rw [List.getElem?_append_left hlt] at hst'
        exact hl.touches i st' hst'
      · -- the new stream: nothing could happen to its context yet
        rw [hl.untouched i (List.getElem?_eq_none hge), List.filterMap_eq_nil_iff]
        have hst' : st' = st := by
          rw [List.getElem?_append_right hge] at hst'
          exact List.mem_singleton.mp (List.mem_of_getElem? hst')
        intro e he
        have hle := hl.inv.logged e he
        exact Event.touch_of_ne (by rw [hst', hsd]; omega)
    · intro i hnone
      rw [hcalls]
      apply hl.untouched
      rw [hstreams, List.getElem?_eq_none_iff, List.length_append] at hnone
      exact List.getElem?_eq_none (by omega)
  | skipped hs htouch =>
    subst hs
    have hcalls : ∀ i, (calls ++ [c]).filterMap (Call.touch i) = calls.filterMap (Call.touch i) :=
      fun i => filterMap_concat_none calls (htouch i)
    exact ⟨hi', fun i st hst => (hl.touches i st hst).trans (hcalls i).symm,
      fun i hnone => (hcalls i).trans (hl.untouched i hnone)⟩
  | used j st hst hs htouch =>
    subst hs
    exact hl.touch (e := .use st.sd) hst rfl (if_pos rfl) rfl htouch hi'
  | deleted j st hst hs htouch =>
    subst hs
    have hsd := (hl.inv.created st (List.mem_of_getElem? hst)).1
    exact hl.touch (e := .delete st.sd) hst rfl (if_pos rfl) (by rw [Native.close_of_pos hsd]) htouch hi'

theorem ledger_init : Ledger [] init :=
  ⟨⟨rfl, fun _ h => absurd h List.not_mem_nil, List.nodup_nil, fun _ h => absurd h List.not_mem_nil⟩,
    fun _ _ h => absurd h (by simp [init]), fun _ _ => rfl⟩

/-- **What happens to the context of a stream is what the calls on the stream do to it.** -/
theorem touches_of_run {calls : List Call} {s : Process} (hrun : run step init calls = some s) {i : ℕ} {st : Stream}
    (hst : s.streams[i]? = some st) :
    s.native.log.filterMap (Event.touch st.sd) = calls.filterMap (Call.touch i) :=
  (inv_of_history (fun _ _ _ _ hl h => Ledger.step hl h) ledger_init hrun).touches i st hst

/-! ### Which runs are safe -/

/-- Nothing touches the context after its deletion. -/
def Final (touches : List Touch) : Prop := touches.Pairwise fun t _ => t ≠ .delete

theorem count_le_one_iff {α : Type} [DecidableEq α] {a : α} {l : List α} :
    l.count a ≤ 1 ↔ l.Pairwise fun x y => x = a → y ≠ a := by
  induction l with
  | nil => simp
  | cons b l ih =>
    rw [List.pairwise_cons, ← ih]
    by_cases hb : b = a
    · subst hb
      have hmem : (∀ y ∈ l, b = b → y ≠ b) ↔ l.count b = 0 := by
        rw [List.count_eq_zero]
        exact ⟨fun h hb => h b hb rfl rfl, fun h y hy _ hyb => h (hyb ▸ hy)⟩
      rw [List.count_cons_self, hmem]
      omega
    · rw [List.count_cons_of_ne hb]
      exact ⟨fun h => ⟨fun _ _ hba => absurd hba hb, h⟩, fun h => h.2⟩

theorem Event.touch_eq_delete {ctx : ℕ} {e : Event} : e.touch ctx = some .delete ↔ e = .delete ctx := by
  cases e <;> simp [Event.touch]

theorem Event.touch_eq_none {ctx : ℕ} {e : Event} : e.touch ctx = none ↔ e ≠ .delete ctx ∧ e ≠ .use ctx := by
  cases e <;> simp [Event.touch]

theorem safe_iff_final {log : List Event} {ctx : ℕ} : Safe log ctx ↔ Final (log.filterMap (Event.touch ctx)) := by
  rw [Safe, count_le_one_iff, ← List.pairwise_and_iff, Final, List.pairwise_filterMap]
  apply List.Pairwise.iff
  intro a b
  constructor
  · rintro ⟨hdelete, huse⟩ t ht u hu rfl
    have ha := Event.touch_eq_delete.mp ht
    rw [Event.touch_eq_none.mpr ⟨hdelete ha, huse ha⟩] at hu
    cases hu
  · intro h
    have hnone : a = .delete ctx → b.touch ctx = none := by
      intro ha
      by_contra hb
      obtain ⟨u, hu⟩ := Option.ne_none_iff_exists'.mp hb
      exact h .delete (Event.touch_eq_delete.mpr ha) u hu rfl
    exact ⟨fun ha => (Event.touch_eq_none.mp (hnone ha)).1, fun ha => (Event.touch_eq_none.mp (hnone ha)).2⟩

theorem proper_iff_final {i : ℕ} {calls : List Call} : Proper i calls ↔ Final (calls.filterMap (Call.touch i)) := by
  rw [Proper, Final, List.pairwise_filterMap]
  apply List.Pairwise.iff
  intro a b
  constructor
  · rintro h t ht u hu rfl
    rw [h ht] at hu
    cases hu
  · intro h ha
    by_contra hb
    obtain ⟨u, hu⟩ := Option.ne_none_iff_exists'.mp hb
    exact h .delete ha u hu rfl

/-- **The life of a context.** In every run, the context of a stream is deleted at most once and never used after its
deletion exactly if no call on the stream that reaches the context follows one that deletes it. -/
theorem lifecycle_iff {calls : List Call} {s : Process} (hrun : run step init calls = some s) {i : ℕ} {st : Stream}
    (hst : s.streams[i]? = some st) : Safe s.native.log st.sd ↔ Proper i calls := by
  rw [safe_iff_final, touches_of_run hrun hst, proper_iff_final]

/-- Two streams, one of each kind. -/
def sampleCalls : List Call :=
  [.newOutput, .newInput, .writeObject 0, .flush 0 false, .writeObject 0, .readObject 1 true, .flush 0 true,
    .closeOutput 0, .closeInput 1 true, .readObject 1 false]

/-- After them. -/
def sampleEnd : Process :=
  ⟨⟨true, 2, [], [.create 1, .create 2, .use 1, .use 1, .use 2, .delete 1, .delete 2]⟩, [.output 1, .input 2]⟩

theorem lifecycle_sample : Safe sampleEnd.native.log 1 ∧ Safe sampleEnd.native.log 2 := by
  have hrun : run step init sampleCalls = some sampleEnd := by rfl
  have hout : sampleEnd.streams[0]? = some (.output 1) := rfl
  have hin : sampleEnd.streams[1]? = some (.input 2) := rfl
  refine ⟨(lifecycle_iff hrun hout).mpr ?_, (lifecycle_iff hrun hin).mpr ?_⟩
  · simp [Proper, sampleCalls, Call.touch]
  · simp [Proper, sampleCalls, Call.touch]

/-- **`writeObject` after `flush`.** The second record is written with a deleted context, and the second `flush` deletes
it again. -/
theorem not_safe_flush :
    ∃ s, run step init [.newOutput, .writeObject 0, .flush 0 true, .writeObject 0, .flush 0 true] = some s ∧
      s.streams[0]? = some (.output 1) ∧ s.native.log.count (.delete 1) = 2 ∧
      ¬ s.native.log.Pairwise (fun a b => a = .delete 1 → b ≠ .use 1) ∧ ¬ Safe s.native.log 1 := by
  refine ⟨_, rfl, rfl, rfl, ?_, ?_⟩
  · simp [newStream, init, Native.create, Native.close, Native.use]
  · rintro ⟨hcount, -⟩
    exact absurd hcount (by decide)

end DShuffle.Serde.Lifecycle
