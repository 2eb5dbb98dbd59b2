import DShuffle.Base.Transition
import DShuffle.Serde.RoundTrip

/-!
# The enum table over many revivals

`walk_enum_klass` takes a global reference to every constant of an enum and records it in the class info. `get_enum`
hands it out again, to every revival of every object, for as long as the process lives. `parse` returns it for an enum
record just as it returns a new local reference for an object or an array, and the loops over fields and elements call
`DeleteLocalRef` on what `parse` returned.

## The model

* A run is a list of calls of `revive`, each on a stream of its own; the global references are what they share.
* Every call has a valid stream: one of a tree over the registry (`Revival`).
* A call that fails ends the process, so every call of a run returned.

## What is proved

* `revive_globals` — a call clears the global references that the records below its root name, and no other.
* `globals_of_run` — so does a run, for all its calls.
* `enum_table_intact_iff` — after a run the enum table is as it was exactly if no stream has an enum record below its
  root.
* `not_intact_after_revive` — an object with an enum field: the first revival clears the reference to the constant, and
  the second stores the sentinel in the field.
-/

namespace DShuffle.Serde.EnumTable

open Base

/-! ### The calls -/

/-- `revive`: the root of its own reviver, and the JVM's state. -/
def revive (v : ObjectReviver) (fuel klass : ℕ) (input : Mem) (e : JEnv) : Except Fault (Option ℕ × JEnv) :=
  match v.r.getByKlass klass with
  -- the dummy is a null pointer
  | none => .error .badAccess
  | some info => do
    let (_, s) ← v.parse fuel info.id ⟨RWBuffer.skip ⟨input, 0⟩ objectDataOffset, { e with root := none }⟩
    return (s.env.root, s.env)

/-- A call of `revive` on a valid stream. -/
structure Revival (v : ObjectReviver) where
  /-- The klass that is expected. -/
  klass : ℕ
  /-- The stream. -/
  input : Mem
  /-- What the stream is one of. -/
  tree : Tree
  /-- The tree is one over the registry. -/
  isOver : tree.Over v.r
  /-- Behind its header, the stream is one of the tree. -/
  stream : Stream v.o v.simdutf input objectDataOffset tree

/-- One call. -/
def step (v : ObjectReviver) (fuel : ℕ) (e : JEnv) (c : Revival v) : Option JEnv :=
  match revive v fuel c.klass c.input e with
  | .ok (_, e') => some e'
  | .error _ => none

/-! ### The table -/

/-- The enum table is as it was in the state `e`: the global reference of every constant still refers to the constant,
so that `get_enum` gives it, and no global reference was passed to `DeleteLocalRef`, which would have cleared it. -/
structure Intact (r : ClassResolver) (e e' : JEnv) : Prop where
  /-- Every recorded reference is valid, and refers to its constant. -/
  valid : ∀ i ordinal c, r.Has i → i.getEnum ordinal = .ok c →
    e'.resolve (.glob c.handle) = .enumConst i.klass ordinal
  /-- No global reference was cleared. -/
  kept : ∀ g, e.globals g ≠ .deleted → e'.globals g ≠ .deleted

/-- The fields of an object, or the elements of an array. -/
def members : Tree → List Tree
  | .object _ _ ms => ms
  | .refArray _ es => es
  | .null | .enumConst .. | .primArray .. => []

/-- The enum records below the root of the tree. -/
def memberConsts (t : Tree) : List (ClassInfo × ℕ) := enumConstsAll (members t)

/-! ### What a call does to the global references -/

variable {v : ObjectReviver} {fuel : ℕ}

/-- What a tree is rebuilt to, before the reference to it is deleted. -/
theorem rebuild_root_globals (t : Tree) {e e' : JEnv} {h : Handle} (hr : v.rebuild t e = .ok (h, e')) (g : ℕ) :
    e'.globals g = if g ∈ handlesAll (members t) then .deleted else e.globals g := by
  cases t with
  | null =>
    rw [ObjectReviver.rebuild] at hr
    cases hr
    rfl
  | enumConst i ordinal =>
    obtain ⟨rfl, -⟩ := ObjectReviver.rebuild_enumConst_ok hr
    rfl
  | object i body ms =>
    obtain ⟨vs, hall, -, -⟩ := ObjectReviver.rebuild_object_ok hr
    exact ObjectReviver.rebuildAll_globals ms hall g
  | refArray i es =>
    obtain ⟨c, vs, -, hall, -, -⟩ := ObjectReviver.rebuild_refArray_ok hr
    exact ObjectReviver.rebuildAll_globals es hall g
  | primArray i n contents =>
    obtain ⟨rfl, -⟩ := ObjectReviver.rebuild_primArray_ok hr
    rfl

theorem handlesAll_members_reread {o : Options} {u : Simdutf} {m : Mem} (off : ℕ) (t : Tree) :
    handlesAll (members (reread o u m off t)) = handlesAll (members t) := by
  cases t with
  | null => rfl
  | enumConst i ordinal => rfl
  | object i body ms =>
    rw [reread, handlesAll, handlesAll]
    exact congrArg _ (enumConstsAll_reread ms _)
  | refArray i es =>
    rw [reread, handlesAll, handlesAll]
    exact congrArg _ (enumConstsAll_reread es _)
  | primArray i n contents => rfl

/-- **What a call does to the global references**: it clears those that the records below the root name, and no
other. -/
theorem revive_globals (hw : v.r.WellFormed) {e e' : JEnv} {c : Revival v} (hl : c.tree.Laid)
    (hf : c.tree.height < fuel) (hs : step v fuel e c = some e') (g : ℕ) :
    e'.globals g = if g ∈ handlesAll (members c.tree) then .deleted else e.globals g := by
  unfold step revive at hs
  cases hinfo : v.r.getByKlass c.klass with
  | none =>
    rw [hinfo] at hs
    cases hs
  | some info =>
    have hparse :=
      ObjectReviver.parse_eq_rebuild hw hl hf c.isOver c.input objectDataOffset info.id { e with root := none }
      c.stream
    have hstate : (⟨RWBuffer.skip ⟨c.input, 0⟩ objectDataOffset, { e with root := none }⟩ : ObjectReviver.State) =
        ObjectReviver.stateAt c.input objectDataOffset { e with root := none } := rfl
    simp only [hinfo, hstate, hparse] at hs
    cases hr : v.rebuild (reread v.o v.simdutf c.input objectDataOffset c.tree) { e with root := none } with
    | error err =>
      rw [hr] at hs
      cases hs
    | ok x =>
      rw [hr] at hs
      cases hs
      rw [← handlesAll_members_reread]
      exact rebuild_root_globals _ hr g

/-! ### Runs -/

/-- **What a run does to the global references**: it clears those that the records below the roots name, and no
other. -/
theorem globals_of_run (hw : v.r.WellFormed) {calls : List (Revival v)} {e e' : JEnv} (hl : ∀ c ∈ calls, c.tree.Laid)
    (hf : ∀ c ∈ calls, c.tree.height < fuel) (hrun : run (step v fuel) e calls = some e') (g : ℕ) :
    e'.globals g = if ∃ c ∈ calls, g ∈ handlesAll (members c.tree) then .deleted else e.globals g := by
  induction calls generalizing e with
  | nil =>
    cases hrun
    simp
  | cons c calls ih =>
    obtain ⟨e₁, hstep, hrest⟩ := run_cons hrun
    rw [ih (fun d hd => hl d (List.mem_cons_of_mem _ hd)) (fun d hd => hf d (List.mem_cons_of_mem _ hd)) hrest,
      revive_globals hw (hl c List.mem_cons_self) (hf c List.mem_cons_self) hstep]
    by_cases hlater : ∃ d ∈ calls, g ∈ handlesAll (members d.tree)
    · have hsome : ∃ d ∈ c :: calls, g ∈ handlesAll (members d.tree) :=
        hlater.imp fun d hd => ⟨List.mem_cons_of_mem _ hd.1, hd.2⟩
      rw [if_pos hlater, if_pos hsome]
    · rw [if_neg hlater]
      simp only [List.exists_mem_cons_iff, hlater, or_false]

theorem overAll_members {r : ClassResolver} {t : Tree} (h : t.Over r) : OverAll r (members t) := by
  cases t with
  | null => trivial
  | enumConst i ordinal => trivial
  | object i body ms => exact h.2.2.2.2.2.2
  | refArray i es => exact h.2.2.2.2.2
  | primArray i n contents => trivial

/-- **The enum table over many revivals.** After every run of calls of `revive` on valid streams, every recorded global
reference is valid, `get_enum` gives the constants it gave before, and no global reference was passed to
`DeleteLocalRef`, exactly if no stream of the run has an enum record as a field or an element. -/
theorem enum_table_intact_iff (hw : v.r.WellFormed) {e e' : JEnv} (he : e.Fresh v.r) {calls : List (Revival v)}
    (hl : ∀ c ∈ calls, c.tree.Laid) (hf : ∀ c ∈ calls, c.tree.height < fuel) (hrun : run (step v fuel) e calls = some e') :
    Intact v.r e e' ↔ ∀ c ∈ calls, memberConsts c.tree = [] := by
  have hglobals := globals_of_run hw hl hf hrun
  constructor
  · intro hi c hc
    rw [List.eq_nil_iff_forall_not_mem]
    intro p hp
    obtain ⟨hhas, ref, href⟩ := has_of_mem_enumConstsAll _ (overAll_members c.isOver) p hp
    have hhandle : ref.handle ∈ handlesAll (members c.tree) := List.mem_map.mpr ⟨p, hp, handleOf_eq href⟩
    have hdeleted := hglobals ref.handle
    rw [if_pos ⟨c, hc, hhandle⟩] at hdeleted
    have hvalid := hi.valid p.1 p.2 ref hhas href
    rw [JEnv.resolve, hdeleted] at hvalid
    cases hvalid
  · intro hnone
    have hsame : ∀ g, e'.globals g = e.globals g := by
      intro g
      rw [hglobals g, if_neg]
      rintro ⟨c, hc, hg⟩
      have hnil : handlesAll (members c.tree) = [] := congrArg (List.map handleOf) (hnone c hc)
      rw [hnil] at hg
      exact List.not_mem_nil hg
    refine ⟨?_, ?_⟩
    · intro i ordinal c hhas hc
      exact (hsame c.handle).trans (he.enums i ordinal c hhas hc)
    · intro g hg
      rwa [hsame g]

/-! ### Samples -/

/-- The call on the stream that the walker writes for a tree. -/
def Revival.ofTree (hs : v.r.Slotted) (klass : ℕ) (t : Tree) (ho : t.Over v.r) : Revival v where
  klass := klass
  input := write (fun _ => 0) objectDataOffset (encode v.o v.simdutf objectDataOffset unregisteredClassId t)
  tree := t
  isOver := ho
  stream := (stream_of_encode hs t ho (read_write_self _ _ _)).1

open ObjectWalker

/-- The sample registry's reviver. -/
def sampleReviver : ObjectReviver := sampleWalker.reviver sampleJvm

/-- A stream of the constant itself. -/
def sampleConst : Revival sampleReviver :=
  .ofTree sampleResolver_slotted 1000 (.enumConst sampleEnum 0) ⟨rfl, by decide, by decide, ⟨64, 7⟩, by decide⟩

/-- A stream of an object with an enum field that is null. -/
def samplePairOfNull : Revival sampleReviver :=
  .ofTree sampleResolver_slotted 3000 (.object samplePair (le 4 5 ++ le 4 0 ++ le 4 0) [.null])
    ⟨rfl, by decide, by decide, by decide, by decide, by decide, trivial, trivial⟩

/-- A stream of an object with an enum field that is set. -/
def samplePairOfConst : Revival sampleReviver :=
  .ofTree sampleResolver_slotted 3000 sampleTree (over_of_unfolds sampleResolver_slotted _ sampleTree_unfolds)

theorem enum_table_intact_sample :
    ∃ e', run (step sampleReviver 2) sampleEnv [sampleConst, samplePairOfNull] = some e' ∧
      Intact sampleResolver sampleEnv e' := by
  obtain ⟨e', hrun⟩ : ∃ e', run (step sampleReviver 2) sampleEnv [sampleConst, samplePairOfNull] = some e' := ⟨_, rfl⟩
  refine ⟨e', hrun, (enum_table_intact_iff sampleResolver_wellFormed sampleEnv_fresh ?_ ?_ hrun).mpr ?_⟩
  · intro c hc
    simp only [List.mem_cons, List.not_mem_nil, or_false] at hc
    rcases hc with rfl | rfl
    · intro i hi he _
      rw [List.mem_singleton.mp hi] at he
      cases he
    · intro i hi _ _
      rw [List.mem_singleton.mp hi]
      exact samplePair_laid
  · simp [sampleConst, samplePairOfNull, Revival.ofTree, Tree.height, heightAll]
  · simp [sampleConst, samplePairOfNull, Revival.ofTree, memberConsts, members, enumConstsAll, Tree.enumConsts]

/-- **An object with an enum field.** The first revival clears the reference to the constant, and the second stores the
sentinel in the field. -/
theorem not_intact_after_revive :
    sampleEnv.Fresh sampleResolver ∧
      ∃ e₁, step sampleReviver 2 sampleEnv samplePairOfConst = some e₁ ∧ e₁.globals 7 = .deleted ∧
        ¬ Intact sampleResolver sampleEnv e₁ ∧
        ∃ s n prims, sampleReviver.parse 2 22 (ObjectReviver.stateAt samplePairOfConst.input objectDataOffset e₁) =
          .ok (.loc n (.object 3000 prims [4] [.deleted]), s) := by
  refine ⟨sampleEnv_fresh, _, rfl, rfl, ?_, _, _, _, rfl⟩
  intro h
  have hvalid := h.valid sampleEnum 0 ⟨64, 7⟩ rfl rfl
  cases hvalid

end DShuffle.Serde.EnumTable
