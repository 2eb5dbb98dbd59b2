import DShuffle.Serde.ObjectReviver

/-!
# The host codec's round trip

`ObjectReviver::parse` run over the bytes that `ObjectWalker::walk` wrote. The
two keep in step on every tree: the cursors, the nulls, the classes, the lengths
and the primitive fields agree. One thing goes wrong: an enum constant is handed
out as the global reference that `walk_enum_klass` keeps for it, and the loops
over fields and elements then call `DeleteLocalRef` on it. HotSpot clears the
slot, so the next record of the same constant refers to the sentinel.

## What is proved

* `rebuild_globals` — every global reference that a tree's records name is
  cleared once its member was stored, and no other.
* `roundTrip_iff` — the round trip succeeds, with equal cursors and the same
  tree, exactly when no enum constant occurs twice in it.
* `roundTrip_fails_on_two` — it fails on an array that holds one constant twice.

## Honest scope

Allocation succeeds (`Jvm.Allocates`), and the graph is one that Java's type
system allows: what an array holds may be stored in it (`Tree.Storable`).
Contents of primitive arrays are not compared; `PrimitiveArrays` is about them.
-/

namespace DShuffle.Serde

open Base

/-! ### The same tree -/

/-- The klass `k` is registered, under the signature `s`. -/
def ClassResolver.Names (r : ClassResolver) (k : ℕ) (s : Symbol) : Prop :=
  ∃ j, r.getByKlass k = some j ∧ j.signature = s

/-- The primitive fields of a class `j`, with the values that the body of an object of the class `i` gives. -/
def primsAs (j i : ClassInfo) (body : Bytes) : List (ℕ × Bytes) :=
  (j.primFields.map (·.jFieldId)).zip ((primValues i.fields body).map Prod.snd)

mutual

/-- The value unfolds, in the JVM whose resolver is `r`, to the tree: the same nulls, classes, enum constants,
array lengths and primitive field values at every node. Contents of primitive arrays are left out. -/
def Matches (r : ClassResolver) (x : Value) : Tree → Prop
  | .null => x = .null
  | .enumConst i ordinal => ∃ k, x = .enumConst k ordinal ∧ r.Names k i.signature
  | .object i body ms => ∃ k j refs, r.getByKlass k = some j ∧ j.signature = i.signature ∧
      j.primFields.length = i.primFields.length ∧
      x = .object k (primsAs j i body) (j.refFields.map (·.jFieldId)) refs ∧ MatchesAll r refs ms
  | .refArray i es => ∃ k j xs, r.getByKlass k = some j ∧ i.signature = sym "[" ++ j.signature ∧
      x = .objArray k xs ∧ MatchesAll r xs es
  | .primArray i n _ => ∃ contents, x = .typeArray i.elemType n contents

/-- The values, one by one, unfold to the trees. -/
def MatchesAll (r : ClassResolver) : List Value → List Tree → Prop
  | xs, [] => xs = []
  | xs, t :: ts => ∃ x xs', xs = x :: xs' ∧ Matches r x t ∧ MatchesAll r xs' ts

end

/-- The references of an object that unfolds to an object's tree unfold to the members. -/
theorem Matches.refs {r : ClassResolver} {k : ℕ} {prims : List (ℕ × Bytes)} {ids : List ℕ} {refs : List Value}
    {i : ClassInfo} {body : Bytes} {ms : List Tree} (h : Matches r (.object k prims ids refs) (.object i body ms)) :
    MatchesAll r refs ms := by
  obtain ⟨k', j, refs', -, -, -, hx, hms⟩ := h
  injection hx with _ _ _ hrefs
  rwa [hrefs]

theorem primsAs_self (i : ClassInfo) (body : Bytes) : primsAs i i body = primValues i.fields body := by
  have hkeys : i.primFields.map (·.jFieldId) = (primValues i.fields body).map Prod.fst := by
    rw [primValues, List.map_map]
    rfl
  rw [primsAs, hkeys]
  exact (List.zip_of_prod rfl rfl).symm

/-! ### Enum constants -/

mutual

/-- The enum constants in a tree, in the order of their records. -/
def Tree.enumConsts : Tree → List (ClassInfo × ℕ)
  | .null => []
  | .enumConst i ordinal => [(i, ordinal)]
  | .object _ _ ms => enumConstsAll ms
  | .refArray _ es => enumConstsAll es
  | .primArray .. => []

/-- The enum constants in the trees. -/
def enumConstsAll : List Tree → List (ClassInfo × ℕ)
  | [] => []
  | t :: ts => t.enumConsts ++ enumConstsAll ts

end

/-- The global reference that the enum table has for a constant. -/
def handleOf (p : ClassInfo × ℕ) : ℕ :=
  match p.1.getEnum p.2 with
  | .ok e => e.handle
  | .error _ => 0

theorem handleOf_eq {p : ClassInfo × ℕ} {c : EnumRef} (hc : p.1.getEnum p.2 = .ok c) : handleOf p = c.handle := by
  rw [handleOf]
  simp only [hc]

/-- The global references that a tree's records name. -/
def Tree.handles (t : Tree) : List ℕ := t.enumConsts.map handleOf

/-- The global references that the trees' records name. -/
def handlesAll (ts : List Tree) : List ℕ := (enumConstsAll ts).map handleOf

theorem handlesAll_cons (t : Tree) (ts : List Tree) : handlesAll (t :: ts) = t.handles ++ handlesAll ts := by
  rw [handlesAll, enumConstsAll, List.map_append]
  rfl

/-! ### What is assumed of the JVM -/

/-- Allocation through JNI succeeds. -/
structure Jvm.Allocates (jvm : Jvm) : Prop where
  /-- `AllocObject`. -/
  object : ∀ k, jvm.allocObject k = true
  /-- `New<Type>Array`. -/
  typeArray : ∀ t n, jvm.newTypeArray t n = true
  /-- `NewObjectArray`. -/
  objArray : ∀ k n, jvm.newObjArray k n = true

/-- The state that registration leaves: no exception is pending, and the global reference of every enum
constant refers to it. -/
structure JEnv.Fresh (e : JEnv) (r : ClassResolver) : Prop where
  /-- No exception is pending. -/
  clear : e.exception = false
  /-- The enum tables are right. -/
  enums : ∀ i ordinal c, r.Has i → i.getEnum ordinal = .ok c → e.globals c.handle = .enumConst i.klass ordinal

/-- The class of what a tree unfolds from. -/
def Tree.jclass (r : ClassResolver) : Tree → Option JClass
  | .null => none
  | .enumConst i _ => some (.klass i.klass)
  | .object i _ _ => some (.klass i.klass)
  | .refArray i _ => (r.getById i.elemId).map fun c => .objArray c.klass
  | .primArray i _ _ => some (.typeArray i.elemType)

/-- An array of elements of the class with id `id` may hold the tree. -/
def Tree.FitsElem (jvm : Jvm) (r : ClassResolver) (id : ℤ) (t : Tree) : Prop :=
  ∀ c j, r.getById id = some j → t.jclass r = some c → jvm.isA c j.klass = true

mutual

/-- Every array in the tree may hold its elements. -/
def Tree.Storable (jvm : Jvm) (r : ClassResolver) : Tree → Prop
  | .null => True
  | .enumConst .. => True
  | .object _ _ ms => StorableAll jvm r ms
  | .refArray i es => (∀ t ∈ es, t.FitsElem jvm r i.elemId) ∧ StorableAll jvm r es
  | .primArray .. => True

/-- Every array in the trees may hold its elements. -/
def StorableAll (jvm : Jvm) (r : ClassResolver) : List Tree → Prop
  | [] => True
  | t :: ts => t.Storable jvm r ∧ StorableAll jvm r ts

end

/-! ### What becomes of the global references -/

namespace ObjectReviver

variable {v : ObjectReviver}

theorem check_eq_ok {e : JEnv} {u : Unit} (h : e.check = .ok u) : e.exception = false := by
  unfold JEnv.check at h
  split_ifs at h with he
  exact Bool.eq_false_iff.mpr he

/-- What a run of `rebuild` that succeeds did, by the kind of tree. -/
theorem rebuild_enumConst_ok {i : ClassInfo} {ordinal : ℕ} {e e' : JEnv} {h : Handle}
    (hr : v.rebuild (.enumConst i ordinal) e = .ok (h, e')) :
    e' = e ∧ h = .glob (handleOf (i, ordinal)) := by
  rw [rebuild] at hr
  obtain ⟨c, hc, hr⟩ := bind_eq_ok hr
  cases hr
  exact ⟨rfl, congrArg Handle.glob (handleOf_eq hc).symm⟩

theorem rebuild_object_ok {i : ClassInfo} {body : Bytes} {ms : List Tree} {e e' : JEnv} {h : Handle}
    (hr : v.rebuild (.object i body ms) e = .ok (h, e')) :
    ∃ vs, v.rebuildAll (fun _ => true) ms e.newLocal = .ok (vs, e') ∧ e'.exception = false ∧
      h = .loc e.nLocals (.object i.klass (primValues i.fields body) (i.refFields.map (·.jFieldId)) vs) := by
  rw [rebuild] at hr
  split_ifs at hr with ha
  · cases hr
  · obtain ⟨⟨vs, e₁⟩, hall, hr⟩ := bind_eq_ok hr
    obtain ⟨_, hc, hr⟩ := bind_eq_ok hr
    cases hr
    exact ⟨vs, hall, check_eq_ok hc, rfl⟩

theorem rebuild_refArray_ok {i : ClassInfo} {es : List Tree} {e e' : JEnv} {h : Handle}
    (hr : v.rebuild (.refArray i es) e = .ok (h, e')) :
    ∃ c vs, v.r.getById i.elemId = some c ∧ v.rebuildAll (v.jvm.admits c.klass) es e.newLocal = .ok (vs, e') ∧
      e'.exception = false ∧ h = .loc e.nLocals (.objArray c.klass vs) := by
  rw [rebuild] at hr
  cases hc : v.r.getById i.elemId with
  | none => rw [hc] at hr; cases hr
  | some c =>
    rw [hc] at hr
    simp only at hr
    split_ifs at hr with ha
    · cases hr
    · obtain ⟨⟨vs, e₁⟩, hall, hr⟩ := bind_eq_ok hr
      obtain ⟨_, hch, hr⟩ := bind_eq_ok hr
      cases hr
      exact ⟨c, vs, rfl, hall, check_eq_ok hch, rfl⟩

theorem rebuild_primArray_ok {i : ClassInfo} {n : ℕ} {contents : Bytes} {e e' : JEnv} {h : Handle}
    (hr : v.rebuild (.primArray i n contents) e = .ok (h, e')) :
    e' = e.newLocal ∧ h = .loc e.nLocals (.typeArray i.elemType n contents) := by
  rw [rebuild] at hr
  split_ifs at hr with ha
  · cases hr
  · obtain ⟨-, -, hr⟩ := bind_eq_ok hr
    cases hr
    exact ⟨rfl, rfl⟩

theorem rebuildAll_cons_ok {takes : Value → Bool} {t : Tree} {ts : List Tree} {e e' : JEnv} {vs : List Value}
    (hr : v.rebuildAll takes (t :: ts) e = .ok (vs, e')) :
    ∃ h e₁ xs, v.rebuild t e = .ok (h, e₁) ∧
      v.rebuildAll takes ts ((if takes (e₁.resolve h) then e₁ else { e₁ with exception := true }).deleteLocalRef h) =
        .ok (xs, e') ∧
      vs = (if takes (e₁.resolve h) then e₁.resolve h else .null) :: xs := by
  rw [rebuildAll] at hr
  obtain ⟨⟨h, e₁⟩, ht, hr⟩ := bind_eq_ok hr
  obtain ⟨⟨xs, e₂⟩, hts, hr⟩ := bind_eq_ok hr
  cases hr
  exact ⟨h, e₁, xs, ht, hts, rfl⟩

theorem globals_deleteLocalRef_ite {e : JEnv} {b : Bool} {h : Handle} :
    ((if b then e else { e with exception := true }).deleteLocalRef h).globals = (e.deleteLocalRef h).globals := by
  cases b <;> cases h <;> rfl

mutual

/-- **What becomes of the global references**: once the member `t` was rebuilt and its reference deleted, every
global reference that its records name is cleared, and every other is as it was. -/
theorem rebuild_globals : ∀ (t : Tree) {e e' : JEnv} {h : Handle}, v.rebuild t e = .ok (h, e') → ∀ g,
    (e'.deleteLocalRef h).globals g = if g ∈ t.handles then .deleted else e.globals g
  | .null, e, e', h, hr, g => by
    rw [rebuild] at hr
    cases hr
    rfl
  | .enumConst i ordinal, e, e', h, hr, g => by
    obtain ⟨rfl, rfl⟩ := rebuild_enumConst_ok hr
    simp [Tree.handles, Tree.enumConsts, JEnv.deleteLocalRef]
  | .object i body ms, e, e', h, hr, g => by
    obtain ⟨vs, hall, -, rfl⟩ := rebuild_object_ok hr
    exact rebuildAll_globals ms hall g
  | .refArray i es, e, e', h, hr, g => by
    obtain ⟨c, vs, -, hall, -, rfl⟩ := rebuild_refArray_ok hr
    exact rebuildAll_globals es hall g
  | .primArray i n contents, e, e', h, hr, g => by
    obtain ⟨rfl, rfl⟩ := rebuild_primArray_ok hr
    rfl

theorem rebuildAll_globals {takes : Value → Bool} : ∀ (ts : List Tree) {e e' : JEnv} {vs : List Value},
    v.rebuildAll takes ts e = .ok (vs, e') → ∀ g,
      e'.globals g = if g ∈ handlesAll ts then .deleted else e.globals g
  | [], e, e', vs, hr, g => by
    rw [rebuildAll] at hr
    cases hr
    rfl
  | t :: ts, e, e', vs, hr, g => by
    obtain ⟨h, e₁, xs, ht, hts, rfl⟩ := rebuildAll_cons_ok hr
    rw [rebuildAll_globals ts hts g, globals_deleteLocalRef_ite, rebuild_globals t ht g, handlesAll_cons]
    by_cases h₁ : g ∈ handlesAll ts
    · rw [if_pos h₁, if_pos (List.mem_append_right _ h₁)]
    · by_cases h₂ : g ∈ t.handles
      · rw [if_neg h₁, if_pos h₂, if_pos (List.mem_append_left _ h₂)]
      · rw [if_neg h₁, if_neg h₂, if_neg (fun hm => (List.mem_append.mp hm).elim h₂ h₁)]

end

mutual

/-- **A tree without a repeated enum constant is rebuilt**, and what is rebuilt is the tree. -/
theorem rebuild_clean (hw : v.r.WellFormed) (ha : v.jvm.Allocates) : ∀ (t : Tree) {e : JEnv}, t.Over v.r →
    t.Storable v.jvm v.r → e.exception = false →
    (∀ p ∈ t.enumConsts, e.globals (handleOf p) = .enumConst p.1.klass p.2) → t.handles.Nodup →
    ∃ h e', v.rebuild t e = .ok (h, e') ∧ e'.exception = false ∧ Matches v.r (e'.resolve h) t ∧
      (e'.resolve h).jclass = t.jclass v.r
  | .null, e, _, _, he, _, _ => ⟨.null, e, by rw [rebuild], he, rfl, rfl⟩
  | .enumConst i ordinal, e, ho, _, he, hlive, _ => by
    obtain ⟨hi, -, -, c, hc⟩ := ho
    have hg := hlive (i, ordinal) (List.mem_singleton.mpr rfl)
    rw [handleOf_eq hc] at hg
    refine ⟨.glob c.handle, e, by rw [rebuild, hc]; rfl, he, ?_, ?_⟩
    · rw [JEnv.resolve, hg]
      exact ⟨i.klass, rfl, i, hi, rfl⟩
    · rw [JEnv.resolve, hg]
      rfl
  | .object i body ms, e, ho, hs, he, hlive, hnd => by
    obtain ⟨hi, -, -, -, -, -, hov⟩ := ho
    obtain ⟨vs, e', hall, he', hm⟩ := rebuildAll_clean hw ha (fun _ => true) ms (e := e.newLocal) hov hs
      (fun _ _ _ _ => rfl) he hlive hnd
    refine ⟨.loc e.nLocals (.object i.klass (primValues i.fields body) (i.refFields.map (·.jFieldId)) vs), e', ?_, he', ?_, rfl⟩
    · rw [rebuild, if_neg (by rw [ha.object]; exact Bool.true_eq_false_eq_False), hall]
      simp only [bind, Except.bind, JEnv.check, he']
      rfl
    · refine ⟨i.klass, i, vs, hi, rfl, rfl, ?_, hm⟩
      rw [JEnv.resolve, primsAs_self]
  | .refArray i es, e, ho, hs, he, hlive, hnd => by
    obtain ⟨hi, -, harr, ⟨f, hf, href⟩, hn, hov⟩ := ho
    obtain ⟨c, hc, hsig⟩ := hw.elem i f hi harr hf href
    rw [← (ClassInfo.elem_ok hf).2] at hc
    obtain ⟨vs, e', hall, he', hm⟩ := rebuildAll_clean hw ha (v.jvm.admits c.klass) es (e := e.newLocal) hov hs.2
      (fun t ht x hx => by
        have hfit := hs.1 t ht
        unfold Jvm.admits
        rw [hx]
        cases hj : t.jclass v.r with
        | none => rfl
        | some d => exact hfit d c hc hj) he hlive hnd
    refine ⟨.loc e.nLocals (.objArray c.klass vs), e', ?_, he', ?_, ?_⟩
    · rw [rebuild, hc]
      simp only [ha.objArray, Bool.and_true, decide_eq_true hn, hall]
      simp only [bind, Except.bind, JEnv.check, he']
      rfl
    · exact ⟨c.klass, c, vs, hw.byKlass _ _ hc, hsig, rfl, hm⟩
    · rw [Tree.jclass, hc]
      rfl
  | .primArray i n contents, e, ho, _, he, _, _ => by
    obtain ⟨-, -, -, -, hn⟩ := ho
    refine ⟨.loc e.nLocals (.typeArray i.elemType n contents), e.newLocal, ?_, he, ⟨contents, rfl⟩, rfl⟩
    have hex : e.newLocal.exception = false := he
    rw [rebuild]
    simp only [ha.typeArray, Bool.and_true, decide_eq_true hn, JEnv.check, hex]
    rfl

theorem rebuildAll_clean (hw : v.r.WellFormed) (ha : v.jvm.Allocates) (takes : Value → Bool) :
    ∀ (ts : List Tree) {e : JEnv}, OverAll v.r ts → StorableAll v.jvm v.r ts →
    (∀ t ∈ ts, ∀ x : Value, x.jclass = t.jclass v.r → takes x = true) → e.exception = false →
    (∀ p ∈ enumConstsAll ts, e.globals (handleOf p) = .enumConst p.1.klass p.2) → (handlesAll ts).Nodup →
    ∃ vs e', v.rebuildAll takes ts e = .ok (vs, e') ∧ e'.exception = false ∧ MatchesAll v.r vs ts
  | [], e, _, _, _, he, _, _ => ⟨[], e, by rw [rebuildAll], he, rfl⟩
  | t :: ts, e, ho, hs, htakes, he, hlive, hnd => by
    rw [handlesAll_cons] at hnd
    obtain ⟨hnd₁, hnd₂, hdis⟩ := List.nodup_append.mp hnd
    obtain ⟨h, e₁, hr, he₁, hm, hcls⟩ := rebuild_clean hw ha t ho.1 hs.1 he
      (fun p hp => hlive p (List.mem_append_left _ hp)) hnd₁
    have htk := htakes t List.mem_cons_self _ hcls
    have hex : (e₁.deleteLocalRef h).exception = false := by cases h <;> exact he₁
    -- the constants still to come were not cleared by the records of `t`
    obtain ⟨vs, e', hall, he', hms⟩ := rebuildAll_clean hw ha takes ts ho.2 hs.2
      (fun t ht => htakes t (List.mem_cons_of_mem _ ht)) hex (fun p hp => by
        rw [rebuild_globals t hr, if_neg]
        · exact hlive p (List.mem_append_right _ hp)
        · intro hg
          exact hdis _ hg _ (List.mem_map_of_mem hp) rfl) hnd₂
    refine ⟨e₁.resolve h :: vs, e', ?_, he', ⟨_, vs, rfl, hm, hms⟩⟩
    rw [rebuildAll, hr]
    simp only [bind, Except.bind, htk, if_true, hall]
    rfl

end

/-- A member that was refused left a null, and a null is never refused: so a member that matches was taken. -/
theorem takes_of_matches {takes : Value → Bool} {t : Tree} {e e₁ : JEnv} {h : Handle} (hnull : takes .null = true)
    (ht : v.rebuild t e = .ok (h, e₁))
    (hm : Matches v.r (if takes (e₁.resolve h) then e₁.resolve h else .null) t) : takes (e₁.resolve h) = true := by
  by_contra hno
  rw [if_neg hno] at hm
  cases t with
  | null =>
    rw [rebuild] at ht
    cases ht
    exact hno hnull
  | enumConst i ordinal => obtain ⟨k, hk, -⟩ := hm; cases hk
  | object i body ms => obtain ⟨k, j, refs, -, -, -, hk, -⟩ := hm; cases hk
  | refArray i es => obtain ⟨k, j, ys, -, -, hk, -⟩ := hm; cases hk
  | primArray i n contents => obtain ⟨c, hk⟩ := hm; cases hk

mutual

/-- **What comes out as the tree had no repeated enum constant**: every constant was found behind its reference,
so no earlier record had cleared it. -/
theorem nodup_of_rebuild (t : Tree) {e e' : JEnv} {h : Handle} (hr : v.rebuild t e = .ok (h, e'))
    (hm : Matches v.r (e'.resolve h) t) : (∀ g ∈ t.handles, e.globals g ≠ .deleted) ∧ t.handles.Nodup := by
  match t with
  | .null => exact ⟨fun g hg => absurd hg List.not_mem_nil, List.nodup_nil⟩
  | .enumConst i ordinal =>
    obtain ⟨rfl, rfl⟩ := rebuild_enumConst_ok hr
    obtain ⟨k, hk, -⟩ := hm
    refine ⟨fun g hg => ?_, List.nodup_singleton _⟩
    rw [List.mem_singleton.mp hg]
    intro hd
    rw [JEnv.resolve, hd] at hk
    cases hk
  | .object i body ms =>
    obtain ⟨vs, hall, -, rfl⟩ := rebuild_object_ok hr
    exact nodup_of_rebuildAll (e := e.newLocal) ms rfl hall hm.refs
  | .refArray i es =>
    obtain ⟨c, vs, -, hall, -, rfl⟩ := rebuild_refArray_ok hr
    obtain ⟨k, j, xs, -, -, hx, hms⟩ := hm
    cases hx
    exact nodup_of_rebuildAll (e := e.newLocal) es rfl hall hms
  | .primArray i n contents => exact ⟨fun g hg => absurd hg List.not_mem_nil, List.nodup_nil⟩

theorem nodup_of_rebuildAll {takes : Value → Bool} (ts : List Tree) {e e' : JEnv} {vs : List Value}
    (hnull : takes .null = true) (hr : v.rebuildAll takes ts e = .ok (vs, e')) (hm : MatchesAll v.r vs ts) :
    (∀ g ∈ handlesAll ts, e.globals g ≠ .deleted) ∧ (handlesAll ts).Nodup := by
  match ts with
  | [] => exact ⟨fun g hg => absurd hg List.not_mem_nil, List.nodup_nil⟩
  | t :: ts =>
    obtain ⟨h, e₁, xs, ht, hts, rfl⟩ := rebuildAll_cons_ok hr
    obtain ⟨x, xs', hx, hmt, hmts⟩ := hm
    cases hx
    have htk := takes_of_matches hnull ht hmt
    rw [if_pos htk] at hmt hts
    obtain ⟨hl₁, hnd₁⟩ := nodup_of_rebuild t ht hmt
    obtain ⟨hl₂, hnd₂⟩ := nodup_of_rebuildAll ts hnull hts hmts
    have hfresh : ∀ g ∈ handlesAll ts, g ∉ t.handles ∧ e.globals g ≠ .deleted := by
      intro g hg
      have hlive := hl₂ g hg
      rw [rebuild_globals t ht g] at hlive
      by_cases hgt : g ∈ t.handles
      · rw [if_pos hgt] at hlive
        exact absurd rfl hlive
      · rw [if_neg hgt] at hlive
        exact ⟨hgt, hlive⟩
    rw [handlesAll_cons]
    refine ⟨fun g hg => ?_, List.nodup_append.mpr ⟨hnd₁, hnd₂, ?_⟩⟩
    · rcases List.mem_append.mp hg with hg | hg
      · exact hl₁ g hg
      · exact (hfresh g hg).2
    · rintro g hg g' hg' rfl
      exact (hfresh g hg').1 hg

end

end ObjectReviver

/-! ### The tree that is read back -/

theorem length_overlay (n : ℕ) (bs : Bytes) : (overlay n bs).length = n := by
  simp only [overlay, List.length_take, List.length_append, List.length_replicate]
  omega

section
variable {o : Options} {u : Simdutf} {m : Mem} {r : ClassResolver}

mutual

theorem enumConsts_reread : ∀ (t : Tree) (off : ℕ), (reread o u m off t).enumConsts = t.enumConsts
  | .null, _ => by rw [reread]
  | .enumConst i ordinal, _ => by rw [reread]
  | .object i body ms, off => by rw [reread, Tree.enumConsts, Tree.enumConsts, enumConstsAll_reread ms]
  | .refArray i es, off => by rw [reread, Tree.enumConsts, Tree.enumConsts, enumConstsAll_reread es]
  | .primArray i n contents, _ => by rw [reread, Tree.enumConsts, Tree.enumConsts]

theorem enumConstsAll_reread : ∀ (ts : List Tree) (off : ℕ), enumConstsAll (rereadAll o u m off ts) = enumConstsAll ts
  | [], _ => by rw [rereadAll]
  | t :: ts, off => by rw [rereadAll, enumConstsAll, enumConstsAll, enumConsts_reread t, enumConstsAll_reread ts]

end

mutual

theorem matches_reread : ∀ (t : Tree) (off : ℕ) {x : Value}, Matches r x (reread o u m off t) ↔ Matches r x t
  | .null, _, _ => by rw [reread]
  | .enumConst i ordinal, _, _ => by rw [reread]
  | .object i body ms, off, x => by simp only [reread, Matches, matchesAll_reread ms]
  | .refArray i es, off, x => by simp only [reread, Matches, matchesAll_reread es]
  | .primArray i n contents, _, _ => by rw [reread, Matches, Matches]

theorem matchesAll_reread : ∀ (ts : List Tree) (off : ℕ) {xs : List Value},
    MatchesAll r xs (rereadAll o u m off ts) ↔ MatchesAll r xs ts
  | [], _, _ => by rw [rereadAll]
  | t :: ts, off, xs => by simp only [rereadAll, MatchesAll, matches_reread t, matchesAll_reread ts]

end

mutual

theorem over_reread : ∀ (t : Tree) (off : ℕ), t.Over r → (reread o u m off t).Over r
  | .null, _, _ => by rw [reread]; trivial
  | .enumConst i ordinal, _, h => by rw [reread]; exact h
  | .object i body ms, off, h => by
    obtain ⟨hi, he, ho, hb, hm, hl, hall⟩ := h
    rw [reread]
    exact ⟨hi, he, ho, hb, hm, by rw [length_rereadAll]; exact hl, overAll_reread ms _ hall⟩
  | .refArray i es, off, h => by
    obtain ⟨hi, he, ha, hf, hl, hall⟩ := h
    rw [reread]
    exact ⟨hi, he, ha, hf, by rw [length_rereadAll]; exact hl, overAll_reread es _ hall⟩
  | .primArray i n contents, off, h => by
    obtain ⟨hi, he, ha, ⟨f, hf, hp, -⟩, hn⟩ := h
    rw [reread]
    refine ⟨hi, he, ha, ⟨f, hf, hp, ?_⟩, hn⟩
    rw [revivedContents, (ClassInfo.elem_ok hf).1]
    split_ifs with hc
    · rw [length_overlay, hc.1]
      rfl
    · exact length_overlay ..

theorem overAll_reread : ∀ (ts : List Tree) (off : ℕ), OverAll r ts → OverAll r (rereadAll o u m off ts)
  | [], _, _ => by rw [rereadAll]; trivial
  | t :: ts, off, h => by
    rw [rereadAll]
    exact ⟨over_reread t off h.1, overAll_reread ts _ h.2⟩

end

theorem jclass_reread (t : Tree) (off : ℕ) : (reread o u m off t).jclass r = t.jclass r := by
  cases t <;> rw [reread] <;> rfl

theorem exists_of_mem_rereadAll {ts : List Tree} {off : ℕ} {t : Tree} (h : t ∈ rereadAll o u m off ts) :
    ∃ t' ∈ ts, ∃ off', t = reread o u m off' t' := by
  induction ts generalizing off with
  | nil =>
    rw [rereadAll] at h
    cases h
  | cons t' ts ih =>
    rw [rereadAll] at h
    rcases List.mem_cons.mp h with rfl | h
    · exact ⟨t', List.mem_cons_self, off, rfl⟩
    · obtain ⟨t'', ht'', off', rfl⟩ := ih h
      exact ⟨t'', List.mem_cons_of_mem _ ht'', off', rfl⟩

mutual

theorem storable_reread {jvm : Jvm} : ∀ (t : Tree) (off : ℕ), t.Storable jvm r → (reread o u m off t).Storable jvm r
  | .null, _, _ => by rw [reread]; trivial
  | .enumConst i ordinal, _, _ => by rw [reread]; trivial
  | .object i body ms, off, h => by
    rw [reread]
    exact storableAll_reread ms _ h
  | .refArray i es, off, h => by
    rw [reread]
    refine ⟨fun t ht => ?_, storableAll_reread es _ h.2⟩
    obtain ⟨t', ht', off', rfl⟩ := exists_of_mem_rereadAll ht
    have hfit := h.1 t' ht'
    unfold Tree.FitsElem at hfit ⊢
    rw [jclass_reread]
    exact hfit
  | .primArray i n contents, _, _ => by rw [reread]; trivial

theorem storableAll_reread {jvm : Jvm} : ∀ (ts : List Tree) (off : ℕ), StorableAll jvm r ts →
    StorableAll jvm r (rereadAll o u m off ts)
  | [], _, _ => by rw [rereadAll]; trivial
  | t :: ts, off, h => by
    rw [rereadAll]
    exact ⟨storable_reread t off h.1, storableAll_reread ts _ h.2⟩

end

end

/-! ### The round trip -/

mutual

theorem has_of_mem_enumConsts {r : ClassResolver} : ∀ (t : Tree), t.Over r → ∀ p ∈ t.enumConsts,
    r.Has p.1 ∧ ∃ c, p.1.getEnum p.2 = .ok c
  | .null, _, p, hp => absurd hp List.not_mem_nil
  | .enumConst i ordinal, h, p, hp => by
    rw [Tree.enumConsts, List.mem_singleton] at hp
    subst hp
    exact ⟨h.1, h.2.2.2⟩
  | .object i body ms, h, p, hp => has_of_mem_enumConstsAll ms h.2.2.2.2.2.2 p hp
  | .refArray i es, h, p, hp => has_of_mem_enumConstsAll es h.2.2.2.2.2 p hp
  | .primArray i n contents, _, p, hp => absurd hp List.not_mem_nil

theorem has_of_mem_enumConstsAll {r : ClassResolver} : ∀ (ts : List Tree), OverAll r ts → ∀ p ∈ enumConstsAll ts,
    r.Has p.1 ∧ ∃ c, p.1.getEnum p.2 = .ok c
  | [], _, p, hp => absurd hp List.not_mem_nil
  | t :: ts, h, p, hp => by
    rw [enumConstsAll] at hp
    rcases List.mem_append.mp hp with hp | hp
    · exact has_of_mem_enumConsts t h.1 p hp
    · exact has_of_mem_enumConstsAll ts h.2 p hp

end

/-- The enum tables name every constant of a tree. -/
theorem JEnv.Fresh.live {e : JEnv} {r : ClassResolver} (he : e.Fresh r) {t : Tree} (ho : t.Over r) :
    ∀ p ∈ t.enumConsts, e.globals (handleOf p) = .enumConst p.1.klass p.2 := by
  intro p hp
  obtain ⟨hi, c, hc⟩ := has_of_mem_enumConsts t ho p hp
  rw [handleOf_eq hc]
  exact he.enums p.1 p.2 c hi hc

/-- Distinct constants have distinct global references. -/
theorem JEnv.Fresh.nodup_iff {e : JEnv} {r : ClassResolver} (he : e.Fresh r) {t : Tree} (ho : t.Over r) :
    t.handles.Nodup ↔ t.enumConsts.Nodup := by
  constructor
  · exact List.Nodup.of_map _
  · refine List.Nodup.map_on fun p hp q hq hpq => ?_
    have hvp := he.live ho p hp
    have hvq := he.live ho q hq
    rw [hpq, hvq] at hvp
    injection hvp with hk hord
    have hip := (has_of_mem_enumConsts t ho p hp).1
    have hiq := (has_of_mem_enumConsts t ho q hq).1
    rw [ClassResolver.Has, ← hk, hiq] at hip
    exact Prod.ext (Option.some.inj hip).symm hord.symm

/-- The reviver that belongs to a walker: the same resolver, options and transcoder. -/
def ObjectWalker.reviver (w : ObjectWalker) (jvm : Jvm) : ObjectReviver := ⟨jvm, w.r, w.o, w.simdutf⟩

/-- **The round trip succeeds**: `walk` writes the object at the cursor of `b`; `parse`, run from there over what
was written, returns; its cursor ends where the walker's ended, and what it returns unfolds to the tree. -/
def RoundTrips (w : ObjectWalker) (jvm : Jvm) (e : JEnv) (fuel a : ℕ) (eid : ℤ) (b : RWBuffer) (t : Tree) : Prop :=
  ∃ base b' h s, w.walk fuel a eid b = .ok (base, b') ∧
    (w.reviver jvm).parse fuel eid (ObjectReviver.stateAt b'.data b.off e) = .ok (h, s) ∧
    s.b.off = b'.off ∧ Matches w.r (s.env.resolve h) t

section
variable {w : ObjectWalker} (jvm : Jvm) (e : JEnv) {fuel a : ℕ} (eid : ℤ) (b : RWBuffer) {t : Tree}

/-- What the walker wrote is read back as the tree is rebuilt. -/
theorem parse_walk (hw : w.r.WellFormed) (hslot : w.r.Slotted) (hu : Unfolds w.heap w.r a t) (hl : t.Laid)
    (hf : t.height < fuel) :
    ∃ base b', w.walk fuel a eid b = .ok (base, b') ∧
      (w.reviver jvm).parse fuel eid (ObjectReviver.stateAt b'.data b.off e) =
        ((w.reviver jvm).rebuild (reread w.o w.simdutf b'.data b.off t) e).map
          fun x => (x.1, ObjectReviver.stateAt b'.data b'.off x.2) := by
  have ho := over_of_unfolds hslot t hu
  obtain ⟨b', hwalk, hem⟩ := ObjectWalker.walk_emits hslot hf a eid b hu
  obtain ⟨hstream, hend⟩ := stream_of_encode hslot t ho hem.read_all
  rw [← hem.off] at hend
  refine ⟨_, b', hwalk, ?_⟩
  have hparse := ObjectReviver.parse_eq_rebuild (v := w.reviver jvm) hw hl hf ho b'.data b.off eid e hstream
  rw [hparse, ← hend]
  rfl

variable {jvm e eid b}

theorem roundTrips_of_nodup (hw : w.r.WellFormed) (hslot : w.r.Slotted) (hj : jvm.Allocates) (he : e.Fresh w.r)
    (hu : Unfolds w.heap w.r a t) (hl : t.Laid) (hs : t.Storable jvm w.r) (hf : t.height < fuel) (hn : t.enumConsts.Nodup) :
    RoundTrips w jvm e fuel a eid b t := by
  have ho := over_of_unfolds hslot t hu
  obtain ⟨base, b', hwalk, hparse⟩ := parse_walk jvm e eid b hw hslot hu hl hf
  have hnd := (he.nodup_iff ho).mpr hn
  obtain ⟨h, e', hr, -, hm, -⟩ := ObjectReviver.rebuild_clean (v := w.reviver jvm) hw hj
    (reread w.o w.simdutf b'.data b.off t) (e := e) (over_reread t _ ho) (storable_reread t _ hs) he.clear
    (by rw [enumConsts_reread]; exact he.live ho) (by rw [Tree.handles, enumConsts_reread]; exact hnd)
  rw [hr] at hparse
  exact ⟨base, b', h, _, hwalk, hparse, rfl, (matches_reread t _).mp hm⟩

theorem nodup_of_roundTrips (hw : w.r.WellFormed) (hslot : w.r.Slotted) (hu : Unfolds w.heap w.r a t) (hl : t.Laid)
    (hf : t.height < fuel) (h : RoundTrips w jvm e fuel a eid b t) : t.enumConsts.Nodup := by
  obtain ⟨base, b', x, s, hwalk, hparse, -, hm⟩ := h
  obtain ⟨base₁, b₁, hwalk₁, hparse₁⟩ := parse_walk jvm e eid b hw hslot hu hl hf
  rw [hwalk] at hwalk₁
  cases hwalk₁
  rw [hparse] at hparse₁
  cases hr : (w.reviver jvm).rebuild (reread w.o w.simdutf b'.data b.off t) e with
  | error err => rw [hr] at hparse₁; cases hparse₁
  | ok y =>
    rw [hr] at hparse₁
    cases hparse₁
    have hnd := (ObjectReviver.nodup_of_rebuild _ hr ((matches_reread t _).mpr hm)).2
    rw [Tree.handles, enumConsts_reread] at hnd
    exact List.Nodup.of_map _ hnd

end

/-- **The host codec's round trip.** On every graph that unfolds to a tree, from every start offset, reading back
what was written succeeds, ends at the walker's offset and gives the same tree, exactly when no enum constant
occurs twice in the tree. -/
theorem roundTrip_iff (w : ObjectWalker) (jvm : Jvm) (e : JEnv) (hw : w.r.WellFormed) (hslot : w.r.Slotted)
    (hj : jvm.Allocates) (he : e.Fresh w.r) (a : ℕ) (t : Tree) (hu : Unfolds w.heap w.r a t) (hl : t.Laid)
    (hs : t.Storable jvm w.r) (b : RWBuffer) (eid : ℤ) (fuel : ℕ) (hf : t.height < fuel) :
    RoundTrips w jvm e fuel a eid b t ↔ t.enumConsts.Nodup :=
  ⟨nodup_of_roundTrips hw hslot hu hl hf, roundTrips_of_nodup hw hslot hj he hu hl hs hf⟩

/-! ### The sample registry -/

open ObjectWalker

theorem sampleResolver_wellFormed : sampleResolver.WellFormed where
  byId i hi := by
    have hm := ClassResolver.mem_of_getByKlass hi
    simp only [sampleResolver, List.mem_cons, List.not_mem_nil, or_false] at hm
    rcases hm with rfl | rfl | rfl <;> decide
  range i hi := by
    have hm := ClassResolver.mem_of_getByKlass hi
    simp only [sampleResolver, List.mem_cons, List.not_mem_nil, or_false] at hm
    rcases hm with rfl | rfl | rfl <;> decide
  byKlass id i hi := by
    have hm := ClassResolver.mem_of_getById hi
    simp only [sampleResolver, List.mem_cons, List.not_mem_nil, or_false] at hm
    rcases hm with rfl | rfl | rfl
    · exact (by decide : sampleResolver.getByKlass 2000 = some sampleEnumArray)
    · exact (by decide : sampleResolver.getByKlass 1000 = some sampleEnum)
    · exact (by decide : sampleResolver.getByKlass 3000 = some samplePair)
  elem i f hi ha hf _ := by
    have hm := ClassResolver.mem_of_getByKlass hi
    simp only [sampleResolver, List.mem_cons, List.not_mem_nil, or_false] at hm
    rcases hm with rfl | rfl | rfl
    · cases hf
      exact ⟨sampleEnum, by decide, by decide⟩
    · cases ha
    · cases ha

/-- A JVM in which allocation succeeds and every class is its own only subclass. -/
def sampleJvm : Jvm := ⟨fun _ => true, fun _ _ => true, fun _ _ => true, fun c k => c == .klass k⟩

/-- The state after the sample registry was filled: global reference `7` is the enum's constant. -/
def sampleEnv : JEnv := ⟨fun g => if g = 7 then .enumConst 1000 0 else .null, false, 0, none⟩

theorem sampleEnv_fresh : sampleEnv.Fresh sampleResolver := by
  refine ⟨rfl, fun i ordinal c hi hc => ?_⟩
  have hm := ClassResolver.mem_of_getByKlass hi
  simp only [sampleResolver, List.mem_cons, List.not_mem_nil, or_false] at hm
  rcases hm with rfl | rfl | rfl
  · cases hc
  · cases ordinal with
    | zero => cases hc; rfl
    | succ n => cases hc
  · cases hc

/-- The walker over the sample heap. -/
def sampleWalker : ObjectWalker := ⟨sampleHeap 0, sampleResolver, ⟨false⟩, noSimdutf⟩

/-- The tree of the sample array: the one constant of the enum, twice. -/
def sampleTwice : Tree := .refArray sampleEnumArray [.enumConst sampleEnum 0, .enumConst sampleEnum 0]

theorem samplePair_laid : samplePair.Laid :=
  ⟨by decide, by decide, by decide, by decide, by decide, by decide⟩

theorem sampleTree_laid : sampleTree.Laid := by
  intro i hi he ho
  simp only [sampleTree, Tree.infos, infosAll, List.mem_cons, List.mem_append, List.not_mem_nil, or_false] at hi
  rcases hi with rfl | rfl
  · exact samplePair_laid
  · cases he

theorem sampleTwice_laid : sampleTwice.Laid := by
  intro i hi he ho
  simp only [sampleTwice, Tree.infos, infosAll, List.mem_cons, List.mem_append, List.not_mem_nil, or_false] at hi
  rcases hi with rfl | rfl | rfl
  · cases ho
  · cases he
  · cases he

theorem sampleTree_unfolds : Unfolds sampleWalker.heap sampleWalker.r 104 sampleTree := by
  simp only [sampleTree, Unfolds, UnfoldsAll]
  exact ⟨by decide, by decide, by decide, by decide, by decide, 64, [], by decide,
    ⟨by decide, by decide, by decide, by decide, ⟨64, 7⟩, by decide⟩, rfl⟩

theorem sampleTwice_unfolds : Unfolds sampleWalker.heap sampleWalker.r 80 sampleTwice := by
  have hE : Unfolds sampleWalker.heap sampleWalker.r 64 (.enumConst sampleEnum 0) := by
    simp only [Unfolds]
    exact ⟨by decide, by decide, by decide, by decide, ⟨64, 7⟩, by decide⟩
  simp only [sampleTwice, Unfolds, UnfoldsAll]
  exact ⟨by decide, by decide, by decide, by decide, ⟨⟨20, 0, .object, 0, 0⟩, by decide, by decide⟩, by decide,
    64, [.ok 64], by decide, by simpa only [Unfolds] using hE, 64, [], by decide, by simpa only [Unfolds] using hE, rfl⟩

/-- An object with an int and an enum constant goes through. -/
theorem roundTrip_iff_sample : RoundTrips sampleWalker sampleJvm sampleEnv 2 104 (-1) ⟨fun _ => 0, 8⟩ sampleTree :=
  (roundTrip_iff sampleWalker sampleJvm sampleEnv sampleResolver_wellFormed sampleResolver_slotted
    ⟨fun _ => rfl, fun _ _ => rfl, fun _ _ => rfl⟩ sampleEnv_fresh 104 sampleTree sampleTree_unfolds sampleTree_laid
    ⟨trivial, trivial⟩ ⟨fun _ => 0, 8⟩ (-1) 2 (by decide)).mpr (by decide)

/-- **An array that holds one enum constant twice does not go through.** -/
theorem roundTrip_fails_on_two :
    sampleWalker.r.WellFormed ∧ sampleWalker.r.Slotted ∧ sampleJvm.Allocates ∧ sampleEnv.Fresh sampleWalker.r ∧
      Unfolds sampleWalker.heap sampleWalker.r 80 sampleTwice ∧ sampleTwice.Laid ∧ sampleTwice.Storable sampleJvm sampleWalker.r ∧
      ¬ RoundTrips sampleWalker sampleJvm sampleEnv 2 80 (-1) ⟨fun _ => 0, 8⟩ sampleTwice := by
  refine ⟨sampleResolver_wellFormed, sampleResolver_slotted, ⟨fun _ => rfl, fun _ _ => rfl, fun _ _ => rfl⟩,
    sampleEnv_fresh, sampleTwice_unfolds, sampleTwice_laid, ?_, fun h => ?_⟩
  · refine ⟨fun t ht c j hj hc => ?_, trivial, trivial, trivial⟩
    have hj' : j = sampleEnum := (Option.some.inj hj).symm
    rw [hj']
    rcases List.mem_cons.mp ht with rfl | ht
    · cases hc; decide
    · rw [List.mem_singleton.mp ht] at hc
      cases hc; decide
  · have hnd := nodup_of_roundTrips (w := sampleWalker) sampleResolver_wellFormed sampleResolver_slotted sampleTwice_unfolds
      sampleTwice_laid (by decide) h
    exact absurd hnd (by decide)

end DShuffle.Serde
