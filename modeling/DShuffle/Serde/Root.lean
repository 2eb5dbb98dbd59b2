import DShuffle.Serde.EnumTable

/-!
# The root that is returned

`revive` does not return what `parse` returns. It returns `root`, which is null until `do_parse_object` or
`do_parse_array` has allocated something: each of them sets it if it is still null.

## What is proved

* `rebuild_keeps_root` — once `root` is set, it stays as it is.
* `root_of_rebuild` — the first allocation is that of the root record, if the root is an object or an array.
* `returns_root_iff` — `revive` returns what `parse` returned for the root record exactly if the root is no enum constant.
* `not_returns_root_enum` — for an enum constant `revive` returns null.
-/

namespace DShuffle.Serde.EnumTable

open Base ObjectReviver

variable {v : ObjectReviver} {fuel : ℕ}

/-- `root` is the handle. -/
def IsHandle : Option ℕ → Handle → Prop
  | some n, .loc m _ => n = m
  | none, .null => True
  | _, _ => False

/-- If `parse` returns for the root record, then `revive` returns the same handle. -/
def ReturnsRoot (v : ObjectReviver) (fuel klass : ℕ) (expectedId : ℤ) (input : Mem) (e : JEnv) : Prop :=
  ∀ h s, v.parse fuel expectedId (stateAt input objectDataOffset { e with root := none }) = .ok (h, s) →
    ∃ root e', revive v fuel klass input e = .ok (root, e') ∧ IsHandle root h

/-! ### The capture of the root -/

theorem root_newLocal (e : JEnv) : e.newLocal.root = e.root.or (some e.nLocals) := rfl

theorem root_deleteLocalRef (e : JEnv) (h : Handle) : (e.deleteLocalRef h).root = e.root := by
  cases h with
  | null => rfl
  | loc n x => rfl
  | glob g => rfl

mutual

/-- A root that is set stays. -/
theorem rebuild_keeps_root : ∀ (t : Tree) {e e' : JEnv} {h : Handle} {n : ℕ}, v.rebuild t e = .ok (h, e') →
    e.root = some n → e'.root = some n
  | .null, e, e', h, n, hr, hn => by
    rw [rebuild] at hr
    cases hr
    exact hn
  | .enumConst i ordinal, e, e', h, n, hr, hn => by
    obtain ⟨rfl, -⟩ := rebuild_enumConst_ok hr
    exact hn
  | .object i body ms, e, e', h, n, hr, hn => by
    obtain ⟨vs, hall, -, -⟩ := rebuild_object_ok hr
    exact rebuildAll_keeps_root ms hall (by rw [root_newLocal, hn]; rfl)
  | .refArray i es, e, e', h, n, hr, hn => by
    obtain ⟨c, vs, -, hall, -, -⟩ := rebuild_refArray_ok hr
    exact rebuildAll_keeps_root es hall (by rw [root_newLocal, hn]; rfl)
  | .primArray i k contents, e, e', h, n, hr, hn => by
    obtain ⟨rfl, -⟩ := rebuild_primArray_ok hr
    rw [root_newLocal, hn]
    rfl

theorem rebuildAll_keeps_root {takes : Value → Bool} : ∀ (ts : List Tree) {e e' : JEnv} {vs : List Value} {n : ℕ},
    v.rebuildAll takes ts e = .ok (vs, e') → e.root = some n → e'.root = some n
  | [], e, e', vs, n, hr, hn => by
    rw [rebuildAll] at hr
    cases hr
    exact hn
  | t :: ts, e, e', vs, n, hr, hn => by
    obtain ⟨h, e₁, xs, ht, hts, -⟩ := rebuildAll_cons_ok hr
    have hone := rebuild_keeps_root t ht hn
    refine rebuildAll_keeps_root ts hts ?_
    rw [root_deleteLocalRef]
    split_ifs
    · exact hone
    · exact hone

end

/-- **The root record is the first to allocate**: what `root` is after the root was rebuilt is the handle of the root,
unless that is an enum constant, whose handle is global. -/
theorem root_of_rebuild (t : Tree) {e e' : JEnv} {h : Handle} (hr : v.rebuild t e = .ok (h, e')) (hnone : e.root = none) :
    IsHandle e'.root h ↔ ∀ i ordinal, t ≠ .enumConst i ordinal := by
  have hfirst : e.newLocal.root = some e.nLocals := by rw [root_newLocal, hnone]; rfl
  cases t with
  | null =>
    rw [rebuild] at hr
    cases hr
    rw [hnone]
    exact ⟨fun _ _ _ => Tree.noConfusion, fun _ => trivial⟩
  | enumConst i ordinal =>
    obtain ⟨rfl, rfl⟩ := rebuild_enumConst_ok hr
    rw [hnone]
    exact ⟨False.elim, fun hno => hno i ordinal rfl⟩
  | object i body ms =>
    obtain ⟨vs, hall, -, rfl⟩ := rebuild_object_ok hr
    rw [rebuildAll_keeps_root ms hall hfirst]
    exact ⟨fun _ _ _ => Tree.noConfusion, fun _ => rfl⟩
  | refArray i es =>
    obtain ⟨c, vs, -, hall, -, rfl⟩ := rebuild_refArray_ok hr
    rw [rebuildAll_keeps_root es hall hfirst]
    exact ⟨fun _ _ _ => Tree.noConfusion, fun _ => rfl⟩
  | primArray i n contents =>
    obtain ⟨rfl, rfl⟩ := rebuild_primArray_ok hr
    rw [hfirst]
    exact ⟨fun _ _ _ => Tree.noConfusion, fun _ => rfl⟩

theorem reread_eq_enumConst {o : Options} {u : Simdutf} {m : Mem} (off : ℕ) (t : Tree) (i : ClassInfo) (ordinal : ℕ) :
    reread o u m off t = .enumConst i ordinal ↔ t = .enumConst i ordinal := by
  cases t <;> simp [reread]

/-- `revive` on a class that is registered. -/
theorem revive_of_parse {klass : ℕ} {info : ClassInfo} {input : Mem} {e : JEnv} {h : Handle} {s : State}
    (hinfo : v.r.getByKlass klass = some info)
    (hp : v.parse fuel info.id (stateAt input objectDataOffset { e with root := none }) = .ok (h, s)) :
    revive v fuel klass input e = .ok (s.env.root, s.env) := by
  have hstate : (⟨RWBuffer.skip ⟨input, 0⟩ objectDataOffset, { e with root := none }⟩ : State) =
      stateAt input objectDataOffset { e with root := none } := rfl
  simp only [revive, hinfo, hstate, hp]
  rfl

/-- **When `revive` returns the root.** On every valid stream the handle that `revive` returns is the one that `parse`
returned for the root record exactly if the root is not an enum constant. -/
theorem returns_root_iff (hw : v.r.WellFormed) (c : Revival v) (hl : c.tree.Laid) (hf : c.tree.height < fuel)
    {info : ClassInfo} (hinfo : v.r.getByKlass c.klass = some info) (e : JEnv) :
    ReturnsRoot v fuel c.klass info.id c.input e ↔ ∀ i ordinal, c.tree ≠ .enumConst i ordinal := by
  have hparse := parse_eq_rebuild hw hl hf c.isOver c.input objectDataOffset info.id { e with root := none } c.stream
  have hroot : ∀ h s, v.parse fuel info.id (stateAt c.input objectDataOffset { e with root := none }) = .ok (h, s) →
      (IsHandle s.env.root h ↔ ∀ i ordinal, c.tree ≠ .enumConst i ordinal) := by
    intro h s hp
    rw [hparse] at hp
    cases hr : v.rebuild (reread v.o v.simdutf c.input objectDataOffset c.tree) { e with root := none } with
    | error err =>
      rw [hr] at hp
      cases hp
    | ok x =>
      rw [hr] at hp
      cases hp
      have hcaptured := root_of_rebuild _ hr rfl
      simp only [ne_eq, reread_eq_enumConst] at hcaptured
      exact hcaptured
  constructor
  · intro hret i ordinal ht
    -- the record of a constant is always read
    obtain ⟨-, -, -, ref, href⟩ : (Tree.enumConst i ordinal).Over v.r := ht ▸ c.isOver
    have hok : v.parse fuel info.id (stateAt c.input objectDataOffset { e with root := none }) =
        .ok (.glob ref.handle, stateAt c.input (endOff v.o v.simdutf objectDataOffset c.tree) { e with root := none }) := by
      rw [hparse, ht, reread, rebuild, href]
      rfl
    obtain ⟨root, e', hrev, hsame⟩ := hret _ _ hok
    rw [revive_of_parse hinfo hok] at hrev
    cases hrev
    exact (hroot _ _ hok).mp hsame i ordinal ht
  · intro hno h s hp
    exact ⟨_, _, revive_of_parse hinfo hp, (hroot h s hp).mpr hno⟩

/-- An object. -/
theorem returns_root_pair : ReturnsRoot sampleReviver 2 3000 22 samplePairOfConst.input sampleEnv := by
  have hinfo : sampleReviver.r.getByKlass samplePairOfConst.klass = some ObjectWalker.samplePair := rfl
  have hheight : samplePairOfConst.tree.height < 2 := by
    simp [samplePairOfConst, Revival.ofTree, ObjectWalker.sampleTree, Tree.height, heightAll]
  exact (returns_root_iff sampleResolver_wellFormed samplePairOfConst sampleTree_laid
    hheight hinfo sampleEnv).mpr fun _ _ => Tree.noConfusion

/-- **An enum constant.** `parse` returns its global reference, and `revive` returns null. -/
theorem not_returns_root_enum :
    (∃ s, sampleReviver.parse 2 20 (stateAt sampleConst.input objectDataOffset { sampleEnv with root := none }) =
        .ok (.glob 7, s)) ∧ (∃ e', revive sampleReviver 2 1000 sampleConst.input sampleEnv = .ok (none, e')) ∧
      ¬ ReturnsRoot sampleReviver 2 1000 20 sampleConst.input sampleEnv := by
  have hp : ∃ s, sampleReviver.parse 2 20 (stateAt sampleConst.input objectDataOffset { sampleEnv with root := none }) =
      .ok (.glob 7, s) := ⟨_, rfl⟩
  refine ⟨hp, ⟨_, rfl⟩, fun hret => ?_⟩
  obtain ⟨s, hp⟩ := hp
  obtain ⟨root, e', hrev, hsame⟩ := hret _ _ hp
  cases root with
  | none => exact hsame
  | some n => exact hsame

end DShuffle.Serde.EnumTable
