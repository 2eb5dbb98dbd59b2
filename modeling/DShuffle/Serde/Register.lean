import DShuffle.Serde.Registry

/-!
# Registering keeps the registry

The class resolver has four indexes, and a table of the fields that wait for a class
to be registered. `Inv` says that after calls that registered the classes `done`,
every block that is registered holds the class info that `specInfo` says, that the
indexes are consistent with `done`, and that exactly the reference fields with an
unknown signature wait.

## What is proved

* `Inv.getByKlass_iff`, `Inv.getById_eq`, `Inv.getBySig_eq` — the lookups.
* `Inv.register` — `register_class_info` on a block that is filled in keeps it.
-/

namespace DShuffle.Serde

open Base

namespace ClassResolver

/-! ### Patches and fields that wait -/

/-- Every field that waits gets the id, and nothing else changes. -/
theorem getElem?_patchFields (infos : List ClassInfo) (id : ℤ) (ps : List FieldPtr) (p : ℕ) :
    (patchFields infos id ps)[p]? = infos[p]?.map fun i =>
      { i with fields := i.fields.mapIdx fun j f => if (p, j) ∈ ps then { f with id } else f } := by
  induction ps generalizing infos with
  | nil => simp [patchFields, List.mapIdx_eq_zipIdx_map]
  | cons q ps ih =>
    obtain ⟨p', j'⟩ := q
    rw [patchFields, ih, List.getElem?_modify]
    by_cases hp : p' = p
    · subst hp
      cases infos[p']? with
      | none => rfl
      | some i =>
        simp only [if_true, Option.map_eq_map, Option.map_some, Option.some.injEq]
        congr 1
        refine List.ext_getElem? fun j => ?_
        rw [List.getElem?_mapIdx, List.getElem?_mapIdx, List.getElem?_modify]
        cases i.fields[j]? with
        | none => rfl
        | some f =>
          by_cases hj : j' = j
          · subst hj
            simp
          · simp [hj, Ne.symm hj]
    · cases infos[p]? with
      | none => rfl
      | some i => simp [hp, Ne.symm hp]

/-- The fields that wait for a signature. -/
def waiting (u : Unresolved) (sig : Symbol) : List FieldPtr := (u.lookup sig).getD []

theorem mem_waiting_push {sig sig' : Symbol} {q q' : FieldPtr} (u : Unresolved) :
    q ∈ waiting (pushUnresolved sig' q' u) sig ↔ q ∈ waiting u sig ∨ (sig' = sig ∧ q = q') := by
  induction u with
  | nil =>
    by_cases hsig : sig' = sig
    · simp [waiting, pushUnresolved, hsig]
    · simp [waiting, pushUnresolved, List.lookup_cons, hsig, beq_false_of_ne (Ne.symm hsig)]
  | cons e u ih =>
    obtain ⟨s, qs⟩ := e
    by_cases hs : s = sig'
    · subst hs
      by_cases hsig : s = sig
      · simp [waiting, pushUnresolved, hsig]
      · simp [waiting, pushUnresolved, List.lookup_cons, hsig, beq_false_of_ne (Ne.symm hsig)]
    · by_cases hsig : s = sig
      · subst hsig
        simp [waiting, pushUnresolved, hs, Ne.symm hs]
      · simpa [waiting, pushUnresolved, hs, List.lookup_cons, beq_false_of_ne (Ne.symm hsig)] using ih

theorem waiting_erase (u : Unresolved) (sig' sig : Symbol) :
    waiting (u.filter (·.1 != sig')) sig = if sig' = sig then [] else waiting u sig := by
  induction u with
  | nil => simp [waiting]
  | cons e u ih =>
    obtain ⟨s, qs⟩ := e
    by_cases hs : s = sig'
    · subst hs
      rw [List.filter_cons_of_neg (by simp), ih]
      by_cases hsig : s = sig
      · simp [hsig]
      · simp [waiting, List.lookup_cons, hsig, beq_false_of_ne (Ne.symm hsig)]
    · rw [List.filter_cons_of_pos (by simp [hs])]
      by_cases hsig : s = sig
      · subst hsig
        simp [waiting, Ne.symm hs]
      · have hcons : ∀ u' : Unresolved, waiting ((s, qs) :: u') sig = waiting u' sig := by
          intro u'
          simp [waiting, List.lookup_cons, beq_false_of_ne (Ne.symm hsig)]
        rw [hcons, hcons, ih]

/-! ### The invariant -/

/-- What the klasses of a program are: an address is of one klass, and so is a signature. -/
structure Sane (U : FakeKlass → Prop) : Prop where
  /-- Distinct klasses have distinct addresses. -/
  addr : ∀ k k', U k → U k' → k.addr = k'.addr → k = k'
  /-- Distinct klasses have distinct signatures. -/
  sig : ∀ k k', U k → U k' → k.signature = k'.signature → k = k'
  /-- The klasses are plain. -/
  plain : ∀ k, U k → k.Plain

/-- The field at `q` is a reference with the signature; `pts` are the klasses with their blocks. -/
def Points (pts : List (FakeKlass × ℕ)) (sig : Symbol) (q : FieldPtr) : Prop :=
  ∃ k f, (FakeKlass.inst k, q.1) ∈ pts ∧ k.isEnum = false ∧ k.table[q.2]? = some f ∧ f.isRef = true ∧ f.signature = sig

/-- **The registry of the classes `done`**. The fields of the blocks `pts` may wait. -/
structure Inv (U : FakeKlass → Prop) (done : List FakeKlass) (pts : List (FakeKlass × ℕ)) (r : ClassResolver) : Prop where
  /-- They are klasses of the program. -/
  all : ∀ k ∈ done, U k
  /-- Each is registered once. -/
  nodup : done.Nodup
  /-- Array classes are registered with the classes of their elements. -/
  closed : Closed done
  /-- `info_by_id` has an entry for each. -/
  length : r.infoById.length = done.length
  /-- The entry is its class info. -/
  entries : ∀ (i : ℕ) (k : FakeKlass) (p : ℕ), done[i]? = some k → r.infoById[i]? = some p → r.infos[p]? = some (specInfo done k)
  /-- Each has its own block. -/
  blocks : r.infoById.Nodup
  /-- `info_by_klass` has the same entries. -/
  perm : r.infoByKlass.Perm r.infoById
  /-- It is sorted by the klass. -/
  sorted : SortedBy (klassAt r.infos) r.infoByKlass
  /-- `sig2id` has the ids. -/
  sigs : ∀ sig, r.sig2id.lookup sig = (done.findIdx? fun k => k.signature = sig).map fun i : ℕ => minClassId + (i : ℤ)
  /-- The reference fields with an unknown signature wait. -/
  waits : ∀ sig q, q ∈ waiting r.unresolved sig ↔ Unknown done sig ∧ Points pts sig q

section
variable {U : FakeKlass → Prop} {done : List FakeKlass} {pts : List (FakeKlass × ℕ)} {r : ClassResolver} {k : FakeKlass} {i p : ℕ}

theorem Inv.block (h : Inv U done pts r) (hk : done[i]? = some k) :
    ∃ p, r.infoById[i]? = some p ∧ r.infos[p]? = some (specInfo done k) := by
  obtain ⟨hlt, -⟩ := List.getElem?_eq_some_iff.mp hk
  rw [← h.length] at hlt
  have hp := List.getElem?_eq_getElem hlt
  exact ⟨_, hp, h.entries i k _ hk hp⟩

theorem Inv.entry (h : Inv U done pts r) (hp : p ∈ r.infoById) :
    ∃ (i : ℕ) (k : FakeKlass), done[i]? = some k ∧ r.infoById[i]? = some p ∧ r.infos[p]? = some (specInfo done k) := by
  obtain ⟨i, hi⟩ := List.getElem?_of_mem hp
  obtain ⟨hlt, -⟩ := List.getElem?_eq_some_iff.mp hi
  rw [h.length] at hlt
  have hk := List.getElem?_eq_getElem hlt
  exact ⟨i, _, hk, hi, h.entries i _ p hk hi⟩

theorem klassAt_of_some {infos : List ClassInfo} (hp : infos[p]? = some (specInfo done k)) : klassAt infos p = k.addr := by
  rw [klassAt, hp]
  exact specInfo_klass done k

/-! ### Lookups -/

/-- **By klass.** -/
theorem Inv.getByKlass_iff (h : Inv U done pts r) {a : ℕ} {info : ClassInfo} :
    r.getByKlass a = some info ↔ ∃ k ∈ done, k.addr = a ∧ info = specInfo done k := by
  constructor
  · intro hget
    obtain ⟨p, hp, hinfo⟩ := Option.bind_eq_some_iff.mp hget
    obtain ⟨hmem, hkey⟩ := (findSorted_eq_some h.sorted).mp hp
    obtain ⟨i, k, hk, -, hblock⟩ := h.entry (h.perm.mem_iff.mp hmem)
    rw [hblock] at hinfo
    refine ⟨k, List.mem_of_getElem? hk, ?_, (Option.some.inj hinfo).symm⟩
    rw [← klassAt_of_some hblock]
    exact hkey
  · rintro ⟨k, hk, rfl, rfl⟩
    obtain ⟨i, hi⟩ := List.getElem?_of_mem hk
    obtain ⟨p, hp, hblock⟩ := h.block hi
    refine Option.bind_eq_some_iff.mpr ⟨p, (findSorted_eq_some h.sorted).mpr ⟨?_, klassAt_of_some hblock⟩, hblock⟩
    exact h.perm.mem_iff.mpr (List.mem_of_getElem? hp)

theorem Inv.getByKlass_eq_none (h : Inv U done pts r) {a : ℕ} (ha : ∀ k ∈ done, k.addr ≠ a) : r.getByKlass a = none := by
  cases hget : r.getByKlass a with
  | none => rfl
  | some info =>
    obtain ⟨k, hk, hka, -⟩ := h.getByKlass_iff.mp hget
    exact absurd hka (ha k hk)

/-- **By id.** -/
theorem Inv.getById_eq (h : Inv U done pts r) (hk : done[i]? = some k) :
    r.getById (minClassId + i) = some (specInfo done k) := by
  obtain ⟨p, hp, hblock⟩ := h.block hk
  have hidx : (minClassId + (i : ℤ) - minClassId).toNat = i := by omega
  rw [getById, if_pos (by omega), hidx, hp]
  exact hblock

theorem Inv.getById_eq_none (h : Inv U done pts r) {id : ℤ} (hid : id < minClassId ∨ minClassId + done.length ≤ id) :
    r.getById id = none := by
  rw [getById]
  split_ifs with hle
  · have hout : r.infoById.length ≤ (id - minClassId).toNat := by
      rw [h.length]
      omega
    rw [List.getElem?_eq_none hout]
    rfl
  · rfl

/-- **By signature.** -/
theorem Inv.getBySig_eq (h : Inv U done pts r) (hs : Sane U) (hk : k ∈ done) :
    r.getBySig k.signature = .ok (some (specInfo done k)) := by
  cases hfind : done.findIdx? fun k' => k'.signature = k.signature with
  | none => exact absurd rfl (findIdx?_signature_eq_none.mp hfind k hk)
  | some i =>
    obtain ⟨hlt, hsig, -⟩ := List.findIdx?_eq_some_iff_getElem.mp hfind
    have hget : done[i]? = some k := by
      have heq := hs.sig _ k (h.all _ (List.getElem_mem hlt)) (h.all k hk) (of_decide_eq_true hsig)
      rw [List.getElem?_eq_getElem hlt, heq]
    simp only [getBySig, h.sigs, hfind, Option.map_some, h.getById_eq hget]

theorem Inv.getBySig_of_unknown (h : Inv U done pts r) {sig : Symbol} (hsig : Unknown done sig) :
    r.getBySig sig = .ok none := by
  rw [getBySig, h.sigs, findIdx?_signature_eq_none.mpr hsig]
  rfl

/-- The id that a lookup by signature finds. -/
theorem Inv.getBySig_id (h : Inv U done pts r) (hs : Sane U) (sig : Symbol) :
    (Unknown done sig ∧ r.getBySig sig = .ok none) ∨
      ¬ Unknown done sig ∧ ∃ info, r.getBySig sig = .ok (some info) ∧ info.id = sigId done sig := by
  by_cases hsig : Unknown done sig
  · exact Or.inl ⟨hsig, h.getBySig_of_unknown hsig⟩
  · refine Or.inr ⟨hsig, ?_⟩
    simp only [Unknown, not_forall, not_not] at hsig
    obtain ⟨k, hk, rfl⟩ := hsig
    exact ⟨specInfo done k, h.getBySig_eq hs hk, rfl⟩

/-! ### Blocks that are not registered -/

/-- The registry depends on the registered blocks. -/
theorem Inv.congr (h : Inv U done pts r) {r' : ClassResolver} (h₁ : r'.infoById = r.infoById)
    (h₂ : r'.infoByKlass = r.infoByKlass) (h₃ : r'.sig2id = r.sig2id) (h₄ : r'.unresolved = r.unresolved)
    (hinfos : ∀ p ∈ r.infoById, r'.infos[p]? = r.infos[p]?) : Inv U done pts r' := by
  refine ⟨h.all, h.nodup, h.closed, ?_, fun i k p hk hp => ?_, ?_, ?_, ?_, ?_, ?_⟩
  · rw [h₁]
    exact h.length
  · rw [h₁] at hp
    rw [hinfos p (List.mem_of_getElem? hp)]
    exact h.entries i k p hk hp
  · rw [h₁]
    exact h.blocks
  · rw [h₁, h₂]
    exact h.perm
  · rw [h₂]
    refine h.sorted.congr fun x hx => ?_
    rw [klassAt, klassAt, hinfos x (h.perm.mem_iff.mp hx)]
  · rw [h₃]
    exact h.sigs
  · rw [h₄]
    exact h.waits

theorem Inv.lt_length (h : Inv U done pts r) (hp : p ∈ r.infoById) : p < r.infos.length := by
  obtain ⟨i, k, -, -, hblock⟩ := h.entry hp
  exact (List.getElem?_eq_some_iff.mp hblock).1

/-- A block is allocated. -/
theorem Inv.allocate (h : Inv U done pts r) (info : ClassInfo) : Inv U done pts { r with infos := r.infos ++ [info] } := by
  refine h.congr rfl rfl rfl rfl fun p hp => ?_
  exact List.getElem?_append_left (h.lt_length hp)

/-! ### `register_class_info` -/

theorem klassAt_patchFields (infos : List ClassInfo) (id : ℤ) (ps : List FieldPtr) :
    klassAt (patchFields infos id ps) = klassAt infos := by
  funext q
  rw [klassAt, klassAt, getElem?_patchFields, Option.map_map]
  rfl

theorem klassAt_setId (infos : List ClassInfo) (p : ℕ) (id : ℤ) :
    klassAt (infos.modify p fun i => { i with id }) = klassAt infos := by
  funext q
  rw [klassAt, klassAt, List.getElem?_modify]
  cases infos[q]? with
  | none => rfl
  | some i => by_cases hq : p = q <;> simp [hq]

theorem length_patchFields (infos : List ClassInfo) (id : ℤ) (ps : List FieldPtr) :
    (patchFields infos id ps).length = infos.length := by
  induction ps generalizing infos with
  | nil => rfl
  | cons q ps ih => rw [patchFields, ih, List.length_modify]

/-- The ids do not wrap yet. -/
theorem index2id_eq (h : i < 32748) : index2id i = minClassId + i := by
  have hmin : minClassId = 20 := rfl
  rw [index2id, int16_of_range (by omega) (by omega)]
  omega

/-- No two klasses have one block. -/
theorem Inv.block_unique (h : Inv U done pts r) (hp : p ∉ r.infoById) {k₁ k₂ : FakeKlass} {q : ℕ}
    (h₁ : (k₁, q) ∈ done.zip r.infoById ++ [(k, p)]) (h₂ : (k₂, q) ∈ done.zip r.infoById ++ [(k, p)]) : k₁ = k₂ := by
  have hmem : ∀ k', (k', q) ∈ done.zip r.infoById ++ [(k, p)] →
      (∃ i : ℕ, done[i]? = some k' ∧ r.infoById[i]? = some q) ∨ (k' = k ∧ q = p) := by
    intro k' hk'
    rcases List.mem_append.mp hk' with hz | hz
    · obtain ⟨i, hi⟩ := List.getElem?_of_mem hz
      exact Or.inl ⟨i, List.getElem?_zip_eq_some.mp hi⟩
    · rw [List.mem_singleton, Prod.mk.injEq] at hz
      exact Or.inr hz
  rcases hmem k₁ h₁ with ⟨i, hi, hiq⟩ | ⟨rfl, rfl⟩
  · rcases hmem k₂ h₂ with ⟨j, hj, hjq⟩ | ⟨rfl, rfl⟩
    · obtain ⟨hlt, -⟩ := List.getElem?_eq_some_iff.mp hiq
      rw [(List.getElem?_inj hlt h.blocks).mp (hiq.trans hjq.symm)] at hi
      exact Option.some.inj (hi.symm.trans hj)
    · exact absurd (List.mem_of_getElem? hiq) hp
  · rcases hmem k₂ h₂ with ⟨j, hj, hjq⟩ | ⟨rfl, -⟩
    · exact absurd (List.mem_of_getElem? hjq) hp
    · rfl

/-- The fields of a block after the fields that wait for `k` are patched. -/
theorem Inv.patched (h : Inv U done (done.zip r.infoById ++ [(k, p)]) r) (hnew : Unknown done k.signature)
    (hp : p ∉ r.infoById) (helem : ∀ a e, k = .array a → a.elem = some e → e ∈ done) {k' : FakeKlass} {q : ℕ}
    (hmem : (k', q) ∈ done.zip r.infoById ++ [(k, p)]) :
    ((specFields done k').mapIdx fun j f =>
      if (q, j) ∈ waiting r.unresolved k.signature then { f with id := minClassId + done.length } else f) =
      specFields (done ++ [k]) k' := by
  have hpoints : ∀ j, (q, j) ∈ waiting r.unresolved k.signature ↔
      ∃ c f, k' = .inst c ∧ c.isEnum = false ∧ c.table[j]? = some f ∧ f.isRef = true ∧ f.signature = k.signature := by
    intro j
    rw [h.waits]
    constructor
    · rintro ⟨-, c, f, hc, hrest⟩
      exact ⟨c, f, h.block_unique hp hmem hc, hrest⟩
    · rintro ⟨c, f, rfl, hrest⟩
      exact ⟨hnew, c, f, hmem, hrest⟩
  cases k' with
  | array a =>
    have hid : (a.elem.elim (-1) fun e => sigId (done ++ [k]) e.signature) =
        a.elem.elim (-1) fun e => sigId done e.signature := by
      cases he : a.elem with
      | none => rfl
      | some e =>
        have hin : e ∈ done := by
          rcases List.mem_append.mp hmem with hz | hz
          · exact h.closed _ (List.of_mem_zip hz).1 e (FakeArrayKlass.elem_mem_closure he)
          · rw [List.mem_singleton, Prod.mk.injEq] at hz
            exact helem a e hz.1.symm he
        exact sigId_append_left [k] hin
    have hnot : (q, 0) ∉ waiting r.unresolved k.signature := by
      rw [hpoints]
      rintro ⟨c, f, hc, -⟩
      cases hc
    simp [specFields, hid, hnot]
  | inst c =>
    simp only [specFields]
    cases hc : c.isEnum with
    | true => rfl
    | false =>
      simp only [Bool.false_eq_true, if_false]
      refine List.ext_getElem? fun j => ?_
      rw [List.getElem?_mapIdx, List.getElem?_map, List.getElem?_map, Option.map_map]
      cases hf : c.table[j]? with
      | none => rfl
      | some f =>
        have hwaits : (q, j) ∈ waiting r.unresolved k.signature ↔ f.isRef = true ∧ f.signature = k.signature := by
          rw [hpoints]
          constructor
          · rintro ⟨c', f', heq, -, hf', hrest⟩
            cases heq
            rw [hf] at hf'
            cases hf'
            exact hrest
          · intro hrest
            exact ⟨c, f, rfl, hc, hf, hrest⟩
        simp only [Option.map_some, Function.comp_apply, hwaits, Option.some.injEq]
        by_cases href : f.isRef = true
        · by_cases hsig : f.signature = k.signature
          · rw [if_pos ⟨href, hsig⟩]
            simp [fieldEntry, href, hsig, sigId_concat hnew]
          · rw [if_neg fun hand => hsig hand.2]
            simp [fieldEntry, href, sigId_concat_of_ne (Ne.symm hsig)]
        · rw [if_neg fun hand => href hand.1]
          simp [fieldEntry, href]

/-- The resolver after the block `p` of a class with the signature is registered. -/
def registered (r : ClassResolver) (p : ℕ) (sig : Symbol) (id : ℤ) : ClassResolver :=
  { infos := patchFields (r.infos.modify p fun i => { i with id }) id (waiting r.unresolved sig)
    infoById := r.infoById ++ [p]
    infoByKlass := insertSorted (klassAt r.infos) p r.infoByKlass
    sig2id := r.sig2id ++ [(sig, id)]
    unresolved := r.unresolved.filter (·.1 != sig) }

theorem registerClassInfo_eq {info : ClassInfo} {id : ℤ} (hinfo : r.infos[p]? = some info)
    (hid : index2id r.infoById.length = id) (hsig : r.sig2id.lookup info.signature = none) :
    r.registerClassInfo p = .ok (r.registered p info.signature id, id) := by
  subst hid
  rw [registerClassInfo, hinfo]
  simp only [klassAt_setId, hsig, Option.isSome_none, Bool.false_eq_true, if_false]
  rfl

theorem klassAt_registered (sig : Symbol) (id : ℤ) : klassAt (r.registered p sig id).infos = klassAt r.infos :=
  (klassAt_patchFields ..).trans (klassAt_setId ..)

/-- The blocks after `p` is registered. -/
theorem getElem?_registered (sig : Symbol) (id : ℤ) (q : ℕ) :
    (r.registered p sig id).infos[q]? = r.infos[q]?.map fun i =>
      { i with
        id := if p = q then id else i.id
        fields := i.fields.mapIdx fun j f => if (q, j) ∈ waiting r.unresolved sig then { f with id } else f } := by
  rw [registered, getElem?_patchFields, List.getElem?_modify]
  cases r.infos[q]? with
  | none => rfl
  | some i => by_cases hq : p = q <;> simp [hq]

/-- What registering leaves alone: the blocks that are not registered, but for one. -/
structure Frame (r r' : ClassResolver) (p : ℕ) : Prop where
  /-- Blocks are not freed. -/
  length : r.infos.length ≤ r'.infos.length
  /-- Another block that is not registered stays so. -/
  unregistered : ∀ q < r.infos.length, q ∉ r.infoById → q ≠ p → q ∉ r'.infoById
  /-- It is not written. -/
  infos : ∀ q < r.infos.length, q ∉ r.infoById → q ≠ p → r'.infos[q]? = r.infos[q]?

/-- A block that is not registered has no field that waits. -/
theorem Inv.not_waiting (h : Inv U done (done.zip r.infoById ++ [(k, p)]) r) {q : ℕ} (hq : q ∉ r.infoById) (hqp : q ≠ p)
    (sig : Symbol) (j : ℕ) : (q, j) ∉ waiting r.unresolved sig := by
  intro hmem
  obtain ⟨-, c, f, hc, -⟩ := (h.waits sig (q, j)).mp hmem
  rcases List.mem_append.mp hc with hz | hz
  · exact hq (List.of_mem_zip hz).2
  · rw [List.mem_singleton, Prod.mk.injEq] at hz
    exact hqp hz.2

theorem Inv.frame (h : Inv U done (done.zip r.infoById ++ [(k, p)]) r) (sig : Symbol) (id : ℤ) :
    Frame r (r.registered p sig id) p := by
  refine ⟨?_, fun q _ hq hqp => ?_, fun q _ hq hqp => ?_⟩
  · rw [registered, length_patchFields, List.length_modify]
  · rw [registered, List.mem_append, List.mem_singleton]
    exact fun hmem => hmem.elim hq hqp
  · rw [getElem?_registered]
    cases r.infos[q]? with
    | none => rfl
    | some i => simp [Ne.symm hqp, h.not_waiting hq hqp, List.mapIdx_eq_zipIdx_map]

/-- A registered block, and the new one, hold what they should. -/
theorem Inv.registered_block (h : Inv U done (done.zip r.infoById ++ [(k, p)]) r) (hnew : Unknown done k.signature)
    (hp : p ∉ r.infoById) (helem : ∀ a e, k = .array a → a.elem = some e → e ∈ done) {k' : FakeKlass} {q : ℕ}
    (hmem : (k', q) ∈ done.zip r.infoById ++ [(k, p)]) (hblock : r.infos[q]? = some (specInfo done k')) :
    (r.registered p k.signature (minClassId + done.length)).infos[q]? = some (specInfo (done ++ [k]) k') := by
  rw [getElem?_registered, hblock, Option.map_some]
  have hfields := h.patched hnew hp helem hmem
  have hid : (if p = q then minClassId + (done.length : ℤ) else sigId done k'.signature) = sigId (done ++ [k]) k'.signature := by
    rcases List.mem_append.mp hmem with hz | hz
    · obtain ⟨hk', hq⟩ := List.of_mem_zip hz
      have hne : p ≠ q := by
        rintro rfl
        exact hp hq
      rw [if_neg hne, sigId_append_left [k] hk']
    · rw [List.mem_singleton, Prod.mk.injEq] at hz
      obtain ⟨rfl, rfl⟩ := hz
      rw [if_pos rfl, sigId_concat hnew, if_pos rfl]
  simp only [specInfo, hfields, hid]

/-- **`register_class_info`**, on a block that is filled in. -/
theorem Inv.register (h : Inv U done (done.zip r.infoById ++ [(k, p)]) r) (hs : Sane U) (hU : U k) (hk : k ∉ done)
    (hclosed : ∀ c ∈ k.closure, c ∈ done ++ [k]) (helem : ∀ a e, k = .array a → a.elem = some e → e ∈ done)
    (hp : p ∉ r.infoById) (hblock : r.infos[p]? = some (specInfo done k)) (hcount : done.length < 32748) :
    ∃ r', r.registerClassInfo p = .ok (r', minClassId + done.length) ∧
      Inv U (done ++ [k]) ((done ++ [k]).zip r'.infoById) r' ∧ Frame r r' p := by
  have hnew : Unknown done k.signature := by
    intro k' hk' hsig
    rw [hs.sig k' k (h.all k' hk') hU hsig] at hk'
    exact hk hk'
  have hid : index2id r.infoById.length = minClassId + done.length := by
    rw [h.length]
    exact index2id_eq hcount
  have hlookup : r.sig2id.lookup (specInfo done k).signature = none := by
    rw [specInfo_signature, h.sigs, findIdx?_signature_eq_none.mpr hnew]
    rfl
  have hreg := registerClassInfo_eq hblock hid hlookup
  rw [specInfo_signature] at hreg
  have hzip : (done ++ [k]).zip (r.infoById ++ [p]) = done.zip r.infoById ++ [(k, p)] := by
    rw [List.zip_append h.length.symm]
    rfl
  refine ⟨_, hreg, ?_, h.frame ..⟩
  refine ⟨?_, ?_, ?_, ?_, ?_, ?_, ?_, ?_, ?_, ?_⟩
  · intro k' hk'
    rcases List.mem_append.mp hk' with hk' | hk'
    · exact h.all k' hk'
    · rw [List.mem_singleton.mp hk']
      exact hU
  · rw [← List.concat_eq_append]
    exact h.nodup.concat hk
  · intro k' hk' c hc
    rcases List.mem_append.mp hk' with hk' | hk'
    · exact List.mem_append_left _ (h.closed k' hk' c hc)
    · rw [List.mem_singleton.mp hk'] at hc
      exact hclosed c hc
  · show (r.infoById ++ [p]).length = (done ++ [k]).length
    rw [List.length_append, List.length_append, h.length]
    rfl
  · intro i k' q hk' hq
    have hmem : (k', q) ∈ done.zip r.infoById ++ [(k, p)] := by
      rw [← hzip]
      exact List.mem_of_getElem? (List.getElem?_zip_eq_some.mpr ⟨hk', hq⟩)
    refine h.registered_block hnew hp helem hmem ?_
    rcases List.mem_append.mp hmem with hz | hz
    · obtain ⟨j, hj⟩ := List.getElem?_of_mem hz
      obtain ⟨hjk, hjq⟩ := List.getElem?_zip_eq_some.mp hj
      exact h.entries j k' q hjk hjq
    · rw [List.mem_singleton, Prod.mk.injEq] at hz
      rw [hz.1, hz.2]
      exact hblock
  · show (r.infoById ++ [p]).Nodup
    rw [← List.concat_eq_append]
    exact h.blocks.concat hp
  · show (insertSorted (klassAt r.infos) p r.infoByKlass).Perm (r.infoById ++ [p])
    refine (insertSorted_perm ..).trans ((h.perm.cons p).trans ?_)
    exact (List.perm_append_singleton p r.infoById).symm
  · rw [klassAt_registered]
    refine insertSorted_sorted h.sorted fun q hq => ?_
    obtain ⟨j, k', hk', -, hq'⟩ := h.entry (h.perm.mem_iff.mp hq)
    rw [klassAt_of_some hq', klassAt_of_some hblock]
    intro haddr
    have hmem := List.mem_of_getElem? hk'
    rw [hs.addr k' k (h.all k' hmem) hU haddr] at hmem
    exact hk hmem
  · intro sig
    show (r.sig2id ++ [(k.signature, minClassId + (done.length : ℤ))]).lookup sig = _
    rw [List.lookup_append, h.sigs, List.findIdx?_append]
    cases hfind : done.findIdx? fun k' => k'.signature = sig with
    | some i => rfl
    | none =>
      by_cases hsig : k.signature = sig
      · simp [hsig]
      · simp [List.lookup_cons, beq_false_of_ne (Ne.symm hsig), hsig]
  · intro sig q
    show q ∈ waiting (r.unresolved.filter (·.1 != k.signature)) sig ↔ _ ∧ Points ((done ++ [k]).zip (r.infoById ++ [p])) sig q
    rw [waiting_erase, hzip]
    by_cases hsig : k.signature = sig
    · rw [if_pos hsig]
      refine ⟨fun hnil => (by cases hnil), fun hand => ?_⟩
      exact absurd hsig (hand.1 k (List.mem_append_right _ (List.mem_singleton_self k)))
    · rw [if_neg hsig, h.waits]
      refine and_congr_left fun _ => ⟨fun hall k' hk' => ?_, fun hall k' hk' => hall k' (List.mem_append_left _ hk')⟩
      rcases List.mem_append.mp hk' with hk' | hk'
      · exact hall k' hk'
      · rw [List.mem_singleton.mp hk']
        exact hsig

end

end ClassResolver

end DShuffle.Serde
