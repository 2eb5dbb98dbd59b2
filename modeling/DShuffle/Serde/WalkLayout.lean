import DShuffle.Serde.RegistryLayout

/-!
# The layout of an instance class

`walk_instance_klass` makes the class info of an instance klass: it counts the field
records, collects those that are neither static nor injected by the JVM, takes the
least offset for the size of the header, and fills in an entry for each field in the
order of the offsets. The number of entries comes from the counts, in `uint8_t`, and
the header starts as 255.

## What is proved

* `resolveFields_map`, `resolveFields_ok` — which entries the loop fills in.
* `walkLayout_iff` — exactly when the class info is well formed: not for a klass
  without instance fields whose objects are smaller than 255 bytes, nor for one whose
  injected fields are counted and not collected.

## Honest scope

The klass is as HotSpot lays it out (`HotSpot`): that is what the JVM promises, and not
checked. The ids in the entries are left to the registry.
-/

namespace DShuffle.Serde

open Base

namespace FakeInstanceKlass

/-- **What HotSpot promises about a klass.** -/
structure HotSpot (k : FakeInstanceKlass) : Prop where
  /-- Six slots for each record, and one for each generic signature. -/
  slots : k.fieldArrayLength = 6 * k.fields.length + k.fields.countP (·.hasGenericSignature)
  /-- The signature of an instance field names a primitive or a reference type. -/
  typed : ∀ f ∈ ClassResolver.instanceFields k.fields, ∃ t, f.type = .ok t ∧ (t.isPrimitive = true ∨ t.isReference = true)
  /-- Instance fields lie in the object. -/
  inside : ∀ f ∈ ClassResolver.instanceFields k.fields, f.offset + f.typeD.size ≤ k.layoutHelper / 2 * 2
  /-- They are disjoint. -/
  apart : (ClassResolver.instanceFields k.fields).Pairwise fun f g =>
    f.offset + f.typeD.size ≤ g.offset ∨ g.offset + g.typeD.size ≤ f.offset

/-- `obj_size`, a `uint16_t`. -/
def objSize (k : FakeInstanceKlass) : ℕ := k.layoutHelper / 2 * 2 % 2 ^ 16

/-- **A class info that is well formed** for the klass. -/
structure WellFormed (k : FakeInstanceKlass) (info : ClassInfo) : Prop where
  /-- The header is no larger than the object. -/
  header : info.headerSize ≤ info.objSize
  /-- There is one entry for each instance field that is not injected, and no other. -/
  entries : (info.fields.map fun e => (e.offset + info.headerSize, e.type, e.flag, e.jFieldId)).Perm
    ((ClassResolver.instanceFields k.fields).map fun f => (f.offset, f.typeD, f.accessFlags, f.jFieldId))
  /-- They are sorted by their offsets, which are distinct. -/
  sorted : info.fields.Pairwise fun e e' => e.offset < e'.offset
  /-- They lie in the body. -/
  inside : ∀ e ∈ info.fields, e.offset + e.type.size ≤ info.objSize - info.headerSize

/-- **The condition**: the signature fits its place; the number of records that are not static, in `uint8_t`, is that of
the instance fields that are not injected; these are among the first records that the two counts add up to; they lie in an
object of `obj_size` bytes; and if there are none, the object has 255 bytes. -/
structure Fits (k : FakeInstanceKlass) : Prop where
  /-- The signature fits its place. -/
  short : k.name.length + 3 ≤ maxSignatureLength
  /-- No injected field is counted, and the count does not wrap. -/
  count : (k.fields.length - k.statics) % 256 = (ClassResolver.instanceFields k.fields).length
  /-- The walk sees all the instance fields. -/
  front : ClassResolver.instanceFields (k.fields.take ((ClassResolver.instanceFields k.fields).length + k.statics % 256)) =
    ClassResolver.instanceFields k.fields
  /-- `obj_size` does not wrap around a field. -/
  ends : ∀ f ∈ ClassResolver.instanceFields k.fields, f.offset + f.typeD.size ≤ k.objSize
  /-- There is room for the header of a klass without instance fields. -/
  empty : ClassResolver.instanceFields k.fields = [] → 255 ≤ k.objSize

end FakeInstanceKlass

namespace ClassResolver

/-- Every id that the resolver has for a signature finds a class info. -/
def Resolves (r : ClassResolver) : Prop := ∀ sig id, r.sig2id.lookup sig = some id → (r.getById id).isSome

section
variable {r r' : ClassResolver} {k : FakeInstanceKlass} {p header n i : ℕ} {fs : List FakeFieldInfo} {u u' : Unresolved}
  {es : List FieldInfo}

/-! ### The entries -/

/-- What an entry says about its field, its id apart. -/
def described (e : FieldInfo) : ℕ × BasicType × ℕ × ℕ := (e.offset, e.type, e.flag, e.jFieldId)

theorem described_id (f : FieldInfo) (id : ℤ) : described { f with id } = described f := rfl

/-- What it is to say. -/
def describe (header : ℕ) (f : FakeFieldInfo) : ℕ × BasicType × ℕ × ℕ :=
  (u32 (f.offset + 2 ^ 32 - header) % 2 ^ 16, f.typeD, f.accessFlags, f.jFieldId)

/-- The loop fills in an entry for each of the first fields, and there are as many. -/
theorem resolveFields_map (h : resolveFields r p header n i fs u = .ok (es, u')) :
    n ≤ fs.length ∧ es.map described = (fs.take n).map (describe header) := by
  induction n generalizing fs i u es with
  | zero =>
    cases h
    simp
  | succ n ih =>
    cases fs with
    | nil => cases h
    | cons f fs =>
      rw [resolveFields] at h
      obtain ⟨t, ht, h⟩ := bind_eq_ok h
      have hd : f.typeD = t := by rw [FakeFieldInfo.typeD, ht]
      -- whatever the id, the rest of the entry is the same, and the loop goes on
      have hcons : ∀ (e : FieldInfo) (j : ℕ) (v : Unresolved) (es' : List FieldInfo), described e = describe header f →
          resolveFields r p header n j fs v = .ok (es', u') → e :: es' = es →
          n + 1 ≤ (f :: fs).length ∧ es.map described = ((f :: fs).take (n + 1)).map (describe header) := by
        rintro e j v es' he hrest rfl
        obtain ⟨hle, hmap⟩ := ih hrest
        refine ⟨Nat.succ_le_succ hle, ?_⟩
        rw [List.map_cons, List.take_succ_cons, List.map_cons, he, hmap]
      have hentry : describe header f = (u32 (f.offset + 2 ^ 32 - header) % 2 ^ 16, t, f.accessFlags, f.jFieldId) := by
        rw [describe, hd]
      dsimp only at h
      split_ifs at h with href hprim
      · obtain ⟨found, -, h⟩ := bind_eq_ok h
        cases found with
        | none =>
          obtain ⟨⟨es', v⟩, hrest, h⟩ := bind_eq_ok h
          cases h
          refine hcons _ _ _ _ ?_ hrest rfl
          exact hentry.symm
        | some info =>
          obtain ⟨⟨es', v⟩, hrest, h⟩ := bind_eq_ok h
          cases h
          refine hcons _ _ _ _ ?_ hrest rfl
          exact hentry.symm
      · obtain ⟨⟨es', v⟩, hrest, h⟩ := bind_eq_ok h
        cases h
        refine hcons _ _ _ _ ?_ hrest rfl
        exact hentry.symm

/-- The loop succeeds, if there are enough fields and they have types. -/
theorem resolveFields_ok (hr : r.Resolves) (hlen : n ≤ fs.length)
    (htyped : ∀ f ∈ fs, ∃ t, f.type = .ok t ∧ (t.isPrimitive = true ∨ t.isReference = true)) (u : Unresolved) :
    ∃ es u', resolveFields r p header n i fs u = .ok (es, u') := by
  induction n generalizing fs i u with
  | zero => exact ⟨[], u, rfl⟩
  | succ n ih =>
    cases fs with
    | nil => cases hlen
    | cons f fs =>
      obtain ⟨t, ht, htype⟩ := htyped f (List.mem_cons_self ..)
      have hrest : ∀ (j : ℕ) (v : Unresolved), ∃ es u', resolveFields r p header n j fs v = .ok (es, u') := fun j v =>
        ih (Nat.le_of_succ_le_succ hlen) (fun g hg => htyped g (List.mem_cons_of_mem _ hg)) v
      cases href : t.isReference with
      | true =>
        cases hget : r.sig2id.lookup f.signature with
        | none =>
          obtain ⟨es, u', hes⟩ := hrest (i + 1) (pushUnresolved f.signature (p, i) u)
          simp only [resolveFields, ht, href, getBySig, hget, hes, bind, Except.bind, if_true, pure, Except.pure]
          exact ⟨_, _, rfl⟩
        | some id =>
          obtain ⟨info, hinfo⟩ := Option.isSome_iff_exists.mp (hr f.signature id hget)
          obtain ⟨es, u', hes⟩ := hrest (i + 1) u
          simp only [resolveFields, ht, href, getBySig, hget, hinfo, hes, bind, Except.bind, if_true, pure, Except.pure]
          exact ⟨_, _, rfl⟩
      | false =>
        have hprim : t.isPrimitive = true := htype.resolve_right fun h => by rw [href] at h; cases h
        obtain ⟨es, u', hes⟩ := hrest (i + 1) u
        simp only [resolveFields, ht, href, hprim, hes, bind, Except.bind, Bool.false_eq_true, if_false, if_true, pure,
          Except.pure]
        exact ⟨_, _, rfl⟩

/-! ### The class info -/

/-- The number of entries: the records that are not static, in `uint8_t`. -/
def entryCount (k : FakeInstanceKlass) : ℕ := (k.fields.length - k.statics) % 256

/-- The instance fields that the walk collects. -/
def collected (k : FakeInstanceKlass) : List FakeFieldInfo := instanceFields (k.fields.take (entryCount k + k.statics % 256))

/-- The class info before its fields are resolved. -/
def draft (k : FakeInstanceKlass) : ClassInfo :=
  { klass := k.addr, id := unregisteredClassId, enumRefArrOff := 0, objSize := k.objSize, headerSize := 255
    nStaticField := k.statics % 256, dim := 0, signature := k.signature, fields := List.replicate (entryCount k) blankField
    enums := [] }

theorem fromInstanceKlass_of_slots (hk : k.HotSpot) :
    fromInstanceKlass k false = if maxSignatureLength < k.name.length + 3 then .error .overrun else .ok (draft k) := by
  have hle : k.statics ≤ k.fields.length := List.countP_le_length
  have hloop := fieldsCountLoop_eq k.fields 0 0
  rw [Nat.zero_add, Nat.zero_add, ← hk.slots] at hloop
  have hcount : k.fieldsCount = .ok (k.fields.length % 256, k.statics % 256) := by
    rw [FakeInstanceKlass.fieldsCount, hloop]
    rfl
  have hentries : (k.fields.length % 256 + 256 - k.statics % 256) % 256 = entryCount k := by
    unfold entryCount
    omega
  rw [fromInstanceKlass, hcount]
  simp only [bind, Except.bind, hentries, pure, Except.pure, Bool.false_eq_true, if_false]
  split_ifs with hlong
  · rfl
  · rfl

theorem infos_registerClassInfo {info : ClassInfo} (hp : r.infos[p]? = some info) :
    ∃ r' id, r.registerClassInfo p = .ok (r', id) ∧ ∃ info', r'.infos[p]? = some info' ∧ info'.headerSize = info.headerSize ∧
      info'.objSize = info.objSize ∧ info'.fields.map described = info.fields.map described := by
  simp only [registerClassInfo, hp]
  refine ⟨_, _, rfl, ?_⟩
  dsimp only
  rw [getElem?_patchFields, List.getElem?_modify, hp]
  simp only [if_true, Option.map_eq_map, Option.map_some]
  refine ⟨_, rfl, rfl, rfl, ?_⟩
  dsimp only
  refine List.ext_getElem? fun j => ?_
  rw [List.getElem?_map, List.getElem?_map, List.getElem?_mapIdx, Option.map_map]
  cases info.fields[j]? with
  | none => rfl
  | some f =>
    simp only [Option.map_some, Function.comp, Option.some.injEq]
    split_ifs with hwait
    · exact described_id f _
    · rfl

/-- **What the walk makes of a klass that is not registered.** -/
theorem walkInstanceKlass_iff (hk : k.HotSpot) (hnew : r.getByKlass k.addr = none) {C : ClassInfo → Prop}
    (hC : ∀ i i', i'.headerSize = i.headerSize → i'.objSize = i.objSize → i'.fields.map described = i.fields.map described →
      (C i' ↔ C i)) :
    (∃ r' id info, r.walkInstanceKlass k = .ok (r', id) ∧ r'.infos[r.infos.length]? = some info ∧ C info) ↔
      k.name.length + 3 ≤ maxSignatureLength ∧ ∃ es u, resolveFields r r.infos.length (headerOf (collected k)) (entryCount k) 0
        ((collected k).insertionSort fun f g => f.offset ≤ g.offset) r.unresolved = .ok (es, u) ∧
        C { draft k with headerSize := headerOf (collected k), fields := es } := by
  have hle : k.statics ≤ k.fields.length := List.countP_le_length
  have hfield : entryCount k + k.statics % 256 ≤ k.fields.length := by
    unfold entryCount
    omega
  have hwalk : ∀ (hshort : ¬ maxSignatureLength < k.name.length + 3), r.walkInstanceKlass k =
      (resolveFields r r.infos.length (headerOf (collected k)) (entryCount k) 0
        ((collected k).insertionSort fun f g => f.offset ≤ g.offset) r.unresolved >>= fun e =>
          registerClassInfo { r with infos := r.infos ++ [{ draft k with headerSize := headerOf (collected k), fields := e.1 }],
                                     unresolved := e.2 } r.infos.length) := by
    intro hshort
    have hlen : (draft k).nNonStaticField = entryCount k := List.length_replicate
    rw [walkInstanceKlass, hnew]
    dsimp only
    have hentries : ¬ k.fields.length < entryCount k + (draft k).nStaticField := Nat.not_lt.mpr hfield
    rw [fromInstanceKlass_of_slots hk, if_neg hshort, ok_bind, hlen, if_neg hentries]
    rfl
  constructor
  · rintro ⟨r', id, info, hok, hinfo, hc⟩
    by_cases hlong : maxSignatureLength < k.name.length + 3
    · rw [walkInstanceKlass, hnew] at hok
      dsimp only at hok
      rw [fromInstanceKlass_of_slots hk, if_pos hlong] at hok
      cases hok
    · rw [hwalk hlong] at hok
      obtain ⟨⟨es, u⟩, hes, hreg⟩ := bind_eq_ok hok
      refine ⟨Nat.not_lt.mp hlong, es, u, hes, ?_⟩
      obtain ⟨r₁, id₁, hreg₁, info₁, hinfo₁, hh, ho, hf⟩ := infos_registerClassInfo (p := r.infos.length)
        (r := { r with infos := r.infos ++ [{ draft k with headerSize := headerOf (collected k), fields := es }], unresolved := u })
        (List.getElem?_concat_length ..)
      rw [hreg] at hreg₁
      cases hreg₁
      rw [hinfo] at hinfo₁
      cases hinfo₁
      exact (hC _ _ hh ho hf).mp hc
  · rintro ⟨hshort, es, u, hes, hc⟩
    obtain ⟨r₁, id₁, hreg, info₁, hinfo, hh, ho, hf⟩ := infos_registerClassInfo (p := r.infos.length)
      (r := { r with infos := r.infos ++ [{ draft k with headerSize := headerOf (collected k), fields := es }], unresolved := u })
      (List.getElem?_concat_length ..)
    refine ⟨r₁, id₁, info₁, ?_, hinfo, (hC _ _ hh ho hf).mpr hc⟩
    rw [hwalk (Nat.not_lt.mpr hshort), hes, ok_bind]
    exact hreg

/-! ### Well formed class infos -/

/-- A class info is well formed by its sizes and what its entries say. -/
theorem wellFormed_iff {info : ClassInfo} : k.WellFormed info ↔ info.headerSize ≤ info.objSize ∧
    ((info.fields.map described).map fun d => (d.1 + info.headerSize, d.2)).Perm
      ((instanceFields k.fields).map fun f => (f.offset, f.typeD, f.accessFlags, f.jFieldId)) ∧
    ((info.fields.map described).Pairwise fun d d' => d.1 < d'.1) ∧
    ∀ d ∈ info.fields.map described, d.1 + d.2.1.size ≤ info.objSize - info.headerSize := by
  rw [List.map_map, List.pairwise_map, List.forall_mem_map]
  exact ⟨fun h => ⟨h.header, h.entries, h.sorted, h.inside⟩, fun h => ⟨h.1, h.2.1, h.2.2.1, h.2.2.2⟩⟩

/-- The sizes of types are positive. -/
theorem size_pos_of_typed {f : FakeFieldInfo} (h : ∃ t, f.type = .ok t ∧ (t.isPrimitive = true ∨ t.isReference = true)) :
    0 < f.typeD.size := by
  obtain ⟨t, ht, htype⟩ := h
  rw [FakeFieldInfo.typeD, ht]
  rcases htype with hp | href
  · exact BasicType.size_pos_of_isPrimitive hp
  · show 0 < t.size
    rw [BasicType.size_of_isReference href]
    decide

/-- The instance fields have distinct offsets, so the table is strictly sorted. -/
theorem table_sorted (hk : k.HotSpot) : k.table.Pairwise fun f g => f.offset < g.offset := by
  have htotal : Std.Total fun f g : FakeFieldInfo => f.offset ≤ g.offset := ⟨fun f g => Nat.le_total ..⟩
  have htrans : IsTrans FakeFieldInfo fun f g => f.offset ≤ g.offset := ⟨fun f g h => Nat.le_trans⟩
  have hle : k.table.Pairwise fun f g => f.offset ≤ g.offset := List.pairwise_insertionSort _ _
  have hperm : k.table.Perm (instanceFields k.fields) := List.perm_insertionSort _ _
  have hapart := hperm.symm.pairwise hk.apart (fun {f g} h => h.symm)
  refine (hle.and hapart).imp_of_mem fun {f g} hf hg ⟨hfg, hdis⟩ => ?_
  have hfpos := size_pos_of_typed (hk.typed f (mem_table.mp hf))
  have hgpos := size_pos_of_typed (hk.typed g (mem_table.mp hg))
  omega

/-- The entries of a klass that fits. -/
theorem describe_of_fits (hf : k.Fits) {f : FakeFieldInfo} (hmem : f ∈ k.table) :
    describe k.header f = (f.offset - k.header, f.typeD, f.accessFlags, f.jFieldId) ∧ k.header ≤ f.offset := by
  have hle : k.header ≤ f.offset := headerOf_le (mem_table.mp hmem)
  have hend := hf.ends f (mem_table.mp hmem)
  have hsmall : k.objSize < 2 ^ 16 := Nat.mod_lt _ (by decide)
  refine ⟨?_, hle⟩
  rw [describe]
  congr 1
  unfold u32
  omega

theorem wellFormed_of_fits (hk : k.HotSpot) (hf : k.Fits) (hes : es.map described = k.table.map (describe k.header)) :
    k.WellFormed { draft k with headerSize := k.header, fields := es } := by
  rw [wellFormed_iff]
  dsimp only
  rw [hes]
  have hdesc : k.table.map (describe k.header) =
      k.table.map fun f => (f.offset - k.header, f.typeD, f.accessFlags, f.jFieldId) :=
    List.map_congr_left fun f hmem => (describe_of_fits hf hmem).1
  rw [hdesc, List.map_map, List.pairwise_map, List.forall_mem_map]
  have hperm : k.table.Perm (instanceFields k.fields) := List.perm_insertionSort _ _
  refine ⟨?_, ?_, ?_, fun f hmem => ?_⟩
  · show k.header ≤ k.objSize
    cases hdecl : instanceFields k.fields with
    | nil =>
      have hbody := hf.empty hdecl
      rw [FakeInstanceKlass.header, hdecl]
      exact hbody
    | cons f fs =>
      have hmem : f ∈ instanceFields k.fields := by
        rw [hdecl]
        exact List.mem_cons_self ..
      have hle : k.header ≤ f.offset := headerOf_le hmem
      have hend := hf.ends f hmem
      omega
  · refine List.Perm.trans (List.Perm.of_eq ?_) (hperm.map _)
    refine List.map_congr_left fun f hmem => ?_
    simp only [Function.comp]
    rw [Nat.sub_add_cancel (describe_of_fits hf hmem).2]
  · refine (table_sorted hk).imp_of_mem fun {f g} hfm hgm hlt => ?_
    have hfle := (describe_of_fits hf hfm).2
    show f.offset - k.header < g.offset - k.header
    omega
  · have hle := (describe_of_fits hf hmem).2
    have hend := hf.ends f (mem_table.mp hmem)
    show f.offset - k.header + f.typeD.size ≤ k.objSize - k.header
    omega

/-- The fields in front are among all the fields. -/
theorem collected_sublist : (collected k).Sublist (instanceFields k.fields) := (List.take_sublist _ _).filter _

theorem fits_of_wellFormed (hshort : k.name.length + 3 ≤ maxSignatureLength)
    (hes : resolveFields r p (headerOf (collected k)) (entryCount k) i
      ((collected k).insertionSort fun f g => f.offset ≤ g.offset) u = .ok (es, u'))
    (hw : k.WellFormed { draft k with headerSize := headerOf (collected k), fields := es }) : k.Fits := by
  obtain ⟨hlen, hmap⟩ := resolveFields_map hes
  rw [List.length_insertionSort] at hlen
  have hcount : es.length = entryCount k := by
    have hl := congrArg List.length hmap
    rw [List.length_map, List.length_map, List.length_take, List.length_insertionSort] at hl
    omega
  have hdecl : es.length = (instanceFields k.fields).length := by
    have hl := hw.entries.length_eq
    rwa [List.length_map, List.length_map] at hl
  have hall : collected k = instanceFields k.fields := collected_sublist.eq_of_length_le (by omega)
  have hheader : headerOf (collected k) ≤ k.objSize := hw.header
  refine ⟨hshort, ?_, ?_, fun f hf => ?_, fun hnil => ?_⟩
  · exact hcount.symm.trans hdecl
  · rw [← hdecl, hcount]
    exact hall
  · have hmem : (f.offset, f.typeD, f.accessFlags, f.jFieldId) ∈
        (instanceFields k.fields).map fun f => (f.offset, f.typeD, f.accessFlags, f.jFieldId) := List.mem_map_of_mem hf
    obtain ⟨e, he, heq⟩ := List.mem_map.mp (hw.entries.mem_iff.mpr hmem)
    have hin : e.offset + e.type.size ≤ k.objSize - headerOf (collected k) := hw.inside e he
    simp only [Prod.mk.injEq] at heq
    obtain ⟨hoff, htype, -⟩ := heq
    rw [htype] at hin
    omega
  · rw [hall, hnil] at hheader
    exact hheader

/-- **Exactly when the walk makes a well formed class info**: for every klass that HotSpot lays out, with any number of
fields of each kind, and every resolver that does not have it yet. Every registry resolves its signatures
(`Inv.resolves`). `Fits.short` is in the condition only because an overrun of the block is a fault here: the code checks
the length of the signature with an `assert`, and then copies it. -/
theorem walkLayout_iff (hk : k.HotSpot) (hr : r.Resolves) (hnew : r.getByKlass k.addr = none) :
    (∃ r' id info, r.walkInstanceKlass k = .ok (r', id) ∧ r'.infos[r.infos.length]? = some info ∧ k.WellFormed info) ↔
      k.Fits := by
  have hcongr : ∀ i i' : ClassInfo, i'.headerSize = i.headerSize → i'.objSize = i.objSize →
      i'.fields.map described = i.fields.map described → (k.WellFormed i' ↔ k.WellFormed i) := by
    intro i i' hh ho hf
    rw [wellFormed_iff, wellFormed_iff, hh, ho, hf]
  rw [walkInstanceKlass_iff hk hnew hcongr]
  constructor
  · rintro ⟨hshort, es, u, hes, hw⟩
    exact fits_of_wellFormed hshort hes hw
  · intro hf
    have hall : collected k = instanceFields k.fields := by
      rw [collected, show entryCount k = (instanceFields k.fields).length from hf.count]
      exact hf.front
    have hlength : k.table.length = entryCount k := by
      rw [FakeInstanceKlass.table, List.length_insertionSort]
      exact hf.count.symm
    have htyped : ∀ f ∈ k.table, ∃ t, f.type = .ok t ∧ (t.isPrimitive = true ∨ t.isReference = true) :=
      fun f hmem => hk.typed f (mem_table.mp hmem)
    obtain ⟨es, u, hes⟩ := resolveFields_ok (p := r.infos.length) (i := 0) hr (Nat.le_of_eq hlength.symm) htyped r.unresolved
    obtain ⟨-, hmap⟩ := resolveFields_map hes
    rw [← hlength, List.take_length] at hmap
    refine ⟨hf.short, es, u, ?_, ?_⟩
    · rw [hall]
      exact hes
    · rw [hall]
      exact wellFormed_of_fits hk hf hmap

end

/-- The registry of plain classes resolves its signatures. -/
theorem Inv.resolves {U : FakeKlass → Prop} {done : List FakeKlass} {pts : List (FakeKlass × ℕ)} {r : ClassResolver}
    (h : Inv U done pts r) : r.Resolves := by
  intro sig id hlookup
  rw [h.sigs, Option.map_eq_some_iff] at hlookup
  obtain ⟨i, hfind, rfl⟩ := hlookup
  obtain ⟨hlt, -, -⟩ := List.findIdx?_eq_some_iff_getElem.mp hfind
  rw [h.getById_eq (List.getElem?_eq_getElem hlt)]
  rfl

/-- A class with a static field, a `long` and, in front of it, a reference to a node. -/
def linkKlass : FakeInstanceKlass :=
  { addr := 7000, name := sym "Link", super := some (sym "java/lang/Object"), layoutHelper := 24, fieldArrayLength := 18
    fields := [⟨8, sym "I", 4 * 104 + 1, 0, 9, none⟩, ⟨0, sym "J", 4 * 16 + 1, 0, 10, none⟩,
      ⟨0, sym "LNode;", 4 * 12 + 1, 0, 11, none⟩] }

theorem hotSpot_linkKlass : linkKlass.HotSpot := by
  refine ⟨by decide, fun f hf => ?_, by decide, by decide⟩
  have hmem : f ∈ [(⟨0, sym "J", 4 * 16 + 1, 0, 10, none⟩ : FakeFieldInfo), ⟨0, sym "LNode;", 4 * 12 + 1, 0, 11, none⟩] := hf
  rcases List.mem_cons.mp hmem with rfl | hmem
  · exact ⟨.long, rfl, Or.inl rfl⟩
  · rw [List.mem_singleton.mp hmem]
    exact ⟨.object, rfl, Or.inr rfl⟩

theorem fits_linkKlass : linkKlass.Fits := ⟨by decide, by decide, by decide, by decide, fun h => absurd h (by decide)⟩

/-- After the nodes, the class of the links. -/
theorem walkLayout_iff_node : ∃ r, empty.registerAll nodeCalls = .ok r ∧ ∃ r' id info,
    r.walkInstanceKlass linkKlass = .ok (r', id) ∧ r'.infos[r.infos.length]? = some info ∧ linkKlass.WellFormed info := by
  obtain ⟨r, hall, hinv⟩ := (inv_empty (· ∈ nodeCalls.flatMap FakeKlass.closure)).registerAll nodeCalls_sane (fun _ hc => hc)
    (by decide)
  have hnew : (empty.registerAll nodeCalls).map (·.getByKlass linkKlass.addr) = .ok none := by decide
  rw [hall] at hnew
  exact ⟨r, hall, (walkLayout_iff hotSpot_linkKlass hinv.resolves (Except.ok.inj hnew)).mpr fits_linkKlass⟩

/-- A class that declares no field. -/
def markerKlass : FakeInstanceKlass :=
  { addr := 6000, name := sym "Marker", super := some (sym "java/lang/Object"), layoutHelper := 16, fieldArrayLength := 0
    fields := [] }

/-- **A class without fields keeps the header size 255**, so the size of its body wraps; and **an injected field makes the
walk read past the end** of the fields that it collected. -/
theorem not_wellFormed_marker :
    (empty.walkInstanceKlass markerKlass).map (fun x => x.1.infos.map fun i => (i.headerSize, i.objSize, i.objectBodySize)) =
        .ok [(255, 16, 2 ^ 32 - 239)] ∧
      (¬ ∃ r' id info, empty.walkInstanceKlass markerKlass = .ok (r', id) ∧ r'.infos[0]? = some info ∧
        markerKlass.WellFormed info) ∧
      empty.walkInstanceKlass classKlass = .error .badAccess := by
  have hsizes : (empty.walkInstanceKlass markerKlass).map (fun x => x.1.infos.map fun i => (i.headerSize, i.objSize,
      i.objectBodySize)) = .ok [(255, 16, 2 ^ 32 - 239)] := by decide
  refine ⟨hsizes, ?_, by decide⟩
  rintro ⟨r', id, info, hok, hinfo, hw⟩
  rw [hok] at hsizes
  have hlist : r'.infos.map (fun i => (i.headerSize, i.objSize, i.objectBodySize)) = [(255, 16, 2 ^ 32 - 239)] :=
    Except.ok.inj hsizes
  have hget := congrArg (fun l => l[0]?) hlist
  simp only [List.getElem?_map, hinfo, Option.map_some, List.getElem?_cons_zero, Option.some.injEq, Prod.mk.injEq] at hget
  have hle := hw.header
  omega

end ClassResolver

end DShuffle.Serde
