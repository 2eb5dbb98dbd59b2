import DShuffle.Serde.Peers
import DShuffle.Serde.RegisterWalk

/-!
# A registry serves the serializer

The serializer relies on some facts about the class resolver (`Regular`) and about the
class infos in it (`Slotted`, `ClassInfo.Laid`). This module derives them for the
registry that registering leaves, from the way HotSpot lays out the instances of a
klass.

A class that declares no instance field keeps the header size 255 that `headerOf` starts
with, which is larger than its objects: it may be registered, and its class info is
`Slotted`, but it is not `ClassInfo.Laid`.
-/

namespace DShuffle.Serde

open Base

/-! ### Layouts -/

/-- **How HotSpot lays out the instances of a klass.** -/
structure FakeInstanceKlass.Laid (k : FakeInstanceKlass) : Prop where
  /-- `obj_size` is a `uint16_t`. -/
  small : k.layoutHelper < 2 ^ 16
  /-- A field lies in the object. -/
  inside : ∀ f ∈ ClassResolver.instanceFields k.fields, f.offset + f.typeD.size ≤ k.layoutHelper / 2 * 2
  /-- Fields are disjoint. -/
  apart : (ClassResolver.instanceFields k.fields).Pairwise fun f g =>
    f.offset + f.typeD.size ≤ g.offset ∨ g.offset + g.typeD.size ≤ f.offset
  /-- JNI gives distinct fields distinct ids. -/
  ids : ((ClassResolver.instanceFields k.fields).map (·.jFieldId)).Nodup

/-- The klass is as HotSpot has it. -/
def FakeKlass.Laid : FakeKlass → Prop
  | .inst k => k.isEnum = false → k.Laid
  | .array a => a.elem = none → a.elemType.isPrimitive = true

namespace ClassResolver

/-- The header ends no later than any field begins. -/
theorem headerOf_le {fs : List FakeFieldInfo} {f : FakeFieldInfo} (hf : f ∈ fs) : headerOf fs ≤ f.offset := by
  have hfold : ∀ (gs : List FakeFieldInfo) (h : ℕ),
      gs.foldl (fun h f => if f.offset < h then f.offset else h) h ≤ h ∧
        ∀ g ∈ gs, gs.foldl (fun h f => if f.offset < h then f.offset else h) h ≤ g.offset := by
    intro gs
    induction gs with
    | nil => exact fun h => ⟨Nat.le_refl h, fun g hg => absurd hg List.not_mem_nil⟩
    | cons g gs ih =>
      intro h
      rw [List.foldl_cons]
      obtain ⟨hle, hall⟩ := ih (if g.offset < h then g.offset else h)
      refine ⟨hle.trans (by split_ifs <;> omega), fun g' hg' => ?_⟩
      rcases List.mem_cons.mp hg' with rfl | hg'
      · exact hle.trans (by split_ifs <;> omega)
      · exact hall g' hg'
  exact (hfold fs 255).2 f hf

section
variable (done : List FakeKlass) {k : FakeInstanceKlass}

theorem mem_table {f : FakeFieldInfo} : f ∈ k.table ↔ f ∈ instanceFields k.fields := List.mem_insertionSort _

theorem specInfo_fields (he : k.isEnum = false) : (specInfo done (.inst k)).fields = k.table.map (fieldEntry done k.header) := by
  simp [specInfo, specFields, he]

theorem specInfo_objSize (he : k.isEnum = false) (hl : k.Laid) : (specInfo done (.inst k)).objSize = k.layoutHelper / 2 * 2 := by
  have hsmall := hl.small
  simp only [specInfo, baseInfo, he, Bool.false_eq_true, if_false]
  omega

theorem specInfo_headerSize (he : k.isEnum = false) : (specInfo done (.inst k)).headerSize = k.header := by
  simp [specInfo, baseInfo, he]

/-- The offset of an entry counts from the end of the header. -/
theorem fieldEntry_offset (hl : k.Laid) {f : FakeFieldInfo} (hf : f ∈ k.table) :
    (fieldEntry done k.header f).offset = f.offset - k.header := by
  have hmem := mem_table.mp hf
  have hle : k.header ≤ f.offset := headerOf_le hmem
  have hin := hl.inside f hmem
  have hsmall := hl.small
  show u32 (f.offset + 2 ^ 32 - k.header) % 2 ^ 16 = _
  unfold u32
  omega

/-- An entry lies in the body. -/
theorem fieldEntry_inside (he : k.isEnum = false) (hl : k.Laid) {f : FakeFieldInfo} (hf : f ∈ k.table) :
    (fieldEntry done k.header f).offset + f.typeD.size ≤ (specInfo done (.inst k)).objectBodySize := by
  have hmem := mem_table.mp hf
  have hle : k.header ≤ f.offset := headerOf_le hmem
  have hin := hl.inside f hmem
  have hsmall := hl.small
  rw [fieldEntry_offset done hl hf, ClassInfo.objectBodySize, specInfo_objSize done he hl, specInfo_headerSize done he]
  unfold u32
  omega

theorem typed_specInfo (hp : k.Plain) (he : k.isEnum = false) :
    ∀ f ∈ (specInfo done (.inst k)).fields, f.type.isPrimitive = true ∨ f.type.isReference = true := by
  rw [specInfo_fields done he]
  intro e hmem
  obtain ⟨f, hf, rfl⟩ := List.mem_map.mp hmem
  obtain ⟨t, ht, hor⟩ := hp.typed f (List.mem_of_mem_filter (mem_table.mp hf))
  show f.typeD.isPrimitive = true ∨ f.typeD.isReference = true
  rw [FakeFieldInfo.typeD, ht]
  exact hor

/-- The entries are disjoint. -/
theorem apart_specInfo (he : k.isEnum = false) (hl : k.Laid) :
    (specInfo done (.inst k)).fields.Pairwise fun f g => f.Disjoint g := by
  have hperm : k.table.Perm (instanceFields k.fields) := List.perm_insertionSort _ _
  have hsorted := hperm.symm.pairwise hl.apart (fun {f g} h => h.symm)
  rw [specInfo_fields done he, List.pairwise_map]
  refine hsorted.imp_of_mem fun {f g} hf hg hfg => ?_
  have hf' : k.header ≤ f.offset := headerOf_le (mem_table.mp hf)
  have hg' : k.header ≤ g.offset := headerOf_le (mem_table.mp hg)
  show (fieldEntry done k.header f).offset + f.typeD.size ≤ (fieldEntry done k.header g).offset ∨
    (fieldEntry done k.header g).offset + g.typeD.size ≤ (fieldEntry done k.header f).offset
  rw [fieldEntry_offset done hl hf, fieldEntry_offset done hl hg]
  omega

theorem slotted_specInfo (hp : k.Plain) (he : k.isEnum = false) (hl : k.Laid) : (specInfo done (.inst k)).Slotted := by
  refine ⟨typed_specInfo done hp he, fun f hf href => ?_, (apart_specInfo done he hl).imp fun h _ _ => h⟩
  rw [specInfo_fields done he] at hf
  obtain ⟨g, hg, rfl⟩ := List.mem_map.mp hf
  have hin := fieldEntry_inside done he hl hg
  have hsize : g.typeD.size = 4 := BasicType.size_of_isReference href
  rw [hsize] at hin
  exact hin

/-- **A class whose header is no larger than its objects is laid out.** -/
theorem laid_specInfo (hp : k.Plain) (he : k.isEnum = false) (hl : k.Laid)
    (hheader : (specInfo done (.inst k)).headerSize ≤ (specInfo done (.inst k)).objSize) : (specInfo done (.inst k)).Laid := by
  have hsize := specInfo_objSize done he hl
  have hsmall := hl.small
  refine ⟨hheader, by omega, typed_specInfo done hp he, fun f hf => ?_, ?_, ?_⟩
  · rw [specInfo_fields done he] at hf
    obtain ⟨g, hg, rfl⟩ := List.mem_map.mp hf
    have hin := fieldEntry_inside done he hl hg
    have hbody : (specInfo done (.inst k)).objectBodySize =
        (specInfo done (.inst k)).objSize - (specInfo done (.inst k)).headerSize := by
      unfold ClassInfo.objectBodySize u32
      omega
    rw [hbody] at hin
    exact hin
  · refine (apart_specInfo done he hl).imp ?_
    intro f g hfg _
    exact hfg
  · rw [specInfo_fields done he, List.map_map]
    have hperm : (k.table.map (·.jFieldId)).Perm ((instanceFields k.fields).map (·.jFieldId)) :=
      (List.perm_insertionSort _ _).map _
    exact hperm.nodup_iff.mpr hl.ids

theorem isEnum_specInfo (k : FakeInstanceKlass) : (specInfo done (.inst k)).isEnum = k.isEnum := by
  cases he : k.isEnum <;> simp [ClassInfo.isEnum, specInfo, baseInfo, he, sizeofClassInfo]

end

/-! ### The registry -/

/-- Every dimension is a letter of the signature. -/
theorem dimension_le_length (a : FakeArrayKlass) : 1 ≤ a.dimension ∧ a.dimension ≤ a.signature.length := by
  induction a with
  | typeArray x y t => exact ⟨Nat.le_refl 1, Nat.le_succ 1⟩
  | objArray x y e => exact ⟨Nat.le_refl 1, Nat.succ_le_succ (Nat.zero_le _)⟩
  | multi x y l ih =>
    rw [FakeArrayKlass.dimension, FakeArrayKlass.signature, List.length_append]
    have hlen : (sym "[").length = 1 := rfl
    omega

theorem isObject_specInfo_array (done : List FakeKlass) {a : FakeArrayKlass} (ha : a.signature.length < maxSignatureLength) :
    (specInfo done (.array a)).isObject = false := by
  have hdim := dimension_le_length a
  have hmax : maxSignatureLength = 80 := rfl
  show (a.dimension % 256 == 0) = false
  rw [beq_eq_false_iff_ne]
  omega

/-- The class of its elements names an array class. -/
theorem signature_of_elem {a : FakeArrayKlass} {e : FakeKlass} (h : a.elem = some e) : a.signature = sym "[" ++ e.signature := by
  cases a with
  | typeArray x y t => cases h
  | objArray x y c =>
    cases h
    rfl
  | multi x y l =>
    cases h
    rfl

/-- An array class without an element class is named by a letter. -/
theorem signature_of_primitive {a : FakeArrayKlass} (h : a.elemType.isPrimitive = true) :
    a.signature = sym "[" ++ [a.elemType.letter] := by
  cases a with
  | typeArray x y t => rfl
  | objArray x y c => cases h
  | multi x y l => cases h

section
variable {U : FakeKlass → Prop} {done : List FakeKlass} {pts : List (FakeKlass × ℕ)} {r : ClassResolver}

theorem Inv.has_iff (h : Inv U done pts r) {i : ClassInfo} : r.Has i ↔ ∃ k ∈ done, i = specInfo done k := by
  rw [Has, h.getByKlass_iff]
  constructor
  · rintro ⟨k, hk, -, hi⟩
    exact ⟨k, hk, hi⟩
  · rintro ⟨k, hk, rfl⟩
    exact ⟨k, hk, (specInfo_klass done k).symm, rfl⟩

theorem Inv.of_getById (h : Inv U done pts r) {id : ℤ} {j : ClassInfo} (hj : r.getById id = some j) :
    ∃ (i : ℕ) (k : FakeKlass), done[i]? = some k ∧ id = minClassId + i ∧ j = specInfo done k := by
  by_cases hid : id < minClassId ∨ minClassId + done.length ≤ id
  · rw [h.getById_eq_none hid] at hj
    cases hj
  · have hlt : (id - minClassId).toNat < done.length := by omega
    have heq : id = minClassId + ((id - minClassId).toNat : ℤ) := by omega
    have hk := List.getElem?_eq_getElem hlt
    rw [heq, h.getById_eq hk] at hj
    exact ⟨_, _, hk, heq, (Option.some.inj hj).symm⟩

/-- **What registering leaves is regular.** -/
theorem Inv.regular (h : Inv U done pts r) (hs : Sane U) (hl : ∀ k, U k → k.Laid) (hcount : done.length ≤ 32748) :
    r.Regular := by
  have hpos : ∀ i, r.Has i → ∃ (n : ℕ) (k : FakeKlass), done[n]? = some k ∧ i = specInfo done k ∧ i.id = minClassId + n := by
    intro i hi
    obtain ⟨k, hk, rfl⟩ := h.has_iff.mp hi
    obtain ⟨n, hn⟩ := List.getElem?_of_mem hk
    exact ⟨n, k, hn, rfl, h.sigId_eq hs hn⟩
  refine ⟨⟨fun i hi => ?_, fun i hi => ?_, fun id i hi => ?_, fun i f hi ha hf href => ?_⟩, fun i j hi hj hsig => ?_,
    fun id j hj => ?_, fun i f hi ha hf hp => ?_⟩
  · obtain ⟨n, k, hn, rfl, hid⟩ := hpos i hi
    rw [hid]
    exact h.getById_eq hn
  · obtain ⟨n, k, hn, -, hid⟩ := hpos i hi
    have hlt := (List.getElem?_eq_some_iff.mp hn).1
    have hmin : minClassId = 20 := rfl
    rw [hid]
    exact int16_of_range (by omega) (by omega)
  · obtain ⟨n, k, hn, -, rfl⟩ := h.of_getById hi
    exact h.has_iff.mpr ⟨k, List.mem_of_getElem? hn, rfl⟩
  · obtain ⟨k, hk, rfl⟩ := h.has_iff.mp hi
    cases k with
    | inst c => cases ha
    | array a =>
      cases hf
      cases he : a.elem with
      | none =>
        have hprim := hl _ (h.all _ hk) he
        rw [BasicType.not_isPrimitive_of_isReference href] at hprim
        cases hprim
      | some e =>
        have hin : e ∈ done := h.closed _ hk e (FakeArrayKlass.elem_mem_closure he)
        obtain ⟨n, hn⟩ := List.getElem?_of_mem hin
        refine ⟨specInfo done e, ?_, ?_⟩
        · show r.getById (sigId done e.signature) = _
          rw [h.sigId_eq hs hn]
          exact h.getById_eq hn
        · rw [specInfo_signature, specInfo_signature]
          exact signature_of_elem he
  · obtain ⟨k, hk, rfl⟩ := h.has_iff.mp hi
    obtain ⟨k', hk', rfl⟩ := h.has_iff.mp hj
    rw [specInfo_signature, specInfo_signature] at hsig
    rw [hs.sig k k' (h.all k hk) (h.all k' hk') hsig]
  · obtain ⟨n, k, hn, rfl, rfl⟩ := h.of_getById hj
    exact h.sigId_eq hs hn
  · obtain ⟨k, hk, rfl⟩ := h.has_iff.mp hi
    cases k with
    | inst c => cases ha
    | array a =>
      cases hf
      exact signature_of_primitive hp

theorem Inv.slotted (h : Inv U done pts r) (hs : Sane U) (hl : ∀ k, U k → k.Laid) : r.Slotted := by
  intro a i hi he ho
  obtain ⟨k, hk, rfl⟩ := h.has_iff.mp (has_of_getByKlass hi)
  cases k with
  | array b =>
    rw [isObject_specInfo_array done (hs.plain _ (h.all _ hk))] at ho
    cases ho
  | inst c =>
    have henum : c.isEnum = false := (isEnum_specInfo done c).symm.trans he
    exact slotted_specInfo done (hs.plain _ (h.all _ hk)) henum (hl _ (h.all _ hk) henum)

end

end ClassResolver

end DShuffle.Serde
