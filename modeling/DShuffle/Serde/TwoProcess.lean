import DShuffle.Serde.Exchange
import DShuffle.Serde.RegistryLayout

/-!
# Two processes that register the same classes

`Register` is given a Java `HashSet` of classes, and `register_classes` registers them
in the order of its iterator. That order is not the same in two JVMs, and the ids,
which are positions in the order of registration, go over the wire.

## The model

* `shape` is what a klass is in every process: all but its address, the JNI ids of its
  fields and the references to its constants. Two klasses of one class have one shape.
* A `Process` is a sequence of sets, each in the order of its iterator. `SameCalls` says
  that two processes make the same calls: each set has the same classes, in any order.

## What is proved

* `Process.registers` — the calls succeed.
* `peers_of_sameCalls` — the second process has a class info for every class of the
  first, alike but for its ids.
* `exchange_iff` — an object arrives exactly when both processes have one id for every
  class of its tree (no enum constant occurs twice, and the arrays are intact).
* `exchange_fails` — two classes registered in opposite orders do not.

## Honest scope

A `Process` has klasses that are registered as they are (`Plain`) and laid out as HotSpot
does, and no more classes than there are ids. No object in the graph is of a class without
instance fields, whose header size stays 255, and no array takes 4 GiB or more.
-/

namespace DShuffle.Serde

open Base

/-! ### What a klass is in every process -/

/-- A field, without what JNI answers in one process. -/
def FakeFieldInfo.shape (f : FakeFieldInfo) : FakeFieldInfo :=
  { f with jFieldId := 0, constant := f.constant.map fun c => { c with object := 0, handle := 0 } }

/-- An instance klass, without its address and what JNI answers. -/
def FakeInstanceKlass.shape (k : FakeInstanceKlass) : FakeInstanceKlass :=
  { k with addr := 0, fields := k.fields.map FakeFieldInfo.shape }

/-- An array klass, without its address. -/
def FakeArrayKlass.shape : FakeArrayKlass → FakeArrayKlass
  | typeArray _ h t => typeArray 0 h t
  | objArray _ h e => objArray 0 h e.shape
  | multi _ h l => multi 0 h l.shape

/-- **What a klass is in every process.** -/
def FakeKlass.shape : FakeKlass → FakeKlass
  | inst k => inst k.shape
  | array k => array k.shape

namespace FakeInstanceKlass

theorem instanceFields_shape (fs : List FakeFieldInfo) :
    ClassResolver.instanceFields (fs.map FakeFieldInfo.shape) = (ClassResolver.instanceFields fs).map FakeFieldInfo.shape := by
  rw [ClassResolver.instanceFields, ClassResolver.instanceFields, List.filter_map]
  rfl

theorem table_shape (k : FakeInstanceKlass) : k.shape.table = k.table.map FakeFieldInfo.shape := by
  rw [table, table, List.map_insertionSort (fun f g : FakeFieldInfo => f.offset ≤ g.offset) (fun f g => f.offset ≤ g.offset)
    FakeFieldInfo.shape _ fun f _ g _ => Iff.rfl, shape, instanceFields_shape]

theorem header_shape (k : FakeInstanceKlass) : k.shape.header = k.header := by
  rw [header, header, shape, instanceFields_shape, ClassResolver.headerOf, ClassResolver.headerOf, List.foldl_map]
  rfl

/-- The entry of a constant, without its references. -/
def blankRef (_ : EnumRef) : EnumRef := ⟨0, 0⟩

theorem setConstant_shape (table : List (Option EnumRef)) (f : FakeFieldInfo) :
    setConstant (table.map (Option.map blankRef)) f.shape = (setConstant table f).map (Option.map blankRef) := by
  unfold setConstant FakeFieldInfo.shape
  cases f.constant with
  | none => rfl
  | some c =>
    simp only [Option.map_some]
    rw [List.map_set]
    rfl

/-- The constants have one place in the table in every process. -/
theorem constants_shape (k : FakeInstanceKlass) : k.shape.constants = k.constants.map (Option.map blankRef) := by
  have hfold : ∀ (fs : List FakeFieldInfo) (table : List (Option EnumRef)),
      (fs.map FakeFieldInfo.shape).foldl setConstant (table.map (Option.map blankRef)) =
        (fs.foldl setConstant table).map (Option.map blankRef) := by
    intro fs
    induction fs with
    | nil => exact fun table => rfl
    | cons f fs ih =>
      intro table
      rw [List.map_cons, List.foldl_cons, List.foldl_cons, setConstant_shape, ih]
  have hblank : List.replicate (k.fields.length - 1) (none : Option EnumRef) =
      (List.replicate (k.fields.length - 1) none).map (Option.map blankRef) := by
    rw [List.map_replicate]
    rfl
  rw [constants, constants, shape, List.length_map, ← List.map_take, ← hfold, ← hblank]

end FakeInstanceKlass

namespace FakeArrayKlass

theorem signature_shape (a : FakeArrayKlass) : a.shape.signature = a.signature := by
  induction a with
  | typeArray x y t => rfl
  | objArray x y e => rfl
  | multi x y l ih => rw [shape, signature, signature, ih]

theorem dimension_shape (a : FakeArrayKlass) : a.shape.dimension = a.dimension := by
  induction a with
  | typeArray x y t => rfl
  | objArray x y e => rfl
  | multi x y l ih => rw [shape, dimension, dimension, ih]

theorem headerSize_shape (a : FakeArrayKlass) : a.shape.headerSize = a.headerSize := by
  cases a <;> rfl

theorem elemType_shape (a : FakeArrayKlass) : a.shape.elemType = a.elemType := by
  cases a <;> rfl

theorem closure_shape (a : FakeArrayKlass) : a.shape.closure = a.closure.map FakeKlass.shape := by
  induction a with
  | typeArray x y t => rfl
  | objArray x y e => rfl
  | multi x y l ih =>
    rw [shape, closure, closure, ih, List.map_append]
    rfl

end FakeArrayKlass

namespace FakeKlass

theorem signature_shape (k : FakeKlass) : k.shape.signature = k.signature := by
  cases k with
  | inst k => rfl
  | array a => exact a.signature_shape

theorem closure_shape (k : FakeKlass) : k.shape.closure = k.closure.map shape := by
  cases k with
  | inst k => rfl
  | array a => exact a.closure_shape

/-- Klasses of one shape have one signature. -/
theorem signature_of_shape {k k' : FakeKlass} (h : k'.shape = k.shape) : k'.signature = k.signature := by
  rw [← signature_shape k', h, signature_shape]

end FakeKlass

/-! ### Class infos of one shape -/

theorem ClassInfo.Like.symm {i j : ClassInfo} (h : i.Like j) : j.Like i :=
  ⟨h.signature.symm, h.isEnum.symm, h.dim.symm, h.objSize.symm, h.headerSize.symm, h.fields.symm, fun n => (h.enums n).symm⟩

theorem ClassInfo.Like.trans {i j l : ClassInfo} (h : i.Like j) (h' : j.Like l) : i.Like l :=
  ⟨h'.signature.trans h.signature, h'.isEnum.trans h.isEnum, h'.dim.trans h.dim, h'.objSize.trans h.objSize,
    h'.headerSize.trans h.headerSize, h'.fields.trans h.fields, fun n => (h'.enums n).trans (h.enums n)⟩

theorem getEnum_ok_iff {i : ClassInfo} {n : ℕ} : (∃ c, i.getEnum n = .ok c) ↔ ∃ c, i.enums[n]? = some (some c) := by
  unfold ClassInfo.getEnum
  cases i.enums[n]? with
  | none => simp
  | some o => cases o <;> simp

/-- **The class info depends on the shape**, but for its address and its ids. -/
theorem like_shape (done done' : List FakeKlass) (k : FakeKlass) : (specInfo done k).Like (specInfo done' k.shape) := by
  cases k with
  | inst c =>
    have henum : c.shape.isEnum = c.isEnum := rfl
    refine ⟨rfl, ?_, rfl, rfl, ?_, ?_, fun n => ?_⟩
    · show (specInfo done' (.inst c.shape)).isEnum = _
      rw [ClassResolver.isEnum_specInfo, ClassResolver.isEnum_specInfo, henum]
    · simp only [specInfo, baseInfo, FakeKlass.shape, c.header_shape, henum]
    · simp only [specInfo, specFields, FakeKlass.shape, henum]
      cases c.isEnum with
      | true => rfl
      | false =>
        simp only [Bool.false_eq_true, if_false]
        rw [c.table_shape, c.header_shape, List.map_map, List.map_map, List.map_map]
        rfl
    · rw [getEnum_ok_iff, getEnum_ok_iff]
      simp only [specInfo, baseInfo, FakeKlass.shape, henum]
      cases c.isEnum with
      | true =>
        simp only [if_true]
        rw [c.constants_shape, List.getElem?_map]
        cases c.constants[n]? with
        | none => simp
        | some o => cases o <;> simp
      | false => rfl
  | array a =>
    refine ⟨a.signature_shape, rfl, ?_, a.headerSize_shape, a.headerSize_shape, ?_, fun n => Iff.rfl⟩
    · show a.shape.dimension % 256 = a.dimension % 256
      rw [a.dimension_shape]
    · show [(a.shape.elemType, 0)] = [(a.elemType, 0)]
      rw [a.elemType_shape]

/-! ### Processes -/

namespace ClassResolver

/-- `Register` on each of a sequence of sets. -/
def registerSets (r : ClassResolver) : List (List FakeKlass) → Except Fault ClassResolver
  | [] => .ok r
  | set :: sets => do
    let r' ← r.registerAll set
    registerSets r' sets

theorem registerAll_append (r : ClassResolver) (ks ks' : List FakeKlass) :
    r.registerAll (ks ++ ks') = r.registerAll ks >>= fun r' => r'.registerAll ks' := by
  induction ks generalizing r with
  | nil => rfl
  | cons k ks ih =>
    rw [List.cons_append, registerAll, registerAll]
    cases r.registerClass k with
    | error err => rfl
    | ok x =>
      obtain ⟨r₁, id⟩ := x
      exact ih r₁

/-- The calls are one sequence of calls of `register_class`. -/
theorem registerSets_eq (r : ClassResolver) (sets : List (List FakeKlass)) : r.registerSets sets = r.registerAll sets.flatten := by
  induction sets generalizing r with
  | nil => rfl
  | cons set sets ih =>
    rw [registerSets, List.flatten_cons, registerAll_append]
    cases r.registerAll set with
    | error err => rfl
    | ok r₁ => exact ih r₁

end ClassResolver

theorem length_order_le (ks : List FakeKlass) : (order ks).length ≤ (ks.flatMap FakeKlass.closure).length := by
  have hfold : ∀ cs done : List FakeKlass, (cs.foldl enter done).length ≤ done.length + cs.length := by
    intro cs
    induction cs with
    | nil => exact fun done => Nat.le_refl _
    | cons c cs ih =>
      intro done
      have hlen : (enter done c).length ≤ done.length + 1 := by
        unfold enter
        split_ifs
        · exact Nat.le_succ _
        · rw [List.length_append]
          rfl
      rw [List.foldl_cons, List.length_cons]
      have hrest := ih (enter done c)
      omega
  have hall := hfold (ks.flatMap FakeKlass.closure) []
  rwa [List.length_nil, Nat.zero_add] at hall

/-- **A process**: the sets that it registers, each in the order of its iterator. -/
structure Process where
  /-- The sets. -/
  sets : List (List FakeKlass)
  /-- Its klasses have their own addresses and signatures, and are plain. -/
  sane : ClassResolver.Sane (· ∈ sets.flatten.flatMap FakeKlass.closure)
  /-- They are as HotSpot has them. -/
  laid : ∀ k ∈ sets.flatten.flatMap FakeKlass.closure, k.Laid
  /-- There are ids for all of them. -/
  few : (order sets.flatten).length ≤ 32748

namespace Process

/-- The classes that are registered, in the order of their ids. -/
def classes (p : Process) : List FakeKlass := order p.sets.flatten

/-- The class resolver after the calls. -/
def resolver (p : Process) : ClassResolver :=
  match ClassResolver.empty.registerSets p.sets with
  | .ok r => r
  | .error _ => .empty

/-- The calls succeed, and leave the registry of the classes. -/
theorem inv (p : Process) : ClassResolver.empty.registerSets p.sets = .ok p.resolver ∧
    ClassResolver.Inv (· ∈ p.sets.flatten.flatMap FakeKlass.closure) p.classes (p.classes.zip p.resolver.infoById) p.resolver := by
  have hinit : ClassResolver.Inv (· ∈ p.sets.flatten.flatMap FakeKlass.closure) []
      (([] : List FakeKlass).zip ClassResolver.empty.infoById) .empty := ClassResolver.inv_empty _
  obtain ⟨r, hall, hinv⟩ := hinit.registerAll p.sane (fun c hc => hc) p.few
  rw [← ClassResolver.registerSets_eq] at hall
  have hr : p.resolver = r := by
    rw [resolver, hall]
  rw [hr]
  exact ⟨hall, hinv⟩

/-- **The calls succeed.** -/
theorem registers (p : Process) : ClassResolver.empty.registerSets p.sets = .ok p.resolver := p.inv.1

theorem regular (p : Process) : p.resolver.Regular := p.inv.2.regular p.sane p.laid p.few

theorem slotted (p : Process) : p.resolver.Slotted := p.inv.2.slotted p.sane p.laid

theorem has_iff (p : Process) {i : ClassInfo} : p.resolver.Has i ↔ ∃ k ∈ p.classes, i = specInfo p.classes k :=
  p.inv.2.has_iff

theorem mem_classes (p : Process) {k : FakeKlass} : k ∈ p.classes ↔ k ∈ p.sets.flatten.flatMap FakeKlass.closure := by
  rw [classes, order, ClassResolver.mem_enterAll]
  simp

/-- The class info that the process has for a class of the shape of its own `k`. -/
theorem peer_eq (p : Process) {k : FakeKlass} (hk : k ∈ p.classes) {i : ClassInfo} (hi : i.signature = k.signature) :
    p.resolver.peer i = specInfo p.classes k := by
  rw [ClassResolver.peer, hi, p.inv.2.getBySig_eq p.sane hk]

end Process

/-- **Two processes make the same calls**: each set of the one has the classes of the set of the other, in any order. -/
def SameCalls (p q : Process) : Prop :=
  List.Forall₂ (fun s s' => (s.map FakeKlass.shape).Perm (s'.map FakeKlass.shape)) p.sets q.sets

section
variable {p q : Process}

/-- The second process registers every class that the first does. -/
theorem SameCalls.exists_mem (h : SameCalls p q) {k : FakeKlass} (hk : k ∈ p.classes) :
    ∃ k' ∈ q.classes, k'.shape = k.shape := by
  have hcalls : ∀ {ss ss' : List (List FakeKlass)},
      List.Forall₂ (fun s s' => (s.map FakeKlass.shape).Perm (s'.map FakeKlass.shape)) ss ss' →
      ∀ c ∈ ss.flatten, ∃ c' ∈ ss'.flatten, c'.shape = c.shape := by
    intro ss ss' hall
    induction hall with
    | nil => exact fun c hc => absurd hc List.not_mem_nil
    | cons hperm _ ih =>
      intro c hc
      rw [List.flatten_cons] at hc
      rcases List.mem_append.mp hc with hc | hc
      · obtain ⟨c', hc', hshape⟩ := List.mem_map.mp (hperm.mem_iff.mp (List.mem_map_of_mem hc))
        exact ⟨c', by rw [List.flatten_cons]; exact List.mem_append_left _ hc', hshape⟩
      · obtain ⟨c', hc', hshape⟩ := ih c hc
        exact ⟨c', by rw [List.flatten_cons]; exact List.mem_append_right _ hc', hshape⟩
  obtain ⟨c, hc, hkc⟩ := List.mem_flatMap.mp (p.mem_classes.mp hk)
  obtain ⟨c', hc', hshape⟩ := hcalls h c hc
  -- the closures of the two have one shape
  have hmem : k.shape ∈ c'.closure.map FakeKlass.shape := by
    rw [← FakeKlass.closure_shape, hshape, FakeKlass.closure_shape]
    exact List.mem_map_of_mem hkc
  obtain ⟨k', hk', hks⟩ := List.mem_map.mp hmem
  exact ⟨k', q.mem_classes.mpr (List.mem_flatMap.mpr ⟨c', hc', hk'⟩), hks⟩

/-- A class info of the first process, and the one of the second. -/
theorem SameCalls.peer (h : SameCalls p q) {i : ClassInfo} (hi : p.resolver.Has i) :
    ∃ k' ∈ q.classes, q.resolver.peer i = specInfo q.classes k' ∧ k'.signature = i.signature ∧
      i.Like (specInfo q.classes k') := by
  obtain ⟨k, hk, rfl⟩ := p.has_iff.mp hi
  obtain ⟨k', hk', hshape⟩ := h.exists_mem hk
  have hsig : k'.signature = k.signature := FakeKlass.signature_of_shape hshape
  have hinfo : (specInfo p.classes k).signature = k.signature := specInfo_signature ..
  refine ⟨k', hk', q.peer_eq hk' (hinfo.trans hsig.symm), hsig.trans hinfo.symm, ?_⟩
  have hlike := like_shape p.classes p.classes k
  rw [← hshape] at hlike
  exact hlike.trans (like_shape q.classes p.classes k').symm

/-- **The second process has the classes of the first.** -/
theorem peers_of_sameCalls (h : SameCalls p q) : p.resolver.Peers q.resolver := by
  constructor
  · intro i hi
    obtain ⟨k', hk', heq, -, -⟩ := h.peer hi
    rw [heq]
    exact q.has_iff.mpr ⟨k', hk', rfl⟩
  · intro i hi
    obtain ⟨k', hk', heq, -, hlike⟩ := h.peer hi
    rw [heq]
    exact hlike

/-- The ids agree where the two orders of registration do. -/
theorem agrees_iff (h : SameCalls p q) {t : Tree} (ho : t.Over p.resolver) :
    t.Agrees q.resolver ↔ ∀ i ∈ t.infos, sigId p.classes i.signature = sigId q.classes i.signature := by
  refine forall_congr' fun i => forall_congr' fun hi => ?_
  have hhas := has_of_mem_infos t ho i hi
  obtain ⟨k', hk', heq, hsig, -⟩ := h.peer hhas
  obtain ⟨k, hk, rfl⟩ := p.has_iff.mp hhas
  have hid : (specInfo p.classes k).id = sigId p.classes (specInfo p.classes k).signature := by
    rw [specInfo_signature]
    rfl
  have hid' : (specInfo q.classes k').id = sigId q.classes (specInfo p.classes k).signature := by
    rw [← hsig]
    rfl
  rw [heq, hid, hid', eq_comm]

/-- An object whose class has a header no larger than it has one that is laid out at the second process. -/
theorem laidAt_of_sameCalls (h : SameCalls p q) {t : Tree} (ho : t.Over p.resolver)
    (hl : ∀ i ∈ t.infos, i.isEnum = false → i.isObject = true → i.headerSize ≤ i.objSize) : t.LaidAt q.resolver := by
  intro i hi he hob
  obtain ⟨k', hk', heq, -, hlike⟩ := h.peer (has_of_mem_infos t ho i hi)
  have hU := q.mem_classes.mp hk'
  have hplain := q.sane.plain k' hU
  rw [heq]
  cases k' with
  | array a =>
    have hno := hlike.isObject.trans hob
    rw [ClassResolver.isObject_specInfo_array _ hplain] at hno
    cases hno
  | inst c =>
    have henum : c.isEnum = false := (ClassResolver.isEnum_specInfo q.classes c).symm.trans (hlike.isEnum.trans he)
    refine ClassResolver.laid_specInfo q.classes hplain henum (q.laid _ hU henum) ?_
    rw [hlike.headerSize, hlike.objSize]
    exact hl i hi he hob

end

/-- **When an object arrives at a process that makes the same calls**: the calls of both succeed, and the object that
unfolds to `t` is read there as the same tree exactly when both have one id for every class in it, no enum constant
occurs twice in it, and its arrays are intact. -/
theorem exchange_iff (p q : Process) (hcalls : SameCalls p q) (heap : Heap) (o : Options) (u : Simdutf) (hc : u.Conforms)
    (jvm : Jvm) (hj : jvm.Allocates) (e : JEnv) (he : e.Fresh q.resolver) (a : ℕ) (t : Tree)
    (hu : Unfolds heap p.resolver a t)
    (hl : ∀ i ∈ t.infos, i.isEnum = false → i.isObject = true → i.headerSize ≤ i.objSize)
    (hst : (t.peer q.resolver).Storable jvm q.resolver) (hshort : t.Short) (b : RWBuffer) (eid eid' : ℤ) (fuel : ℕ)
    (hf : t.height < fuel) :
    ClassResolver.empty.registerSets p.sets = .ok p.resolver ∧ ClassResolver.empty.registerSets q.sets = .ok q.resolver ∧
      (Arrives ⟨heap, p.resolver, o, u⟩ jvm q.resolver e fuel a eid eid' b t ↔
        (∀ i ∈ t.infos, sigId p.classes i.signature = sigId q.classes i.signature) ∧ t.enumConsts.Nodup ∧ t.Intact o) := by
  have ho := over_of_unfolds p.slotted t hu
  refine ⟨p.registers, q.registers, ?_⟩
  rw [arrives_iff ⟨heap, p.resolver, o, u⟩ jvm q.resolver e p.slotted p.regular q.regular (peers_of_sameCalls hcalls) hc hj he a t
    hu (laidAt_of_sameCalls hcalls ho hl) hst hshort b eid eid' fuel hf, agrees_iff hcalls ho]

/-! ### Two orders of one set -/

/-- A class with one int field, where a process has it. -/
def boxKlass (name : String) (addr : ℕ) : FakeInstanceKlass :=
  { addr, name := sym name, super := some (sym "java/lang/Object"), layoutHelper := 16, fieldArrayLength := 6
    fields := [⟨0, sym "I", 4 * 12 + 1, 0, addr + 1, none⟩] }

theorem boxKlass_plain {name : String} (hname : (sym name).length + 2 < maxSignatureLength) (addr : ℕ) :
    (boxKlass name addr).Plain := by
  refine ⟨?_, Nat.le_of_lt (by decide : 1 < 255), ?_, fun f hf => ?_, hname, fun henum => ?_⟩
  · simp [boxKlass, FakeFieldInfo.hasGenericSignature]
  · intro f hf _
    rw [show f = _ from List.mem_singleton.mp hf]
    simp [FakeFieldInfo.isInternal]
  · rw [show f = _ from List.mem_singleton.mp hf]
    exact ⟨.int, rfl, Or.inl rfl⟩
  · have hsuper : ¬ some (sym "java/lang/Object") = some (sym "java/lang/Enum") := by decide
    exact absurd (of_decide_eq_true henum) hsuper

theorem boxKlass_instanceFields (name : String) (addr : ℕ) :
    ClassResolver.instanceFields (boxKlass name addr).fields = (boxKlass name addr).fields := by
  simp [ClassResolver.instanceFields, boxKlass, FakeFieldInfo.isInternal, FakeFieldInfo.isStatic]

theorem boxKlass_laid (name : String) (addr : ℕ) : (boxKlass name addr).Laid := by
  refine ⟨(by decide : 16 < 2 ^ 16), ?_, ?_, ?_⟩
  · rw [boxKlass_instanceFields]
    intro f hf
    rw [show f = _ from List.mem_singleton.mp hf]
    show (0 * 2 ^ 16 + (4 * 12 + 1)) / 4 + BasicType.int.size ≤ 16 / 2 * 2
    decide
  · rw [boxKlass_instanceFields]
    exact List.pairwise_singleton _ _
  · rw [boxKlass_instanceFields]
    exact List.nodup_singleton _

/-- The calls of a process that has the classes `A`, `B` and `C` from the address `base` on: first on `A`, then on `B`
and `C`, in either order. -/
def boxSets (base : ℕ) (swap : Bool) : List (List FakeKlass) :=
  [[.inst (boxKlass "A" base)],
    if swap then [.inst (boxKlass "C" (base + 200)), .inst (boxKlass "B" (base + 100))]
    else [.inst (boxKlass "B" (base + 100)), .inst (boxKlass "C" (base + 200))]]

theorem mem_boxSets {base : ℕ} {swap : Bool} {k : FakeKlass} (hk : k ∈ (boxSets base swap).flatten.flatMap FakeKlass.closure) :
    k = .inst (boxKlass "A" base) ∨ k = .inst (boxKlass "B" (base + 100)) ∨ k = .inst (boxKlass "C" (base + 200)) := by
  cases swap with
  | false => simpa [boxSets, FakeKlass.closure] using hk
  | true =>
    have hmem : k = .inst (boxKlass "A" base) ∨ k = .inst (boxKlass "C" (base + 200)) ∨
        k = .inst (boxKlass "B" (base + 100)) := by
      simpa [boxSets, FakeKlass.closure] using hk
    exact hmem.imp_right Or.symm

/-- A process that makes the calls. -/
def boxProcess (base : ℕ) (swap : Bool) : Process where
  sets := boxSets base swap
  sane := by
    refine ⟨fun k k' hk hk' haddr => ?_, fun k k' hk hk' hsig => ?_, fun k hk => ?_⟩
    · rcases mem_boxSets hk with rfl | rfl | rfl <;> rcases mem_boxSets hk' with rfl | rfl | rfl <;>
        first | rfl | (simp only [FakeKlass.addr, boxKlass] at haddr; omega)
    · rcases mem_boxSets hk with rfl | rfl | rfl <;> rcases mem_boxSets hk' with rfl | rfl | rfl <;>
        first | rfl | exact absurd hsig (by simp only [FakeKlass.signature, FakeInstanceKlass.signature, boxKlass]; decide)
    · rcases mem_boxSets hk with rfl | rfl | rfl <;> exact boxKlass_plain (by decide) _
  laid := by
    intro k hk
    rcases mem_boxSets hk with rfl | rfl | rfl <;> exact fun _ => boxKlass_laid _ _
  few := by
    refine (length_order_le _).trans ?_
    cases swap <;> exact (by decide : 3 ≤ 32748)

theorem boxes_sameCalls : SameCalls (boxProcess 1000 false) (boxProcess 5000 true) := by
  refine List.Forall₂.cons (List.Perm.refl _) (List.Forall₂.cons ?_ List.Forall₂.nil)
  exact List.Perm.swap _ _ _

/-- The heap of the first process: an `A` at `64` and a `B` at `80`. -/
def boxHeap : Heap :=
  ⟨fun k => (le 8 1 ++ le 4 1000 ++ le 4 7 ++ le 8 1 ++ le 4 1100 ++ le 4 9).getD (k - 64) 0, ⟨0, .zeroBased, 0, 0, .zeroBased, 0⟩⟩

/-- The tree of a box in the first process. -/
def boxTree (k : FakeInstanceKlass) (n : ℕ) : Tree := .object (specInfo (boxProcess 1000 false).classes (.inst k)) (le 4 n) []

theorem box_unfolds_a : Unfolds boxHeap (boxProcess 1000 false).resolver 64 (boxTree (boxKlass "A" 1000) 7) := by
  simp only [boxTree, Unfolds, UnfoldsAll]
  exact ⟨by decide, by decide, by decide, by decide, by decide, by decide⟩

theorem box_unfolds_b : Unfolds boxHeap (boxProcess 1000 false).resolver 80 (boxTree (boxKlass "B" 1100) 9) := by
  simp only [boxTree, Unfolds, UnfoldsAll]
  exact ⟨by decide, by decide, by decide, by decide, by decide, by decide⟩

/-- The state of the second process: it has no enum. -/
def boxEnv : JEnv := ⟨fun _ => .null, false, 0, none⟩

theorem boxEnv_fresh : boxEnv.Fresh (boxProcess 5000 true).resolver := by
  refine ⟨rfl, fun i ordinal c hi hc => ?_⟩
  obtain ⟨k, hk, rfl⟩ := Process.has_iff _ |>.mp hi
  rcases mem_boxSets (Process.mem_classes _ |>.mp hk) with rfl | rfl | rfl <;> cases hc

/-- **The object of `A` arrives**, since `A` is the first class for both. -/
theorem exchange_iff_first :
    Arrives ⟨boxHeap, (boxProcess 1000 false).resolver, ⟨true⟩, unicodeSimdutf⟩ sampleJvm (boxProcess 5000 true).resolver
      boxEnv 2 64 20 20 ⟨fun _ => 0, 8⟩ (boxTree (boxKlass "A" 1000) 7) :=
  (exchange_iff (boxProcess 1000 false) (boxProcess 5000 true) boxes_sameCalls boxHeap ⟨true⟩ unicodeSimdutf
    unicodeSimdutf_conforms sampleJvm ⟨fun _ => rfl, fun _ _ => rfl, fun _ _ => rfl⟩ boxEnv boxEnv_fresh 64
    (boxTree (boxKlass "A" 1000) 7) box_unfolds_a (by decide) trivial trivial ⟨fun _ => 0, 8⟩ 20 20 2 (by decide)).2.2.mpr
    ⟨by decide, by decide, trivial⟩

/-- **The object of `B` does not**: its id is the one of `C` in the second process, and a `C` is what is read. -/
theorem exchange_fails :
    SameCalls (boxProcess 1000 false) (boxProcess 5000 true) ∧
      ClassResolver.empty.registerSets (boxProcess 1000 false).sets = .ok (boxProcess 1000 false).resolver ∧
      ClassResolver.empty.registerSets (boxProcess 5000 true).sets = .ok (boxProcess 5000 true).resolver ∧
      Unfolds boxHeap (boxProcess 1000 false).resolver 80 (boxTree (boxKlass "B" 1100) 9) ∧
      ¬ Arrives ⟨boxHeap, (boxProcess 1000 false).resolver, ⟨true⟩, unicodeSimdutf⟩ sampleJvm (boxProcess 5000 true).resolver
        boxEnv 2 80 21 21 ⟨fun _ => 0, 8⟩ (boxTree (boxKlass "B" 1100) 9) := by
  have ho := over_of_unfolds (boxProcess 1000 false).slotted _ box_unfolds_b
  refine ⟨boxes_sameCalls, Process.registers _, Process.registers _, box_unfolds_b, fun h => ?_⟩
  have hiff := arrives_iff ⟨boxHeap, (boxProcess 1000 false).resolver, ⟨true⟩, unicodeSimdutf⟩ sampleJvm
    (boxProcess 5000 true).resolver boxEnv (boxProcess 1000 false).slotted (boxProcess 1000 false).regular
    (boxProcess 5000 true).regular (peers_of_sameCalls boxes_sameCalls) unicodeSimdutf_conforms
    ⟨fun _ => rfl, fun _ _ => rfl, fun _ _ => rfl⟩ boxEnv_fresh 80 (boxTree (boxKlass "B" 1100) 9) box_unfolds_b
    (laidAt_of_sameCalls boxes_sameCalls ho (by decide)) trivial trivial ⟨fun _ => 0, 8⟩ 21 21 2 (by decide)
  exact absurd ((agrees_iff boxes_sameCalls ho).mp (hiff.mp h).1) (by decide)

end DShuffle.Serde
