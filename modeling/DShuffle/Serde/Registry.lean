import DShuffle.Serde.ClassResolver

/-!
# What a registry holds

A sequence of `register_class` calls registers the classes it is called on, and
before an array class the class of its elements, each once (`order`). This module
says which class info a registered class has, as a function of the list of the
registered classes alone (`specInfo`): its id is its position, and a reference field
has the id of the class that its signature names, if there is one.

`Plain` is what a klass has to be for this: HotSpot's field records are as many as
the array of slots says, at most 255, none of the instance fields is injected, and an
enum declares nothing but its constants.
-/

namespace DShuffle.Serde

open Base

/-! ### Klasses -/

/-- The type of a field whose signature names one. -/
def FakeFieldInfo.typeD (f : FakeFieldInfo) : BasicType :=
  match f.type with
  | .ok t => t
  | .error _ => .unset

/-- The field is a reference. -/
def FakeFieldInfo.isRef (f : FakeFieldInfo) : Bool := f.typeD.isReference

namespace FakeInstanceKlass

/-- The instance fields, sorted by their offsets. -/
def table (k : FakeInstanceKlass) : List FakeFieldInfo :=
  (ClassResolver.instanceFields k.fields).insertionSort fun f g => f.offset ≤ g.offset

/-- The size of the header. -/
def header (k : FakeInstanceKlass) : ℕ := ClassResolver.headerOf (ClassResolver.instanceFields k.fields)

/-- The number of static fields. -/
def statics (k : FakeInstanceKlass) : ℕ := k.fields.countP (·.isStatic)

/-- A constant goes to its place in the table. -/
def setConstant (table : List (Option EnumRef)) (f : FakeFieldInfo) : List (Option EnumRef) :=
  match f.constant with
  | some c => table.set c.ordinal (some ⟨c.object, c.handle⟩)
  | none => table

/-- The table of the constants of an enum; its last field is the array of all of them. -/
def constants (k : FakeInstanceKlass) : List (Option EnumRef) :=
  (k.fields.take (k.fields.length - 1)).foldl setConstant (List.replicate (k.fields.length - 1) none)

/-- **A klass that is registered as it is**. -/
structure Plain (k : FakeInstanceKlass) : Prop where
  /-- Six slots for each record, and one for each generic signature. -/
  slots : k.fieldArrayLength = 6 * k.fields.length + k.fields.countP (·.hasGenericSignature)
  /-- The number of records is a `uint8_t`. -/
  few : k.fields.length ≤ 255
  /-- No instance field is injected. -/
  visible : ∀ f ∈ k.fields, f.isStatic = false → f.isInternal = false
  /-- A signature names a primitive or a reference type. -/
  typed : ∀ f ∈ k.fields, ∃ t, f.type = .ok t ∧ (t.isPrimitive = true ∨ t.isReference = true)
  /-- The signature fits its place. -/
  short : k.name.length + 2 < maxSignatureLength
  /-- An enum has static fields only: its constants, and the array of them. -/
  enum : k.isEnum = true → k.fields ≠ [] ∧ (∀ f ∈ k.fields, f.isStatic = true) ∧
    ∀ f ∈ k.fields.take (k.fields.length - 1), ∃ c, f.constant = some c ∧ c.ordinal < k.fields.length - 1

end FakeInstanceKlass

namespace FakeArrayKlass

/-- The type of the elements. -/
def elemType : FakeArrayKlass → BasicType
  | typeArray _ _ t => t
  | objArray _ _ _ => .object
  | multi _ _ _ => .array

/-- The class of the elements. -/
def elem : FakeArrayKlass → Option FakeKlass
  | typeArray _ _ _ => none
  | objArray _ _ e => some (.inst e)
  | multi _ _ l => some (.array l)

/-- The classes that registering the array class registers, in order. -/
def closure : FakeArrayKlass → List FakeKlass
  | typeArray a h t => [.array (.typeArray a h t)]
  | objArray a h e => [.inst e, .array (.objArray a h e)]
  | multi a h l => l.closure ++ [.array (.multi a h l)]

end FakeArrayKlass

namespace FakeKlass

/-- The classes that registering the class registers, in order. -/
def closure : FakeKlass → List FakeKlass
  | inst k => [.inst k]
  | array k => k.closure

/-- The klass is registered as it is. -/
def Plain : FakeKlass → Prop
  | inst k => k.Plain
  | array k => k.signature.length < maxSignatureLength

end FakeKlass

/-- A class is entered once. -/
def enter (done : List FakeKlass) (k : FakeKlass) : List FakeKlass := if k ∈ done then done else done ++ [k]

/-- The registered classes, in the order of their ids, after calls on `ks`. -/
def order (ks : List FakeKlass) : List FakeKlass := (ks.flatMap FakeKlass.closure).foldl enter []

/-! ### Ids -/

/-- No registered class has the signature. -/
def Unknown (done : List FakeKlass) (sig : Symbol) : Prop := ∀ k ∈ done, k.signature ≠ sig

/-- The id of the class that the signature names. -/
def sigId (done : List FakeKlass) (sig : Symbol) : ℤ :=
  match done.findIdx? fun k => k.signature = sig with
  | some i => minClassId + i
  | none => unregisteredClassId

theorem findIdx?_signature_eq_none {done : List FakeKlass} {sig : Symbol} :
    (done.findIdx? fun k => k.signature = sig) = none ↔ Unknown done sig := by
  simp [List.findIdx?_eq_none_iff, Unknown]

theorem sigId_of_unknown {done : List FakeKlass} {sig : Symbol} (h : Unknown done sig) : sigId done sig = unregisteredClassId := by
  rw [sigId, findIdx?_signature_eq_none.mpr h]

/-- What is registered keeps its id. -/
theorem sigId_append_left {done : List FakeKlass} {k : FakeKlass} (ds : List FakeKlass) (hk : k ∈ done) :
    sigId (done ++ ds) k.signature = sigId done k.signature := by
  have hne : (done.findIdx? fun k' => k'.signature = k.signature) ≠ none := by
    intro hnone
    exact findIdx?_signature_eq_none.mp hnone k hk rfl
  obtain ⟨i, hi⟩ := Option.ne_none_iff_exists'.mp hne
  rw [sigId, sigId, List.findIdx?_append, hi]
  rfl

/-- A new class gives its id to its signature. -/
theorem sigId_concat {done : List FakeKlass} {k : FakeKlass} {sig : Symbol} (h : Unknown done sig) :
    sigId (done ++ [k]) sig = if k.signature = sig then minClassId + done.length else unregisteredClassId := by
  rw [sigId, List.findIdx?_append, findIdx?_signature_eq_none.mpr h]
  by_cases hsig : k.signature = sig
  · simp [hsig]
  · simp [hsig]

/-- The id of a signature is known before and after, or it is the one of the new class. -/
theorem sigId_concat_of_ne {done : List FakeKlass} {k : FakeKlass} {sig : Symbol} (h : k.signature ≠ sig) :
    sigId (done ++ [k]) sig = sigId done sig := by
  by_cases hunknown : Unknown done sig
  · rw [sigId_concat hunknown, if_neg h, sigId_of_unknown hunknown]
  · simp only [Unknown, not_forall, not_not] at hunknown
    obtain ⟨k', hk', rfl⟩ := hunknown
    exact sigId_append_left [k] hk'

/-! ### Class infos -/

/-- The entry of a field. -/
def fieldEntry (done : List FakeKlass) (header : ℕ) (f : FakeFieldInfo) : FieldInfo :=
  { id := if f.isRef then sigId done f.signature else -1
    offset := u32 (f.offset + 2 ^ 32 - header) % 2 ^ 16, type := f.typeD, flag := f.accessFlags, jFieldId := f.jFieldId }

/-- The entries of a class. -/
def specFields (done : List FakeKlass) : FakeKlass → List FieldInfo
  | .inst k => if k.isEnum then [] else k.table.map (fieldEntry done k.header)
  | .array k =>
    [{ id := k.elem.elim (-1) fun e => sigId done e.signature, offset := 0, type := k.elemType, flag := 0, jFieldId := 0 }]

/-- A class info without its id and its entries. -/
def baseInfo : FakeKlass → ClassInfo
  | .inst k =>
    { klass := k.addr, id := unregisteredClassId, enumRefArrOff := if k.isEnum then ClassResolver.sizeofClassInfo else 0
      objSize := if k.isEnum then 16 else k.layoutHelper / 2 * 2 % 2 ^ 16
      headerSize := if k.isEnum then 12 else k.header, nStaticField := k.statics, dim := 0, signature := k.signature
      fields := [], enums := if k.isEnum then k.constants else [] }
  | .array k =>
    { klass := k.addr, id := unregisteredClassId, enumRefArrOff := 0, objSize := k.headerSize, headerSize := k.headerSize
      nStaticField := 0, dim := k.dimension % 256, signature := k.signature, fields := [], enums := [] }

/-- **The class info of a class**, when the classes `done` are registered. -/
def specInfo (done : List FakeKlass) (k : FakeKlass) : ClassInfo :=
  { baseInfo k with id := sigId done k.signature, fields := specFields done k }

theorem specInfo_klass (done : List FakeKlass) (k : FakeKlass) : (specInfo done k).klass = k.addr := by
  cases k <;> rfl

theorem specInfo_signature (done : List FakeKlass) (k : FakeKlass) : (specInfo done k).signature = k.signature := by
  cases k <;> rfl

/-- The elements of the registered array classes are registered. -/
def Closed (done : List FakeKlass) : Prop := ∀ k ∈ done, ∀ c ∈ k.closure, c ∈ done

/-- The elements of an array class are in its closure. -/
theorem FakeArrayKlass.elem_mem_closure {k : FakeArrayKlass} {e : FakeKlass} (h : k.elem = some e) : e ∈ k.closure := by
  cases k with
  | typeArray a h' t => cases h
  | objArray a h' e' =>
    cases h
    exact List.mem_cons_self ..
  | multi a h' l =>
    cases h
    refine List.mem_append_left _ ?_
    cases l with
    | typeArray => exact List.mem_cons_self ..
    | objArray => exact List.mem_cons_of_mem _ (List.mem_cons_self ..)
    | multi => exact List.mem_append_right _ (List.mem_cons_self ..)

end DShuffle.Serde
