import DShuffle.Base.SortedList
import DShuffle.Serde.ClassInfo

/-!
# The class resolver

`ClassResolver` (`class_resolver.hxx`, `class_resolver.cxx`) keeps one
`class_info_t` for every registered class, and `ClassWalker`
(`class_walker.cxx`) fills them in from HotSpot's own klass structures, which
`fake.hxx` lays over the JVM's memory.

## The model

* A klass is a value: `FakeInstanceKlass` with its field records, and
  `FakeArrayKlass` with its element klass. What JNI answers about a field (its
  field id, and for a static field of an enum the constant in it with a global
  reference) is kept in the field's record.
* The arena is the list `infos` of its blocks in the order of allocation, and a
  pointer to a class info is a position in it; a pointer to a field is a pair of
  positions. `info_by_id` and `info_by_klass` hold such pointers, the two hash
  maps are association lists, and a lookup that finds the dummy is `none`.
* `assert` is compiled out, so an id past `MAX_CLASS_ID` wraps and a long
  signature runs out of its block, which is the fault `overrun`.

## Honest scope

The arena never runs full here, and blocks do not overlap; `std::ranges::sort`
is a stable sort (fields of one klass have distinct offsets). `Symbol`s hold no
zero byte, as modified UTF-8 does not, so the signature read back from a block
is the one written there.
-/

namespace DShuffle.Serde

open Base

/-! ### Klasses -/

/-- What JNI says about the static field of an enum klass that holds a constant. -/
structure EnumConstant where
  /-- The address of the constant. -/
  object : ℕ
  /-- Its ordinal. -/
  ordinal : ℕ
  /-- The global reference `NewGlobalRef` made. -/
  handle : ℕ
  deriving DecidableEq, Repr

/-- `FakeFieldInfo`, with what JNI answers about the field. -/
structure FakeFieldInfo where
  /-- The access flags. -/
  accessFlags : ℕ
  /-- The signature. -/
  signature : Symbol
  /-- The low half of the packed offset. -/
  lowPackedOffset : ℕ
  /-- The high half of the packed offset. -/
  highPackedOffset : ℕ
  /-- What `GetFieldID` answers for it. -/
  jFieldId : ℕ
  /-- What `GetStaticObjectField` finds in it; `none` if there is no such constant. -/
  constant : Option EnumConstant
  deriving DecidableEq, Repr

namespace FakeFieldInfo

/-- `is_static`, bit `JVM_ACC_STATIC`. -/
def isStatic (f : FakeFieldInfo) : Bool := f.accessFlags.testBit 3

/-- `is_internal`, bit `JVM_ACC_FIELD_INTERNAL`. -/
def isInternal (f : FakeFieldInfo) : Bool := f.accessFlags.testBit 10

/-- `field_has_generic_signature`. -/
def hasGenericSignature (f : FakeFieldInfo) : Bool := f.accessFlags.testBit 11

/-- `offset`. -/
def offset (f : FakeFieldInfo) : ℕ := (f.highPackedOffset * 2 ^ 16 + f.lowPackedOffset) / 4

/-- `type`: the first letter of the signature. -/
def type (f : FakeFieldInfo) : Except Fault BasicType :=
  match f.signature with
  | c :: _ => BasicType.ofChar c
  | [] => .error .badAccess

end FakeFieldInfo

/-- `FakeInstanceKlass`. -/
structure FakeInstanceKlass where
  /-- Its address. -/
  addr : ℕ
  /-- Its name, `signature()`. -/
  name : Symbol
  /-- The name of its super klass. -/
  super : Option Symbol
  /-- The layout helper: the size of an instance. -/
  layoutHelper : ℕ
  /-- `field_info_array->length`, in slots of two bytes. -/
  fieldArrayLength : ℕ
  /-- The field records. -/
  fields : List FakeFieldInfo
  deriving DecidableEq, Repr

namespace FakeInstanceKlass

/-- `is_enum`. -/
def isEnum (k : FakeInstanceKlass) : Bool := k.super = some (sym "java/lang/Enum")

/-- The loop of `fields_count`: each generic signature takes one slot at the end. -/
def fieldsCountLoop : List FakeFieldInfo → (i limit statics : ℕ) → Except Fault (ℕ × ℕ)
  | [], i, limit, statics => if i * 6 < limit then .error .badAccess else .ok (limit / 6, statics)
  | f :: fs, i, limit, statics =>
    if i * 6 < limit then
      fieldsCountLoop fs (i + 1) (if f.hasGenericSignature then limit - 1 else limit)
        (if f.isStatic then statics + 1 else statics)
    else .ok (limit / 6, statics)

/-- `fields_count`: a pair of `uint8_t`. -/
def fieldsCount (k : FakeInstanceKlass) : Except Fault (ℕ × ℕ) := do
  let (n, statics) ← fieldsCountLoop k.fields 0 k.fieldArrayLength 0
  return (n % 256, statics % 256)

/-- The signature that names the klass in a field: `L`, the name and a semicolon. -/
def signature (k : FakeInstanceKlass) : Symbol := sym "L" ++ k.name ++ sym ";"

end FakeInstanceKlass

/-- `FakeArrayKlass`, by what its elements are. -/
inductive FakeArrayKlass where
  /-- One dimension, elements of a primitive type. -/
  | typeArray (addr headerSize : ℕ) (t : BasicType)
  /-- One dimension, elements of an instance klass. -/
  | objArray (addr headerSize : ℕ) (elem : FakeInstanceKlass)
  /-- More dimensions. -/
  | multi (addr headerSize : ℕ) (lower : FakeArrayKlass)
  deriving DecidableEq, Repr

namespace FakeArrayKlass

/-- Its address. -/
def addr : FakeArrayKlass → ℕ
  | typeArray a _ _ => a
  | objArray a _ _ => a
  | multi a _ _ => a

/-- `lh.array_header_size()`. -/
def headerSize : FakeArrayKlass → ℕ
  | typeArray _ h _ => h % 256
  | objArray _ h _ => h % 256
  | multi _ h _ => h % 256

/-- `dimension`. -/
def dimension : FakeArrayKlass → ℕ
  | typeArray .. => 1
  | objArray .. => 1
  | multi _ _ l => l.dimension + 1

/-- `signature()`, as HotSpot names array classes. -/
def signature : FakeArrayKlass → Symbol
  | typeArray _ _ t => sym "[" ++ [t.letter]
  | objArray _ _ e => sym "[" ++ e.signature
  | multi _ _ l => sym "[" ++ l.signature

end FakeArrayKlass

/-- `FakeKlass`: what `register_class` is called on. -/
inductive FakeKlass where
  /-- An instance klass. -/
  | inst (k : FakeInstanceKlass)
  /-- An array klass. -/
  | array (k : FakeArrayKlass)
  deriving DecidableEq, Repr

namespace FakeKlass

/-- Its address. -/
def addr : FakeKlass → ℕ
  | inst k => k.addr
  | array k => k.addr

/-- The signature its class info carries. -/
def signature : FakeKlass → Symbol
  | inst k => k.signature
  | array k => k.signature

end FakeKlass

/-! ### The resolver -/

/-- A pointer to a field of a class info: the block, and the field in it. -/
abbrev FieldPtr := ℕ × ℕ

/-- `unresolved`: for a signature that is not registered, the fields that wait for it. -/
abbrev Unresolved := List (Symbol × List FieldPtr)

/-- `ClassResolver`. -/
structure ClassResolver where
  /-- The blocks of the arena, in the order of allocation. -/
  infos : List ClassInfo
  /-- `info_by_id`. -/
  infoById : List ℕ
  /-- `info_by_klass`. -/
  infoByKlass : List ℕ
  /-- `sig2id`. -/
  sig2id : List (Symbol × ℤ)
  /-- `unresolved`. -/
  unresolved : Unresolved
  deriving DecidableEq, Repr

namespace ClassResolver

/-- A resolver with nothing registered. -/
def empty : ClassResolver := ⟨[], [], [], [], []⟩

/-- The klass of the class info at a pointer. -/
def klassAt (infos : List ClassInfo) (p : ℕ) : ℕ := ((infos[p]?).map (·.klass)).getD 0

/-- `get_class_info(klass)`. -/
def getByKlass (r : ClassResolver) (k : ℕ) : Option ClassInfo :=
  (findSorted (klassAt r.infos) k r.infoByKlass).bind (r.infos[·]?)

/-- `get_class_info(id)`: the index is unsigned, so an id below the least one is out of range. -/
def getById (r : ClassResolver) (id : ℤ) : Option ClassInfo :=
  if minClassId ≤ id then (r.infoById[(id - minClassId).toNat]?).bind (r.infos[·]?) else none

/-- `get_class_info(sig)`: what `sig2id` gives is used unchecked. -/
def getBySig (r : ClassResolver) (sig : Symbol) : Except Fault (Option ClassInfo) :=
  match r.sig2id.lookup sig with
  | none => .ok none
  | some id =>
    match r.getById id with
    | some i => .ok (some i)
    | none => .error .badAccess

theorem mem_of_getByKlass {r : ClassResolver} {k : ℕ} {i : ClassInfo} (h : r.getByKlass k = some i) : i ∈ r.infos := by
  obtain ⟨p, -, hp⟩ := Option.bind_eq_some_iff.mp h
  exact List.mem_of_getElem? hp

theorem mem_of_getById {r : ClassResolver} {id : ℤ} {i : ClassInfo} (h : r.getById id = some i) : i ∈ r.infos := by
  unfold getById at h
  split_ifs at h with hid
  obtain ⟨p, -, hp⟩ := Option.bind_eq_some_iff.mp h
  exact List.mem_of_getElem? hp

theorem klass_of_getByKlass {r : ClassResolver} {k : ℕ} {i : ClassInfo} (h : r.getByKlass k = some i) : i.klass = k := by
  obtain ⟨p, hp, hi⟩ := Option.bind_eq_some_iff.mp h
  have hk := key_of_findSorted hp
  rw [klassAt, hi] at hk
  exact hk

/-- The resolver has the class info, under its klass. -/
def Has (r : ClassResolver) (i : ClassInfo) : Prop := r.getByKlass i.klass = some i

theorem has_of_getByKlass {r : ClassResolver} {k : ℕ} {i : ClassInfo} (h : r.getByKlass k = some i) : r.Has i := by
  rw [Has, klass_of_getByKlass h]
  exact h

/-- **What the serializer relies on in a resolver**: the id of a class finds it, and so does its klass, ids are
`int16_t`, and the class of an array's elements is registered. -/
structure WellFormed (r : ClassResolver) : Prop where
  /-- The id of a registered class finds it. -/
  byId : ∀ i, r.Has i → r.getById i.id = some i
  /-- An id is an `int16_t`. -/
  range : ∀ i, r.Has i → int16 i.id = i.id
  /-- What an id finds is registered. -/
  byKlass : ∀ id i, r.getById id = some i → r.Has i
  /-- The class of the elements of an array class is registered, and names the array class. -/
  elem : ∀ i f, r.Has i → i.isArray = true → i.elem = .ok f → f.type.isReference = true →
    ∃ e, r.getById f.id = some e ∧ i.signature = sym "[" ++ e.signature

/-- `index2id`, in `class_id_t`. -/
def index2id (i : ℕ) : ℤ := int16 (i + minClassId)

/-! ### New class infos -/

/-- `sizeof(class_info_t)`. -/
def sizeofClassInfo : ℕ := 24

/-- `sizeof(field_info_t)`. -/
def sizeofFieldInfo : ℕ := 24

/-- A field whose bytes are all ones, as `memset(.., -1, ..)` leaves it. -/
def blankField : FieldInfo :=
  { id := -1, offset := 2 ^ 16 - 1, type := .unset, flag := 2 ^ 16 - 1, jFieldId := 2 ^ 64 - 1 }

/-- `from_instance_klass`: a block for an instance klass, not registered yet. -/
def fromInstanceKlass (k : FakeInstanceKlass) (isEnum : Bool) : Except Fault ClassInfo := do
  let (nField, nStatic) ← k.fieldsCount
  let nNonStatic := (nField + 256 - nStatic) % 256
  let neededSize := sizeofClassInfo + nNonStatic * sizeofFieldInfo
  -- the signature and its three further bytes fill the last part of the block
  if maxSignatureLength < k.name.length + 3 then throw .overrun
  return {
    klass := k.addr
    id := unregisteredClassId
    enumRefArrOff := if isEnum then neededSize % 2 ^ 16 else 0
    objSize := k.layoutHelper / 2 * 2 % 2 ^ 16
    headerSize := 255
    nStaticField := nStatic
    dim := 0
    signature := k.signature
    fields := List.replicate nNonStatic blankField
    enums := if isEnum then List.replicate (nStatic - 1) none else [] }

/-- `from_array_klass`: a block for an array klass, not registered yet. -/
def fromArrayKlass (k : FakeArrayKlass) : Except Fault ClassInfo := do
  if maxSignatureLength < k.signature.length + 1 then throw .overrun
  return {
    klass := k.addr
    id := unregisteredClassId
    enumRefArrOff := 0
    objSize := k.headerSize
    headerSize := k.headerSize
    nStaticField := 0
    dim := k.dimension % 256
    signature := k.signature
    fields := [{ id := -1, offset := 0, type := .illegal, flag := 0, jFieldId := 0 }]
    enums := [] }

/-! ### Registering -/

/-- `f->id = id` for every field that waits. -/
def patchFields (infos : List ClassInfo) (id : ℤ) : List FieldPtr → List ClassInfo
  | [] => infos
  | (p, j) :: ps =>
    patchFields (infos.modify p fun i => { i with fields := i.fields.modify j fun f => { f with id } }) id ps

/-- `register_class_info`: give the block `p` its id and enter it everywhere. -/
def registerClassInfo (r : ClassResolver) (p : ℕ) : Except Fault (ClassResolver × ℤ) :=
  match r.infos[p]? with
  | none => .error .badAccess
  | some info =>
    let id := index2id r.infoById.length
    let infos := r.infos.modify p fun i => { i with id }
    let r' : ClassResolver :=
      { infos := patchFields infos id ((r.unresolved.lookup info.signature).getD [])
        infoById := r.infoById ++ [p]
        infoByKlass := insertSorted (klassAt infos) p r.infoByKlass
        sig2id := if (r.sig2id.lookup info.signature).isSome then r.sig2id else r.sig2id ++ [(info.signature, id)]
        unresolved := r.unresolved.filter (·.1 != info.signature) }
    .ok (r', id)

/-- `set_enum` for the constants in the first `n` fields. -/
def setEnums : (n : ℕ) → List FakeFieldInfo → List (Option EnumRef) → Except Fault (List (Option EnumRef))
  | 0, _, table => .ok table
  | _ + 1, [], _ => .error .badAccess
  | n + 1, f :: fs, table =>
    match f.constant with
    | none => .error .badAccess
    | some c =>
      if c.ordinal < table.length then setEnums n fs (table.set c.ordinal (some ⟨c.object, c.handle⟩))
      else .error .overrun

/-- `walk_enum_klass`. -/
def walkEnumKlass (r : ClassResolver) (k : FakeInstanceKlass) : Except Fault (ClassResolver × ℤ) :=
  match r.getByKlass k.addr with
  | some i => .ok (r, i.id)
  | none => do
    let info ← fromInstanceKlass k true
    -- the last static field is the array of all constants
    let enums ← setEnums (u32 (info.nStaticField + 2 ^ 32 - 1)) k.fields info.enums
    let info := { info with headerSize := 12, objSize := 16, enums }
    registerClassInfo { r with infos := r.infos ++ [info] } r.infos.length

/-- The fields that `walk_instance_klass` collects: neither internal nor static. -/
def instanceFields (fs : List FakeFieldInfo) : List FakeFieldInfo := fs.filter fun f => !f.isInternal && !f.isStatic

/-- The header ends where the first field begins. -/
def headerOf (fs : List FakeFieldInfo) : ℕ := fs.foldl (fun h f => if f.offset < h then f.offset else h) 255

/-- Enter a field that waits for `sig`. -/
def pushUnresolved (sig : Symbol) (q : FieldPtr) : Unresolved → Unresolved
  | [] => [(sig, [q])]
  | (s, qs) :: u => if s = sig then (s, qs ++ [q]) :: u else (s, qs) :: pushUnresolved sig q u

/-- The loop that resolves the fields of block `p`: the `i`-th of `n` entries is filled from the next
record, and a reference to a class that is not registered waits for it. -/
def resolveFields (r : ClassResolver) (p header : ℕ) :
    (n i : ℕ) → List FakeFieldInfo → Unresolved → Except Fault (List FieldInfo × Unresolved)
  | 0, _, _, u => .ok ([], u)
  | _ + 1, _, [], _ => .error .badAccess
  | n + 1, i, f :: fs, u => do
    let t ← f.type
    let entry : FieldInfo :=
      { id := -1, offset := u32 (f.offset + 2 ^ 32 - header) % 2 ^ 16, type := t, flag := f.accessFlags,
        jFieldId := f.jFieldId }
    if t.isReference then
      match ← r.getBySig f.signature with
      | none => do
        let (es, u') ← resolveFields r p header n (i + 1) fs (pushUnresolved f.signature (p, i) u)
        return ({ entry with id := unregisteredClassId } :: es, u')
      | some info => do
        let (es, u') ← resolveFields r p header n (i + 1) fs u
        return ({ entry with id := info.id } :: es, u')
    else if t.isPrimitive then do
      let (es, u') ← resolveFields r p header n (i + 1) fs u
      return (entry :: es, u')
    else throw .unreachable

/-- `walk_instance_klass`. -/
def walkInstanceKlass (r : ClassResolver) (k : FakeInstanceKlass) : Except Fault (ClassResolver × ℤ) :=
  match r.getByKlass k.addr with
  | some i => .ok (r, i.id)
  | none => do
    let info ← fromInstanceKlass k false
    let nField := info.nNonStaticField + info.nStaticField
    if k.fields.length < nField then throw .badAccess
    let collected := instanceFields (k.fields.take nField)
    let header := headerOf collected
    let idx := collected.insertionSort fun f g => f.offset ≤ g.offset
    let p := r.infos.length
    let (fields, unresolved) ← resolveFields r p header info.nNonStaticField 0 idx r.unresolved
    registerClassInfo { r with infos := r.infos ++ [{ info with headerSize := header, fields }], unresolved } p

/-- `walk_enum_klass` or `walk_instance_klass`. -/
def walkKlass (r : ClassResolver) (k : FakeInstanceKlass) : Except Fault (ClassResolver × ℤ) :=
  if k.isEnum then walkEnumKlass r k else walkInstanceKlass r k

/-- The element entry of the block `p` of an array klass. -/
def setElem (r : ClassResolver) (p : ℕ) (t : BasicType) (id : ℤ) : ClassResolver :=
  { r with infos := r.infos.modify p fun i => { i with fields := i.fields.modify 0 fun f => { f with type := t, id } } }

/-- `walk_array_klass`: the block comes first, then the element class, then the array class itself. -/
def walkArrayKlass (r : ClassResolver) : FakeArrayKlass → Except Fault (ClassResolver × ℤ)
  | .typeArray a h t =>
    match r.getByKlass a with
    | some i => .ok (r, i.id)
    | none => do
      let info ← fromArrayKlass (.typeArray a h t)
      let r₁ := { r with infos := r.infos ++ [info] }
      registerClassInfo (r₁.setElem r.infos.length t (-1)) r.infos.length
  | .objArray a h e =>
    match r.getByKlass a with
    | some i => .ok (r, i.id)
    | none => do
      let info ← fromArrayKlass (.objArray a h e)
      let (r₁, id) ← walkKlass { r with infos := r.infos ++ [info] } e
      registerClassInfo (r₁.setElem r.infos.length .object id) r.infos.length
  | .multi a h l =>
    match r.getByKlass a with
    | some i => .ok (r, i.id)
    | none => do
      let info ← fromArrayKlass (.multi a h l)
      let (r₁, id) ← walkArrayKlass { r with infos := r.infos ++ [info] } l
      registerClassInfo (r₁.setElem r.infos.length .array id) r.infos.length

/-- `register_class`. -/
def registerClass (r : ClassResolver) (k : FakeKlass) : Except Fault (ClassResolver × ℤ) :=
  match r.getByKlass k.addr with
  | some i => .ok (r, i.id)
  | none =>
    match k with
    | .inst k => walkKlass r k
    | .array k => walkArrayKlass r k

/-- `register_class` on each of a sequence of classes, the loop of `register_classes`. -/
def registerAll (r : ClassResolver) : List FakeKlass → Except Fault ClassResolver
  | [] => .ok r
  | k :: ks => do
    let (r', _) ← r.registerClass k
    registerAll r' ks

end ClassResolver

end DShuffle.Serde
