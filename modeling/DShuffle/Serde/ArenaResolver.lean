import DShuffle.Serde.ClassResolver
import DShuffle.Serde.Heap

/-!
# The class resolver, byte by byte

`ClassResolver` keeps its class infos in an arena: `SimpleAllocator::allocate` gives out
blocks one behind the other, and `from_instance_klass`, `from_array_klass` and the
setters of `ClassInfo` store into them through pointers. In the release build no
`assert` is left, so nothing checks that a signature fits its place, or that the arena
has room. This module is the resolver with the arena's bytes: a class info is an
address, and whatever the code asks a class info for is read from memory.

## The model

* `Layout` — the offsets and the size that `from_instance_klass` computes, in the widths
  of its variables.
* `Resolver` — the memory, the allocator, and the four indexes. `blocks` and `stores`
  are a record of what was allocated, and of every store with the block of the class
  that it is for; the code never looks at them.
* Several stores to adjacent bytes are one store; of the ten to the fixed part of a
  block, too. The number of entries that the loop over the fields fills in is
  read once.
* A string is read up to its zero byte, at most `fuel` bytes.

## Honest scope

The memory has no end: what is stored behind the arena is found there. The JVM is as
in `ClassResolver`, whose klasses are used here, too.
-/

namespace DShuffle.Serde.Arena

open Base Serde.ClassResolver

/-! ### Class infos in memory -/

/-- Where the parts of a block start, and its size. -/
structure Layout where
  /-- `n_non_static_field`. -/
  nNonStatic : ℕ
  /-- `n_static_field`. -/
  nStatic : ℕ
  /-- `enum_ref_arr_off`. -/
  enumRefArrOff : ℕ
  /-- `sig_off`. -/
  sigOff : ℕ
  /-- `needed_size`. -/
  size : ℕ
  deriving DecidableEq

/-- What `from_instance_klass` computes: `needed_size` is a `uint32_t`, the offsets are `uint16_t`; the number of
constants is an `int`, and then a `size_t`. -/
def instanceLayout (nNonStatic nStatic : ℕ) (isEnum : Bool) : Layout :=
  let needed := u32 (sizeofClassInfo + nNonStatic * sizeofFieldInfo)
  let table := if isEnum then (nStatic + 2 ^ 64 - 1) % 2 ^ 64 * 16 % 2 ^ 64 else 0
  { nNonStatic, nStatic
    enumRefArrOff := if isEnum then needed % 2 ^ 16 else 0
    sigOff := u32 (needed + table) % 2 ^ 16
    size := u32 (u32 (needed + table) + maxSignatureLength) }

/-- What `from_array_klass` computes. -/
def arrayLayout : Layout where
  nNonStatic := 1
  nStatic := 0
  enumRefArrOff := 0
  sigOff := sizeofClassInfo + sizeofFieldInfo
  size := sizeofClassInfo + sizeofFieldInfo + maxSignatureLength

/-- The fixed part of a `class_info_t`. -/
structure Header where
  /-- `klass`. -/
  klass : ℕ
  /-- `id`. -/
  id : ℤ
  /-- `klass_cptr`. -/
  klassCptr : ℕ
  /-- `obj_size`. -/
  objSize : ℕ
  /-- `header_size`. -/
  headerSize : ℕ
  /-- `dim`. -/
  dim : ℕ
  /-- The other members. -/
  layout : Layout

/-- The bytes of a `class_info_t`, its fields apart. -/
def Header.bytes (h : Header) : Bytes :=
  le 8 h.klass ++ (leInt16 h.id ++ (le 2 h.layout.enumRefArrOff ++ (le 4 h.klassCptr ++ (le 2 h.objSize ++
    (le 1 h.headerSize ++ (le 1 h.layout.nNonStatic ++ (le 1 h.layout.nStatic ++ (le 1 h.dim ++ le 2 h.layout.sigOff))))))))

/-- `basic_type_t`, an `int8_t`. -/
def typeByte (t : BasicType) : Bytes := [UInt8.ofNat (t.code % 256).toNat]

/-! ### The resolver -/

/-- A block that `allocate` returned, and the klass that it is for. -/
structure Block where
  /-- Its address. -/
  addr : ℕ
  /-- The size that was asked for. -/
  size : ℕ
  /-- The klass. -/
  klass : FakeKlass
  deriving DecidableEq

/-- A store: the block of the class that it is for, and where in it. -/
structure Store where
  /-- The address of the block. -/
  block : ℕ
  /-- The offset of the first byte. -/
  off : ℕ
  /-- The number of bytes. -/
  len : ℕ
  deriving DecidableEq

/-- `ClassResolver`, with its arena. -/
structure Resolver where
  /-- The memory of the process. -/
  mem : Mem
  /-- `infos.data()`. -/
  base : ℕ
  /-- `pos` of the allocator. -/
  pos : ℕ
  /-- `lim` of the allocator: `max_class_info_size`, rounded up to a multiple of 64. -/
  lim : ℕ
  /-- `info_by_id`. -/
  infoById : List ℕ
  /-- `info_by_klass`. -/
  infoByKlass : List ℕ
  /-- `sig2id`. -/
  sig2id : List (Symbol × ℤ)
  /-- `unresolved`: a pointer to a field is the address of the block, and the field in it. -/
  unresolved : Unresolved
  /-- What was allocated. -/
  blocks : List Block
  /-- What was stored. -/
  stores : List Store

namespace Resolver

/-- A resolver with nothing registered, over an arena of `lim` bytes. -/
def new (mem : Mem) (base lim : ℕ) : Resolver := ⟨mem, base, 0, lim, [], [], [], [], [], []⟩

/-- A store into the block at `b`. -/
def store (r : Resolver) (b off : ℕ) (bytes : Bytes) : Resolver :=
  { r with mem := write r.mem (b + off) bytes, stores := r.stores ++ [⟨b, off, bytes.length⟩] }

/-- The `n` bytes at an offset of the block at `b`, as a number. -/
def load (r : Resolver) (b off n : ℕ) : ℕ := ofLe (read r.mem (b + off) n)

/-- `klass()`. -/
def klass (r : Resolver) (b : ℕ) : ℕ := r.load b 0 8

/-- `id()`. -/
def id (r : Resolver) (b : ℕ) : ℤ := int16 (r.load b 8 2)

/-- `enum_ref_arr_off`. -/
def enumRefArrOff (r : Resolver) (b : ℕ) : ℕ := r.load b 10 2

/-- `object_header_size()`. -/
def headerSize (r : Resolver) (b : ℕ) : ℕ := r.load b 18 1

/-- `n_non_static_field()`. -/
def nNonStaticField (r : Resolver) (b : ℕ) : ℕ := r.load b 19 1

/-- `n_static_field()`. -/
def nStaticField (r : Resolver) (b : ℕ) : ℕ := r.load b 20 1

/-- `sig_off`. -/
def sigOff (r : Resolver) (b : ℕ) : ℕ := r.load b 22 2

/-- `signature()`. -/
def signature (fuel : ℕ) (r : Resolver) (b : ℕ) : Option Symbol := cString r.mem fuel (b + r.sigOff b)

/-- `allocate`: the limit is only asserted. -/
def allocate (r : Resolver) (size : ℕ) (k : FakeKlass) : Resolver × ℕ :=
  ({ r with pos := upperAlign (r.pos + size) 8, blocks := r.blocks ++ [⟨r.base + r.pos, size, k⟩] }, r.base + r.pos)

/-- `get_class_info(klass)`. -/
def getByKlass (r : Resolver) (k : ℕ) : Option ℕ := findSorted r.klass k r.infoByKlass

/-- `get_class_info(sig)`. -/
def getBySig (r : Resolver) (sig : Symbol) : Except Fault (Option ℕ) :=
  match r.sig2id.lookup sig with
  | none => .ok none
  | some id =>
    if minClassId ≤ id then
      match r.infoById[(id - minClassId).toNat]? with
      | some b => .ok (some b)
      | none => .error .badAccess
    else .error .badAccess

/-! ### New class infos -/

/-- `from_instance_klass`. -/
def fromInstanceKlass (args : JVMArgs) (r : Resolver) (k : FakeInstanceKlass) (isEnum : Bool) :
    Except Fault (Resolver × ℕ) := do
  let (nField, nStatic) ← k.fieldsCount
  let nNonStatic := (nField + 256 - nStatic) % 256
  let l := instanceLayout nNonStatic nStatic isEnum
  let (r, b) := r.allocate l.size (.inst k)
  let klassCptr ← args.compressMetaspacePtr k.addr
  let objSize := k.layoutHelper / 2 * 2
  let header : Header :=
    { klass := k.addr, id := unregisteredClassId, klassCptr, objSize, headerSize := 255, dim := 0, layout := l }
  let r := r.store b 0 header.bytes
  -- `'?'`
  let r := r.store b l.sigOff (List.replicate maxSignatureLength 63)
  let r := r.store b l.sigOff (k.signature ++ [0])
  let r := r.store b sizeofClassInfo (List.replicate (sizeofFieldInfo * nNonStatic) 255)
  return (r, b)

/-- `from_array_klass`. -/
def fromArrayKlass (args : JVMArgs) (r : Resolver) (k : FakeArrayKlass) : Except Fault (Resolver × ℕ) := do
  let l := arrayLayout
  let (r, b) := r.allocate l.size (.array k)
  let klassCptr ← args.compressMetaspacePtr k.addr
  let header : Header :=
    { klass := k.addr, id := unregisteredClassId, klassCptr, objSize := k.headerSize, headerSize := k.headerSize,
      dim := k.dimension, layout := l }
  let r := r.store b 0 header.bytes
  let r := r.store b l.sigOff (List.replicate maxSignatureLength 63)
  let r := r.store b l.sigOff (k.signature ++ [0])
  -- `fields[0]`: its type, its id and its offset
  let r := r.store b (sizeofClassInfo + 4) (typeByte .illegal)
  let r := r.store b sizeofClassInfo (leInt16 (-1))
  let r := r.store b (sizeofClassInfo + 2) (le 2 0)
  return (r, b)

/-! ### Registering -/

/-- `f->id = info.id()` for every field that waits, with the id of the class info at `b`. -/
def patchFields (b : ℕ) : List FieldPtr → Resolver → Resolver
  | [], r => r
  | (p, j) :: ps, r => patchFields b ps (r.store p (sizeofClassInfo + sizeofFieldInfo * j) (leInt16 (r.id b)))

/-- `register_class_info`. -/
def registerClassInfo (fuel : ℕ) (r : Resolver) (b : ℕ) : Except Fault Resolver :=
  let r := r.store b 8 (leInt16 (index2id r.infoById.length))
  let r := { r with infoById := r.infoById ++ [b], infoByKlass := insertSorted r.klass b r.infoByKlass }
  match r.signature fuel b with
  | none => .error .fuel
  | some sig =>
    let r := { r with sig2id := if (r.sig2id.lookup sig).isSome then r.sig2id else r.sig2id ++ [(sig, r.id b)] }
    let r := patchFields b ((r.unresolved.lookup sig).getD []) r
    .ok { r with unresolved := r.unresolved.filter (·.1 != sig) }

/-- The loop of `walk_enum_klass`, which stores `i` constants and goes on: `set_enum` for each static field but the last. -/
def setEnums (b : ℕ) : List FakeFieldInfo → ℕ → Resolver → Except Fault Resolver
  | [], i, r => if i < u32 (r.nStaticField b + 2 ^ 32 - 1) then .error .badAccess else .ok r
  | f :: fs, i, r =>
    if i < u32 (r.nStaticField b + 2 ^ 32 - 1) then
      match f.constant with
      | none => .error .badAccess
      | some c => setEnums b fs (i + 1) (r.store b (r.enumRefArrOff b + 16 * c.ordinal) (le 8 c.object ++ le 8 c.handle))
    else .ok r

/-- `walk_enum_klass`. -/
def walkEnumKlass (args : JVMArgs) (fuel : ℕ) (r : Resolver) (k : FakeInstanceKlass) : Except Fault (Resolver × ℤ) :=
  match r.getByKlass k.addr with
  | some b => .ok (r, r.id b)
  | none => do
    let (r, b) ← fromInstanceKlass args r k true
    let r := r.store b 18 (le 1 12)
    let r := r.store b 16 (le 2 16)
    let r ← setEnums b k.fields 0 r
    let r ← registerClassInfo fuel r b
    return (r, r.id b)

/-- The header size goes down to the least offset. -/
def setHeaderSizes (b : ℕ) : List FakeFieldInfo → Resolver → Resolver
  | [], r => r
  | f :: fs, r => setHeaderSizes b fs (if f.offset < r.headerSize b then r.store b 18 (le 1 f.offset) else r)

/-- What the loop stores into the entry `i` before it looks at the type. -/
def describeField (b i : ℕ) (f : FakeFieldInfo) (t : BasicType) (r : Resolver) : Resolver :=
  let entry := sizeofClassInfo + sizeofFieldInfo * i
  let r := r.store b (entry + 2) (le 2 (u32 (f.offset + 2 ^ 32 - r.headerSize b)))
  let r := r.store b (entry + 4) (typeByte t)
  r.store b (entry + 6) (le 2 f.accessFlags)

/-- `unresolved[sig].push_back(..)`: the entry `i` waits for the class with the signature. -/
def waitFor (b i : ℕ) (sig : Symbol) (r : Resolver) : Resolver :=
  { r with unresolved := pushUnresolved sig (b, i) r.unresolved }

/-- What the loop of `walk_instance_klass` does with the entry `i`: a reference to a class that is not registered waits. -/
def resolveField (b i : ℕ) (f : FakeFieldInfo) (r : Resolver) : Except Fault Resolver := do
  let t ← f.type
  let entry := sizeofClassInfo + sizeofFieldInfo * i
  let r := (describeField b i f t r).store b (entry + 16) (le 8 f.jFieldId)
  if t.isReference then
    match ← r.getBySig f.signature with
    | none => return (r.store b entry (leInt16 unregisteredClassId)).waitFor b i f.signature
    | some p => return r.store b entry (leInt16 (r.id p))
  else if t.isPrimitive then return r
  else throw .unreachable

/-- That loop, for `n` entries, from the entry `i` on. -/
def resolveFields (b : ℕ) : (n i : ℕ) → List FakeFieldInfo → Resolver → Except Fault Resolver
  | 0, _, _, r => .ok r
  | _ + 1, _, [], _ => .error .badAccess
  | n + 1, i, f :: fs, r => do
    let r ← resolveField b i f r
    resolveFields b n (i + 1) fs r

/-- `walk_instance_klass`. -/
def walkInstanceKlass (args : JVMArgs) (fuel : ℕ) (r : Resolver) (k : FakeInstanceKlass) : Except Fault (Resolver × ℤ) :=
  match r.getByKlass k.addr with
  | some b => .ok (r, r.id b)
  | none => do
    let (r, b) ← fromInstanceKlass args r k false
    let nField := r.nNonStaticField b + r.nStaticField b
    if k.fields.length < nField then throw .badAccess
    let collected := instanceFields (k.fields.take nField)
    let r := setHeaderSizes b collected r
    let idx := collected.insertionSort fun f g => f.offset ≤ g.offset
    let r ← resolveFields b (r.nNonStaticField b) 0 idx r
    let r ← registerClassInfo fuel r b
    return (r, r.id b)

/-- `walk_enum_klass` or `walk_instance_klass`. -/
def walkKlass (args : JVMArgs) (fuel : ℕ) (r : Resolver) (k : FakeInstanceKlass) : Except Fault (Resolver × ℤ) :=
  if k.isEnum then walkEnumKlass args fuel r k else walkInstanceKlass args fuel r k

/-- `elem_info.type`. -/
def setElemType (r : Resolver) (b : ℕ) (t : BasicType) : Resolver := r.store b (sizeofClassInfo + 4) (typeByte t)

/-- `elem_info.id`. -/
def setElemId (r : Resolver) (b : ℕ) (id : ℤ) : Resolver := r.store b sizeofClassInfo (leInt16 id)

/-- `walk_array_klass`. -/
def walkArrayKlass (args : JVMArgs) (fuel : ℕ) (r : Resolver) : FakeArrayKlass → Except Fault (Resolver × ℤ)
  | .typeArray a h t =>
    match r.getByKlass a with
    | some b => .ok (r, r.id b)
    | none => do
      let (r, b) ← fromArrayKlass args r (.typeArray a h t)
      let r ← registerClassInfo fuel (r.setElemType b t) b
      return (r, r.id b)
  | .objArray a h e =>
    match r.getByKlass a with
    | some b => .ok (r, r.id b)
    | none => do
      let (r, b) ← fromArrayKlass args r (.objArray a h e)
      let (r, id) ← walkKlass args fuel (r.setElemType b .object) e
      let r ← registerClassInfo fuel (r.setElemId b id) b
      return (r, r.id b)
  | .multi a h l =>
    match r.getByKlass a with
    | some b => .ok (r, r.id b)
    | none => do
      let (r, b) ← fromArrayKlass args r (.multi a h l)
      let (r, id) ← walkArrayKlass args fuel (r.setElemType b .array) l
      let r ← registerClassInfo fuel (r.setElemId b id) b
      return (r, r.id b)

/-- `register_class`. -/
def registerClass (args : JVMArgs) (fuel : ℕ) (r : Resolver) (k : FakeKlass) : Except Fault (Resolver × ℤ) :=
  match r.getByKlass k.addr with
  | some b => .ok (r, r.id b)
  | none =>
    match k with
    | .inst k => walkKlass args fuel r k
    | .array k => walkArrayKlass args fuel r k

/-- A call of `register_class` as a step; it fails where the call does. -/
def step (args : JVMArgs) (fuel : ℕ) (r : Resolver) (k : FakeKlass) : Option Resolver :=
  match r.registerClass args fuel k with
  | .ok (r', _) => some r'
  | .error _ => none

end Resolver

end DShuffle.Serde.Arena
