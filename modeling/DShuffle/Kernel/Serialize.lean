import DShuffle.Kernel.Mem
import DShuffle.Serde.ClassResolver
import DShuffle.Serde.Heap

/-!
# The DPA kernel

`_do_serialize` (`sd/kernel/sd.c`) is the serializer that runs on the DPA. It is
written separately from the host's walker: its buffer is a pair of pointers, it
pads by a switch over the pointer, it copies by `d_memcpy`, it finds a class info
by bisection, and it reads the Java heap through a window of the device's address
space, the addresses with bit 63 set.

## The model

* An `Outbuf` is the device's memory with the two pointers of `buffer_t`. The
  limit is stored there and never looked at.
* `Globals` are the kernel's global variables: the class infos sorted by klass,
  as `register_class_infos` lays them out, and the JVM's settings.
* `UNREACHABLE_CRIT` only logs. After it `get_class_info_by_klass` returns a null
  pointer, which the caller reads through.
* `cur_off` is a `uint32_t`, and so are the offsets of the fields of an object.

`Refinement` relates it to the host's walker.
-/

namespace DShuffle.Kernel

open Base Serde

/-! ### Buffers -/

/-- `buffer_t` and the device's memory. -/
structure Outbuf where
  /-- The device's memory. -/
  mem : Mem
  /-- The start of the buffer. -/
  p : ℕ
  /-- The cursor. -/
  curP : ℕ

/-- `h2d`: the address through which the device sees a host address. -/
def h2d (a : ℕ) : ℕ := a ||| 2 ^ 63

/-- `align_up_8`. -/
def alignUp8 (x : ℕ) : ℕ := (x + 7) / 8 * 8

namespace Outbuf

/-- `cur_off`. -/
def curOff (b : Outbuf) : ℕ := u32 (b.curP - b.p)

/-- `put_u8`, `put_u16`, `put_u32`: a number of `n` bytes. -/
def putUInt (n : ℕ) (b : Outbuf) (v : ℕ) : Outbuf := { b with mem := write b.mem b.curP (le n v), curP := b.curP + n }

/-- `put_u8`. -/
def putU8 : Outbuf → ℕ → Outbuf := putUInt 1

/-- `put_u16`. -/
def putU16 : Outbuf → ℕ → Outbuf := putUInt 2

/-- `put_u32`. -/
def putU32 : Outbuf → ℕ → Outbuf := putUInt 4

/-- `put_u32_at`. -/
def putU32At (b : Outbuf) (v off : ℕ) : Outbuf := { b with mem := write b.mem (b.p + off) (le 4 v) }

/-- `get_u32_at`. -/
def getU32At (b : Outbuf) (off : ℕ) : ℕ := ofLe (read b.mem (b.p + off) 4)

/-- `put`. -/
def put (b : Outbuf) (src len : ℕ) : Outbuf := { b with mem := dMemcpy b.mem b.curP src len, curP := b.curP + len }

/-- `fill_next_align_8`. -/
def fillNextAlign8 (b : Outbuf) : Outbuf :=
  match u32 (alignUp8 b.curP - b.curP) with
  | 7 => ((b.putU8 0).putU16 0).putU32 0
  | 6 => (b.putU16 0).putU32 0
  | 5 => (b.putU8 0).putU32 0
  | 4 => b.putU32 0
  | 3 => (b.putU8 0).putU16 0
  | 2 => b.putU16 0
  | 1 => b.putU8 0
  | _ => b

end Outbuf

/-! ### Reading objects -/

/-- `parse_u32_at`; the offset is a `uint32_t`. -/
def parseU32At (mem : Mem) (d off : ℕ) : ℕ := ofLe (read mem (d + u32 off) 4)

/-- `get_enum_ordinal`. -/
def getEnumOrdinal (mem : Mem) (d : ℕ) : ℕ := parseU32At mem d 12

/-- `get_array_length`. -/
def getArrayLength (mem : Mem) (d headerSize : ℕ) : ℕ := parseU32At mem d (headerSize + 2 ^ 32 - 4)

/-- `get_array_elem_cptr`. -/
def getArrayElemCptr (mem : Mem) (d headerSize i : ℕ) : ℕ := parseU32At mem d (headerSize + i * 4)

/-- The kernel's global variables. -/
structure Globals where
  /-- `meta_idx.class_infos_by_klass`. -/
  classInfosByKlass : List ClassInfo
  /-- `jvm_args`; `parse_cptr` is the host's function. -/
  jvmArgs : JVMArgs

namespace Globals

variable (g : Globals)

/-- `get_class_info_by_klass`. -/
def getClassInfoByKlass (klass : ℕ) : Option ClassInfo :=
  bisect (·.klass) klass g.classInfosByKlass 0 (u32 g.classInfosByKlass.length)

/-- `get_klass_pointer`. -/
def getKlassPointer (mem : Mem) (d : ℕ) : Except Fault ℕ := g.jvmArgs.parseMetaspaceCptr (parseU32At mem d 8)

/-! ### The serializer -/

/-- A call of `_do_serialize_recur`: the object, the expected id and the buffer; the record's offset and the buffer
come back. -/
abbrev Recur := ℕ → ℤ → Outbuf → Except Fault (ℕ × Outbuf)

/-- The loop of `_do_serialize_object` over the fields. -/
def serializeFields (rec : Recur) (objBase : ℕ) : List FieldInfo → Outbuf → Except Fault Outbuf
  | [], b => .ok b
  | f :: fs, b =>
    if f.type.isPrimitive then serializeFields rec objBase fs b
    else do
      let fOffset := u32 (objBase + f.offset)
      let member ← g.jvmArgs.parseHeapCptr (b.getU32At fOffset)
      let (memberOffset, b) ← rec member f.id b
      serializeFields rec objBase fs (b.putU32At memberOffset fOffset)

/-- `_do_serialize_object`. -/
def doSerializeObject (rec : Recur) (object : ℕ) (info : ClassInfo) (b : Outbuf) : Except Fault Outbuf :=
  let b := ((b.putU16 (info.id % 65536).toNat).putU16 objectFlag).fillNextAlign8
  let objBase := b.curOff
  g.serializeFields rec objBase info.fields (b.put (h2d (object + info.headerSize)) info.objectBodySize)

/-- The loop of `_do_serialize_array` over the `n` elements from the `i`-th on. -/
def serializeElems (rec : Recur) (array headerSize : ℕ) (id : ℤ) : (n i : ℕ) → Outbuf → Except Fault Outbuf
  | 0, _, b => .ok b
  | n + 1, i, b => do
    let elem ← g.jvmArgs.parseHeapCptr (getArrayElemCptr b.mem array headerSize i)
    let (_, b) ← rec elem id b
    serializeElems rec array headerSize id n (i + 1) b

/-- `_do_serialize_array`. -/
def doSerializeArray (rec : Recur) (array : ℕ) (info : ClassInfo) (b : Outbuf) : Except Fault Outbuf := do
  let d := h2d array
  let length := getArrayLength b.mem d info.headerSize
  let b := (((b.putU16 (info.id % 65536).toNat).putU16 arrayFlag).putU32 length).fillNextAlign8
  let elem ← info.elem
  if elem.type.isReference then g.serializeElems rec d info.headerSize elem.id length 0 b
  else if elem.type.isPrimitive then return b.put (d + info.headerSize) (u32 (length * elem.type.size))
  else return b

/-- The body of `_do_serialize_recur`. -/
def recurStep (rec : Recur) : Recur := fun object expectedId b =>
  let b := b.fillNextAlign8
  let base := b.curOff
  if object = 0 then .ok (base, (b.putU16 (expectedId % 65536).toNat).putU16 nullFlag)
  else do
    let d := h2d object
    let klass ← g.getKlassPointer b.mem d
    match g.getClassInfoByKlass klass with
    | none => throw .badAccess
    | some info =>
      if info.isEnum then
        return (base, ((b.putU16 (info.id % 65536).toNat).putU16 (enumFlag + objectFlag)).putU32 (getEnumOrdinal b.mem d))
      else if info.isObject then return (base, ← g.doSerializeObject rec object info b)
      else if info.isArray then return (base, ← g.doSerializeArray rec object info b)
      else return (base, b)

/-- `_do_serialize_recur`. -/
def doSerializeRecur : (fuel : ℕ) → Recur
  | 0 => fun _ _ _ => .error .fuel
  | fuel + 1 => g.recurStep (doSerializeRecur fuel)

/-- `_do_serialize`. -/
def doSerialize (fuel : ℕ) (object : ℕ) (b : Outbuf) : Except Fault (ℕ × Outbuf) := do
  let (_, b) ← g.doSerializeRecur fuel object unregisteredClassId b
  let b := { b with mem := write b.mem b.p (le 8 (b.curP - b.p)) }
  return (b.curP - b.p, b)

end Globals

end DShuffle.Kernel
