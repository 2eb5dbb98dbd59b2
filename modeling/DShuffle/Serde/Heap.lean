import DShuffle.Serde.ClassInfo

/-!
# The Java heap as the native code reads it

The native code takes objects apart by their addresses: `FakeObject` gives the
layout that HotSpot uses (the mark word, the compressed klass pointer at offset
8, the ordinal of an enum constant at offset 12, the length of an array in the
last four bytes of its header), and `JVMArgs` decodes compressed pointers.

Offsets into an object are `uint32_t` (`FakeObject::raw`), addresses are 64 bits
wide, and the null pointer is `0`.
-/

namespace DShuffle.Serde

open Base

/-- How the JVM compresses pointers (`JVM_COMPRESS_PTR_MODE_*`). -/
inductive CompressMode where
  | raw32 | zeroBased | nonZeroBased | raw64
  deriving DecidableEq, Repr

/-- `jvm_args_t`, the part that decoding a pointer reads. `Options::from_java` admits
the zero based mode only. -/
structure JVMArgs where
  /-- `h_heap_base`. -/
  heapBase : ℕ
  /-- `heap_compress_ptr_mode`. -/
  heapMode : CompressMode
  /-- `heap_compress_ptr_shift`. -/
  heapShift : ℕ
  /-- `h_compressed_class_space_base`. -/
  classSpaceBase : ℕ
  /-- `metaspace_compress_ptr_mode`. -/
  metaspaceMode : CompressMode
  /-- `metaspace_compress_ptr_shift`. -/
  metaspaceShift : ℕ
  deriving DecidableEq, Repr

namespace JVMArgs

/-- `parse_cptr`. -/
def parseCptr (cptr base : ℕ) (mode : CompressMode) (shift : ℕ) : Except Fault ℕ :=
  match mode with
  | .raw32 => .ok cptr
  | .zeroBased => .ok ((cptr <<< shift) % 2 ^ 64)
  | .nonZeroBased => .ok ((base + cptr <<< shift) % 2 ^ 64)
  | .raw64 => .error .unreachable

/-- `compress_ptr`: the difference is a `uint64_t`, the result a `uint32_t`. -/
def compressPtr (ptr base : ℕ) (mode : CompressMode) (shift : ℕ) : Except Fault ℕ :=
  match mode with
  | .raw32 => .ok (u32 ptr)
  | .zeroBased => .ok (u32 (ptr >>> shift))
  | .nonZeroBased => .ok (u32 ((ptr >>> shift + 2 ^ 64 - base) % 2 ^ 64))
  | .raw64 => .error .unreachable

/-- `parse_heap_cptr`. -/
def parseHeapCptr (g : JVMArgs) (cptr : ℕ) : Except Fault ℕ := parseCptr cptr g.heapBase g.heapMode g.heapShift

/-- `parse_metaspace_cptr`. -/
def parseMetaspaceCptr (g : JVMArgs) (cptr : ℕ) : Except Fault ℕ :=
  parseCptr cptr g.classSpaceBase g.metaspaceMode g.metaspaceShift

/-- `compress_metaspace_ptr`. -/
def compressMetaspacePtr (g : JVMArgs) (ptr : ℕ) : Except Fault ℕ :=
  compressPtr ptr g.classSpaceBase g.metaspaceMode g.metaspaceShift

end JVMArgs

/-- A Java heap: the bytes, and how its pointers are compressed. -/
structure Heap where
  /-- The bytes. -/
  mem : Mem
  /-- The JVM's settings. -/
  args : JVMArgs

namespace Heap

variable (h : Heap)

/-- `parse_at<uint32_t>(offset)` of the object at `a`; the offset is a `uint32_t`. -/
def u32At (a offset : ℕ) : ℕ := ofLe (read h.mem (a + u32 offset) 4)

/-- `klass_pointer()`: the klass pointer follows the mark word. -/
def klassPointer (a : ℕ) : Except Fault ℕ := h.args.parseMetaspaceCptr (h.u32At a 8)

/-- `enum_ordinal()`. -/
def enumOrdinal (a : ℕ) : ℕ := h.u32At a 12

/-- `array_length(base)`: the last four bytes of the array header. -/
def arrayLength (a base : ℕ) : ℕ := h.u32At a (base + 2 ^ 32 - 4)

/-- `array_elem_ref(base, i)`. -/
def arrayElemRef (a base i : ℕ) : Except Fault ℕ := h.args.parseHeapCptr (h.u32At a (base + i * 4))

/-- The `n` bytes at `raw(offset)`. -/
def raw (a offset n : ℕ) : Bytes := read h.mem (a + offset) n

theorem u32At_lt (a offset : ℕ) : h.u32At a offset < 2 ^ 32 := by
  have hlt := ofLe_lt (read h.mem (a + u32 offset) 4)
  rw [length_read] at hlt
  exact hlt

theorem length_raw (a offset n : ℕ) : (h.raw a offset n).length = n := length_read _ _ _

end Heap

end DShuffle.Serde
