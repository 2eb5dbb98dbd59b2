import Mathlib.Data.List.Pairwise
import DShuffle.Base.ByteMemory

/-!
# Types and class infos

The vocabulary that the host code (`lib/sd/native`), the DPA kernel
(`lib/sd/kernel`) and the wire format share: HotSpot's basic types and their
sizes, the flags of a record, class ids, and the record `class_info_t` that the
class resolver keeps for a class.

## The model

A class id is an integer in the range of `int16_t`. The variable part of a
`class_info_t` (its fields, the table of enum constants, its signature) follows
the fixed part in one block of the arena; here the three are lists, and
`n_non_static_field` is the length of the first. `klass_cptr` is left out: only
the formatter reads it. `enums` is the table at `enum_ref_arr_off`; an entry
that `set_enum` never wrote is `none`.

A computation of the source that has no meaning here is a `Fault`: `die` throws,
`unreachable()` and an access through a null or stray pointer are undefined, and
`fuel` is the bound on the depth of recursion that the model adds.
-/

namespace DShuffle.Serde

open Base

/-- Why a computation does not return. -/
inductive Fault where
  /-- The recursion went deeper than the model's bound. -/
  | fuel
  /-- `die(why)`. -/
  | die (why : String)
  /-- `unreachable()`. -/
  | unreachable
  /-- An access through a null pointer or past the end of a table. -/
  | badAccess
  /-- A write past the end of the block it belongs to. -/
  | overrun
  /-- A division by zero. -/
  | trap
  deriving DecidableEq, Repr

/-- A computation that succeeds in two steps. -/
theorem bind_eq_ok {α β : Type} {x : Except Fault α} {f : α → Except Fault β} {y : β} (h : x >>= f = .ok y) :
    ∃ a, x = .ok a ∧ f a = .ok y := by
  cases x with
  | error e => cases h
  | ok a => exact ⟨a, rfl, h⟩

theorem map_eq_ok {α β : Type} {x : Except Fault α} {f : α → β} {y : β} (h : x.map f = .ok y) :
    ∃ a, x = .ok a ∧ f a = y := by
  cases x with
  | error e => cases h
  | ok a => exact ⟨a, rfl, Except.ok.inj h⟩

/-- A HotSpot symbol: a class name, a field name or a signature, in bytes. -/
abbrev Symbol := Bytes

/-- A symbol given in ASCII. -/
def sym (s : String) : Symbol := s.toList.map fun c => UInt8.ofNat c.toNat

/-! ### Basic types -/

/-- `basic_type_t`. -/
inductive BasicType where
  | boolean | char | float | double | byte | short | int | long
  | object | array
  | void | address | narrowoop | metadata | narrowklass | conflict | illegal
  /-- `-1`, what `memset` leaves in a field that is not resolved yet. -/
  | unset
  deriving DecidableEq, Repr

namespace BasicType

/-- The numbers of HotSpot. -/
def code : BasicType → ℤ
  | boolean => 4 | char => 5 | float => 6 | double => 7 | byte => 8 | short => 9 | int => 10 | long => 11
  | object => 12 | array => 13
  | void => 14 | address => 15 | narrowoop => 16 | metadata => 17 | narrowklass => 18 | conflict => 19
  | illegal => 20
  | unset => -1

/-- `is_primitive_type`. -/
def isPrimitive (t : BasicType) : Bool := boolean.code ≤ t.code && t.code ≤ long.code

/-- `is_reference_type`. -/
def isReference (t : BasicType) : Bool := object.code ≤ t.code && t.code ≤ array.code

/-- `type_size`: compressed references take four bytes. -/
def size : BasicType → ℕ
  | boolean | byte => 1
  | char | short => 2
  | int | float => 4
  | long | double => 8
  | object | array => 4
  | void | address | narrowoop | metadata | narrowklass | conflict | illegal => 0
  -- the source's switch ends in `unreachable()`; nothing asks for the size of an unresolved field
  | unset => 0

theorem not_isPrimitive_of_isReference {t : BasicType} (h : t.isReference = true) : t.isPrimitive = false := by
  revert h; cases t <;> decide

theorem ne_primitive_of_isReference {t : BasicType} (h : t.isReference = true) : ¬ t.isPrimitive = true :=
  Bool.eq_false_iff.mp (not_isPrimitive_of_isReference h)

theorem isPrimitive_of_not_isReference {t : BasicType} (h : t.isPrimitive = true ∨ t.isReference = true)
    (hr : t.isReference = false) : t.isPrimitive = true := by
  rcases h with h | h
  · exact h
  · rw [hr] at h
    cases h

theorem size_of_isReference {t : BasicType} (h : t.isReference = true) : t.size = 4 := by
  revert h; cases t <;> decide

theorem size_pos_of_isPrimitive {t : BasicType} (h : t.isPrimitive = true) : 0 < t.size := by
  revert h; cases t <;> decide

/-- `char2type`. -/
def ofChar (c : UInt8) : Except Fault BasicType :=
  if c = 66 then .ok byte          -- 'B'
  else if c = 67 then .ok char     -- 'C'
  else if c = 68 then .ok double   -- 'D'
  else if c = 70 then .ok float    -- 'F'
  else if c = 73 then .ok int      -- 'I'
  else if c = 74 then .ok long     -- 'J'
  else if c = 83 then .ok short    -- 'S'
  else if c = 90 then .ok boolean  -- 'Z'
  else if c = 86 then .ok void     -- 'V'
  else if c = 76 then .ok object   -- 'L'
  else if c = 91 then .ok array    -- '['
  else .error .unreachable

/-- The letter of a primitive type in a signature (`type2sig`). -/
def letter : BasicType → UInt8
  | boolean => 90 | char => 67 | float => 70 | double => 68 | byte => 66 | short => 83 | int => 73 | long => 74
  | _ => 0

end BasicType

/-! ### Ids and flags -/

/-- `MIN_CLASS_ID`, which is `T_ILLEGAL`. -/
def minClassId : ℤ := BasicType.illegal.code

/-- `UNREGISTERED_CLASS_ID`. -/
def unregisteredClassId : ℤ := -1

/-- `NULL_FLAG`. -/
def nullFlag : ℕ := 0x1

/-- `ENUM_FLAG`. -/
def enumFlag : ℕ := 0x2

/-- `REDIRECT_FLAG`. -/
def redirectFlag : ℕ := 0x3

/-- `OBJECT_FLAG`. -/
def objectFlag : ℕ := 0x10

/-- `ARRAY_FLAG`. -/
def arrayFlag : ℕ := 0x20

/-- `is_null_f`: the control bits of the flag. -/
def isNullF (f : ℕ) : Bool := f % 16 = nullFlag

/-- `is_redirect_f`. -/
def isRedirectF (f : ℕ) : Bool := f % 16 = redirectFlag

/-- `OBJECT_DATA_OFFSET`, the size of `meta_header_t`. -/
def objectDataOffset : ℕ := 8

/-- `MAX_SIGNATURE_LENGTH`. -/
def maxSignatureLength : ℕ := 80

/-! ### Class infos -/

/-- `field_info_t`; `offset` counts from the end of the object header. -/
structure FieldInfo where
  /-- The class id of a reference field's declared class. -/
  id : ℤ
  /-- The offset in the object body. -/
  offset : ℕ
  /-- The basic type. -/
  type : BasicType
  /-- The access flags. -/
  flag : ℕ
  /-- The JNI field id. -/
  jFieldId : ℕ
  deriving DecidableEq, Repr

section
variable {f : FieldInfo} {fs : List FieldInfo}

theorem filter_isReference_of_pos (h : f.type.isReference = true) :
    (f :: fs).filter (·.type.isReference) = f :: fs.filter (·.type.isReference) := List.filter_cons_of_pos h

theorem filter_isReference_of_neg (h : f.type.isReference = false) :
    (f :: fs).filter (·.type.isReference) = fs.filter (·.type.isReference) :=
  List.filter_cons_of_neg (Bool.eq_false_iff.mp h)

end

/-- An entry of the enum table, `obj_with_handle_t`: the constant and a global
reference to it. -/
structure EnumRef where
  /-- The address of the constant when it was registered. -/
  object : ℕ
  /-- The global reference. -/
  handle : ℕ
  deriving DecidableEq, Repr

/-- `class_info_t`. -/
structure ClassInfo where
  /-- The klass pointer. -/
  klass : ℕ
  /-- The class id. -/
  id : ℤ
  /-- Where the enum table starts in the block; `0` for a class that is no enum. -/
  enumRefArrOff : ℕ
  /-- The size of an object, header included. -/
  objSize : ℕ
  /-- The size of the header. -/
  headerSize : ℕ
  /-- The number of static fields. -/
  nStaticField : ℕ
  /-- The dimension of an array class, `0` for another. -/
  dim : ℕ
  /-- The signature. -/
  signature : Symbol
  /-- The recorded fields; of an array class, the one entry for its elements. -/
  fields : List FieldInfo
  /-- The enum table. -/
  enums : List (Option EnumRef)
  deriving DecidableEq, Repr

namespace ClassInfo

/-- `is_enum`. -/
def isEnum (i : ClassInfo) : Bool := i.enumRefArrOff != 0

/-- `is_object`. -/
def isObject (i : ClassInfo) : Bool := i.dim == 0

/-- `is_array`. -/
def isArray (i : ClassInfo) : Bool := 1 ≤ i.dim

/-- `n_non_static_field`. -/
def nNonStaticField (i : ClassInfo) : ℕ := i.fields.length

/-- `object_body_size`, in `uint32_t`. -/
def objectBodySize (i : ClassInfo) : ℕ := u32 (i.objSize + 2 ^ 32 - i.headerSize)

/-- `get_field(0)`, the entry for the elements of an array class. -/
def elem (i : ClassInfo) : Except Fault FieldInfo :=
  match i.fields with
  | f :: _ => .ok f
  | [] => .error .badAccess

/-- `array_body_size(length)` for elements of type `t`, in `uint32_t`. -/
def arrayBodySize (t : BasicType) (length : ℕ) : ℕ := u32 (length * t.size)

/-- `get_enum(ordinal)`: a read past the table, or of an entry never written, is stray. -/
def getEnum (i : ClassInfo) (ordinal : ℕ) : Except Fault EnumRef :=
  match i.enums[ordinal]? with
  | some (some e) => .ok e
  | _ => .error .badAccess

/-- The recorded fields that hold references, in order. -/
def refFields (i : ClassInfo) : List FieldInfo := i.fields.filter (·.type.isReference)

/-- The recorded fields that hold primitive values, in order. -/
def primFields (i : ClassInfo) : List FieldInfo := i.fields.filter (·.type.isPrimitive)

end ClassInfo

/-! ### Layouts -/

/-- Two fields share no byte. -/
def FieldInfo.Disjoint (f g : FieldInfo) : Prop :=
  f.offset + f.type.size ≤ g.offset ∨ g.offset + g.type.size ≤ f.offset

instance (f g : FieldInfo) : Decidable (f.Disjoint g) := inferInstanceAs (Decidable (_ ∨ _))

/-- Disjoint reference slots are four bytes apart. -/
theorem FieldInfo.Disjoint.slots {f g : FieldInfo} (h : f.Disjoint g) (hf : f.type.isReference = true)
    (hg : g.type.isReference = true) : f.offset + 4 ≤ g.offset ∨ g.offset + 4 ≤ f.offset := by
  unfold FieldInfo.Disjoint at h
  rw [BasicType.size_of_isReference hf, BasicType.size_of_isReference hg] at h
  exact h

/-- The reference slots of an instance class: every recorded field is primitive or a reference, and the
references are disjoint four-byte slots in the body. -/
structure ClassInfo.Slotted (i : ClassInfo) : Prop where
  /-- A field is primitive or a reference. -/
  typed : ∀ f ∈ i.fields, f.type.isPrimitive = true ∨ f.type.isReference = true
  /-- A reference slot lies in the body. -/
  inside : ∀ f ∈ i.fields, f.type.isReference = true → f.offset + 4 ≤ i.objectBodySize
  /-- Reference slots are disjoint. -/
  apart : i.fields.Pairwise fun f g => f.type.isReference = true → g.type.isReference = true → f.Disjoint g

/-- **The layout of an instance class**: the header is no larger than the object,
every recorded field lies in the body and is primitive or a reference, the
reference fields are disjoint four-byte slots that no other recorded field
touches, and every field has its own JNI id. -/
structure ClassInfo.Laid (i : ClassInfo) : Prop where
  /-- The header is no larger than the object. -/
  header : i.headerSize ≤ i.objSize
  /-- `obj_size` is a `uint16_t`. -/
  small : i.objSize < 2 ^ 16
  /-- A field is primitive or a reference. -/
  typed : ∀ f ∈ i.fields, f.type.isPrimitive = true ∨ f.type.isReference = true
  /-- A field lies in the body. -/
  inside : ∀ f ∈ i.fields, f.offset + f.type.size ≤ i.objSize - i.headerSize
  /-- Reference slots are disjoint from the other fields. -/
  apart : i.fields.Pairwise fun f g => f.type.isReference = true ∨ g.type.isReference = true → f.Disjoint g
  /-- JNI gives distinct fields distinct ids. -/
  ids : (i.fields.map (·.jFieldId)).Nodup

namespace ClassInfo

theorem isObject_of_isArray {i : ClassInfo} (h : i.isArray = true) : i.isObject = false := by
  simp only [isArray, isObject, decide_eq_true_eq, beq_eq_false_iff_ne] at h ⊢
  omega

theorem Laid.bodySize {i : ClassInfo} (h : i.Laid) : i.objectBodySize = i.objSize - i.headerSize := by
  have h₁ := h.header
  have h₂ := h.small
  unfold objectBodySize u32
  omega

/-- A reference slot touches no other field. -/
theorem Laid.disjoint {i : ClassInfo} (h : i.Laid) {f g : FieldInfo} (hf : f ∈ i.fields) (hg : g ∈ i.fields)
    (hne : f ≠ g) (href : g.type.isReference = true) : f.Disjoint g := by
  have hsymm : Std.Symm fun f g : FieldInfo =>
      f.type.isReference = true ∨ g.type.isReference = true → f.Disjoint g :=
    ⟨fun _ _ hab h => (hab h.symm).symm⟩
  exact h.apart.forall hf hg hne (Or.inr href)

theorem Laid.slotted {i : ClassInfo} (h : i.Laid) : i.Slotted := by
  refine ⟨h.typed, fun f hf href => ?_, h.apart.imp fun hd hf _ => hd (Or.inl hf)⟩
  have hin := h.inside f hf
  rw [BasicType.size_of_isReference href] at hin
  rw [h.bodySize]
  exact hin

end ClassInfo

end DShuffle.Serde
