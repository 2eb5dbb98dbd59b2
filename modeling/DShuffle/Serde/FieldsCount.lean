import DShuffle.Serde.RegisterWalk
import Mathlib.Data.Nat.Bitwise

/-!
# Counting the fields in a field array

A klass has its field records in an array of two-byte slots (`FakeFieldInfoArray`,
`fake.hxx`): six slots for each record, and behind the records one more slot for each
that has a generic signature. The array knows only how many slots it has, and
`fields_count` finds out how many records there are: it walks them, and takes a slot
off the end whenever it meets a record that owns one. It returns both counts as
`uint8_t`.

## The model

The array is the list of its slots, and a read outside it is a fault. The loop runs on
fuel, in 32-bit arithmetic, and notes which records it reads.

## What is proved

* `countLoop_slots` — when `i` records have been read, the limit is six slots for each
  record and one for each generic signature that is still to be met; so the loop stops
  behind the last record.
* `fieldsCount_slots` — what is returned, for any number of records a class file can have.
* `fieldsCount_exact_iff` — the counts are right exactly up to 255 records.
* `fieldsCount_refines` — the resolver's `fields_count` is this one.
-/

namespace DShuffle.Serde.FieldSlots

open Base

/-! ### The array -/

/-- `FakeFieldInfo`, slot by slot. -/
structure Record where
  /-- `access_flags`. -/
  accessFlags : UInt16
  /-- `name_index_offset`. -/
  nameIndexOffset : UInt16
  /-- `signature_index_offset`. -/
  signatureIndexOffset : UInt16
  /-- `initval_index_offset`. -/
  initvalIndexOffset : UInt16
  /-- `low_packed_offset`. -/
  lowPackedOffset : UInt16
  /-- `high_packed_offset`. -/
  highPackedOffset : UInt16
  deriving DecidableEq, Repr

/-- `is_static`, of a record with these flags. -/
def isStatic (flags : UInt16) : Bool := flags &&& 0x0008 != 0

/-- `field_has_generic_signature`, of a record with these flags. -/
def fieldHasGenericSignature (flags : UInt16) : Bool := flags &&& 0x0800 != 0

namespace Record

/-- A record in the array. -/
def slots (r : Record) : List UInt16 :=
  [r.accessFlags, r.nameIndexOffset, r.signatureIndexOffset, r.initvalIndexOffset, r.lowPackedOffset, r.highPackedOffset]

/-- The record is one of a static field. -/
def static (r : Record) : Bool := isStatic r.accessFlags

/-- The record owns a slot at the end of the array. -/
def generic (r : Record) : Bool := fieldHasGenericSignature r.accessFlags

end Record

/-- `FakeFieldInfoArray`: its slots. -/
structure FieldInfoArray where
  /-- The slots; `length` is how many. -/
  slots : List UInt16

/-- `infos[i].access_flags`: the first of the six slots. -/
def FieldInfoArray.accessFlags (a : FieldInfoArray) (i : ℕ) : Option UInt16 := a.slots[6 * i]?

/-- The array of these records, with these slots behind them. -/
def fieldArray (rs : List Record) (extra : List UInt16) : FieldInfoArray := ⟨rs.flatMap Record.slots ++ extra⟩

/-! ### The count -/

/-- What a count returns, and which records it read. -/
structure Count where
  /-- The number of fields. -/
  fields : ℕ
  /-- The number of static ones. -/
  statics : ℕ
  /-- The records read, in order. -/
  records : List ℕ
  deriving DecidableEq, Repr

/-- The loop of `fields_count`. -/
def countLoop (a : FieldInfoArray) : (fuel i limit statics : ℕ) → (records : List ℕ) → Option Count
  | 0, _, _, _, _ => none
  | fuel + 1, i, limit, statics, records =>
    if u32 (i * 6) < limit then do
      let flags ← a.accessFlags i
      countLoop a fuel (u32 (i + 1)) (if fieldHasGenericSignature flags then limit - 1 else limit)
        (if isStatic flags then statics + 1 else statics) (records ++ [i])
    else some ⟨limit / 6, statics, records⟩

/-- `fields_count`: a pair of `uint8_t`. -/
def fieldsCount (a : FieldInfoArray) (fuel : ℕ) : Option Count := do
  let c ← countLoop a fuel 0 (u32 a.slots.length) 0 []
  return ⟨c.fields % 256, c.statics % 256, c.records⟩

/-! ### The loop -/

theorem length_flatMap_slots (rs : List Record) : (rs.flatMap Record.slots).length = 6 * rs.length := by
  induction rs with
  | nil => rfl
  | cons r rs ih =>
    rw [List.flatMap_cons, List.length_append, ih, List.length_cons]
    show 6 + 6 * rs.length = _
    omega

/-- The flags of a record stand at its own place. -/
theorem accessFlags_fieldArray (ds : List Record) (r : Record) (rs : List Record) (extra : List UInt16) :
    (fieldArray (ds ++ r :: rs) extra).accessFlags ds.length = some r.accessFlags := by
  unfold FieldInfoArray.accessFlags fieldArray
  rw [← length_flatMap_slots, List.flatMap_append, List.append_assoc, List.getElem?_append_right le_rfl, Nat.sub_self]
  rfl

/-- **What the loop keeps.** With the records `ds` read and `rs` still to come, the limit counts six slots for each
record and one for each generic signature among `rs`, whatever the slots behind the records hold. -/
theorem countLoop_slots (ds rs : List Record) (extra : List UInt16) {fuel : ℕ} (statics : ℕ) (hfuel : rs.length < fuel)
    (hwidth : 6 * (ds.length + rs.length) < 2 ^ 32) :
    countLoop (fieldArray (ds ++ rs) extra) fuel ds.length (6 * (ds.length + rs.length) + rs.countP Record.generic) statics
      (List.range ds.length) =
      some ⟨ds.length + rs.length, statics + rs.countP Record.static, List.range (ds.length + rs.length)⟩ := by
  induction rs generalizing ds fuel statics with
  | nil =>
    obtain ⟨f, rfl⟩ := Nat.exists_eq_succ_of_ne_zero (Nat.ne_of_gt hfuel)
    have hstop : ¬ u32 (ds.length * 6) < 6 * (ds.length + 0) + 0 := by
      rw [u32_of_lt (by rw [List.length_nil] at hwidth; omega)]
      omega
    have hdiv : (6 * (ds.length + 0) + 0) / 6 = ds.length := by omega
    rw [List.countP_nil, List.countP_nil, List.length_nil, countLoop, if_neg hstop, hdiv]
    rfl
  | cons r rs ih =>
    rw [List.length_cons] at hfuel hwidth
    obtain ⟨f, rfl⟩ : ∃ f, fuel = f + 1 := ⟨fuel - 1, by omega⟩
    have hgo : u32 (ds.length * 6) < 6 * (ds.length + (r :: rs).length) + (r :: rs).countP Record.generic := by
      rw [u32_of_lt (by omega), List.length_cons]
      omega
    have hnext : u32 (ds.length + 1) = (ds ++ [r]).length := by
      rw [u32_of_lt (by omega), List.length_append, List.length_singleton]
    -- a record that owns a slot at the end takes it off the limit
    have hlimit : (if fieldHasGenericSignature r.accessFlags then
        6 * (ds.length + (r :: rs).length) + (r :: rs).countP Record.generic - 1
        else 6 * (ds.length + (r :: rs).length) + (r :: rs).countP Record.generic) =
        6 * ((ds ++ [r]).length + rs.length) + rs.countP Record.generic := by
      rw [List.countP_cons, List.length_cons, List.length_append, List.length_singleton, Record.generic]
      split_ifs with hgen
      · omega
      · omega
    have hstatics : (if isStatic r.accessFlags then statics + 1 else statics) + rs.countP Record.static =
        statics + (r :: rs).countP Record.static := by
      rw [List.countP_cons, Record.static]
      split_ifs with hst
      · omega
      · omega
    have hrange : List.range ds.length ++ [ds.length] = List.range (ds ++ [r]).length := by
      rw [List.length_append, List.length_singleton, List.range_succ]
    have hlength : (ds ++ [r]).length + rs.length = ds.length + (r :: rs).length := by
      rw [List.length_append, List.length_singleton, List.length_cons]
      omega
    have hfuel' : rs.length < f := Nat.lt_of_succ_lt_succ hfuel
    have hmore := ih (ds ++ [r]) (if isStatic r.accessFlags then statics + 1 else statics) hfuel'
      (by rw [hlength, List.length_cons]; exact hwidth)
    rw [hstatics, List.append_assoc, List.singleton_append] at hmore
    rw [countLoop, if_pos hgo, accessFlags_fieldArray]
    show countLoop _ f _ _ _ _ = _
    rw [hnext, hlimit, hrange, hmore, hlength]

/-- **What `fields_count` returns** for the array of any class file: it reads every record once and no slot behind
them, and gives both numbers cut to eight bits. -/
theorem fieldsCount_slots {rs : List Record} {extra : List UInt16} {fuel : ℕ} (hfuel : rs.length < fuel)
    (hn : rs.length ≤ 65535) (hextra : extra.length = rs.countP Record.generic) :
    fieldsCount (fieldArray rs extra) fuel =
      some ⟨rs.length % 256, rs.countP Record.static % 256, List.range rs.length⟩ := by
  have hgeneric : rs.countP Record.generic ≤ rs.length := List.countP_le_length
  have hlength : u32 (fieldArray rs extra).slots.length =
      6 * (([] : List Record).length + rs.length) + rs.countP Record.generic := by
    have hslots : (fieldArray rs extra).slots.length = 6 * rs.length + rs.countP Record.generic := by
      rw [fieldArray, List.length_append, length_flatMap_slots, hextra]
    rw [hslots, u32_of_lt (by omega), List.length_nil, Nat.zero_add]
  have hloop := countLoop_slots [] rs extra 0 hfuel (by rw [List.length_nil]; omega)
  rw [List.nil_append, ← hlength, List.length_nil, Nat.zero_add, Nat.zero_add] at hloop
  unfold fieldsCount
  rw [show List.range 0 = [] from rfl] at hloop
  rw [hloop]
  rfl

/-! ### When it is exact -/

/-- `fields_count` is right about the array of these records: given time for each of them it ends, it has read these
records and no others, and returns how many there are and how many of them are static. -/
def Exact (rs : List Record) (extra : List UInt16) : Prop :=
  ∀ fuel, rs.length < fuel →
    fieldsCount (fieldArray rs extra) fuel = some ⟨rs.length, rs.countP Record.static, List.range rs.length⟩

/-- **`fields_count` is exact up to 255 records**, and for no more, though a class file may have 65535: the two counts
are returned in eight bits. -/
theorem fieldsCount_exact_iff (rs : List Record) (extra : List UInt16) (hn : rs.length ≤ 65535)
    (hextra : extra.length = rs.countP Record.generic) : Exact rs extra ↔ rs.length ≤ 255 := by
  have hstatics : rs.countP Record.static ≤ rs.length := List.countP_le_length
  constructor
  · intro hexact
    have hcount := hexact (rs.length + 1) (by omega)
    rw [fieldsCount_slots (by omega) hn hextra, Option.some.injEq, Count.mk.injEq] at hcount
    have hmod : rs.length % 256 = rs.length := hcount.1
    have hlt : rs.length % 256 < 256 := Nat.mod_lt _ (by decide)
    omega
  · intro hfew fuel hfuel
    rw [fieldsCount_slots hfuel hn hextra, Nat.mod_eq_of_lt (by omega), Nat.mod_eq_of_lt (by omega)]

/-- A record of a static field with a generic signature. -/
def genericStatic : Record := ⟨0x0808, 1, 2, 0, 1, 0⟩

/-- A record of a field that is neither. -/
def plainRecord : Record := ⟨0, 1, 2, 0, 1, 0⟩

/-- Four fields of every kind, and the slots of the two with a generic signature. -/
theorem fieldsCount_exact_sample : Exact [genericStatic, plainRecord, ⟨0x0008, 3, 2, 0, 9, 0⟩, ⟨0x0800, 4, 5, 0, 13, 0⟩] [7, 8] :=
  (fieldsCount_exact_iff _ _ (by decide) (by decide)).mpr (by decide)

/-- Of 256 fields none is counted. -/
theorem not_exact_256 : ¬ Exact (List.replicate 256 plainRecord) [] := by
  intro hexact
  have hlength : (List.replicate 256 plainRecord).length = 256 := List.length_replicate
  have hgeneric : ([] : List UInt16).length = (List.replicate 256 plainRecord).countP Record.generic := by
    rw [List.countP_replicate]
    rfl
  have hcount := hexact 257 (by omega)
  rw [fieldsCount_slots (by omega) (by omega) hgeneric, Option.some.injEq, Count.mk.injEq, hlength] at hcount
  exact absurd hcount.1 (by decide)

/-! ### The resolver's count -/

/-- A flag of a record, read as a bit of the number. -/
theorem flag_eq_testBit (flags : UInt16) :
    isStatic flags = flags.toNat.testBit 3 ∧ fieldHasGenericSignature flags = flags.toNat.testBit 11 := by
  have hbit : ∀ (mask : UInt16) (i : ℕ), mask.toNat = 2 ^ i → (flags &&& mask != 0) = flags.toNat.testBit i := by
    intro mask i hmask
    have hand : (flags &&& mask).toNat = (flags.toNat.testBit i).toNat * 2 ^ i := by
      rw [UInt16.toNat_and, hmask, Nat.and_two_pow]
    cases hb : flags.toNat.testBit i with
    | false =>
      rw [hb, Bool.toNat_false, Nat.zero_mul] at hand
      have hzero : flags &&& mask = 0 := UInt16.toNat_inj.mp hand
      rw [hzero]
      rfl
    | true =>
      rw [hb, Bool.toNat_true, Nat.one_mul] at hand
      have hne : flags &&& mask ≠ 0 := by
        intro hzero
        rw [hzero] at hand
        exact absurd hand.symm (Nat.pos_iff_ne_zero.mp (Nat.two_pow_pos i))
      exact bne_iff_ne.mpr hne
  exact ⟨hbit 0x0008 3 rfl, hbit 0x0800 11 rfl⟩

/-- **The resolver's `fields_count` is this one**, on a klass whose fields are those of the array. -/
theorem fieldsCount_refines {k : FakeInstanceKlass} {rs : List Record} {extra : List UInt16} {fuel : ℕ}
    (hfuel : rs.length < fuel) (hn : rs.length ≤ 65535) (hextra : extra.length = rs.countP Record.generic)
    (hflags : k.fields.map (·.accessFlags) = rs.map (·.accessFlags.toNat))
    (hslots : k.fieldArrayLength = (fieldArray rs extra).slots.length) :
    (fieldsCount (fieldArray rs extra) fuel).map (fun c => (c.fields, c.statics)) = k.fieldsCount.toOption := by
  have hlength : k.fields.length = rs.length := by
    have hmap := congrArg List.length hflags
    rwa [List.length_map, List.length_map] at hmap
  -- a count of flags is the same over the numbers
  have hcount : ∀ (p : ℕ → Bool) (q : UInt16 → Bool), (∀ flags, q flags = p flags.toNat) →
      k.fields.countP (fun f => p f.accessFlags) = rs.countP (fun r => q r.accessFlags) := by
    intro p q hpq
    have hleft : k.fields.countP (fun f => p f.accessFlags) = (k.fields.map (·.accessFlags)).countP p := by
      rw [List.countP_map]
      rfl
    have hright : rs.countP (fun r => q r.accessFlags) = (rs.map (·.accessFlags.toNat)).countP p := by
      rw [List.countP_map]
      exact List.countP_congr fun r _ => by rw [hpq]; rfl
    rw [hleft, hright, hflags]
  have hgeneric := hcount (·.testBit 11) fieldHasGenericSignature fun flags => (flag_eq_testBit flags).2
  have hstatics := hcount (·.testBit 3) isStatic fun flags => (flag_eq_testBit flags).1
  have hloop := ClassResolver.fieldsCountLoop_eq k.fields 0 0
  have hlimit : k.fieldArrayLength = 6 * (0 + k.fields.length) + k.fields.countP (·.hasGenericSignature) := by
    have hcountP : k.fields.countP (·.hasGenericSignature) = rs.countP Record.generic := hgeneric
    rw [hslots, fieldArray, List.length_append, length_flatMap_slots, hextra, Nat.zero_add, hlength, hcountP]
  have hcountP : k.fields.countP (·.isStatic) = rs.countP Record.static := hstatics
  rw [← hlimit, Nat.zero_add, Nat.zero_add, hlength, hcountP] at hloop
  rw [fieldsCount_slots hfuel hn hextra, FakeInstanceKlass.fieldsCount, hloop]
  rfl

end DShuffle.Serde.FieldSlots
