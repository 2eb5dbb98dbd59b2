import Mathlib.Data.Int.ModEq
import Mathlib.Data.ZMod.Basic
import Mathlib.Tactic.Ring
import DShuffle.Serde.ObjectWalker
import DShuffle.Spill.Files

/-!
# Partitioning by the key

`native_partition` (`naive_offload_serde_server.cxx`) splits a buffer of records into
32 buckets. A record is a serialized key and a serialized value; the bucket is
`java_string_hash` of all the bytes of the key, modulo 32.

## The model

* An object starts with its length in eight bytes, as the static `walk` writes it.
  `get_object` reads the length and takes the object; past the end of the buffer it
  is a fault, as is an object that ends there. A length of all ones is the count with
  which `subspan` takes what is left.
* The loop has a bound on its rounds; an object of length zero would never end it.
* A `java.lang.String` has a character array and a `hash` that is filled by the first
  call of `hashCode`. What is not a field is alignment, which is zero.

## What is proved

* `nativePartition_eq` — the buckets hold the records whose keys hash to them, in
  order, behind their headers.
* `equal_keys_meet_iff` — two records whose keys are strings with the same
  characters are put into one bucket exactly if the bytes of the two `hash` fields
  have the same alternating sum modulo 32.
* `equal_keys_part` — a fresh "a" and one that was hashed are put into two buckets.
-/

namespace DShuffle.Shuffle

open Base Serde

/-! ### The code -/

/-- `java_string_hash`, in `size_t`. -/
def javaStringHash (data : Bytes) : ℕ := data.foldl (fun h v => (h * 31 + v.toNat) % 2 ^ 64) 0

/-- The number of buckets. -/
def nBucket : ℕ := 32

/-- The bucket of a key. -/
def pidOf (key : Bytes) : ℕ := javaStringHash key % nBucket

/-- `std::dynamic_extent`: the count with which `subspan` takes all that is left. -/
def dynamicExtent : ℕ := 2 ^ 64 - 1

/-- `get_object`: the object at the offset, and the offset behind it, in `size_t`. -/
def getObject (data : Bytes) (offset : ℕ) : Except Fault (Bytes × ℕ) :=
  if offset + 8 ≤ data.length then
    let length := ofLe (slice data offset 8)
    if length = dynamicExtent then .ok (data.drop offset, (offset + length) % 2 ^ 64)
    else if offset + length ≤ data.length then .ok (slice data offset length, offset + length)
    else .error .badAccess
  else .error .badAccess

/-- A key and a value go to the end of their bucket. -/
def insertRecord (results : List Bytes) (key value : Bytes) : List Bytes :=
  results.modify (pidOf key) fun result => result ++ key ++ value

/-- The loop over the records from the offset on. -/
def partitionFrom (data : Bytes) : (fuel offset : ℕ) → List Bytes → Except Fault (List Bytes)
  | 0, _, _ => .error .fuel
  | fuel + 1, offset, results =>
    if offset < data.length then do
      let (key, offset) ← getObject data offset
      let (value, offset) ← getObject data offset
      partitionFrom data fuel offset (insertRecord results key value)
    else .ok results

/-- The header that the last loop writes over the first bytes of bucket `i`. -/
def putHeader (i : ℕ) (result : Bytes) : Bytes := patch result 0 (le 8 i ++ le 8 result.length)

/-- `native_partition`. -/
def nativePartition (fuel : ℕ) (data : Bytes) : Except Fault (List Bytes) := do
  let results ← partitionFrom data fuel 0 (List.replicate nBucket (List.replicate Spill.headerSize 0))
  return results.mapIdx putHeader

/-! ### Records -/

/-- The bytes start with their own length, which is a size. -/
def Framed (bs : Bytes) : Prop := bs.length < dynamicExtent ∧ ∃ rest, bs = le 8 bs.length ++ rest

/-- What the first eight bytes say. -/
def word (bs : Bytes) : Option ℕ := if 8 ≤ bs.length then some (ofLe (slice bs 0 8)) else none

/-- A record of the buffer. -/
structure KeyValue where
  /-- The serialized key. -/
  key : Bytes
  /-- The serialized value. -/
  value : Bytes
  /-- The key has its length. -/
  key_framed : Framed key
  /-- The value has its length. -/
  value_framed : Framed value

namespace KeyValue

/-- The bytes of the record. -/
def bytes (kv : KeyValue) : Bytes := kv.key ++ kv.value

end KeyValue

/-- The buffer that holds the records. -/
def bytesOf (kvs : List KeyValue) : Bytes := (kvs.map KeyValue.bytes).flatten

/-- The records that bucket `p` is to hold. -/
def recordsOf (kvs : List KeyValue) (p : ℕ) : List KeyValue := kvs.filter fun kv => pidOf kv.key = p

theorem Framed.ne_nil {bs : Bytes} (h : Framed bs) : bs ≠ [] := by
  obtain ⟨-, rest, heq⟩ := h
  intro hnil
  have hlen := congrArg List.length heq
  rw [List.length_append, length_le, hnil, List.length_nil] at hlen
  omega

/-- Framed bytes say their length, whatever is behind them. -/
theorem Framed.word {bs : Bytes} (h : Framed bs) (rest : Bytes) : word (bs ++ rest) = some bs.length := by
  obtain ⟨hlt, tail, heq⟩ := h
  have hlen : 8 ≤ bs.length := by
    rw [heq, List.length_append, length_le]
    exact Nat.le_add_right ..
  have hslice : slice (bs ++ rest) 0 8 = le 8 bs.length := by
    rw [slice_append_left (by omega)]
    conv_lhs => rw [heq]
    rw [slice_append_left (by rw [length_le])]
    have hall := slice_all (le 8 bs.length)
    rwa [length_le] at hall
  rw [Shuffle.word, if_pos (by rw [List.length_append]; omega), hslice, ofLe_le]
  rw [dynamicExtent] at hlt
  exact congrArg some (Nat.mod_eq_of_lt (by omega))

/-- `get_object` takes a piece that is as long as the bytes from its start on say. -/
theorem getObject_of_word (pre : Bytes) {bs post : Bytes} (hlt : bs.length < dynamicExtent)
    (hword : word (bs ++ post) = some bs.length) :
    getObject (pre ++ bs ++ post) pre.length = .ok (bs, pre.length + bs.length) := by
  obtain ⟨hlen, hread⟩ : 8 ≤ (bs ++ post).length ∧ ofLe (slice (bs ++ post) 0 8) = bs.length := by
    rw [word] at hword
    split_ifs at hword with hlen
    exact ⟨hlen, Option.some.inj hword⟩
  have hat : ∀ n, slice (pre ++ bs ++ post) pre.length n = slice (bs ++ post) 0 n := by
    intro n
    have h := slice_append_right pre (bs ++ post) 0 n
    rwa [Nat.add_zero, ← List.append_assoc] at h
  have htake : slice (bs ++ post) 0 bs.length = bs := by rw [slice_append_left (by omega), slice_all]
  rw [List.length_append] at hlen
  rw [getObject, if_pos (by simp only [List.length_append]; omega)]
  simp only [hat, hread, htake]
  rw [if_neg (Nat.ne_of_lt hlt), if_pos (by simp only [List.length_append]; omega)]

/-- One round of the loop, on two pieces that are as long as the bytes from their start on say. -/
theorem partitionFrom_pair {data pre key value post : Bytes} (hdata : data = pre ++ key ++ value ++ post) (hne : key ≠ [])
    (hkey : key.length < dynamicExtent ∧ word (key ++ (value ++ post)) = some key.length)
    (hvalue : value.length < dynamicExtent ∧ word (value ++ post) = some value.length) (fuel : ℕ) (results : List Bytes) :
    partitionFrom data (fuel + 1) pre.length results =
      partitionFrom data fuel (pre ++ key ++ value).length (insertRecord results key value) := by
  have hk := getObject_of_word pre hkey.1 hkey.2
  have hv := getObject_of_word (pre ++ key) hvalue.1 hvalue.2
  rw [← List.append_assoc, ← hdata] at hk
  rw [← hdata, List.length_append] at hv
  have hpos := List.length_pos_of_ne_nil hne
  rw [partitionFrom, if_pos (by rw [hdata]; simp only [List.length_append]; omega), hk]
  simp only [bind, Except.bind]
  rw [hv, List.length_append, List.length_append]

namespace KeyValue

/-- One round of the loop, on a record. -/
theorem partitionFrom_cons (kv : KeyValue) (kvs : List KeyValue) (pre : Bytes) (fuel : ℕ) (results : List Bytes) :
    partitionFrom (pre ++ bytesOf (kv :: kvs)) (fuel + 1) pre.length results =
      partitionFrom (pre ++ kv.bytes ++ bytesOf kvs) fuel (pre ++ kv.bytes).length (insertRecord results kv.key kv.value) := by
  have hdata : pre ++ bytesOf (kv :: kvs) = pre ++ kv.key ++ kv.value ++ bytesOf kvs := by
    simp [bytesOf, KeyValue.bytes]
  rw [partitionFrom_pair hdata kv.key_framed.ne_nil ⟨kv.key_framed.1, kv.key_framed.word _⟩
    ⟨kv.value_framed.1, kv.value_framed.word _⟩, hdata, KeyValue.bytes, ← List.append_assoc]

end KeyValue

/-- The loop puts every record into its bucket. -/
theorem partitionFrom_eq (kvs : List KeyValue) (pre : Bytes) (results : List Bytes) {fuel : ℕ} (hfuel : kvs.length < fuel) :
    partitionFrom (pre ++ bytesOf kvs) fuel pre.length results =
      .ok (kvs.foldl (fun results kv => insertRecord results kv.key kv.value) results) := by
  induction kvs generalizing pre results fuel with
  | nil =>
    obtain ⟨fuel, rfl⟩ := Nat.exists_eq_add_of_lt hfuel
    rw [partitionFrom, if_neg]
    · rfl
    · simp [bytesOf]
  | cons kv kvs ih =>
    cases fuel with
    | zero => cases hfuel
    | succ fuel =>
      rw [kv.partitionFrom_cons]
      exact ih (pre ++ kv.bytes) (insertRecord results kv.key kv.value) (Nat.lt_of_succ_lt_succ hfuel)

/-- What the loop leaves in a bucket. -/
theorem getElem?_insertAll (kvs : List KeyValue) (results : List Bytes) (p : ℕ) :
    (kvs.foldl (fun results kv => insertRecord results kv.key kv.value) results)[p]? =
      results[p]?.map fun result => result ++ bytesOf (recordsOf kvs p) := by
  induction kvs generalizing results with
  | nil => simp [recordsOf, bytesOf]
  | cons kv kvs ih =>
    rw [List.foldl_cons, ih, insertRecord, List.getElem?_modify, Option.map_eq_map, Option.map_map]
    by_cases hp : pidOf kv.key = p
    · have hrec : recordsOf (kv :: kvs) p = kv :: recordsOf kvs p := by simp [recordsOf, hp]
      simp [hp, hrec, bytesOf, KeyValue.bytes, Function.comp_def]
    · have hrec : recordsOf (kv :: kvs) p = recordsOf kvs p := by simp [recordsOf, hp]
      simp [hp, hrec, Function.comp_def]

theorem length_insertAll (kvs : List KeyValue) (results : List Bytes) :
    (kvs.foldl (fun results kv => insertRecord results kv.key kv.value) results).length = results.length := by
  induction kvs generalizing results with
  | nil => rfl
  | cons kv kvs ih => rw [List.foldl_cons, ih, insertRecord, List.length_modify]

/-- **The buckets**: bucket `p` is a header with its number and its size, and the records whose keys hash to `p`. -/
theorem nativePartition_eq (kvs : List KeyValue) {fuel : ℕ} (hfuel : kvs.length < fuel) :
    ∃ buckets, nativePartition fuel (bytesOf kvs) = .ok buckets ∧ buckets.length = nBucket ∧
      ∀ p < nBucket, buckets[p]? = some (le 8 p ++ le 8 (Spill.headerSize + (bytesOf (recordsOf kvs p)).length) ++
        bytesOf (recordsOf kvs p)) := by
  have hloop := partitionFrom_eq kvs [] (List.replicate nBucket (List.replicate Spill.headerSize 0)) hfuel
  rw [List.nil_append, List.length_nil] at hloop
  refine ⟨_, by rw [nativePartition, hloop]; rfl, ?_, fun p hp => ?_⟩
  · rw [List.length_mapIdx, length_insertAll, List.length_replicate]
  · rw [List.getElem?_mapIdx, getElem?_insertAll, List.getElem?_replicate, if_pos hp, Option.map_some, Option.map_some,
      putHeader, List.length_append, List.length_replicate]
    rw [patch_append_left (by simp [Spill.headerSize])]
    rfl

/-! ### The hash modulo 32 -/

/-- The hash modulo 32 is in `ZMod 32`, where 31 is -1. -/
theorem javaStringHash_concat (xs : Bytes) (v : UInt8) :
    (javaStringHash (xs ++ [v]) : ZMod 32) = -javaStringHash xs + v.toNat := by
  have hfold : javaStringHash (xs ++ [v]) = (javaStringHash xs * 31 + v.toNat) % 2 ^ 64 := by
    rw [javaStringHash, List.foldl_append]
    rfl
  have hmod : (((javaStringHash xs * 31 + v.toNat) % 2 ^ 64 : ℕ) : ZMod 32) = ((javaStringHash xs * 31 + v.toNat : ℕ) : ZMod 32) := by
    rw [ZMod.natCast_eq_natCast_iff']
    exact Nat.mod_mod_of_dvd _ (by decide)
  have h31 : (31 : ZMod 32) = -1 := by decide
  rw [hfold, hmod]
  push_cast
  rw [h31]
  ring

/-- The hash of a string is made of the hashes of its parts. -/
theorem javaStringHash_append (xs ys : Bytes) :
    (javaStringHash (xs ++ ys) : ZMod 32) = (-1) ^ ys.length * javaStringHash xs + javaStringHash ys := by
  induction ys using List.reverseRecOn with
  | nil => simp [javaStringHash]
  | append_singleton ys v ih =>
    rw [← List.append_assoc, javaStringHash_concat, ih, javaStringHash_concat, List.length_append, List.length_singleton]
    ring

theorem pidOf_eq_iff (xs ys : Bytes) : pidOf xs = pidOf ys ↔ (javaStringHash xs : ZMod 32) = javaStringHash ys :=
  (ZMod.natCast_eq_natCast_iff' ..).symm

/-- Of two keys that differ in one part only, that part decides whether they meet. -/
theorem pidOf_middle_iff (pre post : Bytes) {u v : Bytes} (h : u.length = v.length) :
    pidOf (pre ++ u ++ post) = pidOf (pre ++ v ++ post) ↔ (javaStringHash u : ZMod 32) = javaStringHash v := by
  have hunit : ∀ n : ℕ, IsUnit ((-1 : ZMod 32) ^ n) := fun n => (isUnit_one.neg).pow n
  rw [pidOf_eq_iff, javaStringHash_append _ post, javaStringHash_append _ post, add_left_inj, (hunit _).mul_right_inj,
    javaStringHash_append, javaStringHash_append, h, add_right_inj]

/-- The alternating sum of the four bytes of a number. -/
def alternating (h : ℕ) : ℤ :=
  (h % 256 : ℕ) - (h / 256 % 256 : ℕ) + (h / 256 / 256 % 256 : ℕ) - (h / 256 / 256 / 256 % 256 : ℕ)

theorem javaStringHash_le4 (h : ℕ) : (javaStringHash (le 4 h) : ZMod 32) = -(alternating h : ZMod 32) := by
  have hbytes : le 4 h = [] ++ [UInt8.ofNat h] ++ [UInt8.ofNat (h / 256)] ++ [UInt8.ofNat (h / 256 / 256)] ++
      [UInt8.ofNat (h / 256 / 256 / 256)] := rfl
  have hnil : (javaStringHash [] : ZMod 32) = 0 := rfl
  rw [hbytes, javaStringHash_concat, javaStringHash_concat, javaStringHash_concat, javaStringHash_concat, hnil, alternating]
  simp only [UInt8.toNat_ofNat', Int.cast_sub, Int.cast_add, Int.cast_natCast]
  ring

/-! ### Strings -/

/-- `String.hashCode()`, in 32 bits. -/
def hashCode (chars : List UInt16) : ℕ := chars.foldl (fun h c => (31 * h + c.toNat) % 2 ^ 32) 0

/-- A `java.lang.String`: its characters, and its `hash`. -/
structure StringObject where
  /-- The code units. -/
  chars : List UInt16
  /-- The bits of the `hash` field. -/
  hash : ℕ
  /-- The field is zero until `hashCode` is called. -/
  filled : hash = 0 ∨ hash = hashCode chars

/-- How the class `java.lang.String` is registered: two fields, a character array and an int. -/
structure StringClass where
  /-- The class info. -/
  info : ClassInfo
  /-- The class info of the character array. -/
  charArray : ClassInfo
  /-- `value`. -/
  value : FieldInfo
  /-- `hash`. -/
  hash : FieldInfo
  /-- These are the fields. -/
  fields : info.fields.Perm [value, hash]
  /-- The first is an array. -/
  value_type : value.type = .array
  /-- The second is an int. -/
  hash_type : hash.type = .int
  /-- The fields lie in the body, apart from each other. -/
  laid : info.Laid
  /-- The elements of the array are characters. -/
  elem_type : charArray.elemType = .char

namespace StringClass

variable (c : StringClass)

/-- The body of a string, its reference masked: the `hash`, and zeros. -/
def body (hash : ℕ) : Bytes := patch (List.replicate c.info.objectBodySize 0) c.hash.offset (le 4 hash)

/-- What a string unfolds to. -/
def tree (s : StringObject) : Tree :=
  .object c.info (c.body s.hash) [.primArray c.charArray s.chars.length (s.chars.flatMap fun ch => le 2 ch.toNat)]

theorem refFields_eq : c.info.refFields = [c.value] := by
  have hperm := c.fields.filter (·.type.isReference)
  have hfilter : [c.value, c.hash].filter (·.type.isReference) = [c.value] := by
    simp [c.value_type, c.hash_type, BasicType.isReference, BasicType.code]
  rw [hfilter] at hperm
  exact List.perm_singleton.mp hperm

theorem hash_inside : c.hash.offset + 4 ≤ c.info.objectBodySize := by
  have hmem : c.hash ∈ c.info.fields := c.fields.symm.subset (by simp)
  have hin := c.laid.inside c.hash hmem
  rw [c.hash_type] at hin
  rw [c.laid.bodySize]
  exact hin

theorem value_inside : c.value.offset + 4 ≤ c.info.objectBodySize := by
  have hmem : c.value ∈ c.info.fields := c.fields.symm.subset (by simp)
  have hin := c.laid.inside c.value hmem
  rw [c.value_type] at hin
  rw [c.laid.bodySize]
  exact hin

/-- The two fields are apart. -/
theorem hash_apart : c.hash.offset + 4 ≤ c.value.offset ∨ c.value.offset + 4 ≤ c.hash.offset := by
  have hh : c.hash ∈ c.info.fields := c.fields.symm.subset (by simp)
  have hv : c.value ∈ c.info.fields := c.fields.symm.subset (by simp)
  have hne : c.hash ≠ c.value := by
    intro heq
    have htype := c.hash_type
    rw [heq, c.value_type] at htype
    cases htype
  have hdisj := c.laid.disjoint hh hv hne (by rw [c.value_type]; rfl)
  rw [FieldInfo.Disjoint, c.hash_type, c.value_type] at hdisj
  exact hdisj

theorem length_body (hash : ℕ) : (c.body hash).length = c.info.objectBodySize := by
  have hin := c.hash_inside
  rw [body, length_patch (by rw [length_le, List.length_replicate]; exact hin), List.length_replicate]

/-- The record of a string, but for the bytes of its `hash`, depends on its characters only. -/
theorem encode_tree (o : Options) (u : Simdutf) (off : ℕ) (eid : ℤ) (chars : List UInt16) :
    ∃ pre post : Bytes, ∀ s : StringObject, s.chars = chars → encode o u off eid (c.tree s) = pre ++ le 4 s.hash ++ post := by
  have hh := c.hash_inside
  have hv := c.value_inside
  have hslots : c.info.slots = [c.value.offset] := by rw [ClassInfo.slots, c.refFields_eq]; rfl
  generalize hx : le 4 (u32 (upperAlign (upperAlign off 8 + 8 + c.info.objectBodySize) 8)) = x
  have hxlen : x.length = 4 := by rw [← hx, length_le]
  -- the body with its reference written, and its `hash` still open
  generalize hzeros : List.replicate c.info.objectBodySize (0 : UInt8) = zeros
  have hzlen : zeros.length = c.info.objectBodySize := by rw [← hzeros, List.length_replicate]
  have hbody : ∀ hash, patchSlots (c.body hash) [(c.value.offset, x)] =
      (patch zeros c.value.offset x).take c.hash.offset ++ le 4 hash ++
        (patch zeros c.value.offset x).drop (c.hash.offset + 4) := by
    intro hash
    rw [patchSlots, patchSlots, body, hzeros, patch_comm (by rw [length_le]; omega) (by omega) (by
      rw [length_le, hxlen]
      exact c.hash_apart)]
    conv_lhs => rw [patch]
    rw [length_le]
  generalize patch zeros c.value.offset x = opened at hbody
  refine ⟨pad8 off ++ (leInt16 c.info.id ++ le 2 objectFlag ++ pad8 4 ++ opened.take c.hash.offset),
    opened.drop (c.hash.offset + 4) ++ encodeAll o u (upperAlign off 8 + 8 + c.info.objectBodySize)
      (c.info.refFields.map (·.id)) [.primArray c.charArray chars.length (chars.flatMap fun ch => le 2 ch.toNat)],
    fun s hs => ?_⟩
  subst hs
  rw [tree, encode, c.length_body, hslots, bases, bases, List.map_cons, List.map_nil, List.zip_cons_cons, List.zip_nil_left, hx,
    hbody]
  simp only [List.append_assoc]

end StringClass

/-! ### Two keys -/

/-- The bytes that the static `walk` leaves for an object that unfolds to the tree. -/
def Serialized (o : Options) (u : Simdutf) (t : Tree) (bytes : Bytes) : Prop :=
  ∃ (w : ObjectWalker) (fuel a total : ℕ) (out m : Mem), w.o = o ∧ w.simdutf = u ∧ w.r.Slotted ∧ Unfolds w.heap w.r a t ∧
    t.height < fuel ∧ w.walkRoot fuel a out = .ok (total, m) ∧ bytes = read m 0 total

theorem Serialized.eq {o : Options} {u : Simdutf} {t : Tree} {bytes : Bytes} (h : Serialized o u t bytes) :
    bytes = le 8 (8 + (encode o u 8 unregisteredClassId t).length) ++ encode o u 8 unregisteredClassId t := by
  obtain ⟨w, fuel, a, total, out, m, rfl, rfl, hl, hu, hfuel, hw, rfl⟩ := h
  obtain ⟨m', hw', hread⟩ := ObjectWalker.walkRoot_emits hl hfuel hu out
  rw [hw] at hw'
  cases hw'
  exact hread

/-- `native_partition` puts the record into bucket `p`: behind its header, the bucket is the records that hash to it, of
which the record is one. -/
def PutsInto (fuel : ℕ) (kvs : List KeyValue) (p : ℕ) (kv : KeyValue) : Prop :=
  ∃ (buckets : List Bytes) (header : Bytes), nativePartition fuel (bytesOf kvs) = .ok buckets ∧
    header.length = Spill.headerSize ∧ buckets[p]? = some (header ++ bytesOf (recordsOf kvs p)) ∧ kv ∈ recordsOf kvs p

theorem putsInto_iff {fuel p : ℕ} {kvs : List KeyValue} {kv : KeyValue} (hfuel : kvs.length < fuel) (hkv : kv ∈ kvs) :
    PutsInto fuel kvs p kv ↔ pidOf kv.key = p := by
  constructor
  · rintro ⟨buckets, header, -, -, -, hmem⟩
    exact of_decide_eq_true (List.mem_filter.mp hmem).2
  · rintro rfl
    obtain ⟨buckets, hrun, -, hget⟩ := nativePartition_eq kvs hfuel
    refine ⟨buckets, _, hrun, ?_, hget _ (Nat.mod_lt _ (by decide)), List.mem_filter.mpr ⟨hkv, decide_eq_true rfl⟩⟩
    simp [Spill.headerSize]

/-- **Equal keys meet** exactly if the bytes of their `hash` fields have the same alternating sum modulo 32. The two
records may be in one buffer or in two. -/
theorem equal_keys_meet_iff (c : StringClass) (o : Options) (u : Simdutf) (s₁ s₂ : StringObject) (hchars : s₁.chars = s₂.chars)
    (kvs₁ kvs₂ : List KeyValue) (kv₁ kv₂ : KeyValue) (hkv₁ : kv₁ ∈ kvs₁) (hkv₂ : kv₂ ∈ kvs₂)
    (hs₁ : Serialized o u (c.tree s₁) kv₁.key) (hs₂ : Serialized o u (c.tree s₂) kv₂.key)
    (fuel₁ fuel₂ : ℕ) (hfuel₁ : kvs₁.length < fuel₁) (hfuel₂ : kvs₂.length < fuel₂) :
    (∃ p, PutsInto fuel₁ kvs₁ p kv₁ ∧ PutsInto fuel₂ kvs₂ p kv₂) ↔ alternating s₁.hash ≡ alternating s₂.hash [ZMOD 32] := by
  obtain ⟨pre, post, henc⟩ := c.encode_tree o u 8 unregisteredClassId s₂.chars
  have hkey : ∀ s : StringObject, s.chars = s₂.chars → ∀ bytes, Serialized o u (c.tree s) bytes →
      bytes = (le 8 (8 + (pre.length + 4 + post.length)) ++ pre) ++ le 4 s.hash ++ post := by
    intro s hs bytes hbytes
    rw [hbytes.eq, henc s hs]
    simp only [List.length_append, length_le, List.append_assoc, Nat.add_assoc]
  have hmeet : (∃ p, PutsInto fuel₁ kvs₁ p kv₁ ∧ PutsInto fuel₂ kvs₂ p kv₂) ↔ pidOf kv₁.key = pidOf kv₂.key := by
    simp only [putsInto_iff hfuel₁ hkv₁, putsInto_iff hfuel₂ hkv₂]
    exact ⟨fun ⟨p, h₁, h₂⟩ => h₁.trans h₂.symm, fun h => ⟨_, h, rfl⟩⟩
  rw [hmeet, hkey s₁ hchars _ hs₁, hkey s₂ rfl _ hs₂, pidOf_middle_iff _ _ (by rw [length_le, length_le]), javaStringHash_le4,
    javaStringHash_le4, neg_inj, ZMod.intCast_eq_intCast_iff]
  rfl

/-! ### Strings of one character -/

/-- `java.lang.String` as JDK 8 lays it out. -/
def jdkString : ClassInfo :=
  { klass := 3000, id := 20, enumRefArrOff := 0, objSize := 24, headerSize := 12, nStaticField := 2, dim := 0
    signature := sym "Ljava/lang/String;", fields := [⟨21, 0, .array, 0, 1⟩, ⟨-1, 4, .int, 0, 2⟩], enums := [] }

/-- `char[]`. -/
def jdkCharArray : ClassInfo :=
  { klass := 2000, id := 21, enumRefArrOff := 0, objSize := 16, headerSize := 16, nStaticField := 0, dim := 1
    signature := sym "[C", fields := [⟨5, 0, .char, 0, 0⟩], enums := [] }

/-- The class of strings. -/
def jdkClass : StringClass :=
  { info := jdkString, charArray := jdkCharArray, value := ⟨21, 0, .array, 0, 1⟩, hash := ⟨-1, 4, .int, 0, 2⟩
    fields := List.Perm.refl _, value_type := rfl, hash_type := rfl, elem_type := rfl
    laid := ⟨by decide, by decide, by decide, by decide, by decide, by decide⟩ }

/-- A resolver with the two classes. -/
def jdkResolver : ClassResolver :=
  { infos := [jdkString, jdkCharArray], infoById := [0, 1], infoByKlass := [1, 0]
    sig2id := [(sym "Ljava/lang/String;", 20), (sym "[C", 21)], unresolved := [] }

/-- A heap with a string of the character at 88, whose `hash` has the value. -/
def jdkHeap (ch hash : ℕ) : Heap :=
  { mem := fun x => ((le 8 1 ++ le 4 2000 ++ le 4 1 ++ le 2 ch ++ le 6 0) ++
      (le 8 1 ++ le 4 3000 ++ le 4 64 ++ le 4 hash ++ le 4 0)).getD (x - 64) 0
    args := ⟨0, .zeroBased, 0, 0, .zeroBased, 0⟩ }

/-- The walker that serializes the string. -/
def jdkWalker (ch hash : ℕ) : ObjectWalker := ⟨jdkHeap ch hash, jdkResolver, ⟨false⟩, ObjectWalker.noSimdutf⟩

theorem jdkResolver_slotted : jdkResolver.Slotted := by
  intro k i hi he ho
  have hm := ClassResolver.mem_of_getByKlass hi
  simp only [jdkResolver, List.mem_cons, List.not_mem_nil, or_false] at hm
  rcases hm with rfl | rfl
  · exact ⟨by decide, by decide, by decide⟩
  · cases ho

/-- The serialized string. -/
def jdkBytes (s : StringObject) : Bytes :=
  le 8 (8 + (encode ⟨false⟩ ObjectWalker.noSimdutf 8 unregisteredClassId (jdkClass.tree s)).length) ++
    encode ⟨false⟩ ObjectWalker.noSimdutf 8 unregisteredClassId (jdkClass.tree s)

/-- The string at 88 is serialized to `jdkBytes`. -/
theorem jdk_serialized (ch hash : ℕ) (s : StringObject)
    (hclass : (jdkHeap ch hash).classOf jdkResolver 88 = some jdkString ∧
      (jdkHeap ch hash).classOf jdkResolver 64 = some jdkCharArray)
    (hbody : jdkClass.body s.hash = maskSlots 4 jdkString.slots ((jdkHeap ch hash).raw 88 12 12))
    (hvalue : (jdkHeap ch hash).referenceAt 88 12 = .ok 64)
    (hlength : s.chars.length < 2 ^ 31 ∧ s.chars.length = (jdkHeap ch hash).arrayLength 64 16)
    (hchars : (s.chars.flatMap fun c => le 2 c.toNat) = (jdkHeap ch hash).raw 64 16 (s.chars.length * 2)) :
    Serialized ⟨false⟩ ObjectWalker.noSimdutf (jdkClass.tree s) (jdkBytes s) := by
  have hheight : (jdkClass.tree s).height < 2 := by simp [StringClass.tree, Serde.Tree.height, heightAll]
  have hu : Unfolds (jdkHeap ch hash) jdkResolver 88 (jdkClass.tree s) := by
    simp only [StringClass.tree, Unfolds, UnfoldsAll]
    refine ⟨by decide, hclass.1, rfl, rfl, hbody, 64, [], congrArg (· :: []) hvalue, ?_, rfl⟩
    exact ⟨by decide, hclass.2, rfl, rfl, hlength.1, hlength.2, ⟨5, 0, .char, 0, 0⟩, rfl, rfl, hchars⟩
  obtain ⟨m, hw, hread⟩ := ObjectWalker.walkRoot_emits (w := jdkWalker ch hash) jdkResolver_slotted hheight hu fun _ => 0
  exact ⟨jdkWalker ch hash, 2, 88, _, _, m, rfl, rfl, jdkResolver_slotted, hu, hheight, hw, hread.symm⟩

/-- A string of one character. -/
def fresh (ch : UInt16) : StringObject := ⟨[ch], 0, Or.inl rfl⟩

/-- A string of one character whose `hashCode` was called. -/
def hashed (ch : UInt16) : StringObject := ⟨[ch], hashCode [ch], Or.inr rfl⟩

/-- A record with the key and an empty value. -/
def keyed (s : StringObject) (h : (jdkBytes s).length = 42) : KeyValue where
  key := jdkBytes s
  value := le 8 8
  key_framed := by
    have hlen : (jdkBytes s).length = 8 + (encode ⟨false⟩ ObjectWalker.noSimdutf 8 unregisteredClassId (jdkClass.tree s)).length := by
      rw [jdkBytes, List.length_append, length_le]
    refine ⟨by rw [h]; decide, encode ⟨false⟩ ObjectWalker.noSimdutf 8 unregisteredClassId (jdkClass.tree s), ?_⟩
    rw [hlen]
    rfl
  value_framed := ⟨by decide, [], rfl⟩

/-- The fresh and the hashed blank: the bytes of the hash code 32 have the sum 0 modulo 32. -/
theorem equal_keys_meet_blank :
    ∃ p, PutsInto 3 [keyed (fresh 32) (by decide), keyed (hashed 32) (by decide)] p (keyed (fresh 32) (by decide)) ∧
      PutsInto 3 [keyed (fresh 32) (by decide), keyed (hashed 32) (by decide)] p (keyed (hashed 32) (by decide)) := by
  have hs₁ := jdk_serialized 32 0 (fresh 32) (by decide) (by decide) (by decide) (by decide) (by decide)
  have hs₂ := jdk_serialized 32 32 (hashed 32) (by decide) (by decide) (by decide) (by decide) (by decide)
  exact (equal_keys_meet_iff jdkClass ⟨false⟩ ObjectWalker.noSimdutf (fresh 32) (hashed 32) rfl _ _ _ _
    (List.mem_cons_self ..) (List.mem_cons_of_mem _ (List.mem_cons_self ..)) hs₁ hs₂ 3 3 (by decide) (by decide)).mpr (by decide)

/-- **A fresh "a" and a hashed one are put into two buckets.** -/
theorem equal_keys_part :
    (fresh 97).chars = (hashed 97).chars ∧
      Serialized ⟨false⟩ ObjectWalker.noSimdutf (jdkClass.tree (fresh 97)) (keyed (fresh 97) (by decide)).key ∧
      Serialized ⟨false⟩ ObjectWalker.noSimdutf (jdkClass.tree (hashed 97)) (keyed (hashed 97) (by decide)).key ∧
      ¬ ∃ p, PutsInto 3 [keyed (fresh 97) (by decide), keyed (hashed 97) (by decide)] p (keyed (fresh 97) (by decide)) ∧
        PutsInto 3 [keyed (fresh 97) (by decide), keyed (hashed 97) (by decide)] p (keyed (hashed 97) (by decide)) := by
  have hs₁ := jdk_serialized 97 0 (fresh 97) (by decide) (by decide) (by decide) (by decide) (by decide)
  have hs₂ := jdk_serialized 97 97 (hashed 97) (by decide) (by decide) (by decide) (by decide) (by decide)
  refine ⟨rfl, hs₁, hs₂, ?_⟩
  rintro ⟨p, h₁, h₂⟩
  have hp₁ := (putsInto_iff (by decide) (List.mem_cons_self ..)).mp h₁
  have hp₂ := (putsInto_iff (by decide) (List.mem_cons_of_mem _ (List.mem_cons_self ..))).mp h₂
  have hne : pidOf (jdkBytes (fresh 97)) ≠ pidOf (jdkBytes (hashed 97)) := by decide +kernel
  exact hne (hp₁.trans hp₂.symm)

end DShuffle.Shuffle
