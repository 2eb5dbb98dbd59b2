import DShuffle.Serde.RoundTrip

/-!
# The contents of primitive arrays

`do_walk_array` writes the body of a primitive array as it stands in the heap:
`array_body_size(length)` bytes, which is the length times the element size, in
`uint32_t`. `do_parse_array` makes a new array and fills it through
`SetByteArrayRegion`, to which it gives the number of *elements*; a byte region
of that length is only the first part of the body when elements are wider than a
byte.

## What is proved

* `doParseArray_doWalkArray` — what the reader leaves in the new array: as many
  bytes of the stream as there are elements, then zeros.
* `contentsReturn_iff` — so the elements come back exactly when every byte of
  the body past that is zero, and, where the byte size has wrapped around, the
  bytes that were never written happened to be in the buffer already.
* `contentsReturn_of_size_one` — arrays of booleans and of bytes always come back.
* `contents_lost_of_ints` — the ints `1, 2` do not.

## Honest scope

`enable_utf16_to_utf8` is off; `Utf` is about char arrays with it on. Allocation
succeeds and no exception is pending.
-/

namespace DShuffle.Serde

open Base ObjectReviver

/-- A read of `n` bytes, filled up with zeros to `k`, is the read of another memory. -/
theorem overlay_read_eq_iff {m m' : Mem} {c d n k : ℕ} (hn : n ≤ k) :
    overlay k (read m c n) = read m' d k ↔
      (∀ j < n, m (c + j) = m' (d + j)) ∧ ∀ j, n ≤ j → j < k → m' (d + j) = 0 := by
  obtain ⟨z, rfl⟩ := Nat.exists_eq_add_of_le hn
  have hzeros : List.replicate z 0 = read m' (d + n) z ↔ ∀ j < z, m' (d + n + j) = 0 := by
    rw [eq_comm, List.eq_replicate_iff, length_read]
    simp only [Base.read, List.mem_map, List.mem_range, true_and, forall_exists_index, and_imp,
      forall_apply_eq_imp_iff₂]
  have hover : overlay (n + z) (read m c n) = read m c n ++ List.replicate z 0 := by
    unfold overlay
    rw [length_read, Nat.add_sub_cancel_left]
    exact List.take_of_length_le (by rw [List.length_append, length_read, List.length_replicate])
  have hparts : read m c n ++ List.replicate z 0 = read m' d n ++ read m' (d + n) z ↔
      read m c n = read m' d n ∧ List.replicate z 0 = read m' (d + n) z :=
    ⟨fun h => List.append_inj h (by rw [length_read, length_read]), fun h => by rw [h.1, h.2]⟩
  rw [hover, read_add, hparts, read_eq_iff, hzeros]
  refine and_congr_right fun _ => ⟨fun h j h₁ h₂ => ?_, fun h j hj => ?_⟩
  · obtain ⟨x, rfl⟩ := Nat.exists_eq_add_of_le h₁
    rw [← Nat.add_assoc]
    exact h x (by omega)
  · rw [Nat.add_assoc]
    exact h (n + j) (by omega) (by omega)

/-- Where the body of an array starts when its record starts at `off`. -/
def bodyAt (off : ℕ) : ℕ := upperAlign (off + 8) 8

/-- What `do_walk_array` writes before the body. -/
def arrayHead (off : ℕ) (i : ClassInfo) (n : ℕ) : Bytes := leInt16 i.id ++ le 2 arrayFlag ++ le 4 n ++ pad8 (off + 8)

theorem length_arrayHead (off : ℕ) (i : ClassInfo) (n : ℕ) : off + (arrayHead off i n).length = bodyAt off := by
  have hpad := add_length_pad8 (off + 8)
  simp only [arrayHead, List.length_append, length_leInt16, length_le, bodyAt]
  omega

section
variable {w : ObjectWalker} {a : ℕ} {i : ClassInfo} {f : FieldInfo}

/-- A primitive array is written as its head and the body, as many bytes of it as `array_body_size` says. -/
theorem doWalkArray_eq_put (rec : ObjectWalker.Walk) (b : RWBuffer) (hutf : w.o.enableUtf16ToUtf8 = false)
    (hf : i.elem = .ok f) (hp : f.type.isPrimitive = true) :
    w.doWalkArray rec a i b = .ok (b.put (arrayHead b.off i (w.heap.arrayLength a i.headerSize) ++
      w.heap.raw a i.headerSize (ClassInfo.arrayBodySize f.type (w.heap.arrayLength a i.headerSize)))) := by
  have hnref : ¬ f.type.isReference = true := fun hr => by
    rw [BasicType.not_isPrimitive_of_isReference hr] at hp
    cases hp
  have hnutf : ¬ (f.type = .char ∧ w.o.enableUtf16ToUtf8 = true) := fun h => by
    rw [hutf] at h
    cases h.2
  simp only [ObjectWalker.doWalkArray, hf, bind, Except.bind, if_neg hnref, if_pos hp, if_neg hnutf]
  rw [RWBuffer.put_put, RWBuffer.put_put, RWBuffer.fillNextAlign8_eq, RWBuffer.put_put, RWBuffer.put_put, RWBuffer.off_put]
  simp only [List.length_append, length_leInt16, length_le]
  rfl

/-- The length of an array record that was just written. -/
theorem read_arrayHead (out : Mem) (off n : ℕ) (body : Bytes) (hn : n < 2 ^ 32) :
    ofLe (read (write out off (arrayHead off i n ++ body)) (off + 4) 4) = n := by
  have hin : 4 + 4 ≤ (arrayHead off i n ++ body).length := by
    simp only [arrayHead, List.length_append, length_leInt16, length_le]
    omega
  have hsl : slice (arrayHead off i n ++ body) 4 4 = le 4 n := by
    simp only [arrayHead, List.append_assoc]
    rw [← List.append_assoc (leInt16 i.id)]
    have hr := slice_append_right (leInt16 i.id ++ le 2 arrayFlag) (le 4 n ++ (pad8 (off + 8) ++ body)) 0 4
    have hlen : (leInt16 i.id ++ le 2 arrayFlag).length + 0 = 4 := by
      rw [List.length_append, length_leInt16, length_le]
    have hleft : slice (le 4 n ++ (pad8 (off + 8) ++ body)) 0 4 = slice (le 4 n) 0 4 :=
      slice_append_left (by rw [length_le])
    have hall := slice_all (le 4 n)
    rw [length_le] at hall
    rw [hlen, hleft, hall] at hr
    exact hr
  rw [read_write_inside hin, hsl, ofLe_le]
  exact Nat.mod_eq_of_lt hn

/-- The bytes from the body on of an array record that was just written. -/
theorem write_arrayHead (out : Mem) (off n j : ℕ) (body : Bytes) :
    write out off (arrayHead off i n ++ body) (bodyAt off + j) = body.getD j (out (bodyAt off + j)) := by
  rw [write_append, length_arrayHead]
  by_cases hj : j < body.length
  · rw [write_inside hj, List.getD_eq_getElem _ _ hj]
  · have hle := length_arrayHead off i n
    rw [write_of_le (by omega), write_of_le (by omega), List.getD_eq_default _ _ (by omega)]

/-- The buffer once the array at `a` was written at `off`. -/
def written (w : ObjectWalker) (out : Mem) (off a : ℕ) (i : ClassInfo) (t : BasicType) : Mem :=
  write out off (arrayHead off i (w.heap.arrayLength a i.headerSize) ++
    w.heap.raw a i.headerSize (ClassInfo.arrayBodySize t (w.heap.arrayLength a i.headerSize)))

/-- From the body on, the buffer holds the array's own bytes as far as they were written, and what it held before
after that. -/
theorem written_body (w : ObjectWalker) (out : Mem) (off a j : ℕ) (i : ClassInfo) (t : BasicType) :
    written w out off a i t (bodyAt off + j) = if j < u32 (w.heap.arrayLength a i.headerSize * t.size)
      then w.heap.mem (a + i.headerSize + j) else out (bodyAt off + j) := by
  rw [written, write_arrayHead, List.getD_eq_getElem?_getD, Heap.raw, getElem?_read, ClassInfo.arrayBodySize]
  split_ifs <;> rfl

/-- **What the reader makes of a primitive array**: a new array of the same type and length, whose body holds as
many bytes of the stream as there are elements, and zeros after them. -/
theorem doParseArray_doWalkArray (jvm : Jvm) (fuel : ℕ) (e : JEnv) (out : Mem) (off : ℕ)
    (hutf : w.o.enableUtf16ToUtf8 = false) (hf : i.elem = .ok f) (hp : f.type.isPrimitive = true)
    (hn : w.heap.arrayLength a i.headerSize < 2 ^ 31)
    (hnew : jvm.newTypeArray f.type (w.heap.arrayLength a i.headerSize) = true) (he : e.exception = false) :
    ∃ b s, w.doWalkArray (w.walk fuel) a i ⟨out, off⟩ = .ok b ∧
      (w.reviver jvm).doParseArray ((w.reviver jvm).parse fuel) i (stateAt b.data (off + 4) e) =
        .ok (.loc e.nLocals (.typeArray f.type (w.heap.arrayLength a i.headerSize)
          (overlay (w.heap.arrayLength a i.headerSize * f.type.size)
            (read b.data (bodyAt off) (w.heap.arrayLength a i.headerSize)))), s) ∧
      b.data = written w out off a i f.type := by
  have hw := doWalkArray_eq_put (a := a) (w.walk fuel) ⟨out, off⟩ hutf hf hp
  unfold written
  generalize w.heap.arrayLength a i.headerSize = n at *
  have hlen : ofLe (read (write out off (arrayHead off i n ++
      w.heap.raw a i.headerSize (ClassInfo.arrayBodySize f.type n))) (off + 4) 4) = n :=
    read_arrayHead out off n _ (by omega)
  have hnutf : ¬ (f.type = .char ∧ (w.reviver jvm).o.enableUtf16ToUtf8 = true) := fun h =>
    absurd (hutf.symm.trans h.2) Bool.false_ne_true
  have halloc : ¬ (decide (n < 2 ^ 31) && (w.reviver jvm).jvm.newTypeArray f.type n) = false := by
    rw [decide_eq_true hn, Bool.true_and]
    exact fun h => absurd (hnew.symm.trans h) Bool.noConfusion
  have hchk : e.newLocal.check = .ok () := if_neg (by rw [JEnv.newLocal, he]; exact Bool.false_ne_true)
  refine ⟨_, ?_, hw, ?_, rfl⟩
  · exact ⟨⟨write out off (arrayHead off i n ++ w.heap.raw a i.headerSize (ClassInfo.arrayBodySize f.type n)),
      bodyAt off + ClassInfo.arrayBodySize f.type n⟩, e.newLocal⟩
  · have hb : off + 4 + 4 = off + 8 := rfl
    simp only [RWBuffer.put, doParseArray, stateAt, RWBuffer.get, RWBuffer.getAt, RWBuffer.skipNextAlign8, hlen, hf, bind,
      Except.bind, if_pos hp, if_neg halloc, parseContents, if_neg hnutf, ne_eq, not_true_eq_false, if_false, hchk,
      RWBuffer.skip, hb, pure, Except.pure, bodyAt]

/-- The primitive array at `a` comes back with the same elements: `do_walk_array` writes it at the offset `off` of
a buffer that held `out`, and `do_parse_array`, which starts behind the id and the flag, makes an array of the same
type and length with the bytes of the same elements. -/
def ContentsReturn (w : ObjectWalker) (jvm : Jvm) (fuel : ℕ) (e : JEnv) (out : Mem) (off a : ℕ) (i : ClassInfo)
    (t : BasicType) : Prop :=
  ∃ b h s, w.doWalkArray (w.walk fuel) a i ⟨out, off⟩ = .ok b ∧
    (w.reviver jvm).doParseArray ((w.reviver jvm).parse fuel) i (stateAt b.data (off + 4) e) = .ok (h, s) ∧
    s.env.resolve h = .typeArray t (w.heap.arrayLength a i.headerSize)
      (w.heap.raw a i.headerSize (w.heap.arrayLength a i.headerSize * t.size))

/-- The elements come back when the bytes that the reader takes, filled up with zeros, are theirs. -/
theorem contentsReturn_iff_overlay (jvm : Jvm) (fuel : ℕ) (e : JEnv) (out : Mem) (off : ℕ)
    (hutf : w.o.enableUtf16ToUtf8 = false) (hf : i.elem = .ok f) (hp : f.type.isPrimitive = true)
    (hn : w.heap.arrayLength a i.headerSize < 2 ^ 31)
    (hnew : jvm.newTypeArray f.type (w.heap.arrayLength a i.headerSize) = true) (he : e.exception = false) :
    ContentsReturn w jvm fuel e out off a i f.type ↔
      overlay (w.heap.arrayLength a i.headerSize * f.type.size)
          (read (written w out off a i f.type) (bodyAt off) (w.heap.arrayLength a i.headerSize)) =
        read w.heap.mem (a + i.headerSize) (w.heap.arrayLength a i.headerSize * f.type.size) := by
  obtain ⟨b, s, hw, hv, hdata⟩ := doParseArray_doWalkArray jvm fuel e out off hutf hf hp hn hnew he
  unfold ContentsReturn
  rw [hw, ← hdata]
  constructor
  · rintro ⟨b', h, s', hb, hv', hr⟩
    cases hb
    rw [hv] at hv'
    cases hv'
    exact (Value.typeArray.inj hr).2.2
  · intro heq
    exact ⟨b, _, s, rfl, hv, congrArg (Value.typeArray f.type _) heq⟩

theorem length_le_bodySize {t : BasicType} (n : ℕ) (hp : t.isPrimitive = true) : n ≤ n * t.size :=
  Nat.le_mul_of_pos_right _ (BasicType.size_pos_of_isPrimitive hp)

end

/-- **When the elements of a primitive array come back**: when every byte of the elements from position `n` on,
for `n` the number of elements, is zero; and when, of the first `n` bytes, those that the wrapped byte size left
unwritten stood in the buffer already. -/
theorem contentsReturn_iff (w : ObjectWalker) (jvm : Jvm) (fuel : ℕ) (e : JEnv) (out : Mem) (off a : ℕ) (i : ClassInfo)
    (f : FieldInfo) (hutf : w.o.enableUtf16ToUtf8 = false) (hf : i.elem = .ok f) (hp : f.type.isPrimitive = true)
    (hn : w.heap.arrayLength a i.headerSize < 2 ^ 31)
    (hnew : jvm.newTypeArray f.type (w.heap.arrayLength a i.headerSize) = true) (he : e.exception = false) :
    ContentsReturn w jvm fuel e out off a i f.type ↔
      (∀ j, w.heap.arrayLength a i.headerSize ≤ j → j < w.heap.arrayLength a i.headerSize * f.type.size →
        w.heap.mem (a + i.headerSize + j) = 0) ∧
      ∀ j < w.heap.arrayLength a i.headerSize, u32 (w.heap.arrayLength a i.headerSize * f.type.size) ≤ j →
        out (bodyAt off + j) = w.heap.mem (a + i.headerSize + j) := by
  rw [contentsReturn_iff_overlay jvm fuel e out off hutf hf hp hn hnew he,
    overlay_read_eq_iff (length_le_bodySize _ hp), and_comm]
  refine and_congr_right fun _ => forall_congr' fun j => forall_congr' fun hj => ?_
  rw [written_body]
  split_ifs with hm
  · exact ⟨fun _ hle => absurd hm (Nat.not_lt.mpr hle), fun _ => rfl⟩
  · exact ⟨fun h _ => h, fun h => h (Nat.le_of_not_lt hm)⟩

/-- Arrays of one-byte elements always come back: for them the number of elements is the number of bytes. -/
theorem contentsReturn_of_size_one (w : ObjectWalker) (jvm : Jvm) (fuel : ℕ) (e : JEnv) (out : Mem) (off a : ℕ)
    (i : ClassInfo) (f : FieldInfo) (hutf : w.o.enableUtf16ToUtf8 = false) (hf : i.elem = .ok f)
    (hp : f.type.isPrimitive = true) (hs : f.type.size = 1) (hn : w.heap.arrayLength a i.headerSize < 2 ^ 31)
    (hnew : jvm.newTypeArray f.type (w.heap.arrayLength a i.headerSize) = true) (he : e.exception = false) :
    ContentsReturn w jvm fuel e out off a i f.type := by
  rw [contentsReturn_iff_overlay jvm fuel e out off hutf hf hp hn hnew he,
    overlay_read_eq_iff (length_le_bodySize _ hp), hs, Nat.mul_one]
  refine ⟨fun j hj => ?_, fun j h₁ h₂ => absurd h₂ (Nat.not_lt.mpr h₁)⟩
  have hu : u32 (w.heap.arrayLength a i.headerSize) = w.heap.arrayLength a i.headerSize := u32_of_lt (by omega)
  rw [written_body, hs, Nat.mul_one, hu, if_pos hj]

/-! ### Two arrays -/

open ObjectWalker (sampleResolver noSimdutf)

/-- The class info of `int[]`. -/
def sampleInts : ClassInfo :=
  { klass := 4000, id := 23, enumRefArrOff := 0, objSize := 16, headerSize := 16, nStaticField := 0, dim := 1,
    signature := sym "[I", fields := [⟨-1, 0, .int, 0, 0⟩], enums := [] }

/-- A walker over a heap that holds, at `64`, an array of the two ints `x` and `y`. -/
def intsWalker (x y : ℕ) : ObjectWalker :=
  { heap := ⟨fun k => (le 8 1 ++ le 4 4000 ++ le 4 2 ++ le 4 x ++ le 4 y).getD (k - 64) 0,
      ⟨0, .zeroBased, 0, 0, .zeroBased, 0⟩⟩
    r := sampleResolver, o := ⟨false⟩, simdutf := noSimdutf }

/-- Of the ints `513, 0` every byte past the second is zero, and they come back. -/
theorem contentsReturn_of_ints :
    ContentsReturn (intsWalker 513 0) sampleJvm 1 sampleEnv (fun _ => 255) 8 64 sampleInts .int :=
  (contentsReturn_iff (intsWalker 513 0) sampleJvm 1 sampleEnv (fun _ => 255) 8 64 sampleInts ⟨-1, 0, .int, 0, 0⟩ rfl rfl
    (by decide) (by decide) rfl rfl).mpr ⟨by decide, by decide⟩

/-- The ints `1, 2` do not come back: the byte at position four is past the second. -/
theorem contents_lost_of_ints :
    ¬ ContentsReturn (intsWalker 1 2) sampleJvm 1 sampleEnv (fun _ => 255) 8 64 sampleInts .int := by
  rw [contentsReturn_iff_overlay (f := ⟨-1, 0, .int, 0, 0⟩) sampleJvm 1 sampleEnv (fun _ => 255) 8 rfl rfl (by decide)
    (by decide) rfl rfl]
  intro h
  have hzero := ((overlay_read_eq_iff (length_le_bodySize _ rfl)).mp h).2 4 (by decide) (by decide)
  exact absurd hzero (by decide)

end DShuffle.Serde
