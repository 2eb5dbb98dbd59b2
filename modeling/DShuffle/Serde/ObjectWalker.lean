import DShuffle.Serde.HeapGraph
import DShuffle.Serde.RWBuffer

/-!
# The object walker

`ObjectWalker` (`object_walker.cxx`) writes an object graph into a buffer. Every
record starts at a multiple of eight with the class id and the flags; an object
is its body copied raw, with each reference slot then overwritten by the offset
of the member's record, which follows; an array is its length and its elements.

## The model

* `walk`, `do_walk_object` and `do_walk_array` call each other; here each takes
  the recursive call as a parameter and `walk` ties the knot with a bound on the
  depth, `fuel`. Running out of it is a fault, so it is never taken for a result.
* The transcoder of char arrays, `simdutf`, is a parameter: what each of its two
  conversions stores and what it returns.

## What is proved

* `walk_emits` — on an address that unfolds to a tree, with fuel above its
  height, `walk` succeeds and writes exactly `encode` of the tree, a function of
  the tree, the offset and the expected id.
* `bytes_depend_on_tree_only` — so two heaps whose graphs unfold to one tree are
  serialized to the same bytes, whatever the addresses, the sharing, and the
  earlier contents of the buffers.
-/

namespace DShuffle.Serde

open Base

/-- The two conversions of `simdutf` that the code calls, on the little-endian bytes of the code units:
what they store, and the count they return. A count never covers more than was stored. -/
structure Simdutf where
  /-- `convert_utf16le_to_utf8`: the bytes stored, and how many it says. -/
  toUtf8 : Bytes → Bytes × ℕ
  /-- `convert_utf8_to_utf16le`: the bytes stored, and how many code units it says. -/
  toUtf16 : Bytes → Bytes × ℕ
  /-- What is counted was stored. -/
  toUtf8_le : ∀ bs, (toUtf8 bs).2 ≤ (toUtf8 bs).1.length
  /-- What is counted was stored. -/
  toUtf16_le : ∀ bs, 2 * (toUtf16 bs).2 ≤ (toUtf16 bs).1.length

/-- `Options`, the part that the serializer reads. -/
structure Options where
  /-- `enable_utf16_to_utf8`. -/
  enableUtf16ToUtf8 : Bool

/-- What an `ObjectWalker` is made of, apart from its buffer. -/
structure ObjectWalker where
  /-- The heap it reads. -/
  heap : Heap
  /-- The class resolver. -/
  r : ClassResolver
  /-- The options. -/
  o : Options
  /-- The transcoder. -/
  simdutf : Simdutf

namespace ObjectWalker

variable (w : ObjectWalker)

/-- A call of `walk`: the object's address, the expected id and the buffer; the record's offset and the
buffer come back. -/
abbrev Walk := ℕ → ℤ → RWBuffer → Except Fault (ℕ × RWBuffer)

/-- The loop of `do_walk_object` over the fields. -/
def walkFields (rec : Walk) (objBase : ℕ) : List FieldInfo → RWBuffer → Except Fault RWBuffer
  | [], b => .ok b
  | f :: fs, b =>
    if f.type.isPrimitive then walkFields rec objBase fs b
    else do
      let fOffset := objBase + f.offset
      let member ← w.heap.args.parseHeapCptr (b.getAt 4 fOffset)
      let (memberOffset, b) ← rec member f.id b
      walkFields rec objBase fs (b.putAt (le 4 memberOffset) fOffset)

/-- `do_walk_object`. -/
def doWalkObject (rec : Walk) (a : ℕ) (info : ClassInfo) (b : RWBuffer) : Except Fault RWBuffer :=
  let b := ((b.put (leInt16 info.id)).put (le 2 objectFlag)).fillNextAlign8
  let objBase := b.off
  w.walkFields rec objBase info.fields (b.put (w.heap.raw a info.headerSize info.objectBodySize))

/-- The loop of `do_walk_array` over the `n` elements from the `i`-th on. -/
def walkElems (rec : Walk) (a base : ℕ) (id : ℤ) : (n i : ℕ) → RWBuffer → Except Fault RWBuffer
  | 0, _, b => .ok b
  | n + 1, i, b => do
    let elem ← w.heap.arrayElemRef a base i
    let (_, b) ← rec elem id b
    walkElems rec a base id n (i + 1) b

/-- `cvt_utf16_to_utf8`: the original byte size, the actual byte size, and the UTF-8 text. -/
def cvtUtf16ToUtf8 (a : ℕ) (info : ClassInfo) (t : BasicType) (length : ℕ) (b : RWBuffer) : RWBuffer :=
  let b := b.put (le 4 (ClassInfo.arrayBodySize t length))
  let (stored, n) := w.simdutf.toUtf8 (w.heap.raw a info.headerSize (length * 2))
  -- the conversion writes behind the count, which is put in afterwards
  let b := b.putAt stored (b.off + 4)
  let actual := u32 n
  (b.put (le 4 actual)).skip actual

/-- `do_walk_array`. -/
def doWalkArray (rec : Walk) (a : ℕ) (info : ClassInfo) (b : RWBuffer) : Except Fault RWBuffer := do
  let length := w.heap.arrayLength a info.headerSize
  let b := (((b.put (leInt16 info.id)).put (le 2 arrayFlag)).put (le 4 length)).fillNextAlign8
  let elem ← info.elem
  if elem.type.isReference then w.walkElems rec a info.headerSize elem.id length 0 b
  else if elem.type.isPrimitive then
    if elem.type = .char ∧ w.o.enableUtf16ToUtf8 = true then return w.cvtUtf16ToUtf8 a info elem.type length b
    else return b.put (w.heap.raw a info.headerSize (ClassInfo.arrayBodySize elem.type length))
  else throw .unreachable

/-- The body of `walk`. -/
def walkStep (rec : Walk) : Walk := fun a expectedId b =>
  let b := b.fillNextAlign8
  let base := u32 b.off
  if a = 0 then .ok (base, (b.put (leInt16 expectedId)).put (le 2 nullFlag))
  else do
    let klass ← w.heap.klassPointer a
    match w.r.getByKlass klass with
    -- the dummy is a null pointer
    | none => throw .badAccess
    | some info =>
      if info.isEnum then
        return (base, ((b.put (leInt16 info.id)).put (le 2 (enumFlag + objectFlag))).put
          (le 4 (w.heap.enumOrdinal a)))
      else if info.isObject then return (base, ← w.doWalkObject rec a info b)
      else if info.isArray then return (base, ← w.doWalkArray rec a info b)
      else throw .unreachable

/-- `walk(obj, expected_id)`. -/
def walk : (fuel : ℕ) → Walk
  | 0 => fun _ _ _ => .error .fuel
  | fuel + 1 => w.walkStep (walk fuel)

/-- The static `walk`: leave room for the header, walk the object, then write the total length there. -/
def walkRoot (fuel : ℕ) (a : ℕ) (out : Mem) : Except Fault (ℕ × Mem) := do
  let (_, b) ← w.walk fuel a unregisteredClassId (RWBuffer.skip ⟨out, 0⟩ objectDataOffset)
  let b := b.putAt (le 8 b.off) 0
  return (b.off, b.data)

end ObjectWalker

/-! ### What is written for a tree -/

/-- The bytes that a char array or another primitive array puts behind its length. -/
def encodeContents (o : Options) (u : Simdutf) (t : BasicType) (length : ℕ) (contents : Bytes) : Bytes :=
  if t = .char ∧ o.enableUtf16ToUtf8 = true then
    le 4 (ClassInfo.arrayBodySize t length) ++ le 4 (u32 (u.toUtf8 contents).2) ++
      (u.toUtf8 contents).1.take (u32 (u.toUtf8 contents).2)
  else contents.take (ClassInfo.arrayBodySize t length)

/-- The element type of an array class. -/
def ClassInfo.elemType (i : ClassInfo) : BasicType :=
  match i.fields with
  | f :: _ => f.type
  | [] => .unset

/-- The expected id of an array's elements. -/
def ClassInfo.elemId (i : ClassInfo) : ℤ :=
  match i.fields with
  | f :: _ => f.id
  | [] => unregisteredClassId

section
variable (o : Options) (u : Simdutf)

mutual

/-- The bytes that `walk` writes for a tree when the cursor stands at `off`. -/
def encode (off : ℕ) (expectedId : ℤ) : Tree → Bytes
  | .null => pad8 off ++ (leInt16 expectedId ++ le 2 nullFlag)
  | .enumConst i ordinal => pad8 off ++ (leInt16 i.id ++ le 2 (enumFlag + objectFlag) ++ le 4 ordinal)
  | .object i body ms =>
    let base := upperAlign off 8 + 8
    pad8 off ++ (leInt16 i.id ++ le 2 objectFlag ++ pad8 4 ++
      patchSlots body (i.slots.zip ((bases (base + body.length) (i.refFields.map (·.id)) ms).map fun x => le 4 (u32 x))) ++
      encodeAll (base + body.length) (i.refFields.map (·.id)) ms)
  | .refArray i es =>
    pad8 off ++ (leInt16 i.id ++ le 2 arrayFlag ++ le 4 es.length ++
      encodeAll (upperAlign off 8 + 8) (List.replicate es.length i.elemId) es)
  | .primArray i n contents =>
    pad8 off ++ (leInt16 i.id ++ le 2 arrayFlag ++ le 4 n ++ encodeContents o u i.elemType n contents)

/-- The bytes for trees one after the other, with their expected ids. -/
def encodeAll (off : ℕ) : List ℤ → List Tree → Bytes
  | _, [] => []
  | ids, t :: ts =>
    encode off (ids.headD unregisteredClassId) t ++
      encodeAll (off + (encode off (ids.headD unregisteredClassId) t).length) ids.tail ts

/-- Where the records of the trees start. -/
def bases (off : ℕ) : List ℤ → List Tree → List ℕ
  | _, [] => []
  | ids, t :: ts =>
    upperAlign off 8 ::
      bases (off + (encode off (ids.headD unregisteredClassId) t).length) ids.tail ts

end

end

/-! ### The walker writes the encoding -/

/-- Every registered instance class has its reference slots in order. -/
def ClassResolver.Slotted (r : ClassResolver) : Prop :=
  ∀ k i, r.getByKlass k = some i → i.isEnum = false → i.isObject = true → i.Slotted

theorem ClassInfo.elem_ok {i : ClassInfo} {f : FieldInfo} (h : i.elem = .ok f) :
    i.elemType = f.type ∧ i.elemId = f.id := by
  unfold ClassInfo.elem at h
  unfold ClassInfo.elemType ClassInfo.elemId
  cases hf : i.fields with
  | nil => rw [hf] at h; cases h
  | cons g gs =>
    rw [hf] at h
    cases h
    exact ⟨rfl, rfl⟩

theorem Heap.classOf_eq_some {h : Heap} {r : ClassResolver} {a : ℕ} {i : ClassInfo} (hc : h.classOf r a = some i) :
    ∃ k, h.klassPointer a = .ok k ∧ r.getByKlass k = some i := by
  unfold Heap.classOf at hc
  cases hk : h.klassPointer a with
  | error e => rw [hk] at hc; cases hc
  | ok k => rw [hk] at hc; exact ⟨k, rfl, hc⟩

theorem length_bases (o : Options) (u : Simdutf) (off : ℕ) (ids : List ℤ) (ts : List Tree) :
    (bases o u off ids ts).length = ts.length := by
  induction ts generalizing off ids with
  | nil => rfl
  | cons t ts ih => rw [bases, List.length_cons, List.length_cons, ih]

namespace ObjectWalker

open RWBuffer

variable (w : ObjectWalker)

/-- `rec` writes the encoding of `t` for every address that unfolds to it. -/
def WalksAs (rec : Walk) (t : Tree) : Prop :=
  ∀ a eid b, Unfolds w.heap w.r a t → ∃ b', rec a eid b = .ok (u32 (upperAlign b.off 8), b') ∧
    Emits b (encode w.o w.simdutf b.off eid t) b'

variable {w} {rec : Walk}

theorem walkElems_emits (id : ℤ) {a base n i : ℕ} {ts : List Tree} {b : RWBuffer}
    (hrec : ∀ t ∈ ts, w.WalksAs rec t)
    (hu : UnfoldsAll w.heap w.r ((List.range' i n).map (w.heap.arrayElemRef a base)) ts) :
    ∃ b', w.walkElems rec a base id n i b = .ok b' ∧
      Emits b (encodeAll w.o w.simdutf b.off (List.replicate n id) ts) b' := by
  induction ts generalizing n i b with
  | nil =>
    simp only [UnfoldsAll, List.map_eq_nil_iff, List.range'_eq_nil_iff] at hu
    subst hu
    exact ⟨b, rfl, by rw [encodeAll]; exact Emits.refl b⟩
  | cons t ts ih =>
    cases n with
    | zero => simp [UnfoldsAll] at hu
    | succ n =>
      rw [List.range'_succ, List.map_cons] at hu
      simp only [UnfoldsAll, List.cons.injEq] at hu
      obtain ⟨e, refs, ⟨he, rfl⟩, ht, hts⟩ := hu
      obtain ⟨b₁, hb₁, hem₁⟩ := hrec t List.mem_cons_self e id b ht
      obtain ⟨b₂, hb₂, hem₂⟩ := ih (b := b₁) (fun t ht => hrec t (List.mem_cons_of_mem _ ht)) hts
      refine ⟨b₂, ?_, ?_⟩
      · rw [walkElems, he]
        simp only [bind, Except.bind]
        rw [hb₁]
        exact hb₂
      · rw [List.replicate_succ, encodeAll, List.headD_cons, List.tail_cons, ← hem₁.off]
        exact hem₁.trans hem₂

/-- A slot that was written is still there after a call and a store to another slot. -/
theorem getAt_kept {b b₁ : RWBuffer} {bs v : Bytes} {x y : ℕ} (hem : Emits b bs b₁) (hx : x + 4 ≤ b.off)
    (hv : v.length = 4) (hd : x + 4 ≤ y ∨ y + 4 ≤ x) : (b₁.putAt v y).getAt 4 x = b.getAt 4 x := by
  have hstore : read (write b₁.data y v) x 4 = read b₁.data x 4 := by
    rcases hd with hd | hd
    · exact read_write_left hd
    · exact read_write_right (by rw [hv]; exact hd)
  rw [getAt, getAt, putAt, hstore, hem.read_before hx]

/-- So the members of the other fields are still in their slots when one field has got the offset of its record. -/
theorem members_kept {f : FieldInfo} {fs : List FieldInfo} {objBase : ℕ} {b b₁ : RWBuffer} {bs v : Bytes} (hem : Emits b bs b₁)
    (hv : v.length = 4) (hf : f.type.isReference = true)
    (hap : ∀ g ∈ fs, f.type.isReference = true → g.type.isReference = true → f.Disjoint g)
    (hin : ∀ g ∈ fs, g.type.isReference = true → objBase + g.offset + 4 ≤ b.off) :
    (fs.filter (·.type.isReference)).map (fun g => w.heap.args.parseHeapCptr
        ((b₁.putAt v (objBase + f.offset)).getAt 4 (objBase + g.offset))) =
      (fs.filter (·.type.isReference)).map (fun g => w.heap.args.parseHeapCptr (b.getAt 4 (objBase + g.offset))) := by
  refine List.map_congr_left fun g hg => ?_
  obtain ⟨hg₁, hg₂⟩ := List.mem_filter.mp hg
  have hd := (hap g hg₁ hf hg₂).slots hf hg₂
  rw [getAt_kept hem (hin g hg₁ hg₂) hv (by omega)]

/-- The loop over the fields: each reference slot of the body is overwritten by the offset of its member's
record, and the members' records follow what was written so far. -/
theorem walkFields_emits {fs : List FieldInfo} {ms : List Tree} {b₀ b : RWBuffer} {pre body done : Bytes}
    (hrec : ∀ t ∈ ms, w.WalksAs rec t) (hb : Emits b₀ (pre ++ body ++ done) b)
    (hty : ∀ f ∈ fs, f.type.isPrimitive = true ∨ f.type.isReference = true)
    (hin : ∀ f ∈ fs, f.type.isReference = true → f.offset + 4 ≤ body.length)
    (hap : fs.Pairwise fun f g => f.type.isReference = true → g.type.isReference = true → f.Disjoint g)
    (hu : UnfoldsAll w.heap w.r ((fs.filter (·.type.isReference)).map
      fun f => w.heap.args.parseHeapCptr (ofLe (slice body f.offset 4))) ms) :
    ∃ b', w.walkFields rec (b₀.off + pre.length) fs b = .ok b' ∧
      Emits b₀ (pre ++ patchSlots body (((fs.filter (·.type.isReference)).map (·.offset)).zip
          ((bases w.o w.simdutf b.off ((fs.filter (·.type.isReference)).map (·.id)) ms).map fun x => le 4 (u32 x))) ++
        (done ++ encodeAll w.o w.simdutf b.off ((fs.filter (·.type.isReference)).map (·.id)) ms)) b' := by
  induction fs generalizing ms b body done with
  | nil =>
    cases ms with
    | nil => exact ⟨b, rfl, by simpa [patchSlots, encodeAll] using hb⟩
    | cons t ts => simp [UnfoldsAll] at hu
  | cons f fs ih =>
    have hty' : ∀ g ∈ fs, g.type.isPrimitive = true ∨ g.type.isReference = true :=
      fun g hg => hty g (List.mem_cons_of_mem _ hg)
    obtain ⟨hap₁, hap₂⟩ := List.pairwise_cons.mp hap
    cases hf : f.type.isReference with
    | false =>
      -- a primitive field is passed over
      have hp : f.type.isPrimitive = true :=
        BasicType.isPrimitive_of_not_isReference (hty f List.mem_cons_self) hf
      rw [filter_isReference_of_neg hf] at hu ⊢
      obtain ⟨b', hw, hem⟩ := ih hrec hb hty' (fun g hg => hin g (List.mem_cons_of_mem _ hg)) hap₂ hu
      exact ⟨b', by rw [walkFields, if_pos hp]; exact hw, hem⟩
    | true =>
      have hp : f.type.isPrimitive = false := BasicType.not_isPrimitive_of_isReference hf
      have hsz : f.offset + 4 ≤ body.length := hin f List.mem_cons_self hf
      rw [filter_isReference_of_pos hf] at hu ⊢
      cases ms with
      | nil => simp [UnfoldsAll] at hu
      | cons t ts =>
        rw [List.map_cons] at hu
        simp only [UnfoldsAll, List.cons.injEq] at hu
        obtain ⟨m, refs, ⟨hm, rfl⟩, ht, hts⟩ := hu
        obtain ⟨b₁, hb₁, hem₁⟩ := hrec t List.mem_cons_self m f.id b ht
        have hget : b.getAt 4 (b₀.off + pre.length + f.offset) = ofLe (slice body f.offset 4) := by
          have hr := hb.read_eq (k := pre.length + f.offset) (n := 4)
            (by simp only [List.length_append]; omega)
          rw [List.append_assoc, slice_append_right, slice_append_left hsz, ← Nat.add_assoc] at hr
          rw [getAt, hr]
        -- the slot of `f` now holds the offset of the member's record
        have hpatch : Emits b₀ (pre ++ patch body f.offset (le 4 (u32 (upperAlign b.off 8))) ++
            (done ++ encode w.o w.simdutf b.off f.id t))
            (b₁.putAt (le 4 (u32 (upperAlign b.off 8))) (b₀.off + pre.length + f.offset)) := by
          have h₂ := (hb.trans hem₁).putAt (v := le 4 (u32 (upperAlign b.off 8))) (k := pre.length + f.offset)
            (by simp only [List.length_append, length_le]; omega)
          rw [List.append_assoc pre, List.append_assoc pre, patch_append_right, List.append_assoc body,
            patch_append_left (by rw [length_le]; exact hsz), ← List.append_assoc pre, ← Nat.add_assoc] at h₂
          exact h₂
        have hoff : (b₁.putAt (le 4 (u32 (upperAlign b.off 8))) (b₀.off + pre.length + f.offset)).off =
            b.off + (encode w.o w.simdutf b.off f.id t).length := hem₁.off
        have hlen : (patch body f.offset (le 4 (u32 (upperAlign b.off 8)))).length = body.length :=
          length_patch (by rw [length_le]; exact hsz)
        have hslices : (fs.filter (·.type.isReference)).map (fun g => w.heap.args.parseHeapCptr
              (ofLe (slice (patch body f.offset (le 4 (u32 (upperAlign b.off 8)))) g.offset 4))) =
            (fs.filter (·.type.isReference)).map
              (fun g => w.heap.args.parseHeapCptr (ofLe (slice body g.offset 4))) := by
          refine List.map_congr_left fun g hg => ?_
          obtain ⟨hg₁, hg₂⟩ := List.mem_filter.mp hg
          have hd := (hap₁ g hg₁ hf hg₂).slots hf hg₂
          rw [slice_patch_of_disjoint (by rw [length_le]; exact hsz) (by rw [length_le]; exact hd.symm)]
        obtain ⟨b', hw, hem⟩ := ih (fun t ht => hrec t (List.mem_cons_of_mem _ ht)) hpatch hty'
          (by rw [hlen]; exact fun g hg => hin g (List.mem_cons_of_mem _ hg)) hap₂ (by rw [hslices]; exact hts)
        refine ⟨b', ?_, ?_⟩
        · rw [walkFields, if_neg (by rw [hp]; exact Bool.false_ne_true)]
          simp only [bind, Except.bind]
          rw [hget, hm]
          simp only
          rw [hb₁]
          exact hw
        · rw [hoff] at hem
          simpa only [List.map_cons, bases, encodeAll, List.headD_cons, List.tail_cons, List.zip_cons_cons,
            patchSlots, List.append_assoc] using hem

/-- The object case: the body is copied and its slots are filled. -/
theorem doWalkObject_emits {a : ℕ} {i : ClassInfo} {ms : List Tree} {b₀ b : RWBuffer} {pre : Bytes}
    (hrec : ∀ t ∈ ms, w.WalksAs rec t) (hl : i.Slotted) (hb : Emits b₀ pre b) (hal : b.off % 8 = 0)
    (hu : UnfoldsAll w.heap w.r (i.refFields.map fun f => w.heap.referenceAt a (i.headerSize + f.offset)) ms) :
    ∃ b', w.doWalkObject rec a i b = .ok b' ∧
      Emits b₀ (pre ++ (leInt16 i.id ++ le 2 objectFlag ++ pad8 4 ++
        patchSlots (maskSlots 4 i.slots (w.heap.raw a i.headerSize i.objectBodySize))
          (i.slots.zip ((bases w.o w.simdutf (b.off + 8 + i.objectBodySize) (i.refFields.map (·.id)) ms).map
            fun x => le 4 (u32 x))) ++
        encodeAll w.o w.simdutf (b.off + 8 + i.objectBodySize) (i.refFields.map (·.id)) ms)) b' := by
  have hraw : (w.heap.raw a i.headerSize i.objectBodySize).length = i.objectBodySize := Heap.length_raw ..
  have hpad : pad8 (b.off + 4) = pad8 4 := pad8_add 4 hal
  have hb₁ : Emits b₀ (pre ++ (leInt16 i.id ++ le 2 objectFlag ++ pad8 4))
      ((b.put (leInt16 i.id)).put (le 2 objectFlag)).fillNextAlign8 := by
    have h := ((hb.put (leInt16 i.id)).put (le 2 objectFlag)).fillNextAlign8
    have hlen : b₀.off + (pre ++ leInt16 i.id ++ le 2 objectFlag).length = b.off + 4 := by
      rw [hb.off]
      simp only [List.length_append, length_leInt16, length_le]
      omega
    rw [hlen, hpad] at h
    simpa only [List.append_assoc] using h
  have hpad4 : (pad8 4).length = 4 := by rw [length_pad8]; rfl
  have hoff : ((b.put (leInt16 i.id)).put (le 2 objectFlag)).fillNextAlign8.off = b.off + 8 := by
    rw [hb₁.off, hb.off]
    simp only [List.length_append, length_leInt16, length_le, hpad4]
    omega
  have hin : ∀ f ∈ i.fields, f.type.isReference = true →
      f.offset + 4 ≤ (w.heap.raw a i.headerSize i.objectBodySize).length := by
    rw [hraw]
    exact hl.inside
  have hrefs : (i.fields.filter (·.type.isReference)).map (fun f => w.heap.args.parseHeapCptr
        (ofLe (slice (w.heap.raw a i.headerSize i.objectBodySize) f.offset 4))) =
      i.refFields.map fun f => w.heap.referenceAt a (i.headerSize + f.offset) := by
    refine List.map_congr_left fun f hf => ?_
    obtain ⟨hf₁, hf₂⟩ := List.mem_filter.mp hf
    have hle := hin f hf₁ hf₂
    rw [hraw] at hle
    rw [Heap.raw, slice_read hle, Heap.referenceAt, Heap.raw, Nat.add_assoc]
  have hb₂ := hb₁.put (w.heap.raw a i.headerSize i.objectBodySize)
  rw [← List.append_nil (pre ++ _ ++ _)] at hb₂
  obtain ⟨b', hw, hem⟩ := walkFields_emits hrec hb₂ hl.typed hin hl.apart (by rw [hrefs]; exact hu)
  rw [off_put, hoff, hraw] at hem
  refine ⟨b', ?_, ?_⟩
  · rw [← hb₁.off] at hw
    exact hw
  · -- the raw pointers are gone: every slot was filled
    have hkeys : (i.slots.zip ((bases w.o w.simdutf (b.off + 8 + i.objectBodySize) (i.refFields.map (·.id)) ms).map
        fun x => le 4 (u32 x))).map Prod.fst = i.slots := by
      refine List.map_fst_zip ?_
      rw [List.length_map, length_bases, ← hu.length_eq, List.length_map, ClassInfo.slots, List.length_map]
    have hfit : FitSlots 4 (w.heap.raw a i.headerSize i.objectBodySize).length i.slots
        (i.slots.zip ((bases w.o w.simdutf (b.off + 8 + i.objectBodySize) (i.refFields.map (·.id)) ms).map
          fun x => le 4 (u32 x))) := by
      rintro ⟨k, v⟩ hkv
      obtain ⟨hk, hv⟩ := List.of_mem_zip hkv
      obtain ⟨x, -, rfl⟩ := List.mem_map.mp hv
      obtain ⟨f, hf, rfl⟩ := List.mem_map.mp hk
      obtain ⟨hf₁, hf₂⟩ := List.mem_filter.mp hf
      exact ⟨hk, length_le .., hin f hf₁ hf₂⟩
    have hmask := patchSlots_maskSlots (by rw [hkeys]; exact hfit)
    rw [hkeys] at hmask
    rw [hmask]
    simpa only [ClassInfo.slots, ClassInfo.refFields, List.append_assoc, List.nil_append] using hem

theorem cvtUtf16ToUtf8_emits {a n : ℕ} {i : ClassInfo} {t : BasicType} {b₀ b : RWBuffer} {pre : Bytes}
    (hb : Emits b₀ pre b) :
    Emits b₀ (pre ++ (le 4 (ClassInfo.arrayBodySize t n) ++
        le 4 (u32 (w.simdutf.toUtf8 (w.heap.raw a i.headerSize (n * 2))).2) ++
        (w.simdutf.toUtf8 (w.heap.raw a i.headerSize (n * 2))).1.take
          (u32 (w.simdutf.toUtf8 (w.heap.raw a i.headerSize (n * 2))).2)))
      (w.cvtUtf16ToUtf8 a i t n b) := by
  have hle := w.simdutf.toUtf8_le (w.heap.raw a i.headerSize (n * 2))
  unfold cvtUtf16ToUtf8
  generalize w.simdutf.toUtf8 (w.heap.raw a i.headerSize (n * 2)) = res at hle ⊢
  obtain ⟨stored, k⟩ := res
  have hk : u32 k ≤ stored.length := (Nat.mod_le ..).trans hle
  have htake : (stored.take (u32 k)).length = u32 k := by rw [List.length_take, Nat.min_eq_left hk]
  have hb₁ := hb.put (le 4 (ClassInfo.arrayBodySize t n))
  rw [← List.append_assoc, ← List.append_assoc, List.append_assoc]
  refine hb₁.trans ⟨?_, fun x hx => ?_⟩
  · simp only [skip, off_put, putAt, List.length_append, htake, length_le]
    omega
  · -- the text stands behind the count
    simp only [skip, off_put, putAt, length_le] at hx ⊢
    simp only [RWBuffer.put, length_le]
    rw [write_append, length_le]
    by_cases h₁ : x < b.off + 4 + 4
    · rw [write_of_lt (a := b.off + 4 + 4) h₁]
      by_cases h₂ : x < b.off + 4
      · rw [write_of_lt h₂, write_of_lt (by omega), write_of_lt h₂]
      · obtain ⟨j, rfl⟩ := Nat.exists_eq_add_of_le (Nat.le_of_not_lt h₂)
        rw [write_inside (by rw [length_le]; omega), write_inside (by rw [length_le]; omega)]
    · obtain ⟨j, rfl⟩ := Nat.exists_eq_add_of_le (Nat.le_of_not_lt h₁)
      rw [write_of_le (by rw [length_le]; omega), write_inside (by omega), write_inside (by rw [htake]; omega)]
      exact (List.getElem_take ..).symm

/-- The head of an array record: the id, the flag and the length fill eight bytes. -/
theorem arrayHead_emits {n : ℕ} {i : ClassInfo} {b₀ b : RWBuffer} {pre : Bytes} (hb : Emits b₀ pre b)
    (hal : b.off % 8 = 0) :
    Emits b₀ (pre ++ (leInt16 i.id ++ le 2 arrayFlag ++ le 4 n))
        (((b.put (leInt16 i.id)).put (le 2 arrayFlag)).put (le 4 n)).fillNextAlign8 ∧
      (((b.put (leInt16 i.id)).put (le 2 arrayFlag)).put (le 4 n)).fillNextAlign8.off = b.off + 8 := by
  have h := (((hb.put (leInt16 i.id)).put (le 2 arrayFlag)).put (le 4 n)).fillNextAlign8
  have hlen : b₀.off + (pre ++ leInt16 i.id ++ le 2 arrayFlag ++ le 4 n).length = b.off + 8 := by
    rw [hb.off]
    simp only [List.length_append, length_leInt16, length_le]
    omega
  rw [hlen, pad8_of_mod (by omega), List.append_nil] at h
  refine ⟨by simpa only [List.append_assoc] using h, ?_⟩
  rw [h.off, hlen]

/-- An array of references: the length, then the records of the elements. -/
theorem doWalkArray_emits_refs {a : ℕ} {i : ClassInfo} {f : FieldInfo} {es : List Tree} {b₀ b : RWBuffer} {pre : Bytes}
    (hrec : ∀ t ∈ es, w.WalksAs rec t) (hb : Emits b₀ pre b) (hal : b.off % 8 = 0) (hf : i.elem = .ok f)
    (href : f.type.isReference = true)
    (hu : UnfoldsAll w.heap w.r ((List.range (w.heap.arrayLength a i.headerSize)).map
      (w.heap.arrayElemRef a i.headerSize)) es) :
    ∃ b', w.doWalkArray rec a i b = .ok b' ∧
      Emits b₀ (pre ++ (leInt16 i.id ++ le 2 arrayFlag ++ le 4 es.length ++
        encodeAll w.o w.simdutf (b.off + 8) (List.replicate es.length i.elemId) es)) b' := by
  have hn : es.length = w.heap.arrayLength a i.headerSize := by
    rw [← hu.length_eq, List.length_map, List.length_range]
  obtain ⟨hb₁, hoff⟩ := arrayHead_emits (n := w.heap.arrayLength a i.headerSize) (i := i) hb hal
  rw [List.range_eq_range'] at hu
  obtain ⟨b', hw, hem⟩ := walkElems_emits f.id hrec hu
  refine ⟨b', ?_, ?_⟩
  · simp only [doWalkArray, hf, bind, Except.bind, if_pos href]
    exact hw
  · rw [hoff] at hem
    rw [hn, (ClassInfo.elem_ok hf).2, ← List.append_assoc]
    exact hb₁.trans hem

/-- An array of primitive values: the length, then the contents, raw or transcoded. -/
theorem doWalkArray_emits_prims (rec : Walk) {a : ℕ} {i : ClassInfo} {f : FieldInfo} {b₀ b : RWBuffer} {pre : Bytes}
    (hb : Emits b₀ pre b) (hal : b.off % 8 = 0) (hf : i.elem = .ok f) (hprim : f.type.isPrimitive = true) :
    ∃ b', w.doWalkArray rec a i b = .ok b' ∧
      Emits b₀ (pre ++ (leInt16 i.id ++ le 2 arrayFlag ++ le 4 (w.heap.arrayLength a i.headerSize) ++
        encodeContents w.o w.simdutf i.elemType (w.heap.arrayLength a i.headerSize)
          (w.heap.raw a i.headerSize (w.heap.arrayLength a i.headerSize * f.type.size)))) b' := by
  have hnref : ¬ f.type.isReference = true := fun hr => by
    rw [BasicType.not_isPrimitive_of_isReference hr] at hprim
    cases hprim
  obtain ⟨hb₁, -⟩ := arrayHead_emits (n := w.heap.arrayLength a i.headerSize) (i := i) hb hal
  simp only [doWalkArray, hf, bind, Except.bind, if_neg hnref, if_pos hprim]
  generalize (((b.put (leInt16 i.id)).put (le 2 arrayFlag)).put
    (le 4 (w.heap.arrayLength a i.headerSize))).fillNextAlign8 = b₁ at hb₁ ⊢
  generalize w.heap.arrayLength a i.headerSize = n at hb₁ ⊢
  rw [(ClassInfo.elem_ok hf).1, ← List.append_assoc]
  unfold encodeContents
  by_cases hc : f.type = .char ∧ w.o.enableUtf16ToUtf8 = true
  · have hsize : f.type.size = 2 := by rw [hc.1]; rfl
    refine ⟨w.cvtUtf16ToUtf8 a i f.type n b₁, by rw [if_pos hc]; rfl, ?_⟩
    rw [if_pos hc, hsize]
    exact cvtUtf16ToUtf8_emits hb₁
  · refine ⟨b₁.put (w.heap.raw a i.headerSize (ClassInfo.arrayBodySize f.type n)), by rw [if_neg hc]; rfl, ?_⟩
    have htake : (w.heap.raw a i.headerSize (n * f.type.size)).take (ClassInfo.arrayBodySize f.type n) =
        w.heap.raw a i.headerSize (ClassInfo.arrayBodySize f.type n) := by
      have hm : 0 + ClassInfo.arrayBodySize f.type n ≤ n * f.type.size := by
        rw [Nat.zero_add]
        exact Nat.mod_le ..
      exact slice_read hm
    rw [if_neg hc, htake]
    exact hb₁.put _

/-- `walk` on an object of a known class. -/
theorem walkStep_of_class (rec : Walk) {a : ℕ} {i : ClassInfo} (eid : ℤ) (b : RWBuffer) (ha : a ≠ 0)
    (hc : w.heap.classOf w.r a = some i) :
    w.walkStep rec a eid b =
      if i.isEnum then .ok (u32 b.fillNextAlign8.off, ((b.fillNextAlign8.put (leInt16 i.id)).put
        (le 2 (enumFlag + objectFlag))).put (le 4 (w.heap.enumOrdinal a)))
      else if i.isObject then (w.doWalkObject rec a i b.fillNextAlign8).map (u32 b.fillNextAlign8.off, ·)
      else if i.isArray then (w.doWalkArray rec a i b.fillNextAlign8).map (u32 b.fillNextAlign8.off, ·)
      else .error .unreachable := by
  obtain ⟨k, hk, hi⟩ := Heap.classOf_eq_some hc
  rw [walkStep]
  simp only [if_neg ha, hk, hi, bind, Except.bind]
  split_ifs
  · rfl
  · cases w.doWalkObject rec a i b.fillNextAlign8 <;> rfl
  · cases w.doWalkArray rec a i b.fillNextAlign8 <;> rfl
  · rfl

/-- **The walker writes the encoding of the tree**: on an address that unfolds to `t`, with fuel above the
height of `t`, `walk` succeeds, returns the offset of the record, and writes exactly `encode` of `t`. -/
theorem walk_emits (hl : w.r.Slotted) {fuel : ℕ} {t : Tree} (ht : t.height < fuel) : w.WalksAs (w.walk fuel) t := by
  induction fuel generalizing t with
  | zero => exact absurd ht (Nat.not_lt_zero _)
  | succ fuel ih =>
    have hall : ∀ ts : List Tree, heightAll ts < fuel → ∀ t ∈ ts, w.WalksAs (w.walk fuel) t :=
      fun ts hts t ht => ih ((height_le_heightAll ht).trans_lt hts)
    intro a eid b hu
    have hb : Emits b (pad8 b.off) b.fillNextAlign8 := emits_put b (pad8 b.off)
    have hoff : b.fillNextAlign8.off = upperAlign b.off 8 := off_fillNextAlign8 b
    have hal : b.fillNextAlign8.off % 8 = 0 := by rw [hoff]; exact upperAlign_mod _
    rw [walk, ← hoff]
    cases t with
    | null =>
      simp only [Unfolds] at hu
      subst hu
      refine ⟨(b.fillNextAlign8.put (leInt16 eid)).put (le 2 nullFlag), rfl, ?_⟩
      rw [encode, ← List.append_assoc]
      exact (hb.put _).put _
    | enumConst i ordinal =>
      simp only [Unfolds] at hu
      obtain ⟨ha, hc, he, rfl, -⟩ := hu
      rw [walkStep_of_class _ eid b ha hc, if_pos he]
      refine ⟨_, rfl, ?_⟩
      rw [encode, ← List.append_assoc, ← List.append_assoc]
      exact ((hb.put _).put _).put _
    | object i body ms =>
      simp only [Unfolds] at hu
      obtain ⟨ha, hc, he, ho, rfl, hms⟩ := hu
      obtain ⟨k, -, hi⟩ := Heap.classOf_eq_some hc
      have hslot := hl k i hi he ho
      obtain ⟨b', hw, hem⟩ := doWalkObject_emits (hall ms (by rw [Tree.height] at ht; omega)) hslot hb hal hms
      rw [walkStep_of_class _ eid b ha hc, if_neg (Bool.eq_false_iff.mp he), if_pos ho, hw]
      refine ⟨b', rfl, ?_⟩
      rw [encode]
      simp only [hslot.length_body]
      rw [hoff] at hem
      exact hem
    | refArray i es =>
      simp only [Unfolds] at hu
      obtain ⟨ha, hc, he, harr, ⟨f, hf, href⟩, -, hes⟩ := hu
      have hno := Bool.eq_false_iff.mp (ClassInfo.isObject_of_isArray harr)
      obtain ⟨b', hw, hem⟩ :=
        doWalkArray_emits_refs (hall es (by rw [Tree.height] at ht; omega)) hb hal hf href hes
      rw [walkStep_of_class _ eid b ha hc, if_neg (Bool.eq_false_iff.mp he), if_neg hno, if_pos harr, hw]
      refine ⟨b', rfl, ?_⟩
      rw [encode]
      rw [hoff] at hem
      exact hem
    | primArray i n contents =>
      simp only [Unfolds] at hu
      obtain ⟨ha, hc, he, harr, -, rfl, f, hf, hprim, rfl⟩ := hu
      have hno := Bool.eq_false_iff.mp (ClassInfo.isObject_of_isArray harr)
      obtain ⟨b', hw, hem⟩ := doWalkArray_emits_prims (w := w) (a := a) (w.walk fuel) hb hal hf hprim
      rw [walkStep_of_class _ eid b ha hc, if_neg (Bool.eq_false_iff.mp he), if_neg hno, if_pos harr, hw]
      refine ⟨b', rfl, ?_⟩
      rw [encode]
      exact hem

/-- The whole of what the static `walk` leaves: the total length, then the encoding of the tree. -/
theorem walkRoot_emits (hl : w.r.Slotted) {fuel a : ℕ} {t : Tree} (ht : t.height < fuel)
    (hu : Unfolds w.heap w.r a t) (out : Mem) :
    ∃ m, w.walkRoot fuel a out = .ok (8 + (encode w.o w.simdutf 8 unregisteredClassId t).length, m) ∧
      read m 0 (8 + (encode w.o w.simdutf 8 unregisteredClassId t).length) =
        le 8 (8 + (encode w.o w.simdutf 8 unregisteredClassId t).length) ++
          encode w.o w.simdutf 8 unregisteredClassId t := by
  obtain ⟨b', hw, hem⟩ := walk_emits hl ht a unregisteredClassId (RWBuffer.skip ⟨out, 0⟩ objectDataOffset) hu
  have hoff : b'.off = 8 + (encode w.o w.simdutf 8 unregisteredClassId t).length := hem.off
  refine ⟨(b'.putAt (le 8 b'.off) 0).data, ?_, ?_⟩
  · rw [walkRoot, hw, ← hoff]
    rfl
  · have hhead : read (b'.putAt (le 8 b'.off) 0).data 0 8 = le 8 b'.off := read_write_self b'.data 0 (le 8 b'.off)
    have hbody : read (b'.putAt (le 8 b'.off) 0).data (0 + 8) (encode w.o w.simdutf 8 unregisteredClassId t).length =
        encode w.o w.simdutf 8 unregisteredClassId t := by
      rw [putAt, read_write_right (by rw [length_le])]
      exact hem.read_all
    rw [read_add, hhead, hbody, ← hoff]

/-- **Serialized bytes depend only on the object tree.** Two graphs, in any two heaps and at any addresses,
that unfold to one tree are serialized to the same total length and the same bytes, whatever the two output
buffers held before. -/
theorem bytes_depend_on_tree_only (w₁ w₂ : ObjectWalker) (ho : w₁.o = w₂.o) (hs : w₁.simdutf = w₂.simdutf)
    (hl₁ : w₁.r.Slotted) (hl₂ : w₂.r.Slotted) (t : Tree) (a₁ a₂ : ℕ) (hu₁ : Unfolds w₁.heap w₁.r a₁ t)
    (hu₂ : Unfolds w₂.heap w₂.r a₂ t) (fuel₁ fuel₂ : ℕ) (hf₁ : t.height < fuel₁) (hf₂ : t.height < fuel₂)
    (out₁ out₂ : Mem) :
    ∃ total m₁ m₂, w₁.walkRoot fuel₁ a₁ out₁ = .ok (total, m₁) ∧ w₂.walkRoot fuel₂ a₂ out₂ = .ok (total, m₂) ∧
      read m₁ 0 total = read m₂ 0 total := by
  obtain ⟨m₁, hw₁, hr₁⟩ := walkRoot_emits hl₁ hf₁ hu₁ out₁
  obtain ⟨m₂, hw₂, hr₂⟩ := walkRoot_emits hl₂ hf₂ hu₂ out₂
  rw [← ho, ← hs] at hw₂ hr₂
  exact ⟨_, m₁, m₂, hw₁, hw₂, hr₁.trans hr₂.symm⟩

/-! ### A sample registry and heap -/

/-- The class info of an enum `E` with one constant. -/
def sampleEnum : ClassInfo :=
  { klass := 1000, id := 20, enumRefArrOff := 24, objSize := 16, headerSize := 12, nStaticField := 2, dim := 0,
    signature := sym "LE;", fields := [], enums := [some ⟨64, 7⟩] }

/-- The class info of the array class of `E`. -/
def sampleEnumArray : ClassInfo :=
  { klass := 2000, id := 21, enumRefArrOff := 0, objSize := 16, headerSize := 16, nStaticField := 0, dim := 1,
    signature := sym "[LE;", fields := [⟨20, 0, .object, 0, 0⟩], enums := [] }

/-- The class info of a class `P` with an int and an `E`. -/
def samplePair : ClassInfo :=
  { klass := 3000, id := 22, enumRefArrOff := 0, objSize := 24, headerSize := 12, nStaticField := 0, dim := 0,
    signature := sym "LP;", fields := [⟨-1, 0, .int, 0, 3⟩, ⟨20, 4, .object, 0, 4⟩], enums := [] }

/-- A resolver with the three classes registered. -/
def sampleResolver : ClassResolver :=
  { infos := [sampleEnumArray, sampleEnum, samplePair], infoById := [1, 0, 2], infoByKlass := [1, 0, 2]
    sig2id := [(sym "LE;", 20), (sym "[LE;", 21), (sym "LP;", 22)], unresolved := [] }

/-- A heap that holds, from address `64 + s` on, the constant of `E`, an array of it twice, and a `P`. -/
def sampleHeap (s : ℕ) : Heap :=
  { mem := fun x => (le 8 1 ++ le 4 1000 ++ le 4 0 ++
      (le 8 1 ++ le 4 2000 ++ le 4 2 ++ le 4 (64 + s) ++ le 4 (64 + s)) ++
      (le 8 s ++ le 4 3000 ++ le 4 5 ++ le 4 (64 + s) ++ le 4 0)).getD (x - (64 + s)) 0
    args := ⟨0, .zeroBased, 0, 0, .zeroBased, 0⟩ }

/-- A transcoder that refuses everything. -/
def noSimdutf : Simdutf := ⟨fun _ => ([], 0), fun _ => ([], 0), fun _ => Nat.le_refl _, fun _ => Nat.le_refl _⟩

/-- The tree of the `P`. -/
def sampleTree : Tree := .object samplePair (le 4 5 ++ le 4 0 ++ le 4 0) [.enumConst sampleEnum 0]

theorem sampleResolver_slotted : sampleResolver.Slotted := by
  intro k i hi he ho
  have hm := ClassResolver.mem_of_getByKlass hi
  simp only [sampleResolver, List.mem_cons, List.not_mem_nil, or_false] at hm
  rcases hm with rfl | rfl | rfl
  · cases ho
  · cases he
  · exact ⟨by decide, by decide, by decide⟩

/-- Two heaps that differ in every address, and in the mark word of the `P`. -/
theorem bytes_depend_on_tree_only_sample :
    ∃ total m₁ m₂,
      (ObjectWalker.mk (sampleHeap 0) sampleResolver ⟨true⟩ noSimdutf).walkRoot 2 104 (fun _ => 0) = .ok (total, m₁) ∧
      (ObjectWalker.mk (sampleHeap 32) sampleResolver ⟨true⟩ noSimdutf).walkRoot 2 136 (fun _ => 255) =
        .ok (total, m₂) ∧ read m₁ 0 total = read m₂ 0 total := by
  have hu₁ : Unfolds (sampleHeap 0) sampleResolver 104 sampleTree := by
    simp only [sampleTree, Unfolds, UnfoldsAll]
    exact ⟨by decide, by decide, by decide, by decide, by decide, 64, [], by decide,
      ⟨by decide, by decide, by decide, by decide, ⟨64, 7⟩, by decide⟩, rfl⟩
  have hu₂ : Unfolds (sampleHeap 32) sampleResolver 136 sampleTree := by
    simp only [sampleTree, Unfolds, UnfoldsAll]
    exact ⟨by decide, by decide, by decide, by decide, by decide, 96, [], by decide,
      ⟨by decide, by decide, by decide, by decide, ⟨64, 7⟩, by decide⟩, rfl⟩
  exact bytes_depend_on_tree_only ⟨sampleHeap 0, sampleResolver, ⟨true⟩, noSimdutf⟩
    ⟨sampleHeap 32, sampleResolver, ⟨true⟩, noSimdutf⟩ rfl rfl sampleResolver_slotted sampleResolver_slotted
    sampleTree 104 136 hu₁ hu₂ 2 2 (by decide) (by decide) (fun _ => 0) (fun _ => 255)

end ObjectWalker

end DShuffle.Serde
