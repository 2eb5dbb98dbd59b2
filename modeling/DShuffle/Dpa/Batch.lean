import DShuffle.Kernel.Refinement
import DShuffle.Serde.Relocation
import DShuffle.Serde.RoundTrip

/-!
# Arrays in batches

`DPAContext::do_array_obj_serialize` (`sd.cxx`) gives every element of a
reference array to a DPA thread as a task of its own, as many at a time as there
are threads, and glues what the tasks write together behind the head of the array
record. The claim of the design is that the reader cannot tell the result from
what the walker writes.

## The model

* `batches` is the arithmetic of the two loops, all of it in `uint32_t`: which
  elements each batch takes.
* A `Task` is what the device makes of an element: the bytes in the host's output
  buffer when its future is ready. `kernelTask` is the kernel's. Which thread runs
  a task, and when its buffer is written again, is the subject of `Threads`.
* `total_length` is a `uint32_t`, where the walker has a `size_t`.

## What is proved

* `batches_flatten` — the batches cover the indices, each once and in order.
* `batched_of_fits` — the result has the walker's total length, holds a stream of
  every element in order, differs from the walker's bytes only in reference slots
  and in the ids of null elements, and is read back as the same tree.
* `fits_of_batched` — for that the total length has to fit in 32 bits, and so does
  the sum that the number of batches is computed from.

## Honest scope

The reader copies `length` bytes out of a primitive array; where the byte size of
an array wraps around 2^32 these lie outside its record, and what it then finds is
not compared. The options switch transcoding off whenever the DPA is used.
-/

namespace DShuffle.Dpa

open Base Serde Kernel

/-! ### The loops -/

/-- `n_batch`. -/
def nBatch (length batchSize : ℕ) : ℕ := u32 (length + batchSize + 2 ^ 32 - 1) / batchSize

/-- `n_task` of the `i`-th batch. -/
def nTask (length batchSize i : ℕ) : ℕ := min batchSize (u32 (length + 2 ^ 32 - u32 (i * batchSize)))

/-- The elements of the `i`-th batch. -/
def batch (length batchSize i : ℕ) : List ℕ := (List.range (nTask length batchSize i)).map fun j => u32 (i * batchSize + j)

/-- The elements of every batch. -/
def batches (length batchSize : ℕ) : List (List ℕ) := (List.range (nBatch length batchSize)).map (batch length batchSize)

/-- A task: the index of the element and its address; the host's output buffer comes back. -/
abbrev Task := ℕ → ℕ → Except Fault Bytes

/-- The first loop of a batch: give every element to the device. -/
def triggerAll (h : Heap) (task : Task) (a base : ℕ) : List ℕ → Except Fault (List Bytes)
  | [] => .ok []
  | k :: ks => do
    let elem ← h.arrayElemRef a base k
    let out ← task k elem
    let outs ← triggerAll h task a base ks
    return out :: outs

/-- The second loop of a batch: put what each task wrote, less the header, behind the rest. -/
def collectAll : List Bytes → RWBuffer → RWBuffer
  | [], b => b
  | out :: outs, b => collectAll outs (b.fillNextAlign8.put (out.drop objectDataOffset))

/-- The loop over the batches. -/
def serializeBatches (h : Heap) (task : Task) (a base : ℕ) : List (List ℕ) → RWBuffer → Except Fault RWBuffer
  | [], b => .ok b
  | ks :: kss, b => do
    let outs ← triggerAll h task a base ks
    serializeBatches h task a base kss (collectAll outs b)

/-- `do_array_obj_serialize`: the total length, and the output buffer. -/
def doArrayObjSerialize (h : Heap) (task : Task) (maxDeviceThreads a : ℕ) (info : ClassInfo) (out : Mem) :
    Except Fault (ℕ × Mem) := do
  let length := h.arrayLength a info.headerSize
  let b := RWBuffer.skip ⟨out, 0⟩ objectDataOffset
  let b := (((b.put (leInt16 info.id)).put (le 2 arrayFlag)).put (le 4 length)).fillNextAlign8
  let batchSize := u32 maxDeviceThreads
  if batchSize = 0 then throw .trap
  let b ← serializeBatches h task a info.headerSize (batches length batchSize) b
  let totalLength := u32 b.off
  return (totalLength, (b.putAt (le 8 totalLength) 0).data)

/-- The kernel's tasks: for the `k`-th element the device's memory is `mem k`, and its buffer lies at `p k`. -/
def kernelTask (g : Globals) (fuel : ℕ) (mem : ℕ → Mem) (p : ℕ → ℕ) : Task := fun k elem => do
  let (length, c) ← g.doSerialize fuel elem (outbufAt (mem k) (p k))
  return read c.mem (p k) length

/-! ### The batches cover the array -/

theorem range_add_map (n k : ℕ) : List.range n ++ (List.range k).map (n + ·) = List.range (n + k) := by
  rw [List.range_add]

/-- The first `m` windows of width `b`, the last one cut off at `n`. -/
theorem windows_flatten (n b m : ℕ) :
    ((List.range m).map fun i => (List.range (min b (n - i * b))).map (i * b + ·)).flatten = List.range (min n (m * b)) := by
  induction m with
  | zero => simp
  | succ m ih =>
    rw [List.range_succ, List.map_append, List.flatten_append, ih]
    simp only [List.map_cons, List.map_nil, List.flatten_cons, List.flatten_nil, List.append_nil]
    by_cases hle : m * b ≤ n
    · rw [Nat.min_eq_right hle, range_add_map, Nat.succ_mul]
      congr 1
      omega
    · have hsucc : m * b ≤ (m + 1) * b := Nat.mul_le_mul_right b (Nat.le_succ m)
      have hzero : n - m * b = 0 := by omega
      rw [hzero, Nat.min_zero, Nat.min_eq_left (by omega), Nat.min_eq_left (by omega)]
      simp

/-- **The batches take every element once and in order**, if the sum under the division does not wrap around. -/
theorem batches_flatten {length batchSize : ℕ} (hb : batchSize ≠ 0) (hfit : length + batchSize - 1 < 2 ^ 32) :
    (batches length batchSize).flatten = List.range length := by
  have hsum : u32 (length + batchSize + 2 ^ 32 - 1) = length + batchSize - 1 := by unfold u32; omega
  have hn : nBatch length batchSize = (length + batchSize - 1) / batchSize := by rw [nBatch, hsum]
  have hcover : length ≤ (length + batchSize - 1) / batchSize * batchSize := by
    have h := Nat.div_add_mod (length + batchSize - 1) batchSize
    have hlt := Nat.mod_lt (length + batchSize - 1) (Nat.pos_of_ne_zero hb)
    rw [Nat.mul_comm] at h
    omega
  have hbatch : ∀ i ∈ List.range (nBatch length batchSize), batch length batchSize i =
      (List.range (min batchSize (length - i * batchSize))).map (i * batchSize + ·) := by
    intro i hi
    rw [hn, List.mem_range, Nat.lt_div_iff_mul_lt (Nat.pos_of_ne_zero hb)] at hi
    have hrest : u32 (length + 2 ^ 32 - u32 (i * batchSize)) = length - i * batchSize := by unfold u32; omega
    rw [batch, nTask, hrest]
    refine List.map_congr_left fun j hj => u32_of_lt ?_
    rw [List.mem_range] at hj
    omega
  rw [batches, List.map_congr_left hbatch, windows_flatten, hn, Nat.min_eq_left hcover]

/-! ### What the loops write -/

section
variable {h : Heap} {task : Task} {a base : ℕ}

theorem triggerAll_append {ks ls : List ℕ} {outs : List Bytes} (ht : triggerAll h task a base (ks ++ ls) = .ok outs) :
    ∃ o₁ o₂, triggerAll h task a base ks = .ok o₁ ∧ triggerAll h task a base ls = .ok o₂ ∧ outs = o₁ ++ o₂ := by
  induction ks generalizing outs with
  | nil => exact ⟨[], outs, rfl, ht, rfl⟩
  | cons k ks ih =>
    rw [List.cons_append, triggerAll] at ht
    obtain ⟨elem, he, ht⟩ := bind_eq_ok ht
    obtain ⟨out, ho, ht⟩ := bind_eq_ok ht
    obtain ⟨rest, hr, ht⟩ := bind_eq_ok ht
    obtain ⟨o₁, o₂, h₁, h₂, rfl⟩ := ih hr
    refine ⟨out :: o₁, o₂, ?_, h₂, (Except.ok.inj ht).symm⟩
    rw [triggerAll, he]
    simp only [bind, Except.bind, ho, h₁]
    rfl

theorem collectAll_append (o₁ o₂ : List Bytes) (b : RWBuffer) :
    collectAll (o₁ ++ o₂) b = collectAll o₂ (collectAll o₁ b) := by
  induction o₁ generalizing b with
  | nil => rfl
  | cons out outs ih => exact ih _

/-- How the elements are cut into batches does not matter. -/
theorem serializeBatches_of_triggerAll {kss : List (List ℕ)} {outs : List Bytes} (b : RWBuffer)
    (ht : triggerAll h task a base kss.flatten = .ok outs) :
    serializeBatches h task a base kss b = .ok (collectAll outs b) := by
  induction kss generalizing outs b with
  | nil => rw [← Except.ok.inj ht]; rfl
  | cons ks kss ih =>
    rw [List.flatten_cons] at ht
    obtain ⟨o₁, o₂, h₁, h₂, rfl⟩ := triggerAll_append ht
    rw [serializeBatches, h₁, collectAll_append]
    exact ih _ h₂

end

section
variable (o : Options) (u : Simdutf)

/-- What a task writes for a tree: the total length, and the encoding from offset eight on. -/
def taskBytes (t : Tree) : Bytes :=
  le 8 (8 + (encode o u 8 unregisteredClassId t).length) ++ encode o u 8 unregisteredClassId t

/-- The encodings, each written from offset eight on, glued together with padding. -/
def glued (off : ℕ) : List Tree → Bytes
  | [] => []
  | t :: ts =>
    (pad8 off ++ encode o u 8 unregisteredClassId t) ++
      glued (off + (pad8 off ++ encode o u 8 unregisteredClassId t).length) ts

theorem collectAll_emits (ts : List Tree) (b : RWBuffer) :
    RWBuffer.Emits b (glued o u b.off ts) (collectAll (ts.map (taskBytes o u)) b) := by
  induction ts generalizing b with
  | nil => exact RWBuffer.Emits.refl b
  | cons t ts ih =>
    have hdrop : (taskBytes o u t).drop objectDataOffset = encode o u 8 unregisteredClassId t :=
      List.drop_left' (length_le ..)
    rw [List.map_cons, collectAll, hdrop, glued, RWBuffer.fillNextAlign8_eq, RWBuffer.put_put]
    exact (RWBuffer.emits_put b _).trans (ih _)

variable {o u} {r : ClassResolver}

theorem length_pad8_encode (hs : r.Slotted) {t : Tree} (ho : t.Over r) (off : ℕ) :
    endOff o u off t = off + (pad8 off ++ encode o u 8 unregisteredClassId t).length := by
  have h₁ := endOff_eq_add (o := o) (u := u) off t
  have h₂ := endOff_eq_length (o := o) (u := u) hs ho 8 unregisteredClassId
  have h₃ := add_length_pad8 off
  rw [List.length_append]
  omega

/-- What is glued together is a stream of the trees. -/
theorem streamAll_of_glued (hs : r.Slotted) {m : Mem} : ∀ (ts : List Tree) {off : ℕ}, OverAll r ts → 8 ≤ off →
    read m off (glued o u off ts).length = glued o u off ts →
      StreamAll o u m off ts ∧ endAll o u off ts = off + (glued o u off ts).length
  | [], off, _, _, _ => by
    rw [glued, StreamAll, endAll]
    exact ⟨trivial, rfl⟩
  | t :: ts, off, ho, h8, hr => by
    have hlen := length_pad8_encode (o := o) (u := u) hs ho.1 off
    rw [glued] at hr ⊢
    obtain ⟨hr₁, hr₂⟩ := read_append hr
    have hle := le_upperAlign off
    have hmod := upperAlign_mod off
    have hge := le_endOff o u t off
    rw [List.length_append, ← Nat.add_assoc, ← hlen]
    rw [← hlen] at hr₂
    obtain ⟨hts, hend⟩ := streamAll_of_glued hs ts ho.2 (by omega) hr₂
    have hhead := (read_append hr₁).2
    rw [add_length_pad8] at hhead
    -- seen from eight bytes before the record, it is where the task wrote it
    obtain ⟨d, hd⟩ := Nat.exists_eq_add_of_le' (h8.trans hle)
    rw [hd] at hhead
    have ht := (stream_of_encode hs t ho.1 ((read_shift m d 8 _).trans hhead)).1
    have hm := stream_of_shift (by omega) t ht
    rw [← hd, stream_upperAlign] at hm
    rw [StreamAll, endAll, hend]
    exact ⟨⟨hm, hts⟩, rfl⟩

theorem encode_eid {t : Tree} (h : t ≠ .null) (off : ℕ) (eid eid' : ℤ) : encode o u off eid t = encode o u off eid' t := by
  cases t with
  | null => exact absurd rfl h
  | enumConst i ordinal => rw [encode, encode]
  | object i body ms => rw [encode, encode]
  | refArray i es => rw [encode, encode]
  | primArray i n contents => rw [encode, encode]

theorem inSlot_upperAlign {x off : ℕ} {t : Tree} : InSlot o u x (upperAlign off 8) t ↔ InSlot o u x off t := by
  cases t <;> simp only [InSlot, upperAlign_upperAlign]

/-- One element, as the walker writes it in place and as it is glued in. -/
theorem encode_sameBut_task (hs : r.Slotted) {t : Tree} (ho : t.Over r) (off : ℕ) (eid : ℤ) :
    SameBut (fun k => InSlot o u (off + k) off t ∨ t = .null ∧ upperAlign off 8 ≤ off + k ∧ off + k < upperAlign off 8 + 2)
      (encode o u off eid t) (pad8 off ++ encode o u 8 unregisteredClassId t) := by
  have hpad : ∀ k, off + ((pad8 off).length + k) = upperAlign off 8 + k := fun k => by
    rw [← Nat.add_assoc, add_length_pad8]
  rw [encode_pad]
  refine SameBut.append_left _ ?_
  simp only [hpad]
  by_cases hnull : t = .null
  · subst hnull
    rw [encode, encode, pad8_of_mod (upperAlign_mod off), pad8_of_mod (x := 8) (by decide), List.nil_append, List.nil_append]
    refine SameBut.append ⟨(length_leInt16 _).trans (length_leInt16 _).symm, fun i hi => ?_⟩ (SameBut.refl _ _)
    have h2 : 2 ≤ i := by
      by_contra hlt
      exact hi (Or.inr ⟨rfl, by omega, by omega⟩)
    rw [List.getElem?_eq_none (h2.trans' (Nat.le_of_eq (length_leInt16 _))),
      List.getElem?_eq_none (h2.trans' (Nat.le_of_eq (length_leInt16 _)))]
  · rw [encode_eid hnull _ eid unregisteredClassId]
    have henc : SameBut _ (encode o u (upperAlign off 8) unregisteredClassId t) (encode o u 8 unregisteredClassId t) :=
      encode_sameBut hs t ho (upperAlign_mod off)
    exact henc.mono fun k _ hk => Or.inl (inSlot_upperAlign.mp hk)

/-- **Glued together, the elements differ from the walker's in slots and in the ids of nulls only.** -/
theorem glued_sameBut (hs : r.Slotted) : ∀ (ts : List Tree) (off : ℕ) (ids : List ℤ), OverAll r ts →
    SameBut (fun k => InSlotAll o u (off + k) off ts ∨ InNullId o u (off + k) off ts) (encodeAll o u off ids ts)
      (glued o u off ts)
  | [], off, ids, _ => by
    rw [encodeAll, glued]
    exact SameBut.refl _ _
  | t :: ts, off, ids, ho => by
    have ht := encode_sameBut_task (o := o) (u := u) hs ho.1 off (ids.headD unregisteredClassId)
    have hend := endOff_eq_length (o := o) (u := u) hs ho.1 off (ids.headD unregisteredClassId)
    have hend' := length_pad8_encode (o := o) (u := u) hs ho.1 off
    have hts := glued_sameBut hs ts (endOff o u off t) ids.tail ho.2
    rw [encodeAll, glued, ← hend, ← hend']
    refine (ht.mono fun k _ hk => ?_).append (hts.mono fun k _ hk => ?_)
    · rw [InSlotAll, InNullId]
      rcases hk with hk | hk
      · exact Or.inl (Or.inl hk)
      · exact Or.inr (Or.inl hk)
    · rw [InSlotAll, InNullId, ← Nat.add_assoc, ← hend]
      rcases hk with hk | hk
      · exact Or.inl (Or.inr hk)
      · exact Or.inr (Or.inr hk)

theorem endOff_le_endAll {t : Tree} {ts : List Tree} (ht : t ∈ ts) {off : ℕ} (h8 : 8 ≤ off) :
    endOff o u 8 t ≤ endAll o u off ts := by
  induction ts generalizing off with
  | nil => cases ht
  | cons v vs ih =>
    have hle := le_upperAlign off
    have hge := le_endOff o u v off
    rw [endAll]
    rcases List.mem_cons.mp ht with rfl | ht
    · have hadd := endOff_eq_add (o := o) (u := u) off t
      have hall := le_endAll o u vs (endOff o u off t)
      omega
    · exact ih ht (by omega)

end

/-! ### The tasks -/

section
variable {g : Globals} {w : ObjectWalker} {fuel : ℕ} {mem : ℕ → Mem} {p : ℕ → ℕ}

/-- Every task of the kernel writes the encoding of its own element. -/
theorem triggerAll_eq (hl : w.r.Slotted) (hx : Exports g w) (hutf : w.o.enableUtf16ToUtf8 = false)
    (hp : ∀ k, p k % 8 = 0) (hroom : ∀ k, p k + 2 ^ 32 ≤ 2 ^ 63) (hsees : ∀ k, Sees w.heap (mem k)) {a base : ℕ}
    {ts : List Tree} {k n : ℕ} (hu : UnfoldsAll w.heap w.r ((List.range' k n).map (w.heap.arrayElemRef a base)) ts)
    (hat : AllAtAll Placed w.heap ((List.range' k n).map (w.heap.arrayElemRef a base)) ts)
    (hh : ∀ t ∈ ts, HeadersBy4 t) (hf : ∀ t ∈ ts, t.height < fuel)
    (hend : ∀ t ∈ ts, endOff w.o w.simdutf 8 t ≤ 2 ^ 32) :
    triggerAll w.heap (kernelTask g fuel mem p) a base (List.range' k n) = .ok (ts.map (taskBytes w.o w.simdutf)) := by
  induction ts generalizing k n with
  | nil =>
    simp only [UnfoldsAll, List.map_eq_nil_iff, List.range'_eq_nil_iff] at hu
    subst hu
    rfl
  | cons t ts ih =>
    cases n with
    | zero => simp [UnfoldsAll] at hu
    | succ n =>
      rw [List.range'_succ, List.map_cons] at hu hat
      simp only [UnfoldsAll] at hu
      obtain ⟨elem, refs, href, ht, hts⟩ := hu
      rw [List.cons_eq_cons] at href
      obtain ⟨hk, rfl⟩ := href
      rw [AllAtAll, hk] at hat
      obtain ⟨hat₁, hat₂⟩ := hat elem _ rfl
      have ho := over_of_unfolds hl t ht
      have hend₁ := hend t List.mem_cons_self
      obtain ⟨c, hc, hread⟩ := doSerialize_emits hl hx hutf (hh t List.mem_cons_self) (hp k) (hsees k) ht hat₁
        (hf t List.mem_cons_self) (by have := hroom k; omega) (slotsBelow_of_end hl t ho hend₁)
      have htask : kernelTask g fuel mem p k elem = .ok (taskBytes w.o w.simdutf t) := by
        rw [kernelTask, hc]
        simp only [bind, Except.bind, hread]
        rfl
      have hrest := ih hts hat₂ (fun t ht => hh t (List.mem_cons_of_mem _ ht)) (fun t ht => hf t (List.mem_cons_of_mem _ ht))
        fun t ht => hend t (List.mem_cons_of_mem _ ht)
      rw [List.range'_succ, triggerAll, hk]
      simp only [bind, Except.bind, htask, hrest]
      rfl

end

/-! ### The batched serializer and the walker -/

/-- What a call of `parse` gives back, less the buffer it read. -/
def parsed (x : Except Fault (Handle × ObjectReviver.State)) : Except Fault (Handle × ℕ × JEnv) :=
  x.map fun y => (y.1, y.2.b.off, y.2.env)

/-- **The batched serializer does what the walker does** on the array of the trees `es`: the batches take every
element once and in order; both return the same total length; what was written is a stream of every element, in
order, up to that length; the two differ in reference slots and in the class ids of null elements only; and the
reader, run over both, gives the same. -/
def SameAsWalk (g : Globals) (w : ObjectWalker) (jvm : Jvm) (e : JEnv) (fuel : ℕ) (mem : ℕ → Mem) (p : ℕ → ℕ)
    (maxDeviceThreads a : ℕ) (i : ClassInfo) (es : List Tree) (out out' : Mem) : Prop :=
  (batches es.length (u32 maxDeviceThreads)).flatten = List.range es.length ∧
    ∃ total m m', w.walkRoot fuel a out = .ok (total, m) ∧
      doArrayObjSerialize w.heap (kernelTask g fuel mem p) maxDeviceThreads a i out' = .ok (total, m') ∧
      StreamAll w.o w.simdutf m' 16 es ∧ endAll w.o w.simdutf 16 es = total ∧
      (∀ x < total, InSlotAll w.o w.simdutf x 16 es ∨ InNullId w.o w.simdutf x 16 es ∨ m x = m' x) ∧
      parsed ((w.reviver jvm).parse fuel unregisteredClassId (ObjectReviver.stateAt m 8 e)) =
        parsed ((w.reviver jvm).parse fuel unregisteredClassId (ObjectReviver.stateAt m' 8 e))

/-- The sizes fit: there is a thread, the sum that the number of batches is computed from does not wrap around, and
the serialized array is shorter than 2^32 bytes. -/
def Fits (w : ObjectWalker) (maxDeviceThreads : ℕ) (i : ClassInfo) (es : List Tree) : Prop :=
  u32 maxDeviceThreads ≠ 0 ∧ es.length + u32 maxDeviceThreads - 1 < 2 ^ 32 ∧
    endOff w.o w.simdutf 8 (.refArray i es) < 2 ^ 32

theorem endOff_refArray (o : Options) (u : Simdutf) (i : ClassInfo) (es : List Tree) :
    endOff o u 8 (.refArray i es) = endAll o u 16 es := by
  rw [endOff]
  rfl

section
variable {g : Globals} {w : ObjectWalker} {jvm : Jvm} {e : JEnv} {fuel : ℕ} {mem : ℕ → Mem} {p : ℕ → ℕ}
  {maxDeviceThreads a : ℕ} {i : ClassInfo} {es : List Tree} {out out' : Mem}

/-- What the batched serializer leaves: the total length, the head of the array record, and the glued elements. -/
theorem doArrayObjSerialize_eq (hl : w.r.Slotted) (hx : Exports g w) (hh : HeadersBy4 (.refArray i es))
    (hutf : w.o.enableUtf16ToUtf8 = false) (hp : ∀ k, p k % 8 = 0) (hroom : ∀ k, p k + 2 ^ 32 ≤ 2 ^ 63)
    (hsees : ∀ k, Sees w.heap (mem k)) (hu : Unfolds w.heap w.r a (.refArray i es))
    (hat : AllAt Placed w.heap a (.refArray i es)) (hf : (Tree.refArray i es).height < fuel)
    (hfits : Fits w maxDeviceThreads i es) (out' : Mem) :
    ∃ m, doArrayObjSerialize w.heap (kernelTask g fuel mem p) maxDeviceThreads a i out' =
        .ok (endAll w.o w.simdutf 16 es, m) ∧
      read m 0 16 = le 8 (endAll w.o w.simdutf 16 es) ++ (leInt16 i.id ++ le 2 arrayFlag ++ le 4 es.length) ∧
      read m 16 (glued w.o w.simdutf 16 es).length = glued w.o w.simdutf 16 es := by
  obtain ⟨hb, hsum, hend⟩ := hfits
  rw [endOff_refArray] at hend
  have hall := (over_of_unfolds hl _ hu).2.2.2.2.2
  simp only [Unfolds] at hu
  obtain ⟨-, -, -, -, -, -, hes⟩ := hu
  simp only [AllAt] at hat
  have hn : es.length = w.heap.arrayLength a i.headerSize := by rw [← hes.length_eq, List.length_map, List.length_range]
  have hheight : ∀ t ∈ es, t.height < fuel := fun t ht => by
    have hle := height_le_heightAll ht
    rw [Serde.Tree.height] at hf
    omega
  rw [← hn, List.range_eq_range'] at hes
  have hat₂ := hat.2
  rw [← hn, List.range_eq_range'] at hat₂
  have htrig := triggerAll_eq hl hx hutf hp hroom hsees hes hat₂ hh.elements hheight fun t ht =>
    (endOff_le_endAll ht (by decide)).trans (Nat.le_of_lt hend)
  rw [← List.range_eq_range', ← batches_flatten hb hsum] at htrig
  -- the head of the record
  have h8 : (RWBuffer.skip ⟨out', 0⟩ objectDataOffset).off = 8 := rfl
  obtain ⟨hhead, hoff⟩ := ObjectWalker.arrayHead_emits (n := es.length) (i := i)
    (RWBuffer.Emits.refl (RWBuffer.skip ⟨out', 0⟩ objectDataOffset)) (by rw [h8])
  rw [List.nil_append] at hhead
  generalize hb₁ : ((((RWBuffer.skip ⟨out', 0⟩ objectDataOffset).put (leInt16 i.id)).put (le 2 arrayFlag)).put
    (le 4 es.length)).fillNextAlign8 = b₁ at hhead hoff
  have hoff₁ : b₁.off = 16 := hoff
  have hem := collectAll_emits w.o w.simdutf es b₁
  rw [hoff₁] at hem
  have hrun := serializeBatches_of_triggerAll b₁ htrig
  generalize collectAll (es.map (taskBytes w.o w.simdutf)) b₁ = b₂ at hem hrun
  have hread : read b₂.data 16 (glued w.o w.simdutf 16 es).length = glued w.o w.simdutf 16 es := by
    rw [← hoff₁]
    have hra := hem.read_all
    rwa [hoff₁] at hra ⊢
  obtain ⟨-, hendall⟩ := streamAll_of_glued hl es hall (by decide) hread
  have htotal : u32 b₂.off = endAll w.o w.simdutf 16 es := by
    rw [hem.off, hoff₁, ← hendall]
    exact u32_of_lt hend
  refine ⟨(b₂.putAt (le 8 (endAll w.o w.simdutf 16 es)) 0).data, ?_, ?_, ?_⟩
  · rw [doArrayObjSerialize]
    simp only [← hn, hb₁, if_neg hb]
    rw [hrun]
    simp only [bind, Except.bind, htotal]
    rfl
  · have h₁ : read (b₂.putAt (le 8 (endAll w.o w.simdutf 16 es)) 0).data 0 8 = le 8 (endAll w.o w.simdutf 16 es) :=
      read_write_self b₂.data 0 (le 8 (endAll w.o w.simdutf 16 es))
    have h₂ : read (b₂.putAt (le 8 (endAll w.o w.simdutf 16 es)) 0).data 8 8 =
        leInt16 i.id ++ le 2 arrayFlag ++ le 4 es.length := by
      rw [RWBuffer.putAt, read_write_right (by rw [length_le]), hem.read_before (by rw [hoff₁])]
      exact hhead.read_all
    rw [show (16 : ℕ) = 8 + 8 from rfl, read_add, h₁, Nat.zero_add, h₂]
  · rw [RWBuffer.putAt, read_write_right (by rw [length_le]; decide)]
    exact hread

/-- What the walker leaves for the array: the total length, the head of the array record, and the elements. -/
theorem walkRoot_refArray (hl : w.r.Slotted) (hu : Unfolds w.heap w.r a (.refArray i es))
    (hf : (Tree.refArray i es).height < fuel) (out : Mem) :
    ∃ m, w.walkRoot fuel a out = .ok (endAll w.o w.simdutf 16 es, m) ∧
      read m 0 16 = le 8 (endAll w.o w.simdutf 16 es) ++ (leInt16 i.id ++ le 2 arrayFlag ++ le 4 es.length) ∧
      read m 16 (encodeAll w.o w.simdutf 16 (List.replicate es.length i.elemId) es).length =
        encodeAll w.o w.simdutf 16 (List.replicate es.length i.elemId) es := by
  obtain ⟨m, hm, hread⟩ := ObjectWalker.walkRoot_emits hl hf hu out
  have hend := endOff_eq_length (o := w.o) (u := w.simdutf) hl (over_of_unfolds hl _ hu) 8 unregisteredClassId
  have henc : encode w.o w.simdutf 8 unregisteredClassId (.refArray i es) =
      (leInt16 i.id ++ le 2 arrayFlag ++ le 4 es.length) ++
        encodeAll w.o w.simdutf 16 (List.replicate es.length i.elemId) es := by
    rw [encode]
    rfl
  rw [← hend, endOff_refArray] at hm hread
  rw [henc, ← List.append_assoc] at hread
  obtain ⟨h₁, h₂⟩ := read_append hread
  have hlen : (le 8 (endAll w.o w.simdutf 16 es) ++ (leInt16 i.id ++ le 2 arrayFlag ++ le 4 es.length)).length = 16 := by
    simp only [List.length_append, length_leInt16, length_le]
  rw [hlen] at h₁ h₂
  exact ⟨m, hm, h₁, h₂⟩

/-- The head and the elements make a stream of the array. -/
theorem stream_refArray {m : Mem} {o : Options} {u : Simdutf} {total : ℕ}
    (hhead : read m 0 16 = le 8 total ++ (leInt16 i.id ++ le 2 arrayFlag ++ le 4 es.length))
    (hes : StreamAll o u m 16 es) : Stream o u m 8 (.refArray i es) := by
  have h := (read_append hhead).2
  simp only [List.length_append, length_leInt16, length_le] at h
  rw [Serde.Stream]
  exact ⟨h, hes⟩

/-- The reader gives the same on every two streams of the array. -/
theorem parsed_eq (hw : w.r.WellFormed) (hutf : w.o.enableUtf16ToUtf8 = false) {t : Tree} (hl : t.Laid)
    (ho : t.Over w.r) (hfit : t.ArraysFit) (hf : t.height < fuel) {m : Mem} {off : ℕ} (hs : Stream w.o w.simdutf m off t) :
    parsed ((w.reviver jvm).parse fuel unregisteredClassId (ObjectReviver.stateAt m off e)) =
      ((w.reviver jvm).rebuild t.copied e).map fun x => (x.1, endOff w.o w.simdutf off t, x.2) := by
  have hp := ObjectReviver.parse_eq_rebuild (v := w.reviver jvm) hw hl hf ho m off unregisteredClassId e hs
  have hre : reread (w.reviver jvm).o (w.reviver jvm).simdutf m off t = t.copied := reread_of_stream hutf t ho hfit hs
  rw [hp, hre, parsed]
  cases (w.reviver jvm).rebuild t.copied e with
  | error err => rfl
  | ok x => rfl

/-- **Where the sizes fit, the batched serializer does what the walker does.** -/
theorem batched_of_fits (hw : w.r.WellFormed) (hslot : w.r.Slotted) (hx : Exports g w)
    (hl : (Tree.refArray i es).Laid) (hh : HeadersBy4 (.refArray i es)) (hutf : w.o.enableUtf16ToUtf8 = false)
    (hp : ∀ k, p k % 8 = 0) (hroom : ∀ k, p k + 2 ^ 32 ≤ 2 ^ 63) (hsees : ∀ k, Sees w.heap (mem k))
    (hu : Unfolds w.heap w.r a (.refArray i es)) (hat : AllAt Placed w.heap a (.refArray i es))
    (hf : (Tree.refArray i es).height < fuel) (hfits : Fits w maxDeviceThreads i es) (harr : (Tree.refArray i es).ArraysFit) :
    SameAsWalk g w jvm e fuel mem p maxDeviceThreads a i es out out' := by
  have ho := over_of_unfolds hslot _ hu
  have hall : OverAll w.r es := ho.2.2.2.2.2
  obtain ⟨m, hm, hhead, hread⟩ := walkRoot_refArray hslot hu hf out
  obtain ⟨m', hm', hhead', hread'⟩ := doArrayObjSerialize_eq hslot hx hh hutf hp hroom hsees hu hat hf hfits out'
  obtain ⟨hs, -⟩ := streamAll_of_encode hslot es hall hread
  obtain ⟨hs', hend⟩ := streamAll_of_glued hslot es hall (by decide) hread'
  refine ⟨batches_flatten hfits.1 hfits.2.1, _, m, m', hm, hm', hs', rfl, fun x hx' => ?_, ?_⟩
  · by_cases hlt : x < 16
    · have heq := read_eq_iff.mp (hhead.trans hhead'.symm) x hlt
      rw [Nat.zero_add] at heq
      exact Or.inr (Or.inr heq)
    · obtain ⟨k, rfl⟩ := Nat.exists_eq_add_of_le (Nat.le_of_not_lt hlt)
      have hsame := glued_sameBut (o := w.o) (u := w.simdutf) hslot es 16 (List.replicate es.length i.elemId) hall
      have hk' : k < (glued w.o w.simdutf 16 es).length := by omega
      have hk : k < (encodeAll w.o w.simdutf 16 (List.replicate es.length i.elemId) es).length := by
        rw [hsame.length]
        exact hk'
      by_cases hin : InSlotAll w.o w.simdutf (16 + k) 16 es ∨ InNullId w.o w.simdutf (16 + k) 16 es
      · rcases hin with hin | hin
        · exact Or.inl hin
        · exact Or.inr (Or.inl hin)
      · have heq := hsame.off k hin
        rw [← hread, ← hread', getElem?_read, getElem?_read, if_pos hk, if_pos hk'] at heq
        exact Or.inr (Or.inr (Option.some.inj heq))
  · rw [parsed_eq hw hutf hl ho harr hf (stream_refArray hhead hs),
      parsed_eq hw hutf hl ho harr hf (stream_refArray hhead' hs')]

/-- **What the batched serializer needs**: it agrees with the walker only where the sizes fit. -/
theorem fits_of_batched (hu : Unfolds w.heap w.r a (.refArray i es))
    (h : SameAsWalk g w jvm e fuel mem p maxDeviceThreads a i es out out') : Fits w maxDeviceThreads i es := by
  obtain ⟨hflat, total, m, m', hm, hm', -, hend, -⟩ := h
  have hb : u32 maxDeviceThreads ≠ 0 := by
    intro hb
    rw [doArrayObjSerialize] at hm'
    simp only [if_pos hb] at hm'
    cases hm'
  refine ⟨hb, ?_, ?_⟩
  · by_contra hge
    -- the sum wraps around to less than a batch, so there is no batch at all
    have hlt := u32_lt maxDeviceThreads
    simp only [Unfolds] at hu
    obtain ⟨-, -, -, -, -, hn, hes⟩ := hu
    have hlen : es.length = w.heap.arrayLength a i.headerSize := by
      rw [← hes.length_eq, List.length_map, List.length_range]
    have hsum : u32 (es.length + u32 maxDeviceThreads + 2 ^ 32 - 1) < u32 maxDeviceThreads := by
      have hmod : u32 (es.length + u32 maxDeviceThreads + 2 ^ 32 - 1) = es.length + u32 maxDeviceThreads - 1 - 2 ^ 32 := by
        generalize u32 maxDeviceThreads = s at hge hlt
        unfold u32
        omega
      omega
    have hzero : nBatch es.length (u32 maxDeviceThreads) = 0 := Nat.div_eq_of_lt hsum
    rw [batches, hzero] at hflat
    have hnil : es.length = 0 := by
      have := congrArg List.length hflat
      rw [List.length_range] at this
      exact this.symm
    omega
  · rw [endOff_refArray, hend]
    rw [doArrayObjSerialize] at hm'
    simp only [if_neg hb] at hm'
    obtain ⟨b, -, hb'⟩ := bind_eq_ok hm'
    rw [← (Prod.mk.inj (Except.ok.inj hb')).1]
    exact u32_lt _

end

/-- **Batched and sequential serialization of a reference array.** For every array, every number of threads and every
state of the buffers: where the sizes fit, and no primitive array's byte size wraps around, the batched serializer
does what the walker does; and it does so only where the sizes fit. -/
theorem doArrayObjSerialize_same_as_walk (g : Globals) (w : ObjectWalker) (jvm : Jvm) (e : JEnv) (hw : w.r.WellFormed)
    (hslot : w.r.Slotted) (hx : Exports g w) (hutf : w.o.enableUtf16ToUtf8 = false) (fuel : ℕ)
    (mem : ℕ → Mem) (p : ℕ → ℕ) (hp : ∀ k, p k % 8 = 0) (hroom : ∀ k, p k + 2 ^ 32 ≤ 2 ^ 63)
    (hsees : ∀ k, Sees w.heap (mem k)) (maxDeviceThreads a : ℕ) (i : ClassInfo) (es : List Tree)
    (hu : Unfolds w.heap w.r a (.refArray i es)) (hl : (Tree.refArray i es).Laid) (hh : HeadersBy4 (.refArray i es))
    (hat : AllAt Placed w.heap a (.refArray i es)) (hf : (Tree.refArray i es).height < fuel) (out out' : Mem) :
    (Fits w maxDeviceThreads i es ∧ (Tree.refArray i es).ArraysFit →
      SameAsWalk g w jvm e fuel mem p maxDeviceThreads a i es out out') ∧
    (SameAsWalk g w jvm e fuel mem p maxDeviceThreads a i es out out' → Fits w maxDeviceThreads i es) :=
  ⟨fun h => batched_of_fits hw hslot hx hl hh hutf hp hroom hsees hu hat hf h.1 h.2, fits_of_batched hu⟩

open ObjectWalker (sampleEnum sampleEnumArray samplePair sampleResolver sampleHeap noSimdutf
  sampleResolver_slotted)

/-- The sample array goes out in one batch of two. -/
theorem doArrayObjSerialize_same_as_walk_sample :
    SameAsWalk sampleGlobals sampleWalker sampleJvm sampleEnv 2 (fun _ => deviceMem (sampleHeap 0) 255) (fun _ => 4096) 2 80
      sampleEnumArray [.enumConst sampleEnum 0, .enumConst sampleEnum 0] (fun _ => 0) fun _ => 7 := by
  have hat : AllAt Placed (sampleHeap 0) 80 sampleTwice := by
    simp only [sampleTwice, AllAt, AllAtAll]
    refine ⟨⟨by decide, by decide⟩, fun a refs h => ?_⟩
    have hrefs : (List.range ((sampleHeap 0).arrayLength 80 sampleEnumArray.headerSize)).map
        ((sampleHeap 0).arrayElemRef 80 sampleEnumArray.headerSize) = [.ok 64, .ok 64] := by decide
    rw [hrefs] at h
    cases h
    refine ⟨⟨by decide, by decide⟩, fun a refs h => ?_⟩
    cases h
    exact ⟨⟨by decide, by decide⟩, trivial⟩
  have hh : HeadersBy4 sampleTwice := by
    intro i hi
    simp only [sampleTwice, Serde.Tree.infos, infosAll, List.mem_cons, List.mem_append, List.not_mem_nil, or_false] at hi
    rcases hi with rfl | rfl | rfl <;> exact ⟨by decide, by decide⟩
  exact (doArrayObjSerialize_same_as_walk sampleGlobals sampleWalker sampleJvm sampleEnv sampleResolver_wellFormed
    sampleResolver_slotted ⟨rfl, by decide, by unfold SortedBy; decide, by decide⟩ rfl 2 _ _ (fun _ => by decide)
    (fun _ => by decide) (fun _ => deviceMem_sees _ _) 2 80 _ _ sampleTwice_unfolds sampleTwice_laid hh hat (by decide) _ _).1
    ⟨⟨by decide, by decide, by decide⟩, trivial, trivial, trivial⟩

/-- The class info of `long[][]`. -/
def rowsInfo : ClassInfo :=
  { klass := 3000, id := 21, enumRefArrOff := 0, objSize := 16, headerSize := 16, nStaticField := 0, dim := 2,
    signature := sym "[[J", fields := [⟨20, 0, .array, 0, 0⟩], enums := [] }

/-- A heap with a `long[][]` at `64` that holds twice the `long[]` of zeros at `96`. -/
def rowsHeap : Heap :=
  { mem := fun x => (le 8 1 ++ le 4 3000 ++ le 4 2 ++ le 4 12 ++ le 4 12 ++ le 8 0 ++
      (le 8 1 ++ le 4 1000 ++ le 4 bigLength)).getD (x - 64) 0
    args := ⟨0, .zeroBased, 3, 0, .zeroBased, 0⟩ }

/-- A walker over it. -/
def rowsWalker : ObjectWalker :=
  { heap := rowsHeap
    r := ⟨[rowsInfo, bigLongs], [1, 0], [1, 0], [(sym "[J", 20), (sym "[[J", 21)], []⟩
    o := ⟨false⟩, simdutf := noSimdutf }

/-- What it exports. -/
def rowsGlobals : Globals := ⟨[bigLongs, rowsInfo], rowsHeap.args⟩

/-- The tree of one row. -/
def rowTree : Tree := .primArray bigLongs bigLength (rowsHeap.raw 96 16 (bigLength * 8))

theorem rowTree_unfolds : Unfolds rowsHeap rowsWalker.r 96 rowTree := by
  simp only [rowTree, Unfolds]
  exact ⟨by decide, by decide, by decide, by decide, by decide, by decide, ⟨-1, 0, .long, 0, 0⟩, rfl, by decide, rfl⟩

theorem rows_unfold : Unfolds rowsHeap rowsWalker.r 64 (.refArray rowsInfo [rowTree, rowTree]) := by
  simp only [Unfolds, UnfoldsAll]
  exact ⟨by decide, by decide, by decide, by decide, ⟨⟨20, 0, .array, 0, 0⟩, rfl, by decide⟩, by decide, 96, [.ok 96],
    by decide, rowTree_unfolds, 96, [], rfl, rowTree_unfolds, rfl⟩

theorem rowsWalker_wellFormed : rowsWalker.r.WellFormed where
  byId i hi := by
    have hm := ClassResolver.mem_of_getByKlass hi
    simp only [rowsWalker, List.mem_cons, List.not_mem_nil, or_false] at hm
    rcases hm with rfl | rfl <;> decide
  range i hi := by
    have hm := ClassResolver.mem_of_getByKlass hi
    simp only [rowsWalker, List.mem_cons, List.not_mem_nil, or_false] at hm
    rcases hm with rfl | rfl <;> decide
  byKlass id i hi := by
    have hm := ClassResolver.mem_of_getById hi
    simp only [rowsWalker, List.mem_cons, List.not_mem_nil, or_false] at hm
    rcases hm with rfl | rfl
    · exact (by decide : rowsWalker.r.getByKlass 3000 = some rowsInfo)
    · exact (by decide : rowsWalker.r.getByKlass 1000 = some bigLongs)
  elem i f hi ha hf href := by
    have hm := ClassResolver.mem_of_getByKlass hi
    simp only [rowsWalker, List.mem_cons, List.not_mem_nil, or_false] at hm
    rcases hm with rfl | rfl
    · cases hf
      exact ⟨bigLongs, by decide, by decide⟩
    · cases hf
      cases href

theorem rowsWalker_slotted : rowsWalker.r.Slotted := by
  intro k i hi he ho
  have hm := ClassResolver.mem_of_getByKlass hi
  simp only [rowsWalker, List.mem_cons, List.not_mem_nil, or_false] at hm
  rcases hm with rfl | rfl <;> cases ho

/-- The classes of the rows. -/
theorem mem_rows {j : ClassInfo} (hj : j ∈ (Tree.refArray rowsInfo [rowTree, rowTree]).infos) :
    j = rowsInfo ∨ j = bigLongs := by
  simp only [rowTree, Serde.Tree.infos, infosAll, List.mem_cons, List.mem_append, List.not_mem_nil, or_false, or_self] at hj
  exact hj

theorem rows_laid : (Tree.refArray rowsInfo [rowTree, rowTree]).Laid := by
  intro j hj he ho
  rcases mem_rows hj with rfl | rfl <;> cases ho

theorem rows_placed : AllAt Placed rowsHeap 64 (.refArray rowsInfo [rowTree, rowTree]) := by
  have hrow : AllAt Placed rowsHeap 96 rowTree := by
    simp only [rowTree, AllAt]
    exact ⟨by decide, by decide⟩
  simp only [AllAt, AllAtAll]
  refine ⟨⟨by decide, by decide⟩, fun a refs h => ?_⟩
  have hrefs : (List.range (rowsHeap.arrayLength 64 rowsInfo.headerSize)).map
      (rowsHeap.arrayElemRef 64 rowsInfo.headerSize) = [.ok 96, .ok 96] := by decide
  rw [hrefs] at h
  cases h
  refine ⟨hrow, fun a refs h => ?_⟩
  cases h
  exact ⟨hrow, trivial⟩

theorem rows_headers : HeadersBy4 (.refArray rowsInfo [rowTree, rowTree]) := by
  intro j hj
  rcases mem_rows hj with rfl | rfl <;> exact ⟨by decide, by decide⟩

theorem endOff_rows : endOff rowsWalker.o rowsWalker.simdutf 8 (.refArray rowsInfo [rowTree, rowTree]) = 2 ^ 33 - 32 := by
  have hlen : (encodeContents rowsWalker.o rowsWalker.simdutf bigLongs.elemType bigLength
      (rowsHeap.raw 96 16 (bigLength * 8))).length = 2 ^ 32 - 32 := by
    rw [encodeContents, if_neg (by decide), List.length_take, Heap.length_raw]
    decide
  have hrow : ∀ off, endOff rowsWalker.o rowsWalker.simdutf off rowTree = upperAlign off 8 + (2 ^ 32 - 24) := by
    intro off
    rw [rowTree, endOff, hlen]
    omega
  rw [endOff_refArray, endAll, endAll, endAll, hrow, hrow]
  decide

/-- **Two rows of four gigabytes**: everything the design relies on holds, there are four threads, and the batched
serializer does not do what the walker does. -/
theorem doArrayObjSerialize_ne_walk :
    rowsWalker.r.WellFormed ∧ rowsWalker.r.Slotted ∧ Exports rowsGlobals rowsWalker ∧
      rowsWalker.o.enableUtf16ToUtf8 = false ∧ Sees rowsWalker.heap (deviceMem rowsHeap 0) ∧
      Unfolds rowsWalker.heap rowsWalker.r 64 (.refArray rowsInfo [rowTree, rowTree]) ∧
      (Tree.refArray rowsInfo [rowTree, rowTree]).Laid ∧ HeadersBy4 (.refArray rowsInfo [rowTree, rowTree]) ∧
      AllAt Placed rowsWalker.heap 64 (.refArray rowsInfo [rowTree, rowTree]) ∧
      (Tree.refArray rowsInfo [rowTree, rowTree]).height < 2 ∧
      ∀ jvm e, ¬ SameAsWalk rowsGlobals rowsWalker jvm e 2 (fun _ => deviceMem rowsHeap 0) (fun _ => 4096) 4 64 rowsInfo
        [rowTree, rowTree] (fun _ => 0) fun _ => 0 := by
  refine ⟨rowsWalker_wellFormed, rowsWalker_slotted, ⟨rfl, by decide, by unfold SortedBy; decide, by decide⟩, rfl,
    deviceMem_sees _ _, rows_unfold, rows_laid, rows_headers, rows_placed, ?_, fun jvm e h => ?_⟩
  · have hrow : rowTree.height = 0 := by rw [rowTree, Serde.Tree.height]
    rw [Serde.Tree.height, heightAll, heightAll, heightAll, hrow]
    decide
  · have hfits := (fits_of_batched rows_unfold h).2.2
    rw [endOff_rows] at hfits
    exact absurd hfits (by decide)

end DShuffle.Dpa
