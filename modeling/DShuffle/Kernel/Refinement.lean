import DShuffle.Kernel.Serialize
import DShuffle.Serde.Stream

/-!
# The kernel refines the walker

The kernel and the host's walker, run on one heap, do the same to their buffers
step by step. What relates the two states is `Sim`: the same bytes from the start
of the buffer on, the same cursor, and the heap in the device's window.

One thing tells them apart. The kernel keeps the offset of an object's body in a
`uint32_t` (`obj_base`, from `cur_off`), where the walker has a `size_t`, so a
reference slot that lies at offset 2^32 or beyond is read and written 4 GiB too
low.

## What is proved

* `recur_sim` — as long as every reference slot lies below offset 2^32, the
  kernel and the walker stay related.
* `doSerialize_emits` — so the kernel leaves the encoding of the tree too.
* `doSerialize_eq_walk` — so both produce the same total length and bytes.
* `doSerialize_ne_walk` — with a slot past 2^32 they do not.

## Honest scope

The device's buffer lies below the window and what is written fits in front of
it; objects lie below 2^63, as Linux places them. The kernel's tables are the
ones exported from the resolver.
-/

namespace DShuffle.Kernel

open Base Serde

/-! ### The buffer -/

/-- The device sees the Java heap through its window. -/
def Sees (h : Heap) (mem : Mem) : Prop := ∀ x, mem (2 ^ 63 + x) = h.mem x

/-- The kernel's buffer at `p` holds what the walker's buffer holds, with the cursor at the same place, and the heap
is in the window. -/
structure Sim (h : Heap) (p : ℕ) (c : Outbuf) (b : RWBuffer) : Prop where
  /-- The start of the buffer. -/
  base : c.p = p
  /-- The cursors. -/
  cur : c.curP = p + b.off
  /-- The bytes. -/
  data : ∀ x, c.mem (p + x) = b.data x
  /-- The window. -/
  sees : Sees h c.mem

theorem write_add (m : Mem) (p k : ℕ) (bs : Bytes) (x : ℕ) :
    write m (p + k) bs (p + x) = write (fun y => m (p + y)) k bs x := by
  unfold write
  by_cases h : k ≤ x
  · rw [if_pos h, if_pos (by omega), Nat.add_sub_add_left]
  · rw [if_neg h, if_neg (by omega)]

theorem Sees.read {h : Heap} {mem : Mem} (hs : Sees h mem) (x n : ℕ) : read mem (2 ^ 63 + x) n = read h.mem x n :=
  read_eq_iff.mpr fun i _ => by rw [Nat.add_assoc]; exact hs (x + i)

/-- A write below the window leaves the window as it is. -/
theorem Sees.write {h : Heap} {mem : Mem} (hs : Sees h mem) {a : ℕ} {bs : Bytes} (hlt : a + bs.length ≤ 2 ^ 63) :
    Sees h (write mem a bs) := fun x => by rw [write_of_le (by omega)]; exact hs x

theorem h2d_eq {a : ℕ} (h : a < 2 ^ 63) : h2d a = 2 ^ 63 + a := by
  have hor := Nat.two_pow_add_eq_or_of_lt h 1
  rw [Nat.mul_one] at hor
  rw [h2d, Nat.or_comm, hor]

namespace Sim

variable {h : Heap} {p : ℕ} {c : Outbuf} {b : RWBuffer}

theorem curOff (hs : Sim h p c b) : c.curOff = u32 b.off := by
  rw [Outbuf.curOff, hs.cur, hs.base, Nat.add_sub_cancel_left]

/-- Bytes stored at the cursor. -/
theorem store (hs : Sim h p c b) (bs : Bytes) (hlt : p + b.off + bs.length ≤ 2 ^ 63) :
    Sim h p { c with mem := write c.mem c.curP bs, curP := c.curP + bs.length } (b.put bs) := by
  refine ⟨hs.base, by rw [hs.cur, RWBuffer.off_put, Nat.add_assoc], fun x => ?_, ?_⟩
  · change write c.mem c.curP bs (p + x) = write b.data b.off bs x
    rw [hs.cur, write_add, funext hs.data]
  · exact hs.sees.write (by rw [hs.cur]; exact hlt)

theorem putUInt (hs : Sim h p c b) (n v : ℕ) (hlt : p + b.off + n ≤ 2 ^ 63) :
    Sim h p (Outbuf.putUInt n c v) (b.put (le n v)) := by
  have hst := hs.store (le n v) (by rw [length_le]; exact hlt)
  rw [length_le] at hst
  exact hst

theorem putU16 (hs : Sim h p c b) (v : ℕ) (hlt : p + b.off + 2 ≤ 2 ^ 63) : Sim h p (c.putU16 v) (b.put (le 2 v)) :=
  hs.putUInt 2 v hlt

/-- A class id. -/
theorem putId (hs : Sim h p c b) (id : ℤ) (hlt : p + b.off + 2 ≤ 2 ^ 63) :
    Sim h p (c.putU16 (id % 65536).toNat) (b.put (leInt16 id)) := hs.putUInt 2 _ hlt

theorem putU32 (hs : Sim h p c b) (v : ℕ) (hlt : p + b.off + 4 ≤ 2 ^ 63) : Sim h p (c.putU32 v) (b.put (le 4 v)) :=
  hs.putUInt 4 v hlt

theorem le_zero (n : ℕ) : le n 0 = List.replicate n 0 := by
  induction n with
  | zero => rfl
  | succ n ih =>
    rw [le, Nat.zero_div, ih, List.replicate_succ]
    rfl

/-- More zeros behind zeros. -/
theorem putZeros {j : ℕ} (hs : Sim h p c (b.put (List.replicate j 0))) (n : ℕ) (hlt : p + b.off + (j + n) ≤ 2 ^ 63) :
    Sim h p (Outbuf.putUInt n c 0) (b.put (List.replicate (j + n) 0)) := by
  have hput := hs.putUInt n 0 (by rw [RWBuffer.off_put, List.length_replicate]; omega)
  rw [RWBuffer.put_put, le_zero, List.replicate_append_replicate] at hput
  exact hput

/-- Padding: both buffers start at a multiple of eight, so the pointer and the offset are padded alike. -/
theorem fillNextAlign8 (hs : Sim h p c b) (hp : p % 8 = 0) (hlt : p + upperAlign b.off 8 ≤ 2 ^ 63) :
    Sim h p c.fillNextAlign8 b.fillNextAlign8 := by
  have hle := le_upperAlign b.off
  have hpad : u32 (alignUp8 c.curP - c.curP) = upperAlign b.off 8 - b.off := by
    rw [hs.cur]
    unfold alignUp8 upperAlign u32
    omega
  have hlt8 : upperAlign b.off 8 - b.off < 8 := by unfold upperAlign; omega
  have hend : p + b.off + (upperAlign b.off 8 - b.off) ≤ 2 ^ 63 := by omega
  unfold Outbuf.fillNextAlign8 RWBuffer.fillNextAlign8
  rw [hpad]
  generalize upperAlign b.off 8 - b.off = k at hlt8 hend
  have hs₀ : Sim h p c (b.put (List.replicate 0 0)) := by
    have hnil : b.put (List.replicate 0 0) = b := by simp [RWBuffer.put]
    rw [hnil]
    exact hs
  have hk : k = 0 ∨ k = 1 ∨ k = 2 ∨ k = 3 ∨ k = 4 ∨ k = 5 ∨ k = 6 ∨ k = 7 := by omega
  rcases hk with rfl | rfl | rfl | rfl | rfl | rfl | rfl | rfl
  · exact hs₀
  · exact hs₀.putZeros 1 (by omega)
  · exact hs₀.putZeros 2 (by omega)
  · exact (hs₀.putZeros 1 (by omega)).putZeros 2 (by omega)
  · exact hs₀.putZeros 4 (by omega)
  · exact (hs₀.putZeros 1 (by omega)).putZeros 4 (by omega)
  · exact (hs₀.putZeros 2 (by omega)).putZeros 4 (by omega)
  · exact ((hs₀.putZeros 1 (by omega)).putZeros 2 (by omega)).putZeros 4 (by omega)

theorem getU32At (hs : Sim h p c b) (off : ℕ) : c.getU32At off = b.getAt 4 off := by
  have hread : read c.mem (p + off) 4 = read b.data off 4 :=
    read_eq_iff.mpr fun i _ => by rw [Nat.add_assoc, hs.data]
  rw [Outbuf.getU32At, RWBuffer.getAt, hs.base, hread]

theorem putU32At (hs : Sim h p c b) (v off : ℕ) (hlt : p + off + 4 ≤ 2 ^ 63) :
    Sim h p (c.putU32At v off) (b.putAt (le 4 v) off) := by
  refine ⟨hs.base, hs.cur, fun x => ?_, ?_⟩
  · change write c.mem (c.p + off) (le 4 v) (p + x) = write b.data off (le 4 v) x
    rw [hs.base, write_add, funext hs.data]
  · refine hs.sees.write ?_
    rw [hs.base, length_le]
    exact hlt

/-- A copy out of the heap. -/
theorem put (hs : Sim h p c b) (x len : ℕ) (hp : p % 8 = 0) (hoff : b.off % 8 = 0) (hx : x % 4 = 0)
    (hlt : p + b.off + len ≤ 2 ^ 63) : Sim h p (c.put (2 ^ 63 + x) len) (b.put (read h.mem x len)) := by
  have hcopy : dMemcpy c.mem c.curP (2 ^ 63 + x) len = write c.mem c.curP (read h.mem x len) := by
    rw [dMemcpy_eq len (Or.inl ?_) ?_ ?_, hs.sees.read]
    · rw [hs.cur]; omega
    · rw [hs.cur]; omega
    · omega
  have hst := hs.store (read h.mem x len) (by rw [length_read]; exact hlt)
  rw [length_read] at hst
  rw [Outbuf.put, hcopy]
  exact hst

end Sim

/-! ### The heap and the class infos -/

/-- The object lies at a multiple of eight, below the addresses of the window. -/
def Placed (a : ℕ) : Prop := a % 8 = 0 ∧ a + 2 ^ 8 ≤ 2 ^ 63

/-- The classes of the tree have headers whose sizes are multiples of four; `header_size` is a `uint8_t`. -/
def HeadersBy4 (t : Serde.Tree) : Prop :=
  ∀ i ∈ t.infos, i.headerSize % 4 = 0 ∧ i.headerSize < 2 ^ 8

theorem HeadersBy4.members {i : ClassInfo} {body : Bytes} {ts : List Serde.Tree} (h : HeadersBy4 (.object i body ts)) :
    ∀ t ∈ ts, HeadersBy4 t :=
  fun _ ht j hj => h j (Serde.Tree.mem_infos_object ht hj)

theorem HeadersBy4.elements {i : ClassInfo} {ts : List Serde.Tree} (h : HeadersBy4 (.refArray i ts)) :
    ∀ t ∈ ts, HeadersBy4 t :=
  fun _ ht j hj => h j (Serde.Tree.mem_infos_refArray ht hj)

/-- The kernel's globals are what the host has exported to it. -/
structure Exports (g : Globals) (w : ObjectWalker) : Prop where
  /-- The settings of the JVM. -/
  args : g.jvmArgs = w.heap.args
  /-- The class infos, in the order of the resolver's index. -/
  table : g.classInfosByKlass.map some = w.r.infoByKlass.map (w.r.infos[·]?)
  /-- The resolver keeps its index sorted by klass. -/
  sorted : SortedBy (·.klass) g.classInfosByKlass
  /-- The table is shorter than the `uint32_t` bounds of the search. -/
  short : g.classInfosByKlass.length < 2 ^ 32

/-- The kernel finds the class infos that the resolver finds. -/
theorem Exports.getClassInfoByKlass {g : Globals} {w : ObjectWalker} (he : Exports g w) {k : ℕ} {i : ClassInfo}
    (hi : w.r.getByKlass k = some i) : g.getClassInfoByKlass k = some i := by
  obtain ⟨pos, hpos, hat⟩ := Option.bind_eq_some_iff.mp hi
  have hmem : some i ∈ g.classInfosByKlass.map some := by
    rw [he.table, ← hat]
    exact List.mem_map_of_mem (mem_of_findSorted hpos)
  obtain ⟨j, hj, hji⟩ := List.mem_map.mp hmem
  cases hji
  rw [Globals.getClassInfoByKlass, u32_of_lt he.short, bisect_eq_findSorted he.sorted]
  exact (findSorted_eq_some he.sorted).mpr ⟨hj, ClassResolver.klass_of_getByKlass hi⟩

theorem Sees.parseU32At {h : Heap} {mem : Mem} (hs : Sees h mem) {a : ℕ} (ha : a < 2 ^ 63) (off : ℕ) :
    parseU32At mem (h2d a) off = h.u32At a off := by
  rw [Kernel.parseU32At, h2d_eq ha, Nat.add_assoc, hs.read, Heap.u32At]

mutual

/-- Every reference slot of the stream of the tree at `off` starts below offset 2^32. -/
def SlotsBelow (o : Options) (u : Simdutf) (off : ℕ) : Tree → Prop
  | .null => True
  | .enumConst .. => True
  | .object i body ms =>
    (∀ f ∈ i.refFields, upperAlign off 8 + 8 + f.offset < 2 ^ 32) ∧
      SlotsBelowAll o u (upperAlign off 8 + 8 + body.length) ms
  | .refArray _ es => SlotsBelowAll o u (upperAlign off 8 + 8) es
  | .primArray .. => True

/-- Every reference slot of the streams of the trees, one after the other, starts below offset 2^32. -/
def SlotsBelowAll (o : Options) (u : Simdutf) (off : ℕ) : List Tree → Prop
  | [] => True
  | t :: ts => SlotsBelow o u off t ∧ SlotsBelowAll o u (endOff o u off t) ts

end

mutual

/-- A stream that ends by offset 2^32 has its slots below. -/
theorem slotsBelow_of_end {o : Options} {u : Simdutf} {r : ClassResolver} (hs : r.Slotted) : ∀ (t : Tree) {off : ℕ},
    t.Over r → endOff o u off t ≤ 2 ^ 32 → SlotsBelow o u off t
  | .null, _, _, _ => trivial
  | .enumConst .., _, _, _ => trivial
  | .object i body ms, off, ho, hend => by
    obtain ⟨hi, he, hob, hbody, -, -, hall⟩ := ho
    rw [endOff] at hend
    refine ⟨fun f hf => ?_, slotsBelowAll_of_end hs ms hall hend⟩
    have hin := (hs i.klass i hi he hob).slots_inside f.offset (List.mem_map_of_mem hf)
    have hle := le_endAll o u ms (upperAlign off 8 + 8 + body.length)
    omega
  | .refArray i es, off, ho, hend => by
    rw [endOff] at hend
    exact slotsBelowAll_of_end hs es ho.2.2.2.2.2 hend
  | .primArray .., _, _, _ => trivial

theorem slotsBelowAll_of_end {o : Options} {u : Simdutf} {r : ClassResolver} (hs : r.Slotted) :
    ∀ (ts : List Tree) {off : ℕ}, OverAll r ts → endAll o u off ts ≤ 2 ^ 32 → SlotsBelowAll o u off ts
  | [], _, _, _ => trivial
  | t :: ts, off, ho, hend => by
    rw [endAll] at hend
    have hle := le_endAll o u ts (endOff o u off t)
    exact ⟨slotsBelow_of_end hs t ho.1 (by omega), slotsBelowAll_of_end hs ts ho.2 hend⟩

end

/-! ### The simulation -/

section
variable {w : ObjectWalker} {g : Globals} {p : ℕ} {recH : ObjectWalker.Walk} {recK : Globals.Recur}

/-- The kernel's call follows the walker's on every object that unfolds to `t`. -/
def SimAs (w : ObjectWalker) (p : ℕ) (recH : ObjectWalker.Walk) (recK : Globals.Recur) (t : Tree) : Prop :=
  ∀ a eid b base b' c, Unfolds w.heap w.r a t → AllAt Placed w.heap a t → SlotsBelow w.o w.simdutf b.off t →
    p + endOff w.o w.simdutf b.off t ≤ 2 ^ 63 → recH a eid b = .ok (base, b') → Sim w.heap p c b →
      ∃ c', recK a eid c = .ok (base, c') ∧ Sim w.heap p c' b'

/-- Where the walker's cursor ends. -/
theorem off_of_emits (hl : w.r.Slotted) {a : ℕ} {eid : ℤ} {t : Tree} {b b' : RWBuffer} (hu : Unfolds w.heap w.r a t)
    (hem : RWBuffer.Emits b (encode w.o w.simdutf b.off eid t) b') : b'.off = endOff w.o w.simdutf b.off t := by
  rw [hem.off, (stream_of_encode hl t (over_of_unfolds hl t hu) hem.read_all).2]

/-- One round of the loop over the elements. -/
theorem serializeElems_succ {d headerSize n i e off : ℕ} {id : ℤ} {c c' : Outbuf}
    (he : g.jvmArgs.parseHeapCptr (getArrayElemCptr c.mem d headerSize i) = .ok e) (hrec : recK e id c = .ok (off, c')) :
    g.serializeElems recK d headerSize id (n + 1) i c = g.serializeElems recK d headerSize id n (i + 1) c' := by
  rw [Globals.serializeElems, he]
  simp only [bind, Except.bind]
  rw [hrec]

/-- The loop over the elements. -/
theorem serializeElems_sim (hl : w.r.Slotted) (hx : Exports g w) (id : ℤ) {a base n i : ℕ} {ts : List Tree} {b b' : RWBuffer}
    {c : Outbuf} (ha : a < 2 ^ 63) (hwalk : ∀ t ∈ ts, w.WalksAs recH t) (hsim : ∀ t ∈ ts, SimAs w p recH recK t)
    (hu : UnfoldsAll w.heap w.r ((List.range' i n).map (w.heap.arrayElemRef a base)) ts)
    (hat : AllAtAll Placed w.heap ((List.range' i n).map (w.heap.arrayElemRef a base)) ts)
    (hbelow : SlotsBelowAll w.o w.simdutf b.off ts) (hend : p + endAll w.o w.simdutf b.off ts ≤ 2 ^ 63)
    (hrun : w.walkElems recH a base id n i b = .ok b') (hs : Sim w.heap p c b) :
    ∃ c', g.serializeElems recK (h2d a) base id n i c = .ok c' ∧ Sim w.heap p c' b' := by
  induction ts generalizing n i b c with
  | nil =>
    simp only [UnfoldsAll, List.map_eq_nil_iff, List.range'_eq_nil_iff] at hu
    subst hu
    cases hrun
    exact ⟨c, rfl, hs⟩
  | cons t ts ih =>
    cases n with
    | zero => simp [UnfoldsAll] at hu
    | succ n =>
      rw [List.range'_succ, List.map_cons] at hu hat
      simp only [UnfoldsAll, List.cons.injEq] at hu
      obtain ⟨e, refs, ⟨he, rfl⟩, ht, hts⟩ := hu
      simp only [AllAtAll] at hat
      obtain ⟨hat₁, hat₂⟩ := hat e _ (by rw [he])
      simp only [SlotsBelowAll] at hbelow
      rw [endAll] at hend
      obtain ⟨b₁, hb₁, hem⟩ := hwalk t List.mem_cons_self e id b ht
      have hoff : b₁.off = endOff w.o w.simdutf b.off t := off_of_emits hl ht hem
      have hle := le_endAll w.o w.simdutf ts (endOff w.o w.simdutf b.off t)
      obtain ⟨c₁, hc₁, hs₁⟩ := hsim t List.mem_cons_self e id b _ b₁ c ht hat₁ hbelow.1 (by omega) hb₁ hs
      rw [ObjectWalker.walkElems, he] at hrun
      simp only [bind, Except.bind] at hrun
      rw [hb₁] at hrun
      rw [← hoff] at hbelow hend
      obtain ⟨c', hc', hs'⟩ := ih (fun t ht => hwalk t (List.mem_cons_of_mem _ ht))
        (fun t ht => hsim t (List.mem_cons_of_mem _ ht)) hts hat₂ hbelow.2 hend hrun hs₁
      refine ⟨c', ?_, hs'⟩
      have hcptr : g.jvmArgs.parseHeapCptr (getArrayElemCptr c.mem (h2d a) base i) = .ok e := by
        rw [getArrayElemCptr, hs.sees.parseU32At ha, hx.args]
        exact he
      rw [serializeElems_succ hcptr hc₁]
      exact hc'

/-- The loop over the fields: the slots of the fields still to come hold the pointers that the heap has there, since
what is written lies behind them or in other slots. -/
theorem serializeFields_sim (hl : w.r.Slotted) (hx : Exports g w) {objBase : ℕ} {fs : List FieldInfo} {ms : List Tree}
    {b b' : RWBuffer} {c : Outbuf} (hwalk : ∀ t ∈ ms, w.WalksAs recH t) (hsim : ∀ t ∈ ms, SimAs w p recH recK t)
    (hty : ∀ f ∈ fs, f.type.isPrimitive = true ∨ f.type.isReference = true)
    (hin : ∀ f ∈ fs, f.type.isReference = true → objBase + f.offset + 4 ≤ b.off)
    (hslot : ∀ f ∈ fs, f.type.isReference = true → objBase + f.offset < 2 ^ 32)
    (hap : fs.Pairwise fun f g => f.type.isReference = true → g.type.isReference = true → f.Disjoint g)
    (hu : UnfoldsAll w.heap w.r ((fs.filter (·.type.isReference)).map
      fun f => w.heap.args.parseHeapCptr (b.getAt 4 (objBase + f.offset))) ms)
    (hat : AllAtAll Placed w.heap ((fs.filter (·.type.isReference)).map
      fun f => w.heap.args.parseHeapCptr (b.getAt 4 (objBase + f.offset))) ms)
    (hbelow : SlotsBelowAll w.o w.simdutf b.off ms) (hend : p + endAll w.o w.simdutf b.off ms ≤ 2 ^ 63)
    (hrun : w.walkFields recH objBase fs b = .ok b') (hs : Sim w.heap p c b) :
    ∃ c', g.serializeFields recK (u32 objBase) fs c = .ok c' ∧ Sim w.heap p c' b' := by
  induction fs generalizing ms b c with
  | nil =>
    cases hrun
    exact ⟨c, rfl, hs⟩
  | cons f fs ih =>
    have hty' : ∀ g ∈ fs, g.type.isPrimitive = true ∨ g.type.isReference = true :=
      fun g hg => hty g (List.mem_cons_of_mem _ hg)
    obtain ⟨hap₁, hap₂⟩ := List.pairwise_cons.mp hap
    cases hf : f.type.isReference with
    | false =>
      have hp : f.type.isPrimitive = true :=
        BasicType.isPrimitive_of_not_isReference (hty f List.mem_cons_self) hf
      rw [filter_isReference_of_neg hf] at hu hat
      rw [ObjectWalker.walkFields, if_pos hp] at hrun
      obtain ⟨c', hc', hs'⟩ := ih hwalk hsim hty' (fun g hg => hin g (List.mem_cons_of_mem _ hg))
        (fun g hg => hslot g (List.mem_cons_of_mem _ hg)) hap₂ hu hat hbelow hend hrun hs
      exact ⟨c', by rw [Globals.serializeFields, if_pos hp]; exact hc', hs'⟩
    | true =>
      have hp : f.type.isPrimitive = false := BasicType.not_isPrimitive_of_isReference hf
      have hfin := hin f List.mem_cons_self hf
      have hfslot := hslot f List.mem_cons_self hf
      rw [filter_isReference_of_pos hf, List.map_cons] at hu hat
      cases ms with
      | nil => simp [UnfoldsAll] at hu
      | cons t ts =>
        simp only [UnfoldsAll, List.cons.injEq] at hu
        obtain ⟨m, refs, ⟨hm, rfl⟩, ht, hts⟩ := hu
        simp only [AllAtAll] at hat
        obtain ⟨hat₁, hat₂⟩ := hat m _ (by rw [hm])
        simp only [SlotsBelowAll] at hbelow
        rw [endAll] at hend
        obtain ⟨b₁, hb₁, hem⟩ := hwalk t List.mem_cons_self m f.id b ht
        have hoff : b₁.off = endOff w.o w.simdutf b.off t := off_of_emits hl ht hem
        have hle := le_endAll w.o w.simdutf ts (endOff w.o w.simdutf b.off t)
        have hmono : b.off ≤ b₁.off := by rw [hem.off]; exact Nat.le_add_right ..
        obtain ⟨c₁, hc₁, hs₁⟩ := hsim t List.mem_cons_self m f.id b _ b₁ c ht hat₁ hbelow.1 (by omega) hb₁ hs
        -- what the slots of the other fields hold
        have hkeep := ObjectWalker.members_kept (w := w) (v := le 4 (u32 (upperAlign b.off 8))) hem (length_le ..) hf hap₁
          fun g hg hr => hin g (List.mem_cons_of_mem _ hg) hr
        rw [ObjectWalker.walkFields, if_neg (by rw [hp]; exact Bool.false_ne_true)] at hrun
        simp only [bind, Except.bind] at hrun
        rw [hm] at hrun
        simp only at hrun
        rw [hb₁] at hrun
        simp only at hrun
        have hs₂ := hs₁.putU32At (u32 (upperAlign b.off 8)) (objBase + f.offset) (by omega)
        have hoff₂ : (b₁.putAt (le 4 (u32 (upperAlign b.off 8))) (objBase + f.offset)).off =
            endOff w.o w.simdutf b.off t := hoff
        obtain ⟨c', hc', hs'⟩ := ih (fun t ht => hwalk t (List.mem_cons_of_mem _ ht))
          (fun t ht => hsim t (List.mem_cons_of_mem _ ht)) hty'
          (fun g hg hr => by
            have hgin := hin g (List.mem_cons_of_mem _ hg) hr
            rw [hoff₂, ← hoff]
            omega)
          (fun g hg => hslot g (List.mem_cons_of_mem _ hg)) hap₂ (by rw [hkeep]; exact hts) (by rw [hkeep]; exact hat₂)
          (by rw [hoff₂]; exact hbelow.2) (by rw [hoff₂]; exact hend) hrun hs₂
        refine ⟨c', ?_, hs'⟩
        have hfoff : u32 (u32 objBase + f.offset) = objBase + f.offset := by unfold u32; omega
        rw [Globals.serializeFields, if_neg (by rw [hp]; exact Bool.false_ne_true)]
        simp only [hfoff, bind, Except.bind]
        rw [hs.getU32At, hx.args, hm]
        simp only
        rw [hc₁]
        exact hc'

/-- The head of an object record, and the body behind it. -/
theorem objectHead_sim (hp : p % 8 = 0) {a : ℕ} {i : ClassInfo} {b : RWBuffer} {c : Outbuf}
    (hh : i.headerSize % 4 = 0 ∧ i.headerSize < 2 ^ 8) (hal : b.off % 8 = 0) (ha : Placed a)
    (hlt : p + (b.off + 8 + i.objectBodySize) ≤ 2 ^ 63) (hs : Sim w.heap p c b) :
    Sim w.heap p ((c.putU16 (i.id % 65536).toNat).putU16 objectFlag).fillNextAlign8
        ((b.put (leInt16 i.id)).put (le 2 objectFlag)).fillNextAlign8 ∧
      ((b.put (leInt16 i.id)).put (le 2 objectFlag)).fillNextAlign8.off = b.off + 8 ∧
      Sim w.heap p
        (((c.putU16 (i.id % 65536).toNat).putU16 objectFlag).fillNextAlign8.put (h2d (a + i.headerSize)) i.objectBodySize)
        (((b.put (leInt16 i.id)).put (le 2 objectFlag)).fillNextAlign8.put
          (read w.heap.mem (a + i.headerSize) i.objectBodySize)) := by
  have halign : upperAlign (b.off + 4) 8 = b.off + 8 := by unfold upperAlign; omega
  have hs₁ := (hs.putId i.id (by omega)).putU16 objectFlag (by rw [RWBuffer.off_put, length_leInt16]; omega)
  have hoff₁ : ((b.put (leInt16 i.id)).put (le 2 objectFlag)).off = b.off + 4 := by
    rw [RWBuffer.off_put, RWBuffer.off_put, length_leInt16, length_le]
  have hs₂ := hs₁.fillNextAlign8 hp (by rw [hoff₁, halign]; omega)
  have hoff₂ : ((b.put (leInt16 i.id)).put (le 2 objectFlag)).fillNextAlign8.off = b.off + 8 := by
    rw [RWBuffer.off_fillNextAlign8, hoff₁, halign]
  refine ⟨hs₂, hoff₂, ?_⟩
  rw [h2d_eq (by have := ha.2; omega)]
  exact hs₂.put _ _ hp (by omega) (by have := ha.1; omega) (by rw [hoff₂]; omega)

/-- The object case. -/
theorem doSerializeObject_sim (hl : w.r.Slotted) (hx : Exports g w) (hp : p % 8 = 0) {a : ℕ} {i : ClassInfo}
    {ms : List Tree} {b b' : RWBuffer} {c : Outbuf} (hwalk : ∀ t ∈ ms, w.WalksAs recH t)
    (hsim : ∀ t ∈ ms, SimAs w p recH recK t) (hi : i.Slotted) (hh : i.headerSize % 4 = 0 ∧ i.headerSize < 2 ^ 8)
    (hal : b.off % 8 = 0) (ha : Placed a)
    (hu : UnfoldsAll w.heap w.r (i.refFields.map fun f => w.heap.referenceAt a (i.headerSize + f.offset)) ms)
    (hat : AllAtAll Placed w.heap (i.refFields.map fun f => w.heap.referenceAt a (i.headerSize + f.offset)) ms)
    (hslot : ∀ f ∈ i.refFields, b.off + 8 + f.offset < 2 ^ 32)
    (hbelow : SlotsBelowAll w.o w.simdutf (b.off + 8 + i.objectBodySize) ms)
    (hend : p + endAll w.o w.simdutf (b.off + 8 + i.objectBodySize) ms ≤ 2 ^ 63)
    (hrun : w.doWalkObject recH a i b = .ok b') (hs : Sim w.heap p c b) :
    ∃ c', g.doSerializeObject recK a i c = .ok c' ∧ Sim w.heap p c' b' := by
  have hle := le_endAll w.o w.simdutf ms (b.off + 8 + i.objectBodySize)
  obtain ⟨hs₂, hoff₂, hs₃⟩ := objectHead_sim (w := w) (a := a) (i := i) hp hh hal ha (by omega) hs
  have hrun' : w.walkFields recH ((b.put (leInt16 i.id)).put (le 2 objectFlag)).fillNextAlign8.off i.fields
      (((b.put (leInt16 i.id)).put (le 2 objectFlag)).fillNextAlign8.put
        (read w.heap.mem (a + i.headerSize) i.objectBodySize)) = .ok b' := hrun
  rw [Globals.doSerializeObject]
  simp only [hs₂.curOff]
  generalize ((b.put (leInt16 i.id)).put (le 2 objectFlag)).fillNextAlign8 = b₂ at hoff₂ hs₂ hs₃ hrun' ⊢
  have hoff₃ : (b₂.put (read w.heap.mem (a + i.headerSize) i.objectBodySize)).off = b.off + 8 + i.objectBodySize := by
    rw [RWBuffer.off_put, length_read, hoff₂]
  have hrefs : i.refFields.map (fun f => w.heap.args.parseHeapCptr
        ((b₂.put (read w.heap.mem (a + i.headerSize) i.objectBodySize)).getAt 4 (b₂.off + f.offset))) =
      i.refFields.map fun f => w.heap.referenceAt a (i.headerSize + f.offset) := by
    refine List.map_congr_left fun f hf => ?_
    obtain ⟨hf₁, hf₂⟩ := List.mem_filter.mp hf
    have hin := hi.inside f hf₁ hf₂
    rw [RWBuffer.getAt, RWBuffer.put, read_write_inside (by rw [length_read]; exact hin), slice_read hin,
      Heap.referenceAt, Heap.raw, Nat.add_assoc]
  refine serializeFields_sim hl hx hwalk hsim hi.typed (fun f hf hr => ?_) (fun f hf hr => ?_) hi.apart
    (by rw [← ClassInfo.refFields, hrefs]; exact hu) (by rw [← ClassInfo.refFields, hrefs]; exact hat)
    (by rw [hoff₃]; exact hbelow) (by rw [hoff₃]; exact hend) hrun' hs₃
  · have hin := hi.inside f hf hr
    rw [hoff₃, hoff₂]
    omega
  · rw [hoff₂]
    exact hslot f (List.mem_filter.mpr ⟨hf, hr⟩)

/-- The head of an array record. -/
theorem arrayHead_sim (hp : p % 8 = 0) {i : ClassInfo} (n : ℕ) {b : RWBuffer} {c : Outbuf} (hal : b.off % 8 = 0)
    (hlt : p + b.off + 8 ≤ 2 ^ 63) (hs : Sim w.heap p c b) :
    Sim w.heap p (((c.putU16 (i.id % 65536).toNat).putU16 arrayFlag).putU32 n).fillNextAlign8
        (((b.put (leInt16 i.id)).put (le 2 arrayFlag)).put (le 4 n)).fillNextAlign8 ∧
      (((b.put (leInt16 i.id)).put (le 2 arrayFlag)).put (le 4 n)).fillNextAlign8.off = b.off + 8 := by
  have hoff : (((b.put (leInt16 i.id)).put (le 2 arrayFlag)).put (le 4 n)).off = b.off + 8 := by
    simp only [RWBuffer.off_put, length_leInt16, length_le]
  have halign : upperAlign (b.off + 8) 8 = b.off + 8 := upperAlign_of_mod (by omega)
  refine ⟨?_, by rw [RWBuffer.off_fillNextAlign8, hoff, halign]⟩
  have hs₁ := (hs.putId i.id (by omega)).putU16 arrayFlag (by rw [RWBuffer.off_put, length_leInt16]; omega)
  have hs₂ := hs₁.putU32 n (by simp only [RWBuffer.off_put, length_leInt16, length_le]; omega)
  exact hs₂.fillNextAlign8 hp (by rw [hoff, halign]; omega)

theorem doSerializeArray_of_refs (recK : Globals.Recur) {a n : ℕ} {i : ClassInfo} {f : FieldInfo} {c : Outbuf}
    (hlen : getArrayLength c.mem (h2d a) i.headerSize = n) (hf : i.elem = .ok f) (href : f.type.isReference = true) :
    g.doSerializeArray recK a i c = g.serializeElems recK (h2d a) i.headerSize f.id n 0
      (((c.putU16 (i.id % 65536).toNat).putU16 arrayFlag).putU32 n).fillNextAlign8 := by
  simp only [Globals.doSerializeArray, hlen, hf, bind, Except.bind, if_pos href]

/-- An array of references. -/
theorem doSerializeArray_sim_refs (hl : w.r.Slotted) (hx : Exports g w) (hp : p % 8 = 0) {a : ℕ} {i : ClassInfo}
    {f : FieldInfo} {es : List Tree} {b b' : RWBuffer} {c : Outbuf} (hwalk : ∀ t ∈ es, w.WalksAs recH t)
    (hsim : ∀ t ∈ es, SimAs w p recH recK t) (hal : b.off % 8 = 0) (ha : a < 2 ^ 63) (hf : i.elem = .ok f)
    (href : f.type.isReference = true)
    (hu : UnfoldsAll w.heap w.r ((List.range (w.heap.arrayLength a i.headerSize)).map
      (w.heap.arrayElemRef a i.headerSize)) es)
    (hat : AllAtAll Placed w.heap ((List.range (w.heap.arrayLength a i.headerSize)).map
      (w.heap.arrayElemRef a i.headerSize)) es)
    (hbelow : SlotsBelowAll w.o w.simdutf (b.off + 8) es) (hend : p + endAll w.o w.simdutf (b.off + 8) es ≤ 2 ^ 63)
    (hrun : w.doWalkArray recH a i b = .ok b') (hs : Sim w.heap p c b) :
    ∃ c', g.doSerializeArray recK a i c = .ok c' ∧ Sim w.heap p c' b' := by
  have hle := le_endAll w.o w.simdutf es (b.off + 8)
  have hlen : getArrayLength c.mem (h2d a) i.headerSize = w.heap.arrayLength a i.headerSize := hs.sees.parseU32At ha _
  obtain ⟨hs₁, hoff⟩ := arrayHead_sim (i := i) hp (w.heap.arrayLength a i.headerSize) hal (by omega) hs
  rw [List.range_eq_range'] at hu hat
  simp only [ObjectWalker.doWalkArray, hf, bind, Except.bind, if_pos href] at hrun
  rw [doSerializeArray_of_refs recK hlen hf href]
  rw [← hoff] at hbelow hend
  exact serializeElems_sim hl hx f.id ha hwalk hsim hu hat hbelow hend hrun hs₁

/-- An array of primitive values. -/
theorem doSerializeArray_sim_prims (g : Globals) (recK : Globals.Recur) (hp : p % 8 = 0)
    (hutf : w.o.enableUtf16ToUtf8 = false) {a : ℕ} {i : ClassInfo} {f : FieldInfo} {b b' : RWBuffer} {c : Outbuf} (hal : b.off % 8 = 0) (ha : Placed a)
    (hh : i.headerSize % 4 = 0 ∧ i.headerSize < 2 ^ 8) (hf : i.elem = .ok f) (hprim : f.type.isPrimitive = true)
    (hend : p + b.off + 8 + ClassInfo.arrayBodySize f.type (w.heap.arrayLength a i.headerSize) ≤ 2 ^ 63)
    (hrun : w.doWalkArray recH a i b = .ok b') (hs : Sim w.heap p c b) :
    ∃ c', g.doSerializeArray recK a i c = .ok c' ∧ Sim w.heap p c' b' := by
  have hnref : ¬ f.type.isReference = true := fun hr => by
    rw [BasicType.not_isPrimitive_of_isReference hr] at hprim
    cases hprim
  have hnutf : ¬ (f.type = .char ∧ w.o.enableUtf16ToUtf8 = true) := fun h => absurd (hutf.symm.trans h.2) Bool.false_ne_true
  have ha' : a < 2 ^ 63 := by have := ha.2; omega
  have hlen : getArrayLength c.mem (h2d a) i.headerSize = w.heap.arrayLength a i.headerSize := hs.sees.parseU32At ha' _
  obtain ⟨hs₁, hoff⟩ := arrayHead_sim (i := i) hp (w.heap.arrayLength a i.headerSize) hal (by omega) hs
  simp only [ObjectWalker.doWalkArray, hf, bind, Except.bind, if_neg hnref, if_pos hprim, if_neg hnutf] at hrun
  obtain rfl := Except.ok.inj hrun
  simp only [Globals.doSerializeArray, hlen, hf, bind, Except.bind, if_neg hnref, if_pos hprim]
  refine ⟨_, rfl, ?_⟩
  rw [h2d_eq ha', Nat.add_assoc]
  exact hs₁.put _ _ hp (by omega) (by have := ha.1; omega) (by rw [hoff]; exact hend)

/-- The null case. -/
theorem recurStep_null_sim (g : Globals) (recK : Globals.Recur) (hp : p % 8 = 0) (eid : ℤ) {b : RWBuffer} {c : Outbuf}
    (hlt : p + (b.fillNextAlign8.off + 4) ≤ 2 ^ 63) (hs : Sim w.heap p c b) :
    ∃ c', g.recurStep recK 0 eid c = .ok (u32 b.fillNextAlign8.off, c') ∧
      Sim w.heap p c' ((b.fillNextAlign8.put (leInt16 eid)).put (le 2 nullFlag)) := by
  have hs₁ := hs.fillNextAlign8 hp (by rw [RWBuffer.off_fillNextAlign8] at hlt; omega)
  refine ⟨_, ?_, (hs₁.putId eid (by omega)).putU16 nullFlag (by rw [RWBuffer.off_put, length_leInt16]; omega)⟩
  rw [Globals.recurStep]
  simp only [if_true, hs₁.curOff]

/-- The other cases begin with the class of the object. -/
theorem recurStep_of_class (hx : Exports g w) {a : ℕ} {i : ClassInfo} (eid : ℤ) {b : RWBuffer} {c : Outbuf}
    (hne : a ≠ 0) (ha : a < 2 ^ 63) (hc : w.heap.classOf w.r a = some i) (hs : Sim w.heap p c.fillNextAlign8 b) :
    g.recurStep recK a eid c =
      if i.isEnum then .ok (u32 b.off, ((c.fillNextAlign8.putU16 (i.id % 65536).toNat).putU16 (enumFlag + objectFlag)).putU32
        (w.heap.enumOrdinal a))
      else if i.isObject then (g.doSerializeObject recK a i c.fillNextAlign8).map (u32 b.off, ·)
      else if i.isArray then (g.doSerializeArray recK a i c.fillNextAlign8).map (u32 b.off, ·)
      else .ok (u32 b.off, c.fillNextAlign8) := by
  obtain ⟨k, hk, hi⟩ := Heap.classOf_eq_some hc
  have hord : getEnumOrdinal c.fillNextAlign8.mem (h2d a) = w.heap.enumOrdinal a := hs.sees.parseU32At ha _
  have hk' : g.getKlassPointer c.fillNextAlign8.mem (h2d a) = .ok k := by
    rw [Globals.getKlassPointer, hs.sees.parseU32At ha, hx.args]
    exact hk
  rw [Globals.recurStep]
  simp only [if_neg hne, hk', hx.getClassInfoByKlass hi, bind, Except.bind, hs.curOff, hord, pure, Except.pure]
  split_ifs
  · rfl
  · cases g.doSerializeObject recK a i c.fillNextAlign8 <;> rfl
  · cases g.doSerializeArray recK a i c.fillNextAlign8 <;> rfl
  · rfl

/-- **The kernel follows the walker** on every object whose graph unfolds to a tree with all its reference slots
below offset 2^32. -/
theorem recur_sim (hl : w.r.Slotted) (hx : Exports g w) (hutf : w.o.enableUtf16ToUtf8 = false) (hp : p % 8 = 0)
    {fuel : ℕ} {t : Tree} (hh : HeadersBy4 t) (ht : t.height < fuel) :
    SimAs w p (w.walk fuel) (g.doSerializeRecur fuel) t := by
  induction fuel generalizing t with
  | zero => exact absurd ht (Nat.not_lt_zero _)
  | succ fuel ih =>
    have hwalk : ∀ ts : List Tree, heightAll ts < fuel → ∀ t ∈ ts, w.WalksAs (w.walk fuel) t :=
      fun ts hts t ht => ObjectWalker.walk_emits hl ((height_le_heightAll ht).trans_lt hts)
    have hsim : ∀ ts : List Tree, (∀ t ∈ ts, HeadersBy4 t) → heightAll ts < fuel →
        ∀ t ∈ ts, SimAs w p (w.walk fuel) (g.doSerializeRecur fuel) t :=
      fun ts hhs hts t ht => ih (hhs t ht) ((height_le_heightAll ht).trans_lt hts)
    intro a eid b base b' c hu hat hbelow hend hrun hs
    have hstart := le_endOff w.o w.simdutf t b.off
    have hs₁ := hs.fillNextAlign8 hp (by omega)
    have hoff : b.fillNextAlign8.off = upperAlign b.off 8 := RWBuffer.off_fillNextAlign8 b
    have hal : b.fillNextAlign8.off % 8 = 0 := by rw [hoff]; exact upperAlign_mod _
    rw [← hoff] at hstart
    rw [ObjectWalker.walk] at hrun
    rw [Globals.doSerializeRecur]
    cases t with
    | null =>
      simp only [Unfolds] at hu
      subst hu
      cases hrun
      exact recurStep_null_sim g _ hp eid (by omega) hs
    | enumConst i ordinal =>
      simp only [Unfolds] at hu
      obtain ⟨hne, hc, he, -, -⟩ := hu
      rw [endOff, ← hoff] at hend
      rw [ObjectWalker.walkStep_of_class _ eid b hne hc, if_pos he] at hrun
      cases hrun
      rw [recurStep_of_class hx eid hne (by have := hat.2; omega) hc hs₁, if_pos he]
      refine ⟨_, rfl, ?_⟩
      have hs₂ := (hs₁.putId i.id (by omega)).putU16 (enumFlag + objectFlag)
        (by rw [RWBuffer.off_put, length_leInt16]; omega)
      exact hs₂.putU32 (w.heap.enumOrdinal a) (by simp only [RWBuffer.off_put, length_leInt16, length_le]; omega)
    | object i body ms =>
      simp only [Unfolds] at hu
      obtain ⟨hne, hc, he, ho, hbody, hms⟩ := hu
      obtain ⟨k, -, hi⟩ := Heap.classOf_eq_some hc
      simp only [AllAt] at hat
      have hslot := hl k i hi he ho
      have hlen : body.length = i.objectBodySize := by
        rw [hbody]
        exact hslot.length_body w.heap a
      rw [endOff, hlen, ← hoff] at hend
      simp only [SlotsBelow] at hbelow
      rw [hlen, ← hoff] at hbelow
      have hms' : heightAll ms < fuel := by rw [Serde.Tree.height] at ht; omega
      rw [ObjectWalker.walkStep_of_class _ eid b hne hc, if_neg (Bool.eq_false_iff.mp he), if_pos ho] at hrun
      obtain ⟨b₂, hw, heq⟩ := map_eq_ok hrun
      cases heq
      rw [recurStep_of_class hx eid hne (by have := hat.1.2; omega) hc hs₁, if_neg (Bool.eq_false_iff.mp he), if_pos ho]
      obtain ⟨c₂, hc₂, hs₂⟩ := doSerializeObject_sim hl hx hp (hwalk ms hms') (hsim ms hh.members hms') hslot
        (hh i List.mem_cons_self) hal hat.1 hms hat.2 hbelow.1 hbelow.2 hend hw hs₁
      exact ⟨c₂, by rw [hc₂]; rfl, hs₂⟩
    | refArray i es =>
      simp only [Unfolds] at hu
      obtain ⟨hne, hc, he, harr, ⟨f, hf, href⟩, -, hes⟩ := hu
      simp only [AllAt] at hat
      have ha' : a < 2 ^ 63 := by have := hat.1.2; omega
      have hno := Bool.eq_false_iff.mp (ClassInfo.isObject_of_isArray harr)
      rw [endOff, ← hoff] at hend
      simp only [SlotsBelow] at hbelow
      rw [← hoff] at hbelow
      have hes' : heightAll es < fuel := by rw [Serde.Tree.height] at ht; omega
      rw [ObjectWalker.walkStep_of_class _ eid b hne hc, if_neg (Bool.eq_false_iff.mp he), if_neg hno, if_pos harr] at hrun
      obtain ⟨b₂, hw, heq⟩ := map_eq_ok hrun
      cases heq
      rw [recurStep_of_class hx eid hne ha' hc hs₁, if_neg (Bool.eq_false_iff.mp he), if_neg hno, if_pos harr]
      obtain ⟨c₂, hc₂, hs₂⟩ := doSerializeArray_sim_refs hl hx hp (hwalk es hes') (hsim es hh.elements hes') hal ha' hf href hes
        hat.2 hbelow hend hw hs₁
      exact ⟨c₂, by rw [hc₂]; rfl, hs₂⟩
    | primArray i n contents =>
      simp only [Unfolds] at hu
      obtain ⟨hne, hc, he, harr, -, hn, f, hf, hprim, hcont⟩ := hu
      obtain ⟨k, -, hi⟩ := Heap.classOf_eq_some hc
      simp only [AllAt] at hat
      have hno := Bool.eq_false_iff.mp (ClassInfo.isObject_of_isArray harr)
      have hnutf : ¬ (f.type = .char ∧ w.o.enableUtf16ToUtf8 = true) :=
        fun h => absurd (hutf.symm.trans h.2) Bool.false_ne_true
      have hlen : (encodeContents w.o w.simdutf f.type n contents).length = ClassInfo.arrayBodySize f.type n := by
        rw [encodeContents, if_neg hnutf, hcont, List.length_take, Heap.length_raw]
        exact Nat.min_eq_left (u32_le _)
      rw [endOff, ← hoff, (ClassInfo.elem_ok hf).1, hlen, hn] at hend
      rw [ObjectWalker.walkStep_of_class _ eid b hne hc, if_neg (Bool.eq_false_iff.mp he), if_neg hno, if_pos harr] at hrun
      obtain ⟨b₂, hw, heq⟩ := map_eq_ok hrun
      cases heq
      rw [recurStep_of_class hx eid hne (by have := hat.2; omega) hc hs₁, if_neg (Bool.eq_false_iff.mp he), if_neg hno,
        if_pos harr]
      obtain ⟨c₂, hc₂, hs₂⟩ := doSerializeArray_sim_prims g (g.doSerializeRecur fuel) hp hutf hal hat
        (hh i (List.mem_singleton.mpr rfl)) hf hprim (by omega) hw hs₁
      exact ⟨c₂, by rw [hc₂]; rfl, hs₂⟩

end

/-- The buffer as `do_serialize` sets it up: at `p`, with the cursor behind the header. -/
def outbufAt (mem : Mem) (p : ℕ) : Outbuf := ⟨mem, p, p + objectDataOffset⟩

/-- `_do_serialize` and `walk` produce the same total length and the same bytes. -/
def SameOutput (g : Globals) (w : ObjectWalker) (fuel a p : ℕ) (mem out : Mem) : Prop :=
  ∃ total c m, g.doSerialize fuel a (outbufAt mem p) = .ok (total, c) ∧ w.walkRoot fuel a out = .ok (total, m) ∧
    read c.mem p total = read m 0 total

/-- What the kernel leaves at `p`: the total length, then the encoding of the tree. -/
theorem doSerialize_emits {g : Globals} {w : ObjectWalker} (hl : w.r.Slotted) (hx : Exports g w)
    (hutf : w.o.enableUtf16ToUtf8 = false) {t : Tree} (hh : HeadersBy4 t) {a fuel p : ℕ} {mem : Mem} (hp : p % 8 = 0)
    (hsees : Sees w.heap mem) (hu : Unfolds w.heap w.r a t) (hat : AllAt Placed w.heap a t) (hf : t.height < fuel)
    (hfits : p + endOff w.o w.simdutf 8 t ≤ 2 ^ 63) (hslots : SlotsBelow w.o w.simdutf 8 t) :
    ∃ c, g.doSerialize fuel a (outbufAt mem p) = .ok (8 + (encode w.o w.simdutf 8 unregisteredClassId t).length, c) ∧
      read c.mem p (8 + (encode w.o w.simdutf 8 unregisteredClassId t).length) =
        le 8 (8 + (encode w.o w.simdutf 8 unregisteredClassId t).length) ++
          encode w.o w.simdutf 8 unregisteredClassId t := by
  -- the walker, run over what the device's buffer holds
  obtain ⟨b', hb', hem⟩ := ObjectWalker.walk_emits hl hf a unregisteredClassId
    (RWBuffer.skip ⟨fun x => mem (p + x), 0⟩ objectDataOffset) hu
  have hs : Sim w.heap p (outbufAt mem p) (RWBuffer.skip ⟨fun x => mem (p + x), 0⟩ objectDataOffset) :=
    ⟨rfl, rfl, fun _ => rfl, hsees⟩
  obtain ⟨c', hc', hs'⟩ := recur_sim hl hx hutf hp hh hf a unregisteredClassId _ _ b' _ hu hat hslots hfits hb' hs
  have hoff : b'.off = 8 + (encode w.o w.simdutf 8 unregisteredClassId t).length := hem.off
  have htotal : c'.curP - c'.p = b'.off := by rw [hs'.cur, hs'.base, Nat.add_sub_cancel_left]
  rw [← hoff]
  refine ⟨{ c' with mem := write c'.mem c'.p (le 8 (c'.curP - c'.p)) }, ?_, ?_⟩
  · rw [Globals.doSerialize, hc']
    simp only [bind, Except.bind, htotal]
    rfl
  · rw [htotal]
    simp only
    have hhead : read (write c'.mem p (le 8 b'.off)) p 8 = le 8 b'.off := by
      have hself := read_write_self c'.mem p (le 8 b'.off)
      rwa [length_le] at hself
    have hbody : read (write c'.mem p (le 8 b'.off)) (p + 8) (encode w.o w.simdutf 8 unregisteredClassId t).length =
        encode w.o w.simdutf 8 unregisteredClassId t := by
      rw [read_write_right (by rw [length_le])]
      have hview : read c'.mem (p + 8) (encode w.o w.simdutf 8 unregisteredClassId t).length =
          read b'.data 8 (encode w.o w.simdutf 8 unregisteredClassId t).length :=
        read_eq_iff.mpr fun i _ => by rw [Nat.add_assoc, hs'.data]
      rw [hview]
      exact hem.read_all
    rw [hs'.base]
    have hsplit := read_add (write c'.mem p (le 8 b'.off)) p 8 (encode w.o w.simdutf 8 unregisteredClassId t).length
    rw [hhead, hbody, ← hoff] at hsplit
    exact hsplit

/-- **The kernel refines the walker**: on every graph whose reference slots lie below offset 2^32 of the output. -/
theorem doSerialize_eq_walk (g : Globals) (w : ObjectWalker) (hl : w.r.Slotted) (hx : Exports g w)
    (hutf : w.o.enableUtf16ToUtf8 = false) (t : Tree) (hh : HeadersBy4 t) (a fuel p : ℕ) (mem out : Mem) (hp : p % 8 = 0)
    (hsees : Sees w.heap mem) (hu : Unfolds w.heap w.r a t) (hat : AllAt Placed w.heap a t) (hf : t.height < fuel)
    (hfits : p + endOff w.o w.simdutf 8 t ≤ 2 ^ 63) (hslots : SlotsBelow w.o w.simdutf 8 t) :
    SameOutput g w fuel a p mem out := by
  obtain ⟨c, hc, hread⟩ := doSerialize_emits hl hx hutf hh hp hsees hu hat hf hfits hslots
  obtain ⟨m, hm, hread'⟩ := ObjectWalker.walkRoot_emits hl hf hu out
  exact ⟨_, c, m, hc, hm, hread.trans hread'.symm⟩

/-! ### Two graphs -/

open ObjectWalker (sampleEnum sampleEnumArray samplePair sampleResolver sampleHeap noSimdutf sampleTree
  sampleResolver_slotted)

/-- The sample registry, exported. -/
def sampleGlobals : Globals := ⟨[sampleEnum, sampleEnumArray, samplePair], ⟨0, .zeroBased, 0, 0, .zeroBased, 0⟩⟩

/-- A device's memory with the heap in its window, and `v` everywhere else. -/
def deviceMem (h : Heap) (v : UInt8) : Mem := fun x => if 2 ^ 63 ≤ x then h.mem (x - 2 ^ 63) else v

theorem deviceMem_sees (h : Heap) (v : UInt8) : Sees h (deviceMem h v) := fun x => by
  rw [deviceMem, if_pos (Nat.le_add_right ..), Nat.add_sub_cancel_left]

/-- The sample graph is serialized alike. -/
theorem doSerialize_eq_walk_sample :
    SameOutput sampleGlobals ⟨sampleHeap 0, sampleResolver, ⟨false⟩, noSimdutf⟩ 2 104 4096
      (deviceMem (sampleHeap 0) 255) fun _ => 0 := by
  have hu : Unfolds (sampleHeap 0) sampleResolver 104 sampleTree := by
    simp only [sampleTree, Unfolds, UnfoldsAll]
    exact ⟨by decide, by decide, by decide, by decide, by decide, 64, [], by decide,
      ⟨by decide, by decide, by decide, by decide, ⟨64, 7⟩, by decide⟩, rfl⟩
  have hat : AllAt Placed (sampleHeap 0) 104 sampleTree := by
    simp only [sampleTree, AllAt, AllAtAll]
    refine ⟨⟨by decide, by decide⟩, fun a refs h => ?_⟩
    have h64 : (samplePair.refFields.map fun f => (sampleHeap 0).referenceAt 104 (samplePair.headerSize + f.offset)) =
        [.ok 64] := by decide
    rw [h64] at h
    cases h
    exact ⟨⟨by decide, by decide⟩, trivial⟩
  have hh : HeadersBy4 sampleTree := by
    intro i hi
    simp only [sampleTree, Serde.Tree.infos, infosAll, List.mem_cons, List.mem_append, List.not_mem_nil, or_false] at hi
    rcases hi with rfl | rfl <;> exact ⟨by decide, by decide⟩
  exact doSerialize_eq_walk sampleGlobals ⟨sampleHeap 0, sampleResolver, ⟨false⟩, noSimdutf⟩ sampleResolver_slotted
    ⟨rfl, by decide, by unfold SortedBy; decide, by decide⟩ rfl sampleTree hh 104 2 4096 _ _ rfl
    (deviceMem_sees _ _) hu hat (by decide) (by decide) (by simp only [sampleTree, SlotsBelow, SlotsBelowAll]; decide)

/-- The class info of `long[]`. -/
def bigLongs : ClassInfo :=
  { klass := 1000, id := 20, enumRefArrOff := 0, objSize := 16, headerSize := 16, nStaticField := 0, dim := 1,
    signature := sym "[J", fields := [⟨-1, 0, .long, 0, 0⟩], enums := [] }

/-- The class info of a class `B` with one field, an `Object`. -/
def bigBox : ClassInfo :=
  { klass := 2000, id := 21, enumRefArrOff := 0, objSize := 16, headerSize := 12, nStaticField := 0, dim := 0,
    signature := sym "LB;", fields := [⟨22, 0, .object, 0, 3⟩], enums := [] }

/-- The class info of `Object`, which is registered with `Object[]`: it has no field, so its `header_size` is 255. -/
def bigObject : ClassInfo :=
  { klass := 2500, id := 22, enumRefArrOff := 0, objSize := 16, headerSize := 255, nStaticField := 0, dim := 0,
    signature := sym "Ljava/lang/Object;", fields := [], enums := [] }

/-- The class info of `Object[]`. -/
def bigObjects : ClassInfo :=
  { klass := 3000, id := 23, enumRefArrOff := 0, objSize := 16, headerSize := 16, nStaticField := 0, dim := 1,
    signature := sym "[Ljava/lang/Object;", fields := [⟨22, 0, .object, 0, 0⟩], enums := [] }

/-- The number of longs: the body of what follows them starts at offset 2^32. -/
def bigLength : ℕ := 2 ^ 29 - 4

/-- A heap with an `Object[]` of two at `64`: a `long[]` of zeros at `96`, and at 2^33 a `B` that refers to it. -/
def bigHeap : Heap :=
  { mem := fun x =>
      if x < 2 ^ 33 then
        (le 8 1 ++ le 4 3000 ++ le 4 2 ++ le 4 12 ++ le 4 (2 ^ 30) ++ le 8 0 ++
          (le 8 1 ++ le 4 1000 ++ le 4 bigLength)).getD (x - 64) 0
      else (le 8 1 ++ le 4 2000 ++ le 4 12).getD (x - 2 ^ 33) 0
    args := ⟨0, .zeroBased, 3, 0, .zeroBased, 0⟩ }

/-- A walker over it, after `long[]`, `B` and `Object[]` were registered in this order. -/
def bigWalker : ObjectWalker :=
  { heap := bigHeap
    r :=
      { infos := [bigLongs, bigBox, bigObjects, bigObject], infoById := [0, 1, 3, 2], infoByKlass := [0, 1, 3, 2],
        sig2id := [bigLongs, bigBox, bigObject, bigObjects].map fun i => (i.signature, i.id), unresolved := [] }
    o := ⟨false⟩, simdutf := noSimdutf }

/-- What it exports. -/
def bigGlobals : Globals := ⟨[bigLongs, bigBox, bigObject, bigObjects], bigHeap.args⟩

/-- The tree of the longs. -/
def bigLongsTree : Tree := .primArray bigLongs bigLength (bigHeap.raw 96 16 (bigLength * 8))

/-- The tree of the `B`. -/
def bigBoxTree : Tree := .object bigBox (le 4 0) [bigLongsTree]

/-- The tree of the array. -/
def bigTree : Tree := .refArray bigObjects [bigLongsTree, bigBoxTree]

theorem bigLongs_unfolds : Unfolds bigHeap bigWalker.r 96 bigLongsTree := by
  simp only [bigLongsTree, Unfolds]
  exact ⟨by decide, by decide, by decide, by decide, by decide, by decide, ⟨-1, 0, .long, 0, 0⟩, rfl, by decide, rfl⟩

theorem bigBox_unfolds : Unfolds bigHeap bigWalker.r (2 ^ 33) bigBoxTree := by
  simp only [bigBoxTree, Unfolds, UnfoldsAll]
  exact ⟨by decide, by decide, by decide, by decide, by decide, 96, [], by decide, bigLongs_unfolds, rfl⟩

theorem bigTree_unfolds : Unfolds bigHeap bigWalker.r 64 bigTree := by
  simp only [bigTree, Unfolds, UnfoldsAll]
  exact ⟨by decide, by decide, by decide, by decide, ⟨⟨22, 0, .object, 0, 0⟩, rfl, by decide⟩, by decide, 96, [.ok (2 ^ 33)],
    by decide, bigLongs_unfolds, 2 ^ 33, [], rfl, bigBox_unfolds, rfl⟩

theorem bigWalker_slotted : bigWalker.r.Slotted := by
  intro k i hi he ho
  have hm := ClassResolver.mem_of_getByKlass hi
  simp only [bigWalker, List.mem_cons, List.not_mem_nil, or_false] at hm
  rcases hm with rfl | rfl | rfl | rfl
  · cases ho
  · exact ⟨by decide, by decide, by decide⟩
  · cases ho
  · exact ⟨by decide, by decide, by decide⟩

theorem bigGlobals_exports : Exports bigGlobals bigWalker :=
  ⟨rfl, by decide, by unfold SortedBy; decide, by decide⟩

theorem bigLongs_headers : HeadersBy4 bigLongsTree := by
  intro i hi
  rw [List.mem_singleton.mp hi]
  exact ⟨by decide, by decide⟩

theorem bigTree_headers : HeadersBy4 bigTree := by
  intro i hi
  simp only [bigTree, bigBoxTree, bigLongsTree, Serde.Tree.infos, infosAll, List.mem_cons, List.mem_append, List.not_mem_nil,
    or_false] at hi
  rcases hi with rfl | rfl | rfl | rfl <;> exact ⟨by decide, by decide⟩

theorem bigLongs_placed : AllAt Placed bigHeap 96 bigLongsTree := by
  simp only [bigLongsTree, AllAt]
  exact ⟨by decide, by decide⟩

theorem bigLongs_height : bigLongsTree.height = 0 := by rw [bigLongsTree, Serde.Tree.height]

theorem bigTree_placed : AllAt Placed bigHeap 64 bigTree := by
  have hbox : AllAt Placed bigHeap (2 ^ 33) bigBoxTree := by
    simp only [bigBoxTree, AllAt, AllAtAll]
    refine ⟨⟨by decide, by decide⟩, fun a refs h => ?_⟩
    have hrefs : (bigBox.refFields.map fun f => bigHeap.referenceAt (2 ^ 33) (bigBox.headerSize + f.offset)) = [.ok 96] := by
      decide
    rw [hrefs] at h
    cases h
    exact ⟨bigLongs_placed, trivial⟩
  simp only [bigTree, AllAt, AllAtAll]
  refine ⟨⟨by decide, by decide⟩, fun a refs h => ?_⟩
  have hrefs : (List.range (bigHeap.arrayLength 64 bigObjects.headerSize)).map
      (bigHeap.arrayElemRef 64 bigObjects.headerSize) = [.ok 96, .ok (2 ^ 33)] := by decide
  rw [hrefs] at h
  cases h
  refine ⟨bigLongs_placed, fun a refs h => ?_⟩
  cases h
  exact ⟨hbox, trivial⟩

/-- Where the longs end. -/
theorem endOff_bigLongs (off : ℕ) : endOff bigWalker.o bigWalker.simdutf off bigLongsTree = upperAlign off 8 + (2 ^ 32 - 24) := by
  have hlen : (encodeContents bigWalker.o bigWalker.simdutf bigLongs.elemType bigLength
      (bigHeap.raw 96 16 (bigLength * 8))).length = 2 ^ 32 - 32 := by
    rw [encodeContents, if_neg (by decide), List.length_take, Heap.length_raw]
    decide
  rw [bigLongsTree, endOff, hlen]
  omega

/-- The kernel on the `B` behind the longs: the slot at offset 2^32 is looked for at offset `0`, where the header
will be, and what is found there is taken for a null. -/
theorem bigBox_recur {c : Outbuf} {b : RWBuffer} (hs : Sim bigHeap 4096 c b) (hoff : b.off = 2 ^ 32 - 8)
    (hzero : read b.data 0 4 = [0, 0, 0, 0]) (eid : ℤ) :
    ∃ base c' b', bigGlobals.doSerializeRecur 2 (2 ^ 33) eid c = .ok (base, c') ∧ Sim bigHeap 4096 c' b' ∧
      b'.off = 2 ^ 32 + 12 := by
  have hpad : upperAlign b.off 8 = 2 ^ 32 - 8 := by rw [hoff]; decide
  have hs₁ := hs.fillNextAlign8 (by decide) (by rw [hpad]; decide)
  have hoff₁ : b.fillNextAlign8.off = 2 ^ 32 - 8 := by rw [RWBuffer.off_fillNextAlign8, hpad]
  obtain ⟨hs₂, hoff₂, hs₃⟩ := objectHead_sim (w := bigWalker) (a := 2 ^ 33) (i := bigBox) (by decide)
    ⟨by decide, by decide⟩ (by rw [hoff₁]; decide) ⟨by decide, by decide⟩ (by rw [hoff₁]; decide) hs₁
  have hem := (((((RWBuffer.Emits.refl b).fillNextAlign8).put (leInt16 bigBox.id)).put (le 2 objectFlag)).fillNextAlign8).put
    (read bigHeap.mem (2 ^ 33 + bigBox.headerSize) bigBox.objectBodySize)
  have hobj : bigGlobals.doSerializeObject (bigGlobals.doSerializeRecur 1) (2 ^ 33) bigBox c.fillNextAlign8 =
      bigGlobals.serializeFields (bigGlobals.doSerializeRecur 1) 0 bigBox.fields
        (((c.fillNextAlign8.putU16 (bigBox.id % 65536).toNat).putU16 objectFlag).fillNextAlign8.put
          (h2d (2 ^ 33 + bigBox.headerSize)) bigBox.objectBodySize) := by
    have hcur : u32 (2 ^ 32 - 8 + 8) = 0 := by decide
    rw [Globals.doSerializeObject]
    simp only [hs₂.curOff, hoff₂, hoff₁, hcur]
  have hoff₃ : (((b.fillNextAlign8.put (leInt16 bigBox.id)).put (le 2 objectFlag)).fillNextAlign8.put
      (read bigWalker.heap.mem (2 ^ 33 + bigBox.headerSize) bigBox.objectBodySize)).off = 2 ^ 32 + 4 := by
    rw [RWBuffer.off_put, hoff₂, hoff₁, length_read]
    decide
  have hread := hem.read_before (a := 0) (n := 4) (by rw [hoff]; decide)
  rw [hzero] at hread
  change read (((b.fillNextAlign8.put (leInt16 bigBox.id)).put (le 2 objectFlag)).fillNextAlign8.put
      (read bigWalker.heap.mem (2 ^ 33 + bigBox.headerSize) bigBox.objectBodySize)).data 0 4 = _ at hread
  generalize ((b.fillNextAlign8.put (leInt16 bigBox.id)).put (le 2 objectFlag)).fillNextAlign8.put
    (read bigWalker.heap.mem (2 ^ 33 + bigBox.headerSize) bigBox.objectBodySize) = b₃ at hs₃ hoff₃ hread
  generalize ((c.fillNextAlign8.putU16 (bigBox.id % 65536).toNat).putU16 objectFlag).fillNextAlign8.put
    (h2d (2 ^ 33 + bigBox.headerSize)) bigBox.objectBodySize = c₃ at hs₃ hobj
  -- the member that the kernel finds is null
  have hmember : bigGlobals.jvmArgs.parseHeapCptr (c₃.getU32At 0) = .ok 0 := by
    rw [hs₃.getU32At, RWBuffer.getAt, hread]
    decide
  have hoff₄ : b₃.fillNextAlign8.off = 2 ^ 32 + 8 := by
    rw [RWBuffer.off_fillNextAlign8, hoff₃]
    decide
  obtain ⟨c₄, hc₄, hs₄⟩ := recurStep_null_sim bigGlobals (bigGlobals.doSerializeRecur 0) (by decide) 22
    (by rw [hoff₄]; decide) hs₃
  have hfields : bigGlobals.serializeFields (bigGlobals.doSerializeRecur 1) 0 bigBox.fields c₃ =
      .ok (c₄.putU32At (u32 b₃.fillNextAlign8.off) 0) := by
    have hlist : bigBox.fields = [⟨22, 0, .object, 0, 3⟩] := rfl
    have hfoff : u32 (0 + 0) = 0 := rfl
    rw [hlist, Globals.serializeFields, if_neg (by decide)]
    have hnull : bigGlobals.doSerializeRecur 1 0 22 c₃ = .ok (u32 b₃.fillNextAlign8.off, c₄) := hc₄
    simp only [hfoff, hmember, bind, Except.bind]
    rw [hnull]
    rfl
  refine ⟨u32 b.fillNextAlign8.off, c₄.putU32At (u32 b₃.fillNextAlign8.off) 0, _, ?_, hs₄.putU32At _ 0 (by decide), ?_⟩
  · rw [Globals.doSerializeRecur, recurStep_of_class (w := bigWalker) bigGlobals_exports eid (by decide) (by decide)
      (by decide : bigHeap.classOf bigWalker.r (2 ^ 33) = some bigBox) hs₁, if_neg (by decide), if_pos (by decide), hobj,
      hfields]
    rfl
  · change ((b₃.fillNextAlign8.put (leInt16 22)).put (le 2 nullFlag)).off = _
    rw [RWBuffer.off_put, RWBuffer.off_put, hoff₄]
    decide

/-- The total length that the kernel arrives at. -/
theorem bigTree_total :
    ∃ c, bigGlobals.doSerialize 3 64 (outbufAt (deviceMem bigHeap 0) 4096) = .ok (2 ^ 32 + 12, c) := by
  have hs : Sim bigHeap 4096 (outbufAt (deviceMem bigHeap 0) 4096)
      (RWBuffer.skip ⟨fun x => deviceMem bigHeap 0 (4096 + x), 0⟩ objectDataOffset) :=
    ⟨rfl, rfl, fun _ => rfl, deviceMem_sees bigHeap 0⟩
  have hzero : read (RWBuffer.skip ⟨fun x => deviceMem bigHeap 0 (4096 + x), 0⟩ objectDataOffset).data 0 4 = [0, 0, 0, 0] := by
    decide
  have hoff : (RWBuffer.skip ⟨fun x => deviceMem bigHeap 0 (4096 + x), 0⟩ objectDataOffset).off = 8 := rfl
  generalize RWBuffer.skip ⟨fun x => deviceMem bigHeap 0 (4096 + x), 0⟩ objectDataOffset = b at hs hzero hoff
  generalize outbufAt (deviceMem bigHeap 0) 4096 = c at hs
  have hpad : upperAlign b.off 8 = 8 := by rw [hoff]; decide
  have hs₁ := hs.fillNextAlign8 (by decide) (by rw [hpad]; decide)
  have hoff₁ : b.fillNextAlign8.off = 8 := by rw [RWBuffer.off_fillNextAlign8, hpad]
  have hlen : getArrayLength c.fillNextAlign8.mem (h2d 64) bigObjects.headerSize = 2 := by
    rw [getArrayLength, hs₁.sees.parseU32At (by decide)]
    decide
  obtain ⟨hs₂, hoff₂⟩ := arrayHead_sim (w := bigWalker) (i := bigObjects) (by decide) 2 (by rw [hoff₁])
    (by rw [hoff₁]; decide) hs₁
  have hem₂ := (((((RWBuffer.Emits.refl b).fillNextAlign8).put (leInt16 bigObjects.id)).put (le 2 arrayFlag)).put
    (le 4 2)).fillNextAlign8
  have harr := doSerializeArray_of_refs (g := bigGlobals) (bigGlobals.doSerializeRecur 2) hlen
    (rfl : bigObjects.elem = .ok ⟨22, 0, .object, 0, 0⟩) (by decide)
  rw [hoff₁] at hoff₂
  generalize (((b.fillNextAlign8.put (leInt16 bigObjects.id)).put (le 2 arrayFlag)).put (le 4 2)).fillNextAlign8 = b₂
    at hs₂ hoff₂ hem₂
  generalize (((c.fillNextAlign8.putU16 (bigObjects.id % 65536).toNat).putU16 arrayFlag).putU32 2).fillNextAlign8 = c₂
    at hs₂ harr
  -- the longs are written as the walker writes them
  obtain ⟨b₃, hb₃, hem₃⟩ := ObjectWalker.walk_emits bigWalker_slotted (t := bigLongsTree)
    (by rw [bigLongs_height]; exact Nat.zero_lt_two) 96 22 b₂ bigLongs_unfolds
  have hoff₃ : b₃.off = 2 ^ 32 - 8 := by
    rw [off_of_emits bigWalker_slotted bigLongs_unfolds hem₃, endOff_bigLongs, hoff₂]
    decide
  obtain ⟨c₃, hc₃, hs₃⟩ := recur_sim (g := bigGlobals) (p := 4096) bigWalker_slotted bigGlobals_exports rfl
    (by decide) bigLongs_headers (by rw [bigLongs_height]; exact Nat.zero_lt_two) 96 22 b₂ _ b₃ c₂ bigLongs_unfolds
    bigLongs_placed (by rw [bigLongsTree, SlotsBelow]; trivial) (by rw [endOff_bigLongs, hoff₂]; decide) hb₃ hs₂
  obtain ⟨base, c₄, b₄, hc₄, hs₄, hoff₄⟩ := bigBox_recur hs₃ hoff₃
    (by rw [(hem₂.trans hem₃).read_before (by rw [hoff]; decide), hzero]) 22
  have helem₀ : bigGlobals.jvmArgs.parseHeapCptr (getArrayElemCptr c₂.mem (h2d 64) bigObjects.headerSize 0) = .ok 96 := by
    rw [getArrayElemCptr, hs₂.sees.parseU32At (by decide)]
    decide
  have helem₁ : bigGlobals.jvmArgs.parseHeapCptr (getArrayElemCptr c₃.mem (h2d 64) bigObjects.headerSize 1) =
      .ok (2 ^ 33) := by
    rw [getArrayElemCptr, hs₃.sees.parseU32At (by decide)]
    decide
  have hloop : bigGlobals.serializeElems (bigGlobals.doSerializeRecur 2) (h2d 64) bigObjects.headerSize 22 2 0 c₂ =
      .ok c₄ := (serializeElems_succ helem₀ hc₃).trans (serializeElems_succ helem₁ hc₄)
  have hroot : bigGlobals.doSerializeRecur 3 64 unregisteredClassId c = .ok (u32 b.fillNextAlign8.off, c₄) := by
    rw [Globals.doSerializeRecur, recurStep_of_class (w := bigWalker) bigGlobals_exports _ (by decide) (by decide)
      (by decide : bigHeap.classOf bigWalker.r 64 = some bigObjects) hs₁, if_neg (by decide), if_neg (by decide),
      if_pos (by decide), harr, hloop]
    rfl
  have htotal : c₄.curP - c₄.p = 2 ^ 32 + 12 := by rw [hs₄.cur, hs₄.base, hoff₄, Nat.add_sub_cancel_left]
  refine ⟨{ c₄ with mem := write c₄.mem c₄.p (le 8 (c₄.curP - c₄.p)) }, ?_⟩
  rw [Globals.doSerialize, hroot]
  simp only [bind, Except.bind, htotal]
  rfl

theorem endOff_bigTree : endOff bigWalker.o bigWalker.simdutf 8 bigTree = 2 ^ 33 - 16 := by
  have hbody : (le 4 0).length = 4 := length_le ..
  rw [bigTree, endOff, endAll, endAll, endAll, endOff_bigLongs, bigBoxTree, endOff, endAll, endAll, endOff_bigLongs, hbody]
  decide

/-- A graph that fulfils everything but that its slots lie below offset 2^32: the kernel and the walker do not agree
on it. -/
theorem doSerialize_ne_walk :
    bigWalker.r.Slotted ∧ Exports bigGlobals bigWalker ∧ HeadersBy4 bigTree ∧ bigWalker.o.enableUtf16ToUtf8 = false ∧
      Sees bigWalker.heap (deviceMem bigHeap 0) ∧ Unfolds bigWalker.heap bigWalker.r 64 bigTree ∧
      AllAt Placed bigWalker.heap 64 bigTree ∧ bigTree.height < 3 ∧
      4096 + endOff bigWalker.o bigWalker.simdutf 8 bigTree ≤ 2 ^ 63 ∧
      ¬ SameOutput bigGlobals bigWalker 3 64 4096 (deviceMem bigHeap 0) fun _ => 0 := by
  have hheight : bigTree.height < 3 := by
    rw [bigTree, Serde.Tree.height, heightAll, heightAll, heightAll, bigLongs_height, bigBoxTree, Serde.Tree.height,
      heightAll, heightAll, bigLongs_height]
    decide
  refine ⟨bigWalker_slotted, bigGlobals_exports, bigTree_headers, rfl, deviceMem_sees _ _, bigTree_unfolds,
    bigTree_placed, hheight, by rw [endOff_bigTree]; decide, ?_⟩
  rintro ⟨total, c, m, hk, hw, -⟩
  obtain ⟨c', hc'⟩ := bigTree_total
  obtain ⟨m', hm', hread⟩ := ObjectWalker.walkRoot_emits bigWalker_slotted hheight bigTree_unfolds fun _ => 0
  have hbody := (read_append hread).2
  rw [length_le, Nat.zero_add] at hbody
  have hend := (stream_of_encode bigWalker_slotted bigTree (over_of_unfolds bigWalker_slotted bigTree bigTree_unfolds)
    hbody).2
  rw [endOff_bigTree] at hend
  have hkernel : 2 ^ 32 + 12 = total := (Prod.mk.inj (Except.ok.inj (hc'.symm.trans hk))).1
  have hwalker : 8 + (encode bigWalker.o bigWalker.simdutf 8 unregisteredClassId bigTree).length = total :=
    (Prod.mk.inj (Except.ok.inj (hm'.symm.trans hw))).1
  rw [hwalker, ← hkernel] at hend
  exact absurd hend (by decide)

end DShuffle.Kernel
