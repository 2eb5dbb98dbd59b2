import DShuffle.Serde.ObjectReviver

/-!
# Moving a record

A record can be written at one offset and glued in at another: the batched
serializer does that with every element of an array. Records start at multiples
of eight, so a move by a multiple of eight keeps the padding, and only the values
in the reference slots, which are offsets, depend on where the record lies.

## What is proved

* `encode_sameBut` — the encodings of a tree at two offsets that are equal modulo
  eight differ in the reference slots only.
* `stream_of_shift` — a stream moved by a multiple of eight is a stream.
* `reread_of_stream` — the reader takes the same contents from every stream of a
  tree, unless the byte size of one of its primitive arrays wraps around.
-/

namespace DShuffle.Serde

open Base

theorem pad8_congr {x y : ℕ} (h : x % 8 = y % 8) : pad8 x = pad8 y := by
  unfold pad8 upperAlign
  congr 1
  omega

section
variable (o : Options) (u : Simdutf)

/-! ### Where the slots are -/

mutual

/-- The offset `x` lies in a reference slot of the stream of the tree at `off`. -/
def InSlot (x : ℕ) (off : ℕ) : Tree → Prop
  | .null => False
  | .enumConst .. => False
  | .object i body ms =>
    (∃ k ∈ i.slots, upperAlign off 8 + 8 + k ≤ x ∧ x < upperAlign off 8 + 8 + k + 4) ∨
      InSlotAll x (upperAlign off 8 + 8 + body.length) ms
  | .refArray _ es => InSlotAll x (upperAlign off 8 + 8) es
  | .primArray .. => False

/-- The offset `x` lies in a reference slot of the streams of the trees, one after the other. -/
def InSlotAll (x : ℕ) (off : ℕ) : List Tree → Prop
  | [] => False
  | t :: ts => InSlot x off t ∨ InSlotAll x (endOff o u off t) ts

end

/-- The offset `x` lies in the class id of one of the trees that is null, where these stand one after the other. -/
def InNullId (x : ℕ) (off : ℕ) : List Tree → Prop
  | [] => False
  | t :: ts => (t = .null ∧ upperAlign off 8 ≤ x ∧ x < upperAlign off 8 + 2) ∨ InNullId x (endOff o u off t) ts

/-! ### Sizes -/

variable {o u} {r : ClassResolver}

/-- The cursor moves over what is written. -/
theorem endOff_eq_length (hs : r.Slotted) {t : Tree} (ho : t.Over r) (off : ℕ) (eid : ℤ) :
    endOff o u off t = off + (encode o u off eid t).length :=
  (stream_of_encode hs t ho (read_write_self (fun _ => 0) off (encode o u off eid t))).2

/-- The padding comes first. -/
theorem encode_pad (off : ℕ) (eid : ℤ) (t : Tree) :
    encode o u off eid t = pad8 off ++ encode o u (upperAlign off 8) eid t := by
  have hpad : pad8 (upperAlign off 8) = [] := pad8_of_mod (upperAlign_mod off)
  cases t <;> simp only [encode, hpad, upperAlign_upperAlign, List.nil_append]

theorem endOff_upperAlign (off : ℕ) (t : Tree) : endOff o u (upperAlign off 8) t = endOff o u off t := by
  cases t <;> simp only [endOff, upperAlign_upperAlign]

theorem stream_upperAlign {m : Mem} {off : ℕ} {t : Tree} :
    Stream o u m (upperAlign off 8) t ↔ Stream o u m off t := by
  cases t <;> simp only [Stream, upperAlign_upperAlign]

/-! ### The encodings at two offsets -/

mutual

/-- **Only the slots depend on the offset.** -/
theorem encode_sameBut (hs : r.Slotted) : ∀ (t : Tree) {off off' : ℕ} {eid : ℤ}, t.Over r → off % 8 = off' % 8 →
    SameBut (fun k => InSlot o u (off + k) off t) (encode o u off eid t) (encode o u off' eid t)
  | .null, off, off', eid, _, hmod => by
    rw [encode, encode, pad8_congr hmod]
    exact SameBut.refl _ _
  | .enumConst i ordinal, off, off', eid, _, hmod => by
    rw [encode, encode, pad8_congr hmod]
    exact SameBut.refl _ _
  | .object i body ms, off, off', eid, ho, hmod => by
    obtain ⟨hi, he, hob, hbody, -, -, hall⟩ := ho
    have hin : ∀ k ∈ i.slots, k + 4 ≤ body.length := by rw [hbody]; exact (hs i.klass i hi he hob).slots_inside
    have hfit : ∀ vs : List ℕ, FitSlots 4 body.length i.slots (i.slots.zip (vs.map fun x => le 4 (u32 x))) := by
      rintro vs ⟨k, v⟩ hkv
      obtain ⟨hk, hv⟩ := List.of_mem_zip hkv
      obtain ⟨x, -, rfl⟩ := List.mem_map.mp hv
      exact ⟨hk, length_le .., hin k hk⟩
    have hmod' : (upperAlign off 8 + 8 + body.length) % 8 = (upperAlign off' 8 + 8 + body.length) % 8 := by
      have h₁ := upperAlign_mod off
      have h₂ := upperAlign_mod off'
      omega
    have hpad : off + (pad8 off).length = upperAlign off 8 := add_length_pad8 off
    have hhead : (leInt16 i.id ++ le 2 objectFlag ++ pad8 4).length = 8 := by
      simp only [List.length_append, length_leInt16, length_le, length_pad8]
      rfl
    have hms : SameBut _ (encodeAll o u _ (i.refFields.map (·.id)) ms) _ := encodeAll_sameBut hs ms hall hmod'
    rw [encode, encode, ← pad8_congr hmod, List.append_assoc _ (patchSlots _ _), List.append_assoc _ (patchSlots _ _)]
    refine SameBut.append_left _ (SameBut.append_left _ (SameBut.append ?_ ?_))
    · -- the body: both are the body off its slots
      refine ((agreeOff_patchSlots (hfit _)).symm.trans (agreeOff_patchSlots (hfit _))).sameBut.mono ?_
      rintro k - ⟨s, hsl, h₁, h₂⟩
      rw [InSlot]
      exact Or.inl ⟨s, hsl, by omega, by omega⟩
    · refine hms.mono fun k _ hk => ?_
      rw [InSlot]
      refine Or.inr ?_
      rw [length_patchSlots (hfit _), hhead]
      have hpos : off + ((pad8 off).length + (8 + (body.length + k))) = upperAlign off 8 + 8 + body.length + k := by omega
      rw [hpos]
      exact hk
  | .refArray i es, off, off', eid, ho, hmod => by
    obtain ⟨-, -, -, -, -, hall⟩ := ho
    have hmod' : (upperAlign off 8 + 8) % 8 = (upperAlign off' 8 + 8) % 8 := by
      have h₁ := upperAlign_mod off
      have h₂ := upperAlign_mod off'
      omega
    have hpad : off + (pad8 off).length = upperAlign off 8 := add_length_pad8 off
    have hhead : (leInt16 i.id ++ le 2 arrayFlag ++ le 4 es.length).length = 8 := by
      simp only [List.length_append, length_leInt16, length_le]
    rw [encode, encode, ← pad8_congr hmod]
    refine SameBut.append_left _ (SameBut.append_left _ ?_)
    refine (encodeAll_sameBut hs es hall hmod').mono fun k _ hk => ?_
    rw [InSlot, hhead]
    have hpos : off + ((pad8 off).length + (8 + k)) = upperAlign off 8 + 8 + k := by omega
    rw [hpos]
    exact hk
  | .primArray i n contents, off, off', eid, _, hmod => by
    rw [encode, encode, pad8_congr hmod]
    exact SameBut.refl _ _

theorem encodeAll_sameBut (hs : r.Slotted) : ∀ (ts : List Tree) {off off' : ℕ} {ids : List ℤ}, OverAll r ts →
    off % 8 = off' % 8 →
    SameBut (fun k => InSlotAll o u (off + k) off ts) (encodeAll o u off ids ts) (encodeAll o u off' ids ts)
  | [], off, off', ids, _, _ => by
    rw [encodeAll, encodeAll]
    exact SameBut.refl _ _
  | t :: ts, off, off', ids, ho, hmod => by
    have ht : SameBut _ (encode o u off (ids.headD unregisteredClassId) t) _ := encode_sameBut hs t ho.1 hmod
    have hlen := ht.length
    have hend := endOff_eq_length (o := o) (u := u) hs ho.1 off (ids.headD unregisteredClassId)
    have hts : SameBut _ (encodeAll o u (off + (encode o u off (ids.headD unregisteredClassId) t).length) ids.tail ts)
        (encodeAll o u (off' + (encode o u off' (ids.headD unregisteredClassId) t).length) ids.tail ts) :=
      encodeAll_sameBut hs ts ho.2 (by omega)
    rw [encodeAll, encodeAll]
    refine (ht.mono fun k _ hk => ?_).append (hts.mono fun k _ hk => ?_)
    · rw [InSlotAll]
      exact Or.inl hk
    · rw [InSlotAll, hend, ← Nat.add_assoc]
      exact Or.inr hk

end

/-! ### Streams that move -/

theorem read_shift (m : Mem) (d a n : ℕ) : read (fun x => m (d + x)) a n = read m (d + a) n :=
  read_eq_iff.mpr fun i _ => by rw [Nat.add_assoc]

mutual

theorem endOff_add {d : ℕ} (hd : d % 8 = 0) : ∀ (t : Tree) (off : ℕ), endOff o u (d + off) t = d + endOff o u off t
  | .null, off => by rw [endOff, endOff, upperAlign_add off hd]; omega
  | .enumConst .., off => by rw [endOff, endOff, upperAlign_add off hd]; omega
  | .object i body ms, off => by
    rw [endOff, endOff, upperAlign_add off hd, ← endAll_add hd ms]
    congr 1
    omega
  | .refArray i es, off => by
    rw [endOff, endOff, upperAlign_add off hd, ← endAll_add hd es]
    congr 1
  | .primArray .., off => by rw [endOff, endOff, upperAlign_add off hd]; omega

theorem endAll_add {d : ℕ} (hd : d % 8 = 0) : ∀ (ts : List Tree) (off : ℕ),
    endAll o u (d + off) ts = d + endAll o u off ts
  | [], off => by rw [endAll, endAll]
  | t :: ts, off => by rw [endAll, endAll, endOff_add hd t, endAll_add hd ts]

end

/-- From a multiple of eight on, a record is as long as it is anywhere. -/
theorem endOff_eq_add (off : ℕ) (t : Tree) : endOff o u off t + 8 = upperAlign off 8 + endOff o u 8 t := by
  have h := endOff_add (o := o) (u := u) (upperAlign_mod off) t 8
  have h' := endOff_add (o := o) (u := u) (d := 8) (by decide) t (upperAlign off 8)
  rw [Nat.add_comm (upperAlign off 8) 8, h', endOff_upperAlign] at h
  omega

mutual

/-- A stream moved by a multiple of eight is a stream. -/
theorem stream_of_shift {m : Mem} {d : ℕ} (hd : d % 8 = 0) : ∀ (t : Tree) {off : ℕ},
    Stream o u (fun x => m (d + x)) off t → Stream o u m (d + off) t
  | .null, off, h => by
    rw [Stream, read_shift] at h
    rw [Stream, upperAlign_add off hd, Nat.add_assoc]
    exact h
  | .enumConst i ordinal, off, h => by
    rw [Stream, read_shift] at h
    rw [Stream, upperAlign_add off hd]
    exact h
  | .object i body ms, off, h => by
    rw [Stream, read_shift, read_shift] at h
    obtain ⟨h₁, h₂, h₃⟩ := h
    have hms := streamAll_of_shift hd ms h₃
    rw [Stream, upperAlign_add off hd]
    simp only [Nat.add_assoc] at h₁ h₂ hms ⊢
    exact ⟨h₁, h₂, hms⟩
  | .refArray i es, off, h => by
    rw [Stream, read_shift] at h
    obtain ⟨h₁, h₂⟩ := h
    have hes := streamAll_of_shift hd es h₂
    rw [Stream, upperAlign_add off hd]
    simp only [Nat.add_assoc] at hes ⊢
    exact ⟨h₁, hes⟩
  | .primArray i n contents, off, h => by
    rw [Stream, read_shift, read_shift] at h
    rw [Stream, upperAlign_add off hd]
    simp only [Nat.add_assoc] at h ⊢
    exact h

theorem streamAll_of_shift {m : Mem} {d : ℕ} (hd : d % 8 = 0) : ∀ (ts : List Tree) {off : ℕ},
    StreamAll o u (fun x => m (d + x)) off ts → StreamAll o u m (d + off) ts
  | [], _, _ => by rw [StreamAll]; trivial
  | t :: ts, off, h => by
    rw [StreamAll] at h ⊢
    rw [endOff_add hd]
    exact ⟨stream_of_shift hd t h.1, streamAll_of_shift hd ts h.2⟩

end

end

/-! ### What the reader takes from a stream -/

mutual

/-- The byte size of every primitive array of the tree is below 2^32, so that `array_body_size` gives it. -/
def Tree.ArraysFit : Tree → Prop
  | .null => True
  | .enumConst .. => True
  | .object _ _ ms => ArraysFitAll ms
  | .refArray _ es => ArraysFitAll es
  | .primArray i n _ => n * i.elemType.size < 2 ^ 32

/-- The same of every one of the trees. -/
def ArraysFitAll : List Tree → Prop
  | [] => True
  | t :: ts => t.ArraysFit ∧ ArraysFitAll ts

end

mutual

/-- The tree with the contents of its primitive arrays as the reader copies them: the first `length` bytes. -/
def Tree.copied : Tree → Tree
  | .null => .null
  | .enumConst i ordinal => .enumConst i ordinal
  | .object i body ms => .object i body (copiedAll ms)
  | .refArray i es => .refArray i (copiedAll es)
  | .primArray i n contents => .primArray i n (overlay (n * i.elemType.size) (contents.take n))

/-- The same of every one of the trees. -/
def copiedAll : List Tree → List Tree
  | [] => []
  | t :: ts => t.copied :: copiedAll ts

end

section
variable {o : Options} {u : Simdutf} {r : ClassResolver} {m : Mem}

mutual

/-- **What the reader takes does not depend on the stream**, where no array's byte size wraps around. -/
theorem reread_of_stream (hutf : o.enableUtf16ToUtf8 = false) : ∀ (t : Tree) {off : ℕ}, t.Over r → t.ArraysFit →
    Stream o u m off t → reread o u m off t = t.copied
  | .null, _, _, _, _ => by rw [reread, Tree.copied]
  | .enumConst .., _, _, _, _ => by rw [reread, Tree.copied]
  | .object i body ms, off, ho, hfit, h => by
    rw [Stream] at h
    rw [reread, Tree.copied, rereadAll_of_stream hutf ms ho.2.2.2.2.2.2 hfit h.2.2]
  | .refArray i es, off, ho, hfit, h => by
    rw [Stream] at h
    rw [reread, Tree.copied, rereadAll_of_stream hutf es ho.2.2.2.2.2 hfit h.2]
  | .primArray i n contents, off, ho, hfit, h => by
    obtain ⟨-, -, -, ⟨f, hf, hp, hc⟩, -⟩ := ho
    rw [Tree.ArraysFit, (ClassInfo.elem_ok hf).1] at hfit
    rw [Stream] at h
    have hpos := BasicType.size_pos_of_isPrimitive hp
    have hn : n ≤ n * f.type.size := Nat.le_mul_of_pos_right n hpos
    have hplain : ¬ (f.type = .char ∧ o.enableUtf16ToUtf8 = true) := by
      rw [hutf]
      exact fun hcv => Bool.false_ne_true hcv.2
    have henc : encodeContents o u f.type n contents = contents := by
      rw [encodeContents, if_neg hplain, ClassInfo.arrayBodySize, u32_of_lt hfit, ← hc, List.take_length]
    have hread := h.2
    rw [(ClassInfo.elem_ok hf).1, henc] at hread
    have htake : read m (upperAlign off 8 + 8) n = contents.take n := by
      rw [← hread, hc]
      exact (slice_read (k := 0) (by omega)).symm
    rw [reread, Tree.copied, (ClassInfo.elem_ok hf).1, revivedContents, if_neg hplain, htake]

theorem rereadAll_of_stream (hutf : o.enableUtf16ToUtf8 = false) : ∀ (ts : List Tree) {off : ℕ}, OverAll r ts →
    ArraysFitAll ts → StreamAll o u m off ts → rereadAll o u m off ts = copiedAll ts
  | [], _, _, _, _ => by rw [rereadAll, copiedAll]
  | t :: ts, off, ho, hfit, h => by
    rw [StreamAll] at h
    rw [rereadAll, copiedAll, reread_of_stream hutf t ho.1 hfit.1 h.1, rereadAll_of_stream hutf ts ho.2 hfit.2 h.2]

end

end

end DShuffle.Serde
