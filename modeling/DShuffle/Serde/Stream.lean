import DShuffle.Serde.ObjectWalker

/-!
# Streams

What the reader relies on. `Stream m off t` says that the memory `m` holds, from
offset `off` on, a stream of the tree `t`: everything the reader looks at is as
the walker writes it. Two things the reader never looks at are left open: the
values in the reference slots of an object's body, and the class id of a null.
The DPA kernel, the batched serializer and the walker all write streams of the
same tree, though not always the same bytes.

## What is proved

* `stream_of_encode` — what the walker writes for a tree is a stream of it.
* `over_of_unfolds` — a tree that a heap unfolds to is well formed over the
  resolver.
-/

namespace DShuffle.Serde

open Base

/-! ### Trees over a resolver -/

mutual

/-- The tree is well formed over the resolver: its class infos are registered and of the right kind, and its
data have the sizes that these say. -/
def Tree.Over (r : ClassResolver) : Tree → Prop
  | .null => True
  | .enumConst i ordinal => r.Has i ∧ i.isEnum = true ∧ ordinal < 2 ^ 32 ∧ ∃ e, i.getEnum ordinal = .ok e
  | .object i body ms =>
    r.Has i ∧ i.isEnum = false ∧ i.isObject = true ∧ body.length = i.objectBodySize ∧
      maskSlots 4 i.slots body = body ∧ ms.length = i.refFields.length ∧ OverAll r ms
  | .refArray i es =>
    r.Has i ∧ i.isEnum = false ∧ i.isArray = true ∧ (∃ f, i.elem = .ok f ∧ f.type.isReference = true) ∧
      es.length < 2 ^ 31 ∧ OverAll r es
  | .primArray i n contents =>
    r.Has i ∧ i.isEnum = false ∧ i.isArray = true ∧
      (∃ f, i.elem = .ok f ∧ f.type.isPrimitive = true ∧ contents.length = n * f.type.size) ∧ n < 2 ^ 31

/-- Every one of the trees is well formed. -/
def OverAll (r : ClassResolver) : List Tree → Prop
  | [] => True
  | t :: ts => t.Over r ∧ OverAll r ts

end

theorem overAll_mem {r : ClassResolver} {ts : List Tree} (h : OverAll r ts) {t : Tree} (ht : t ∈ ts) : t.Over r := by
  induction ts with
  | nil => cases ht
  | cons u us ih =>
    rcases List.mem_cons.mp ht with rfl | ht
    · exact h.1
    · exact ih h.2 ht

mutual

theorem over_of_unfolds {h : Heap} {r : ClassResolver} (hs : r.Slotted) :
    ∀ (t : Tree) {a : ℕ}, Unfolds h r a t → t.Over r
  | .null, _, _ => trivial
  | .enumConst i ordinal, a, hu => by
    simp only [Unfolds] at hu
    obtain ⟨-, hc, he, rfl, hg⟩ := hu
    obtain ⟨k, -, hi⟩ := Heap.classOf_eq_some hc
    exact ⟨ClassResolver.has_of_getByKlass hi, he, h.u32At_lt _ _, hg⟩
  | .object i body ms, a, hu => by
    simp only [Unfolds] at hu
    obtain ⟨-, hc, he, ho, rfl, hms⟩ := hu
    obtain ⟨k, -, hi⟩ := Heap.classOf_eq_some hc
    have hslot := hs k i hi he ho
    have hin : ∀ s ∈ i.slots, s + 4 ≤ (h.raw a i.headerSize i.objectBodySize).length := by
      rw [Heap.length_raw]
      exact hslot.slots_inside
    refine ⟨ClassResolver.has_of_getByKlass hi, he, ho, hslot.length_body h a, maskSlots_maskSlots hin, ?_,
      overAll_of_unfolds hs ms hms⟩
    rw [← hms.length_eq, List.length_map]
  | .refArray i es, a, hu => by
    simp only [Unfolds] at hu
    obtain ⟨-, hc, he, ha, hf, hn, hes⟩ := hu
    obtain ⟨k, -, hi⟩ := Heap.classOf_eq_some hc
    refine ⟨ClassResolver.has_of_getByKlass hi, he, ha, hf, ?_, overAll_of_unfolds hs es hes⟩
    rw [← hes.length_eq, List.length_map, List.length_range]
    exact hn
  | .primArray i n contents, a, hu => by
    simp only [Unfolds] at hu
    obtain ⟨-, hc, he, ha, hn, -, f, hf, hp, rfl⟩ := hu
    obtain ⟨k, -, hi⟩ := Heap.classOf_eq_some hc
    exact ⟨ClassResolver.has_of_getByKlass hi, he, ha, ⟨f, hf, hp, Heap.length_raw ..⟩, hn⟩

theorem overAll_of_unfolds {h : Heap} {r : ClassResolver} (hs : r.Slotted) :
    ∀ (ts : List Tree) {refs : List (Except Fault ℕ)}, UnfoldsAll h r refs ts → OverAll r ts
  | [], _, _ => trivial
  | t :: ts, refs, hu => by
    simp only [UnfoldsAll] at hu
    obtain ⟨a, refs', rfl, ht, hts⟩ := hu
    exact ⟨over_of_unfolds hs t ht, overAll_of_unfolds hs ts hts⟩

end

mutual

/-- The classes of a well-formed tree are registered. -/
theorem has_of_mem_infos {r : ClassResolver} : ∀ (t : Tree), t.Over r → ∀ i ∈ t.infos, r.Has i
  | .null, _, i, hi => absurd hi List.not_mem_nil
  | .enumConst j ordinal, h, i, hi => by
    rw [List.mem_singleton.mp hi]
    exact h.1
  | .object j body ms, h, i, hi => by
    rcases List.mem_cons.mp hi with rfl | hi
    · exact h.1
    · exact has_of_mem_infosAll ms h.2.2.2.2.2.2 i hi
  | .refArray j es, h, i, hi => by
    rcases List.mem_cons.mp hi with rfl | hi
    · exact h.1
    · exact has_of_mem_infosAll es h.2.2.2.2.2 i hi
  | .primArray j n contents, h, i, hi => by
    rw [List.mem_singleton.mp hi]
    exact h.1

theorem has_of_mem_infosAll {r : ClassResolver} : ∀ (ts : List Tree), OverAll r ts → ∀ i ∈ infosAll ts, r.Has i
  | [], _, i, hi => absurd hi List.not_mem_nil
  | t :: ts, h, i, hi => by
    rw [infosAll] at hi
    rcases List.mem_append.mp hi with hi | hi
    · exact has_of_mem_infos t h.1 i hi
    · exact has_of_mem_infosAll ts h.2 i hi

end

/-! ### Streams of a tree -/

section
variable (o : Options) (u : Simdutf)

mutual

/-- Where the cursor stands after a tree that starts at `off`. -/
def endOff (off : ℕ) : Tree → ℕ
  | .null => upperAlign off 8 + 4
  | .enumConst .. => upperAlign off 8 + 8
  | .object _ body ms => endAll (upperAlign off 8 + 8 + body.length) ms
  | .refArray _ es => endAll (upperAlign off 8 + 8) es
  | .primArray i n contents => upperAlign off 8 + 8 + (encodeContents o u i.elemType n contents).length

/-- Where the cursor stands after the trees, one after the other. -/
def endAll (off : ℕ) : List Tree → ℕ
  | [] => off
  | t :: ts => endAll (endOff off t) ts

end

mutual

theorem le_endOff : ∀ (t : Tree) (off : ℕ), upperAlign off 8 + 4 ≤ endOff o u off t
  | .null, off => by rw [endOff]
  | .enumConst .., off => by rw [endOff]; omega
  | .object _ body ms, off => by
    have h := le_endAll ms (upperAlign off 8 + 8 + body.length)
    rw [endOff]
    omega
  | .refArray _ es, off => by
    have h := le_endAll es (upperAlign off 8 + 8)
    rw [endOff]
    omega
  | .primArray .., off => by rw [endOff]; omega

theorem le_endAll : ∀ (ts : List Tree) (off : ℕ), off ≤ endAll o u off ts
  | [], off => by rw [endAll]
  | t :: ts, off => by
    have h₁ := le_upperAlign off
    have h₂ := le_endOff t off
    have h₃ := le_endAll ts (endOff o u off t)
    rw [endAll]
    omega

end

mutual

/-- The memory holds a stream of the tree at `off`. -/
def Stream (m : Mem) (off : ℕ) : Tree → Prop
  | .null => isNullF (ofLe (read m (upperAlign off 8 + 2) 2)) = true
  | .enumConst i ordinal =>
    read m (upperAlign off 8) 8 = leInt16 i.id ++ le 2 (enumFlag + objectFlag) ++ le 4 ordinal
  | .object i body ms =>
    read m (upperAlign off 8) 4 = leInt16 i.id ++ le 2 objectFlag ∧
      maskSlots 4 i.slots (read m (upperAlign off 8 + 8) body.length) = body ∧
      StreamAll m (upperAlign off 8 + 8 + body.length) ms
  | .refArray i es =>
    read m (upperAlign off 8) 8 = leInt16 i.id ++ le 2 arrayFlag ++ le 4 es.length ∧
      StreamAll m (upperAlign off 8 + 8) es
  | .primArray i n contents =>
    read m (upperAlign off 8) 8 = leInt16 i.id ++ le 2 arrayFlag ++ le 4 n ∧
      read m (upperAlign off 8 + 8) (encodeContents o u i.elemType n contents).length =
        encodeContents o u i.elemType n contents

/-- The memory holds streams of the trees, one after the other. -/
def StreamAll (m : Mem) (off : ℕ) : List Tree → Prop
  | [] => True
  | t :: ts => Stream m off t ∧ StreamAll m (endOff o u off t) ts

end

variable {o u} {r : ClassResolver}

/-- What is written behind the padding is at the next multiple of eight. -/
theorem read_pad8_append {m : Mem} {off : ℕ} {bs : Bytes}
    (h : read m off (pad8 off ++ bs).length = pad8 off ++ bs) :
    read m (upperAlign off 8) bs.length = bs ∧ off + (pad8 off ++ bs).length = upperAlign off 8 + bs.length := by
  have h₂ := (read_append h).2
  rw [add_length_pad8] at h₂
  rw [List.length_append, ← Nat.add_assoc, add_length_pad8]
  exact ⟨h₂, rfl⟩

mutual

/-- **What the walker writes for a tree is a stream of it.** -/
theorem stream_of_encode (hs : r.Slotted) {m : Mem} : ∀ (t : Tree) {off : ℕ} {eid : ℤ}, t.Over r →
    read m off (encode o u off eid t).length = encode o u off eid t →
      Stream o u m off t ∧ endOff o u off t = off + (encode o u off eid t).length
  | .null, off, eid, _, hr => by
    rw [encode] at hr ⊢
    obtain ⟨hr, hlen⟩ := read_pad8_append hr
    have hflag := (read_append hr).2
    rw [length_leInt16, length_le] at hflag
    rw [hlen, Stream, endOff, hflag]
    exact ⟨by decide, rfl⟩
  | .enumConst i ordinal, off, eid, _, hr => by
    rw [encode] at hr ⊢
    obtain ⟨hr, hlen⟩ := read_pad8_append hr
    rw [hlen, Stream, endOff]
    exact ⟨hr, rfl⟩
  | .object i body ms, off, eid, ho, hr => by
    obtain ⟨hi, he, hob, hbody, hmask, hms, hall⟩ := ho
    have hslot := hs i.klass i hi he hob
    have hin : ∀ k ∈ i.slots, k + 4 ≤ body.length := by rw [hbody]; exact hslot.slots_inside
    rw [encode] at hr ⊢
    simp only at hr ⊢
    obtain ⟨hr, hlen⟩ := read_pad8_append hr
    have hfit : FitSlots 4 body.length i.slots (i.slots.zip ((bases o u (upperAlign off 8 + 8 + body.length)
        (i.refFields.map (·.id)) ms).map fun x => le 4 (u32 x))) := by
      rintro ⟨k, v⟩ hkv
      obtain ⟨hk, hv⟩ := List.of_mem_zip hkv
      obtain ⟨x, -, rfl⟩ := List.mem_map.mp hv
      exact ⟨hk, length_le .., hin k hk⟩
    have hplen := length_patchSlots hfit
    obtain ⟨hr₁, hr₂⟩ := read_append hr
    obtain ⟨hr₁, hr₃⟩ := read_append hr₁
    obtain ⟨hr₁, -⟩ := read_append hr₁
    have hhead : (leInt16 i.id ++ le 2 objectFlag ++ pad8 4).length = 8 := by
      simp only [List.length_append, length_leInt16, length_le, length_pad8]
      rfl
    rw [hhead, hplen] at hr₃
    rw [List.length_append, hhead, hplen, ← Nat.add_assoc] at hr₂
    obtain ⟨hstream, hend⟩ := streamAll_of_encode hs ms hall hr₂
    rw [hlen, Stream, endOff, hend, hr₃, List.length_append, List.length_append, hhead, hplen]
    refine ⟨⟨hr₁, ?_, hstream⟩, by omega⟩
    rw [maskSlots_patchSlots hin hfit, hmask]
  | .refArray i es, off, eid, ho, hr => by
    obtain ⟨-, -, -, -, -, hall⟩ := ho
    rw [encode] at hr ⊢
    obtain ⟨hr, hlen⟩ := read_pad8_append hr
    obtain ⟨hr₁, hr₂⟩ := read_append hr
    have hhead : (leInt16 i.id ++ le 2 arrayFlag ++ le 4 es.length).length = 8 := by
      simp only [List.length_append, length_leInt16, length_le]
    rw [hhead] at hr₁ hr₂
    obtain ⟨hstream, hend⟩ := streamAll_of_encode hs es hall hr₂
    rw [hlen, Stream, endOff, hend, List.length_append, hhead]
    exact ⟨⟨hr₁, hstream⟩, by omega⟩
  | .primArray i n contents, off, eid, _, hr => by
    rw [encode] at hr ⊢
    obtain ⟨hr, hlen⟩ := read_pad8_append hr
    obtain ⟨hr₁, hr₂⟩ := read_append hr
    have hhead : (leInt16 i.id ++ le 2 arrayFlag ++ le 4 n).length = 8 := by
      simp only [List.length_append, length_leInt16, length_le]
    rw [hhead] at hr₁ hr₂
    rw [hlen, Stream, endOff, List.length_append, hhead]
    exact ⟨⟨hr₁, hr₂⟩, by omega⟩

theorem streamAll_of_encode (hs : r.Slotted) {m : Mem} : ∀ (ts : List Tree) {off : ℕ} {ids : List ℤ}, OverAll r ts →
    read m off (encodeAll o u off ids ts).length = encodeAll o u off ids ts →
      StreamAll o u m off ts ∧ endAll o u off ts = off + (encodeAll o u off ids ts).length
  | [], off, ids, _, _ => by
    rw [encodeAll, StreamAll, endAll]
    exact ⟨trivial, rfl⟩
  | t :: ts, off, ids, ho, hr => by
    rw [encodeAll] at hr ⊢
    obtain ⟨hr₁, hr₂⟩ := read_append hr
    obtain ⟨hs₁, he₁⟩ := stream_of_encode hs t ho.1 hr₁
    obtain ⟨hs₂, he₂⟩ := streamAll_of_encode hs ts ho.2 hr₂
    rw [StreamAll, endAll, he₁, he₂, List.length_append]
    exact ⟨⟨hs₁, hs₂⟩, by omega⟩

end

end

end DShuffle.Serde
