import DShuffle.Serde.Utf

/-!
# The arrays of a tree

`PrimitiveArrays` and `Utf` say when one array of primitive values comes back with
its elements. This module says it of every array in a tree at once: the tree that is
read back (`reread`) is the tree itself exactly when every one of its arrays is
`Intact`.

## What is proved

* `reread_eq_iff` — on a stream of the tree, what the reader takes for its arrays is
  what they hold, exactly when they are intact.
* `holds_of_rebuild`, `holds_reread_iff` — so the arrays of what is rebuilt hold what
  the tree says.

## Honest scope

The sizes fit their 32 bits (`Tree.Short`): an array whose elements, or whose text in
UTF-8, take 4 GiB or more is cut, and what is read for it depends on what follows it.
-/

namespace DShuffle.Serde

open Base ObjectReviver

/-! ### Contents -/

mutual

/-- The arrays of primitive values in the value hold what the tree says. -/
def Holds (x : Value) : Tree → Prop
  | .null => True
  | .enumConst .. => True
  | .object _ _ ms => ∃ k prims ids refs, x = .object k prims ids refs ∧ HoldsAll refs ms
  | .refArray _ es => ∃ k xs, x = .objArray k xs ∧ HoldsAll xs es
  | .primArray _ _ contents => ∃ t n, x = .typeArray t n contents

/-- The values, one by one, hold what the trees say. -/
def HoldsAll : List Value → List Tree → Prop
  | _, [] => True
  | xs, t :: ts => ∃ x xs', xs = x :: xs' ∧ Holds x t ∧ HoldsAll xs' ts

end

mutual

/-- What is rebuilt holds what the tree says, wherever it is the tree. -/
theorem holds_of_rebuild {v : ObjectReviver} : ∀ (t : Tree) {e e' : JEnv} {h : Handle}, v.rebuild t e = .ok (h, e') →
    Matches v.r (e'.resolve h) t → Holds (e'.resolve h) t
  | .null, _, _, _, _, _ => trivial
  | .enumConst .., _, _, _, _, _ => trivial
  | .object i body ms, e, e', h, hr, hm => by
    obtain ⟨vs, hall, -, rfl⟩ := rebuild_object_ok hr
    exact ⟨_, _, _, vs, rfl, holdsAll_of_rebuildAll ms rfl hall hm.refs⟩
  | .refArray i es, e, e', h, hr, hm => by
    obtain ⟨c, vs, -, hall, -, rfl⟩ := rebuild_refArray_ok hr
    obtain ⟨k, j, xs, -, -, hx, hms⟩ := hm
    cases hx
    exact ⟨_, vs, rfl, holdsAll_of_rebuildAll es rfl hall hms⟩
  | .primArray i n contents, e, e', h, hr, _ => by
    obtain ⟨rfl, rfl⟩ := rebuild_primArray_ok hr
    exact ⟨_, _, rfl⟩

theorem holdsAll_of_rebuildAll {v : ObjectReviver} {takes : Value → Bool} : ∀ (ts : List Tree) {e e' : JEnv}
    {vs : List Value}, takes .null = true → v.rebuildAll takes ts e = .ok (vs, e') → MatchesAll v.r vs ts → HoldsAll vs ts
  | [], _, _, _, _, _, _ => trivial
  | t :: ts, e, e', vs, hnull, hr, hm => by
    obtain ⟨h, e₁, xs, ht, hts, rfl⟩ := rebuildAll_cons_ok hr
    obtain ⟨x, xs', hx, hmt, hmts⟩ := hm
    cases hx
    have htk := takes_of_matches hnull ht hmt
    rw [if_pos htk] at hmt ⊢
    exact ⟨_, xs, rfl, holds_of_rebuild t ht hmt, holdsAll_of_rebuildAll ts hnull hts hmts⟩

end

section
variable {o : Options} {u : Simdutf} {m : Mem}

mutual

theorem reread_eq_of_holds : ∀ (t : Tree) {off : ℕ} {x : Value}, Holds x (reread o u m off t) → Holds x t →
    reread o u m off t = t
  | .null, _, _, _, _ => by rw [reread]
  | .enumConst .., _, _, _, _ => by rw [reread]
  | .object i body ms, off, x, h₁, h₂ => by
    rw [reread] at h₁ ⊢
    obtain ⟨k, prims, ids, refs, rfl, h₁⟩ := h₁
    obtain ⟨k', prims', ids', refs', hx, h₂⟩ := h₂
    cases hx
    rw [rereadAll_eq_of_holds ms h₁ h₂]
  | .refArray i es, off, x, h₁, h₂ => by
    rw [reread] at h₁ ⊢
    obtain ⟨k, xs, rfl, h₁⟩ := h₁
    obtain ⟨k', xs', hx, h₂⟩ := h₂
    cases hx
    rw [rereadAll_eq_of_holds es h₁ h₂]
  | .primArray i n contents, off, x, h₁, h₂ => by
    rw [reread] at h₁ ⊢
    obtain ⟨t, n', rfl⟩ := h₁
    obtain ⟨t', n'', hx⟩ := h₂
    cases hx
    rfl

theorem rereadAll_eq_of_holds : ∀ (ts : List Tree) {off : ℕ} {xs : List Value}, HoldsAll xs (rereadAll o u m off ts) →
    HoldsAll xs ts → rereadAll o u m off ts = ts
  | [], _, _, _, _ => by rw [rereadAll]
  | t :: ts, off, xs, h₁, h₂ => by
    rw [rereadAll] at h₁ ⊢
    obtain ⟨x, xs', rfl, ht₁, hts₁⟩ := h₁
    obtain ⟨x', xs'', hx, ht₂, hts₂⟩ := h₂
    cases hx
    rw [reread_eq_of_holds t ht₁ ht₂, rereadAll_eq_of_holds ts hts₁ hts₂]

end

/-- What holds the tree that was read back holds the tree exactly when the two are the same. -/
theorem holds_reread_iff {t : Tree} {off : ℕ} {x : Value} (h : Holds x (reread o u m off t)) :
    Holds x t ↔ reread o u m off t = t := by
  constructor
  · exact reread_eq_of_holds t h
  · intro heq
    rwa [heq] at h

end

/-! ### Intact arrays -/

/-- What the elements have to be for an array of `n` of them to come back: well-formed UTF-16 where they are
transcoded, and zero from the `n`-th byte on where they are not. -/
def Survives (o : Options) (t : BasicType) (n : ℕ) (contents : Bytes) : Prop :=
  if t = .char ∧ o.enableUtf16ToUtf8 = true then ∃ cs, decodeUtf16 contents = some cs else ∀ x ∈ contents.drop n, x = 0

/-- The elements and their text take less than 4 GiB. -/
def Fits (t : BasicType) (n : ℕ) (contents : Bytes) : Prop :=
  n * t.size < 2 ^ 32 ∧ ∀ cs, decodeUtf16 contents = some cs → (utf8 cs).length < 2 ^ 32

mutual

/-- Every array in the tree comes back. -/
def Tree.Intact (o : Options) : Tree → Prop
  | .null => True
  | .enumConst .. => True
  | .object _ _ ms => IntactAll o ms
  | .refArray _ es => IntactAll o es
  | .primArray i n contents => Survives o i.elemType n contents

/-- Every array in the trees comes back. -/
def IntactAll (o : Options) : List Tree → Prop
  | [] => True
  | t :: ts => t.Intact o ∧ IntactAll o ts

end

mutual

/-- No array in the tree takes 4 GiB or more. -/
def Tree.Short : Tree → Prop
  | .null => True
  | .enumConst .. => True
  | .object _ _ ms => ShortAll ms
  | .refArray _ es => ShortAll es
  | .primArray i n contents => Fits i.elemType n contents

/-- No array in the trees takes 4 GiB or more. -/
def ShortAll : List Tree → Prop
  | [] => True
  | t :: ts => t.Short ∧ ShortAll ts

end

/-- A body filled up with zeros is the array exactly when the array ends in zeros. -/
theorem overlay_take_eq_iff {n : ℕ} {contents : Bytes} (hn : n ≤ contents.length) :
    overlay contents.length (contents.take n) = contents ↔ ∀ x ∈ contents.drop n, x = 0 := by
  have hlen : (contents.take n).length = n := by rw [List.length_take, Nat.min_eq_left hn]
  have hover : overlay contents.length (contents.take n) = contents.take n ++ List.replicate (contents.length - n) 0 := by
    unfold overlay
    rw [hlen]
    refine List.take_of_length_le ?_
    rw [List.length_append, hlen, List.length_replicate]
    omega
  have hparts : contents.take n ++ List.replicate (contents.length - n) 0 = contents ↔
      contents.drop n = List.replicate (contents.length - n) 0 := by
    conv_lhs => rhs; rw [← List.take_append_drop n contents]
    rw [List.append_cancel_left_eq, eq_comm]
  rw [hover, hparts, List.eq_replicate_iff, List.length_drop]
  exact ⟨fun h => h.2, fun h => ⟨rfl, h⟩⟩

theorem overlay_nil (n : ℕ) : overlay n [] = List.replicate n 0 := by
  rw [overlay, List.nil_append, List.length_nil, Nat.sub_zero, List.take_of_length_le (by rw [List.length_replicate])]

/-- Zeros are well-formed UTF-16. -/
theorem decodeUtf16_zeros (n : ℕ) : decodeUtf16 (List.replicate (n * 2) 0) = some (List.replicate n (Char.ofNat 0)) := by
  refine decodeUtf16_eq_some_iff.mpr ?_
  induction n with
  | zero => rfl
  | succ n ih =>
    rw [List.replicate_succ, utf16_cons, ih, Nat.succ_mul]
    rfl

section
variable {o : Options} {u : Simdutf} {m : Mem}

/-- What the reader finds of a text: the part that its size counts. -/
theorem revivedContents_of_text {base n : ℕ} {t : BasicType} {contents : Bytes}
    (hc : t = .char ∧ o.enableUtf16ToUtf8 = true)
    (hread : read m (base + 8) (encodeContents o u t n contents).length = encodeContents o u t n contents) :
    revivedContents o u m base t n =
      overlay (n * 2) (u.toUtf16 ((u.toUtf8 contents).1.take (u32 (u.toUtf8 contents).2))).1 := by
  rw [encodeContents, if_pos hc] at hread
  obtain ⟨hhead, htext⟩ := read_append hread
  have hsize := (read_append hhead).2
  rw [length_le, length_le] at hsize
  rw [List.length_append, length_le, length_le, List.length_take,
    Nat.min_eq_left ((u32_le _).trans (u.toUtf8_le contents))] at htext
  have hactual : ofLe (read m (base + 12) 4) = u32 (u.toUtf8 contents).2 := by
    rw [show base + 12 = base + 8 + 4 from rfl, hsize, ofLe_le]
    exact u32_of_lt (u32_lt _)
  rw [revivedContents, if_pos hc, hactual, show base + 16 = base + 8 + (4 + 4) from rfl, htext]

/-- **What is read for an array is what it holds**, exactly when it survives. -/
theorem revivedContents_eq_iff (hu : u.Conforms) {base n : ℕ} {t : BasicType} {contents : Bytes}
    (hp : t.isPrimitive = true) (hlen : contents.length = n * t.size) (hfits : Fits t n contents)
    (hread : read m (base + 8) (encodeContents o u t n contents).length = encodeContents o u t n contents) :
    revivedContents o u m base t n = contents ↔ Survives o t n contents := by
  rw [Survives]
  by_cases hc : t = .char ∧ o.enableUtf16ToUtf8 = true
  · rw [if_pos hc, revivedContents_of_text hc hread]
    have hlen₂ : contents.length = n * 2 := by
      rw [hlen, hc.1]
      rfl
    cases hd : decodeUtf16 contents with
    | none =>
      -- nothing is restored, and zeros would be well formed
      rw [hu.toUtf8_bad contents hd, show u32 0 = 0 from rfl, List.take_zero, show ([] : Bytes) = utf8 [] from rfl,
        hu.toUtf16_exact, show (utf16 [], units []).1 = [] from rfl, overlay_nil]
      constructor
      · intro hzeros
        rw [← hzeros, decodeUtf16_zeros] at hd
        cases hd
      · rintro ⟨cs, hcs⟩
        cases hcs
    | some cs =>
      have hraw : utf16 cs = contents := decodeUtf16_eq_some_iff.mp hd
      refine iff_of_true ?_ ⟨cs, rfl⟩
      rw [← hraw, hu.toUtf8_exact, u32_of_lt (hfits.2 cs hd), List.take_length, hu.toUtf16_exact, overlay, hraw, hlen₂,
        Nat.sub_self, List.replicate_zero, List.append_nil, List.take_of_length_le (Nat.le_of_eq hlen₂)]
  · have hle : n ≤ contents.length := by
      rw [hlen]
      exact length_le_bodySize n hp
    rw [encodeContents, if_neg hc, ClassInfo.arrayBodySize, u32_of_lt hfits.1, ← hlen, List.take_length] at hread
    have hfirst : read m (base + 8) n = contents.take n := by
      have hsplit : read m (base + 8) contents.length = contents.take n ++ contents.drop n := by
        rw [hread, List.take_append_drop]
      have htake := (read_append hsplit).1
      rwa [List.length_take, Nat.min_eq_left hle] at htake
    rw [if_neg hc, revivedContents, if_neg hc, hfirst, ← hlen]
    exact overlay_take_eq_iff hle

mutual

/-- **The tree that is read back is the tree**, exactly when its arrays are intact. -/
theorem reread_eq_iff (hu : u.Conforms) {r : ClassResolver} : ∀ (t : Tree) {off : ℕ}, t.Over r → t.Short →
    Stream o u m off t → (reread o u m off t = t ↔ t.Intact o)
  | .null, _, _, _, _ => by
    rw [reread]
    exact iff_of_true rfl trivial
  | .enumConst .., _, _, _, _ => by
    rw [reread]
    exact iff_of_true rfl trivial
  | .object i body ms, off, ho, hshort, hs => by
    rw [reread, Tree.Intact, ← rereadAll_eq_iff hu ms ho.2.2.2.2.2.2 hshort hs.2.2]
    exact ⟨fun h => (Tree.object.inj h).2.2, fun h => by rw [h]⟩
  | .refArray i es, off, ho, hshort, hs => by
    rw [reread, Tree.Intact, ← rereadAll_eq_iff hu es ho.2.2.2.2.2 hshort hs.2]
    exact ⟨fun h => (Tree.refArray.inj h).2, fun h => by rw [h]⟩
  | .primArray i n contents, off, ho, hshort, hs => by
    obtain ⟨-, -, -, ⟨f, hf, hp, hlen⟩, -⟩ := ho
    rw [← (ClassInfo.elem_ok hf).1] at hp hlen
    rw [reread, Tree.Intact, ← revivedContents_eq_iff hu hp hlen hshort hs.2]
    exact ⟨fun h => (Tree.primArray.inj h).2.2, fun h => by rw [h]⟩

theorem rereadAll_eq_iff (hu : u.Conforms) {r : ClassResolver} : ∀ (ts : List Tree) {off : ℕ}, OverAll r ts → ShortAll ts →
    StreamAll o u m off ts → (rereadAll o u m off ts = ts ↔ IntactAll o ts)
  | [], _, _, _, _ => by
    rw [rereadAll]
    exact iff_of_true rfl trivial
  | t :: ts, off, ho, hshort, hs => by
    rw [rereadAll, List.cons.injEq, IntactAll, reread_eq_iff hu t ho.1 hshort.1 hs.1,
      rereadAll_eq_iff hu ts ho.2 hshort.2 hs.2]

end

end

end DShuffle.Serde
