import DShuffle.Base.ByteMemory

/-!
# Files and outstanding writes

A file is a string of bytes. `pwrite` puts bytes at an offset; a write beyond the
end leaves zeros in between, and a write of nothing does nothing. `Upto` relates
a file to what it will be when the writes that are outstanding are done, in
whatever order: a write that appends to the plan becomes outstanding
(`Upto.append`), any outstanding write may be done (`Upto.pwrite`), or a first part
of it, and the rest stays outstanding (`Upto.pwriteFirst`), and when nothing is left
the file is as planned (`Upto.eq`).
-/

namespace DShuffle.Base

/-- A write: where, and what. -/
structure Write where
  /-- The offset. -/
  off : ℕ
  /-- The bytes. -/
  bytes : Bytes
  deriving DecidableEq

namespace Write

/-- The write covers position `i`. -/
def Covers (w : Write) (i : ℕ) : Prop := w.off ≤ i ∧ i < w.off + w.bytes.length

/-- The write puts down what `full` has there. -/
def Of (w : Write) (full : Bytes) : Prop :=
  w.off + w.bytes.length ≤ full.length ∧ ∀ i, w.Covers i → w.bytes[i - w.off]? = full[i]?

/-- Its first `n` bytes. -/
def first (w : Write) (n : ℕ) : Write := ⟨w.off, w.bytes.take n⟩

/-- What comes after them. -/
def rest (w : Write) (n : ℕ) : Write := ⟨w.off + n, w.bytes.drop n⟩

theorem first_covers {w : Write} {n i : ℕ} (hn : n ≤ w.bytes.length) :
    (w.first n).Covers i ↔ w.off ≤ i ∧ i < w.off + n := by
  simp only [Covers, first, List.length_take, Nat.min_eq_left hn]

theorem rest_covers {w : Write} {n i : ℕ} (hn : n ≤ w.bytes.length) :
    (w.rest n).Covers i ↔ w.off + n ≤ i ∧ i < w.off + w.bytes.length := by
  simp only [Covers, rest, List.length_drop]
  rw [Nat.add_assoc, Nat.add_sub_cancel' hn]

theorem Of.first {w : Write} {full : Bytes} {n : ℕ} (h : w.Of full) (hn : n ≤ w.bytes.length) : (w.first n).Of full := by
  obtain ⟨hle, heq⟩ := h
  refine ⟨?_, fun i hi => ?_⟩
  · simp only [Write.first, List.length_take]
    omega
  · obtain ⟨h₁, h₂⟩ := (first_covers hn).mp hi
    rw [← heq i ⟨h₁, by omega⟩]
    exact List.getElem?_take_of_lt (by show i - w.off < n; omega)

theorem Of.rest {w : Write} {full : Bytes} {n : ℕ} (h : w.Of full) (hn : n ≤ w.bytes.length) : (w.rest n).Of full := by
  obtain ⟨hle, heq⟩ := h
  refine ⟨?_, fun i hi => ?_⟩
  · simp only [Write.rest, List.length_drop]
    omega
  · obtain ⟨h₁, h₂⟩ := (rest_covers hn).mp hi
    rw [← heq i ⟨by omega, h₂⟩]
    simp only [Write.rest, List.getElem?_drop]
    congr 1
    omega

end Write

/-- The file after a write. -/
def pwrite (content : Bytes) (w : Write) : Bytes :=
  if w.bytes = [] then content
  else content.take w.off ++ List.replicate (w.off - content.length) 0 ++ w.bytes ++ content.drop (w.off + w.bytes.length)

theorem length_pwrite (content : Bytes) (w : Write) (h : w.bytes ≠ []) :
    (pwrite content w).length = max content.length (w.off + w.bytes.length) := by
  unfold pwrite
  rw [if_neg h]
  simp only [List.length_append, List.length_take, List.length_replicate, List.length_drop]
  omega

/-- What is written is there. -/
theorem getElem?_pwrite_of_covers {content : Bytes} {w : Write} {i : ℕ} (h : w.Covers i) :
    (pwrite content w)[i]? = w.bytes[i - w.off]? := by
  obtain ⟨h₁, h₂⟩ := h
  have hne : w.bytes ≠ [] := by
    intro hnil
    rw [hnil] at h₂
    exact absurd h₂ (Nat.not_lt.mpr h₁)
  have hlen : (content.take w.off ++ List.replicate (w.off - content.length) 0).length = w.off := by
    simp only [List.length_append, List.length_take, List.length_replicate]
    omega
  unfold pwrite
  rw [if_neg hne, List.getElem?_append_left, List.getElem?_append_right, hlen]
  · omega
  · rw [List.length_append, hlen]
    exact h₂

/-- What the file had elsewhere stays. -/
theorem getElem?_pwrite_of_not_covers {content : Bytes} {w : Write} {i : ℕ} (h : ¬ w.Covers i) (hi : i < content.length) :
    (pwrite content w)[i]? = content[i]? := by
  by_cases hne : w.bytes = []
  · unfold pwrite
    rw [if_pos hne]
  unfold pwrite
  rw [if_neg hne]
  by_cases hlt : i < w.off
  · rw [List.append_assoc, List.append_assoc, List.getElem?_append_left, List.getElem?_take_of_lt hlt]
    rw [List.length_take]
    omega
  · have hge : w.off + w.bytes.length ≤ i := by
      unfold Write.Covers at h
      omega
    have hlen : (content.take w.off ++ List.replicate (w.off - content.length) 0 ++ w.bytes).length =
        w.off + w.bytes.length := by
      simp only [List.length_append, List.length_take, List.length_replicate]
      omega
    rw [List.getElem?_append_right (by omega), hlen, List.getElem?_drop]
    congr 1
    omega

/-- The file will be `full` when the outstanding writes are done. -/
structure Upto (full content : Bytes) (ws : List Write) : Prop where
  /-- Every outstanding write is a part of it. -/
  part : ∀ w ∈ ws, w.Of full
  /-- The file is not longer. -/
  short : content.length ≤ full.length
  /-- What is not there yet is covered by an outstanding write. -/
  there : ∀ i < full.length, content[i]? = full[i]? ∨ ∃ w ∈ ws, w.Covers i

namespace Upto

variable {full content : Bytes} {ws : List Write}

theorem refl (full : Bytes) : Upto full full [] :=
  ⟨fun _ h => (List.not_mem_nil h).elim, le_rfl, fun _ _ => Or.inl rfl⟩

/-- A write at the end of the plan becomes outstanding. -/
theorem append (h : Upto full content ws) (bs : Bytes) : Upto (full ++ bs) content (ws ++ [⟨full.length, bs⟩]) := by
  refine ⟨fun w hw => ?_, ?_, fun i hi => ?_⟩
  · rcases List.mem_append.mp hw with hw | hw
    · obtain ⟨h₁, h₂⟩ := h.part w hw
      refine ⟨by rw [List.length_append]; omega, fun i hi => ?_⟩
      rw [h₂ i hi, List.getElem?_append_left]
      exact Nat.lt_of_lt_of_le hi.2 h₁
    · rw [List.mem_singleton.mp hw]
      exact ⟨by simp, fun i hi => (List.getElem?_append_right hi.1).symm⟩
  · rw [List.length_append]
    exact Nat.le_add_right_of_le h.short
  · by_cases hlt : i < full.length
    · rw [List.getElem?_append_left hlt]
      rcases h.there i hlt with h | ⟨w, hw, hc⟩
      · exact Or.inl h
      · exact Or.inr ⟨w, List.mem_append_left _ hw, hc⟩
    · rw [List.length_append] at hi
      exact Or.inr ⟨_, List.mem_append_right _ (List.mem_singleton_self _), ⟨Nat.not_lt.mp hlt, hi⟩⟩

/-- An outstanding write is done. -/
theorem pwrite {as bs : List Write} {w : Write} (h : Upto full content (as ++ w :: bs)) :
    Upto full (pwrite content w) (as ++ bs) := by
  have hw := h.part w (by simp)
  have hmem : ∀ x ∈ as ++ bs, x ∈ as ++ w :: bs := by
    intro x hx
    rcases List.mem_append.mp hx with hx | hx
    · exact List.mem_append_left _ hx
    · exact List.mem_append_right _ (List.mem_cons_of_mem _ hx)
  refine ⟨fun x hx => h.part x (hmem x hx), ?_, fun i hi => ?_⟩
  · by_cases hne : w.bytes = []
    · unfold Base.pwrite
      rw [if_pos hne]
      exact h.short
    · rw [length_pwrite content w hne]
      exact max_le h.short hw.1
  · by_cases hc : w.Covers i
    · rw [getElem?_pwrite_of_covers hc]
      exact Or.inl (hw.2 i hc)
    rcases h.there i hi with hthere | ⟨x, hx, hxc⟩
    · have hlt : i < content.length := by
        by_contra hge
        rw [List.getElem?_eq_none (Nat.not_lt.mp hge), List.getElem?_eq_getElem hi] at hthere
        cases hthere
      rw [getElem?_pwrite_of_not_covers hc hlt]
      exact Or.inl hthere
    · refine Or.inr ⟨x, ?_, hxc⟩
      rcases List.mem_append.mp hx with hx | hx
      · exact List.mem_append_left _ hx
      · rcases List.mem_cons.mp hx with rfl | hx
        · exact absurd hxc hc
        · exact List.mem_append_right _ hx

/-- Only which writes are outstanding matters. -/
theorem congr (h : Upto full content ws) {ws' : List Write} (hws : ∀ w, w ∈ ws' ↔ w ∈ ws) : Upto full content ws' := by
  refine ⟨fun w hw => h.part w ((hws w).mp hw), h.short, fun i hi => ?_⟩
  rcases h.there i hi with hthere | ⟨w, hw, hc⟩
  · exact Or.inl hthere
  · exact Or.inr ⟨w, (hws w).mpr hw, hc⟩

/-- An outstanding write is two. -/
theorem cut {as bs : List Write} {w : Write} (h : Upto full content (as ++ w :: bs)) {n : ℕ} (hn : n ≤ w.bytes.length) :
    Upto full content (as ++ w.first n :: (bs ++ [w.rest n])) := by
  have hw := h.part w (by simp)
  refine ⟨fun x hx => ?_, h.short, fun i hi => ?_⟩
  · simp only [List.mem_append, List.mem_cons, List.not_mem_nil, or_false] at hx
    rcases hx with hx | rfl | hx | rfl
    · exact h.part x (List.mem_append_left _ hx)
    · exact hw.first hn
    · exact h.part x (List.mem_append_right _ (List.mem_cons_of_mem _ hx))
    · exact hw.rest hn
  · rcases h.there i hi with hthere | ⟨x, hx, hc⟩
    · exact Or.inl hthere
    · rcases List.mem_append.mp hx with hx | hx
      · exact Or.inr ⟨x, List.mem_append_left _ hx, hc⟩
      rcases List.mem_cons.mp hx with rfl | hx
      · -- the byte is in one of the two
        by_cases hlt : i < x.off + n
        · exact Or.inr ⟨_, List.mem_append_right _ (List.mem_cons_self ..), (Write.first_covers hn).mpr ⟨hc.1, hlt⟩⟩
        · exact Or.inr ⟨x.rest n, by simp, (Write.rest_covers hn).mpr ⟨Nat.not_lt.mp hlt, hc.2⟩⟩
      · exact Or.inr ⟨x, by simp [hx], hc⟩

/-- A first part of an outstanding write is done. -/
theorem pwriteFirst {as bs : List Write} {w : Write} (h : Upto full content (as ++ w :: bs)) {n : ℕ}
    (hn : n ≤ w.bytes.length) : Upto full (Base.pwrite content (w.first n)) (as ++ (bs ++ [w.rest n])) :=
  (h.cut hn).pwrite

/-- When the writes that are outstanding write nothing, the file is as planned. -/
theorem eq_of_nil (h : Upto full content ws) (hnil : ∀ w ∈ ws, w.bytes = []) : content = full := by
  refine List.ext_getElem? fun i => ?_
  by_cases hi : i < full.length
  · rcases h.there i hi with h | ⟨w, hw, hge, hlt⟩
    · exact h
    · rw [hnil w hw] at hlt
      exact absurd hlt (Nat.not_lt.mpr hge)
  · rw [List.getElem?_eq_none (Nat.not_lt.mp hi), List.getElem?_eq_none (le_trans h.short (Nat.not_lt.mp hi))]

/-- When no write is outstanding, the file is as planned. -/
theorem eq (h : Upto full content []) : content = full := h.eq_of_nil fun _ hw => (List.not_mem_nil hw).elim

end Upto

end DShuffle.Base
