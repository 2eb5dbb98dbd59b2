import DShuffle.Base.ByteMemory

/-!
# Slots in a string of bytes

Some places of a fixed width in a string of bytes are *slots*: they are written
over, one after the other, while the rest stays. Two strings *agree off* the
slots when they differ in nothing else. Writing the slots again forgets what was
in them (`patchSlots_congr`), and so does masking them (`maskSlots_eq_iff`).
`SameBut` says the same of any set of positions.
-/

namespace DShuffle.Base

variable {w : ℕ} {ks : List ℕ} {kvs : List (ℕ × Bytes)} {as bs cs : Bytes}

/-- `bs` with each value put in at its place, in order. -/
def patchSlots (bs : Bytes) : List (ℕ × Bytes) → Bytes
  | [] => bs
  | (k, v) :: kvs => patchSlots (patch bs k v) kvs

/-- `bs` with the slots set to zero. -/
def maskSlots (w : ℕ) (ks : List ℕ) (bs : Bytes) : Bytes := patchSlots bs (ks.map fun k => (k, List.replicate w 0))

/-- Every value is `w` bytes and goes in one of the slots `ks`, inside the first `n` bytes. -/
def FitSlots (w n : ℕ) (ks : List ℕ) (kvs : List (ℕ × Bytes)) : Prop :=
  ∀ kv ∈ kvs, kv.1 ∈ ks ∧ kv.2.length = w ∧ kv.1 + w ≤ n

/-- The two strings differ in the slots only. -/
structure AgreeOff (w : ℕ) (ks : List ℕ) (as bs : Bytes) : Prop where
  /-- They are of one length. -/
  length : as.length = bs.length
  /-- They agree off the slots. -/
  off : ∀ i, (∀ k ∈ ks, i < k ∨ k + w ≤ i) → as[i]? = bs[i]?

theorem AgreeOff.refl (w : ℕ) (ks : List ℕ) (bs : Bytes) : AgreeOff w ks bs bs := ⟨rfl, fun _ _ => rfl⟩

theorem AgreeOff.symm (h : AgreeOff w ks as bs) : AgreeOff w ks bs as :=
  ⟨h.length.symm, fun i hi => (h.off i hi).symm⟩

theorem AgreeOff.trans (h₁ : AgreeOff w ks as bs) (h₂ : AgreeOff w ks bs cs) : AgreeOff w ks as cs :=
  ⟨h₁.length.trans h₂.length, fun i hi => (h₁.off i hi).trans (h₂.off i hi)⟩

/-- Off the slots, the same bytes are read from both. -/
theorem AgreeOff.slice_eq {k n : ℕ} (h : AgreeOff w ks as bs) (hd : ∀ j ∈ ks, k + n ≤ j ∨ j + w ≤ k) :
    slice as k n = slice bs k n := by
  refine List.ext_getElem? fun i => ?_
  rw [getElem?_slice, getElem?_slice]
  split_ifs with hi
  · refine h.off _ fun j hj => ?_
    rcases hd j hj with h₁ | h₁
    · exact Or.inl (by omega)
    · exact Or.inr (by omega)
  · rfl

theorem FitSlots.tail {n : ℕ} {kv : ℕ × Bytes} (h : FitSlots w n ks (kv :: kvs)) : FitSlots w n ks kvs :=
  fun x hx => h x (List.mem_cons_of_mem _ hx)

theorem agreeOff_patch {k : ℕ} {v : Bytes} (hk : k ∈ ks) (hv : v.length = w) (hin : k + w ≤ bs.length) :
    AgreeOff w ks bs (patch bs k v) := by
  have hin' : k + v.length ≤ bs.length := by rw [hv]; exact hin
  refine ⟨(length_patch hin').symm, fun i hi => ?_⟩
  rw [getElem?_patch hin', hv]
  rcases hi k hk with h | h
  · rw [if_pos h]
  · rw [if_neg (by omega), if_neg (by omega)]

/-- Writing the slots changes nothing else. -/
theorem agreeOff_patchSlots (h : FitSlots w bs.length ks kvs) : AgreeOff w ks bs (patchSlots bs kvs) := by
  induction kvs generalizing bs with
  | nil => exact AgreeOff.refl ..
  | cons kv kvs ih =>
    obtain ⟨hk, hv, hin⟩ := h kv List.mem_cons_self
    have hp : AgreeOff w ks bs (patch bs kv.1 kv.2) := agreeOff_patch hk hv hin
    refine hp.trans (ih ?_)
    rw [← hp.length]
    exact h.tail

theorem length_patchSlots (h : FitSlots w bs.length ks kvs) : (patchSlots bs kvs).length = bs.length :=
  (agreeOff_patchSlots h).length.symm

/-- What the slots held is forgotten once they are written. -/
theorem patchSlots_congr (h : AgreeOff w (kvs.map Prod.fst) as bs)
    (hf : FitSlots w as.length (kvs.map Prod.fst) kvs) : patchSlots as kvs = patchSlots bs kvs := by
  induction kvs generalizing as bs with
  | nil => exact List.ext_getElem? fun i => h.off i (by simp)
  | cons kv kvs ih =>
    obtain ⟨k, v⟩ := kv
    obtain ⟨-, (hv : v.length = w), (hin : k + w ≤ as.length)⟩ := hf (k, v) List.mem_cons_self
    have ha : k + v.length ≤ as.length := by rw [hv]; exact hin
    have hb : k + v.length ≤ bs.length := by rw [← h.length]; exact ha
    refine ih ⟨by rw [length_patch ha, length_patch hb, h.length], fun i hi => ?_⟩ fun x hx => ?_
    · -- the slot just written now holds `v` in both
      rw [getElem?_patch ha, getElem?_patch hb]
      split_ifs with h₁ h₂
      · refine h.off i fun j hj => ?_
        rcases List.mem_cons.mp hj with rfl | hj
        · exact Or.inl h₁
        · exact hi j hj
      · rfl
      · refine h.off i fun j hj => ?_
        rcases List.mem_cons.mp hj with rfl | hj
        · exact Or.inr (by omega)
        · exact hi j hj
    · obtain ⟨-, hxv, hxin⟩ := hf x (List.mem_cons_of_mem _ hx)
      exact ⟨List.mem_map_of_mem hx, hxv, by rw [length_patch ha]; exact hxin⟩

theorem fitSlots_mask {n : ℕ} (h : ∀ k ∈ ks, k + w ≤ n) :
    FitSlots w n ks (ks.map fun k => (k, List.replicate w 0)) := by
  intro kv hkv
  obtain ⟨k, hk, rfl⟩ := List.mem_map.mp hkv
  exact ⟨hk, List.length_replicate .., h k hk⟩

theorem agreeOff_maskSlots (h : ∀ k ∈ ks, k + w ≤ bs.length) : AgreeOff w ks bs (maskSlots w ks bs) :=
  agreeOff_patchSlots (fitSlots_mask h)

theorem length_maskSlots (h : ∀ k ∈ ks, k + w ≤ bs.length) : (maskSlots w ks bs).length = bs.length :=
  (agreeOff_maskSlots h).length.symm

/-- **Equal masks are equal bytes off the slots.** -/
theorem maskSlots_eq_iff (ha : ∀ k ∈ ks, k + w ≤ as.length) (hl : as.length = bs.length) :
    maskSlots w ks as = maskSlots w ks bs ↔ AgreeOff w ks as bs := by
  have hb : ∀ k ∈ ks, k + w ≤ bs.length := by rw [← hl]; exact ha
  constructor
  · intro h
    have h₁ := agreeOff_maskSlots ha
    rw [h] at h₁
    exact h₁.trans (agreeOff_maskSlots hb).symm
  · intro h
    have hk : (ks.map fun k => (k, List.replicate w (0 : UInt8))).map Prod.fst = ks := by simp [Function.comp_def]
    exact patchSlots_congr (by rw [hk]; exact h) (by rw [hk]; exact fitSlots_mask ha)

/-- Masking forgets what was written in the slots. -/
theorem maskSlots_patchSlots (hin : ∀ k ∈ ks, k + w ≤ bs.length) (h : FitSlots w bs.length ks kvs) :
    maskSlots w ks (patchSlots bs kvs) = maskSlots w ks bs := by
  have ha := agreeOff_patchSlots h
  exact ((maskSlots_eq_iff hin ha.length).mpr ha).symm

theorem maskSlots_maskSlots (hin : ∀ k ∈ ks, k + w ≤ bs.length) :
    maskSlots w ks (maskSlots w ks bs) = maskSlots w ks bs :=
  maskSlots_patchSlots hin (fitSlots_mask hin)

/-- A masked string with its slots written is the string with its slots written. -/
theorem patchSlots_maskSlots (h : FitSlots w bs.length (kvs.map Prod.fst) kvs) :
    patchSlots (maskSlots w (kvs.map Prod.fst) bs) kvs = patchSlots bs kvs := by
  have hin : ∀ k ∈ kvs.map Prod.fst, k + w ≤ bs.length := by
    intro k hk
    obtain ⟨kv, hkv, rfl⟩ := List.mem_map.mp hk
    exact (h kv hkv).2.2
  exact (patchSlots_congr (agreeOff_maskSlots hin) h).symm

/-! ### Strings that agree off some positions -/

/-- The two strings are of one length and differ at positions of `P` only. -/
structure SameBut (P : ℕ → Prop) (as bs : Bytes) : Prop where
  /-- They are of one length. -/
  length : as.length = bs.length
  /-- They agree elsewhere. -/
  off : ∀ i, ¬ P i → as[i]? = bs[i]?

variable {P : ℕ → Prop} {as' bs' : Bytes}

theorem SameBut.refl (P : ℕ → Prop) (bs : Bytes) : SameBut P bs bs := ⟨rfl, fun _ _ => rfl⟩

theorem SameBut.mono {Q : ℕ → Prop} (h : SameBut P as bs) (hi : ∀ i < as.length, P i → Q i) : SameBut Q as bs := by
  refine ⟨h.length, fun i hq => ?_⟩
  by_cases hlt : i < as.length
  · exact h.off i fun hp => hq (hi i hlt hp)
  · rw [List.getElem?_eq_none (Nat.le_of_not_lt hlt), List.getElem?_eq_none (by have := h.length; omega)]

theorem SameBut.append (h₁ : SameBut P as bs) (h₂ : SameBut (fun i => P (as.length + i)) as' bs') :
    SameBut P (as ++ as') (bs ++ bs') := by
  have hl := h₁.length
  refine ⟨by rw [List.length_append, List.length_append, hl, h₂.length], fun i hp => ?_⟩
  by_cases hi : i < as.length
  · rw [List.getElem?_append_left hi, List.getElem?_append_left (by omega)]
    exact h₁.off i hp
  · rw [List.getElem?_append_right (Nat.le_of_not_lt hi), List.getElem?_append_right (by omega), ← hl]
    exact h₂.off _ (by rw [Nat.add_sub_cancel' (Nat.le_of_not_lt hi)]; exact hp)

/-- Behind a common beginning. -/
theorem SameBut.append_left (cs : Bytes) (h : SameBut (fun i => P (cs.length + i)) as bs) :
    SameBut P (cs ++ as) (cs ++ bs) := (SameBut.refl P cs).append h

theorem AgreeOff.sameBut (h : AgreeOff w ks as bs) : SameBut (fun i => ∃ k ∈ ks, k ≤ i ∧ i < k + w) as bs := by
  refine ⟨h.length, fun i hi => h.off i fun k hk => ?_⟩
  by_contra hc
  exact hi ⟨k, hk, by omega, by omega⟩

end DShuffle.Base
