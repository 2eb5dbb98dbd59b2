import DShuffle.Kernel.ClassInfos

/-!
# Looking classes up on the device

Where the image of a registry fits the device's buffer, the device has a copy of each
class info, and finds it by its klass as the host does.

## What is proved

* `relocateLoop_spec` — the loop ends, adds the address of the buffer to every entry of
  both tables, and changes nothing before them.
* `searchLoop_eq` — the search is a bisection of the table of pointers.
* `registerClassInfos_spec` — what the device has after `register_class_infos`.
* `device_lookup` — for every klass the device finds the copy of the class info that the
  host finds, or the null pointer where the host has a dummy; the tables by id agree
  entry by entry.
-/

namespace DShuffle.Kernel

open Base Serde Serde.Arena

/-! ### Tables -/

section
variable {m m' : Mem} {p q i : ℕ}

theorem wordAt_congr (h : ∀ x, p + 8 * i ≤ x → x < p + 8 * i + 8 → m' x = m x) : wordAt m' p i = wordAt m p i :=
  congrArg ofLe (read_congr h)

/-- An entry of a table that was stored. -/
theorem wordAt_tableBytes {ws : List ℕ} (h : read m p (8 * ws.length) = tableBytes ws) {w : ℕ} (hw : ws[i]? = some w)
    (hlt : w < 2 ^ 64) : wordAt m p i = w := by
  induction ws generalizing p i with
  | nil => cases hw
  | cons v ws ih =>
    have hsplit : read m p (8 * (v :: ws).length) = le 8 v ++ tableBytes ws := h
    obtain ⟨hfirst, hrest⟩ := read_append hsplit
    have hlen : (tableBytes ws).length = 8 * ws.length := by
      have hall := congrArg List.length hsplit
      rw [length_read, List.length_append, length_le, List.length_cons] at hall
      omega
    rw [length_le] at hfirst hrest
    rw [hlen] at hrest
    cases i with
    | zero =>
      rw [List.getElem?_cons_zero, Option.some.injEq] at hw
      unfold wordAt
      rw [Nat.mul_zero, Nat.add_zero, hfirst, ofLe_le, hw]
      exact Nat.mod_eq_of_lt hlt
    | succ i =>
      rw [List.getElem?_cons_succ] at hw
      have hnext := ih hrest hw
      have haddr : p + 8 * (i + 1) = p + 8 + 8 * i := by omega
      unfold wordAt at hnext ⊢
      rw [haddr]
      exact hnext

/-! ### Relocating -/

/-- An entry that is relocated, and what is elsewhere. -/
theorem relocateEntry_spec (dev : ℕ) (p : ℕ) (m : Mem) :
    ofLe (read (relocateEntry dev p m) p 8) = (ofLe (read m p 8) + dev) % 2 ^ 64 ∧
      ∀ x, x < p ∨ p + 8 ≤ x → relocateEntry dev p m x = m x := by
  have hlen : (le 8 (ofLe (read m p 8) + dev)).length = 8 := length_le ..
  have hself := read_write_self m p (le 8 (ofLe (read m p 8) + dev))
  rw [hlen] at hself
  refine ⟨?_, fun x hx => ?_⟩
  · unfold relocateEntry
    rw [hself, ofLe_le]
    rfl
  · unfold relocateEntry
    rcases hx with hx | hx
    · exact write_of_lt hx
    · exact write_of_le (by rw [hlen]; exact hx)

/-- **What the loop does** from the entry `i` on, when the second table stands behind the first: it ends; the entries
from `i` on have `dev` added, and nothing else has changed. -/
theorem relocateLoop_spec {g : MetaIdx} {n fuel : ℕ} (dev : ℕ) (hg : g.classInfosByKlass = g.classInfosById + 8 * n)
    (hn : n < 2 ^ 32) (hi : i ≤ n) (hfuel : n - i < fuel) : ∃ m', relocateLoop dev g n fuel i m = some m' ∧
      (∀ j, i ≤ j → j < n → wordAt m' g.classInfosById j = (wordAt m g.classInfosById j + dev) % 2 ^ 64 ∧
        wordAt m' g.classInfosByKlass j = (wordAt m g.classInfosByKlass j + dev) % 2 ^ 64) ∧
      (∀ x, x < g.classInfosById + 8 * i → m' x = m x) ∧
      ∀ x, g.classInfosByKlass ≤ x → x < g.classInfosByKlass + 8 * i → m' x = m x := by
  induction fuel generalizing i m with
  | zero => exact absurd hfuel (Nat.not_lt_zero _)
  | succ fuel ih =>
    by_cases hlt : i < n
    · -- the two entries at `i` first, then those behind them
      obtain ⟨hval₁, hkeep₁⟩ := relocateEntry_spec dev (g.classInfosById + 8 * i) m
      obtain ⟨hval₂, hkeep₂⟩ := relocateEntry_spec dev (g.classInfosByKlass + 8 * i)
        (relocateEntry dev (g.classInfosById + 8 * i) m)
      obtain ⟨m', hloop, hwords, hbelow, hbetween⟩ := ih
        (m := relocateEntry dev (g.classInfosByKlass + 8 * i) (relocateEntry dev (g.classInfosById + 8 * i) m))
        (i := i + 1) hlt (by omega)
      have hkeep : ∀ x, (x < g.classInfosById + 8 * i ∨ g.classInfosById + 8 * i + 8 ≤ x) →
          (x < g.classInfosByKlass + 8 * i ∨ g.classInfosByKlass + 8 * i + 8 ≤ x) →
          relocateEntry dev (g.classInfosByKlass + 8 * i) (relocateEntry dev (g.classInfosById + 8 * i) m) x = m x :=
        fun x hx₁ hx₂ => (hkeep₂ x hx₂).trans (hkeep₁ x hx₁)
      refine ⟨m', ?_, ?_, ?_, ?_⟩
      · rw [relocateLoop, if_pos hlt, u32_of_lt (by omega)]
        exact hloop
      · intro j hij hjn
        rcases Nat.eq_or_lt_of_le hij with rfl | hij
        · constructor
          · rw [wordAt_congr fun x _ hx => hbelow x (by omega)]
            have hfirst : wordAt (relocateEntry dev (g.classInfosByKlass + 8 * i)
                (relocateEntry dev (g.classInfosById + 8 * i) m)) g.classInfosById i = wordAt (relocateEntry dev (g.classInfosById + 8 * i) m) g.classInfosById i :=
              wordAt_congr fun x _ hx => hkeep₂ x (Or.inl (by omega))
            exact hfirst.trans hval₁
          · rw [wordAt_congr fun x hx₁ hx₂ => hbetween x (by omega) (by omega)]
            have hsecond : wordAt (relocateEntry dev (g.classInfosById + 8 * i) m) g.classInfosByKlass i =
                wordAt m g.classInfosByKlass i :=
              wordAt_congr fun x hx _ => hkeep₁ x (Or.inr (by omega))
            exact hval₂.trans (congrArg (fun w => (w + dev) % 2 ^ 64) hsecond)
        · obtain ⟨hid, hklass⟩ := hwords j hij hjn
          rw [hid, hklass]
          constructor
          · rw [wordAt_congr fun x hx₁ hx₂ => hkeep x (Or.inr (by omega)) (Or.inl (by omega))]
          · rw [wordAt_congr fun x hx₁ hx₂ => hkeep x (Or.inr (by omega)) (Or.inr (by omega))]
      · intro x hx
        exact (hbelow x (by omega)).trans (hkeep x (Or.inl hx) (Or.inl (by omega)))
      · intro x hx₁ hx₂
        exact (hbetween x hx₁ (by omega)).trans (hkeep x (Or.inr (by omega)) (Or.inl hx₂))
    · refine ⟨m, ?_, fun j hij hjn => absurd hjn (by omega), fun _ _ => rfl, fun _ _ _ => rfl⟩
      rw [relocateLoop, if_neg hlt]

/-! ### Searching -/

/-- **The search is a bisection** of the table of pointers, by the klasses they lead to. -/
theorem searchLoop_eq {g : MetaIdx} {ds : List ℕ} {klass fuel l r : ℕ}
    (htable : ∀ i d, ds[i]? = some d → wordAt m g.classInfosByKlass i = d) (hlen : ds.length < 2 ^ 32) (hr : r ≤ ds.length)
    (hfuel : r - l < fuel) : searchLoop m g klass fuel l r = some ((bisect (klassAt m) klass ds l r).getD 0) := by
  induction fuel generalizing l r with
  | zero => exact absurd hfuel (Nat.not_lt_zero _)
  | succ fuel ih =>
    rw [searchLoop, bisect]
    by_cases hlt : l < r
    · obtain ⟨d, hd⟩ : ∃ d, ds[(r - l) / 2 + l]? = some d := ⟨_, List.getElem?_eq_getElem (by omega)⟩
      rw [if_pos hlt, if_pos hlt, hd]
      simp only [htable _ _ hd]
      split_ifs with hk hless
      · rfl
      · rw [u32_of_lt (by omega)]
        exact ih hr (by omega)
      · exact ih (by omega) (by omega)
    · rw [if_neg hlt, if_neg hlt]
      rfl

end

/-! ### The device's copy -/

/-- **What DOCA promises**: the buffer is an allocation of `size` bytes, and at the three pointers the device sees the host's
memory, outside of it. -/
structure Windows (r : Resolver) (size dev infosPtr byIdPtr byKlassPtr : ℕ) (m : Mem) : Prop where
  /-- An allocation is not at the null pointer. -/
  nonnull : 0 < dev
  /-- It is in the address space. -/
  space : dev + size ≤ 2 ^ 64
  /-- It is aligned, and so are the host's buffers. -/
  aligned : dev % 4 = 0 ∧ infosPtr % 4 = 0 ∧ byIdPtr % 4 = 0 ∧ byKlassPtr % 4 = 0
  /-- The window on the arena is outside of the buffer. -/
  infosApart : infosPtr + r.pos ≤ dev ∨ dev + size ≤ infosPtr
  /-- So is the one on the offsets by id. -/
  byIdApart : byIdPtr + 8 * r.infoById.length ≤ dev ∨ dev + size ≤ byIdPtr
  /-- So is the one on the offsets by klass. -/
  byKlassApart : byKlassPtr + 8 * r.infoById.length ≤ dev ∨ dev + size ≤ byKlassPtr
  /-- The arena. -/
  infos : read m infosPtr r.pos = (exportClassInfos r).infos
  /-- The offsets by id. -/
  byId : read m byIdPtr (8 * r.infoById.length) = (exportClassInfos r).byIdOffsets
  /-- The offsets by klass. -/
  byKlass : read m byKlassPtr (8 * r.infoById.length) = (exportClassInfos r).byKlassOffsets

/-- Where the device has its copy of the class info at `b`. -/
def deviceCopy (dev : ℕ) (r : Resolver) (b : ℕ) : ℕ := dev + (b - r.base)

/-- The device has a copy of the class info at `b`, byte for byte, and a pointer to it that is not null. -/
def Copied (m : Mem) (dev : ℕ) (r : Resolver) (b : ℕ) : Prop :=
  deviceCopy dev r b ≠ 0 ∧ ∃ bl ∈ r.blocks, bl.addr = b ∧ read m (deviceCopy dev r b) bl.size = read r.mem b bl.size

section
variable {good : Prop} {r : Resolver} {size dev infosPtr byIdPtr byKlassPtr fuel : ℕ} {m : Mem}

/-- Where the offsets come from and how far they go. -/
theorem offset_lt (h : Rest good r) {b : ℕ} (hb : b ∈ r.infoById) : r.base ≤ b ∧ b - r.base < r.pos := by
  obtain ⟨bl, hbl, rfl⟩ := h.inv.known b hb
  obtain ⟨hlow, hhigh⟩ := h.inv.placed bl hbl
  have hpos := h.inv.size_pos hbl
  exact ⟨hlow, by omega⟩

/-- An entry of a table of offsets, as it was exported. -/
theorem wordAt_offsets {p : ℕ} {bs : List ℕ} (h : Rest good r) (hbs : ∀ b ∈ bs, b ∈ r.infoById) (hpos : r.pos < 2 ^ 64)
    (hread : read m p (8 * bs.length) = tableBytes (offsets r.base bs)) {i b : ℕ} (hb : bs[i]? = some b) :
    wordAt m p i = b - r.base := by
  obtain ⟨hlow, hlt⟩ := offset_lt h (hbs b (List.mem_of_getElem? hb))
  have hlen : (offsets r.base bs).length = bs.length := List.length_map _
  have hoff : (offsets r.base bs)[i]? = some (b - r.base) := by
    unfold offsets
    rw [List.getElem?_map, hb]
    have hword : (b + 2 ^ 64 - r.base) % 2 ^ 64 = b - r.base := by omega
    exact congrArg some hword
  exact wordAt_tableBytes (by rw [hlen]; exact hread) hoff (by omega)

/-- The three copies of `register_class_infos`, one behind the other in the device's buffer. -/
theorem copies_spec (h : Rest good r) (hw : Windows r size dev infosPtr byIdPtr byKlassPtr m)
    (hsize : r.pos + 16 * r.infoById.length ≤ size) :
    ∃ m₃, dMemcpy (dMemcpy (dMemcpy m dev infosPtr r.pos) (dev + r.pos) byIdPtr (8 * r.infoById.length))
        (dev + r.pos + 8 * r.infoById.length) byKlassPtr (8 * r.infoById.length) = m₃ ∧
      read m₃ dev r.pos = read r.mem r.base r.pos ∧
      read m₃ (dev + r.pos) (8 * r.infoById.length) = tableBytes (offsets r.base r.infoById) ∧
      read m₃ (dev + r.pos + 8 * r.infoById.length) (8 * r.infoByKlass.length) = tableBytes (offsets r.base r.infoByKlass) := by
  have hpos := h.inv.pos_mod
  have hlenK : r.infoByKlass.length = r.infoById.length := h.inv.perm.length_eq
  obtain ⟨ha, ha₁, ha₂, ha₃⟩ := hw.aligned
  have hapart₁ := hw.infosApart
  have hapart₂ := hw.byIdApart
  have hapart₃ := hw.byKlassApart
  obtain ⟨m₁, hm₁⟩ : ∃ m₁, dMemcpy m dev infosPtr r.pos = m₁ := ⟨_, rfl⟩
  obtain ⟨m₂, hm₂⟩ : ∃ m₂, dMemcpy m₁ (dev + r.pos) byIdPtr (8 * r.infoById.length) = m₂ := ⟨_, rfl⟩
  obtain ⟨m₃, hm₃⟩ : ∃ m₃, dMemcpy m₂ (dev + r.pos + 8 * r.infoById.length) byKlassPtr (8 * r.infoById.length) = m₃ := ⟨_, rfl⟩
  have hw₁ : m₁ = write m dev (read m infosPtr r.pos) := by
    rw [← hm₁, dMemcpy_eq _ (by omega) ha ha₁]
  -- the copies do not touch what is still to be copied
  have hw₂ : m₂ = write m₁ (dev + r.pos) (read m byIdPtr (8 * r.infoById.length)) := by
    have hsource : read m₁ byIdPtr (8 * r.infoById.length) = read m byIdPtr (8 * r.infoById.length) := by
      rw [hw₁]
      rcases hapart₂ with hap | hap
      · exact read_write_left hap
      · exact read_write_right (by rw [length_read]; omega)
    rw [← hm₂, dMemcpy_eq _ (by omega) (by omega) ha₂, hsource]
  have hw₃ : m₃ = write m₂ (dev + r.pos + 8 * r.infoById.length) (read m byKlassPtr (8 * r.infoById.length)) := by
    have hsource : read m₂ byKlassPtr (8 * r.infoById.length) = read m byKlassPtr (8 * r.infoById.length) := by
      rw [hw₂, hw₁]
      rcases hapart₃ with hap | hap
      · rw [read_write_left (by omega), read_write_left hap]
      · rw [read_write_right (by rw [length_read]; omega), read_write_right (by rw [length_read]; omega)]
    rw [← hm₃, dMemcpy_eq _ (by omega) (by omega) ha₃, hsource]
  refine ⟨m₃, ?_, ?_, ?_, ?_⟩
  · rw [hm₁, hm₂, hm₃]
  · have hself := read_write_self m dev (read m infosPtr r.pos)
    rw [length_read] at hself
    rw [hw₃, read_write_left (by omega), hw₂, read_write_left le_rfl, hw₁, hself]
    exact hw.infos
  · have hself := read_write_self m₁ (dev + r.pos) (read m byIdPtr (8 * r.infoById.length))
    rw [length_read] at hself
    rw [hw₃, read_write_left le_rfl, hw₂, hself]
    exact hw.byId
  · have hself := read_write_self m₂ (dev + r.pos + 8 * r.infoById.length) (read m byKlassPtr (8 * r.infoById.length))
    rw [length_read] at hself
    rw [hw₃, hlenK, hself]
    exact hw.byKlass

/-- An offset to which the buffer's address was added is the address of a copy. -/
theorem relocated_eq (h : Rest good r) (hspace : dev + r.pos ≤ 2 ^ 64) {b : ℕ} (hb : b ∈ r.infoById) :
    (b - r.base + dev) % 2 ^ 64 = deviceCopy dev r b := by
  obtain ⟨-, hlt⟩ := offset_lt h hb
  unfold deviceCopy
  rw [Nat.mod_eq_of_lt (by omega), Nat.add_comm]

/-- **What the device has after `register_class_infos`**: the bytes of the arena, and in both tables the addresses of the
copies. -/
theorem registerClassInfos_spec (h : Rest good r) (hw : Windows r size dev infosPtr byIdPtr byKlassPtr m)
    (hsize : r.pos + 16 * r.infoById.length ≤ size) (hsmall : size < 2 ^ 32) (hfuel : r.infoById.length < fuel) :
    ∃ m', registerClassInfos fuel m dev infosPtr r.pos r.infoById.length byIdPtr byKlassPtr =
        some (metaIdx dev r.pos r.infoById.length, m') ∧
      read m' dev r.pos = read r.mem r.base r.pos ∧
      (∀ i b, r.infoById[i]? = some b →
        wordAt m' (metaIdx dev r.pos r.infoById.length).classInfosById i = deviceCopy dev r b) ∧
      ∀ i b, r.infoByKlass[i]? = some b →
        wordAt m' (metaIdx dev r.pos r.infoById.length).classInfosByKlass i = deviceCopy dev r b := by
  have hmod : r.infoById.length * 8 % 2 ^ 64 = 8 * r.infoById.length := by
    rw [Nat.mod_eq_of_lt (by omega)]
    exact Nat.mul_comm ..
  have hklass : (metaIdx dev r.pos r.infoById.length).classInfosByKlass = dev + r.pos + 8 * r.infoById.length := by
    unfold metaIdx
    dsimp only
    rw [hmod]
  have hlenK : r.infoByKlass.length = r.infoById.length := h.inv.perm.length_eq
  have hspace : dev + r.pos ≤ 2 ^ 64 := by
    have hspace := hw.space
    omega
  obtain ⟨m₃, hm₃, hinfos, hbyId, hbyKlass⟩ := copies_spec h hw hsize
  -- then the tables are relocated
  obtain ⟨m', hloop, hwords, hbelow, -⟩ := relocateLoop_spec (m := m₃) (i := 0) (n := r.infoById.length) dev
    hklass (by omega) (Nat.zero_le _) (by omega)
  refine ⟨m', ?_, ?_, ?_, ?_⟩
  · unfold registerClassInfos
    simp only [hmod]
    show (relocateLoop dev _ _ fuel 0 (dMemcpy (dMemcpy (dMemcpy m dev infosPtr r.pos) (dev + r.pos) byIdPtr
      (8 * r.infoById.length)) (metaIdx dev r.pos r.infoById.length).classInfosByKlass byKlassPtr
        (8 * r.infoById.length))).bind _ = _
    rw [hklass, hm₃, hloop]
    rfl
  · rw [← hinfos]
    exact read_congr fun x _ hx => hbelow x (by show x < dev + r.pos + 8 * 0; omega)
  · intro i b hb
    have hi : i < r.infoById.length := (List.getElem?_eq_some_iff.mp hb).1
    rw [(hwords i (Nat.zero_le i) hi).1, ← relocated_eq h hspace (List.mem_of_getElem? hb)]
    have hword : wordAt m₃ (dev + r.pos) i = b - r.base := wordAt_offsets h (fun b hb => hb) (by omega) hbyId hb
    exact congrArg (fun w => (w + dev) % 2 ^ 64) hword
  · intro i b hb
    have hi : i < r.infoById.length := hlenK ▸ (List.getElem?_eq_some_iff.mp hb).1
    have hmem : b ∈ r.infoById := h.inv.perm.mem_iff.mp (List.mem_of_getElem? hb)
    rw [(hwords i (Nat.zero_le i) hi).2, ← relocated_eq h hspace hmem, hklass]
    have hword : wordAt m₃ (dev + r.pos + 8 * r.infoById.length) i = b - r.base :=
      wordAt_offsets h (fun b hb => h.inv.perm.mem_iff.mp hb) (by omega) hbyKlass hb
    rw [hword]

/-- A class info in the copied arena is a copy of it. -/
theorem copied_of_infos {m' : Mem} (h : Rest good r) (hdev : 0 < dev)
    (hinfos : read m' dev r.pos = read r.mem r.base r.pos) {b : ℕ} (hb : b ∈ r.infoById) : Copied m' dev r b := by
  obtain ⟨bl, hbl, rfl⟩ := h.inv.known b hb
  obtain ⟨hlow, hhigh⟩ := h.inv.placed bl hbl
  refine ⟨by unfold deviceCopy; omega, bl, hbl, rfl, ?_⟩
  have hin : bl.addr - r.base + bl.size ≤ r.pos := by omega
  have haddr : r.base + (bl.addr - r.base) = bl.addr := by omega
  have hslice := congrArg (fun bytes => slice bytes (bl.addr - r.base) bl.size) hinfos
  simp only [slice_read hin, haddr] at hslice
  exact hslice

/-- The device finds the klass of a class info in its copy. -/
theorem klassAt_copy {m' : Mem} (h : Rest good r) {b : ℕ} (hcopy : Copied m' dev r b) :
    klassAt m' (deviceCopy dev r b) = r.klass b := by
  obtain ⟨-, bl, hbl, rfl, hread⟩ := hcopy
  have hpos := h.inv.size_pos hbl
  have hsmall : 0 + 8 ≤ bl.size := by omega
  have hslice := congrArg (fun bytes => slice bytes 0 8) hread
  simp only [slice_read hsmall] at hslice
  exact congrArg ofLe hslice

end

/-- **The device's lookup agrees with the host's.** After any calls of `register_class`, and if the image fits the device's
buffer: `register_class_infos` ends, and for every klass the device's search ends with the address of its copy of the class
info that the host finds, and with the null pointer if the host finds none; the table by id has the addresses of the copies
in the order of the host's. A copy is one byte for byte, and is not at the null pointer. -/
theorem device_lookup {args : JVMArgs} {fuel : ℕ} {mem : Mem} {base maxClassInfoSize : ℕ} {ks : List FakeKlass} {r : Resolver}
    {dev infosPtr byIdPtr byKlassPtr rounds : ℕ} {m : Mem} (hks : ∀ k ∈ ks, Genuine k)
    (hrun : run (Resolver.step args fuel) (Resolver.new mem base (arenaSize maxClassInfoSize)) ks = some r)
    (hfits : ImageFits dev maxClassInfoSize r)
    (hw : Windows r (dpaBufferSize maxClassInfoSize) dev infosPtr byIdPtr byKlassPtr m)
    (hrounds : r.infoById.length < rounds) :
    ∃ g m', registerClassInfos rounds m dev infosPtr (exportClassInfos r).infos.length (exportClassInfos r).nClassInfos
        byIdPtr byKlassPtr = some (g, m') ∧
      (∀ klass, (∀ n, r.infoById.length < n →
          getClassInfoByKlass n m' g klass = some (((r.getByKlass klass).map (deviceCopy dev r)).getD 0)) ∧
        ∀ b, r.getByKlass klass = some b → Copied m' dev r b) ∧
      g.classInfosByIdLen = r.infoById.length ∧
      ∀ i b, r.infoById[i]? = some b → wordAt m' g.classInfosById i = deviceCopy dev r b ∧ Copied m' dev r b := by
  obtain ⟨hr, -, -⟩ := rest_of_run hks hrun
  have hsmall : dpaBufferSize maxClassInfoSize < 2 ^ 32 := u32_lt _
  rw [imageFits_eq] at hfits
  have hn : r.infoById.length * 8 < 2 ^ 64 := by
    obtain ⟨-, hend⟩ := hfits.byId
    have hid : dev + r.pos + 8 * r.infoById.length ≤ dev + dpaBufferSize maxClassInfoSize := hend
    omega
  have hsize := (inside_metaIdx_iff hn).mp hfits
  obtain ⟨m', hreg, hinfos, hbyId, hbyKlass⟩ := registerClassInfos_spec hr hw hsize hsmall hrounds
  have hcopied : ∀ b ∈ r.infoById, Copied m' dev r b := fun b hb => copied_of_infos hr hw.nonnull hinfos hb
  have hlen : (exportClassInfos r).infos.length = r.pos := length_read ..
  refine ⟨metaIdx dev r.pos r.infoById.length, m', ?_, fun klass => ⟨fun n hfuel => ?_, fun b hb => ?_⟩, rfl, fun i b hb => ?_⟩
  · rw [hlen]
    exact hreg
  · -- the table of pointers is sorted by the klasses behind them
    have hmem : ∀ b ∈ r.infoByKlass, b ∈ r.infoById := fun b hb => hr.inv.perm.mem_iff.mp hb
    have hlenK : r.infoByKlass.length = r.infoById.length := hr.inv.perm.length_eq
    have hkey : ∀ b ∈ r.infoByKlass, klassAt m' (deviceCopy dev r b) = r.klass b :=
      fun b hb => klassAt_copy hr (hcopied b (hmem b hb))
    have hsorted : SortedBy (klassAt m') (r.infoByKlass.map (deviceCopy dev r)) := hr.inv.sorted.map hkey
    have htable : ∀ i d, (r.infoByKlass.map (deviceCopy dev r))[i]? = some d →
        wordAt m' (metaIdx dev r.pos r.infoById.length).classInfosByKlass i = d := by
      intro i d hd
      rw [List.getElem?_map] at hd
      obtain ⟨b, hb, rfl⟩ := Option.map_eq_some_iff.mp hd
      exact hbyKlass i b hb
    have hlenD : (r.infoByKlass.map (deviceCopy dev r)).length = r.infoById.length := by rw [List.length_map, hlenK]
    unfold getClassInfoByKlass
    rw [show (metaIdx dev r.pos r.infoById.length).classInfosByKlassLen = r.infoById.length from rfl, u32_of_lt (by omega),
      searchLoop_eq htable (by omega) (by omega) (by omega), ← hlenD, bisect_eq_findSorted hsorted]
    congr 2
    -- both searches find the entry with the klass, and there is one on the device if there is one on the host
    cases hfound : r.getByKlass klass with
    | some b =>
      obtain ⟨hb, hklass⟩ := (findSorted_eq_some hr.inv.sorted).mp hfound
      exact (findSorted_eq_some hsorted).mpr ⟨List.mem_map_of_mem hb, (hkey b hb).trans hklass⟩
    | none =>
      refine (findSorted_eq_none hsorted).mpr fun d hd => ?_
      obtain ⟨b, hb, rfl⟩ := List.mem_map.mp hd
      rw [hkey b hb]
      exact (findSorted_eq_none hr.inv.sorted).mp hfound b hb
  · exact hcopied b (hr.inv.perm.mem_iff.mp (mem_of_findSorted hb))
  · exact ⟨hbyId i b hb, hcopied b (List.mem_of_getElem? hb)⟩

/-- The device's memory with windows at 8192, 16384 and 32768. -/
def windowMem (r : Resolver) : Mem :=
  write (write (write (fun _ => 0) 8192 (exportClassInfos r).infos) 16384 (exportClassInfos r).byIdOffsets) 32768
    (exportClassInfos r).byKlassOffsets

/-- An instance: two classes, and a buffer of 320 bytes. The second class comes first in the device's table by klass. -/
theorem device_lookup_sample : ∃ r g m', run (Resolver.step plainArgs 100)
    (Resolver.new (fun _ => 0) 0 (arenaSize 320)) [intArray, longArray] = some r ∧
    registerClassInfos 3 (windowMem r) 4096 8192 (exportClassInfos r).infos.length (exportClassInfos r).nClassInfos 16384 32768 =
      some (g, m') ∧
    getClassInfoByKlass 3 m' g 2048 = some 4224 ∧ getClassInfoByKlass 3 m' g 4096 = some 4096 ∧
      getClassInfoByKlass 3 m' g 3000 = some 0 ∧ (∀ b, b = 0 ∨ b = 128 → Copied m' 4096 r b) ∧
    g.classInfosByIdLen = 2 ∧ wordAt m' g.classInfosById 0 = 4096 ∧ wordAt m' g.classInfosById 1 = 4224 := by
  obtain ⟨r, hrun, hpos, -, hbase, hids, hklasses, hlong, hint, hnone⟩ := arrays_registered
  have hinfos : (exportClassInfos r).infos.length = 256 := (length_read ..).trans hpos
  have hbyId : (exportClassInfos r).byIdOffsets = tableBytes [0, 128] := by
    unfold exportClassInfos
    rw [hids, hbase]
    rfl
  have hbyKlass : (exportClassInfos r).byKlassOffsets = tableBytes [128, 0] := by
    unfold exportClassInfos
    rw [hklasses, hbase]
    rfl
  have hlen : r.infoById.length = 2 := by
    rw [hids]
    rfl
  have hlenId : (tableBytes [0, 128]).length = 16 := rfl
  have hlenKlass : (tableBytes [128, 0]).length = 16 := rfl
  have hfits : ImageFits 4096 320 r := by
    rw [imageFits_eq, hpos, hlen, inside_metaIdx_iff (by decide)]
    decide
  have hself₁ := read_write_self (fun _ => 0) 8192 (exportClassInfos r).infos
  rw [hinfos] at hself₁
  have hw : Windows r (dpaBufferSize 320) 4096 8192 16384 32768 (windowMem r) := by
    constructor
    case nonnull => decide
    case space => decide
    case aligned => decide
    case infosApart =>
      right
      decide
    case byIdApart =>
      right
      decide
    case byKlassApart =>
      right
      decide
    case infos =>
      unfold windowMem
      rw [hpos, read_write_left (by decide), read_write_left (by decide)]
      exact hself₁
    case byId =>
      unfold windowMem
      rw [hlen, hbyId, read_write_left (by decide)]
      exact read_write_self _ 16384 (tableBytes [0, 128])
    case byKlass =>
      unfold windowMem
      rw [hlen, hbyKlass]
      exact read_write_self _ 32768 (tableBytes [128, 0])
  have hrounds : r.infoById.length < 3 := by
    rw [hlen]
    decide
  obtain ⟨g, m', hreg, hbyklass, hnum, hbyid⟩ := device_lookup genuine_arrays hrun hfits hw hrounds
  have hcopy : ∀ b, deviceCopy 4096 r b = 4096 + b := fun b => by rw [deviceCopy, hbase, Nat.sub_zero]
  refine ⟨r, g, m', hrun, hreg, ?_, ?_, ?_, ?_, hnum.trans hlen, ?_, ?_⟩
  · rw [(hbyklass 2048).1 3 hrounds, hlong, Option.map_some, Option.getD_some, hcopy]
  · rw [(hbyklass 4096).1 3 hrounds, hint, Option.map_some, Option.getD_some, hcopy]
  · rw [(hbyklass 3000).1 3 hrounds, hnone]
    rfl
  · rintro b (rfl | rfl)
    · exact (hbyklass 4096).2 _ hint
    · exact (hbyklass 2048).2 _ hlong
  · rw [(hbyid 0 0 (by rw [hids]; rfl)).1, hcopy]
  · rw [(hbyid 1 128 (by rw [hids]; rfl)).1, hcopy]

end DShuffle.Kernel
