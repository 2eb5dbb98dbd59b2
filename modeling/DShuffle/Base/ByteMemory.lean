import Mathlib.Data.List.Basic
import Mathlib.Data.List.GetD
import Mathlib.Tactic.Ring

/-!
# Bytes in memory

A memory is a function from addresses to bytes. Reading takes a list of bytes
out of it, writing puts one in, and a *patch* replaces some bytes of a list in
place. The three go together: a write inside an earlier write is a write of the
patched list (`write_write_inside`), and what is read back inside a write is a
slice of the list written (`read_write_inside`). Numbers are laid out little
end first, as `le w v`, and read back by `ofLe`.
-/

namespace DShuffle.Base

/-- A string of bytes. -/
abbrev Bytes := List UInt8

/-- A memory: every address holds a byte. -/
abbrev Mem := ℕ → UInt8

/-! ### Slices and patches -/

/-- The `n` bytes of `bs` from position `k`. -/
def slice (bs : Bytes) (k n : ℕ) : Bytes := (bs.drop k).take n

/-- `bs` with the bytes from position `k` replaced by `v`. -/
def patch (bs : Bytes) (k : ℕ) (v : Bytes) : Bytes := bs.take k ++ v ++ bs.drop (k + v.length)

theorem length_patch {bs v : Bytes} {k : ℕ} (h : k + v.length ≤ bs.length) :
    (patch bs k v).length = bs.length := by
  simp [patch]; omega

theorem getElem?_slice (bs : Bytes) (k n i : ℕ) : (slice bs k n)[i]? = if i < n then bs[k + i]? else none := by
  unfold slice
  split_ifs with h
  · rw [List.getElem?_take_of_lt h, List.getElem?_drop]
  · exact List.getElem?_eq_none (by rw [List.length_take]; omega)

theorem getElem?_patch {bs v : Bytes} {k : ℕ} (h : k + v.length ≤ bs.length) (i : ℕ) :
    (patch bs k v)[i]? = if i < k then bs[i]? else if i < k + v.length then v[i - k]? else bs[i]? := by
  have hk : (bs.take k).length = k := by rw [List.length_take]; omega
  unfold patch
  rw [List.append_assoc]
  split_ifs with h₁ h₂
  · rw [List.getElem?_append_left (by omega), List.getElem?_take_of_lt h₁]
  · rw [List.getElem?_append_right (by omega), hk, List.getElem?_append_left (by omega)]
  · rw [List.getElem?_append_right (by omega), hk, List.getElem?_append_right (by omega), List.getElem?_drop]
    congr 1; omega

/-- A patch changes nothing elsewhere. -/
theorem slice_patch_of_disjoint {bs v : Bytes} {k j n : ℕ} (h : k + v.length ≤ bs.length)
    (hd : j + n ≤ k ∨ k + v.length ≤ j) : slice (patch bs k v) j n = slice bs j n := by
  refine List.ext_getElem? fun i => ?_
  rw [getElem?_slice, getElem?_slice]
  split_ifs with hi
  · rw [getElem?_patch h]
    split_ifs <;> first | rfl | omega
  · rfl

theorem patch_append_left {as bs v : Bytes} {k : ℕ} (h : k + v.length ≤ as.length) :
    patch (as ++ bs) k v = patch as k v ++ bs := by
  unfold patch
  rw [List.take_append_of_le_length (by omega), List.drop_append_of_le_length h]
  simp only [List.append_assoc]

theorem patch_append_right {as bs v : Bytes} {k : ℕ} : patch (as ++ bs) (as.length + k) v = as ++ patch bs k v := by
  unfold patch
  rw [List.take_length_add_append, Nat.add_assoc, List.drop_length_add_append]
  simp only [List.append_assoc]

/-- Patches of disjoint places commute. -/
theorem patch_comm {bs u v : Bytes} {j k : ℕ} (hj : j + u.length ≤ bs.length) (hk : k + v.length ≤ bs.length)
    (hd : j + u.length ≤ k ∨ k + v.length ≤ j) : patch (patch bs j u) k v = patch (patch bs k v) j u := by
  refine List.ext_getElem? fun i => ?_
  rw [getElem?_patch (by rw [length_patch hj]; exact hk), getElem?_patch hj,
    getElem?_patch (by rw [length_patch hk]; exact hj), getElem?_patch hk]
  split_ifs <;> first | rfl | omega

theorem slice_append_right (as bs : Bytes) (k n : ℕ) : slice (as ++ bs) (as.length + k) n = slice bs k n := by
  unfold slice; rw [List.drop_length_add_append]

theorem slice_append_left {as bs : Bytes} {k n : ℕ} (h : k + n ≤ as.length) :
    slice (as ++ bs) k n = slice as k n := by
  unfold slice
  rw [List.drop_append_of_le_length (by omega), List.take_append_of_le_length (by rw [List.length_drop]; omega)]

theorem slice_all (bs : Bytes) : slice bs 0 bs.length = bs := by simp [slice]

/-! ### Reading and writing -/

/-- The `n` bytes of `m` from address `a`. -/
def read (m : Mem) (a n : ℕ) : Bytes := (List.range n).map fun i => m (a + i)

/-- `m` with the bytes `bs` put in from address `a`. -/
def write (m : Mem) (a : ℕ) (bs : Bytes) : Mem := fun x => if a ≤ x then bs.getD (x - a) (m x) else m x

@[simp] theorem length_read (m : Mem) (a n : ℕ) : (read m a n).length = n := by simp [read]

theorem getElem?_read (m : Mem) (a n i : ℕ) : (read m a n)[i]? = if i < n then some (m (a + i)) else none := by
  unfold read
  split_ifs with h
  · simp [h]
  · exact List.getElem?_eq_none (by simp; omega)

theorem read_add (m : Mem) (a n k : ℕ) : read m a (n + k) = read m a n ++ read m (a + n) k := by
  simp [read, List.range_add, Nat.add_assoc]

theorem slice_read {m : Mem} {a n k j : ℕ} (h : k + j ≤ n) : slice (read m a n) k j = read m (a + k) j := by
  refine List.ext_getElem? fun i => ?_
  rw [getElem?_slice, getElem?_read, getElem?_read, Nat.add_assoc]
  split_ifs <;> first | rfl | omega

theorem read_congr {m m' : Mem} {a n : ℕ} (h : ∀ x, a ≤ x → x < a + n → m x = m' x) : read m a n = read m' a n :=
  List.map_congr_left fun i hi => h _ (Nat.le_add_right ..) (by have := List.mem_range.mp hi; omega)

/-- Equal reads are equal bytes. -/
theorem read_eq_iff {m m' : Mem} {a b n : ℕ} : read m a n = read m' b n ↔ ∀ i < n, m (a + i) = m' (b + i) := by
  constructor
  · intro h i hi
    have := congrArg (fun l => l[i]?) h
    simpa only [getElem?_read, if_pos hi, Option.some.injEq] using this
  · intro h
    exact List.map_congr_left fun i hi => h i (List.mem_range.mp hi)

theorem write_of_lt {m : Mem} {a x : ℕ} {bs : Bytes} (h : x < a) : write m a bs x = m x := by
  simp [write, Nat.not_le.mpr h]

theorem write_of_le {m : Mem} {a x : ℕ} {bs : Bytes} (h : a + bs.length ≤ x) : write m a bs x = m x := by
  unfold write
  rw [if_pos (by omega), List.getD_eq_default _ _ (by omega)]

theorem write_inside {m : Mem} {a i : ℕ} {bs : Bytes} (h : i < bs.length) : write m a bs (a + i) = bs[i] := by
  unfold write
  rw [if_pos (by omega), Nat.add_sub_cancel_left, List.getD_eq_getElem _ _ h]

@[simp] theorem write_nil (m : Mem) (a : ℕ) : write m a [] = m := by
  funext x; simp [write]

theorem write_append (m : Mem) (a : ℕ) (b₁ b₂ : Bytes) :
    write m a (b₁ ++ b₂) = write (write m a b₁) (a + b₁.length) b₂ := by
  funext x
  by_cases h₁ : x < a
  · rw [write_of_lt h₁, write_of_lt (by omega), write_of_lt h₁]
  obtain ⟨i, rfl⟩ := Nat.exists_eq_add_of_le (Nat.le_of_not_lt h₁)
  by_cases h₂ : i < b₁.length
  · rw [write_inside (by rw [List.length_append]; omega), write_of_lt (by omega), write_inside h₂]
    exact List.getElem_append_left h₂
  by_cases h₃ : i < b₁.length + b₂.length
  · obtain ⟨j, rfl⟩ := Nat.exists_eq_add_of_le (Nat.le_of_not_lt h₂)
    rw [write_inside (by rw [List.length_append]; omega), ← Nat.add_assoc, write_inside (by omega)]
    simp
  · rw [write_of_le (by rw [List.length_append]; omega), write_of_le (by omega), write_of_le (by omega)]

/-- A write inside an earlier write patches what was written. -/
theorem write_write_inside {m : Mem} {a k : ℕ} {bs v : Bytes} (h : k + v.length ≤ bs.length) :
    write (write m a bs) (a + k) v = write m a (patch bs k v) := by
  funext x
  by_cases h₁ : x < a
  · rw [write_of_lt (by omega), write_of_lt h₁, write_of_lt h₁]
  obtain ⟨i, rfl⟩ := Nat.exists_eq_add_of_le (Nat.le_of_not_lt h₁)
  by_cases h₂ : i < bs.length
  · have hp := getElem?_patch h i
    rw [List.getElem?_eq_getElem (by rw [length_patch h]; exact h₂), List.getElem?_eq_getElem h₂] at hp
    have hw : write m a (patch bs k v) (a + i) = _ := write_inside (by rw [length_patch h]; exact h₂)
    rw [hw]
    split_ifs at hp with h₃ h₄
    · rw [write_of_lt (by omega), write_inside h₂]; exact (Option.some.inj hp).symm
    · obtain ⟨j, rfl⟩ := Nat.exists_eq_add_of_le (Nat.le_of_not_lt h₃)
      rw [← Nat.add_assoc, write_inside (by omega)]
      rw [Nat.add_sub_cancel_left, List.getElem?_eq_getElem (by omega)] at hp
      exact (Option.some.inj hp).symm
    · rw [write_of_le (by omega), write_inside h₂]; exact (Option.some.inj hp).symm
  · rw [write_of_le (by omega), write_of_le (by omega), write_of_le (by rw [length_patch h]; omega)]

/-- What is read inside a write is a slice of what was written. -/
theorem read_write_inside {m : Mem} {a k n : ℕ} {bs : Bytes} (h : k + n ≤ bs.length) :
    read (write m a bs) (a + k) n = slice bs k n := by
  refine List.ext_getElem? fun i => ?_
  rw [getElem?_read, getElem?_slice]
  split_ifs with hi
  · rw [Nat.add_assoc, write_inside (by omega), List.getElem?_eq_getElem (by omega)]
  · rfl

/-- Reading a string is reading its two parts. -/
theorem read_append {m : Mem} {a n : ℕ} {b₁ b₂ : Bytes} (h : read m a n = b₁ ++ b₂) :
    read m a b₁.length = b₁ ∧ read m (a + b₁.length) b₂.length = b₂ := by
  have hn : n = b₁.length + b₂.length := by
    have hl := congrArg List.length h
    rwa [length_read, List.length_append] at hl
  rw [hn, read_add] at h
  exact List.append_inj h (length_read ..)

theorem read_write_self (m : Mem) (a : ℕ) (bs : Bytes) : read (write m a bs) a bs.length = bs := by
  have hin : read (write m a bs) (a + 0) bs.length = _ := read_write_inside (by omega)
  rwa [Nat.add_zero, slice_all] at hin

theorem read_write_left {m : Mem} {a c n : ℕ} {bs : Bytes} (h : c + n ≤ a) : read (write m a bs) c n = read m c n :=
  read_congr fun _ _ hx => write_of_lt (by omega)

theorem read_write_right {m : Mem} {a c n : ℕ} {bs : Bytes} (h : a + bs.length ≤ c) :
    read (write m a bs) c n = read m c n :=
  read_congr fun _ hx _ => write_of_le (by omega)

/-! ### Strings -/

/-- The string at `a`, up to its zero byte; `none` if the first `fuel` bytes have none. -/
def cString (m : Mem) : (fuel a : ℕ) → Option Bytes
  | 0, _ => none
  | fuel + 1, a => if m a = 0 then some [] else (cString m fuel (a + 1)).map (m a :: ·)

/-- A string that was stored with its zero byte, and has no other. -/
theorem cString_eq {m : Mem} {a fuel : ℕ} {s : Bytes} (h : read m a (s.length + 1) = s ++ [0]) (hs : 0 ∉ s)
    (hfuel : s.length < fuel) : cString m fuel a = some s := by
  induction s generalizing a fuel with
  | nil =>
    obtain ⟨f, rfl⟩ : ∃ f, fuel = f + 1 := ⟨fuel - 1, by omega⟩
    have hz : m a = 0 := by simpa [read] using h
    rw [cString, if_pos hz]
  | cons c s ih =>
    obtain ⟨f, rfl⟩ : ∃ f, fuel = f + 1 := ⟨fuel - 1, by omega⟩
    have hsplit : read m a (s.length + 1 + 1) = m a :: read m (a + 1) (s.length + 1) := by
      rw [Nat.add_comm _ 1, read_add]
      simp [read]
    rw [List.length_cons, hsplit, List.cons_append, List.cons.injEq] at h
    have hc : c ≠ 0 := fun hz => hs (hz ▸ List.mem_cons_self)
    rw [cString, h.1, if_neg hc, ih h.2 (fun hmem => hs (List.mem_cons_of_mem c hmem)) (by
      rw [List.length_cons] at hfuel
      omega)]
    rfl

/-! ### Little-endian numbers -/

/-- The `w` low bytes of `v`, little end first. -/
def le : ℕ → ℕ → Bytes
  | 0, _ => []
  | w + 1, v => UInt8.ofNat v :: le w (v / 256)

/-- The number that bytes denote, little end first. -/
def ofLe : Bytes → ℕ
  | [] => 0
  | b :: bs => b.toNat + 256 * ofLe bs

@[simp] theorem length_le (w v : ℕ) : (le w v).length = w := by
  induction w generalizing v with
  | zero => rfl
  | succ w ih => simp [le, ih]

theorem ofLe_le (w v : ℕ) : ofLe (le w v) = v % 256 ^ w := by
  induction w generalizing v with
  | zero => simp [le, ofLe, Nat.mod_one]
  | succ w ih =>
    have hb : (UInt8.ofNat v).toNat = v % 256 := UInt8.toNat_ofNat'
    rw [le, ofLe, ih, hb, Nat.pow_succ, Nat.mul_comm (256 ^ w), Nat.mod_mul]

theorem ofLe_lt (bs : Bytes) : ofLe bs < 256 ^ bs.length := by
  induction bs with
  | nil => simp [ofLe]
  | cons b bs ih =>
    have := b.toNat_lt
    simp only [ofLe, List.length_cons, Nat.pow_succ]
    omega

/-- The first bytes are the low ones. -/
theorem ofLe_take (bs : Bytes) (w : ℕ) : ofLe (bs.take w) = ofLe bs % 256 ^ w := by
  induction bs generalizing w with
  | nil => simp [ofLe]
  | cons b bs ih =>
    cases w with
    | zero => simp [ofLe, Nat.mod_one]
    | succ w =>
      have hb := b.toNat_lt
      rw [List.take_succ_cons, ofLe, ih, ofLe, Nat.pow_succ, Nat.mul_comm (256 ^ w), Nat.mod_mul,
        Nat.add_mul_mod_self_left, Nat.mod_eq_of_lt hb, Nat.add_mul_div_left _ _ (by omega), Nat.div_eq_of_lt hb, Nat.zero_add]

theorem le_ofLe (bs : Bytes) : le bs.length (ofLe bs) = bs := by
  induction bs with
  | nil => rfl
  | cons b bs ih =>
    have hb := b.toNat_lt
    simp only [List.length_cons, le, ofLe]
    rw [Nat.add_mul_div_left _ _ (by omega), Nat.div_eq_of_lt (by omega), Nat.zero_add, ih]
    congr 1
    apply UInt8.toNat_inj.mp
    rw [UInt8.toNat_ofNat']
    omega

/-! ### Machine words -/

/-- A number cut to 32 bits. -/
def u32 (x : ℕ) : ℕ := x % 2 ^ 32

theorem u32_le (x : ℕ) : u32 x ≤ x := Nat.mod_le ..

theorem u32_lt (x : ℕ) : u32 x < 2 ^ 32 := Nat.mod_lt _ (by decide)

theorem u32_of_lt {x : ℕ} (h : x < 2 ^ 32) : u32 x = x := Nat.mod_eq_of_lt h

/-- A number cut to 16 bits and read as a signed one. -/
def int16 (x : ℤ) : ℤ := if x % 65536 < 32768 then x % 65536 else x % 65536 - 65536

theorem int16_of_range {x : ℤ} (h₁ : -32768 ≤ x) (h₂ : x < 32768) : int16 x = x := by
  unfold int16; split_ifs <;> omega

/-- The two bytes of a signed 16-bit number. -/
def leInt16 (x : ℤ) : Bytes := le 2 (x % 65536).toNat

@[simp] theorem length_leInt16 (x : ℤ) : (leInt16 x).length = 2 := length_le _ _

theorem int16_ofLe_leInt16 (x : ℤ) : int16 (ofLe (leInt16 x)) = int16 x := by
  unfold leInt16
  rw [ofLe_le]
  unfold int16
  split_ifs <;> omega

/-! ### Alignment -/

/-- `x` rounded up to a multiple of `n`. -/
def upperAlign (x n : ℕ) : ℕ := (x + n - 1) / n * n

/-- The bytes from `x` to the next multiple of eight. -/
def pad8 (x : ℕ) : Bytes := List.replicate (upperAlign x 8 - x) 0

theorem le_upperAlign (x : ℕ) : x ≤ upperAlign x 8 := by unfold upperAlign; omega

theorem upperAlign_mod (x : ℕ) : upperAlign x 8 % 8 = 0 := by unfold upperAlign; omega

theorem upperAlign_of_mod {x : ℕ} (h : x % 8 = 0) : upperAlign x 8 = x := by unfold upperAlign; omega

theorem upperAlign_add {x : ℕ} (y : ℕ) (h : x % 8 = 0) : upperAlign (x + y) 8 = x + upperAlign y 8 := by
  unfold upperAlign; omega

/-- Four bytes behind a multiple of eight, the next one is eight bytes behind it. -/
theorem upperAlign_add_four {x : ℕ} (h : x % 8 = 0) : upperAlign (x + 4) 8 = x + 8 := upperAlign_add 4 h

/-- Twice four bytes behind it stands the next one itself. -/
theorem upperAlign_add_four_four {x : ℕ} (h : x % 8 = 0) : upperAlign (x + 4 + 4) 8 = x + 8 := upperAlign_of_mod (by omega)

@[simp] theorem upperAlign_upperAlign (x : ℕ) : upperAlign (upperAlign x 8) 8 = upperAlign x 8 :=
  upperAlign_of_mod (upperAlign_mod x)

theorem length_pad8 (x : ℕ) : (pad8 x).length = upperAlign x 8 - x := by simp [pad8]

@[simp] theorem add_length_pad8 (x : ℕ) : x + (pad8 x).length = upperAlign x 8 := by
  rw [length_pad8]; have := le_upperAlign x; omega

theorem pad8_of_mod {x : ℕ} (h : x % 8 = 0) : pad8 x = [] := by simp [pad8, upperAlign_of_mod h]

/-- Padding depends only on where an offset stands modulo eight. -/
theorem pad8_add {x : ℕ} (y : ℕ) (h : x % 8 = 0) : pad8 (x + y) = pad8 y := by
  unfold pad8; rw [upperAlign_add y h, Nat.add_sub_add_left]

end DShuffle.Base
