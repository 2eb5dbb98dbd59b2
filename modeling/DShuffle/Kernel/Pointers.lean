import DShuffle.Serde.Heap
import Mathlib.Tactic.Ring

/-!
# Compressed pointers

The host and the device each have a `parse_cptr`, which decodes a compressed
pointer, and a `compress_ptr`, which makes one. With a base that is not zero a
pointer is decoded by a shift and then the base, but it is compressed by a shift
and then the base too; and the compressed null is decoded like any other.

## What is proved

* `parseCptr_eq`, `compressPtr_eq` — the device computes what the host does.
* `compressed_iff` — exactly when all pointers, and null, are decoded from what they
  are compressed to: without a base.
* `pointers_iff` — for the pointers alone: the base and the shifted base agree in
  their lower 32 bits.
-/

namespace DShuffle.Kernel

open Base Serde

/-- `parse_cptr` of the device. -/
def parseCptr (cptr base : ℕ) (mode : CompressMode) (shift : ℕ) : Except Fault ℕ :=
  let ptr := cptr
  match mode with
  | .raw32 => .ok ptr
  | .zeroBased => .ok ((ptr <<< shift) % 2 ^ 64)
  | .nonZeroBased => .ok ((base + ptr <<< shift) % 2 ^ 64)
  | .raw64 => .error .unreachable

/-- `compress_ptr` of the device. -/
def compressPtr (ptr base : ℕ) (mode : CompressMode) (shift : ℕ) : Except Fault ℕ :=
  match mode with
  | .raw32 => .ok (u32 ptr)
  | .zeroBased => .ok (u32 (ptr >>> shift))
  | .nonZeroBased => .ok (u32 ((ptr >>> shift + 2 ^ 64 - base) % 2 ^ 64))
  | .raw64 => .error .unreachable

theorem parseCptr_eq : parseCptr = JVMArgs.parseCptr := by
  funext cptr base mode shift
  cases mode <;> rfl

theorem compressPtr_eq : compressPtr = JVMArgs.compressPtr := by
  funext ptr base mode shift
  cases mode <;> rfl

/-- The pointer that a compressed pointer stands for. -/
def denote (c base : ℕ) (mode : CompressMode) (shift : ℕ) : ℕ :=
  match mode with
  | .raw32 => c
  | .zeroBased => c <<< shift
  | .nonZeroBased => base + c <<< shift
  | .raw64 => c

section
variable (parse compress : ℕ → ℕ → CompressMode → ℕ → Except Fault ℕ) (base : ℕ) (mode : CompressMode) (shift : ℕ)

/-- A pointer is decoded from what it is compressed to. -/
def Decodes (p : ℕ) : Prop := (compress p base mode shift >>= fun c => parse c base mode shift) = .ok p

/-- **The round trip**: every pointer but null that a compressed pointer of 32 bits stands for is decoded from what it is
compressed to, and the compressed null is decoded to null. -/
def RoundTrips : Prop :=
  (∀ c < 2 ^ 32, denote c base mode shift < 2 ^ 64 → denote c base mode shift ≠ 0 →
    Decodes parse compress base mode shift (denote c base mode shift)) ∧ parse 0 base mode shift = .ok 0

end

variable {base shift c : ℕ}

theorem shiftLeft_lt (hs : shift < 32) (hc : c < 2 ^ 32) : c <<< shift < 2 ^ 64 := by
  rw [Nat.shiftLeft_eq]
  have hpow : 2 ^ shift ≤ 2 ^ 32 := Nat.pow_le_pow_right (by decide) (by omega)
  calc c * 2 ^ shift ≤ c * 2 ^ 32 := Nat.mul_le_mul_left c hpow
    _ < 2 ^ 32 * 2 ^ 32 := Nat.mul_lt_mul_of_pos_right hc (by decide)
    _ = 2 ^ 64 := by decide

/-- Without a base, shifting there and back is the identity. -/
theorem decodes_zeroBased (base : ℕ) (hs : shift < 32) (hc : c < 2 ^ 32) :
    Decodes JVMArgs.parseCptr JVMArgs.compressPtr base .zeroBased shift (c <<< shift) := by
  show Except.ok ((u32 ((c <<< shift) >>> shift) <<< shift) % 2 ^ 64) = .ok (c <<< shift)
  rw [Nat.shiftLeft_shiftRight, u32_of_lt hc, Nat.mod_eq_of_lt (shiftLeft_lt hs hc)]

/-- What a pointer is compressed to with a base. -/
theorem compress_nonZeroBased (base shift c : ℕ) :
    (base + c <<< shift) >>> shift = base >>> shift + c := by
  rw [Nat.shiftRight_eq_div_pow, Nat.shiftRight_eq_div_pow, Nat.shiftLeft_eq,
    Nat.add_mul_div_right _ _ (Nat.two_pow_pos shift)]

/-- Distinct compressed pointers stand for distinct pointers, even where the addition wraps. -/
theorem denote_injective {c' : ℕ} (hs : shift < 32) (hc : c < 2 ^ 32) (hc' : c' < 2 ^ 32)
    (h : (base + c' <<< shift) % 2 ^ 64 = (base + c <<< shift) % 2 ^ 64) : c' = c := by
  have hlt := shiftLeft_lt hs hc
  have hlt' := shiftLeft_lt hs hc'
  have heq : c' <<< shift = c <<< shift := by
    generalize c' <<< shift = x at h hlt' ⊢
    generalize c <<< shift = y at h hlt ⊢
    omega
  rw [Nat.shiftLeft_eq, Nat.shiftLeft_eq] at heq
  exact Nat.eq_of_mul_eq_mul_right (Nat.two_pow_pos shift) heq

/-- **With a base**, a pointer is decoded from what it is compressed to exactly if shifting leaves the lower 32 bits of
the base as they are. -/
theorem decodes_nonZeroBased_iff (hb : base < 2 ^ 64) (hs : shift < 32) (hc : c < 2 ^ 32) (hp : base + c <<< shift < 2 ^ 64) :
    Decodes JVMArgs.parseCptr JVMArgs.compressPtr base .nonZeroBased shift (base + c <<< shift) ↔
      u32 (base >>> shift) = u32 base := by
  have hle : base >>> shift ≤ base := by
    rw [Nat.shiftRight_eq_div_pow]
    exact Nat.div_le_self ..
  have hcompress : u32 (((base + c <<< shift) >>> shift + 2 ^ 64 - base) % 2 ^ 64) = c ↔ u32 (base >>> shift) = u32 base := by
    rw [compress_nonZeroBased]
    generalize base >>> shift = q at hle ⊢
    unfold u32
    omega
  have hdecodes : Decodes JVMArgs.parseCptr JVMArgs.compressPtr base .nonZeroBased shift (base + c <<< shift) ↔
      (base + u32 (((base + c <<< shift) >>> shift + 2 ^ 64 - base) % 2 ^ 64) <<< shift) % 2 ^ 64 = base + c <<< shift := by
    show Except.ok _ = Except.ok _ ↔ _
    rw [Except.ok.injEq]
  rw [hdecodes, ← hcompress]
  constructor
  · intro h
    refine denote_injective hs hc (u32_lt _) (?_ : (base + _) % 2 ^ 64 = (base + _) % 2 ^ 64)
    rw [h, Nat.mod_eq_of_lt hp]
  · intro h
    rw [h, Nat.mod_eq_of_lt hp]

/-- **Exactly when the pointers round trip** with a base. -/
theorem pointers_iff (hb : base < 2 ^ 64) (hs : shift < 32) :
    (∀ c < 2 ^ 32, base + c <<< shift < 2 ^ 64 → base + c <<< shift ≠ 0 →
      Decodes JVMArgs.parseCptr JVMArgs.compressPtr base .nonZeroBased shift (base + c <<< shift)) ↔
      u32 (base >>> shift) = u32 base := by
  constructor
  · intro h
    by_cases hzero : base = 0
    · rw [hzero, Nat.zero_shiftRight]
    · have hnil : base + 0 <<< shift = base := by rw [Nat.zero_shiftLeft, Nat.add_zero]
      refine (decodes_nonZeroBased_iff hb hs (c := 0) (by decide) (by rw [hnil]; exact hb)).mp ?_
      exact h 0 (by decide) (by rw [hnil]; exact hb) (by rw [hnil]; exact hzero)
  · intro h c hc hp _
    exact (decodes_nonZeroBased_iff hb hs hc hp).mpr h

/-- The compressed null is decoded to the base. -/
theorem parse_null (base shift : ℕ) (hb : base < 2 ^ 64) : JVMArgs.parseCptr 0 base .nonZeroBased shift = .ok base := by
  show Except.ok ((base + 0 <<< shift) % 2 ^ 64) = .ok base
  rw [Nat.zero_shiftLeft, Nat.add_zero, Nat.mod_eq_of_lt hb]

theorem roundTrips_iff (mode : CompressMode) (hmode : mode ≠ .raw64) (hb : base < 2 ^ 64) (hs : shift < 32) :
    RoundTrips JVMArgs.parseCptr JVMArgs.compressPtr base mode shift ↔ (mode = .nonZeroBased → base = 0) := by
  cases mode with
  | raw32 =>
    refine ⟨fun _ h => (by cases h), fun _ => ⟨fun c hc _ _ => ?_, rfl⟩⟩
    show Except.ok (u32 c) = .ok c
    rw [u32_of_lt hc]
  | zeroBased =>
    refine ⟨fun _ h => (by cases h), fun _ => ⟨fun c hc _ _ => decodes_zeroBased base hs hc, ?_⟩⟩
    show Except.ok ((0 <<< shift) % 2 ^ 64) = .ok 0
    rw [Nat.zero_shiftLeft, Nat.zero_mod]
  | nonZeroBased =>
    constructor
    · rintro ⟨-, hnull⟩ -
      rw [parse_null base shift hb] at hnull
      exact Except.ok.inj hnull
    · intro hzero
      have hbase : base = 0 := hzero rfl
      refine ⟨(pointers_iff hb hs).mpr ?_, ?_⟩
      · rw [hbase, Nat.zero_shiftRight]
      · rw [parse_null base shift hb, hbase]
  | raw64 => exact absurd rfl hmode

/-- **Exactly when compressed pointers round trip**, on the host and on the device: for every mode that compresses, every
base and every shift. -/
theorem compressed_iff (mode : CompressMode) (hmode : mode ≠ .raw64) (hb : base < 2 ^ 64) (hs : shift < 32) :
    (RoundTrips JVMArgs.parseCptr JVMArgs.compressPtr base mode shift ∧ RoundTrips parseCptr compressPtr base mode shift) ↔
      (mode = .nonZeroBased → base = 0) := by
  rw [parseCptr_eq, compressPtr_eq, and_self]
  exact roundTrips_iff mode hmode hb hs

/-- Objects at multiples of eight: their pointers round trip where the heap ends below 32 GiB, and not where it starts
there. -/
theorem compressed_iff_heap :
    (RoundTrips JVMArgs.parseCptr JVMArgs.compressPtr 0 .zeroBased 3 ∧ RoundTrips parseCptr compressPtr 0 .zeroBased 3) ∧
      ¬ (RoundTrips JVMArgs.parseCptr JVMArgs.compressPtr (2 ^ 35) .nonZeroBased 3 ∧
        RoundTrips parseCptr compressPtr (2 ^ 35) .nonZeroBased 3) := by
  refine ⟨(compressed_iff .zeroBased (by decide) (by decide) (by decide)).mpr nofun, fun h => ?_⟩
  have hbase := (compressed_iff .nonZeroBased (by decide) (by decide) (by decide)).mp h rfl
  exact absurd hbase (by decide)

/-- **A heap base makes the pointers wrong**: the first object of a heap at 34 GiB is decoded to another address, and null
to the base. -/
theorem not_roundTrips_heap :
    JVMArgs.compressPtr (34 * 2 ^ 30 + 8) (34 * 2 ^ 30) .nonZeroBased 3 = .ok 2415919105 ∧
      JVMArgs.parseCptr 2415919105 (34 * 2 ^ 30) .nonZeroBased 3 = .ok (52 * 2 ^ 30 + 8) ∧
      JVMArgs.parseCptr 0 (34 * 2 ^ 30) .nonZeroBased 3 = .ok (34 * 2 ^ 30) ∧
      ¬ RoundTrips JVMArgs.parseCptr JVMArgs.compressPtr (34 * 2 ^ 30) .nonZeroBased 3 ∧
      ¬ RoundTrips parseCptr compressPtr (34 * 2 ^ 30) .nonZeroBased 3 := by
  have hnull : JVMArgs.parseCptr 0 (34 * 2 ^ 30) .nonZeroBased 3 ≠ .ok 0 := by decide
  refine ⟨by decide, by decide, by decide, fun h => hnull h.2, fun h => hnull ?_⟩
  rw [← parseCptr_eq]
  exact h.2

end DShuffle.Kernel
