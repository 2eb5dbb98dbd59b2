import Mathlib.Algebra.BigOperators.Ring.List
import Mathlib.Algebra.Order.Ring.Nat
import DShuffle.Base.Transition
import DShuffle.Serde.ArenaResolver
import DShuffle.Serde.Register

/-!
# The blocks of the arena

What `register_class` stores for a class is to stay in the block that was allocated for
it, and blocks are to be disjoint and in the arena. Nothing checks either: a signature
of 80 bytes is stored all the same, and so is a block for which there is no room.

## What is proved

* `Inv.store`, `Inv.fromInstanceKlass`, `Inv.fromArrayKlass`, `Inv.registerClassInfo` — what
  the primitive steps keep. The invariant has two parts: one that holds in every run,
  whatever is stored past the end of a block, and one that holds if every signature
  fits, and every block.
-/

namespace DShuffle.Serde.Arena

open Base Serde.ClassResolver

/-! ### Layouts -/

/-- `n_non_static_field` and `n_static_field` of an instance klass. -/
def counts (k : FakeInstanceKlass) : ℕ × ℕ :=
  match k.fieldsCount with
  | .ok (nField, nStatic) => ((nField + 256 - nStatic) % 256, nStatic)
  | .error _ => (0, 0)

/-- The layout of the block for a klass. -/
def layoutOf : FakeKlass → Layout
  | .inst k => instanceLayout (counts k).1 (counts k).2 k.isEnum
  | .array _ => arrayLayout

theorem counts_lt (k : FakeInstanceKlass) : (counts k).1 < 256 ∧ (counts k).2 < 256 := by
  unfold counts
  split
  · rename_i nField nStatic h
    refine ⟨Nat.mod_lt _ (by decide), ?_⟩
    obtain ⟨⟨n, s⟩, -, h⟩ := bind_eq_ok h
    cases h
    exact Nat.mod_lt _ (by decide)
  · exact ⟨by decide, by decide⟩

section
variable {n s : ℕ}

theorem instanceLayout_plain (hn : n < 256) :
    instanceLayout n s false = ⟨n, s, 0, 24 + 24 * n, 24 + 24 * n + 80⟩ := by
  have hneeded : u32 (sizeofClassInfo + n * sizeofFieldInfo) = 24 + 24 * n := by
    unfold u32 sizeofClassInfo sizeofFieldInfo
    omega
  have hsize : u32 (24 + 24 * n) = 24 + 24 * n := u32_of_lt (by omega)
  have hsum : u32 (24 + 24 * n + maxSignatureLength) = 24 + 24 * n + 80 := u32_of_lt (by
    unfold maxSignatureLength
    omega)
  have hoff : (24 + 24 * n) % 2 ^ 16 = 24 + 24 * n := Nat.mod_eq_of_lt (by omega)
  unfold instanceLayout
  simp only [hneeded, Bool.false_eq_true, if_false, Nat.add_zero, hsize, hsum, hoff]

/-- The table of an enum comes between the fields and the signature; without static fields it has size `-16`. -/
theorem instanceLayout_enum (hn : n < 256) (hs : s < 256) :
    instanceLayout n s true = ⟨n, s, 24 + 24 * n, 24 + 24 * n + 16 * s - 16, 24 + 24 * n + 16 * s - 16 + 80⟩ := by
  have hneeded : u32 (sizeofClassInfo + n * sizeofFieldInfo) = 24 + 24 * n := by
    unfold u32 sizeofClassInfo sizeofFieldInfo
    omega
  have htable : u32 (24 + 24 * n + (s + 2 ^ 64 - 1) % 2 ^ 64 * 16 % 2 ^ 64) = 24 + 24 * n + 16 * s - 16 := by
    unfold u32
    omega
  have hsum : u32 (24 + 24 * n + 16 * s - 16 + maxSignatureLength) = 24 + 24 * n + 16 * s - 16 + 80 := u32_of_lt (by
    unfold maxSignatureLength
    omega)
  have hoff : (24 + 24 * n) % 2 ^ 16 = 24 + 24 * n := Nat.mod_eq_of_lt (by omega)
  have hsig : (24 + 24 * n + 16 * s - 16) % 2 ^ 16 = 24 + 24 * n + 16 * s - 16 := Nat.mod_eq_of_lt (by omega)
  unfold instanceLayout
  simp only [hneeded, if_true, htable, hsum, hoff, hsig]

end

/-- What every layout has. -/
structure Layout.Regular (l : Layout) : Prop where
  /-- The signature has the last 80 bytes. -/
  size : l.size = l.sigOff + 80
  /-- Blocks are multiples of eight. -/
  aligned : l.size % 8 = 0
  /-- The signature starts behind the klass. -/
  sigOff : 8 ≤ l.sigOff
  /-- Offsets are `uint16_t`. -/
  small : l.sigOff < 2 ^ 16 ∧ l.enumRefArrOff < 2 ^ 16
  /-- The fields end in the block. -/
  fields : 24 + 24 * l.nNonStatic ≤ l.size
  /-- The counts are `uint8_t`. -/
  counts : l.nNonStatic < 256 ∧ l.nStatic < 256

theorem regular_layoutOf (k : FakeKlass) : (layoutOf k).Regular := by
  cases k with
  | inst k =>
    obtain ⟨hn, hs⟩ := counts_lt k
    show (instanceLayout (counts k).1 (counts k).2 k.isEnum).Regular
    generalize (counts k).1 = n at hn
    generalize (counts k).2 = s at hs
    cases k.isEnum with
    | false =>
      rw [instanceLayout_plain hn]
      constructor <;> dsimp only <;> omega
    | true =>
      rw [instanceLayout_enum hn hs]
      constructor <;> dsimp only <;> omega
  | array k =>
    show arrayLayout.Regular
    exact ⟨by decide, by decide, by decide, by decide, by decide, by decide⟩

/-! ### Headers -/

/-- The members of a class info are where the code looks for them. -/
theorem Header.slices (h : Header) : h.bytes.length = 24 ∧ slice h.bytes 0 8 = le 8 h.klass ∧
    slice h.bytes 10 2 = le 2 h.layout.enumRefArrOff ∧ slice h.bytes 19 1 = le 1 h.layout.nNonStatic ∧
    slice h.bytes 20 1 = le 1 h.layout.nStatic ∧ slice h.bytes 22 2 = le 2 h.layout.sigOff :=
  ⟨rfl, rfl, rfl, rfl, rfl, rfl⟩

/-! ### Klasses -/

/-- **What the JVM promises about a klass**, and those that registering it registers. -/
structure Genuine (k : FakeKlass) : Prop where
  /-- An address has 64 bits. -/
  small : ∀ k' ∈ k.closure, k'.addr < 2 ^ 64
  /-- Distinct klasses have distinct addresses. -/
  distinct : (k.closure.map FakeKlass.addr).Nodup
  /-- A signature has no zero byte. -/
  text : ∀ k' ∈ k.closure, 0 ∉ k'.signature
  /-- A class has a name. -/
  named : ∀ e, FakeKlass.inst e ∈ k.closure → e.name ≠ []

/-- **The class fits its block**: so does its signature, with the zero byte; the number of static fields of an enum is not a
multiple of 256; and its constants have places in the table. -/
structure Fits (k : FakeKlass) : Prop where
  /-- The signature. -/
  short : k.signature.length + 1 ≤ maxSignatureLength
  /-- An enum's table has a size. -/
  counted : ∀ e, k = .inst e → e.isEnum = true → 1 ≤ (counts e).2
  /-- It has room for the constants. -/
  constants : ∀ e, k = .inst e → e.isEnum = true → ∀ f ∈ e.fields.take ((counts e).2 - 1), ∀ c,
    f.constant = some c → c.ordinal < (counts e).2 - 1

/-- What may be stored later: the id, the two sizes, the fields and the table. -/
def Layout.Mutable (l : Layout) (off len : ℕ) : Prop :=
  (8 ≤ off ∧ off + len ≤ 10) ∨ (16 ≤ off ∧ off + len ≤ 19) ∨ (24 ≤ off ∧ off + len ≤ l.sigOff)

/-- In the block of a class that fits, the fields and the table end where the signature starts. -/
theorem Fits.table {k : FakeKlass} (h : Fits k) : 24 + 24 * (layoutOf k).nNonStatic ≤ (layoutOf k).sigOff ∧
    ∀ e, k = .inst e → e.isEnum = true → (layoutOf k).enumRefArrOff = 24 + 24 * (counts e).1 ∧
      (layoutOf k).sigOff = (layoutOf k).enumRefArrOff + 16 * ((counts e).2 - 1) := by
  cases k with
  | inst k =>
    obtain ⟨hn, hs⟩ := counts_lt k
    show _ ≤ (instanceLayout (counts k).1 (counts k).2 k.isEnum).sigOff ∧ _
    have hcounted := h.counted k rfl
    cases he : k.isEnum with
    | false =>
      refine ⟨?_, fun e heq hen => ?_⟩
      · rw [layoutOf, he, instanceLayout_plain hn]
      · cases heq
        rw [he] at hen
        cases hen
    | true =>
      have hpos := hcounted he
      rw [layoutOf, he, instanceLayout_enum hn hs]
      refine ⟨?_, fun e heq _ => ?_⟩
      · dsimp only
        omega
      · cases heq
        dsimp only
        omega
  | array k =>
    refine ⟨by show 24 + 24 * 1 ≤ 48; decide, fun e heq _ => ?_⟩
    cases heq

/-! ### The invariant -/

/-- The class info at the block has the signature of the block's class. -/
structure Signed (r : Resolver) (bl : Block) : Prop where
  /-- Its place. -/
  sigOff : r.sigOff bl.addr = (layoutOf bl.klass).sigOff
  /-- Its bytes. -/
  bytes : read r.mem (bl.addr + (layoutOf bl.klass).sigOff) (bl.klass.signature.length + 1) = bl.klass.signature ++ [0]

theorem Signed.congr {r r' : Resolver} {bl : Block} (h : Signed r bl) (hmem : r'.mem = r.mem) : Signed r' bl := by
  obtain ⟨h₁, h₂⟩ := h
  unfold Resolver.sigOff Resolver.load at h₁
  refine ⟨?_, by rw [hmem, h₂]⟩
  unfold Resolver.sigOff Resolver.load
  rw [hmem, h₁]

/-- **What holds between two steps**; with `good`, all that was registered fits. -/
structure Inv (good : Prop) (r : Resolver) : Prop where
  /-- Blocks are in the part of the arena that was given out. -/
  placed : ∀ bl ∈ r.blocks, r.base ≤ bl.addr ∧ bl.addr + bl.size ≤ r.base + r.pos
  /-- They have the sizes that were asked for. -/
  size : ∀ bl ∈ r.blocks, bl.size = (layoutOf bl.klass).size
  /-- They fill that part. -/
  pos : r.pos = (r.blocks.map Block.size).sum
  /-- They are disjoint. -/
  apart : r.blocks.Pairwise fun b c => b.addr + b.size ≤ c.addr
  /-- Each has the address of its klass. -/
  klass : ∀ bl ∈ r.blocks, r.klass bl.addr = bl.klass.addr
  /-- A field that waits is a field of a block. -/
  waits : ∀ sig q, q ∈ waiting r.unresolved sig → ∃ bl ∈ r.blocks, bl.addr = q.1 ∧ q.2 < (layoutOf bl.klass).nNonStatic
  /-- What is registered is a block. -/
  known : ∀ b ∈ r.infoById, ∃ bl ∈ r.blocks, bl.addr = b
  /-- `info_by_klass` has the same entries. -/
  perm : r.infoByKlass.Perm r.infoById
  /-- It is sorted by the klass. -/
  sorted : SortedBy r.klass r.infoByKlass
  /-- There was room. -/
  room : good → r.pos ≤ r.lim
  /-- The classes fit. -/
  fits : good → ∀ bl ∈ r.blocks, Fits bl.klass
  /-- Signatures are there. -/
  signed : good → ∀ bl ∈ r.blocks, Signed r bl
  /-- Every store was inside its block. -/
  inside : good → ∀ s ∈ r.stores, ∃ bl ∈ r.blocks, bl.addr = s.block ∧ s.off + s.len ≤ bl.size

/-- The steps left the blocks and the registered classes as they were. -/
structure Frame (r r' : Resolver) : Prop where
  /-- The arena. -/
  base : r'.base = r.base
  /-- Its size. -/
  lim : r'.lim = r.lim
  /-- The blocks. -/
  blocks : r'.blocks = r.blocks
  /-- `info_by_id`. -/
  infoById : r'.infoById = r.infoById
  /-- `info_by_klass`. -/
  infoByKlass : r'.infoByKlass = r.infoByKlass

theorem Frame.refl (r : Resolver) : Frame r r := ⟨rfl, rfl, rfl, rfl, rfl⟩

theorem Frame.trans {r r' r'' : Resolver} (h : Frame r r') (h' : Frame r' r'') : Frame r r'' :=
  ⟨h'.base.trans h.base, h'.lim.trans h.lim, h'.blocks.trans h.blocks, h'.infoById.trans h.infoById,
    h'.infoByKlass.trans h.infoByKlass⟩

theorem Frame.store (r : Resolver) (b off : ℕ) (bytes : Bytes) : Frame r (r.store b off bytes) := ⟨rfl, rfl, rfl, rfl, rfl⟩

section
variable {good : Prop} {r : Resolver} {bl : Block} {off n : ℕ} {bytes : Bytes}

/-- A load does not see a store behind it, or one before it. -/
theorem load_store {b c k : ℕ} (h : c + k + n ≤ b + off ∨ b + off + bytes.length ≤ c + k) :
    (r.store b off bytes).load c k n = r.load c k n := by
  unfold Resolver.load Resolver.store
  rcases h with h | h
  · rw [read_write_left h]
  · rw [read_write_right h]

theorem Inv.size_pos (h : Inv good r) (hbl : bl ∈ r.blocks) : 88 ≤ bl.size := by
  have hreg := regular_layoutOf bl.klass
  have hsize := hreg.size
  have hoff := hreg.sigOff
  rw [h.size bl hbl]
  omega

/-- Two blocks are the same, or one lies behind the other. -/
theorem Inv.cases_blocks (h : Inv good r) {bl' : Block} (hbl : bl ∈ r.blocks) (hbl' : bl' ∈ r.blocks) :
    bl' = bl ∨ bl'.addr + bl'.size ≤ bl.addr ∨ bl.addr + bl.size ≤ bl'.addr := by
  by_cases heq : bl' = bl
  · exact Or.inl heq
  · have hsymm : Std.Symm fun b c : Block => b.addr + b.size ≤ c.addr ∨ c.addr + c.size ≤ b.addr := ⟨fun _ _ h => h.symm⟩
    have hor : r.blocks.Pairwise fun b c => b.addr + b.size ≤ c.addr ∨ c.addr + c.size ≤ b.addr :=
      h.apart.imp fun h => Or.inl h
    exact Or.inr (hor.forall hbl' hbl heq)

/-- What a store into a block, or behind it if it is the last one, leaves of a block. -/
theorem Inv.read_store (h : Inv good r) {bl' : Block} (hbl : bl ∈ r.blocks) (hbl' : bl' ∈ r.blocks)
    (hend : off + bytes.length ≤ bl.size ∨ ∀ bl' ∈ r.blocks, bl'.addr ≤ bl.addr) {k : ℕ} (hk : k + n ≤ bl'.size)
    (hsame : k + n ≤ off ∨ off + bytes.length ≤ k ∨ bl' ≠ bl) :
    read (r.store bl.addr off bytes).mem (bl'.addr + k) n = read r.mem (bl'.addr + k) n := by
  show read (write r.mem (bl.addr + off) bytes) (bl'.addr + k) n = _
  have hpos := h.size_pos hbl
  rcases h.cases_blocks hbl hbl' with rfl | hleft | hright
  · rcases hsame with hsame | hsame | hsame
    · exact read_write_left (by omega)
    · exact read_write_right (by omega)
    · exact absurd rfl hsame
  · exact read_write_left (by omega)
  · rcases hend with hend | hend
    · exact read_write_right (by omega)
    · have hle := hend bl' hbl'
      omega

/-- **A store** into a block, or behind it if it is the last one. If the classes fit, it is at a place that may be stored to. -/
theorem Inv.store (h : Inv good r) (hbl : bl ∈ r.blocks) (hoff : 8 ≤ off)
    (hend : off + bytes.length ≤ bl.size ∨ ∀ bl' ∈ r.blocks, bl'.addr ≤ bl.addr)
    (hmut : good → (layoutOf bl.klass).Mutable off bytes.length) : Inv good (r.store bl.addr off bytes) := by
  have hklass : ∀ bl' ∈ r.blocks, (r.store bl.addr off bytes).klass bl'.addr = r.klass bl'.addr := by
    intro bl' hbl'
    have hpos := h.size_pos hbl'
    exact congrArg ofLe (h.read_store hbl hbl' hend (by omega) (Or.inl (by omega)))
  have hsize := h.size bl hbl
  have hreg := regular_layoutOf bl.klass
  constructor
  case placed => exact h.placed
  case size => exact h.size
  case pos => exact h.pos
  case apart => exact h.apart
  case klass => exact fun bl' hbl' => (hklass bl' hbl').trans (h.klass bl' hbl')
  case waits => exact h.waits
  case known => exact h.known
  case perm => exact h.perm
  case sorted =>
    refine h.sorted.congr fun b hb => ?_
    obtain ⟨bl', hbl', rfl⟩ := h.known b (h.perm.mem_iff.mp hb)
    exact hklass bl' hbl'
  case room => exact h.room
  case fits => exact h.fits
  case signed =>
    intro hgood bl' hbl'
    obtain ⟨hplace, hbytes⟩ := h.signed hgood bl' hbl'
    have hmut := hmut hgood
    have hshort := (h.fits hgood bl' hbl').short
    have hsize' := h.size bl' hbl'
    have hreg' := regular_layoutOf bl'.klass
    have hpos' := h.size_pos hbl'
    unfold Layout.Mutable at hmut
    unfold maxSignatureLength at hshort
    have h₁ := hreg'.size
    have htable := (h.fits hgood bl' hbl').table.1
    constructor
    · rw [← hplace]
      refine congrArg ofLe (h.read_store hbl hbl' hend (by omega) ?_)
      omega
    · rw [← hbytes]
      refine h.read_store hbl hbl' hend (by omega) ?_
      by_cases heq : bl' = bl
      · subst heq
        omega
      · exact Or.inr (Or.inr heq)
  case inside =>
    intro hgood s hs
    rcases List.mem_append.mp hs with hs | hs
    · exact h.inside hgood s hs
    · rw [List.mem_singleton.mp hs]
      refine ⟨bl, hbl, rfl, ?_⟩
      have hmut := hmut hgood
      have hpos := h.size_pos hbl
      have h₁ := hreg.size
      unfold Layout.Mutable at hmut
      show off + bytes.length ≤ bl.size
      omega

/-! ### New blocks -/

theorem Inv.pos_mod (h : Inv good r) : r.pos % 8 = 0 := by
  have hdvd : 8 ∣ (r.blocks.map Block.size).sum := by
    refine List.dvd_sum fun n hn => ?_
    obtain ⟨bl, hbl, rfl⟩ := List.mem_map.mp hn
    rw [h.size bl hbl]
    exact Nat.dvd_of_mod_eq_zero (regular_layoutOf bl.klass).aligned
  rw [h.pos]
  exact Nat.mod_eq_zero_of_dvd hdvd

/-- `pos` after the allocation of a block for a klass. -/
theorem Inv.upperAlign_eq (h : Inv good r) (k : FakeKlass) :
    upperAlign (r.pos + (layoutOf k).size) 8 = r.pos + (layoutOf k).size := by
  have hmod := h.pos_mod
  have halign := (regular_layoutOf k).aligned
  exact upperAlign_of_mod (by omega)

/-- A resolver after the allocation of a block for `k`, with the memory `m` and more stores. -/
def allocated (r : Resolver) (k : FakeKlass) (m : Mem) (ss : List Store) : Resolver :=
  { (r.allocate (layoutOf k).size k).1 with mem := m, stores := r.stores ++ ss }

/-- **A new block**, when nothing is stored below it and it has its klass. If the class fits and there is room, its signature
is there, and nothing is stored behind it. -/
theorem Inv.extend (h : Inv good r) {k : FakeKlass} {m : Mem} {ss : List Store}
    (hbelow : ∀ x < r.base + r.pos, m x = r.mem x) (hklass : ofLe (read m (r.base + r.pos) 8) = k.addr)
    (hfits : good → Fits k) (hroom : good → r.pos + (layoutOf k).size ≤ r.lim)
    (hsigned : good → Signed (allocated r k m ss) ⟨r.base + r.pos, (layoutOf k).size, k⟩)
    (hss : good → ∀ s ∈ ss, s.block = r.base + r.pos ∧ s.off + s.len ≤ (layoutOf k).size) :
    Inv good (allocated r k m ss) := by
  have hread : ∀ bl ∈ r.blocks, ∀ j n, j + n ≤ bl.size → read m (bl.addr + j) n = read r.mem (bl.addr + j) n := by
    intro bl hbl j n hj
    obtain ⟨-, hend⟩ := h.placed bl hbl
    exact read_congr fun x _ hx => hbelow x (by omega)
  have hkeep : ∀ bl ∈ r.blocks, (allocated r k m ss).klass bl.addr = r.klass bl.addr := by
    intro bl hbl
    have hpos := h.size_pos hbl
    exact congrArg ofLe (hread bl hbl 0 8 (by omega))
  have hmem : ∀ {bl}, bl ∈ (allocated r k m ss).blocks →
      bl ∈ r.blocks ∨ bl = ⟨r.base + r.pos, (layoutOf k).size, k⟩ := by
    intro bl hbl
    rcases List.mem_append.mp hbl with hbl | hbl
    · exact Or.inl hbl
    · exact Or.inr (List.mem_singleton.mp hbl)
  have hpos : (allocated r k m ss).pos = r.pos + (layoutOf k).size := h.upperAlign_eq k
  constructor
  case placed =>
    intro bl hbl
    rw [hpos]
    show r.base ≤ bl.addr ∧ bl.addr + bl.size ≤ r.base + _
    rcases hmem hbl with hbl | rfl
    · obtain ⟨h₁, h₂⟩ := h.placed bl hbl
      exact ⟨h₁, by omega⟩
    · exact ⟨Nat.le_add_right .., by dsimp only; omega⟩
  case size =>
    intro bl hbl
    rcases hmem hbl with hbl | rfl
    · exact h.size bl hbl
    · rfl
  case pos =>
    rw [hpos]
    show _ = ((r.blocks ++ [_]).map Block.size).sum
    rw [List.map_append, List.sum_append, ← h.pos]
    simp
  case apart =>
    refine List.pairwise_append.mpr ⟨h.apart, List.pairwise_singleton .., ?_⟩
    intro b hb c hc
    rw [List.mem_singleton.mp hc]
    exact (h.placed b hb).2
  case klass =>
    intro bl hbl
    rcases hmem hbl with hbl | rfl
    · exact (hkeep bl hbl).trans (h.klass bl hbl)
    · exact hklass
  case waits =>
    intro sig q hq
    obtain ⟨bl, hbl, hw⟩ := h.waits sig q hq
    exact ⟨bl, List.mem_append_left _ hbl, hw⟩
  case known =>
    intro b hb
    obtain ⟨bl, hbl, heq⟩ := h.known b hb
    exact ⟨bl, List.mem_append_left _ hbl, heq⟩
  case perm => exact h.perm
  case sorted =>
    refine h.sorted.congr fun b hb => ?_
    obtain ⟨bl', hbl', rfl⟩ := h.known b (h.perm.mem_iff.mp hb)
    exact hkeep bl' hbl'
  case room =>
    intro hgood
    rw [hpos]
    exact hroom hgood
  case fits =>
    intro hgood bl hbl
    rcases hmem hbl with hbl | rfl
    · exact h.fits hgood bl hbl
    · exact hfits hgood
  case signed =>
    intro hgood bl hbl
    rcases hmem hbl with hbl | rfl
    · obtain ⟨hplace, hbytes⟩ := h.signed hgood bl hbl
      have hshort := (h.fits hgood bl hbl).short
      have hsize := h.size bl hbl
      have hreg := (regular_layoutOf bl.klass).size
      have hpos := h.size_pos hbl
      unfold maxSignatureLength at hshort
      constructor
      · rw [← hplace]
        exact congrArg ofLe (hread bl hbl 22 2 (by omega))
      · rw [← hbytes]
        exact hread bl hbl _ _ (by omega)
    · exact hsigned hgood
  case inside =>
    intro hgood s hs
    rcases List.mem_append.mp hs with hs | hs
    · obtain ⟨bl, hbl, hin⟩ := h.inside hgood s hs
      exact ⟨bl, List.mem_append_left _ hbl, hin⟩
    · obtain ⟨hblock, hin⟩ := hss hgood s hs
      exact ⟨_, List.mem_append_right _ (List.mem_singleton_self _), hblock.symm, hin⟩

/-- The memory after the stores of `from_instance_klass`, with the header `hdr` and the signature `sig`. -/
def instanceMem (m : Mem) (b sigOff nNonStatic : ℕ) (hdr sig : Bytes) : Mem :=
  write (write (write (write m (b + 0) hdr) (b + sigOff) (List.replicate maxSignatureLength 63)) (b + sigOff) (sig ++ [0]))
    (b + sizeofClassInfo) (List.replicate (sizeofFieldInfo * nNonStatic) 255)

section
variable {m : Mem} {b sigOff nNonStatic : ℕ} {hdr sig : Bytes}

theorem instanceMem_below {x : ℕ} (hx : x < b) : instanceMem m b sigOff nNonStatic hdr sig x = m x := by
  unfold instanceMem
  rw [write_of_lt (by omega), write_of_lt (by omega), write_of_lt (by omega), write_of_lt (by omega)]

/-- The part of the header before the signature is as it was stored. -/
theorem read_instanceMem {j : ℕ} (hhdr : hdr.length = 24) (hj : j ≤ 24) (hsig : j ≤ sigOff) :
    read (instanceMem m b sigOff nNonStatic hdr sig) b j = slice hdr 0 j := by
  have hself : read (write m (b + 0) hdr) (b + 0 + 0) j = slice hdr 0 j := read_write_inside (by omega)
  unfold instanceMem
  rw [read_write_left (by show b + j ≤ b + 24; omega), read_write_left (by omega), read_write_left (by omega)]
  exact hself

/-- The signature is as it was stored, if the fields end before it. -/
theorem read_instanceMem_signature (hsig : 24 + 24 * nNonStatic ≤ sigOff) :
    read (instanceMem m b sigOff nNonStatic hdr sig) (b + sigOff) (sig.length + 1) = sig ++ [0] := by
  have hlen : (sig ++ [0]).length = sig.length + 1 := by simp
  unfold instanceMem
  rw [read_write_right, ← hlen, read_write_self]
  rw [List.length_replicate]
  unfold sizeofClassInfo sizeofFieldInfo
  omega

end

/-- A number in a header. -/
theorem load_of_read {r : Resolver} {b : ℕ} {hdr : Bytes} (h : read r.mem b 24 = hdr) {j n : ℕ} (hj : j + n ≤ 24) :
    r.load b j n = ofLe (slice hdr j n) := by
  rw [← h, slice_read hj]
  rfl

/-- Where the table of an enum is looked for when its signature was stored over the header. -/
theorem le_ofLe_signature {k : FakeInstanceKlass} (hname : k.name ≠ []) (htext : 0 ∉ k.signature) :
    24 ≤ ofLe (slice (k.signature ++ [0]) 2 2) := by
  have hsig : k.signature ++ [0] = 76 :: (k.name ++ [59, 0]) := by
    show sym "L" ++ k.name ++ sym ";" ++ [0] = _
    have h₁ : sym "L" = [76] := by decide
    have h₂ : sym ";" = [59] := by decide
    rw [h₁, h₂]
    simp
  have hmem : ∀ c ∈ k.name, c.toNat ≠ 0 := by
    intro c hc hz
    refine htext ?_
    have hzero : c = 0 := UInt8.toNat_inj.mp hz
    rw [← hzero]
    exact List.mem_append_left _ (List.mem_append_right _ hc)
  rw [hsig]
  cases hcs : k.name with
  | nil => exact absurd hcs hname
  | cons c cs =>
    cases cs with
    | nil => simp [slice, ofLe]
    | cons d ds =>
      have hd := hmem d (by rw [hcs]; simp)
      cases ds with
      | nil =>
        simp [slice, ofLe]
      | cons e es =>
        have he := hmem e (by rw [hcs]; simp)
        simp [slice, ofLe]
        omega

/-- Of an enum without static fields the signature starts at 8, where the id is; the table is not looked for in the fixed part,
for all that. -/
theorem le_enumRefArrOff_of_overlap {m : Mem} {b : ℕ} (hdr : Header) {k : FakeInstanceKlass} (hname : k.name ≠ [])
    (htext : 0 ∉ k.signature) (hen : k.isEnum = true) (hsig : ¬ 24 ≤ (layoutOf (.inst k)).sigOff) :
    24 ≤ ofLe (read (instanceMem m b (layoutOf (.inst k)).sigOff (counts k).1 hdr.bytes k.signature) (b + 10) 2) := by
  have hl : layoutOf (.inst k) = _ :=
    (congrArg _ hen).trans (instanceLayout_enum (counts_lt k).1 (counts_lt k).2)
  have hoff : (layoutOf (.inst k)).sigOff = 8 := by
    have hsig₈ := (regular_layoutOf (.inst k)).sigOff
    rw [hl] at hsig hsig₈ ⊢
    dsimp only at hsig hsig₈ ⊢
    omega
  have hlong : 2 + 2 ≤ (k.signature ++ [0]).length := by
    have hpos := List.length_pos_iff.mpr hname
    have h₁ : (sym "L").length = 1 := by decide
    have h₂ : (sym ";").length = 1 := by decide
    show 4 ≤ (sym "L" ++ k.name ++ sym ";" ++ [0]).length
    simp only [List.length_append, List.length_singleton]
    omega
  have hread : read (instanceMem m b (layoutOf (.inst k)).sigOff (counts k).1 hdr.bytes k.signature) (b + 8 + 2) 2 =
      slice (k.signature ++ [0]) 2 2 := by
    unfold instanceMem
    rw [hoff, read_write_left (by show _ ≤ _ + 24; omega), read_write_inside hlong]
  exact (le_ofLe_signature hname htext).trans (congrArg ofLe hread).ge

/-- What `from_instance_klass` and `from_array_klass` leave: a new block at `b`. -/
structure Fresh (good : Prop) (r r' : Resolver) (b : ℕ) (k : FakeKlass) : Prop where
  /-- The block follows the others. -/
  addr : b = r.base + r.pos
  /-- Nothing else was allocated or registered. -/
  eq : ∃ m ss, r' = allocated r k m ss
  /-- The invariant. -/
  inv : Inv good r'

variable {r' : Resolver} {b : ℕ}

theorem Fresh.blocks {k : FakeKlass} (h : Fresh good r r' b k) : r'.blocks = r.blocks ++ [⟨b, (layoutOf k).size, k⟩] := by
  obtain ⟨m, ss, rfl⟩ := h.eq
  rw [h.addr]
  rfl

theorem Fresh.base {k : FakeKlass} (h : Fresh good r r' b k) : r'.base = r.base := by
  obtain ⟨m, ss, rfl⟩ := h.eq
  rfl

theorem Fresh.lim {k : FakeKlass} (h : Fresh good r r' b k) : r'.lim = r.lim := by
  obtain ⟨m, ss, rfl⟩ := h.eq
  rfl

theorem Fresh.infoById {k : FakeKlass} (h : Fresh good r r' b k) : r'.infoById = r.infoById := by
  obtain ⟨m, ss, rfl⟩ := h.eq
  rfl

theorem Fresh.mem {k : FakeKlass} (h : Fresh good r r' b k) : ⟨b, (layoutOf k).size, k⟩ ∈ r'.blocks := by
  rw [h.blocks]
  exact List.mem_append_right _ (List.mem_singleton_self _)

/-- It is the last one. -/
theorem Fresh.last {k : FakeKlass} (h : Fresh good r r' b k) (h₀ : Inv good r) : ∀ bl ∈ r'.blocks, bl.addr ≤ b := by
  intro bl hbl
  rw [h.blocks] at hbl
  rcases List.mem_append.mp hbl with hbl | hbl
  · have hend := (h₀.placed bl hbl).2
    rw [h.addr]
    omega
  · rw [List.mem_singleton.mp hbl]

/-- What `from_instance_klass` stores. -/
theorem fromInstanceKlass_eq {args : JVMArgs} {k : FakeInstanceKlass}
    (hres : r.fromInstanceKlass args k k.isEnum = .ok (r', b)) : b = r.base + r.pos ∧
      ∃ hdr : Header, hdr.klass = k.addr ∧ hdr.layout = layoutOf (.inst k) ∧
        r' = allocated r (.inst k) (instanceMem r.mem b (layoutOf (.inst k)).sigOff (counts k).1 hdr.bytes k.signature)
          [⟨b, 0, 24⟩, ⟨b, (layoutOf (.inst k)).sigOff, 80⟩, ⟨b, (layoutOf (.inst k)).sigOff, k.signature.length + 1⟩,
            ⟨b, 24, 24 * (counts k).1⟩] := by
  obtain ⟨⟨nField, nStatic⟩, hcount, hres⟩ := bind_eq_ok hres
  obtain ⟨klassCptr, -, hres⟩ := bind_eq_ok hres
  have hcounts : counts k = ((nField + 256 - nStatic) % 256, nStatic) := by
    rw [counts, hcount]
  have hlayout : instanceLayout ((nField + 256 - nStatic) % 256) nStatic k.isEnum = layoutOf (.inst k) := by
    rw [layoutOf, hcounts]
  simp only [hlayout] at hres
  cases hres
  refine ⟨rfl, ⟨k.addr, unregisteredClassId, klassCptr, k.layoutHelper / 2 * 2, 255, 0, layoutOf (.inst k)⟩, rfl, rfl, ?_⟩
  rw [hcounts]
  simp only [allocated, Resolver.allocate, Resolver.store, instanceMem, Header.slices, List.length_replicate,
    List.length_append, List.append_assoc, List.cons_append, List.nil_append]
  rfl

/-- **`from_instance_klass`** adds a block. It has the number of entries; the table of an enum is not looked for in the fixed
part; and if the class fits, the table and the number of constants are as computed. -/
theorem Inv.fromInstanceKlass {args : JVMArgs} {k : FakeInstanceKlass} (h : Inv good r)
    (hk : Genuine (.inst k)) (hfits : good → Fits (.inst k)) (hroom : good → r.pos + (layoutOf (.inst k)).size ≤ r.lim)
    (hres : r.fromInstanceKlass args k k.isEnum = .ok (r', b)) : Fresh good r r' b (.inst k) ∧
      (k.isEnum = false → r'.nNonStaticField b = (counts k).1) ∧ (k.isEnum = true → 24 ≤ r'.enumRefArrOff b) ∧
      (good → r'.enumRefArrOff b = (layoutOf (.inst k)).enumRefArrOff ∧ r'.nStaticField b = (counts k).2) := by
  obtain ⟨hb, hdr, hklass, hlayout, rfl⟩ := fromInstanceKlass_eq hres
  subst hb
  obtain ⟨hlen, hslice₀, hslice₁₀, hslice₁₉, hslice₂₀, hslice₂₂⟩ := hdr.slices
  have hreg := regular_layoutOf (.inst k)
  have hself : FakeKlass.inst k ∈ (FakeKlass.inst k).closure := List.mem_singleton_self _
  have hnum : ∀ w v, v < 256 ^ w → ofLe (le w v) = v := fun w v hv => by rw [ofLe_le, Nat.mod_eq_of_lt hv]
  have htable : good → 24 + 24 * (counts k).1 ≤ (layoutOf (.inst k)).sigOff := fun hgood => (hfits hgood).table.1
  have hstart : good → 24 ≤ (layoutOf (.inst k)).sigOff := fun hgood => (Nat.le_add_right _ _).trans (htable hgood)
  have hbelow : ∀ x < r.base + r.pos, instanceMem r.mem (r.base + r.pos) (layoutOf (.inst k)).sigOff (counts k).1 hdr.bytes
      k.signature x = r.mem x := fun x hx => instanceMem_below hx
  have haddr : ofLe (read (instanceMem r.mem (r.base + r.pos) (layoutOf (.inst k)).sigOff (counts k).1 hdr.bytes k.signature)
      (r.base + r.pos) 8) = k.addr := by
    rw [read_instanceMem hlen (by decide) hreg.sigOff, hslice₀, hklass]
    exact hnum 8 _ (hk.small _ hself)
  -- a signature that does not start in the fixed part leaves it as it was stored
  have hheader : 24 ≤ (layoutOf (.inst k)).sigOff → read (instanceMem r.mem (r.base + r.pos) (layoutOf (.inst k)).sigOff
      (counts k).1 hdr.bytes k.signature) (r.base + r.pos) 24 = hdr.bytes := by
    intro hsig
    rw [read_instanceMem hlen (by decide) hsig, ← hlen]
    exact slice_all _
  have hsignature : good → read (instanceMem r.mem (r.base + r.pos) (layoutOf (.inst k)).sigOff (counts k).1 hdr.bytes
      k.signature) (r.base + r.pos + (layoutOf (.inst k)).sigOff) (k.signature.length + 1) = k.signature ++ [0] :=
    fun hgood => read_instanceMem_signature (htable hgood)
  have hover := le_enumRefArrOff_of_overlap (m := r.mem) (b := r.base + r.pos) hdr (hk.named k hself) (hk.text _ hself)
  generalize instanceMem r.mem (r.base + r.pos) (layoutOf (.inst k)).sigOff (counts k).1 hdr.bytes k.signature = m at *
  refine ⟨⟨rfl, ⟨_, _, rfl⟩, ?_⟩, ?_, ?_, ?_⟩
  · refine h.extend hbelow haddr hfits hroom (fun hgood => ⟨?_, hsignature hgood⟩) ?_
    · refine (load_of_read (hheader (hstart hgood)) (by decide)).trans ?_
      rw [hslice₂₂, hlayout]
      exact hnum 2 _ hreg.small.1
    · intro hgood s hs
      have htable := htable hgood
      have hshort : k.signature.length + 1 ≤ 80 := (hfits hgood).short
      have hsize := hreg.size
      simp only [List.mem_cons, List.not_mem_nil, or_false] at hs
      rcases hs with rfl | rfl | rfl | rfl <;> exact ⟨rfl, by dsimp only; omega⟩
  · intro hen
    have hsig : 24 ≤ (layoutOf (.inst k)).sigOff := by
      rw [layoutOf, hen, instanceLayout_plain (counts_lt k).1]
      exact Nat.le_add_right ..
    refine (load_of_read (hheader hsig) (by decide)).trans ?_
    rw [hslice₁₉, hlayout]
    exact hnum 1 _ hreg.counts.1
  · intro hen
    by_cases hsig : 24 ≤ (layoutOf (.inst k)).sigOff
    · refine Nat.le_trans ?_ (load_of_read (hheader hsig) (by decide)).ge
      rw [hslice₁₀, hlayout, hnum 2 _ hreg.small.2, layoutOf, hen, instanceLayout_enum (counts_lt k).1 (counts_lt k).2]
      exact Nat.le_add_right ..
    · exact hover hen hsig
  · intro hgood
    constructor
    · refine (load_of_read (hheader (hstart hgood)) (by decide)).trans ?_
      rw [hslice₁₀, hlayout]
      exact hnum 2 _ hreg.small.2
    · refine (load_of_read (hheader (hstart hgood)) (by decide)).trans ?_
      rw [hslice₂₀, hlayout]
      exact hnum 1 _ hreg.counts.2

/-- More stores to the new block. -/
theorem Fresh.store {k : FakeKlass} (h : Fresh good r r' b k) (h₀ : Inv good r) (hoff : 8 ≤ off)
    (hmut : good → (layoutOf k).Mutable off bytes.length) : Fresh good r (r'.store b off bytes) b k := by
  refine ⟨h.addr, ?_, h.inv.store h.mem hoff (Or.inr (h.last h₀)) hmut⟩
  obtain ⟨m, ss, rfl⟩ := h.eq
  refine ⟨write m (b + off) bytes, ss ++ [⟨b, off, bytes.length⟩], ?_⟩
  unfold Resolver.store allocated
  simp only [List.append_assoc]

/-- What `from_array_klass` stores. -/
theorem fromArrayKlass_eq {args : JVMArgs} {k : FakeArrayKlass} (hres : r.fromArrayKlass args k = .ok (r', b)) :
    b = r.base + r.pos ∧ ∃ hdr : Header, hdr.klass = k.addr ∧ hdr.layout = arrayLayout ∧
      r' = (((allocated r (.array k) (instanceMem r.mem b 48 0 hdr.bytes k.signature)
        [⟨b, 0, 24⟩, ⟨b, 48, 80⟩, ⟨b, 48, k.signature.length + 1⟩]).store b 28 (typeByte .illegal)).store b 24
          (leInt16 (-1))).store b 26 (le 2 0) := by
  obtain ⟨klassCptr, -, hres⟩ := bind_eq_ok hres
  cases hres
  refine ⟨rfl, ⟨k.addr, unregisteredClassId, klassCptr, k.headerSize, k.headerSize, k.dimension, arrayLayout⟩, rfl, rfl, ?_⟩
  unfold instanceMem
  rw [Nat.mul_zero, List.replicate_zero, write_nil]
  simp only [allocated, Resolver.allocate, Resolver.store, Header.slices, List.length_replicate, List.length_append,
    List.append_assoc, List.cons_append, List.nil_append]
  rfl

/-- **`from_array_klass`** adds a block. -/
theorem Inv.fromArrayKlass {args : JVMArgs} {k : FakeArrayKlass} (h : Inv good r) (hk : Genuine (.array k))
    (hself : FakeKlass.array k ∈ k.closure) (hfits : good → Fits (.array k))
    (hroom : good → r.pos + (layoutOf (.array k)).size ≤ r.lim) (hres : r.fromArrayKlass args k = .ok (r', b)) :
    Fresh good r r' b (.array k) := by
  obtain ⟨hb, hdr, hklass, hlayout, rfl⟩ := fromArrayKlass_eq hres
  subst hb
  obtain ⟨hlen, hslice₀, -, -, -, hslice₂₂⟩ := hdr.slices
  have hnum : ∀ w v, v < 256 ^ w → ofLe (le w v) = v := fun w v hv => by rw [ofLe_le, Nat.mod_eq_of_lt hv]
  have hbelow : ∀ x < r.base + r.pos, instanceMem r.mem (r.base + r.pos) 48 0 hdr.bytes k.signature x = r.mem x :=
    fun x hx => instanceMem_below hx
  have haddr : ofLe (read (instanceMem r.mem (r.base + r.pos) 48 0 hdr.bytes k.signature) (r.base + r.pos) 8) = k.addr := by
    rw [read_instanceMem hlen (by decide) (by decide), hslice₀, hklass]
    exact hnum 8 _ (hk.small _ hself)
  have hheader : read (instanceMem r.mem (r.base + r.pos) 48 0 hdr.bytes k.signature) (r.base + r.pos) 24 = hdr.bytes := by
    rw [read_instanceMem hlen (by decide) (by decide), ← hlen]
    exact slice_all _
  have hfresh : Fresh good r (allocated r (.array k) (instanceMem r.mem (r.base + r.pos) 48 0 hdr.bytes k.signature)
      [⟨r.base + r.pos, 0, 24⟩, ⟨r.base + r.pos, 48, 80⟩, ⟨r.base + r.pos, 48, k.signature.length + 1⟩])
      (r.base + r.pos) (.array k) := by
    refine ⟨rfl, ⟨_, _, rfl⟩, h.extend hbelow haddr hfits hroom (fun hgood => ⟨?_, ?_⟩) ?_⟩
    · refine (load_of_read hheader (by decide)).trans ?_
      rw [hslice₂₂, hlayout]
      exact hnum 2 _ (by decide)
    · exact read_instanceMem_signature (by decide)
    · intro hgood s hs
      have hshort : k.signature.length + 1 ≤ 80 := (hfits hgood).short
      simp only [List.mem_cons, List.not_mem_nil, or_false] at hs
      rcases hs with rfl | rfl | rfl
      · exact ⟨rfl, by show 0 + 24 ≤ 128; decide⟩
      · exact ⟨rfl, by show 48 + 80 ≤ 128; decide⟩
      · exact ⟨rfl, by show 48 + (k.signature.length + 1) ≤ 128; omega⟩
  have hmut : ∀ off len, 24 ≤ off → off + len ≤ 48 → good → (layoutOf (.array k)).Mutable off len :=
    fun off len h₁ h₂ _ => Or.inr (Or.inr ⟨h₁, h₂⟩)
  refine Fresh.store (Fresh.store (hfresh.store h ?_ (hmut 28 1 ?_ ?_)) h ?_ (hmut 24 2 ?_ ?_)) h ?_ (hmut 26 2 ?_ ?_) <;> decide

/-- `sig2id` does not matter. -/
theorem Inv.withSigs (h : Inv good r) (sigs : List (Symbol × ℤ)) : Inv good { r with sig2id := sigs } :=
  ⟨h.placed, h.size, h.pos, h.apart, h.klass, h.waits, h.known, h.perm, h.sorted, h.room, h.fits,
    fun hgood bl hbl => (h.signed hgood bl hbl).congr rfl, h.inside⟩

/-- Other fields that wait. -/
theorem Inv.withWaits (h : Inv good r) {u : Unresolved}
    (hu : ∀ sig q, q ∈ waiting u sig → ∃ bl ∈ r.blocks, bl.addr = q.1 ∧ q.2 < (layoutOf bl.klass).nNonStatic) :
    Inv good { r with unresolved := u } :=
  ⟨h.placed, h.size, h.pos, h.apart, h.klass, hu, h.known, h.perm, h.sorted, h.room, h.fits,
    fun hgood bl hbl => (h.signed hgood bl hbl).congr rfl, h.inside⟩

/-! ### Registering -/

/-- A store into a field of a class info. -/
theorem Inv.storeField (h : Inv good r) (hbl : bl ∈ r.blocks) {j k : ℕ} (hj : j < (layoutOf bl.klass).nNonStatic)
    (hk : k + bytes.length ≤ 24) :
    Inv good (r.store bl.addr (sizeofClassInfo + sizeofFieldInfo * j + k) bytes) := by
  have hsize := h.size bl hbl
  have hreg := (regular_layoutOf bl.klass).fields
  unfold sizeofClassInfo sizeofFieldInfo
  refine h.store hbl (by omega) (Or.inl (by omega)) fun hgood => Or.inr (Or.inr ⟨by omega, ?_⟩)
  have htable := (h.fits hgood bl hbl).table.1
  omega

/-- The fields that waited get their id. -/
theorem Inv.patchFields (h : Inv good r) {ps : List FieldPtr} (b : ℕ)
    (hps : ∀ q ∈ ps, ∃ bl ∈ r.blocks, bl.addr = q.1 ∧ q.2 < (layoutOf bl.klass).nNonStatic) :
    Inv good (Resolver.patchFields b ps r) ∧ Frame r (Resolver.patchFields b ps r) ∧
      (Resolver.patchFields b ps r).unresolved = r.unresolved := by
  induction ps generalizing r with
  | nil => exact ⟨h, Frame.refl r, rfl⟩
  | cons q ps ih =>
    obtain ⟨p, j⟩ := q
    obtain ⟨bl, hbl, rfl, hj⟩ := hps _ List.mem_cons_self
    have hstore : Inv good (r.store bl.addr (sizeofClassInfo + sizeofFieldInfo * j) (leInt16 (r.id b))) :=
      h.storeField hbl hj (k := 0) (by rw [length_leInt16]; decide)
    obtain ⟨hinv, hframe, hun⟩ := ih hstore fun q hq => hps q (List.mem_cons_of_mem _ hq)
    exact ⟨hinv, (Frame.store ..).trans hframe, hun⟩

/-- **`register_class_info`** on a block whose klass is not registered. -/
theorem Inv.registerClassInfo {fuel : ℕ} (h : Inv good r) (hbl : bl ∈ r.blocks)
    (hnew : ∀ y ∈ r.infoById, r.klass y ≠ bl.klass.addr) (hres : r.registerClassInfo fuel bl.addr = .ok r') :
    Inv good r' ∧ r'.base = r.base ∧ r'.lim = r.lim ∧ r'.blocks = r.blocks ∧ r'.infoById = r.infoById ++ [bl.addr] := by
  have hreg := regular_layoutOf bl.klass
  have hpos := h.size_pos hbl
  have h₁ : Inv good (r.store bl.addr 8 (leInt16 (index2id r.infoById.length))) := by
    refine h.store hbl (by decide) (Or.inl ?_) fun _ => Or.inl ⟨by decide, by rw [length_leInt16]⟩
    rw [length_leInt16]
    omega
  generalize hr₁ : r.store bl.addr 8 (leInt16 (index2id r.infoById.length)) = r₁ at h₁ hres
  have hframe : Frame r r₁ := hr₁ ▸ Frame.store ..
  have hbl₁ : bl ∈ r₁.blocks := hframe.blocks ▸ hbl
  have hnew₁ : ∀ y ∈ r₁.infoByKlass, r₁.klass y ≠ r₁.klass bl.addr := by
    intro y hy
    have hmem : y ∈ r.infoById := hframe.infoById ▸ h₁.perm.mem_iff.mp hy
    obtain ⟨bl', hbl', rfl⟩ := h.known y hmem
    rw [h₁.klass bl' (hframe.blocks ▸ hbl'), h₁.klass bl hbl₁, ← h.klass bl' hbl']
    exact hnew _ hmem
  have h₂ : Inv good { r₁ with
      infoById := r₁.infoById ++ [bl.addr], infoByKlass := insertSorted r₁.klass bl.addr r₁.infoByKlass } := by
    refine ⟨h₁.placed, h₁.size, h₁.pos, h₁.apart, h₁.klass, h₁.waits, ?_, ?_, insertSorted_sorted h₁.sorted hnew₁, h₁.room,
      h₁.fits, fun hgood bl' hbl' => (h₁.signed hgood bl' hbl').congr rfl, h₁.inside⟩
    · intro b hb
      rcases List.mem_append.mp hb with hb | hb
      · exact h₁.known b hb
      · exact ⟨bl, hbl₁, (List.mem_singleton.mp hb).symm⟩
    · exact (insertSorted_perm ..).trans ((List.Perm.cons _ h₁.perm).trans (List.perm_append_singleton ..).symm)
  unfold Resolver.registerClassInfo at hres
  rw [hr₁] at hres
  dsimp only at hres
  split at hres
  · cases hres
  · rename_i sig hsig
    have h₃ : Inv good { r₁ with
        infoById := r₁.infoById ++ [bl.addr], infoByKlass := insertSorted r₁.klass bl.addr r₁.infoByKlass,
        sig2id := if (r₁.sig2id.lookup sig).isSome then r₁.sig2id else r₁.sig2id ++ [(sig, r₁.id bl.addr)] } :=
      h₂.withSigs _
    have hwaits : ∀ q ∈ waiting r₁.unresolved sig, ∃ bl ∈ r₁.blocks, bl.addr = q.1 ∧ q.2 < (layoutOf bl.klass).nNonStatic :=
      fun q hq => h₁.waits sig q hq
    obtain ⟨h₄, hpatch, hun⟩ := h₃.patchFields bl.addr hwaits
    cases hres
    refine ⟨h₄.withWaits ?_, hpatch.base.trans hframe.base, hpatch.lim.trans hframe.lim, hpatch.blocks.trans hframe.blocks,
      hpatch.infoById.trans ?_⟩
    · intro sig' q hq
      rw [hpatch.blocks]
      have hq : q ∈ waiting (r₁.unresolved.filter (·.1 != sig)) sig' :=
        (congrArg (fun u : Unresolved => q ∈ waiting (u.filter (·.1 != sig)) sig') hun).mp hq
      rw [waiting_erase] at hq
      split_ifs at hq
      · cases hq
      · exact h₁.waits sig' q hq
    · rw [← hframe.infoById]

/-! ### The walks -/

/-- The loop over the constants of an enum, whose block is the last one. -/
theorem Inv.setEnums {fs : List FakeFieldInfo} {i nStatic : ℕ} (h : Inv good r) (hbl : bl ∈ r.blocks)
    (hlast : ∀ bl' ∈ r.blocks, bl'.addr ≤ bl.addr) (htable : 24 ≤ r.enumRefArrOff bl.addr)
    (hgood : good → r.nStaticField bl.addr = nStatic ∧ 1 ≤ nStatic ∧ nStatic < 256 ∧
      (layoutOf bl.klass).sigOff = r.enumRefArrOff bl.addr + 16 * (nStatic - 1) ∧
      ∀ f ∈ fs.take (nStatic - 1 - i), ∀ c, f.constant = some c → c.ordinal < nStatic - 1)
    (hres : Resolver.setEnums bl.addr fs i r = .ok r') : Inv good r' ∧ Frame r r' := by
  induction fs generalizing i r with
  | nil =>
    rw [Resolver.setEnums] at hres
    split_ifs at hres
    cases hres
    exact ⟨h, Frame.refl _⟩
  | cons f fs ih =>
    rw [Resolver.setEnums] at hres
    split_ifs at hres with hi
    · cases hc : f.constant with
      | none =>
        rw [hc] at hres
        cases hres
      | some c =>
        rw [hc] at hres
        have hlen : (le 8 c.object ++ le 8 c.handle).length = 16 := by simp
        have hmore : good → i < nStatic - 1 := fun hg => by
          obtain ⟨hn, hone, hlt, -⟩ := hgood hg
          rw [hn] at hi
          unfold u32 at hi
          omega
        have hord : good → c.ordinal < nStatic - 1 := fun hg => by
          obtain ⟨hn, hone, hlt, -, hcs⟩ := hgood hg
          refine hcs f ?_ c hc
          obtain ⟨m, hm⟩ : ∃ m, nStatic - 1 - i = m + 1 := ⟨nStatic - 1 - i - 1, by have := hmore hg; omega⟩
          rw [hm, List.take_succ_cons]
          exact List.mem_cons_self
        have hstore : Inv good (r.store bl.addr (r.enumRefArrOff bl.addr + 16 * c.ordinal)
            (le 8 c.object ++ le 8 c.handle)) := by
          refine h.store hbl (by omega) (Or.inr hlast) fun hg => Or.inr (Or.inr ⟨by omega, ?_⟩)
          obtain ⟨-, -, -, hsig, -⟩ := hgood hg
          have := hord hg
          rw [hlen]
          omega
        have hload : ∀ k n, k + n ≤ 24 → (r.store bl.addr (r.enumRefArrOff bl.addr + 16 * c.ordinal)
            (le 8 c.object ++ le 8 c.handle)).load bl.addr k n = r.load bl.addr k n :=
          fun k n hk => load_store (Or.inl (by omega))
        have hgood' : good → (r.store bl.addr (r.enumRefArrOff bl.addr + 16 * c.ordinal)
            (le 8 c.object ++ le 8 c.handle)).nStaticField bl.addr = nStatic ∧ 1 ≤ nStatic ∧ nStatic < 256 ∧
            (layoutOf bl.klass).sigOff = (r.store bl.addr (r.enumRefArrOff bl.addr + 16 * c.ordinal)
              (le 8 c.object ++ le 8 c.handle)).enumRefArrOff bl.addr + 16 * (nStatic - 1) ∧
            ∀ f ∈ fs.take (nStatic - 1 - (i + 1)), ∀ c, f.constant = some c → c.ordinal < nStatic - 1 := by
          intro hg
          obtain ⟨hn, hone, hlt, hsig, hcs⟩ := hgood hg
          refine ⟨(hload 20 1 (by decide)).trans hn, hone, hlt, ?_, fun f' hf' => hcs f' ?_⟩
          · rw [hsig]
            exact congrArg (· + _) (hload 10 2 (by decide)).symm
          · obtain ⟨m, hm⟩ : ∃ m, nStatic - 1 - i = m + 1 := ⟨nStatic - 1 - i - 1, by have := hmore hg; omega⟩
            rw [hm, List.take_succ_cons]
            rw [show nStatic - 1 - (i + 1) = m by omega] at hf'
            exact List.mem_cons_of_mem f hf'
        obtain ⟨hinv, hframe⟩ := ih hstore hbl hlast (htable.trans (hload 10 2 (by decide)).ge) hgood' hres
        exact ⟨hinv, (Frame.store ..).trans hframe⟩
    · cases hres
      exact ⟨h, Frame.refl _⟩

/-- The size of the header. -/
theorem Inv.setHeaderSizes {fs : List FakeFieldInfo} (h : Inv good r) (hbl : bl ∈ r.blocks) :
    Inv good (Resolver.setHeaderSizes bl.addr fs r) ∧ Frame r (Resolver.setHeaderSizes bl.addr fs r) ∧
      (Resolver.setHeaderSizes bl.addr fs r).nNonStaticField bl.addr = r.nNonStaticField bl.addr := by
  induction fs generalizing r with
  | nil => exact ⟨h, Frame.refl r, rfl⟩
  | cons f fs ih =>
    rw [Resolver.setHeaderSizes]
    split_ifs
    · have hpos := h.size_pos hbl
      have hstore : Inv good (r.store bl.addr 18 (le 1 f.offset)) := by
        refine h.store hbl (by decide) (Or.inl ?_) fun _ => Or.inr (Or.inl ⟨by decide, ?_⟩)
        · rw [length_le]
          omega
        · rw [length_le]
      obtain ⟨hinv, hframe, hn⟩ := ih hstore hbl
      exact ⟨hinv, (Frame.store ..).trans hframe, hn.trans (load_store (Or.inr (by rw [length_le])))⟩
    · exact ih h hbl

/-- What is stored into an entry before its type matters. -/
theorem Inv.describeField {i : ℕ} {f : FakeFieldInfo} {t : BasicType} (h : Inv good r) (hbl : bl ∈ r.blocks)
    (hi : i < (layoutOf bl.klass).nNonStatic) :
    Inv good (Resolver.describeField bl.addr i f t r) ∧ Frame r (Resolver.describeField bl.addr i f t r) := by
  have hlen₂ : 2 + (le 2 (u32 (f.offset + 2 ^ 32 - r.headerSize bl.addr))).length ≤ 24 := by
    rw [length_le]
    decide
  have hlen₄ : 4 + (typeByte t).length ≤ 24 := by
    show 4 + 1 ≤ 24
    decide
  have hlen₆ : 6 + (le 2 f.accessFlags).length ≤ 24 := by
    rw [length_le]
    decide
  exact ⟨((h.storeField hbl hi hlen₂).storeField hbl hi hlen₄).storeField hbl hi hlen₆,
    ((Frame.store ..).trans (Frame.store ..)).trans (Frame.store ..)⟩

/-- A field waits. -/
theorem Inv.waitFor {i : ℕ} {sig : Symbol} (h : Inv good r) (hbl : bl ∈ r.blocks)
    (hi : i < (layoutOf bl.klass).nNonStatic) : Inv good (r.waitFor bl.addr i sig) := by
  refine h.withWaits fun sig' q hq => ?_
  rcases (mem_waiting_push _).mp hq with hq | ⟨-, rfl⟩
  · exact h.waits sig' q hq
  · exact ⟨bl, hbl, rfl, hi⟩

theorem Frame.waitFor (r : Resolver) (b i : ℕ) (sig : Symbol) : Frame r (r.waitFor b i sig) := ⟨rfl, rfl, rfl, rfl, rfl⟩

/-- One field. -/
theorem Inv.resolveField {i : ℕ} {f : FakeFieldInfo} (h : Inv good r) (hbl : bl ∈ r.blocks)
    (hi : i < (layoutOf bl.klass).nNonStatic) (hres : Resolver.resolveField bl.addr i f r = .ok r') :
    Inv good r' ∧ Frame r r' := by
  obtain ⟨t, -, hres⟩ := bind_eq_ok hres
  obtain ⟨h₁, hframe₁⟩ := h.describeField hbl hi (f := f) (t := t)
  generalize Resolver.describeField bl.addr i f t r = r₁ at h₁ hframe₁ hres
  have hbl₁ : bl ∈ r₁.blocks := hframe₁.blocks ▸ hbl
  have hlen : 16 + (le 8 f.jFieldId).length ≤ 24 := by rw [length_le]
  have h₂ := h₁.storeField hbl₁ hi hlen
  have hframe₂ := hframe₁.trans (Frame.store r₁ bl.addr (sizeofClassInfo + sizeofFieldInfo * i + 16) (le 8 f.jFieldId))
  dsimp only at hres
  generalize r₁.store bl.addr (sizeofClassInfo + sizeofFieldInfo * i + 16) (le 8 f.jFieldId) = r₂ at h₂ hframe₂ hres
  have hbl₂ : bl ∈ r₂.blocks := hframe₂.blocks ▸ hbl
  have hid : ∀ id : ℤ, Inv good (r₂.store bl.addr (sizeofClassInfo + sizeofFieldInfo * i) (leInt16 id)) := fun id =>
    h₂.storeField hbl₂ hi (k := 0) (by rw [length_leInt16]; decide)
  split_ifs at hres
  · obtain ⟨found, -, hres⟩ := bind_eq_ok hres
    cases found with
    | none =>
      have hun := hid unregisteredClassId
      have hframe₃ := hframe₂.trans (Frame.store r₂ bl.addr (sizeofClassInfo + sizeofFieldInfo * i) (leInt16 unregisteredClassId))
      dsimp only at hres
      generalize r₂.store bl.addr (sizeofClassInfo + sizeofFieldInfo * i) (leInt16 unregisteredClassId) = r₃ at hun hframe₃ hres
      cases hres
      exact ⟨hun.waitFor (hframe₃.blocks ▸ hbl) hi, hframe₃.trans (Frame.waitFor ..)⟩
    | some p =>
      cases hres
      exact ⟨hid _, hframe₂.trans (Frame.store ..)⟩
  · cases hres
    exact ⟨h₂, hframe₂⟩

/-- The loop over the fields. -/
theorem Inv.resolveFields {fs : List FakeFieldInfo} {n i : ℕ} (h : Inv good r) (hbl : bl ∈ r.blocks)
    (hi : i + n ≤ (layoutOf bl.klass).nNonStatic) (hres : Resolver.resolveFields bl.addr n i fs r = .ok r') :
    Inv good r' ∧ Frame r r' := by
  induction n generalizing i fs r with
  | zero =>
    cases hres
    exact ⟨h, Frame.refl _⟩
  | succ n ih =>
    cases fs with
    | nil => cases hres
    | cons f fs =>
      obtain ⟨r₁, hfield, hrest⟩ := bind_eq_ok hres
      obtain ⟨h₁, hframe₁⟩ := h.resolveField hbl (by omega) hfield
      obtain ⟨h₂, hframe₂⟩ := ih h₁ (hframe₁.blocks ▸ hbl) (by omega) hrest
      exact ⟨h₂, hframe₁.trans hframe₂⟩

end

end DShuffle.Serde.Arena
