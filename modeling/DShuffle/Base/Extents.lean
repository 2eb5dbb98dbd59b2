import Mathlib.Data.List.Basic
import Mathlib.Order.MinMax

/-!
# Extents

An extent is a run of addresses. A list of them, such as those that a program stored to, covers the addresses that lie in
one of them.

* `Fills es a b` — the extents cover exactly the addresses from `a` on and below `b`.
* `Fills.append` — extents that fill one run and extents that fill a run that starts inside it or at its end fill both.
* `Tiles es a b` — the extents lie one behind the other from `a` to `b`: they fill that run, and no two overlap.
-/

namespace DShuffle.Base

/-- A run of addresses. -/
structure Extent where
  /-- The first. -/
  off : ℕ
  /-- How many. -/
  len : ℕ
  deriving DecidableEq

/-- The address lies in the extent. -/
def Extent.Has (e : Extent) (x : ℕ) : Prop := e.off ≤ x ∧ x < e.off + e.len

instance (e : Extent) (x : ℕ) : Decidable (e.Has x) := inferInstanceAs (Decidable (_ ∧ _))

/-- The address lies in one of the extents. -/
def Covered (es : List Extent) (x : ℕ) : Prop := ∃ e ∈ es, e.Has x

theorem covered_append {es fs : List Extent} {x : ℕ} : Covered (es ++ fs) x ↔ Covered es x ∨ Covered fs x := by
  constructor
  · rintro ⟨e, he, hx⟩
    rcases List.mem_append.mp he with he | he
    · exact Or.inl ⟨e, he, hx⟩
    · exact Or.inr ⟨e, he, hx⟩
  · rintro (⟨e, he, hx⟩ | ⟨e, he, hx⟩)
    · exact ⟨e, List.mem_append_left _ he, hx⟩
    · exact ⟨e, List.mem_append_right _ he, hx⟩

/-- The extents cover exactly the addresses from `a` on and below `b`. -/
def Fills (es : List Extent) (a b : ℕ) : Prop := ∀ x, Covered es x ↔ a ≤ x ∧ x < b

variable {es fs : List Extent} {a b c d : ℕ}

theorem fills_nil (a : ℕ) : Fills [] a a := by
  intro x
  constructor
  · rintro ⟨e, he, -⟩
    cases he
  · rintro ⟨h₁, h₂⟩
    omega

theorem fills_single (a n : ℕ) : Fills [⟨a, n⟩] a (a + n) := by
  intro x
  constructor
  · rintro ⟨e, he, hx⟩
    rw [List.mem_singleton.mp he] at hx
    exact hx
  · exact fun hx => ⟨_, List.mem_singleton_self _, hx⟩

/-- A run that starts inside the first, or at its end. -/
theorem Fills.append (h₁ : Fills es a b) (h₂ : Fills fs c d) (hac : a ≤ c) (hcb : c ≤ b) :
    Fills (es ++ fs) a (max b d) := by
  intro x
  rw [covered_append, h₁ x, h₂ x]
  omega

/-- The end is determined, unless nothing is covered. -/
theorem Fills.end_unique (h₁ : Fills es a b) (h₂ : Fills es a c) (hb : a < b) : b = c := by
  have hlast := ((h₁ (b - 1)).symm.trans (h₂ (b - 1))).mp (by omega)
  by_contra hne
  have hbc : b < c := by omega
  have hmore := ((h₁ b).symm.trans (h₂ b)).mpr ⟨hb.le, hbc⟩
  omega

/-! ### One behind the other -/

/-- The extents lie one behind the other, from `a` to `b`. -/
def Tiles : List Extent → ℕ → ℕ → Prop
  | [], a, b => a = b
  | e :: es, a, b => e.off = a ∧ Tiles es (a + e.len) b

/-- The extents have no address in common. -/
def Extent.Apart (e f : Extent) : Prop := ∀ x, e.Has x → ¬ f.Has x

/-- The extent, seen from an address. -/
def Extent.shift (k : ℕ) (e : Extent) : Extent := ⟨k + e.off, e.len⟩

theorem Tiles.le (h : Tiles es a b) : a ≤ b := by
  induction es generalizing a with
  | nil => exact le_of_eq h
  | cons e es ih => exact le_trans (Nat.le_add_right a e.len) (ih h.2)

theorem Tiles.fills (h : Tiles es a b) : Fills es a b := by
  induction es generalizing a with
  | nil =>
    obtain rfl : a = b := h
    exact fills_nil a
  | cons e es ih =>
    obtain ⟨rfl, hrest⟩ := h
    have hboth := (fills_single e.off e.len).append (ih hrest) (Nat.le_add_right ..) le_rfl
    rwa [max_eq_right hrest.le] at hboth

theorem Tiles.pairwise (h : Tiles es a b) : es.Pairwise Extent.Apart := by
  induction es generalizing a with
  | nil => exact List.Pairwise.nil
  | cons e es ih =>
    obtain ⟨rfl, hrest⟩ := h
    refine List.Pairwise.cons (fun f hf x hx hfx => ?_) (ih hrest)
    have hbehind := ((hrest.fills x).mp ⟨f, hf, hfx⟩).1
    exact absurd hx.2 (Nat.not_lt.mpr hbehind)

theorem Tiles.shift (h : Tiles es a b) (k : ℕ) : Tiles (es.map (Extent.shift k)) (k + a) (k + b) := by
  induction es generalizing a with
  | nil => exact congrArg (k + ·) h
  | cons e es ih =>
    obtain ⟨rfl, hrest⟩ := h
    refine ⟨rfl, ?_⟩
    rw [Nat.add_assoc]
    exact ih hrest

end DShuffle.Base
