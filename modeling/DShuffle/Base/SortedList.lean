import Mathlib.Data.List.Basic
import Mathlib.Data.List.Sort

/-!
# Tables sorted by a key

A table kept sorted by a numeric key, as `std::lower_bound` searches it and as
`vector::insert` at the lower bound extends it, and the bisection that finds the
same entry by halving. For a table that is strictly sorted, both searches find
an entry exactly when it is there (`findSorted_eq_some`, `bisect_eq_findSorted`), and
inserting a new key keeps the table strictly sorted (`insertSorted_sorted`). A table that
is read in pieces is cut at the key of the last entry read (`filter_behind`).
-/

namespace DShuffle.Base

variable {α : Type*} (key : α → ℕ)

/-- The table is strictly sorted by `key`. -/
def SortedBy (xs : List α) : Prop := xs.Pairwise fun x y => key x < key y

/-- The entry at the lower bound of `k`, if it has key `k`. -/
def findSorted (k : ℕ) (xs : List α) : Option α :=
  match (xs.dropWhile fun x => key x < k).head? with
  | some x => if key x = k then some x else none
  | none => none

/-- Insert `x` at the lower bound of its key. -/
def insertSorted (x : α) (xs : List α) : List α :=
  (xs.takeWhile fun y => key y < key x) ++ x :: xs.dropWhile fun y => key y < key x

theorem insertSorted_perm (x : α) (xs : List α) : (insertSorted key x xs).Perm (x :: xs) := by
  unfold insertSorted
  refine List.perm_middle.trans (List.Perm.cons x ?_)
  rw [List.takeWhile_append_dropWhile]

variable {key}

/-- What is left of a table behind a key, when it is cut there. -/
theorem filter_behind {k : ℕ} {xs ys : List α} (hxs : ∀ x ∈ xs, key x ≤ k) (hys : ∀ y ∈ ys, k < key y) :
    (xs ++ ys).filter (fun x => k < key x) = ys := by
  have hnil : xs.filter (fun x => k < key x) = [] := by
    rw [List.filter_eq_nil_iff]
    intro x hx
    simpa using hxs x hx
  have hself : ys.filter (fun x => k < key x) = ys := by
    rw [List.filter_eq_self]
    intro y hy
    simpa using hys y hy
  rw [List.filter_append, hnil, hself, List.nil_append]

theorem SortedBy.tail {x : α} {xs : List α} (h : SortedBy key (x :: xs)) : SortedBy key xs := h.of_cons

/-- A table stays sorted when its entries are replaced by others with their keys. -/
theorem SortedBy.map {β : Type*} {key' : β → ℕ} {f : α → β} {xs : List α} (h : SortedBy key xs)
    (hf : ∀ x ∈ xs, key' (f x) = key x) : SortedBy key' (xs.map f) := by
  refine List.pairwise_map.mpr (h.imp_of_mem fun {x y} hx hy hlt => ?_)
  rw [hf x hx, hf y hy]
  exact hlt

theorem SortedBy.congr {key' : α → ℕ} {xs : List α} (h : SortedBy key xs) (hk : ∀ x ∈ xs, key' x = key x) :
    SortedBy key' xs := by
  have hmap : SortedBy key' (xs.map id) := h.map hk
  rwa [List.map_id] at hmap

/-- The last entry has the greatest key. -/
theorem SortedBy.le_getLast {xs : List α} (h : SortedBy key xs) {x y : α} (hlast : xs.getLast? = some y) (hx : x ∈ xs) :
    key x ≤ key y := by
  obtain ⟨ys, rfl⟩ := List.getLast?_eq_some_iff.mp hlast
  rcases List.mem_append.mp hx with hx | hx
  · exact ((List.pairwise_append.mp h).2.2 x hx y (List.mem_singleton_self y)).le
  · rw [List.mem_singleton.mp hx]

theorem findSorted_cons_lt {k : ℕ} {x : α} {xs : List α} (h : key x < k) :
    findSorted key k (x :: xs) = findSorted key k xs := by
  simp [findSorted, h]

theorem findSorted_cons_le {k : ℕ} {x : α} {xs : List α} (h : k ≤ key x) :
    findSorted key k (x :: xs) = if key x = k then some x else none := by
  simp [findSorted, Nat.not_lt.mpr h]

theorem key_of_findSorted {k : ℕ} {xs : List α} {x : α} (h : findSorted key k xs = some x) : key x = k := by
  unfold findSorted at h
  split at h
  · split_ifs at h with hk
    cases h
    exact hk
  · cases h

theorem mem_of_findSorted {k : ℕ} {xs : List α} {x : α} (h : findSorted key k xs = some x) : x ∈ xs := by
  unfold findSorted at h
  split at h
  · rename_i y hy
    split_ifs at h with hk
    cases h
    exact (List.dropWhile_sublist _).subset (List.mem_of_head? hy)
  · cases h

/-- **The lower bound finds what is there.** -/
theorem findSorted_eq_some {k : ℕ} {xs : List α} (hs : SortedBy key xs) {x : α} :
    findSorted key k xs = some x ↔ x ∈ xs ∧ key x = k := by
  induction xs with
  | nil => simp [findSorted]
  | cons y ys ih =>
    have hy : ∀ z ∈ ys, key y < key z := (List.pairwise_cons.mp hs).1
    by_cases hlt : key y < k
    · rw [findSorted_cons_lt hlt, ih hs.tail, List.mem_cons]
      constructor
      · rintro ⟨hm, hk⟩
        exact ⟨Or.inr hm, hk⟩
      · rintro ⟨rfl | hm, hk⟩
        · omega
        · exact ⟨hm, hk⟩
    · rw [findSorted_cons_le (Nat.le_of_not_lt hlt)]
      constructor
      · intro h
        split_ifs at h with hk
        cases h
        exact ⟨List.mem_cons_self, hk⟩
      · rintro ⟨hm, hk⟩
        rcases List.mem_cons.mp hm with rfl | hm
        · rw [if_pos hk]
        · have := hy x hm
          omega

theorem findSorted_eq_none {k : ℕ} {xs : List α} (hs : SortedBy key xs) :
    findSorted key k xs = none ↔ ∀ x ∈ xs, key x ≠ k := by
  constructor
  · intro h x hx hk
    rw [(findSorted_eq_some hs).mpr ⟨hx, hk⟩] at h
    cases h
  · intro h
    cases hf : findSorted key k xs with
    | none => rfl
    | some x =>
      obtain ⟨hx, hk⟩ := (findSorted_eq_some hs).mp hf
      exact absurd hk (h x hx)

/-- Inserting a new key keeps the table strictly sorted. -/
theorem insertSorted_sorted {x : α} {xs : List α} (hs : SortedBy key xs) (hx : ∀ y ∈ xs, key y ≠ key x) :
    SortedBy key (insertSorted key x xs) := by
  induction xs with
  | nil => simp [insertSorted, SortedBy]
  | cons y ys ih =>
    have hy : ∀ z ∈ ys, key y < key z := (List.pairwise_cons.mp hs).1
    by_cases hlt : key y < key x
    · have hcons : insertSorted key x (y :: ys) = y :: insertSorted key x ys := by simp [insertSorted, hlt]
      rw [hcons]
      refine List.pairwise_cons.mpr ⟨fun z hz => ?_, ih hs.tail fun z hz => hx z (List.mem_cons_of_mem _ hz)⟩
      rcases List.mem_cons.mp ((insertSorted_perm key x ys).mem_iff.mp hz) with rfl | hz
      · exact hlt
      · exact hy z hz
    · have hcons : insertSorted key x (y :: ys) = x :: y :: ys := by simp [insertSorted, hlt]
      have hxy : key x < key y := by
        have := hx y List.mem_cons_self
        omega
      rw [hcons]
      refine List.pairwise_cons.mpr ⟨fun z hz => ?_, hs⟩
      rcases List.mem_cons.mp hz with rfl | hz
      · exact hxy
      · exact hxy.trans (hy z hz)

/-! ### Bisection -/

/-- The search for the key `k` in `xs[l], .., xs[r - 1]` that halves the range in every round; a read past the end
of the table finds nothing. -/
def bisect (key : α → ℕ) (k : ℕ) (xs : List α) (l r : ℕ) : Option α :=
  if l < r then
    match xs[(r - l) / 2 + l]? with
    | none => none
    | some x =>
      if key x = k then some x
      else if key x < k then bisect key k xs ((r - l) / 2 + l + 1) r
      else bisect key k xs l ((r - l) / 2 + l)
  else none
termination_by r - l

/-- What bisection finds is in the table and has the key. -/
theorem mem_of_bisect {k l r : ℕ} {xs : List α} {x : α} (h : bisect key k xs l r = some x) : x ∈ xs ∧ key x = k := by
  fun_induction bisect key k xs l r with
  | case1 => cases h
  | case2 l r hlt y hy hk =>
    cases h
    exact ⟨List.mem_of_getElem? hy, hk⟩
  | case3 l r hlt y hy hne hk ih => exact ih h
  | case4 l r hlt y hy hne hk ih => exact ih h
  | case5 => cases h

theorem SortedBy.lt_of_getElem? {xs : List α} (hs : SortedBy key xs) {i j : ℕ} {x y : α} (hij : i < j)
    (hx : xs[i]? = some x) (hy : xs[j]? = some y) : key x < key y := by
  obtain ⟨hi, rfl⟩ := List.getElem?_eq_some_iff.mp hx
  obtain ⟨hj, rfl⟩ := List.getElem?_eq_some_iff.mp hy
  exact List.pairwise_iff_getElem.mp hs i j hi hj hij

/-- Bisection finds the entry with the key, wherever in the range it stands: the half that is dropped has only
smaller keys, or only greater ones. -/
theorem bisect_eq_some {k l r i : ℕ} {xs : List α} {x : α} (hs : SortedBy key xs) (hx : xs[i]? = some x) (hk : key x = k)
    (hl : l ≤ i) (hr : i < r) (hlen : r ≤ xs.length) : bisect key k xs l r = some x := by
  fun_induction bisect key k xs l r with
  | case1 l r hlt hy =>
    rw [List.getElem?_eq_none_iff] at hy
    omega
  | case2 l r hlt y hy hyk =>
    rcases Nat.lt_trichotomy i ((r - l) / 2 + l) with hi | hi | hi
    · have := hs.lt_of_getElem? hi hx hy
      omega
    · rw [← hy, ← hi, hx]
    · have := hs.lt_of_getElem? hi hy hx
      omega
  | case3 l r hlt y hy hne hyk ih =>
    refine ih ?_ hr hlen
    by_contra hi
    rcases Nat.lt_or_eq_of_le (Nat.le_of_lt_succ (Nat.lt_of_not_le hi)) with hi | hi
    · have := hs.lt_of_getElem? hi hx hy
      omega
    · rw [← hi, hx] at hy
      cases hy
      omega
  | case4 l r hlt y hy hne hyk ih =>
    refine ih hl ?_ (by omega)
    by_contra hi
    rcases Nat.lt_or_eq_of_le (Nat.le_of_not_lt hi) with hi | hi
    · have := hs.lt_of_getElem? hi hy hx
      omega
    · rw [hi, hx] at hy
      cases hy
      exact hne hk
  | case5 l r hlt => omega

/-- **Bisection finds what the lower bound finds.** -/
theorem bisect_eq_findSorted {k : ℕ} {xs : List α} (hs : SortedBy key xs) :
    bisect key k xs 0 xs.length = findSorted key k xs := by
  cases hf : findSorted key k xs with
  | some x =>
    obtain ⟨hx, hk⟩ := (findSorted_eq_some hs).mp hf
    obtain ⟨i, hi⟩ := List.getElem?_of_mem hx
    exact bisect_eq_some hs hi hk (Nat.zero_le i) (List.getElem?_eq_some_iff.mp hi).1 (Nat.le_refl _)
  | none =>
    cases hb : bisect key k xs 0 xs.length with
    | none => rfl
    | some x =>
      obtain ⟨hx, hk⟩ := mem_of_bisect hb
      exact absurd hk ((findSorted_eq_none hs).mp hf x hx)

end DShuffle.Base
