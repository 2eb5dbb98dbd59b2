import Mathlib.Algebra.Order.Ring.Nat
import Mathlib.Data.List.Perm.Basic
import Mathlib.Algebra.BigOperators.Group.List.Basic

/-!
# Things that move from place to place

A system of queues is a list of tokens, each a thing and the place where it is. A
thing that moves is taken out and comes last, so that the things at a place stand
in the order of their arrival, and the first of them is the head of that queue.
Moves neither lose nor copy anything (`map_fst_move`), and with a weight for every
place, a move changes the weight of the whole by the difference (`weight_move`).
-/

namespace DShuffle.Base

/-- Something is taken from a list. -/
theorem perm_eraseIdx {α : Type} {l : List α} {i : ℕ} {a : α} (h : l[i]? = some a) : l.Perm (a :: l.eraseIdx i) := by
  obtain ⟨hlt, rfl⟩ := List.getElem?_eq_some_iff.mp h
  exact (List.getElem_cons_eraseIdx_perm hlt).symm

/-- A sum over a list of which one element is replaced. -/
theorem sum_map_set {α : Type} (f : α → ℕ) {l : List α} {i : ℕ} {a : α} (h : l[i]? = some a) (a' : α) :
    ((l.set i a').map f).sum + f a = (l.map f).sum + f a' := by
  induction l generalizing i with
  | nil => cases h
  | cons x l ih =>
    cases i with
    | zero =>
      cases h
      simp only [List.set_cons_zero, List.map_cons, List.sum_cons]
      omega
    | succ i =>
      have hrest := ih h
      simp only [List.set_cons_succ, List.map_cons, List.sum_cons]
      omega

/-- Things and their places. -/
abbrev Tokens (B P : Type) := List (B × P)

namespace Tokens

variable {B P : Type} [DecidableEq B] [DecidableEq P]

/-- The first thing at a place. -/
def first? (ts : Tokens B P) (p : P) : Option B := (ts.find? fun t => decide (t.2 = p)).map Prod.fst

/-- A thing goes from a place to another. -/
def move (ts : Tokens B P) (b : B) (p p' : P) : Tokens B P := ts.erase (b, p) ++ [(b, p')]

variable {ts : Tokens B P} {b : B} {p p' : P}

omit [DecidableEq B] in
theorem mem_of_first? (h : ts.first? p = some b) : (b, p) ∈ ts := by
  obtain ⟨t, ht, rfl⟩ := Option.map_eq_some_iff.mp h
  have hp : t.2 = p := by simpa using List.find?_some ht
  rw [← hp]
  exact List.mem_of_find?_eq_some ht

omit [DecidableEq B] in
/-- A place that is not empty has a first thing. -/
theorem exists_first? (h : (b, p) ∈ ts) : ∃ b', ts.first? p = some b' := by
  cases hf : ts.find? fun t => decide (t.2 = p) with
  | some t => exact ⟨t.1, by rw [first?, hf]; rfl⟩
  | none =>
    have hno := List.find?_eq_none.mp hf (b, p) h
    simp at hno

/-- Moving is a permutation of the things. -/
theorem map_fst_move (h : (b, p) ∈ ts) : ((ts.move b p p').map Prod.fst).Perm (ts.map Prod.fst) := by
  have hperm : (ts.erase (b, p) ++ [(b, p)]).Perm ts :=
    (List.perm_append_comm).trans (List.perm_cons_erase h).symm
  have hmap := hperm.map Prod.fst
  rw [List.map_append] at hmap
  rw [move, List.map_append]
  exact hmap

theorem mem_move {t : B × P} (h : t ∈ ts.move b p p') : t ∈ ts ∨ t = (b, p') := by
  rcases List.mem_append.mp h with h | h
  · exact Or.inl (List.mem_of_mem_erase h)
  · exact Or.inr (List.mem_singleton.mp h)

/-- The other tokens stay. -/
theorem mem_move_of_ne {t : B × P} (h : t ∈ ts) (hne : t ≠ (b, p)) : t ∈ ts.move b p p' :=
  List.mem_append_left _ ((List.mem_erase_of_ne hne).mpr h)

theorem mem_move_self : (b, p') ∈ ts.move b p p' := List.mem_append_right _ (List.mem_singleton_self _)

omit [DecidableEq P] in
/-- A thing that is there once has one token. -/
theorem filter_of_nodup (hn : (ts.map Prod.fst).Nodup) (h : (b, p) ∈ ts) :
    ts.filter (fun t => decide (t.1 = b)) = [(b, p)] := by
  induction ts with
  | nil => cases h
  | cons t ts ih =>
    obtain ⟨hnot, hn⟩ := List.nodup_cons.mp hn
    rcases List.mem_cons.mp h with rfl | h
    · have hnone : ts.filter (fun t => decide (t.1 = b)) = [] := by
        refine List.filter_eq_nil_iff.mpr fun x hx hxb => hnot ?_
        exact List.mem_map.mpr ⟨x, hx, by simpa using hxb⟩
      rw [List.filter_cons_of_pos (by simp), hnone]
    · have hne : t.1 ≠ b := by
        rintro rfl
        exact hnot (List.mem_map.mpr ⟨_, h, rfl⟩)
      rw [List.filter_cons_of_neg (by simpa using hne)]
      exact ih hn h

/-- The weight of all tokens. -/
def weight (w : P → ℕ) (ts : Tokens B P) : ℕ := (ts.map fun t => w t.2).sum

theorem weight_move (w : P → ℕ) (h : (b, p) ∈ ts) (p' : P) : weight w (ts.move b p p') + w p = weight w ts + w p' := by
  have hsum := ((List.perm_cons_erase h).map fun t => w t.2).sum_eq
  rw [List.map_cons, List.sum_cons] at hsum
  rw [weight, move, List.map_append, List.sum_append, weight, hsum]
  simp only [List.map_cons, List.map_nil, List.sum_cons, List.sum_nil]
  omega

end Tokens

end DShuffle.Base
