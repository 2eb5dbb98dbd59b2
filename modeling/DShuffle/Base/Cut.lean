import Mathlib.Data.List.Basic
import Mathlib.Algebra.Group.Nat.Even

/-!
# Cut into pieces

A list is cut into pieces when the start of what is left always says how long the next piece is. What says it may reach
into the pieces behind.

* `Cut.of_local` — pieces that say their own length, whatever is behind them, are a cut.
* `Cut.unique` — there is one cut at most.
* `Cut.pairs` — an induction on a cut into an even number of pieces.
-/

namespace DShuffle.Base

variable {α : Type*} {word : List α → Option ℕ} {ps qs : List (List α)}

/-- None of the pieces is empty, and at the start of each the list says how long it is. -/
def Cut (word : List α → Option ℕ) : List (List α) → Prop
  | [] => True
  | p :: ps => (p ≠ [] ∧ word (p ++ ps.flatten) = some p.length) ∧ Cut word ps

/-- The piece says its length, whatever is behind it. -/
theorem Cut.of_local (h : ∀ p ∈ ps, p ≠ [] ∧ ∀ rest, word (p ++ rest) = some p.length) : Cut word ps := by
  induction ps with
  | nil => trivial
  | cons p ps ih =>
    obtain ⟨hne, hword⟩ := h p (List.mem_cons_self ..)
    exact ⟨⟨hne, hword _⟩, ih fun q hq => h q (List.mem_cons_of_mem p hq)⟩

theorem Cut.flatten_eq_nil (h : Cut word ps) (hnil : ps.flatten = []) : ps = [] := by
  cases ps with
  | nil => rfl
  | cons p ps =>
    rw [List.flatten_cons] at hnil
    exact absurd (List.append_eq_nil_iff.mp hnil).1 h.1.1

/-- Two cuts of one list are the same. -/
theorem Cut.unique (hp : Cut word ps) (hq : Cut word qs) (h : ps.flatten = qs.flatten) : ps = qs := by
  induction ps generalizing qs with
  | nil => exact (hq.flatten_eq_nil h.symm).symm
  | cons p ps ih =>
    cases qs with
    | nil => exact hp.flatten_eq_nil h
    | cons q qs =>
      rw [List.flatten_cons, List.flatten_cons] at h
      have hlen : p.length = q.length := by
        have hpw := hp.1.2
        rw [h, hq.1.2] at hpw
        exact (Option.some.inj hpw).symm
      obtain ⟨rfl, hrest⟩ := List.append_inj h hlen
      rw [ih hp.2 hq.2 hrest]

/-- Two pieces at a time. -/
theorem Cut.pairs {motive : List (List α) → Prop} (nil : motive [])
    (pair : ∀ p q ps, p ≠ [] → word (p ++ (q ++ ps.flatten)) = some p.length →
      q ≠ [] → word (q ++ ps.flatten) = some q.length → motive ps → motive (p :: q :: ps)) :
    ∀ ps : List (List α), Cut word ps → Even ps.length → motive ps
  | [], _, _ => nil
  | [p], _, heven => by
    rw [List.length_singleton] at heven
    exact absurd heven (by decide)
  | p :: q :: ps, h, heven => by
    have hps : Even ps.length := by
      rw [List.length_cons, List.length_cons, Nat.even_add_one, Nat.even_add_one, not_not] at heven
      exact heven
    exact pair p q ps h.1.1 h.1.2 h.2.1.1 h.2.1.2 (Cut.pairs nil pair ps h.2.2 hps)

end DShuffle.Base
