import Mathlib.Data.List.ReduceOption
import DShuffle.Base.Tokens

/-!
# Pools that clients share

A pool is a queue of things that are free. Each of its clients has at most one of them: it takes the first that is free,
and gives it back behind the others.

* `Pool.Conserves` — every thing is either free or with one client.
* `Conserves.take`, `Conserves.put` — a client that takes a thing or gives it back keeps it so.
* `Hands`, `Conserves.hands` — what a client may do in a step, and that it keeps it so.
* `Conserves.exists_free` — with a thing for every client, one is free whenever a client has none.
-/

namespace DShuffle.Base

/-- A pool and its clients. -/
structure Pool (B : Type) where
  /-- What is free, in the order in which it is taken. -/
  free : List B
  /-- What each client has. -/
  held : List (Option B)

namespace Pool

variable {B : Type} {all : List B} {p : Pool B} {i : ℕ} {b : B} {rest : List B}

/-- The things are those that are free and those that clients have. -/
def Conserves (all : List B) (p : Pool B) : Prop := (p.free ++ p.held.reduceOption).Perm all

/-- Before a client has taken anything. -/
def new (all : List B) (nClient : ℕ) : Pool B := ⟨all, List.replicate nClient none⟩

theorem conserves_new (all : List B) (nClient : ℕ) : Conserves all (new all nClient) := by
  have hnone : (List.replicate nClient (none : Option B)).reduceOption = [] := List.reduceOption_replicate_none
  rw [Conserves, new, hnone, List.append_nil]

/-- What a client has is one element of the list. -/
theorem perm_set {l : List (Option B)} {o : Option B} (o' : Option B) (h : l[i]? = some o) :
    l.Perm (o :: l.eraseIdx i) ∧ (l.set i o').Perm (o' :: l.eraseIdx i) := by
  refine ⟨perm_eraseIdx h, ?_⟩
  obtain ⟨hlt, -⟩ := List.getElem?_eq_some_iff.mp h
  have hset := perm_eraseIdx (l := l.set i o') (i := i) (a := o') (List.getElem?_set_self hlt)
  rwa [List.eraseIdx_set_eq] at hset

/-- A client takes the first thing. -/
theorem Conserves.take (h : Conserves all p) (hi : p.held[i]? = some none) (hfree : p.free = b :: rest) :
    Conserves all ⟨rest, p.held.set i (some b)⟩ := by
  obtain ⟨hold, hnew⟩ := perm_set (some b) hi
  have hold' := hold.filterMap id
  have hnew' := hnew.filterMap id
  refine List.Perm.trans ?_ h
  rw [hfree]
  calc
    List.Perm (rest ++ (p.held.set i (some b)).reduceOption) (rest ++ b :: (p.held.eraseIdx i).reduceOption) :=
      List.Perm.append_left rest hnew'
    List.Perm _ (b :: (rest ++ (p.held.eraseIdx i).reduceOption)) := List.perm_middle
    List.Perm _ (b :: rest ++ p.held.reduceOption) := (List.Perm.append_left rest hold'.symm).cons b

/-- A client gives back what it has. -/
theorem Conserves.put (h : Conserves all p) (hi : p.held[i]? = some (some b)) :
    Conserves all ⟨p.free ++ [b], p.held.set i none⟩ := by
  obtain ⟨hold, hnew⟩ := perm_set none hi
  have hold' := hold.filterMap id
  have hnew' := hnew.filterMap id
  refine List.Perm.trans ?_ h
  calc
    List.Perm (p.free ++ [b] ++ (p.held.set i none).reduceOption) (p.free ++ [b] ++ (p.held.eraseIdx i).reduceOption) :=
      List.Perm.append_left _ hnew'
    List.Perm _ (p.free ++ b :: (p.held.eraseIdx i).reduceOption) := by rw [List.append_assoc]; exact .rfl
    List.Perm _ (p.free ++ p.held.reduceOption) := List.Perm.append_left _ hold'.symm

/-- What a client may do to what is free and to what it has. -/
inductive Hands : List B → Option B → List B → Option B → Prop where
  /-- Nothing. -/
  | keep {free : List B} {o : Option B} : Hands free o free o
  /-- It takes the first thing. -/
  | take {b : B} {rest : List B} : Hands (b :: rest) none rest (some b)
  /-- It gives back what it has. -/
  | put {free : List B} {b : B} : Hands free (some b) (free ++ [b]) none

/-- **Whatever a client does, every thing stays in one place.** -/
theorem Conserves.hands {free free' : List B} {held : List (Option B)} {o o' : Option B} (h : Conserves all ⟨free, held⟩)
    (hi : held[i]? = some o) (hm : Hands free o free' o') : Conserves all ⟨free', held.set i o'⟩ := by
  cases hm with
  | keep =>
    obtain ⟨hlt, rfl⟩ := List.getElem?_eq_some_iff.mp hi
    rw [List.set_getElem_self]
    exact h
  | take => exact h.take hi rfl
  | put => exact h.put hi

/-- A client that has nothing leaves a thing for itself: the others have at most one each. -/
theorem length_held_lt (hi : p.held[i]? = some none) : p.held.reduceOption.length < p.held.length := by
  refine lt_of_le_of_ne (List.reduceOption_length_le _) fun heq => ?_
  have hsome := List.reduceOption_length_eq_iff.mp heq none (List.mem_of_getElem? hi)
  simp at hsome

/-- **With a thing for every client, one is free for a client that has none.** -/
theorem Conserves.exists_free (h : Conserves all p) (hall : p.held.length ≤ all.length) (hi : p.held[i]? = some none) :
    ∃ b rest, p.free = b :: rest := by
  have hlen := h.length_eq
  have hlt := length_held_lt hi
  rw [List.length_append] at hlen
  exact List.exists_cons_of_length_pos (by omega)

/-- What is free is with no client. -/
theorem Conserves.not_held (h : Conserves all p) (hn : all.Nodup) (hb : b ∈ p.free) : some b ∉ p.held := by
  have hnodup := h.nodup_iff.mpr hn
  exact fun hheld => (List.nodup_append.mp hnodup).2.2 b hb b (List.reduceOption_mem_iff.mpr hheld) rfl

/-- Two clients have different things. -/
theorem Conserves.held_inj (h : Conserves all p) (hn : all.Nodup) {j : ℕ} (hi : p.held[i]? = some (some b))
    (hj : p.held[j]? = some (some b)) : i = j := by
  by_contra hij
  have hnodup := (List.nodup_append.mp (h.nodup_iff.mpr hn)).2.1
  -- the list without the thing of the first client still has it
  have hmem : some b ∈ p.held.eraseIdx i := List.mem_eraseIdx_iff_getElem?.mpr ⟨j, fun h => hij h.symm, hj⟩
  have hperm : p.held.reduceOption.Perm (b :: (p.held.eraseIdx i).reduceOption) := (perm_eraseIdx hi).filterMap id
  exact (List.nodup_cons.mp (hperm.nodup_iff.mp hnodup)).1 (List.reduceOption_mem_iff.mpr hmem)

end Pool

end DShuffle.Base
