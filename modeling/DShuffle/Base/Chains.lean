import Mathlib.Data.List.Basic

/-!
# Lists threaded through index arrays

Entries are kept in the order they came in, and threaded into buckets by two arrays
of indices: one gives for each bucket the entry its list begins with, the other for
each entry the next one. A mark that is no index ends a list. An entry is put in
front of the list of its bucket, so that a list runs from the newest entry to the
oldest; hence there are no cycles, and following a list takes no more steps than
there are entries.
-/

namespace DShuffle.Base

/-! ### Chains -/

/-- The indices threaded from `p` on: each is followed by the next, and the last by the mark. -/
inductive Chain (next : List ℕ) (mark : ℕ) : ℕ → List ℕ → Prop where
  /-- The mark ends a list. -/
  | done : Chain next mark mark []
  /-- An index, and what follows it. -/
  | link {p q : ℕ} {l : List ℕ} : p ≠ mark → next[p]? = some q → Chain next mark q l → Chain next mark p (p :: l)

/-- Walk along a chain up to the first index that passes the test. The walk faults where the array or the test has no
answer; `none` also stands for too little fuel. -/
def follow (next : List ℕ) (mark : ℕ) (test : ℕ → Option Bool) : (fuel p : ℕ) → Option (Option ℕ)
  | 0, _ => none
  | fuel + 1, p =>
    if p = mark then some none
    else do
      if ← test p then return some p
      follow next mark test fuel (← next[p]?)

/-- **A walk finds the first index of the chain that passes the test**, with one unit of fuel more than there are
indices. -/
theorem Chain.follow_eq {next : List ℕ} {mark p fuel : ℕ} {l : List ℕ} {test : ℕ → Option Bool} {good : ℕ → Bool}
    (h : Chain next mark p l) (htest : ∀ i ∈ l, test i = some (good i)) (hfuel : l.length < fuel) :
    follow next mark test fuel p = some (l.find? good) := by
  induction h generalizing fuel with
  | done =>
    obtain ⟨f, rfl⟩ : ∃ f, fuel = f + 1 := ⟨fuel - 1, by omega⟩
    rw [follow, if_pos rfl, List.find?_nil]
  | @link p q l hp hq _ ih =>
    obtain ⟨f, rfl⟩ : ∃ f, fuel = f + 1 := ⟨fuel - 1, by omega⟩
    have hfuel' : l.length < f := Nat.lt_of_succ_lt_succ (by rwa [List.length_cons] at hfuel)
    have hmore := ih (fun i hi => htest i (List.mem_cons_of_mem _ hi)) hfuel'
    rw [follow, if_neg hp, htest p (List.mem_cons_self ..)]
    cases hgood : good p with
    | true =>
      rw [List.find?_cons_of_pos hgood]
      rfl
    | false =>
      have hno : ¬ good p = true := by rw [hgood]; decide
      rw [List.find?_cons_of_neg hno, ← hmore]
      show (next[p]?).bind (fun q => follow next mark test f q) = _
      rw [hq]
      rfl

/-- A chain does not notice a change at an index that is not on it. -/
theorem Chain.set {next : List ℕ} {mark p n q : ℕ} {l : List ℕ} (h : Chain next mark p l) (hn : n ∉ l) :
    Chain (next.set n q) mark p l := by
  induction h with
  | done => exact .done
  | link hp hq _ ih =>
    rw [List.mem_cons, not_or] at hn
    refine .link hp ?_ (ih hn.2)
    rw [List.getElem?_set_ne hn.1]
    exact hq

/-! ### Buckets -/

/-- The indices below `n` that belong to bucket `b`, the newest first. -/
def members (bucket : ℕ → ℕ) (b : ℕ) : ℕ → List ℕ
  | 0 => []
  | n + 1 => if bucket n = b then n :: members bucket b n else members bucket b n

theorem mem_members {bucket : ℕ → ℕ} {b n i : ℕ} : i ∈ members bucket b n ↔ i < n ∧ bucket i = b := by
  induction n with
  | zero => simp [members]
  | succ n ih =>
    have hsplit : i < n + 1 ↔ i = n ∨ i < n := by omega
    rw [members]
    split_ifs with hb
    · rw [List.mem_cons, ih, hsplit]
      constructor
      · rintro (rfl | h)
        · exact ⟨Or.inl rfl, hb⟩
        · exact ⟨Or.inr h.1, h.2⟩
      · rintro ⟨rfl | h, hi⟩
        · exact Or.inl rfl
        · exact Or.inr ⟨h, hi⟩
    · rw [ih, hsplit]
      constructor
      · exact fun h => ⟨Or.inr h.1, h.2⟩
      · rintro ⟨rfl | h, hi⟩
        · exact absurd hi hb
        · exact ⟨h, hi⟩

theorem length_members_le (bucket : ℕ → ℕ) (b n : ℕ) : (members bucket b n).length ≤ n := by
  induction n with
  | zero => exact Nat.le_refl 0
  | succ n ih =>
    rw [members]
    split_ifs
    · rw [List.length_cons]
      exact Nat.succ_le_succ ih
    · exact Nat.le_trans ih (Nat.le_succ n)

theorem members_congr {bucket bucket' : ℕ → ℕ} {b n : ℕ} (h : ∀ i < n, bucket i = bucket' i) :
    members bucket b n = members bucket' b n := by
  induction n with
  | zero => rfl
  | succ n ih => rw [members, members, h n (Nat.lt_succ_self n), ih fun i hi => h i (Nat.lt_succ_of_lt hi)]

/-- **The two arrays thread the first `n` entries into their buckets.** -/
def Threaded (slots next : List ℕ) (mark n : ℕ) (bucket : ℕ → ℕ) : Prop :=
  ∀ b p, slots[b]? = some p → Chain next mark p (members bucket b n)

/-- Arrays full of marks thread nothing. -/
theorem Threaded.empty (k : ℕ) (next : List ℕ) (mark : ℕ) (bucket : ℕ → ℕ) :
    Threaded (List.replicate k mark) next mark 0 bucket := by
  intro b p hp
  obtain ⟨-, rfl⟩ := List.mem_replicate.mp (List.mem_of_getElem? hp)
  exact .done

/-- The bucket of an entry is looked at for the entries there are. -/
theorem Threaded.congr {slots next : List ℕ} {mark n : ℕ} {bucket bucket' : ℕ → ℕ} (h : Threaded slots next mark n bucket)
    (hsame : ∀ i < n, bucket i = bucket' i) : Threaded slots next mark n bucket' :=
  fun b p hp => members_congr (b := b) hsame ▸ h b p hp

/-- **One entry more**, put in front of the list of its bucket. -/
theorem Threaded.push {slots next : List ℕ} {mark n q : ℕ} {bucket : ℕ → ℕ} (h : Threaded slots next mark n bucket)
    (hn : n < next.length) (hmark : n ≠ mark) (hold : slots[bucket n]? = some q) :
    Threaded (slots.set (bucket n) n) (next.set n q) mark (n + 1) bucket := by
  have hfresh : ∀ b, n ∉ members bucket b n := fun b hmem => Nat.lt_irrefl n (mem_members.mp hmem).1
  intro b p hp
  rw [members]
  by_cases hb : bucket n = b
  · subst hb
    have hlt : bucket n < slots.length := (List.getElem?_eq_some_iff.mp hold).1
    rw [List.getElem?_set_self hlt, Option.some.injEq] at hp
    subst hp
    rw [if_pos rfl]
    exact .link hmark (List.getElem?_set_self hn) ((h _ q hold).set (hfresh _))
  · rw [List.getElem?_set_ne hb] at hp
    rw [if_neg hb]
    exact (h b p hp).set (hfresh b)

end DShuffle.Base
