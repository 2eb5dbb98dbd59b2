import Mathlib.Algebra.Order.Ring.Nat
import DShuffle.Base.Handles

/-!
# Streams that were written apart and joined

A stream is what a writer makes of a list of orders: write this, or forget the numbers. Each writer counts
from nothing. The streams of several writers are put one behind the other, and one reader reads them all.

## The model

* `writeOps` is a writer, `readAll` a reader that reads up to the end of the stream. A reader looks at the
  labels: a thing that stands where it does not fit is an error.
* `visit` finds what comes up again; `Stands` says that, behind the things that the reader already counts,
  the numbers of a stream still mean what they were written for; `carry` is what the reader counts behind it.

## What is proved

* `readAs_iff` — the joined stream is read as the things that were written exactly if every number stands
  for the same thing in it.
-/

namespace DShuffle.Base.Handles

variable {L T : Type}

/-! ### Whole streams -/

/-- What a writer is told to do. -/
inductive Op (T : Type) where
  /-- Write this. -/
  | object (x : Option T)
  /-- Forget the numbers. -/
  | reset

/-- What the writer is told to write. -/
def objects : List (Op T) → List (Option T)
  | [] => []
  | .object x :: ops => x :: objects ops
  | .reset :: ops => objects ops

section Streams

variable [DecidableEq T] (heap : T → Shape L T) (depth : ℕ)

/-- The stream of a writer. -/
def writeOps : List T → List (Op T) → Option (List (Tok L) × List T)
  | known, [] => some ([], known)
  | known, .object x :: ops => do
    let (ts, known) ← write heap depth known x
    let (us, known) ← writeOps known ops
    return (ts ++ us, known)
  | _, .reset :: ops => do
    let (us, known) ← writeOps [] ops
    return (.reset :: us, known)

/-- Behind the things `prev`, the numbers up to the first reset stand for what they were written for. -/
def Stands (prev : List T) : List T → List (Op T) → Prop
  | _, [] => True
  | _, .reset :: _ => True
  | known, .object x :: ops =>
    (∀ p ∈ (visit heap depth known x).1, ∃ t, (prev ++ (visit heap depth known x).2)[p.1]? = some t ∧
      Same (total heap) (total heap) t p.2) ∧
    Stands prev (visit heap depth known x).2 ops

/-- The things that are numbered behind a stream that stood behind `prev`. -/
def carry : (prev known : List T) → List (Op T) → List T
  | prev, known, [] => prev ++ known
  | _, _, .reset :: ops => carry [] [] ops
  | prev, known, .object x :: ops => carry prev (visit heap depth known x).2 ops

/-- The numbers stand for what they were written for in every one of the streams that were joined. -/
def StandsAll : List T → List (List (Op T)) → Prop
  | _, [] => True
  | prev, ops :: rest => Stands heap depth prev [] ops ∧ StandsAll (carry heap depth prev [] ops) rest

end Streams

section Read

/-- A node with the labels of its things. -/
def Store.kinds (s : Store L) (n : Shape L ℕ) : Shape L L :=
  { label := n.label
    pre := n.pre.map fun x => x.bind fun i => (s.nodes[i]?).map Shape.label
    post := n.post.map fun x => x.bind fun i => (s.nodes[i]?).map Shape.label }

variable (fits : Shape L L → Bool) (depth : ℕ)

/-- Reads a thing; it is an error if a thing below it stands where it does not fit. -/
def readObject (s : Store L) (ts : List (Tok L)) : Option (Option ℕ × Store L × List (Tok L)) := do
  let (v, s', ts) ← read depth s ts
  if (s'.nodes.drop s.nodes.length).all fun n => fits (s'.kinds n) then some (v, s', ts) else none

/-- Reads up to the end, at most `n` items and objects. -/
def readAll : (n : ℕ) → Store L → List (Tok L) → Option (List (Option ℕ) × Store L)
  | 0, _, _ => none
  | _ + 1, s, [] => some ([], s)
  | n + 1, s, .reset :: ts => readAll n { s with base := s.nodes.length } ts
  | n + 1, s, ts => do
    let (v, s, ts) ← readObject fits depth s ts
    let (vs, s) ← readAll n s ts
    return (v :: vs, s)

variable {fits depth}

theorem readAll_of_read {s s' : Store L} {ts rest : List (Tok L)} {v : Option ℕ}
    (hread : read depth s ts = some (v, s', rest)) (n : ℕ) :
    readAll fits depth (n + 1) s ts =
      if (s'.nodes.drop s.nodes.length).all fun n => fits (s'.kinds n) then
        (readAll fits depth n s' rest).map fun q => (v :: q.1, q.2)
      else none := by
  have hobject : readObject fits depth s ts =
      if (s'.nodes.drop s.nodes.length).all fun n => fits (s'.kinds n) then some (v, s', rest) else none := by
    simp [readObject, hread]
  have hstep : readAll fits depth (n + 1) s ts = (readObject fits depth s ts).bind fun q =>
      (readAll fits depth n q.2.1 q.2.2).map fun q' => (q.1 :: q'.1, q'.2) := by
    cases ts with
    | nil => cases depth <;> simp [read] at hread
    | cons tok ts =>
      cases tok with
      | reset => cases depth <;> simp [read] at hread
      | null | ref _ | new _ _ _ => simp [readAll, Option.map_eq_bind]
  rw [hstep, hobject]
  split
  · rfl
  · rfl

/-- What was read stays in the heap of the reader. -/
theorem read_keeps {s s' : Store L} {ts rest : List (Tok L)} {v : Option ℕ}
    (hread : read depth s ts = some (v, s', rest)) : s.nodes <+: s'.nodes := by
  have hmany : ∀ (rd : Store L → List (Tok L) → Option (Option ℕ × Store L × List (Tok L))),
      (∀ s ts v s' rest, rd s ts = some (v, s', rest) → s.nodes <+: s'.nodes) →
      ∀ n s ts vs s' rest, readMany rd n s ts = some (vs, s', rest) → s.nodes <+: s'.nodes := by
    intro rd hrd n
    induction n with
    | zero => intro s ts vs s' rest h; cases h; exact List.prefix_rfl
    | succ n ih =>
      intro s ts vs s' rest h
      simp only [readMany, Option.bind_eq_bind, Option.bind_eq_some_iff, Option.pure_def, Option.some.injEq, Prod.exists,
        Prod.mk.injEq] at h
      obtain ⟨v, s₁, ts₁, h₁, vs₂, s₂, ts₂, h₂, -, rfl, -⟩ := h
      exact (hrd _ _ _ _ _ h₁).trans (ih _ _ _ _ _ h₂)
  induction depth generalizing s s' ts rest v with
  | zero => simp [read] at hread
  | succ d ih =>
    cases ts with
    | nil => simp [read] at hread
    | cons tok ts =>
      cases tok with
      | null => cases hread; exact List.prefix_rfl
      | ref h =>
        simp only [read, Option.ite_none_right_eq_some, Option.some.injEq, Prod.mk.injEq] at hread
        obtain ⟨-, -, rfl, -⟩ := hread
        exact List.prefix_rfl
      | reset => simp [read] at hread
      | new l a b =>
        simp only [read, Option.bind_eq_bind, Option.bind_eq_some_iff, Option.pure_def, Option.some.injEq, Prod.exists,
          Prod.mk.injEq] at hread
        obtain ⟨pre, s₁, ts₁, h₁, post, s₂, ts₂, h₂, -, rfl, -⟩ := hread
        obtain ⟨fresh₁, hf₁⟩ := hmany _ (fun _ _ _ _ _ h => ih h) _ _ _ _ _ _ h₁
        obtain ⟨fresh₂, hf₂⟩ := hmany _ (fun _ _ _ _ _ h => ih h) _ _ _ _ _ _ h₂
        refine ⟨fresh₁ ++ [⟨l, pre, post⟩] ++ fresh₂, ?_⟩
        simp only at hf₂ ⊢
        rw [← hf₂, ← hf₁]
        simp

theorem readAll_keeps {n : ℕ} {s s' : Store L} {ts : List (Tok L)} {vs : List (Option ℕ)}
    (hread : readAll fits depth n s ts = some (vs, s')) : s.nodes <+: s'.nodes := by
  induction n generalizing s ts vs with
  | zero => simp [readAll] at hread
  | succ n ih =>
    cases hr : read depth s ts with
    | some q =>
      obtain ⟨v, s₁, rest⟩ := q
      rw [readAll_of_read hr] at hread
      simp only [Option.ite_none_right_eq_some, Option.map_eq_some_iff, Prod.exists, Prod.mk.injEq] at hread
      obtain ⟨-, vs', s₂, hrest, -, rfl⟩ := hread
      exact (read_keeps hr).trans (ih hrest)
    | none =>
      cases ts with
      | nil => cases hread; exact List.prefix_rfl
      | cons tok ts =>
        cases tok with
        | reset => exact ih (s := { s with base := s.nodes.length }) hread
        | null | ref _ | new _ _ _ => simp [readAll, readObject, hr] at hread

end Read

/-! ### Streams that were written apart -/

section Joined

/-- The reader has a node for each of the things `all`; those it counts are `prev` and behind them `known`. -/
structure Follows (s : Store L) (all prev known : List T) : Prop where
  /-- There is a node for every thing. -/
  length : s.nodes.length = all.length
  /-- The reader counts from a node on. -/
  base_le : s.base ≤ all.length
  /-- What it counts. -/
  counts : all.drop s.base = prev ++ known

theorem Follows.getElem? {s : Store L} {all prev known : List T} (h : Follows s all prev known) (k : ℕ) :
    all[s.base + k]? = (prev ++ known)[k]? := by
  rw [← h.counts, List.getElem?_drop]

theorem Follows.base_add_le {s : Store L} {all prev known : List T} (h : Follows s all prev known) :
    s.base + known.length ≤ s.nodes.length := by
  have hlen := congrArg List.length h.counts
  rw [List.length_drop, List.length_append] at hlen
  have := h.base_le
  have := h.length
  omega

theorem Follows.append {s : Store L} {all prev known new : List T} {fresh : List (Shape L ℕ)}
    (h : Follows s all prev known) (hlen : fresh.length = new.length) :
    Follows ⟨s.base, s.nodes ++ fresh⟩ (all ++ new) prev (known ++ new) where
  length := by rw [List.length_append, List.length_append, h.length, hlen]
  base_le := by rw [List.length_append]; exact Nat.le_add_right_of_le h.base_le
  counts := by rw [List.drop_append_of_le_length h.base_le, h.counts, List.append_assoc]

theorem Follows.reset {s : Store L} {all prev known : List T} (h : Follows s all prev known) :
    Follows { s with base := s.nodes.length } all [] [] where
  length := h.length
  base_le := Nat.le_of_eq h.length
  counts := by rw [h.length, List.drop_length]; rfl

/-- A new stream begins. -/
theorem Follows.next {s : Store L} {all prev known : List T} (h : Follows s all prev known) :
    Follows s all (prev ++ known) [] :=
  { h with counts := by rw [h.counts, List.append_nil] }

/-- What a list of numbers with things means: each thing has its number. -/
def HasNumbers (found : List (ℕ × T) × List T) : Prop := ∀ p ∈ found.1, found.2[p.1]? = some p.2

theorem getElem?_mono {as bs : List T} (h : as <+: bs) {i : ℕ} {u : T} (hi : as[i]? = some u) : bs[i]? = some u := by
  obtain ⟨cs, rfl⟩ := h
  rw [List.getElem?_append_left (List.getElem?_eq_some_iff.mp hi).1, hi]

theorem visitAll_spec {v : List T → Option T → List (ℕ × T) × List T}
    (hv : ∀ known x, known <+: (v known x).2 ∧ HasNumbers (v known x)) (xs : List (Option T)) (known : List T) :
    known <+: (visitAll v known xs).2 ∧ HasNumbers (visitAll v known xs) := by
  induction xs generalizing known with
  | nil => exact ⟨List.prefix_rfl, fun p hp => by simp [visitAll] at hp⟩
  | cons x xs ih =>
    obtain ⟨hpre, hnum⟩ := hv known x
    obtain ⟨hpre', hnum'⟩ := ih (v known x).2
    refine ⟨hpre.trans hpre', ?_⟩
    intro p hp
    rcases List.mem_append.mp hp with hp | hp
    · exact getElem?_mono hpre' (hnum p hp)
    · exact hnum' p hp

variable {heap : T → Shape L T}

/-- The place `i` of the reader's heap is for a thing that is the same as `u`. -/
def StandsFor (heap : T → Shape L T) (all : List T) (i : ℕ) (u : T) : Prop :=
  ∃ t, all[i]? = some t ∧ Same (total heap) (total heap) t u

/-- The nodes that were read agree with the things they are for. -/
def Faithful (heap : T → Shape L T) (s : Store L) (all : List T) : Prop :=
  List.Forall₂ (fun n u => n.Agree (StandsFor heap all) (heap u)) s.nodes all

/-- A thing with the labels of its things. -/
def kindsOf (heap : T → Shape L T) (t : T) : Shape L L :=
  { label := (heap t).label
    pre := (heap t).pre.map (Option.map fun u => (heap u).label)
    post := (heap t).post.map (Option.map fun u => (heap u).label) }

theorem StandsFor.mono {all all' : List T} (h : all <+: all') {i : ℕ} {u : T} (hi : StandsFor heap all i u) :
    StandsFor heap all' i u := by
  obtain ⟨t, ht, hsame⟩ := hi
  exact ⟨t, getElem?_mono h ht, hsame⟩

/-- A reader with faithful nodes sees the labels that were written. -/
theorem Faithful.label {s : Store L} {all : List T} (h : Faithful heap s all) {i : ℕ} {u : T}
    (hi : StandsFor heap all i u) : (s.nodes[i]?).map Shape.label = some (heap u).label := by
  obtain ⟨t, ht, hsame⟩ := hi
  obtain ⟨hlt, hget⟩ := List.getElem?_eq_some_iff.mp ht
  have hlt' : i < s.nodes.length := by rw [h.length_eq]; exact hlt
  have hagree := h.get hlt' hlt
  rw [List.getElem?_eq_getElem hlt', Option.map_some]
  rw [List.get_eq_getElem, List.get_eq_getElem, hget] at hagree
  rw [hagree.label, hsame.label_eq rfl rfl]

theorem Faithful.kinds {s : Store L} {all : List T} (h : Faithful heap s all) {n : Shape L ℕ} {u : T}
    (hn : n.Agree (StandsFor heap all) (heap u)) : s.kinds n = kindsOf heap u := by
  have hlist : ∀ (xs : List (Option ℕ)) (ys : List (Option T)), List.Forall₂ (Option.Rel (StandsFor heap all)) xs ys →
      (xs.map fun x => x.bind fun i => (s.nodes[i]?).map Shape.label) = ys.map (Option.map fun u => (heap u).label) := by
    intro xs ys hxy
    induction hxy with
    | nil => rfl
    | cons hab _ ih =>
      rw [List.map_cons, List.map_cons, ih]
      cases hab with
      | none => rfl
      | some hab => rw [Option.bind_some, h.label hab, Option.map_some]
  rw [Store.kinds, kindsOf, hn.label, hlist _ _ hn.pre, hlist _ _ hn.post]

/-- With faithful nodes, what stands for a thing is the same as the thing. -/
theorem Faithful.same {s : Store L} {all : List T} (h : Faithful heap s all) {i : ℕ} {u : T}
    (hi : StandsFor heap all i u) : Same s.heap (total heap) i u := by
  refine ⟨StandsFor heap all, ?_, hi⟩
  rintro i u ⟨t, ht, hsame⟩
  obtain ⟨hlt, hget⟩ := List.getElem?_eq_some_iff.mp ht
  have hlt' : i < s.nodes.length := by rw [h.length_eq]; exact hlt
  have hagree := h.get hlt' hlt
  rw [List.get_eq_getElem, List.get_eq_getElem, hget] at hagree
  obtain ⟨m, n, hm, hn, hmn⟩ := same_closed t u hsame
  cases hm
  refine ⟨_, n, List.getElem?_eq_getElem hlt', hn, (hagree.comp hmn).imp ?_⟩
  rintro i' u' ⟨t', ⟨t'', ht'', hsame''⟩, hsame'⟩
  exact ⟨t'', ht'', hsame''.trans hsame'⟩

variable [DecidableEq T]

/-- The numbering grows, and what comes up again has its number in it. -/
theorem visit_spec (d : ℕ) (known : List T) (x : Option T) :
    known <+: (visit heap d known x).2 ∧ HasNumbers (visit heap d known x) := by
  induction d generalizing known x with
  | zero => exact ⟨List.prefix_rfl, fun p hp => by simp [visit] at hp⟩
  | succ d ih =>
    cases x with
    | none => exact ⟨List.prefix_rfl, fun p hp => by simp [visit] at hp⟩
    | some t =>
      by_cases ht : t ∈ known
      · simp only [visit, if_pos ht]
        refine ⟨List.prefix_rfl, ?_⟩
        intro p hp
        rw [List.mem_singleton] at hp
        subst hp
        exact List.getElem?_idxOf ht
      · obtain ⟨hpre, hnum⟩ := visitAll_spec ih (heap t).pre known
        obtain ⟨hpost, hnum'⟩ := visitAll_spec ih (heap t).post ((visitAll (visit heap d) known (heap t).pre).2 ++ [t])
        have hpre' := (List.prefix_append _ [t]).trans hpost
        simp only [visit, if_neg ht]
        refine ⟨hpre.trans hpre', ?_⟩
        intro p hp
        rcases List.mem_append.mp hp with hp | hp
        · exact getElem?_mono hpre' (hnum p hp)
        · exact hnum' p hp

/-- At the start of a stream every number stands for what it was written for. -/
theorem stands_nil (d : ℕ) (known : List T) (ops : List (Op T)) : Stands heap d [] known ops := by
  induction ops generalizing known with
  | nil => trivial
  | cons op ops ih =>
    cases op with
    | reset => trivial
    | object x =>
      refine ⟨?_, ih _⟩
      intro p hp
      exact ⟨p.2, (visit_spec d known x).2 p hp, Same.refl heap p.2⟩

variable {fits : Shape L L → Bool} {d r : ℕ}

/-- One object that stands is read as it was written. -/
theorem Faithful.object (hdr : d ≤ r) (hfits : ∀ t, fits (kindsOf heap t) = true) {s : Store L} {all prev known known' : List T}
    {x : Option T} {ts : List (Tok L)} (hgood : Faithful heap s all) (hf : Follows s all prev known)
    (hw : write heap d known x = some (ts, known'))
    (hst : ∀ p ∈ (visit heap d known x).1, ∃ t, (prev ++ (visit heap d known x).2)[p.1]? = some t ∧
      Same (total heap) (total heap) t p.2) (n : ℕ) (rest : List (Tok L)) :
    ∃ val s' all', readAll fits r (n + 1) s (ts ++ rest) = (readAll fits r n s' rest).map (fun q => (val :: q.1, q.2)) ∧
      Follows s' all' prev (visit heap d known x).2 ∧ (visit heap d known x).2 = known' ∧ Faithful heap s' all' ∧
      all <+: all' ∧ Option.Rel (StandsFor heap all') val x := by
  obtain ⟨val, fresh, new, rfl, hv, hread, hreads⟩ := read_write hdr _ _ _ _ rest _ _ hw hf.base_add_le
  have hf' := hf.append hreads.length
  rw [← hv] at hf'
  have hnum : Numbered (StandsFor heap (all ++ new)) s.nodes.length new := by
    intro k u hk
    refine ⟨u, ?_, Same.refl heap u⟩
    rw [hf.length, List.getElem?_append_right (Nat.le_add_right ..), Nat.add_sub_cancel_left, hk]
  have hback : Back (StandsFor heap (all ++ new)) s.base (visit heap d known x).1 := by
    intro p hp
    obtain ⟨t, ht, hsame⟩ := hst p hp
    exact ⟨t, (hf'.getElem? p.1).trans ht, hsame⟩
  obtain ⟨hrel, hfresh⟩ := hreads.build _ hnum hback
  have hold : List.Forall₂ (fun n u => n.Agree (StandsFor heap (all ++ new)) (heap u)) s.nodes all :=
    hgood.imp fun n u hn => hn.imp fun i u hi => hi.mono (List.prefix_append ..)
  have hgood' : Faithful heap ⟨s.base, s.nodes ++ fresh⟩ (all ++ new) := List.rel_append hold hfresh
  refine ⟨val, ⟨s.base, s.nodes ++ fresh⟩, all ++ new, ?_, hf', hv, hgood', List.prefix_append .., hrel⟩
  rw [readAll_of_read hread, if_pos]
  rw [List.drop_left, List.all_eq_true]
  intro n hn
  obtain ⟨u, hu⟩ : ∃ u, n.Agree (StandsFor heap (all ++ new)) (heap u) := by
    obtain ⟨i, hi, rfl⟩ := List.getElem_of_mem hn
    exact ⟨_, hfresh.get hi (by rw [← hfresh.length_eq]; exact hi)⟩
  rw [hgood'.kinds hu]
  exact hfits u

/-- A stream that stands is read as it was written. -/
theorem Faithful.stream (hdr : d ≤ r) (hfits : ∀ t, fits (kindsOf heap t) = true) {ops : List (Op T)} {s : Store L}
    {all prev known known' : List T} {ts : List (Tok L)} (hgood : Faithful heap s all) (hf : Follows s all prev known)
    (hw : writeOps heap d known ops = some (ts, known')) (hst : Stands heap d prev known ops) (n : ℕ) (rest : List (Tok L)) :
    ∃ vals s' all', readAll fits r (ops.length + n) s (ts ++ rest) =
        (readAll fits r n s' rest).map (fun q => (vals ++ q.1, q.2)) ∧
      Follows s' all' (carry heap d prev known ops) [] ∧ Faithful heap s' all' ∧ all <+: all' ∧
      List.Forall₂ (Option.Rel (StandsFor heap all')) vals (objects ops) := by
  induction ops generalizing s all prev known ts with
  | nil =>
    cases hw
    exact ⟨[], s, all, by simp, hf.next, hgood, List.prefix_rfl, .nil⟩
  | cons op ops ih =>
    cases op with
    | reset =>
      simp only [writeOps, Option.bind_eq_bind, Option.bind_eq_some_iff, Option.pure_def, Option.some.injEq, Prod.exists,
        Prod.mk.injEq] at hw
      obtain ⟨ts', known'', hw, rfl, rfl⟩ := hw
      have hgood' : Faithful heap { s with base := s.nodes.length } all := hgood
      obtain ⟨vals, s', all', hread, hrest⟩ := ih hgood' hf.reset hw (stands_nil ..)
      refine ⟨vals, s', all', ?_, hrest⟩
      rw [List.length_cons, Nat.add_right_comm, List.cons_append, readAll, hread]
    | object x =>
      simp only [writeOps, Option.bind_eq_bind, Option.bind_eq_some_iff, Option.pure_def, Option.some.injEq, Prod.exists,
        Prod.mk.injEq] at hw
      obtain ⟨ts₁, known₁, hw₁, ts₂, known₂, hw₂, rfl, rfl⟩ := hw
      obtain ⟨val, s₁, all₁, hread₁, hf₁, rfl, hgood₁, hall₁, hrel⟩ :=
        hgood.object hdr hfits hf hw₁ hst.1 (ops.length + n) (ts₂ ++ rest)
      obtain ⟨vals, s₂, all₂, hread₂, hf₂, hgood₂, hall₂, hrels⟩ := ih hgood₁ hf₁ hw₂ hst.2
      refine ⟨val :: vals, s₂, all₂, ?_, hf₂, hgood₂, hall₁.trans hall₂, .cons ?_ hrels⟩
      · rw [List.length_cons, Nat.add_right_comm, List.append_assoc, hread₁, hread₂, Option.map_map]
        rfl
      · cases hrel with
        | none => exact .none
        | some hrel => exact .some (hrel.mono hall₂)

/-- One object that is read as it was written stands. -/
theorem stands_of_object (hdr : d ≤ r) {s sF : Store L} {all prev known known' : List T} {x : Option T}
    {ts rest : List (Tok L)} {n : ℕ} {vals : List (Option ℕ)} {more : List (Option T)} (hf : Follows s all prev known)
    (hw : write heap d known x = some (ts, known'))
    (hread : readAll fits r (n + 1) s (ts ++ rest) = some (vals, sF))
    (hsame : List.Forall₂ (Option.Rel (Same sF.heap (total heap))) vals (x :: more))
    (hall : Numbered (Same sF.heap (total heap)) 0 all) :
    (∀ p ∈ (visit heap d known x).1, ∃ t, (prev ++ (visit heap d known x).2)[p.1]? = some t ∧
      Same (total heap) (total heap) t p.2) ∧
    ∃ vals' s' all', readAll fits r n s' rest = some (vals', sF) ∧ (visit heap d known x).2 = known' ∧
      Follows s' all' prev (visit heap d known x).2 ∧ Numbered (Same sF.heap (total heap)) 0 all' ∧
      List.Forall₂ (Option.Rel (Same sF.heap (total heap))) vals' more := by
  obtain ⟨val, fresh, new, rfl, hv, hone, hreads⟩ := read_write hdr _ _ _ _ rest _ _ hw hf.base_add_le
  have hf' := hf.append hreads.length
  rw [← hv] at hf'
  rw [readAll_of_read hone] at hread
  simp only [Option.ite_none_right_eq_some, Option.map_eq_some_iff, Prod.exists, Prod.mk.injEq] at hread
  obtain ⟨-, vals', sF', hrest, rfl, rfl⟩ := hread
  obtain _ | ⟨hrel, hmore⟩ := hsame
  -- the nodes that were just read are in the heap at the end
  have hclosed : ClosedOn heap (Same sF'.heap (total heap)) s.nodes.length fresh new := by
    intro k n u hn hu hS
    obtain ⟨m, n', hm, hn', hmn⟩ := same_closed _ _ hS
    have hget : sF'.nodes[s.nodes.length + k]? = some n := by
      refine getElem?_mono (readAll_keeps hrest) ?_
      rw [List.getElem?_append_right (Nat.le_add_right ..), Nat.add_sub_cancel_left, hn]
    rw [Store.heap, hget] at hm
    cases hm
    cases hn'
    exact hmn
  obtain ⟨hnum, hback⟩ := hreads.trace _ hclosed hrel
  have hall' : Numbered (Same sF'.heap (total heap)) 0 (all ++ new) := by
    rw [numbered_append, Nat.zero_add, ← hf.length]
    exact ⟨hall, hnum⟩
  refine ⟨?_, vals', _, all ++ new, hrest, hv, hf', hall', hmore⟩
  intro p hp
  have hlt : p.1 < (prev ++ (visit heap d known x).2).length := by
    have := (List.getElem?_eq_some_iff.mp ((visit_spec d known x).2 p hp)).1
    rw [List.length_append]
    omega
  refine ⟨_, List.getElem?_eq_getElem hlt, ?_⟩
  have hplace := hall' (s.base + p.1) _ ((hf'.getElem? p.1).trans (List.getElem?_eq_getElem hlt))
  rw [Nat.zero_add] at hplace
  exact hplace.symm.trans (hback p hp)

/-- A stream that is read as it was written stands. -/
theorem stands_of_stream (hdr : d ≤ r) {ops : List (Op T)} {s sF : Store L} {all prev known known' : List T}
    {ts rest : List (Tok L)} {n : ℕ} {vals : List (Option ℕ)} {more : List (Option T)} (hf : Follows s all prev known)
    (hw : writeOps heap d known ops = some (ts, known'))
    (hread : readAll fits r (ops.length + n) s (ts ++ rest) = some (vals, sF))
    (hsame : List.Forall₂ (Option.Rel (Same sF.heap (total heap))) vals (objects ops ++ more))
    (hall : Numbered (Same sF.heap (total heap)) 0 all) :
    Stands heap d prev known ops ∧
    ∃ vals' s' all', readAll fits r n s' rest = some (vals', sF) ∧ Follows s' all' (carry heap d prev known ops) [] ∧
      Numbered (Same sF.heap (total heap)) 0 all' ∧
      List.Forall₂ (Option.Rel (Same sF.heap (total heap))) vals' more := by
  induction ops generalizing s all prev known ts vals with
  | nil =>
    cases hw
    rw [List.length_nil, Nat.zero_add, List.nil_append] at hread
    exact ⟨trivial, vals, s, all, hread, hf.next, hall, hsame⟩
  | cons op ops ih =>
    rw [List.length_cons, Nat.add_right_comm] at hread
    cases op with
    | reset =>
      simp only [writeOps, Option.bind_eq_bind, Option.bind_eq_some_iff, Option.pure_def, Option.some.injEq, Prod.exists,
        Prod.mk.injEq] at hw
      obtain ⟨ts', known'', hw, rfl, rfl⟩ := hw
      rw [List.cons_append, readAll] at hread
      exact ⟨trivial, (ih hf.reset hw hread hsame hall).2⟩
    | object x =>
      simp only [writeOps, Option.bind_eq_bind, Option.bind_eq_some_iff, Option.pure_def, Option.some.injEq, Prod.exists,
        Prod.mk.injEq] at hw
      obtain ⟨ts₁, known₁, hw₁, ts₂, known₂, hw₂, rfl, rfl⟩ := hw
      rw [List.append_assoc] at hread
      obtain ⟨hst, vals', s', all', hread', rfl, hf', hall', hsame'⟩ := stands_of_object hdr hf hw₁ hread hsame hall
      obtain ⟨hsts, hrest⟩ := ih hf' hw₂ hread' hsame' hall'
      exact ⟨⟨hst, hsts⟩, hrest⟩

/-! ### All the streams -/

/-- The writers' streams, one for each list of orders. -/
def Written (heap : T → Shape L T) (d : ℕ) : List (List (Op T)) → List (List (Tok L)) → Prop :=
  List.Forall₂ fun ops ts => ∃ known, writeOps heap d [] ops = some (ts, known)

/-- The reader's things are the same as those that were written, and there are no more. -/
def ReadAs (fits : Shape L L → Bool) (r : ℕ) (heap : T → Shape L T) (ts : List (Tok L)) (xs : List (Option T)) : Prop :=
  ∃ vals s, readAll fits r (ts.length + 1) ⟨0, []⟩ ts = some (vals, s) ∧
    List.Forall₂ (Option.Rel (Same s.heap (total heap))) vals xs

theorem length_le_of_write {known known' : List T} {x : Option T} {ts : List (Tok L)}
    (hw : write heap d known x = some (ts, known')) : 1 ≤ ts.length := by
  cases d with
  | zero => simp [write] at hw
  | succ d =>
    cases x with
    | none => cases hw; simp
    | some t =>
      by_cases ht : t ∈ known
      · simp only [write, if_pos ht, Option.some.injEq, Prod.mk.injEq] at hw
        simp [← hw.1]
      · simp only [write, if_neg ht, Option.bind_eq_bind, Option.bind_eq_some_iff, Option.pure_def, Option.some.injEq,
          Prod.exists, Prod.mk.injEq] at hw
        obtain ⟨ts₁, known₁, -, ts₂, known₂, -, rfl, -⟩ := hw
        simp

theorem length_le_of_writeOps {ops : List (Op T)} {known known' : List T} {ts : List (Tok L)}
    (hw : writeOps heap d known ops = some (ts, known')) : ops.length ≤ ts.length := by
  induction ops generalizing known ts with
  | nil => exact Nat.zero_le _
  | cons op ops ih =>
    cases op with
    | reset =>
      simp only [writeOps, Option.bind_eq_bind, Option.bind_eq_some_iff, Option.pure_def, Option.some.injEq, Prod.exists,
        Prod.mk.injEq] at hw
      obtain ⟨ts', known'', hw, rfl, rfl⟩ := hw
      simpa using ih hw
    | object x =>
      simp only [writeOps, Option.bind_eq_bind, Option.bind_eq_some_iff, Option.pure_def, Option.some.injEq, Prod.exists,
        Prod.mk.injEq] at hw
      obtain ⟨ts₁, known₁, hw₁, ts₂, known₂, hw₂, rfl, rfl⟩ := hw
      have h₁ := length_le_of_write hw₁
      have h₂ := ih hw₂
      rw [List.length_append, List.length_cons]
      omega

theorem length_le_of_written {opss : List (List (Op T))} {tss : List (List (Tok L))} (hw : Written heap d opss tss) :
    (opss.map List.length).sum ≤ tss.flatten.length := by
  induction hw with
  | nil => exact Nat.le_refl _
  | cons hone _ ih =>
    obtain ⟨known, hone⟩ := hone
    have := length_le_of_writeOps hone
    rw [List.map_cons, List.sum_cons, List.flatten_cons, List.length_append]
    omega

/-- Streams that stand are read as they were written. -/
theorem readAll_of_stands (hdr : d ≤ r) (hfits : ∀ t, fits (kindsOf heap t) = true) {opss : List (List (Op T))}
    {tss : List (List (Tok L))} (hw : Written heap d opss tss) {s : Store L} {all prev : List T}
    (hgood : Faithful heap s all) (hf : Follows s all prev []) (hst : StandsAll heap d prev opss) (k : ℕ) :
    ∃ vals s' all', readAll fits r ((opss.map List.length).sum + (k + 1)) s tss.flatten = some (vals, s') ∧
      Faithful heap s' all' ∧ all <+: all' ∧
      List.Forall₂ (Option.Rel (StandsFor heap all')) vals (opss.flatMap objects) := by
  induction hw generalizing s all prev with
  | nil => exact ⟨[], s, all, by simp [readAll], hgood, List.prefix_rfl, .nil⟩
  | cons hone _ ih =>
    obtain ⟨known, hone⟩ := hone
    obtain ⟨vals₁, s₁, all₁, hread₁, hf₁, hgood₁, hall₁, hrel₁⟩ := hgood.stream hdr hfits hf hone hst.1 _ _
    obtain ⟨vals₂, s₂, all₂, hread₂, hgood₂, hall₂, hrel₂⟩ := ih hgood₁ hf₁ hst.2
    refine ⟨vals₁ ++ vals₂, s₂, all₂, ?_, hgood₂, hall₁.trans hall₂, ?_⟩
    · rw [List.map_cons, List.sum_cons, Nat.add_assoc, List.flatten_cons, hread₁, hread₂]
      rfl
    · rw [List.flatMap_cons]
      exact List.rel_append (forall₂_rel_imp (fun i u hi => hi.mono hall₂) hrel₁) hrel₂

/-- Streams that are read as they were written stand. -/
theorem stands_of_readAll (hdr : d ≤ r) {opss : List (List (Op T))} {tss : List (List (Tok L))}
    (hw : Written heap d opss tss) {s sF : Store L} {all prev : List T} {vals : List (Option ℕ)} {n : ℕ}
    (hf : Follows s all prev []) (hread : readAll fits r ((opss.map List.length).sum + n) s tss.flatten = some (vals, sF))
    (hsame : List.Forall₂ (Option.Rel (Same sF.heap (total heap))) vals (opss.flatMap objects))
    (hall : Numbered (Same sF.heap (total heap)) 0 all) : StandsAll heap d prev opss := by
  induction hw generalizing s all prev vals with
  | nil => trivial
  | cons hone _ ih =>
    obtain ⟨known, hone⟩ := hone
    rw [List.map_cons, List.sum_cons, Nat.add_assoc, List.flatten_cons] at hread
    obtain ⟨hst, vals', s', all', hread', hf', hall', hsame'⟩ := stands_of_stream hdr hf hone hread hsame hall
    exact ⟨hst, ih hf' hread' hsame' hall'⟩

/-- **The joined streams are read as they were written exactly if the numbers stand in each of them.** -/
theorem readAs_iff (hdr : d ≤ r) (hfits : ∀ t, fits (kindsOf heap t) = true) {opss : List (List (Op T))}
    {tss : List (List (Tok L))} (hw : Written heap d opss tss) :
    ReadAs fits r heap tss.flatten (opss.flatMap objects) ↔ StandsAll heap d [] opss := by
  have hlen := length_le_of_written hw
  obtain ⟨k, hk⟩ : ∃ k, tss.flatten.length + 1 = (opss.map List.length).sum + (k + 1) :=
    ⟨tss.flatten.length - (opss.map List.length).sum, by omega⟩
  have hstart : Follows (⟨0, []⟩ : Store L) ([] : List T) [] [] := ⟨rfl, Nat.le_refl _, rfl⟩
  constructor
  · rintro ⟨vals, s, hread, hsame⟩
    rw [hk] at hread
    exact stands_of_readAll hdr hw hstart hread hsame (numbered_nil _ 0)
  · intro hst
    obtain ⟨vals, s, all, hread, hgood, -, hrel⟩ := readAll_of_stands hdr hfits hw (s := ⟨0, []⟩) .nil hstart hst k
    refine ⟨vals, s, by rw [hk, hread], forall₂_rel_imp ?_ hrel⟩
    intro i u hi
    exact hgood.same hi

end Joined

end DShuffle.Base.Handles
