import Mathlib.Data.List.Forall2
import Mathlib.Tactic.Common

/-!
# Streams with numbered things

A writer puts the things of a heap into a stream, depth first. The first time it meets a thing it writes
the thing and gives it the next number, between the things in front of the number and those behind it; a
thing it met before is written as its number. A `reset` forgets the numbers. A reader counts in the same
way over what it reads.

## The model

* A heap gives each thing a `Shape`: a label with everything that is not a thing, the things in front of
  the number and the things behind it. A heap may have cycles.
* `write` and `read` are recursive, with a bound on their depth. The reader's heap is a list: a thing is
  put at its end when it gets its number, and gets the things behind the number when these are read.
* `Same` says that two things, perhaps of two heaps, cannot be told apart by following them.

## What is proved

* `same_closed`, `Same.refl`, `Same.symm`, `Same.trans` — to be the same is an equivalence, and the largest
  relation that is kept by following.
* `read_write` — what is read where a thing was written, for any table of numbers: the things are those
  written, in order, with each number standing for whatever has it in the reader's table.
-/

namespace DShuffle.Base.Handles

variable {L T α β γ : Type}

/-! ### Heaps -/

/-- What a stream holds of a thing. -/
structure Shape (L T : Type) where
  /-- Everything that is not a thing. -/
  label : L
  /-- The things in front of the number. -/
  pre : List (Option T)
  /-- The things behind the number. -/
  post : List (Option T)
  deriving DecidableEq

/-- Two shapes agree, if the things that `R` relates are taken as equal. -/
structure Shape.Agree (R : α → β → Prop) (m : Shape L α) (n : Shape L β) : Prop where
  /-- The labels are equal. -/
  label : m.label = n.label
  /-- The things in front of the number are related. -/
  pre : List.Forall₂ (Option.Rel R) m.pre n.pre
  /-- The things behind the number are related. -/
  post : List.Forall₂ (Option.Rel R) m.post n.post

/-- Related things have shapes that agree. -/
def Closed (h : α → Option (Shape L α)) (k : β → Option (Shape L β)) (R : α → β → Prop) : Prop :=
  ∀ a b, R a b → ∃ m n, h a = some m ∧ k b = some n ∧ m.Agree R n

/-- The thing `a` of one heap and the thing `b` of another are the same, however far they are followed. -/
def Same (h : α → Option (Shape L α)) (k : β → Option (Shape L β)) (a : α) (b : β) : Prop :=
  ∃ R, Closed h k R ∧ R a b

/-- The heap in which every thing has a shape. -/
def total (heap : T → Shape L T) (t : T) : Option (Shape L T) := some (heap t)

section Same

variable {h : α → Option (Shape L α)} {k : β → Option (Shape L β)} {j : γ → Option (Shape L γ)}

theorem forall₂_rel_imp {R S : α → β → Prop} (hRS : ∀ a b, R a b → S a b) {xs : List (Option α)}
    {ys : List (Option β)} (hxy : List.Forall₂ (Option.Rel R) xs ys) : List.Forall₂ (Option.Rel S) xs ys := by
  refine hxy.imp ?_
  rintro _ _ (hab | _)
  · exact .some (hRS _ _ hab)
  · exact .none

theorem forall₂_rel_flip {R : α → β → Prop} {xs : List (Option α)} {ys : List (Option β)}
    (hxy : List.Forall₂ (Option.Rel R) xs ys) : List.Forall₂ (Option.Rel fun b a => R a b) ys xs := by
  refine (hxy.imp ?_ : List.Forall₂ (flip (Option.Rel fun b a => R a b)) xs ys).flip
  rintro _ _ (hab | _)
  · exact .some hab
  · exact .none

theorem forall₂_rel_comp {R : α → β → Prop} {S : β → γ → Prop} {xs : List (Option α)} {ys : List (Option β)}
    {zs : List (Option γ)} (hxy : List.Forall₂ (Option.Rel R) xs ys) (hyz : List.Forall₂ (Option.Rel S) ys zs) :
    List.Forall₂ (Option.Rel fun a c => ∃ b, R a b ∧ S b c) xs zs := by
  induction hxy generalizing zs with
  | nil => cases hyz; exact .nil
  | cons hab _ ih =>
    obtain _ | ⟨hbc, htail⟩ := hyz
    refine .cons ?_ (ih htail)
    cases hab with
    | some hab => cases hbc with | some hbc => exact .some ⟨_, hab, hbc⟩
    | none => cases hbc; exact .none

theorem Shape.Agree.imp {R S : α → β → Prop} (hRS : ∀ a b, R a b → S a b) {m : Shape L α} {n : Shape L β}
    (hmn : m.Agree R n) : m.Agree S n :=
  ⟨hmn.label, forall₂_rel_imp hRS hmn.pre, forall₂_rel_imp hRS hmn.post⟩

/-- Shapes that agree with one shape agree. -/
theorem Shape.Agree.comp {R : α → β → Prop} {S : β → γ → Prop} {l : Shape L α} {m : Shape L β} {n : Shape L γ}
    (hlm : l.Agree R m) (hmn : m.Agree S n) : l.Agree (fun a c => ∃ b, R a b ∧ S b c) n :=
  ⟨hlm.label.trans hmn.label, forall₂_rel_comp hlm.pre hmn.pre, forall₂_rel_comp hlm.post hmn.post⟩

/-- To be the same is the largest closed relation. -/
theorem same_closed : Closed h k (Same h k) := by
  rintro a b ⟨R, hR, hab⟩
  obtain ⟨m, n, hm, hn, hmn⟩ := hR a b hab
  exact ⟨m, n, hm, hn, hmn.imp fun a' b' hab' => ⟨R, hR, hab'⟩⟩

theorem Same.trans {a : α} {b : β} {c : γ} (hab : Same h k a b) (hbc : Same k j b c) : Same h j a c := by
  refine ⟨fun a c => ∃ b, Same h k a b ∧ Same k j b c, ?_, b, hab, hbc⟩
  rintro a c ⟨b, hab, hbc⟩
  obtain ⟨l, m, hl, hm, hlm⟩ := same_closed a b hab
  obtain ⟨m', n, hm', hn, hmn⟩ := same_closed b c hbc
  rw [hm] at hm'
  cases hm'
  exact ⟨l, n, hl, hn, hlm.comp hmn⟩

theorem Same.symm {a : α} {b : β} (hab : Same h k a b) : Same k h b a := by
  refine ⟨fun b a => Same h k a b, ?_, hab⟩
  intro b a hab
  obtain ⟨m, n, hm, hn, hmn⟩ := same_closed a b hab
  exact ⟨n, m, hn, hm, hmn.label.symm, forall₂_rel_flip hmn.pre, forall₂_rel_flip hmn.post⟩

/-- A thing of a heap that gives every thing a shape is the same as itself. -/
theorem Same.refl (heap : α → Shape L α) (a : α) : Same (total heap) (total heap) a a := by
  refine ⟨Eq, ?_, rfl⟩
  rintro a _ rfl
  have hself : ∀ xs : List (Option α), List.Forall₂ (Option.Rel Eq) xs xs := by
    intro xs
    rw [List.forall₂_same]
    intro x _
    cases x with
    | none => exact .none
    | some _ => exact .some rfl
  exact ⟨_, _, rfl, rfl, rfl, hself _, hself _⟩

theorem Same.label_eq {a : α} {b : β} {m : Shape L α} {n : Shape L β} (hab : Same h k a b) (hm : h a = some m)
    (hn : k b = some n) : m.label = n.label := by
  obtain ⟨m', n', hm', hn', hmn⟩ := same_closed a b hab
  rw [hm] at hm'
  rw [hn] at hn'
  cases hm'
  cases hn'
  exact hmn.label

end Same

/-! ### Writing and reading -/

/-- An item of a stream. -/
inductive Tok (L : Type) where
  /-- No thing. -/
  | null
  /-- The thing with this number. -/
  | ref (handle : ℕ)
  /-- A thing with its label, and how many things follow in front of its number and behind it. -/
  | new (label : L) (npre npost : ℕ)
  /-- The numbers are forgotten. -/
  | reset
  deriving DecidableEq

section Write

variable [DecidableEq T] (heap : T → Shape L T)

/-- Writes one thing after the other. -/
def writeAll (w : List T → Option T → Option (List (Tok L) × List T)) :
    List T → List (Option T) → Option (List (Tok L) × List T)
  | known, [] => some ([], known)
  | known, x :: xs => do
    let (ts, known) ← w known x
    let (us, known) ← writeAll w known xs
    return (ts ++ us, known)

/-- Writes a thing. The list `known` has the numbered things in the order of their numbers. -/
def write : ℕ → List T → Option T → Option (List (Tok L) × List T)
  | 0, _, _ => none
  | _ + 1, known, none => some ([.null], known)
  | depth + 1, known, some t =>
    if t ∈ known then some ([.ref (known.idxOf t)], known)
    else do
      let (ts, known) ← writeAll (write depth) known (heap t).pre
      let (us, known) ← writeAll (write depth) (known ++ [t]) (heap t).post
      return (.new (heap t).label (heap t).pre.length (heap t).post.length :: (ts ++ us), known)

/-- What comes up again in one thing after the other. -/
def visitAll (v : List T → Option T → List (ℕ × T) × List T) :
    List T → List (Option T) → List (ℕ × T) × List T
  | known, [] => ([], known)
  | known, x :: xs =>
    let (again, known) := v known x
    let (more, known) := visitAll v known xs
    (again ++ more, known)

/-- The things below `x` that come up again, each with the number it has, and the numbering behind `x`. -/
def visit : ℕ → List T → Option T → List (ℕ × T) × List T
  | 0, known, _ => ([], known)
  | _ + 1, known, none => ([], known)
  | depth + 1, known, some t =>
    if t ∈ known then ([(known.idxOf t, t)], known)
    else
      let (again, known) := visitAll (visit depth) known (heap t).pre
      let (more, known) := visitAll (visit depth) (known ++ [t]) (heap t).post
      (again ++ more, known)

end Write

/-- What a reader has. -/
structure Store (L : Type) where
  /-- Where the things stand that were numbered since the last reset. -/
  base : ℕ
  /-- The things that were read. -/
  nodes : List (Shape L ℕ)

/-- The heap of the reader. -/
def Store.heap (s : Store L) (i : ℕ) : Option (Shape L ℕ) := s.nodes[i]?

/-- Reads one thing after the other. -/
def readMany (rd : Store L → List (Tok L) → Option (Option ℕ × Store L × List (Tok L))) :
    ℕ → Store L → List (Tok L) → Option (List (Option ℕ) × Store L × List (Tok L))
  | 0, s, ts => some ([], s, ts)
  | n + 1, s, ts => do
    let (v, s, ts) ← rd s ts
    let (vs, s, ts) ← readMany rd n s ts
    return (v :: vs, s, ts)

/-- Reads a thing: where it stands, and what is left of the stream. -/
def read : ℕ → Store L → List (Tok L) → Option (Option ℕ × Store L × List (Tok L))
  | 0, _, _ => none
  | _ + 1, _, [] => none
  | _ + 1, s, .null :: ts => some (none, s, ts)
  | _ + 1, s, .ref handle :: ts =>
    if s.base + handle < s.nodes.length then some (some (s.base + handle), s, ts) else none
  | _ + 1, _, .reset :: _ => none
  | depth + 1, s, .new label npre npost :: ts => do
    let (pre, s, ts) ← readMany (read depth) npre s ts
    let i := s.nodes.length
    let (post, s, ts) ← readMany (read depth) npost { s with nodes := s.nodes ++ [⟨label, pre, []⟩] } ts
    return (some i, { s with nodes := s.nodes.set i ⟨label, pre, post⟩ }, ts)

/-! ### What is read where a thing was written -/

section ReadWrite

/-- The things of the list have the relation to the places from `start` on. -/
def Numbered (Q : ℕ → T → Prop) (start : ℕ) (new : List T) : Prop := ∀ k u, new[k]? = some u → Q (start + k) u

/-- What comes up again has the relation to the place of its number. -/
def Back (Q : ℕ → T → Prop) (base : ℕ) (again : List (ℕ × T)) : Prop := ∀ p ∈ again, Q (base + p.1) p.2

/-- The nodes from `start` on agree with the things they were written for as soon as they are related. -/
def ClosedOn (heap : T → Shape L T) (S : ℕ → T → Prop) (start : ℕ) (fresh : List (Shape L ℕ)) (new : List T) : Prop :=
  ∀ k n u, fresh[k]? = some n → new[k]? = some u → S (start + k) u → n.Agree S (heap u)

theorem numbered_nil (Q : ℕ → T → Prop) (start : ℕ) : Numbered Q start [] := by
  intro k u hk
  simp at hk

theorem numbered_append {Q : ℕ → T → Prop} {start : ℕ} {as bs : List T} :
    Numbered Q start (as ++ bs) ↔ Numbered Q start as ∧ Numbered Q (start + as.length) bs := by
  constructor
  · intro h
    refine ⟨?_, ?_⟩
    · intro k u hk
      exact h k u (by rw [List.getElem?_append_left (List.getElem?_eq_some_iff.mp hk).1, hk])
    · intro k u hk
      have hk' := h (as.length + k) u (by rw [List.getElem?_append_right (by omega), Nat.add_sub_cancel_left, hk])
      rwa [← Nat.add_assoc] at hk'
  · rintro ⟨ha, hb⟩ k u hk
    rcases Nat.lt_or_ge k as.length with hlt | hge
    · rw [List.getElem?_append_left hlt] at hk
      exact ha k u hk
    · rw [List.getElem?_append_right hge] at hk
      have hb' := hb _ u hk
      rwa [show start + as.length + (k - as.length) = start + k from by omega] at hb'

theorem back_append {Q : ℕ → T → Prop} {base : ℕ} {as bs : List (ℕ × T)} :
    Back Q base (as ++ bs) ↔ Back Q base as ∧ Back Q base bs := by
  simp only [Back, List.mem_append]
  constructor
  · intro h
    exact ⟨fun p hp => h p (.inl hp), fun p hp => h p (.inr hp)⟩
  · rintro ⟨ha, hb⟩ p (hp | hp)
    · exact ha p hp
    · exact hb p hp

theorem ClosedOn.append {heap : T → Shape L T} {S : ℕ → T → Prop} {start : ℕ} {fs gs : List (Shape L ℕ)} {as bs : List T}
    (hlen : fs.length = as.length) (h : ClosedOn heap S start (fs ++ gs) (as ++ bs)) :
    ClosedOn heap S start fs as ∧ ClosedOn heap S (start + as.length) gs bs := by
  refine ⟨?_, ?_⟩
  · intro k n u hn hu
    refine h k n u ?_ ?_
    · rw [List.getElem?_append_left (List.getElem?_eq_some_iff.mp hn).1, hn]
    · rw [List.getElem?_append_left (List.getElem?_eq_some_iff.mp hu).1, hu]
  · intro k n u hn hu
    rw [Nat.add_assoc]
    refine h (as.length + k) n u ?_ ?_
    · rw [List.getElem?_append_right (by omega), hlen, Nat.add_sub_cancel_left, hn]
    · rw [List.getElem?_append_right (by omega), Nat.add_sub_cancel_left, hu]

variable (heap : T → Shape L T)

/-- The nodes `fresh` were read for the things `new`. What was read is related to what was written, by any
relation that every place has to what was written there; and the other way round. -/
structure Reads (base start : ℕ) (fresh : List (Shape L ℕ)) (new : List T) (again : List (ℕ × T))
    (rel : (ℕ → T → Prop) → Prop) : Prop where
  /-- There is a node for every thing. -/
  length : fresh.length = new.length
  /-- From the places to what was read. -/
  build : ∀ Q, Numbered Q start new → Back Q base again →
    rel Q ∧ List.Forall₂ (fun n u => n.Agree Q (heap u)) fresh new
  /-- From what was read to the places. -/
  trace : ∀ S, ClosedOn heap S start fresh new → rel S → Numbered S start new ∧ Back S base again

variable {heap}

theorem Reads.nil {base start : ℕ} {rel : (ℕ → T → Prop) → Prop} (hrel : ∀ Q, rel Q) : Reads heap base start [] [] [] rel where
  length := rfl
  build Q _ _ := ⟨hrel Q, .nil⟩
  trace S _ _ := ⟨numbered_nil S start, fun p hp => by simp at hp⟩

/-- One thing after the other. -/
theorem Reads.append {base start : ℕ} {fs gs : List (Shape L ℕ)} {as bs : List T} {again more : List (ℕ × T)}
    {rel rel' : (ℕ → T → Prop) → Prop} (h : Reads heap base start fs as again rel)
    (h' : Reads heap base (start + as.length) gs bs more rel') :
    Reads heap base start (fs ++ gs) (as ++ bs) (again ++ more) fun Q => rel Q ∧ rel' Q where
  length := by rw [List.length_append, List.length_append, h.length, h'.length]
  build := by
    intro Q hnum hback
    obtain ⟨hnum₁, hnum₂⟩ := numbered_append.mp hnum
    obtain ⟨hback₁, hback₂⟩ := back_append.mp hback
    obtain ⟨hrel₁, hfresh₁⟩ := h.build Q hnum₁ hback₁
    obtain ⟨hrel₂, hfresh₂⟩ := h'.build Q hnum₂ hback₂
    exact ⟨⟨hrel₁, hrel₂⟩, List.rel_append hfresh₁ hfresh₂⟩
  trace := by
    rintro S hclosed ⟨hrel₁, hrel₂⟩
    obtain ⟨hclosed₁, hclosed₂⟩ := hclosed.append h.length
    obtain ⟨hnum₁, hback₁⟩ := h.trace S hclosed₁ hrel₁
    obtain ⟨hnum₂, hback₂⟩ := h'.trace S hclosed₂ hrel₂
    exact ⟨numbered_append.mpr ⟨hnum₁, hnum₂⟩, back_append.mpr ⟨hback₁, hback₂⟩⟩

theorem Reads.congr {base start : ℕ} {fs : List (Shape L ℕ)} {as : List T} {again : List (ℕ × T)}
    {rel rel' : (ℕ → T → Prop) → Prop} (h : Reads heap base start fs as again rel) (hrel : ∀ Q, rel Q ↔ rel' Q) :
    Reads heap base start fs as again rel' := by
  have heq : rel = rel' := funext fun Q => propext (hrel Q)
  rwa [heq] at h

/-- A thing with the things in front of its number and behind it. -/
theorem Reads.node {base start : ℕ} {t : T} {pre post : List (Option ℕ)} {fs gs : List (Shape L ℕ)} {as bs : List T}
    {again more : List (ℕ × T)}
    (hpre : Reads heap base start fs as again fun Q => List.Forall₂ (Option.Rel Q) pre (heap t).pre)
    (hpost : Reads heap base (start + (as.length + 1)) gs bs more fun Q => List.Forall₂ (Option.Rel Q) post (heap t).post) :
    Reads heap base start (fs ++ ⟨(heap t).label, pre, post⟩ :: gs) (as ++ t :: bs) (again ++ more)
      fun Q => Option.Rel Q (some (start + as.length)) (some t) where
  length := by
    rw [List.length_append, List.length_append, List.length_cons, List.length_cons, hpre.length, hpost.length]
  build := by
    intro Q hnum hback
    rw [← List.singleton_append, numbered_append, numbered_append] at hnum
    obtain ⟨hnum₁, hthis, hnum₂⟩ := hnum
    obtain ⟨hback₁, hback₂⟩ := back_append.mp hback
    obtain ⟨hrel₁, hfresh₁⟩ := hpre.build Q hnum₁ hback₁
    obtain ⟨hrel₂, hfresh₂⟩ := hpost.build Q (by rwa [← Nat.add_assoc]) hback₂
    exact ⟨.some (by simpa using hthis 0 t rfl), List.rel_append hfresh₁ (.cons ⟨rfl, hrel₁, hrel₂⟩ hfresh₂)⟩
  trace := by
    intro S hclosed hrel
    obtain ⟨hclosed₁, hclosed'⟩ := hclosed.append hpre.length
    have hS : S (start + as.length) t := by cases hrel; assumption
    have hagree := hclosed' 0 _ t rfl rfl hS
    obtain ⟨-, hclosed₂⟩ := @ClosedOn.append L T heap S _ [_] gs [t] bs rfl hclosed'
    obtain ⟨hnum₁, hback₁⟩ := hpre.trace S hclosed₁ hagree.pre
    obtain ⟨hnum₂, hback₂⟩ := hpost.trace S (by rwa [← Nat.add_assoc]) hagree.post
    refine ⟨?_, back_append.mpr ⟨hback₁, hback₂⟩⟩
    rw [← List.singleton_append, numbered_append, numbered_append]
    refine ⟨hnum₁, ?_, by rwa [← Nat.add_assoc] at hnum₂⟩
    intro k u hk
    rcases k with _ | k
    · cases hk; exact hS
    · simp at hk

/-- What `rd` reads where `w` wrote `x` and `v` looked for what comes up again. -/
def ReadsBack (heap : T → Shape L T) (w : List T → Option T → Option (List (Tok L) × List T))
    (v : List T → Option T → List (ℕ × T) × List T)
    (rd : Store L → List (Tok L) → Option (Option ℕ × Store L × List (Tok L))) : Prop :=
  ∀ (known known' : List T) (x : Option T) (ts rest : List (Tok L)) (base : ℕ) (nodes : List (Shape L ℕ)),
    w known x = some (ts, known') → base + known.length ≤ nodes.length →
    ∃ val fresh new, known' = known ++ new ∧ (v known x).2 = known' ∧
      rd ⟨base, nodes⟩ (ts ++ rest) = some (val, ⟨base, nodes ++ fresh⟩, rest) ∧
      Reads heap base nodes.length fresh new (v known x).1 fun Q => Option.Rel Q val x

theorem ReadsBack.all {w : List T → Option T → Option (List (Tok L) × List T)}
    {v : List T → Option T → List (ℕ × T) × List T}
    {rd : Store L → List (Tok L) → Option (Option ℕ × Store L × List (Tok L))}
    (h : ReadsBack heap w v rd) {xs : List (Option T)} {known known' : List T} {ts : List (Tok L)} {base : ℕ}
    (nodes : List (Shape L ℕ)) (rest : List (Tok L)) (hw : writeAll w known xs = some (ts, known'))
    (hbase : base + known.length ≤ nodes.length) :
    ∃ vals fresh new, known' = known ++ new ∧ (visitAll v known xs).2 = known' ∧
      readMany rd xs.length ⟨base, nodes⟩ (ts ++ rest) = some (vals, ⟨base, nodes ++ fresh⟩, rest) ∧
      Reads heap base nodes.length fresh new (visitAll v known xs).1 fun Q => List.Forall₂ (Option.Rel Q) vals xs := by
  induction xs generalizing known ts nodes with
  | nil =>
    cases hw
    exact ⟨[], [], [], (List.append_nil _).symm, rfl, by simp [readMany], Reads.nil fun Q => .nil⟩
  | cons x xs ih =>
    simp only [writeAll, Option.bind_eq_bind, Option.bind_eq_some_iff, Option.pure_def, Option.some.injEq, Prod.exists,
      Prod.mk.injEq] at hw
    obtain ⟨ts₁, known₁, hw₁, ts₂, known₂, hw₂, rfl, rfl⟩ := hw
    obtain ⟨val, fresh₁, new₁, rfl, hv₁, hread₁, hreads₁⟩ := h _ _ _ _ (ts₂ ++ rest) _ _ hw₁ hbase
    have hlen : (nodes ++ fresh₁).length = nodes.length + new₁.length := by rw [List.length_append, hreads₁.length]
    obtain ⟨vals, fresh₂, new₂, rfl, hv₂, hread₂, hreads₂⟩ :=
      ih (nodes ++ fresh₁) hw₂ (by rw [hlen, List.length_append]; omega)
    rw [hlen] at hreads₂
    refine ⟨val :: vals, fresh₁ ++ fresh₂, new₁ ++ new₂, List.append_assoc .., ?_, ?_, ?_⟩
    · rw [← hv₁] at hv₂
      simpa [visitAll, hv₁] using hv₂
    · simp [readMany, hread₁, hread₂]
    · have hagain : (visitAll v known (x :: xs)).1 = (v known x).1 ++ (visitAll v (known ++ new₁) xs).1 := by
        simp [visitAll, hv₁]
      rw [hagain]
      refine (hreads₁.append hreads₂).congr ?_
      intro Q
      exact List.forall₂_cons.symm

variable [DecidableEq T]

/-- **What is read where a thing was written.** -/
theorem read_write {d r : ℕ} (hdr : d ≤ r) : ReadsBack heap (write heap d) (visit heap d) (read r) := by
  induction d generalizing r with
  | zero => intro known known' x ts rest base nodes hw; simp [write] at hw
  | succ d ih =>
    obtain ⟨r, rfl⟩ : ∃ k, r = k + 1 := ⟨r - 1, by omega⟩
    intro known known' x ts rest base nodes hw hbase
    cases x with
    | none =>
      cases hw
      exact ⟨none, [], [], (List.append_nil _).symm, rfl, by simp [read], Reads.nil fun Q => .none⟩
    | some t =>
      by_cases ht : t ∈ known
      · simp only [write, if_pos ht, Option.some.injEq, Prod.mk.injEq] at hw
        obtain ⟨rfl, rfl⟩ := hw
        have hidx := List.idxOf_lt_length_of_mem ht
        refine ⟨some (base + known.idxOf t), [], [], (List.append_nil _).symm, by simp [visit, ht], ?_, ?_⟩
        · simp [read, show base + known.idxOf t < nodes.length from by omega]
        · simp only [visit, if_pos ht]
          refine ⟨rfl, ?_, ?_⟩
          · intro Q _ hback
            exact ⟨.some (hback _ (List.mem_singleton_self _)), .nil⟩
          · intro S _ hrel
            refine ⟨numbered_nil S _, ?_⟩
            intro p hp
            rw [List.mem_singleton] at hp
            subst hp
            cases hrel
            assumption
      · simp only [write, if_neg ht, Option.bind_eq_bind, Option.bind_eq_some_iff, Option.pure_def, Option.some.injEq,
          Prod.exists, Prod.mk.injEq] at hw
        obtain ⟨ts₁, known₁, hw₁, ts₂, known₂, hw₂, rfl, rfl⟩ := hw
        have hrb := ih (r := r) (by omega)
        obtain ⟨pre, fresh₁, new₁, rfl, hv₁, hread₁, hreads₁⟩ := hrb.all nodes (ts₂ ++ rest) hw₁ hbase
        have hlen : (nodes ++ fresh₁).length = nodes.length + new₁.length := by rw [List.length_append, hreads₁.length]
        have hbase₂ : base + (known ++ new₁ ++ [t]).length ≤
            (nodes ++ fresh₁ ++ [(⟨(heap t).label, pre, []⟩ : Shape L ℕ)]).length := by
          simp only [List.length_append, List.length_singleton] at hlen ⊢
          omega
        obtain ⟨post, fresh₂, new₂, rfl, hv₂, hread₂, hreads₂⟩ := hrb.all _ rest hw₂ hbase₂
        refine ⟨some (nodes.length + new₁.length), fresh₁ ++ ⟨(heap t).label, pre, post⟩ :: fresh₂, new₁ ++ t :: new₂, ?_, ?_,
          ?_, ?_⟩
        · simp
        · simpa [visit, ht, hv₁] using hv₂
        · have hset : (nodes ++ fresh₁ ++ [(⟨(heap t).label, pre, []⟩ : Shape L ℕ)] ++ fresh₂).set (nodes ++ fresh₁).length
              ⟨(heap t).label, pre, post⟩ = nodes ++ (fresh₁ ++ ⟨(heap t).label, pre, post⟩ :: fresh₂) := by
            rw [List.append_assoc (nodes ++ fresh₁), List.set_append_right _ _ (Nat.le_refl _)]
            simp
          rw [hlen] at hset
          rw [List.cons_append, List.append_assoc ts₁]
          simp only [read, hread₁, hread₂, Option.bind_eq_bind, Option.bind_some, Option.pure_def, hlen, hset]
        · have hagain : (visit heap (d + 1) known (some t)).1 =
              (visitAll (visit heap d) known (heap t).pre).1 ++
                (visitAll (visit heap d) (known ++ new₁ ++ [t]) (heap t).post).1 := by
            simp [visit, ht, hv₁]
          rw [hagain]
          refine Reads.node hreads₁ ?_
          rwa [List.length_append, hlen, List.length_singleton, Nat.add_assoc] at hreads₂

end ReadWrite

end DShuffle.Base.Handles
