import DShuffle.Serde.Contents

/-!
# A reader with another class resolver

The bytes that a process sends carry class ids, and the process that receives them
looks the ids up in a class resolver of its own. Its classes are the same, so every
class info of the sender has a peer at the receiver: the same signature, kind, sizes
and fields, though at another address, with other JNI ids and, as the case may be,
with another class id.

## The model

* `ClassInfo.Like` says what two class infos of one class share, and `Peers` that
  the receiver has a class info for every class of the sender.
* `Tree.peer` is a tree with the class infos of the receiver.

## What is proved

* `over_peer`, `matches_peer` — the tree at the receiver is well formed there, and what
  unfolds to it unfolds to the tree of the sender.
* `parse_of_agrees` — where the class ids of a tree agree, the receiver reads the
  stream of it as its own.
-/

namespace DShuffle.Serde

open Base ObjectReviver

/-! ### Class infos of one class -/

/-- The type and the place of a field. -/
def FieldInfo.slot (f : FieldInfo) : BasicType × ℕ := (f.type, f.offset)

/-- **What two class infos of one class share.** -/
structure ClassInfo.Like (i j : ClassInfo) : Prop where
  /-- The signature. -/
  signature : j.signature = i.signature
  /-- Whether it is an enum. -/
  isEnum : j.isEnum = i.isEnum
  /-- The dimension. -/
  dim : j.dim = i.dim
  /-- The size of an object. -/
  objSize : j.objSize = i.objSize
  /-- The size of its header. -/
  headerSize : j.headerSize = i.headerSize
  /-- The types and the places of the fields. -/
  fields : j.fields.map FieldInfo.slot = i.fields.map FieldInfo.slot
  /-- The ordinals of the constants. -/
  enums : ∀ n, (∃ c, j.getEnum n = .ok c) ↔ ∃ c, i.getEnum n = .ok c

/-- What fields of some types give depends on their types and places. -/
theorem map_filter_slot {β : Type} (p : BasicType → Bool) (g : BasicType × ℕ → β) (fs : List FieldInfo) :
    (fs.filter fun f => p f.type).map (fun f => g f.slot) = ((fs.map FieldInfo.slot).filter fun x => p x.1).map g := by
  rw [List.filter_map, List.map_map]
  rfl

namespace ClassInfo.Like

variable {i j : ClassInfo}

theorem map_filter_eq (h : i.Like j) {β : Type} (p : BasicType → Bool) (g : BasicType × ℕ → β) :
    (j.fields.filter fun f => p f.type).map (fun f => g f.slot) = (i.fields.filter fun f => p f.type).map fun f => g f.slot := by
  rw [map_filter_slot, map_filter_slot, h.fields]

theorem body (h : i.Like j) : j.objectBodySize = i.objectBodySize := by
  rw [ClassInfo.objectBodySize, ClassInfo.objectBodySize, h.objSize, h.headerSize]

theorem isObject (h : i.Like j) : j.isObject = i.isObject := by rw [ClassInfo.isObject, ClassInfo.isObject, h.dim]

theorem isArray (h : i.Like j) : j.isArray = i.isArray := by rw [ClassInfo.isArray, ClassInfo.isArray, h.dim]

theorem slots (h : i.Like j) : j.slots = i.slots := h.map_filter_eq BasicType.isReference Prod.snd

theorem length_refFields (h : i.Like j) : j.refFields.length = i.refFields.length := by
  have hmap := congrArg List.length (h.map_filter_eq BasicType.isReference Prod.snd)
  rwa [List.length_map, List.length_map] at hmap

theorem length_primFields (h : i.Like j) : j.primFields.length = i.primFields.length := by
  have hmap := congrArg List.length (h.map_filter_eq BasicType.isPrimitive Prod.snd)
  rwa [List.length_map, List.length_map] at hmap

/-- The primitive fields have the same values. -/
theorem primValues (h : i.Like j) (body : Bytes) :
    (primValues j.fields body).map Prod.snd = (primValues i.fields body).map Prod.snd := by
  rw [Serde.primValues, Serde.primValues, List.map_map, List.map_map]
  exact h.map_filter_eq BasicType.isPrimitive fun x => slice body x.2 x.1.size

/-- The elements of an array have the same type. -/
theorem elem (h : i.Like j) {f : FieldInfo} (hf : i.elem = .ok f) : ∃ g, j.elem = .ok g ∧ g.type = f.type := by
  have hfields := h.fields
  unfold ClassInfo.elem at hf ⊢
  cases hi : i.fields with
  | nil =>
    rw [hi] at hf
    cases hf
  | cons f' fs =>
    rw [hi] at hf hfields
    cases hf
    cases hj : j.fields with
    | nil =>
      rw [hj] at hfields
      cases hfields
    | cons g gs =>
      rw [hj, List.map_cons, List.map_cons] at hfields
      exact ⟨g, rfl, congrArg Prod.fst (List.cons.inj hfields).1⟩

theorem elemType (h : i.Like j) {f : FieldInfo} (hf : i.elem = .ok f) : j.elemType = i.elemType := by
  obtain ⟨g, hg, hty⟩ := h.elem hf
  rw [(ClassInfo.elem_ok hg).1, (ClassInfo.elem_ok hf).1, hty]

end ClassInfo.Like

/-! ### The other class resolver -/

namespace ClassResolver

/-- The class info that the resolver has for the class of `i`. -/
def peer (r : ClassResolver) (i : ClassInfo) : ClassInfo :=
  match r.getBySig i.signature with
  | .ok (some j) => j
  | _ => i

/-- **What registering leaves in a resolver**, beside what the serializer relies on. -/
structure Regular (r : ClassResolver) : Prop where
  /-- What the serializer relies on. -/
  wellFormed : r.WellFormed
  /-- Distinct classes have distinct signatures. -/
  apart : ∀ i j, r.Has i → r.Has j → i.signature = j.signature → i = j
  /-- An id finds the class that has it. -/
  idOf : ∀ id j, r.getById id = some j → j.id = id
  /-- The letter of its elements names an array of primitive values. -/
  letters : ∀ i f, r.Has i → i.isArray = true → i.elem = .ok f → f.type.isPrimitive = true →
    i.signature = sym "[" ++ [f.type.letter]

/-- The resolver `r₂` has the classes of `r₁`. -/
structure Peers (r₁ r₂ : ClassResolver) : Prop where
  /-- They are registered. -/
  has : ∀ i, r₁.Has i → r₂.Has (r₂.peer i)
  /-- They are the same classes. -/
  like : ∀ i, r₁.Has i → i.Like (r₂.peer i)

/-- The class that is found under the signature is the peer. -/
theorem Peers.eq_peer {r₁ r₂ : ClassResolver} (h : Peers r₁ r₂) (hr : r₂.Regular) {i j : ClassInfo} (hi : r₁.Has i)
    (hj : r₂.Has j) (hsig : j.signature = i.signature) : j = r₂.peer i := by
  refine hr.apart j _ hj (h.has i hi) ?_
  rw [hsig, (h.like i hi).signature]

/-- Distinct classes have distinct peers. -/
theorem Peers.peer_inj {r₁ r₂ : ClassResolver} (h : Peers r₁ r₂) (hr : r₁.Regular) {i i' : ClassInfo} (hi : r₁.Has i)
    (hi' : r₁.Has i') (heq : r₂.peer i = r₂.peer i') : i = i' := by
  refine hr.apart i i' hi hi' ?_
  rw [← (h.like i hi).signature, ← (h.like i' hi').signature, heq]

end ClassResolver

/-! ### The tree at the other side -/

mutual

/-- The tree, with the class infos of the resolver. -/
def Tree.peer (r : ClassResolver) : Tree → Tree
  | .null => .null
  | .enumConst i ordinal => .enumConst (r.peer i) ordinal
  | .object i body ms => .object (r.peer i) body (peerAll r ms)
  | .refArray i es => .refArray (r.peer i) (peerAll r es)
  | .primArray i n contents => .primArray (r.peer i) n contents

/-- The trees, with the class infos of the resolver. -/
def peerAll (r : ClassResolver) : List Tree → List Tree
  | [] => []
  | t :: ts => t.peer r :: peerAll r ts

end

section
variable {r₁ r₂ : ClassResolver}

theorem length_peerAll (ts : List Tree) : (peerAll r₂ ts).length = ts.length := by
  induction ts with
  | nil => rfl
  | cons t ts ih => rw [peerAll, List.length_cons, List.length_cons, ih]

mutual

theorem height_peer : ∀ t : Tree, (t.peer r₂).height = t.height
  | .null => rfl
  | .enumConst .. => rfl
  | .object i body ms => by rw [Tree.peer, Tree.height, Tree.height, heightAll_peer ms]
  | .refArray i es => by rw [Tree.peer, Tree.height, Tree.height, heightAll_peer es]
  | .primArray .. => rfl

theorem heightAll_peer : ∀ ts : List Tree, heightAll (peerAll r₂ ts) = heightAll ts
  | [] => rfl
  | t :: ts => by rw [peerAll, heightAll, heightAll, height_peer t, heightAll_peer ts]

end

mutual

theorem infos_peer : ∀ t : Tree, (t.peer r₂).infos = t.infos.map r₂.peer
  | .null => rfl
  | .enumConst .. => rfl
  | .object i body ms => by rw [Tree.peer, Tree.infos, Tree.infos, List.map_cons, infosAll_peer ms]
  | .refArray i es => by rw [Tree.peer, Tree.infos, Tree.infos, List.map_cons, infosAll_peer es]
  | .primArray .. => rfl

theorem infosAll_peer : ∀ ts : List Tree, infosAll (peerAll r₂ ts) = (infosAll ts).map r₂.peer
  | [] => rfl
  | t :: ts => by rw [peerAll, infosAll, infosAll, List.map_append, infos_peer t, infosAll_peer ts]

end

mutual

theorem enumConsts_peer : ∀ t : Tree, (t.peer r₂).enumConsts = t.enumConsts.map (Prod.map r₂.peer id)
  | .null => rfl
  | .enumConst .. => rfl
  | .object i body ms => by rw [Tree.peer, Tree.enumConsts, Tree.enumConsts, enumConstsAll_peer ms]
  | .refArray i es => by rw [Tree.peer, Tree.enumConsts, Tree.enumConsts, enumConstsAll_peer es]
  | .primArray .. => rfl

theorem enumConstsAll_peer : ∀ ts : List Tree, enumConstsAll (peerAll r₂ ts) = (enumConstsAll ts).map (Prod.map r₂.peer id)
  | [] => rfl
  | t :: ts => by rw [peerAll, enumConstsAll, enumConstsAll, List.map_append, enumConsts_peer t, enumConstsAll_peer ts]

end

/-- A constant occurs twice at one side when it does at the other. -/
theorem nodup_enumConsts_peer (hp : r₁.Peers r₂) (hr : r₁.Regular) {t : Tree} (ho : t.Over r₁) :
    (t.peer r₂).enumConsts.Nodup ↔ t.enumConsts.Nodup := by
  rw [enumConsts_peer]
  refine ⟨List.Nodup.of_map _, List.Nodup.map_on fun p hpm q hqm hpq => ?_⟩
  obtain ⟨h₁, h₂⟩ := Prod.mk.inj hpq
  exact Prod.ext (hp.peer_inj hr (has_of_mem_enumConsts t ho p hpm).1 (has_of_mem_enumConsts t ho q hqm).1 h₁) h₂

mutual

/-- **The tree is well formed at the other side.** -/
theorem over_peer (hp : r₁.Peers r₂) : ∀ t : Tree, t.Over r₁ → (t.peer r₂).Over r₂
  | .null, _ => trivial
  | .enumConst i ordinal, ⟨hi, he, hord, hc⟩ => by
    have hl := hp.like i hi
    exact ⟨hp.has i hi, hl.isEnum.trans he, hord, (hl.enums ordinal).mpr hc⟩
  | .object i body ms, ⟨hi, he, ho, hb, hm, hlen, hall⟩ => by
    have hl := hp.like i hi
    refine ⟨hp.has i hi, hl.isEnum.trans he, hl.isObject.trans ho, hb.trans hl.body.symm, ?_, ?_, overAll_peer hp ms hall⟩
    · rw [hl.slots]
      exact hm
    · rw [length_peerAll, hlen, hl.length_refFields]
  | .refArray i es, ⟨hi, he, ha, ⟨f, hf, href⟩, hlen, hall⟩ => by
    have hl := hp.like i hi
    obtain ⟨g, hg, hty⟩ := hl.elem hf
    refine ⟨hp.has i hi, hl.isEnum.trans he, hl.isArray.trans ha, ⟨g, hg, ?_⟩, ?_, overAll_peer hp es hall⟩
    · rw [hty]
      exact href
    · rw [length_peerAll]
      exact hlen
  | .primArray i n contents, ⟨hi, he, ha, ⟨f, hf, hprim, hlen⟩, hn⟩ => by
    have hl := hp.like i hi
    obtain ⟨g, hg, hty⟩ := hl.elem hf
    refine ⟨hp.has i hi, hl.isEnum.trans he, hl.isArray.trans ha, ⟨g, hg, ?_, ?_⟩, hn⟩
    · rw [hty]
      exact hprim
    · rw [hty]
      exact hlen

theorem overAll_peer (hp : r₁.Peers r₂) : ∀ ts : List Tree, OverAll r₁ ts → OverAll r₂ (peerAll r₂ ts)
  | [], _ => trivial
  | t :: ts, h => ⟨over_peer hp t h.1, overAll_peer hp ts h.2⟩

end

mutual

/-- What unfolds to the tree of one side unfolds to the tree of the other. -/
theorem matches_peer (hp : r₁.Peers r₂) {r : ClassResolver} : ∀ (t : Tree) {x : Value}, t.Over r₁ →
    (Matches r x (t.peer r₂) ↔ Matches r x t)
  | .null, _, _ => Iff.rfl
  | .enumConst i ordinal, x, ho => by
    rw [Tree.peer, Matches, Matches, (hp.like i ho.1).signature]
  | .object i body ms, x, ho => by
    have hl := hp.like i ho.1
    simp only [Tree.peer, Matches, hl.signature, hl.length_primFields, primsAs, hl.primValues,
      matchesAll_peer hp ms ho.2.2.2.2.2.2]
  | .refArray i es, x, ho => by
    have hl := hp.like i ho.1
    simp only [Tree.peer, Matches, hl.signature, matchesAll_peer hp es ho.2.2.2.2.2]
  | .primArray i n contents, x, ho => by
    obtain ⟨hi, -, -, ⟨f, hf, -⟩, -⟩ := ho
    rw [Tree.peer, Matches, Matches, (hp.like i hi).elemType hf]

theorem matchesAll_peer (hp : r₁.Peers r₂) {r : ClassResolver} : ∀ (ts : List Tree) {xs : List Value}, OverAll r₁ ts →
    (MatchesAll r xs (peerAll r₂ ts) ↔ MatchesAll r xs ts)
  | [], _, _ => Iff.rfl
  | t :: ts, xs, ho => by
    simp only [peerAll, MatchesAll, matches_peer hp t ho.1, matchesAll_peer hp ts ho.2]

end

mutual

theorem holds_peer : ∀ (t : Tree) {x : Value}, Holds x (t.peer r₂) ↔ Holds x t
  | .null, _ => Iff.rfl
  | .enumConst .., _ => Iff.rfl
  | .object i body ms, x => by simp only [Tree.peer, Holds, holdsAll_peer ms]
  | .refArray i es, x => by simp only [Tree.peer, Holds, holdsAll_peer es]
  | .primArray .., _ => Iff.rfl

theorem holdsAll_peer : ∀ (ts : List Tree) {xs : List Value}, HoldsAll xs (peerAll r₂ ts) ↔ HoldsAll xs ts
  | [], _ => Iff.rfl
  | t :: ts, xs => by simp only [peerAll, HoldsAll, holds_peer t, holdsAll_peer ts]

end

mutual

theorem intact_peer (hp : r₁.Peers r₂) {o : Options} : ∀ t : Tree, t.Over r₁ → ((t.peer r₂).Intact o ↔ t.Intact o)
  | .null, _ => Iff.rfl
  | .enumConst .., _ => Iff.rfl
  | .object i body ms, ho => intactAll_peer hp ms ho.2.2.2.2.2.2
  | .refArray i es, ho => intactAll_peer hp es ho.2.2.2.2.2
  | .primArray i n contents, ho => by
    obtain ⟨hi, -, -, ⟨f, hf, -⟩, -⟩ := ho
    rw [Tree.peer, Tree.Intact, Tree.Intact, (hp.like i hi).elemType hf]

theorem intactAll_peer (hp : r₁.Peers r₂) {o : Options} : ∀ ts : List Tree, OverAll r₁ ts →
    (IntactAll o (peerAll r₂ ts) ↔ IntactAll o ts)
  | [], _ => Iff.rfl
  | t :: ts, ho => and_congr (intact_peer hp t ho.1) (intactAll_peer hp ts ho.2)

end

mutual

theorem short_peer (hp : r₁.Peers r₂) : ∀ t : Tree, t.Over r₁ → t.Short → (t.peer r₂).Short
  | .null, _, _ => trivial
  | .enumConst .., _, _ => trivial
  | .object i body ms, ho, h => shortAll_peer hp ms ho.2.2.2.2.2.2 h
  | .refArray i es, ho, h => shortAll_peer hp es ho.2.2.2.2.2 h
  | .primArray i n contents, ho, h => by
    obtain ⟨hi, -, -, ⟨f, hf, -⟩, -⟩ := ho
    rw [Tree.peer, Tree.Short, (hp.like i hi).elemType hf]
    exact h

theorem shortAll_peer (hp : r₁.Peers r₂) : ∀ ts : List Tree, OverAll r₁ ts → ShortAll ts → ShortAll (peerAll r₂ ts)
  | [], _, _ => trivial
  | t :: ts, ho, h => ⟨short_peer hp t ho.1 h.1, shortAll_peer hp ts ho.2 h.2⟩

end

/-! ### Where the ids agree -/

/-- Every class of the tree has one id at both sides. -/
def Tree.Agrees (r : ClassResolver) (t : Tree) : Prop := ∀ i ∈ t.infos, (r.peer i).id = i.id

/-- Every class of the trees has one id at both sides. -/
def AgreesAll (r : ClassResolver) (ts : List Tree) : Prop := ∀ i ∈ infosAll ts, (r.peer i).id = i.id

theorem AgreesAll.head {r : ClassResolver} {t : Tree} {ts : List Tree} (h : AgreesAll r (t :: ts)) : t.Agrees r := by
  intro i hi
  exact h i (by rw [infosAll]; exact List.mem_append_left _ hi)

theorem AgreesAll.tail {r : ClassResolver} {t : Tree} {ts : List Tree} (h : AgreesAll r (t :: ts)) : AgreesAll r ts := by
  intro i hi
  exact h i (by rw [infosAll]; exact List.mem_append_right _ hi)

theorem AgreesAll.cons {r : ClassResolver} {t : Tree} {ts : List Tree} (ht : t.Agrees r) (hts : AgreesAll r ts) :
    AgreesAll r (t :: ts) := by
  intro i hi
  rw [infosAll] at hi
  rcases List.mem_append.mp hi with hi | hi
  · exact ht i hi
  · exact hts i hi

section
variable {o : Options} {u : Simdutf} {m : Mem}

mutual

/-- The streams of the tree end at one place at both sides. -/
theorem endOff_peer (hp : r₁.Peers r₂) : ∀ (t : Tree) (off : ℕ), t.Over r₁ → endOff o u off (t.peer r₂) = endOff o u off t
  | .null, _, _ => rfl
  | .enumConst .., _, _ => rfl
  | .object i body ms, off, ho => by rw [Tree.peer, endOff, endOff, endAll_peer hp ms _ ho.2.2.2.2.2.2]
  | .refArray i es, off, ho => by rw [Tree.peer, endOff, endOff, endAll_peer hp es _ ho.2.2.2.2.2]
  | .primArray i n contents, off, ho => by
    obtain ⟨hi, -, -, ⟨f, hf, -⟩, -⟩ := ho
    rw [Tree.peer, endOff, endOff, (hp.like i hi).elemType hf]

theorem endAll_peer (hp : r₁.Peers r₂) : ∀ (ts : List Tree) (off : ℕ), OverAll r₁ ts →
    endAll o u off (peerAll r₂ ts) = endAll o u off ts
  | [], _, _ => rfl
  | t :: ts, off, ho => by rw [peerAll, endAll, endAll, endOff_peer hp t off ho.1, endAll_peer hp ts _ ho.2]

end

mutual

/-- **A stream of the tree is one of the tree at the other side**, where the ids agree. -/
theorem stream_peer (hp : r₁.Peers r₂) : ∀ (t : Tree) {off : ℕ}, t.Over r₁ → t.Agrees r₂ → Stream o u m off t →
    Stream o u m off (t.peer r₂)
  | .null, _, _, _, hs => hs
  | .enumConst i ordinal, off, ho, ha, hs => by
    rw [Tree.peer, Stream, ha i (List.mem_singleton_self i)]
    exact hs
  | .object i body ms, off, ho, ha, hs => by
    rw [Tree.peer, Stream, ha i (List.mem_cons_self ..), (hp.like i ho.1).slots]
    exact ⟨hs.1, hs.2.1, streamAll_peer hp ms ho.2.2.2.2.2.2 (fun j hj => ha j (List.mem_cons_of_mem _ hj)) hs.2.2⟩
  | .refArray i es, off, ho, ha, hs => by
    rw [Tree.peer, Stream, ha i (List.mem_cons_self ..), length_peerAll]
    exact ⟨hs.1, streamAll_peer hp es ho.2.2.2.2.2 (fun j hj => ha j (List.mem_cons_of_mem _ hj)) hs.2⟩
  | .primArray i n contents, off, ho, ha, hs => by
    obtain ⟨hi, -, -, ⟨f, hf, -⟩, -⟩ := ho
    rw [Tree.peer, Stream, ha i (List.mem_singleton_self i), (hp.like i hi).elemType hf]
    exact hs

theorem streamAll_peer (hp : r₁.Peers r₂) : ∀ (ts : List Tree) {off : ℕ}, OverAll r₁ ts → AgreesAll r₂ ts →
    StreamAll o u m off ts → StreamAll o u m off (peerAll r₂ ts)
  | [], _, _, _, _ => trivial
  | t :: ts, off, ho, ha, hs => by
    rw [peerAll, StreamAll, endOff_peer hp t off ho.1]
    exact ⟨stream_peer hp t ho.1 ha.head hs.1, streamAll_peer hp ts ho.2 ha.tail hs.2⟩

end

end

/-- The instance classes of the tree are laid out at the other side. -/
def Tree.LaidAt (r : ClassResolver) (t : Tree) : Prop :=
  ∀ i ∈ t.infos, i.isEnum = false → i.isObject = true → (r.peer i).Laid

/-- `rec` does on every stream of the tree what `rebuild` does on the tree at the other side. -/
def ObjectReviver.ReadsAs (v : ObjectReviver) (rec : Parse) (t : Tree) : Prop :=
  ∀ m off eid e, Stream v.o v.simdutf m off t → rec eid (stateAt m off e) =
    (v.rebuild (reread v.o v.simdutf m off (t.peer v.r)) e).map fun x => (x.1, stateAt m (endOff v.o v.simdutf off t) x.2)

/-- **The receiver reads the stream as its own**, where the ids agree. -/
theorem parse_of_agrees {v : ObjectReviver} (hp : r₁.Peers v.r) (hr : v.r.Regular) {fuel : ℕ} {t : Tree} (ho : t.Over r₁)
    (hl : t.LaidAt v.r) (hf : t.height < fuel) (ha : t.Agrees v.r) : v.ReadsAs (v.parse fuel) t := by
  intro m off eid e hs
  have hlaid : (t.peer v.r).Laid := by
    intro j hj
    rw [infos_peer] at hj
    obtain ⟨i, hi, rfl⟩ := List.mem_map.mp hj
    have hlike := hp.like i (has_of_mem_infos t ho i hi)
    rw [hlike.isEnum, hlike.isObject]
    exact hl i hi
  rw [parse_eq_rebuild hr.wellFormed hlaid (by rw [height_peer]; exact hf) (over_peer hp t ho) m off eid e
    (stream_peer hp t ho ha hs), endOff_peer hp t off ho]

end

end DShuffle.Serde
