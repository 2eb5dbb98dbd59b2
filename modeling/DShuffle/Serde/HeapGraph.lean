import DShuffle.Base.Slots
import DShuffle.Serde.ClassResolver
import DShuffle.Serde.Heap

/-!
# Object trees

The serializer has no table of visited objects, so what it writes for an object
is what it would write for the tree that the object's graph unfolds to. This
module defines the trees and says when an address unfolds to one.

A node carries the class info that the resolver has for its class. The body of
an object is kept with its reference slots masked, so that a tree holds no
address; the members are the unfoldings of its reference fields, in the order of
the fields.

## Honest scope

The graph is the one that `FakeObject` reads: `array_elem_ref` has 32-bit
offsets, so the elements of an array of more than 2^30 - 4 references are, here
as there, what it finds at the offsets cut to 32 bits. A finite acyclic graph of
registered objects unfolds to exactly one tree; a cycle unfolds to none.
-/

namespace DShuffle.Serde

open Base

/-- The offsets of the reference slots in the body of an object. -/
def ClassInfo.slots (i : ClassInfo) : List ℕ := i.refFields.map (·.offset)

/-- What an object graph unfolds to. -/
inductive Tree where
  /-- The null reference. -/
  | null
  /-- An enum constant. -/
  | enumConst (info : ClassInfo) (ordinal : ℕ)
  /-- An object: its body with the reference slots masked, and its members. -/
  | object (info : ClassInfo) (body : Bytes) (members : List Tree)
  /-- An array of references. -/
  | refArray (info : ClassInfo) (elems : List Tree)
  /-- An array of primitive values: its length, and all the bytes of its elements. -/
  | primArray (info : ClassInfo) (length : ℕ) (contents : Bytes)

namespace Heap

/-- The class info of the object at `a`. -/
def classOf (h : Heap) (r : ClassResolver) (a : ℕ) : Option ClassInfo :=
  match h.klassPointer a with
  | .ok k => r.getByKlass k
  | .error _ => none

/-- `reference_at(offset)` of the object at `a`. -/
def referenceAt (h : Heap) (a offset : ℕ) : Except Fault ℕ := h.args.parseHeapCptr (ofLe (h.raw a offset 4))

end Heap

namespace ClassInfo.Slotted

variable {i : ClassInfo}

theorem slots_inside (hs : i.Slotted) : ∀ k ∈ i.slots, k + 4 ≤ i.objectBodySize := by
  intro k hk
  obtain ⟨f, hf, rfl⟩ := List.mem_map.mp hk
  obtain ⟨hf₁, hf₂⟩ := List.mem_filter.mp hf
  exact hs.inside f hf₁ hf₂

/-- The body of an object, its references masked, has the size of the body. -/
theorem length_body (hs : i.Slotted) (h : Heap) (a : ℕ) :
    (maskSlots 4 i.slots (h.raw a i.headerSize i.objectBodySize)).length = i.objectBodySize := by
  have hin : ∀ k ∈ i.slots, k + 4 ≤ (h.raw a i.headerSize i.objectBodySize).length := by
    rw [Heap.length_raw]
    exact hs.slots_inside
  rw [length_maskSlots hin, Heap.length_raw]

end ClassInfo.Slotted

/-! ### Unfolding -/

mutual

/-- The object at address `a` unfolds to the tree. -/
def Unfolds (h : Heap) (r : ClassResolver) (a : ℕ) : Tree → Prop
  | .null => a = 0
  | .enumConst i ordinal =>
    a ≠ 0 ∧ h.classOf r a = some i ∧ i.isEnum = true ∧ ordinal = h.enumOrdinal a ∧ ∃ e, i.getEnum ordinal = .ok e
  | .object i body ms =>
    a ≠ 0 ∧ h.classOf r a = some i ∧ i.isEnum = false ∧ i.isObject = true ∧
      body = maskSlots 4 i.slots (h.raw a i.headerSize i.objectBodySize) ∧
      UnfoldsAll h r (i.refFields.map fun f => h.referenceAt a (i.headerSize + f.offset)) ms
  | .refArray i es =>
    a ≠ 0 ∧ h.classOf r a = some i ∧ i.isEnum = false ∧ i.isArray = true ∧
      (∃ f, i.elem = .ok f ∧ f.type.isReference = true) ∧ h.arrayLength a i.headerSize < 2 ^ 31 ∧
      UnfoldsAll h r ((List.range (h.arrayLength a i.headerSize)).map (h.arrayElemRef a i.headerSize)) es
  | .primArray i n contents =>
    a ≠ 0 ∧ h.classOf r a = some i ∧ i.isEnum = false ∧ i.isArray = true ∧ n < 2 ^ 31 ∧
      n = h.arrayLength a i.headerSize ∧
      ∃ f, i.elem = .ok f ∧ f.type.isPrimitive = true ∧ contents = h.raw a i.headerSize (n * f.type.size)

/-- The references, one by one, unfold to the trees. -/
def UnfoldsAll (h : Heap) (r : ClassResolver) : List (Except Fault ℕ) → List Tree → Prop
  | refs, [] => refs = []
  | refs, t :: ts => ∃ a refs', refs = .ok a :: refs' ∧ Unfolds h r a t ∧ UnfoldsAll h r refs' ts

end

theorem UnfoldsAll.length_eq {h : Heap} {r : ClassResolver} {refs : List (Except Fault ℕ)} {ts : List Tree}
    (hu : UnfoldsAll h r refs ts) : refs.length = ts.length := by
  induction ts generalizing refs with
  | nil =>
    simp only [UnfoldsAll] at hu
    rw [hu]
    rfl
  | cons t ts ih =>
    simp only [UnfoldsAll] at hu
    obtain ⟨a, refs', rfl, -, hts⟩ := hu
    rw [List.length_cons, List.length_cons, ih hts]

mutual

/-- Every object of the graph at `a`, which unfolds to the tree, lies at an address with the property. -/
def AllAt (P : ℕ → Prop) (h : Heap) (a : ℕ) : Tree → Prop
  | .null => True
  | .enumConst .. => P a
  | .object i _ ms => P a ∧ AllAtAll P h (i.refFields.map fun f => h.referenceAt a (i.headerSize + f.offset)) ms
  | .refArray i es =>
    P a ∧ AllAtAll P h ((List.range (h.arrayLength a i.headerSize)).map (h.arrayElemRef a i.headerSize)) es
  | .primArray .. => P a

/-- Every object of the graphs at the references lies at an address with the property. -/
def AllAtAll (P : ℕ → Prop) (h : Heap) : List (Except Fault ℕ) → List Tree → Prop
  | _, [] => True
  | refs, t :: ts => ∀ a refs', refs = .ok a :: refs' → AllAt P h a t ∧ AllAtAll P h refs' ts

end

/-! ### Height -/

mutual

/-- The height of a tree: how deep the recursion over it goes. -/
def Tree.height : Tree → ℕ
  | .null => 0
  | .enumConst .. => 0
  | .object _ _ ms => heightAll ms + 1
  | .refArray _ es => heightAll es + 1
  | .primArray .. => 0

/-- The greatest height of the trees. -/
def heightAll : List Tree → ℕ
  | [] => 0
  | t :: ts => max t.height (heightAll ts)

end

theorem height_le_heightAll {t : Tree} {ts : List Tree} (h : t ∈ ts) : t.height ≤ heightAll ts := by
  induction ts with
  | nil => cases h
  | cons u us ih =>
    rw [heightAll]
    rcases List.mem_cons.mp h with rfl | h
    · exact Nat.le_max_left ..
    · exact (ih h).trans (Nat.le_max_right ..)

/-! ### The classes of a tree -/

mutual

/-- The class infos of the nodes of a tree. -/
def Tree.infos : Tree → List ClassInfo
  | .null => []
  | .enumConst i _ => [i]
  | .object i _ ms => i :: infosAll ms
  | .refArray i es => i :: infosAll es
  | .primArray i _ _ => [i]

/-- The class infos of the nodes of the trees. -/
def infosAll : List Tree → List ClassInfo
  | [] => []
  | t :: ts => t.infos ++ infosAll ts

end

theorem mem_infosAll {t : Tree} {ts : List Tree} {i : ClassInfo} (ht : t ∈ ts) (hi : i ∈ t.infos) : i ∈ infosAll ts := by
  induction ts with
  | nil => cases ht
  | cons u us ih =>
    rw [infosAll]
    rcases List.mem_cons.mp ht with rfl | ht
    · exact List.mem_append_left _ hi
    · exact List.mem_append_right _ (ih ht)

namespace Tree

variable {i j : ClassInfo} {t : Tree} {ts : List Tree}

theorem mem_infos_object {body : Bytes} (ht : t ∈ ts) (hj : j ∈ t.infos) : j ∈ (Tree.object i body ts).infos :=
  List.mem_cons_of_mem _ (mem_infosAll ht hj)

theorem mem_infos_refArray (ht : t ∈ ts) (hj : j ∈ t.infos) : j ∈ (Tree.refArray i ts).infos :=
  List.mem_cons_of_mem _ (mem_infosAll ht hj)

/-- The objects of the tree are of classes laid out as `ClassInfo.Laid` says. -/
def Laid (t : Tree) : Prop :=
  ∀ i ∈ t.infos, i.isEnum = false → i.isObject = true → i.Laid

theorem Laid.members {body : Bytes} (h : (Tree.object i body ts).Laid) : ∀ t ∈ ts, t.Laid :=
  fun _ ht j hj => h j (mem_infos_object ht hj)

theorem Laid.elements (h : (Tree.refArray i ts).Laid) : ∀ t ∈ ts, t.Laid :=
  fun _ ht j hj => h j (mem_infos_refArray ht hj)

end Tree

end DShuffle.Serde
