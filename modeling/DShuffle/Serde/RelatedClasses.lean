import Mathlib.Data.Finset.Card
import Mathlib.Data.Set.Finite.Lattice
import Mathlib.Order.Bounds.Defs

/-!
# The classes related to a type

`RelatedClassCollector` collects the classes that a Java program has to register
before its objects are serialized: the class of the root, and, from class to class,
what the fields, the components of arrays and the type arguments mention. An
interface is replaced by what `InterfaceTypeMapping` has for it.

## The model

* A type is a class, a parameterized type, or one of the others, which are refused.
* What reflection says about a class is a parameter, with the laws of the language
  that the code relies on: an interface has no fields but static ones.
* `do_collect` gets fuel, one for each call inside another.

## What is proved

* `InterfaceTypeMapping.find_add` — a lookup finds what was added last for an equal type.
* `collects` — every call ends, and adds what its type stands for, and what the
  classes it adds stand for.
* `collect_least` — for every graph of types that is finite, `collect` ends with the least
  set that is closed.

## Honest scope

A hash map is a list of its entries: equal types have equal names, so that hash codes
only narrow the search. That `collect` runs the initializers of enums, which may fail,
and that a deep graph may exhaust the stack, are left out.
-/

namespace DShuffle.Serde.Related

variable {C : Type}

/-- `java.lang.reflect.Type`, over the classes `C`. -/
inductive JavaType (C : Type) where
  /-- `Class<?>`. -/
  | cls (c : C)
  /-- `ParameterizedType`. -/
  | parameterized (owner : Option (JavaType C)) (rawType : C) (args : List (JavaType C))
  /-- A type variable, a wildcard or a generic array. -/
  | other (name : String)

namespace JavaType

/-- Induction over the type arguments. -/
theorem induct {motive : JavaType C → Prop} (cls : ∀ c, motive (.cls c))
    (parameterized : ∀ owner rawType args, (∀ a ∈ args, motive a) → motive (.parameterized owner rawType args))
    (other : ∀ name, motive (.other name)) : ∀ t, motive t
  | .cls c => cls c
  | .parameterized owner rawType args =>
    parameterized owner rawType args fun a _ => induct cls parameterized other a
  | .other name => other name

mutual
/-- `Type.equals`. -/
def decEq [DecidableEq C] : (s t : JavaType C) → Decidable (s = t)
  | .cls c, .cls d => decidable_of_iff (c = d) (by simp)
  | .parameterized o r as, .parameterized p q bs =>
    have := ownerDecEq o p
    have := argsDecEq as bs
    decidable_of_iff (o = p ∧ r = q ∧ as = bs) (by simp)
  | .other m, .other n => decidable_of_iff (m = n) (by simp)
  | .cls _, .parameterized .. => isFalse (by simp)
  | .cls _, .other _ => isFalse (by simp)
  | .parameterized .., .cls _ => isFalse (by simp)
  | .parameterized .., .other _ => isFalse (by simp)
  | .other _, .cls _ => isFalse (by simp)
  | .other _, .parameterized .. => isFalse (by simp)

/-- `Objects.equals` of the owners. -/
def ownerDecEq [DecidableEq C] : (s t : Option (JavaType C)) → Decidable (s = t)
  | none, none => isTrue rfl
  | some s, some t =>
    have := decEq s t
    decidable_of_iff (s = t) (by simp)
  | none, some _ => isFalse (by simp)
  | some _, none => isFalse (by simp)

/-- `Arrays.equals` of the arguments. -/
def argsDecEq [DecidableEq C] : (s t : List (JavaType C)) → Decidable (s = t)
  | [], [] => isTrue rfl
  | a :: as, b :: bs =>
    have := decEq a b
    have := argsDecEq as bs
    decidable_of_iff (a = b ∧ as = bs) (by simp)
  | [], _ :: _ => isFalse (by simp)
  | _ :: _, [] => isFalse (by simp)
end

instance [DecidableEq C] : DecidableEq (JavaType C) := decEq

/-- The class of a type. -/
def rawClass : JavaType C → Option C
  | .cls c => some c
  | .parameterized _ c _ => some c
  | .other _ => none

/-- The type is built from classes, at the top. -/
def IsSupported (t : JavaType C) : Prop := t.rawClass ≠ none

end JavaType

/-- A declared field. -/
structure Field (C : Type) where
  /-- `Modifier.isStatic(f.getModifiers())`. -/
  isStatic : Bool
  /-- `getGenericType()`. -/
  genericType : JavaType C

/-- What reflection says about a class. -/
structure JavaClass (C : Type) where
  /-- `isInterface()`. -/
  isInterface : Bool
  /-- `isPrimitive()`. -/
  isPrimitive : Bool
  /-- `getDeclaredFields()`. -/
  declaredFields : List (Field C)
  /-- `getComponentType()`; only an array has one. -/
  componentType : Option C

/-- The types of the fields that are not static. -/
def JavaClass.fieldTypes (c : JavaClass C) : List (JavaType C) :=
  (c.declaredFields.filter fun f => !f.isStatic).map Field.genericType

/-- The types that a class is made of. -/
def JavaClass.members (c : JavaClass C) : List (JavaType C) :=
  c.fieldTypes ++ c.componentType.toList.map JavaType.cls

/-- The classes of a program. -/
structure Classes (C : Type) where
  /-- Each of them. -/
  info : C → JavaClass C
  /-- The fields of an interface are static, and an interface is no array. -/
  members_interface : ∀ c, (info c).isInterface = true → (info c).members = []
  /-- An interface is not primitive. -/
  interface_not_primitive : ∀ c, (info c).isInterface = true → (info c).isPrimitive = false

/-! ### The mapping -/

section
variable [DecidableEq C]

/-- `TypeTraits.equals`, on the types of the traits. -/
def typeTraitsEquals (a b : JavaType C) : Bool :=
  match a with
  | .cls _ => a = b
  | .parameterized owner rawType args =>
    match b with
    | .parameterized owner' rawType' args' => decide (owner = owner') && decide (rawType = rawType') && decide (args = args')
    | _ => false
  -- only the same object is equal to it
  | .other _ => a = b

theorem typeTraitsEquals_iff (a b : JavaType C) : typeTraitsEquals a b = true ↔ a = b := by
  cases a with
  | cls c => simp [typeTraitsEquals]
  | parameterized owner rawType args =>
    cases b with
    | cls d => simp [typeTraitsEquals]
    | parameterized owner' rawType' args' => simp [typeTraitsEquals, and_assoc]
    | other name => simp [typeTraitsEquals]
  | other name => simp [typeTraitsEquals]

end

/-- `InterfaceTypeMapping`. -/
structure InterfaceTypeMapping (C : Type) where
  /-- The entries of `m`. -/
  m : List (JavaType C × JavaType C)

namespace InterfaceTypeMapping
variable [DecidableEq C]

/-- `find`. -/
def find (m : InterfaceTypeMapping C) (i : JavaType C) : Option (JavaType C) :=
  (m.m.find? fun e => typeTraitsEquals i e.1).map Prod.snd

/-- `add`: an entry with an equal key gets the new value. -/
def add (m : InterfaceTypeMapping C) (i o : JavaType C) : InterfaceTypeMapping C :=
  if m.m.any fun e => typeTraitsEquals i e.1 then
    ⟨m.m.map fun e => if typeTraitsEquals i e.1 then (e.1, o) else e⟩
  else ⟨m.m ++ [(i, o)]⟩

/-- An entry whose value was replaced. -/
theorem find_replaced (i o t : JavaType C) (es : List (JavaType C × JavaType C)) :
    find ⟨es.map fun e => if typeTraitsEquals i e.1 then (e.1, o) else e⟩ t =
      if t = i ∧ (es.any fun e => typeTraitsEquals i e.1) then some o else find ⟨es⟩ t := by
  induction es with
  | nil => simp [find]
  | cons e es ih =>
    unfold find at ih ⊢
    by_cases hit : i = e.1
    · by_cases hte : t = e.1
      · simp [typeTraitsEquals_iff, hit, hte]
      · have hne : typeTraitsEquals t e.1 = false := Bool.eq_false_iff.mpr fun h => hte ((typeTraitsEquals_iff t e.1).mp h)
        have hti : t ≠ i := hit ▸ hte
        simp only [List.map_cons, List.find?_cons, hne, hti, false_and, if_false] at ih ⊢
        split_ifs <;> simp only [hne, ih]
    · have hne : typeTraitsEquals i e.1 = false := Bool.eq_false_iff.mpr fun h => hit ((typeTraitsEquals_iff i e.1).mp h)
      simp only [List.map_cons, hne, Bool.false_eq_true, if_false, List.find?_cons, List.any_cons, Bool.false_or]
      by_cases hte : typeTraitsEquals t e.1 = true
      · have hti : t ≠ i := fun h => hit (h ▸ (typeTraitsEquals_iff t e.1).mp hte)
        simp [hte, hti]
      · simpa [hte] using ih

/-- **A lookup finds what was added last** for an equal type, and else what it found before. -/
theorem find_add (m : InterfaceTypeMapping C) (i o t : JavaType C) :
    (m.add i o).find t = if t = i then some o else m.find t := by
  obtain ⟨entries⟩ := m
  unfold add
  split_ifs with hold hti hti
  · rw [find_replaced, if_pos ⟨hti, hold⟩]
  · rw [find_replaced, if_neg fun h => hti h.1]
  · have hnone : entries.find? (fun e => typeTraitsEquals t e.1) = none := by
      rw [List.find?_eq_none]
      intro e he heq
      exact hold (List.any_eq_true.mpr ⟨e, he, hti ▸ heq⟩)
    have hself : typeTraitsEquals t i = true := (typeTraitsEquals_iff t i).mpr hti
    simp [find, List.find?_append, hnone, hself]
  · have hne : typeTraitsEquals t i = false := Bool.eq_false_iff.mpr fun h => hti ((typeTraitsEquals_iff t i).mp h)
    simp [find, List.find?_append, hne]

end InterfaceTypeMapping

/-! ### The collector -/

/-- Why `do_collect` throws. -/
inductive JavaError where
  /-- `IllegalArgumentException("need mapping")`. -/
  | needMapping
  /-- `IllegalArgumentException("unsupported")`. -/
  | unsupported
  /-- `find` returned null. -/
  | nullPointer
  deriving DecidableEq

/-- The set after a call, or the exception; `none` if it ran out of fuel. -/
abbrev Collected (C : Type) := Option (Except JavaError (Finset C))

/-- A call for each type in turn. -/
def forEach (f : JavaType C → Finset C → Collected C) : List (JavaType C) → Finset C → Collected C
  | [], result => some (.ok result)
  | t :: ts, result =>
    match f t result with
    | some (.ok result) => forEach f ts result
    | stop => stop

section
variable [DecidableEq C] (g : Classes C) (m : Option (InterfaceTypeMapping C))

/-- What both branches do for the interface `c` of the type `t`, with `f` for `do_collect`. -/
def collectInterface (f : JavaType C → Finset C → Collected C) (t : JavaType C) (c : C) (result : Finset C) : Collected C :=
  match m with
  | none => some (.error .needMapping)
  | some m =>
    match m.find t with
    | none => some (.error .nullPointer)
    | some mt => f mt (insert c result)

/-- `do_collect`. -/
def doCollect : ℕ → JavaType C → Finset C → Collected C
  | 0, _, _ => none
  | fuel + 1, .parameterized owner c args, result =>
    let afterRaw :=
      if (g.info c).isInterface then collectInterface m (doCollect fuel) (.parameterized owner c args) c result
      else doCollect fuel (.cls c) result
    match afterRaw with
    | some (.ok result) => forEach (doCollect fuel) args result
    | stop => stop
  | fuel + 1, .cls c, result =>
    if (g.info c).isInterface then collectInterface m (doCollect fuel) (.cls c) c result
    else if c ∈ result ∨ (g.info c).isPrimitive then some (.ok result)
    else
      match forEach (doCollect fuel) (g.info c).fieldTypes (insert c result) with
      | some (.ok result) =>
        match (g.info c).componentType with
        | some d => doCollect fuel (.cls d) result
        | none => some (.ok result)
      | stop => stop
  | _ + 1, .other _, _ => some (.error .unsupported)

/-- `collect`. -/
def collect (fuel : ℕ) (mainType : JavaType C) : Collected C := doCollect g m fuel mainType ∅

end

/-! ### What it is for -/

section
variable [DecidableEq C] (g : Classes C) (m : InterfaceTypeMapping C)

/-- The classes that a type mentions: its own, those of its arguments, and for an interface those of what it is mapped to. -/
inductive Mentions : JavaType C → C → Prop where
  /-- Its own. -/
  | raw {t : JavaType C} {c : C} (h : t.rawClass = some c) : Mentions t c
  /-- A type argument's. -/
  | arg {owner : Option (JavaType C)} {rawType : C} {args : List (JavaType C)} {a : JavaType C} {d : C} (ha : a ∈ args)
      (h : Mentions a d) : Mentions (.parameterized owner rawType args) d
  /-- The target's. -/
  | mapped {t mt : JavaType C} {c d : C} (ht : t.rawClass = some c) (hc : (g.info c).isInterface = true)
      (hfind : m.find t = some mt) (h : Mentions mt d) : Mentions t d

/-- The set has every class that the type mentions, but primitive ones. -/
def Covers (T : Set C) (t : JavaType C) : Prop := ∀ d, Mentions g m t d → (g.info d).isPrimitive = false → d ∈ T

/-- The set has every class that the fields of the class mention, and the component of an array. -/
def Expanded (T : Set C) (c : C) : Prop := ∀ t ∈ (g.info c).members, Covers g m T t

/-- **What is to be collected**: a set with the classes of the root, and with those of each member. -/
structure Closed (root : JavaType C) (T : Set C) : Prop where
  /-- The root's. -/
  root : Covers g m T root
  /-- The members'. -/
  members : ∀ c ∈ T, Expanded g m T c

/-- The graph of types: those that are met from the root on. -/
inductive Meets (root : JavaType C) : JavaType C → Prop where
  /-- The root. -/
  | root : Meets root root
  /-- The class of a parameterized type. -/
  | raw {owner : Option (JavaType C)} {c : C} {args : List (JavaType C)} (h : Meets root (.parameterized owner c args))
      (hc : (g.info c).isInterface = false) : Meets root (.cls c)
  /-- A type argument. -/
  | arg {owner : Option (JavaType C)} {c : C} {args : List (JavaType C)} {a : JavaType C}
      (h : Meets root (.parameterized owner c args)) (ha : a ∈ args) : Meets root a
  /-- The target of an interface. -/
  | mapped {t mt : JavaType C} {c : C} (h : Meets root t) (ht : t.rawClass = some c)
      (hc : (g.info c).isInterface = true) (hfind : m.find t = some mt) : Meets root mt
  /-- A member of a class. -/
  | member {c : C} {t : JavaType C} (h : Meets root (.cls c)) (hc : (g.info c).isInterface = false)
      (ht : t ∈ (g.info c).members) : Meets root t

/-- The graph is finite, built from classes, arrays and parameterized types, and the mapping serves it. -/
structure Serves (root : JavaType C) : Prop where
  /-- There are finitely many types. -/
  finite : {t | Meets g m root t}.Finite
  /-- None is of another kind. -/
  supported : ∀ t, Meets g m root t → t.IsSupported
  /-- A plain interface is mapped to a plain class. -/
  plain : ∀ c, Meets g m root (.cls c) → (g.info c).isInterface = true →
    ∃ d, m.find (.cls c) = some (.cls d) ∧ (g.info d).isInterface = false
  /-- A parameterized interface is mapped to a parameterized class with the same arguments. -/
  parameterized : ∀ owner c args, Meets g m root (.parameterized owner c args) → (g.info c).isInterface = true →
    ∃ owner' d, m.find (.parameterized owner c args) = some (.parameterized owner' d args) ∧ (g.info d).isInterface = false

end

/-! ### Runs that end -/

/-- With enough fuel the run ends with the set. -/
def Ends (run : ℕ → Collected C) (result : Finset C) : Prop := ∃ n, ∀ fuel, n ≤ fuel → run fuel = some (.ok result)

section
variable {run run' run'' : ℕ → Collected C} {a b : Finset C}

theorem Ends.bind (h : Ends run a) (h' : Ends run' b)
    (heq : ∀ fuel, run fuel = some (.ok a) → run' fuel = some (.ok b) → run'' fuel = some (.ok b)) : Ends run'' b := by
  obtain ⟨n, hn⟩ := h
  obtain ⟨n', hn'⟩ := h'
  refine ⟨max n n', fun fuel hfuel => heq fuel ?_ ?_⟩
  · exact hn fuel (le_of_max_le_left hfuel)
  · exact hn' fuel (le_of_max_le_right hfuel)

/-- A run that needs one more. -/
theorem Ends.succ (h : Ends (fun fuel => run (fuel + 1)) a) : Ends run a := by
  obtain ⟨n, hn⟩ := h
  refine ⟨n + 1, fun fuel hfuel => ?_⟩
  obtain ⟨k, rfl⟩ : ∃ k, fuel = k + 1 := ⟨fuel - 1, by omega⟩
  exact hn k (by omega)

theorem Ends.congr (h : Ends run a) (heq : ∀ fuel, run fuel = some (.ok a) → run' fuel = some (.ok a)) : Ends run' a :=
  h.bind h fun fuel hfuel _ => heq fuel hfuel

theorem Ends.const (a : Finset C) : Ends (fun _ => some (.ok a)) a := ⟨0, fun _ _ => rfl⟩

end

section
variable [DecidableEq C] {g : Classes C} {m : InterfaceTypeMapping C} {root : JavaType C}

theorem Covers.mono {S T : Set C} {t : JavaType C} (h : Covers g m S t) (hST : S ⊆ T) : Covers g m T t :=
  fun d hd hp => hST (h d hd hp)

theorem Expanded.mono {S T : Set C} {c : C} (h : Expanded g m S c) (hST : S ⊆ T) : Expanded g m T c :=
  fun t ht => (h t ht).mono hST

/-- **What the calls for the types `ts` add** to the set `S`. -/
structure Adds (g : Classes C) (m : InterfaceTypeMapping C) (ts : List (JavaType C)) (S S' : Finset C) : Prop where
  /-- Nothing is removed. -/
  grows : S ⊆ S'
  /-- The set has what the types mention. -/
  covers : ∀ t ∈ ts, Covers g m (S' : Set C) t
  /-- And what the classes mention that were added. -/
  expanded : ∀ c ∈ S', c ∉ S → Expanded g m (S' : Set C) c
  /-- Nothing else was added. -/
  least : ∀ T : Set C, (∀ c ∈ T, Expanded g m T c) → (∀ t ∈ ts, Covers g m T t) → ∀ c ∈ S', c ∉ S → c ∈ T

variable {S S₁ S₂ : Finset C} {t : JavaType C} {ts : List (JavaType C)}

theorem Adds.nil : Adds g m [] S S where
  grows := Finset.Subset.refl S
  covers := fun _ ht => by cases ht
  expanded := fun _ hc hn => absurd hc hn
  least := fun _ _ _ _ hc hn => absurd hc hn

/-- One list of types after the other. -/
theorem Adds.append {us : List (JavaType C)} (h : Adds g m ts S S₁) (h' : Adds g m us S₁ S₂) :
    Adds g m (ts ++ us) S S₂ where
  grows := h.grows.trans h'.grows
  covers := by
    intro t ht
    rcases List.mem_append.mp ht with ht | ht
    · exact (h.covers t ht).mono (Finset.coe_subset.mpr h'.grows)
    · exact h'.covers t ht
  expanded := by
    intro c hc hn
    by_cases hmid : c ∈ S₁
    · exact (h.expanded c hmid hn).mono (Finset.coe_subset.mpr h'.grows)
    · exact h'.expanded c hc hmid
  least := by
    intro T hT hts c hc hn
    by_cases hmid : c ∈ S₁
    · exact h.least T hT (fun t ht => hts t (List.mem_append_left _ ht)) c hmid hn
    · exact h'.least T hT (fun t ht => hts t (List.mem_append_right _ ht)) c hc hmid

/-- Types that together mention what another one does. -/
theorem Adds.of_mentions {t : JavaType C} (h : Adds g m ts S S₁)
    (hiff : ∀ d, Mentions g m t d ↔ ∃ u ∈ ts, Mentions g m u d) : Adds g m [t] S S₁ where
  grows := h.grows
  covers := by
    intro u hu d hd hp
    rw [List.mem_singleton.mp hu] at hd
    obtain ⟨v, hv, hvd⟩ := (hiff d).mp hd
    exact h.covers v hv d hvd hp
  expanded := h.expanded
  least := by
    intro T hT ht
    refine h.least T hT ?_
    intro u hu d hd hp
    exact ht t (List.mem_singleton_self t) d ((hiff d).mpr ⟨u, hu, hd⟩) hp

/-- A class that is added before the rest is collected. -/
theorem Adds.inserted {c : C} (h : Adds g m ts (insert c S) S₁) (hp : (g.info c).isPrimitive = false)
    (htc : t.rawClass = some c) (hmem : ∀ u ∈ (g.info c).members, u ∈ ts)
    (hmentions : ∀ d, Mentions g m t d → d = c ∨ ∃ u ∈ ts, Mentions g m u d)
    (hback : ∀ T : Set C, Expanded g m T c → Covers g m T t → ∀ u ∈ ts, Covers g m T u) : Adds g m [t] S S₁ where
  grows := (Finset.subset_insert c S).trans h.grows
  covers := by
    intro u hu d hd hdp
    rw [List.mem_singleton.mp hu] at hd
    rcases hmentions d hd with rfl | ⟨v, hv, hvd⟩
    · exact h.grows (Finset.mem_insert_self d S)
    · exact h.covers v hv d hvd hdp
  expanded := by
    intro d hd hn
    by_cases hdc : d = c
    · subst hdc
      exact fun u hu => h.covers u (hmem u hu)
    · exact h.expanded d hd fun hmem => hn ((Finset.mem_insert.mp hmem).resolve_left hdc)
  least := by
    intro T hT ht d hd hn
    have hcover : Covers g m T t := ht t (List.mem_singleton_self t)
    have hcT : c ∈ T := hcover c (.raw htc) hp
    by_cases hdc : d = c
    · exact hdc ▸ hcT
    · refine h.least T hT (hback T (hT c hcT) hcover) d hd fun hmem => ?_
      exact hn ((Finset.mem_insert.mp hmem).resolve_left hdc)

/-- What a class mentions that is no interface. -/
theorem eq_of_mentions_cls {c d : C} (hc : (g.info c).isInterface = false) (h : Mentions g m (.cls c) d) : d = c := by
  cases h with
  | raw h => exact (Option.some.inj h).symm
  | mapped ht hi _ _ =>
    rw [← Option.some.inj ht, hc] at hi
    cases hi

/-- A class that is added, and then its members. -/
theorem Adds.of_class {c : C} (hp : (g.info c).isPrimitive = false) (hc : (g.info c).isInterface = false)
    (h : Adds g m (g.info c).members (insert c S) S₁) : Adds g m [.cls c] S S₁ :=
  h.inserted hp rfl (fun _ hu => hu) (fun _ hd => Or.inl (eq_of_mentions_cls hc hd)) fun _ hT _ => hT

/-- A class that is there, or is primitive. -/
theorem Adds.of_seen {c : C} (hc : (g.info c).isInterface = false) (h : c ∈ S ∨ (g.info c).isPrimitive = true) :
    Adds g m [.cls c] S S where
  grows := Finset.Subset.refl S
  covers := by
    intro t ht d hd hp
    rw [List.mem_singleton.mp ht] at hd
    rw [eq_of_mentions_cls hc hd] at hp ⊢
    rcases h with h | h
    · exact h
    · rw [h] at hp
      cases hp
  expanded := fun _ hd hn => absurd hd hn
  least := fun _ _ _ _ hd hn => absurd hd hn

/-- A plain interface that is added, and then its target. -/
theorem Adds.of_interface {c : C} {mt : JavaType C} (hc : (g.info c).isInterface = true)
    (hfind : m.find (.cls c) = some mt) (h : Adds g m [mt] (insert c S) S₁) : Adds g m [.cls c] S S₁ := by
  refine h.inserted (g.interface_not_primitive c hc) rfl ?_ ?_ ?_
  · intro u hu
    rw [g.members_interface c hc] at hu
    cases hu
  · intro d hd
    cases hd with
    | raw hd => exact Or.inl (Option.some.inj hd).symm
    | mapped _ _ hfind' hd =>
      rw [hfind] at hfind'
      cases hfind'
      exact Or.inr ⟨mt, List.mem_singleton_self mt, hd⟩
  · intro T _ ht u hu d hd hp
    rw [List.mem_singleton.mp hu] at hd
    exact ht d (.mapped rfl hc hfind hd) hp

/-- A parameterized interface that is added, then its target, and then its arguments. -/
theorem Adds.of_parameterized_interface {owner : Option (JavaType C)} {c : C} {args : List (JavaType C)} {mt : JavaType C}
    (hc : (g.info c).isInterface = true) (hfind : m.find (.parameterized owner c args) = some mt)
    (h : Adds g m (mt :: args) (insert c S) S₁) : Adds g m [.parameterized owner c args] S S₁ := by
  refine h.inserted (g.interface_not_primitive c hc) rfl ?_ ?_ ?_
  · intro u hu
    rw [g.members_interface c hc] at hu
    cases hu
  · intro d hd
    cases hd with
    | raw hd => exact Or.inl (Option.some.inj hd).symm
    | arg ha hd => exact Or.inr ⟨_, List.mem_cons_of_mem mt ha, hd⟩
    | mapped _ _ hfind' hd =>
      rw [hfind] at hfind'
      cases hfind'
      exact Or.inr ⟨mt, List.mem_cons_self, hd⟩
  · intro T _ ht u hu d hd hp
    rcases List.mem_cons.mp hu with rfl | hu
    · exact ht d (.mapped rfl hc hfind hd) hp
    · exact ht d (.arg hu hd) hp

/-- A parameterized class: the class, and then the arguments. -/
theorem Adds.of_parameterized_class {owner : Option (JavaType C)} {c : C} {args : List (JavaType C)}
    (hc : (g.info c).isInterface = false) (h : Adds g m (.cls c :: args) S S₁) :
    Adds g m [.parameterized owner c args] S S₁ := by
  refine h.of_mentions fun d => ?_
  constructor
  · intro hd
    cases hd with
    | raw hd => exact ⟨.cls c, List.mem_cons_self, .raw hd⟩
    | arg ha hd => exact ⟨_, List.mem_cons_of_mem _ ha, hd⟩
    | mapped ht hi _ _ =>
      rw [← Option.some.inj ht, hc] at hi
      cases hi
  · rintro ⟨u, hu, hd⟩
    rcases List.mem_cons.mp hu with rfl | hu
    · rw [eq_of_mentions_cls hc hd]
      exact .raw rfl
    · exact .arg hu hd

/-! ### The classes of the graph -/

/-- `U` is the set of the classes of the types that are met. -/
def Universe (g : Classes C) (m : InterfaceTypeMapping C) (root : JavaType C) (U : Finset C) : Prop :=
  ∀ c, c ∈ U ↔ ∃ t, Meets g m root t ∧ t.rawClass = some c

theorem Serves.exists_universe (h : Serves g m root) : ∃ U, Universe g m root U := by
  have hsub : ∀ t : JavaType C, {c | t.rawClass = some c}.Subsingleton := by
    intro t c hc d hd
    exact Option.some.inj (hc.symm.trans hd)
  have hfin := h.finite.biUnion fun t _ => (hsub t).finite
  refine ⟨hfin.toFinset, fun c => ?_⟩
  rw [Set.Finite.mem_toFinset, Set.mem_iUnion₂]
  exact ⟨fun ⟨t, ht, hc⟩ => ⟨t, ht, hc⟩, fun ⟨t, ht, hc⟩ => ⟨t, ht, hc⟩⟩

variable {U : Finset C}

/-- What a type of the graph mentions is in it. -/
theorem Universe.mem_of_mentions (hU : Universe g m root U) {d : C} (h : Mentions g m t d) (ht : Meets g m root t) :
    d ∈ U := by
  induction h with
  | raw hd => exact (hU _).mpr ⟨_, ht, hd⟩
  | arg ha _ ih => exact ih (ht.arg ha)
  | mapped hraw hc hfind _ ih => exact ih (ht.mapped hraw hc hfind)

theorem Universe.covers (hU : Universe g m root U) (ht : Meets g m root t) : Covers g m (U : Set C) t :=
  fun _ hd _ => hU.mem_of_mentions hd ht

theorem Universe.meets_member (hU : Universe g m root U) {c : C} (hc : c ∈ U) (ht : t ∈ (g.info c).members) :
    Meets g m root t := by
  cases hi : (g.info c).isInterface with
  | true =>
    rw [g.members_interface c hi] at ht
    cases ht
  | false =>
    obtain ⟨u, hu, hraw⟩ := (hU c).mp hc
    cases u with
    | cls d =>
      cases hraw
      exact hu.member hi ht
    | parameterized owner d args =>
      cases hraw
      exact (hu.raw hi).member hi ht
    | other name => cases hraw

/-- The collector does not leave the graph. -/
theorem Adds.subset (h : Adds g m ts S S₁) (hU : Universe g m root U) (hts : ∀ t ∈ ts, Meets g m root t) (hS : S ⊆ U) :
    S₁ ⊆ U := by
  intro c hc
  by_cases hmem : c ∈ S
  · exact hS hmem
  · refine h.least (U : Set C) ?_ (fun t ht => hU.covers (hts t ht)) c hc hmem
    exact fun d hd u hu => hU.covers (hU.meets_member hd hu)

/-! ### The calls -/

/-- The call for `t` on the set `S` ends, and adds what it has to. -/
def Collects (g : Classes C) (m : InterfaceTypeMapping C) (t : JavaType C) (S : Finset C) : Prop :=
  ∃ S', Ends (fun fuel => doCollect g (some m) fuel t S) S' ∧ Adds g m [t] S S'

/-- A call for each type in turn. -/
theorem forEach_ends (hU : Universe g m root U) (hts : ∀ t ∈ ts, Meets g m root t) (hS : S ⊆ U)
    (hcalls : ∀ t ∈ ts, ∀ S', S ⊆ S' → S' ⊆ U → Collects g m t S') :
    ∃ S', Ends (fun fuel => forEach (doCollect g (some m) fuel) ts S) S' ∧ Adds g m ts S S' := by
  induction ts generalizing S with
  | nil => exact ⟨S, Ends.const S, Adds.nil⟩
  | cons t ts ih =>
    obtain ⟨S₁, hends, hadds⟩ := hcalls t List.mem_cons_self S (Finset.Subset.refl S) hS
    have hS₁ : S₁ ⊆ U := hadds.subset hU (fun u hu => hts u (List.mem_singleton.mp hu ▸ List.mem_cons_self)) hS
    obtain ⟨S₂, hends', hadds'⟩ := ih (fun u hu => hts u (List.mem_cons_of_mem t hu)) hS₁ fun u hu S' hS' =>
      hcalls u (List.mem_cons_of_mem t hu) S' (hadds.grows.trans hS')
    refine ⟨S₂, hends.bind hends' fun fuel h₁ h₂ => ?_, hadds.append hadds'⟩
    show forEach _ (t :: ts) S = _
    rw [forEach, h₁]
    exact h₂

/-- A class that is no interface, when every call on a larger set does what it has to. -/
theorem collects_class (hU : Universe g m root U) {c : C} (hmet : Meets g m root (.cls c))
    (hc : (g.info c).isInterface = false) (hS : S ⊆ U)
    (hlater : ∀ S', S' ⊆ U → (U \ S').card < (U \ S).card → ∀ t, Meets g m root t → Collects g m t S') :
    Collects g m (.cls c) S := by
  by_cases hseen : c ∈ S ∨ (g.info c).isPrimitive = true
  · refine ⟨S, Ends.succ ((Ends.const S).congr fun fuel _ => ?_), Adds.of_seen hc hseen⟩
    simp only [doCollect, hc, Bool.false_eq_true, if_false]
    rw [if_pos hseen]
  · obtain ⟨hn, hp⟩ := not_or.mp hseen
    have hcU : c ∈ U := (hU c).mpr ⟨_, hmet, rfl⟩
    have hins : insert c S ⊆ U := Finset.insert_subset hcU hS
    have hmembers : ∀ t ∈ (g.info c).members, Meets g m root t := fun t ht => hU.meets_member hcU ht
    have hcalls : ∀ S', insert c S ⊆ S' → S' ⊆ U → ∀ t, Meets g m root t → Collects g m t S' := by
      intro S' hS' hS'U
      refine hlater S' hS'U (Finset.card_lt_card ((Finset.ssubset_iff_of_subset ?_).mpr ⟨c, ?_, ?_⟩))
      · exact Finset.sdiff_subset_sdiff (Finset.Subset.refl U) ((Finset.subset_insert c S).trans hS')
      · exact Finset.mem_sdiff.mpr ⟨hcU, hn⟩
      · exact fun h => (Finset.mem_sdiff.mp h).2 (hS' (Finset.mem_insert_self c S))
    have hfields : ∀ t ∈ (g.info c).fieldTypes, Meets g m root t := fun t ht => hmembers t (List.mem_append_left _ ht)
    obtain ⟨S₁, hends, hadds⟩ := forEach_ends hU hfields hins fun t ht S' hS' hS'U => hcalls S' hS' hS'U t (hfields t ht)
    have hrun : ∀ fuel, doCollect g (some m) (fuel + 1) (.cls c) S =
        match forEach (doCollect g (some m) fuel) (g.info c).fieldTypes (insert c S) with
        | some (.ok result) =>
          match (g.info c).componentType with
          | some d => doCollect g (some m) fuel (.cls d) result
          | none => some (.ok result)
        | stop => stop := by
      intro fuel
      simp only [doCollect, hc, Bool.false_eq_true, if_false]
      rw [if_neg hseen]
    cases hcomp : (g.info c).componentType with
    | none =>
      have hlist : (g.info c).members = (g.info c).fieldTypes := by
        rw [JavaClass.members, hcomp, Option.toList_none, List.map_nil, List.append_nil]
      refine ⟨S₁, (hends.congr fun fuel hfuel => ?_).succ, Adds.of_class (eq_false_of_ne_true hp) hc (hlist ▸ hadds)⟩
      rw [hrun, hfuel, hcomp]
    | some d =>
      have hlist : (g.info c).members = (g.info c).fieldTypes ++ [.cls d] := by
        rw [JavaClass.members, hcomp, Option.toList_some, List.map_singleton]
      have hmetd : Meets g m root (.cls d) := hmembers _ (hlist ▸ List.mem_append_right _ (List.mem_singleton_self _))
      obtain ⟨S₂, hends', hadds'⟩ := hcalls S₁ hadds.grows (hadds.subset hU hfields hins) (.cls d) hmetd
      refine ⟨S₂, (hends.bind hends' fun fuel h₁ h₂ => ?_).succ, ?_⟩
      · rw [hrun, h₁, hcomp]
        exact h₂
      · exact Adds.of_class (eq_false_of_ne_true hp) hc (hlist ▸ hadds.append hadds')

/-- A parameterized class: the class, and then the arguments. -/
theorem collects_parameterized_class (hU : Universe g m root U) {owner : Option (JavaType C)} {c : C}
    {args : List (JavaType C)} (hmet : Meets g m root (.parameterized owner c args))
    (hc : (g.info c).isInterface = false) (hS : S ⊆ U) (hraw : Collects g m (.cls c) S)
    (hargs : ∀ a ∈ args, ∀ S', S ⊆ S' → S' ⊆ U → Collects g m a S') : Collects g m (.parameterized owner c args) S := by
  obtain ⟨S₁, hends, hadds⟩ := hraw
  have hS₁ : S₁ ⊆ U := hadds.subset hU (fun u hu => List.mem_singleton.mp hu ▸ hmet.raw hc) hS
  obtain ⟨S₂, hends', hadds'⟩ := forEach_ends hU (fun a ha => hmet.arg ha) hS₁ fun a ha S' hS' =>
    hargs a ha S' (hadds.grows.trans hS')
  refine ⟨S₂, (hends.bind hends' fun fuel h₁ h₂ => ?_).succ, Adds.of_parameterized_class hc (hadds.append hadds')⟩
  simp only [doCollect, hc, Bool.false_eq_true, if_false, h₁]
  exact h₂

/-- The call for a type, when every call on a larger set does what it has to: by induction over the type arguments, which
are also those of what an interface is mapped to. -/
theorem collects_type (h : Serves g m root) (hU : Universe g m root U) {n : ℕ}
    (hlater : ∀ S', S' ⊆ U → (U \ S').card < n → ∀ t, Meets g m root t → Collects g m t S') (t : JavaType C) :
    Meets g m root t → ∀ S, S ⊆ U → (U \ S).card ≤ n → Collects g m t S := by
  have hcard : ∀ {S S' : Finset C}, S ⊆ S' → (U \ S').card ≤ (U \ S).card := fun hsub =>
    Finset.card_le_card (Finset.sdiff_subset_sdiff (Finset.Subset.refl U) hsub)
  have hclass : ∀ d, Meets g m root (.cls d) → (g.info d).isInterface = false → ∀ S, S ⊆ U → (U \ S).card ≤ n →
      Collects g m (.cls d) S := fun d hd hi S hS hn =>
    collects_class hU hd hi hS fun S' hS' hlt => hlater S' hS' (by omega)
  induction t using JavaType.induct with
  | cls c =>
    intro hmet S hS hn
    cases hc : (g.info c).isInterface with
    | true =>
      obtain ⟨d, hfind, hd⟩ := h.plain c hmet hc
      have hins : insert c S ⊆ U := Finset.insert_subset ((hU c).mpr ⟨_, hmet, rfl⟩) hS
      obtain ⟨S₁, hends, hadds⟩ := hclass d (hmet.mapped rfl hc hfind) hd (insert c S) hins
        ((hcard (Finset.subset_insert c S)).trans hn)
      refine ⟨S₁, (hends.congr fun fuel hfuel => ?_).succ, Adds.of_interface hc hfind hadds⟩
      simp only [doCollect, hc, if_true, collectInterface, hfind]
      exact hfuel
    | false => exact hclass c hmet hc S hS hn
  | parameterized owner c args ih =>
    intro hmet S hS hn
    have hargs : ∀ a ∈ args, ∀ S', S ⊆ S' → S' ⊆ U → Collects g m a S' := fun a ha S' hsub hS' =>
      ih a ha (hmet.arg ha) S' hS' ((hcard hsub).trans hn)
    cases hc : (g.info c).isInterface with
    | true =>
      obtain ⟨owner', d, hfind, hd⟩ := h.parameterized owner c args hmet hc
      have hmapped : Meets g m root (.parameterized owner' d args) := hmet.mapped rfl hc hfind
      have hsub : S ⊆ insert c S := Finset.subset_insert c S
      have hins : insert c S ⊆ U := Finset.insert_subset ((hU c).mpr ⟨_, hmet, rfl⟩) hS
      -- the arguments are collected for the target, and once more for the interface
      obtain ⟨S₁, hends, hadds⟩ := collects_parameterized_class hU hmapped hd hins
        (hclass d (hmapped.raw hd) hd _ hins ((hcard hsub).trans hn)) fun a ha S' hS' => hargs a ha S' (hsub.trans hS')
      have hS₁ : S₁ ⊆ U := hadds.subset hU (fun u hu => List.mem_singleton.mp hu ▸ hmapped) hins
      obtain ⟨S₂, hends', hadds'⟩ := forEach_ends hU (fun a ha => hmet.arg ha) hS₁ fun a ha S' hS' =>
        hargs a ha S' ((hsub.trans hadds.grows).trans hS')
      refine ⟨S₂, (hends.bind hends' fun fuel h₁ h₂ => ?_).succ,
        Adds.of_parameterized_interface hc hfind (hadds.append hadds')⟩
      simp only [doCollect, hc, if_true, collectInterface, hfind, h₁]
      exact h₂
    | false => exact collects_parameterized_class hU hmet hc hS (hclass c (hmet.raw hc) hc S hS hn) hargs
  | other name =>
    intro hmet
    exact absurd rfl (h.supported _ hmet)

/-- **Every call ends**, and adds what it has to. -/
theorem collects (h : Serves g m root) (hU : Universe g m root U) (ht : Meets g m root t) (hS : S ⊆ U) :
    Collects g m t S := by
  induction hn : (U \ S).card using Nat.strong_induction_on generalizing S t with
  | _ n ih =>
    refine collects_type h hU ?_ t ht S hS hn.le
    intro S' hS' hlt u hu
    exact ih _ hlt hu hS' rfl

end

/-- The types next to a type in the graph. -/
def next [DecidableEq C] (g : Classes C) (m : InterfaceTypeMapping C) : JavaType C → List (JavaType C)
  | .cls c => if (g.info c).isInterface then (m.find (.cls c)).toList else (g.info c).members
  | .parameterized owner c args =>
    (if (g.info c).isInterface then (m.find (.parameterized owner c args)).toList else [.cls c]) ++ args
  | .other _ => []

/-- A list with the root, and with the types next to each of its types, has the graph. -/
theorem Meets.mem_of_closed [DecidableEq C] {g : Classes C} {m : InterfaceTypeMapping C} {root t : JavaType C}
    {ts : List (JavaType C)} (hroot : root ∈ ts) (hnext : ∀ t ∈ ts, ∀ u ∈ next g m t, u ∈ ts) (h : Meets g m root t) :
    t ∈ ts := by
  induction h with
  | root => exact hroot
  | raw _ hc ih =>
    refine hnext _ ih _ (List.mem_append_left _ ?_)
    rw [hc, if_neg Bool.false_ne_true]
    exact List.mem_singleton_self _
  | arg _ ha ih => exact hnext _ ih _ (List.mem_append_right _ ha)
  | @mapped t mt c _ ht hc hfind ih =>
    refine hnext t ih mt ?_
    cases t with
    | cls d =>
      cases ht
      simp [next, hc, hfind]
    | parameterized owner d args =>
      cases ht
      simp [next, hc, hfind]
    | other name => cases ht
  | member _ hc ht ih =>
    refine hnext _ ih _ ?_
    simp only [next, hc, Bool.false_eq_true, if_false]
    exact ht

/-- **The collector computes the closure**: for every finite graph of types, and every mapping that serves it, `collect` ends
with the least set that has the classes of the root, and with those of each member. -/
theorem collect_least [DecidableEq C] (g : Classes C) (m : InterfaceTypeMapping C) (root : JavaType C) (h : Serves g m root) :
    ∃ result, (∃ n, ∀ fuel, n ≤ fuel → collect g (some m) fuel root = some (.ok result)) ∧
      IsLeast {T | Closed g m root T} (result : Set C) := by
  obtain ⟨U, hU⟩ := h.exists_universe
  obtain ⟨result, hends, hadds⟩ := collects h hU .root (Finset.empty_subset U)
  refine ⟨result, hends, ⟨?_, ?_⟩, ?_⟩
  · exact hadds.covers root (List.mem_singleton_self root)
  · exact fun c hc => hadds.expanded c hc (Finset.notMem_empty c)
  · intro T hT c hc
    refine hadds.least T hT.members ?_ c hc (Finset.notMem_empty c)
    intro t ht
    rw [List.mem_singleton.mp ht]
    exact hT.root

/-- The classes of a small program. -/
inductive SampleClass where
  /-- `class Node { static Object lock; List<Node> next; int value; }`. -/
  | node
  /-- `List`. -/
  | list
  /-- `ArrayList`. -/
  | arrayList
  /-- `Object[]`. -/
  | objects
  /-- `Object`. -/
  | object
  /-- `int`. -/
  | int
  deriving DecidableEq

namespace SampleClass

/-- `List<Node>`. -/
def listOfNodes : JavaType SampleClass := .parameterized none list [.cls node]

/-- `ArrayList<Node>`. -/
def arrayListOfNodes : JavaType SampleClass := .parameterized none arrayList [.cls node]

/-- What reflection says. -/
def info : SampleClass → JavaClass SampleClass
  | node => ⟨false, false, [⟨true, .cls object⟩, ⟨false, listOfNodes⟩, ⟨false, .cls int⟩], none⟩
  | list => ⟨true, false, [], none⟩
  | arrayList => ⟨false, false, [⟨false, .cls objects⟩, ⟨false, .cls int⟩], none⟩
  | objects => ⟨false, false, [], some object⟩
  | object => ⟨false, false, [], none⟩
  | int => ⟨false, true, [], none⟩

/-- The program. -/
def classes : Classes SampleClass where
  info := info
  members_interface c := by cases c <;> decide
  interface_not_primitive c := by cases c <;> decide

/-- `List<Node>` is an `ArrayList<Node>`. -/
def mapping : InterfaceTypeMapping SampleClass := InterfaceTypeMapping.add ⟨[]⟩ listOfNodes arrayListOfNodes

/-- The types that are met from `Node` on. -/
def types : List (JavaType SampleClass) :=
  [.cls node, listOfNodes, arrayListOfNodes, .cls arrayList, .cls objects, .cls object, .cls int]

theorem mem_types {t : JavaType SampleClass} (h : Meets classes mapping (.cls node) t) : t ∈ types :=
  h.mem_of_closed (by decide) (by decide)

theorem serves : Serves classes mapping (.cls node) where
  finite := types.finite_toSet.subset fun _ h => mem_types h
  supported := by
    have hall : ∀ t ∈ types, t.rawClass ≠ none := by decide
    exact fun t ht => hall t (mem_types ht)
  plain := by
    have hall : ∀ c, JavaType.cls c ∈ types → (classes.info c).isInterface = false := by
      intro c
      cases c <;> decide
    intro c hc hi
    rw [hall c (mem_types hc)] at hi
    cases hi
  parameterized := by
    intro owner c args h hi
    have hmem := mem_types h
    simp only [types, listOfNodes, arrayListOfNodes, List.mem_cons, reduceCtorEq, JavaType.parameterized.injEq,
      List.not_mem_nil, or_false, false_or] at hmem
    rcases hmem with ⟨rfl, rfl, rfl⟩ | ⟨rfl, rfl, rfl⟩
    · exact ⟨none, arrayList, by decide, rfl⟩
    · cases hi

end SampleClass

/-- A list of nodes, which are the nodes of the list. -/
theorem collect_least_sample : ∃ result, (∃ n, ∀ fuel, n ≤ fuel →
    collect SampleClass.classes (some SampleClass.mapping) fuel (.cls .node) = some (.ok result)) ∧
      IsLeast {T | Closed SampleClass.classes SampleClass.mapping (.cls .node) T} (result : Set SampleClass) :=
  collect_least SampleClass.classes SampleClass.mapping (.cls .node) SampleClass.serves

end DShuffle.Serde.Related
