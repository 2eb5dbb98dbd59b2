import DShuffle.Serde.ArenaBlocks

/-!
# Registering in the arena

`register_class` on any sequence of classes, over the bytes of the arena. A call
allocates a block for each class that it registers, an array's before that of its
elements, and looks classes up by the klass pointers it finds in the blocks.

## What is proved

* `Inv.getByKlass_isSome` — a lookup finds what is registered.
* `Inv.walkInstanceKlass`, `Inv.walkEnumKlass`, `Inv.walkArrayKlass`, `Inv.registerClass` —
  what a call keeps, and which blocks it adds: one for each class that is missing.
* `sound_of_run` — in a run in which every class that is registered fits, every store
  stays in its block, blocks are disjoint and in the arena, and every class info has
  the signature of its class, at any time.
* `not_sound_long` — with a name of 78 characters the first class already is stored
  past the end of its block.
-/

namespace DShuffle.Serde.Arena

open Base Serde.ClassResolver

/-! ### What is registered -/

/-- A class with this klass is registered. -/
def Resolver.Has (r : Resolver) (a : ℕ) : Prop := ∃ bl ∈ r.blocks, bl.addr ∈ r.infoById ∧ bl.klass.addr = a

/-- The class that a walk of an instance klass or an enum registers: itself, if it is not registered. -/
def missingInst (r : Resolver) (k : FakeInstanceKlass) : List FakeKlass :=
  if (r.getByKlass k.addr).isSome then [] else [.inst k]

/-- The classes that a walk of an array klass registers, in the order of their blocks. -/
def missingArray (r : Resolver) : FakeArrayKlass → List FakeKlass
  | .typeArray a h t => if (r.getByKlass a).isSome then [] else [.array (.typeArray a h t)]
  | .objArray a h e => if (r.getByKlass a).isSome then [] else .array (.objArray a h e) :: missingInst r e
  | .multi a h l => if (r.getByKlass a).isSome then [] else .array (.multi a h l) :: missingArray r l

/-- **The classes that registering a class registers.** -/
def missing (r : Resolver) : FakeKlass → List FakeKlass
  | .inst k => missingInst r k
  | .array k => missingArray r k

/-- The bytes that the blocks of these classes take. -/
def sizes (ks : List FakeKlass) : ℕ := (ks.map fun k => (layoutOf k).size).sum

theorem mem_missingInst {r : Resolver} {k : FakeInstanceKlass} {k' : FakeKlass} (h : k' ∈ missingInst r k) : k' = .inst k := by
  unfold missingInst at h
  split_ifs at h
  · cases h
  · exact List.mem_singleton.mp h

theorem missingArray_subset {r : Resolver} {k : FakeArrayKlass} : ∀ k' ∈ missingArray r k, k' ∈ k.closure := by
  induction k with
  | typeArray a h t =>
    intro k' hk'
    rw [missingArray] at hk'
    split_ifs at hk'
    · cases hk'
    · exact hk'
  | objArray a h e =>
    intro k' hk'
    rw [missingArray] at hk'
    rw [FakeArrayKlass.closure]
    split_ifs at hk'
    · cases hk'
    · rcases List.mem_cons.mp hk' with rfl | hk'
      · exact List.mem_cons_of_mem _ (List.mem_singleton_self _)
      · rw [mem_missingInst hk']
        exact List.mem_cons_self
  | multi a h l ih =>
    intro k' hk'
    rw [missingArray] at hk'
    rw [FakeArrayKlass.closure]
    split_ifs at hk'
    · cases hk'
    · rcases List.mem_cons.mp hk' with rfl | hk'
      · exact List.mem_append_right _ (List.mem_singleton_self _)
      · exact List.mem_append_left _ (ih k' hk')

/-- Only classes that the call may reach are missing. -/
theorem missing_subset {r : Resolver} {k : FakeKlass} : ∀ k' ∈ missing r k, k' ∈ k.closure := by
  cases k with
  | inst k => exact fun k' hk' => List.mem_singleton.mpr (mem_missingInst hk')
  | array k => exact missingArray_subset

theorem missingInst_congr {r r' : Resolver} (h : ∀ a, (r'.getByKlass a).isSome = (r.getByKlass a).isSome)
    (k : FakeInstanceKlass) : missingInst r' k = missingInst r k := by
  unfold missingInst
  rw [h]

theorem missingArray_congr {r r' : Resolver} (h : ∀ a, (r'.getByKlass a).isSome = (r.getByKlass a).isSome)
    (k : FakeArrayKlass) : missingArray r' k = missingArray r k := by
  induction k with
  | typeArray a _ t => rw [missingArray, missingArray, h]
  | objArray a _ e => rw [missingArray, missingArray, h, missingInst_congr h]
  | multi a _ l ih => rw [missingArray, missingArray, h, ih]

section
variable {good : Prop} {r r₁ r₂ r₃ r' : Resolver} {b fuel : ℕ} {k : FakeKlass} {ks : List FakeKlass}

/-- **A lookup finds what is registered.** -/
theorem Inv.getByKlass_isSome (h : Inv good r) (a : ℕ) : (r.getByKlass a).isSome ↔ r.Has a := by
  constructor
  · intro hsome
    obtain ⟨b, hb⟩ := Option.isSome_iff_exists.mp hsome
    have hmem : b ∈ r.infoById := h.perm.mem_iff.mp (mem_of_findSorted hb)
    obtain ⟨bl, hbl, rfl⟩ := h.known b hmem
    exact ⟨bl, hbl, hmem, (h.klass bl hbl).symm.trans (key_of_findSorted hb)⟩
  · rintro ⟨bl, hbl, hmem, rfl⟩
    have hfind : r.getByKlass bl.klass.addr = some bl.addr :=
      (findSorted_eq_some h.sorted).mpr ⟨h.perm.mem_iff.mpr hmem, h.klass bl hbl⟩
    rw [hfind]
    rfl

theorem Frame.has (h : Frame r r') (a : ℕ) : r'.Has a ↔ r.Has a := by
  unfold Resolver.Has
  rw [h.blocks, h.infoById]

/-- A new block is not registered yet. -/
theorem Fresh.has (h : Fresh good r r' b k) (h₀ : Inv good r) (a : ℕ) : r'.Has a ↔ r.Has a := by
  unfold Resolver.Has
  rw [h.infoById, h.blocks]
  constructor
  · rintro ⟨bl, hbl, hmem, ha⟩
    rcases List.mem_append.mp hbl with hbl | hbl
    · exact ⟨bl, hbl, hmem, ha⟩
    · -- what is registered has a block that ends where the new one starts
      rw [List.mem_singleton.mp hbl] at hmem
      obtain ⟨bl', hbl', heq⟩ := h₀.known b hmem
      have hend := (h₀.placed bl' hbl').2
      have hpos := h₀.size_pos hbl'
      have haddr := h.addr
      omega
  · rintro ⟨bl, hbl, hmem, ha⟩
    exact ⟨bl, List.mem_append_left _ hbl, hmem, ha⟩

/-- So lookups answer as before. -/
theorem Fresh.getByKlass (h : Fresh good r r' b k) (h₀ : Inv good r) (a : ℕ) :
    (r'.getByKlass a).isSome = (r.getByKlass a).isSome := by
  rw [Bool.eq_iff_iff, h.inv.getByKlass_isSome, h₀.getByKlass_isSome]
  exact h.has h₀ a

/-! ### What a call adds -/

/-- The steps added a block for each of these classes, and registered it. -/
structure Adds (r r' : Resolver) (ks : List FakeKlass) : Prop where
  /-- The arena. -/
  base : r'.base = r.base
  /-- Its size. -/
  lim : r'.lim = r.lim
  /-- The blocks; they are registered in another order. -/
  added : ∃ new : List Block, r'.blocks = r.blocks ++ new ∧ new.map Block.klass = ks ∧
    r'.infoById.Perm (r.infoById ++ new.map Block.addr)

theorem Adds.refl (r : Resolver) : Adds r r [] :=
  ⟨rfl, rfl, [], (List.append_nil _).symm, rfl, by rw [List.map_nil, List.append_nil]⟩

/-- The bytes that were given out. -/
theorem Adds.pos (h : Adds r r' ks) (h₀ : Inv good r) (h₁ : Inv good r') : r'.pos = r.pos + sizes ks := by
  obtain ⟨new, hblocks, rfl, -⟩ := h.added
  have hsizes : new.map Block.size = new.map fun bl => (layoutOf bl.klass).size :=
    List.map_congr_left fun bl hbl => h₁.size bl (by rw [hblocks]; exact List.mem_append_right _ hbl)
  rw [h₁.pos, hblocks, List.map_append, List.sum_append, ← h₀.pos, hsizes, sizes, List.map_map]
  rfl

/-- **Registering a new block**, after the classes `ks` were registered and more was stored: no class with its klass is
among those before, or among these. -/
theorem Fresh.register (h : Fresh good r r₁ b k) (h₀ : Inv good r) (hadds : Adds r₁ r₂ ks) (hframe : Frame r₂ r₃)
    (h₃ : Inv good r₃) (hnot : ¬ r.Has k.addr) (hks : k.addr ∉ ks.map FakeKlass.addr)
    (hres : r₃.registerClassInfo fuel b = .ok r') : Inv good r' ∧ Adds r r' (k :: ks) := by
  obtain ⟨new, hblocks, hmap, hperm⟩ := hadds.added
  have hblocks₃ : r₃.blocks = r.blocks ++ (⟨b, (layoutOf k).size, k⟩ :: new) := by
    rw [hframe.blocks, hblocks, h.blocks, List.append_assoc, List.singleton_append]
  have hself : (⟨b, (layoutOf k).size, k⟩ : Block) ∈ r₃.blocks := by
    rw [hblocks₃]
    exact List.mem_append_right _ List.mem_cons_self
  have hnew : ∀ y ∈ r₃.infoById, r₃.klass y ≠ k.addr := by
    intro y hy hkey
    rw [hframe.infoById, hperm.mem_iff, h.infoById, List.mem_append] at hy
    rcases hy with hy | hy
    · obtain ⟨bl, hbl, rfl⟩ := h₀.known y hy
      have hbl₃ : bl ∈ r₃.blocks := by
        rw [hblocks₃]
        exact List.mem_append_left _ hbl
      exact hnot ⟨bl, hbl, hy, (h₃.klass bl hbl₃).symm.trans hkey⟩
    · obtain ⟨bl, hbl, rfl⟩ := List.mem_map.mp hy
      have hbl₃ : bl ∈ r₃.blocks := by
        rw [hblocks₃]
        exact List.mem_append_right _ (List.mem_cons_of_mem _ hbl)
      refine hks (List.mem_map.mpr ⟨bl.klass, ?_, (h₃.klass bl hbl₃).symm.trans hkey⟩)
      rw [← hmap]
      exact List.mem_map_of_mem hbl
  obtain ⟨hinv, hbase, hlim, hblocks', hids⟩ := h₃.registerClassInfo hself hnew hres
  refine ⟨hinv, hbase.trans (hframe.base.trans (hadds.base.trans h.base)),
    hlim.trans (hframe.lim.trans (hadds.lim.trans h.lim)), ⟨b, (layoutOf k).size, k⟩ :: new, hblocks'.trans hblocks₃, ?_, ?_⟩
  · rw [List.map_cons, hmap]
  · rw [hids, hframe.infoById, List.map_cons]
    have hswap : (r₂.infoById ++ [b]).Perm (r.infoById ++ new.map Block.addr ++ [b]) :=
      (h.infoById ▸ hperm).append_right _
    refine hswap.trans ?_
    rw [List.append_assoc]
    exact List.Perm.append_left _ (List.perm_append_singleton ..)

end

/-! ### The walks -/

/-- An array class is among the classes that registering it registers. -/
theorem array_mem_closure (k : FakeArrayKlass) : FakeKlass.array k ∈ k.closure := by
  cases k with
  | typeArray a h t => exact List.mem_singleton_self _
  | objArray a h e => exact List.mem_cons_of_mem _ (List.mem_singleton_self _)
  | multi a h l => exact List.mem_append_right _ (List.mem_singleton_self _)

/-- What holds of a class holds of its elements' class, whose klass is another one. -/
theorem Genuine.elem {a h : ℕ} {e : FakeInstanceKlass} (hk : Genuine (.array (.objArray a h e))) :
    Genuine (.inst e) ∧ a ≠ e.addr := by
  have hsub : ∀ k' ∈ (FakeKlass.inst e).closure, k' ∈ (FakeKlass.array (.objArray a h e)).closure := by
    intro k' hk'
    rw [List.mem_singleton.mp hk']
    exact List.mem_cons_self
  have hdistinct : ([e.addr, a] : List ℕ).Nodup := hk.distinct
  refine ⟨⟨fun k' hk' => hk.small k' (hsub k' hk'), List.nodup_singleton _, fun k' hk' => hk.text k' (hsub k' hk'),
    fun e' he' => hk.named e' (hsub _ he')⟩, fun heq => ?_⟩
  rw [heq] at hdistinct
  exact (List.nodup_cons.mp hdistinct).1 (List.mem_singleton_self _)

theorem Genuine.lower {a h : ℕ} {l : FakeArrayKlass} (hk : Genuine (.array (.multi a h l))) :
    Genuine (.array l) ∧ a ∉ l.closure.map FakeKlass.addr := by
  have hsub : ∀ k' ∈ (FakeKlass.array l).closure, k' ∈ (FakeKlass.array (.multi a h l)).closure :=
    fun k' hk' => List.mem_append_left _ hk'
  have hdistinct : (l.closure.map FakeKlass.addr ++ [a]).Nodup := by
    have hall := hk.distinct
    rwa [FakeKlass.closure, FakeArrayKlass.closure, List.map_append] at hall
  refine ⟨⟨fun k' hk' => hk.small k' (hsub k' hk'), (List.nodup_append.mp hdistinct).1, fun k' hk' => hk.text k' (hsub k' hk'),
    fun e' he' => hk.named e' (hsub _ he')⟩, fun hmem => ?_⟩
  exact (List.nodup_append.mp hdistinct).2.2 a hmem a (List.mem_singleton_self _) rfl

section
variable {good : Prop} {args : JVMArgs} {fuel : ℕ} {r r' : Resolver} {id : ℤ}

theorem missingInst_none {k : FakeInstanceKlass} (hget : r.getByKlass k.addr = none) : missingInst r k = [.inst k] := by
  rw [missingInst, hget]
  rfl

theorem missingInst_some {k : FakeInstanceKlass} {b : ℕ} (hget : r.getByKlass k.addr = some b) : missingInst r k = [] := by
  rw [missingInst, hget]
  rfl

theorem missingArray_some {k : FakeArrayKlass} {b : ℕ} (hget : r.getByKlass k.addr = some b) : missingArray r k = [] := by
  cases k with
  | typeArray a _ t =>
    have hget : r.getByKlass a = some b := hget
    rw [missingArray, hget]
    rfl
  | objArray a _ e =>
    have hget : r.getByKlass a = some b := hget
    rw [missingArray, hget]
    rfl
  | multi a _ l =>
    have hget : r.getByKlass a = some b := hget
    rw [missingArray, hget]
    rfl

theorem missing_some {k : FakeKlass} {b : ℕ} (hget : r.getByKlass k.addr = some b) : missing r k = [] := by
  cases k with
  | inst k => exact missingInst_some hget
  | array k => exact missingArray_some hget

/-- Where the class is found the resolver is returned as it is. -/
theorem Inv.of_found {ks : List FakeKlass} {id' : ℤ} (h : Inv good r) (hks : ks = [])
    (hres : (.ok (r, id') : Except Fault (Resolver × ℤ)) = .ok (r', id)) : Inv good r' ∧ Adds r r' ks := by
  cases hres
  rw [hks]
  exact ⟨h, Adds.refl _⟩

/-- What is not found is not registered. -/
theorem Inv.not_has (h : Inv good r) {a : ℕ} (hget : r.getByKlass a = none) : ¬ r.Has a := by
  intro hhas
  have hsome := (h.getByKlass_isSome a).mpr hhas
  rw [hget] at hsome
  cases hsome

theorem sizes_cons (k : FakeKlass) (ks : List FakeKlass) : sizes (k :: ks) = (layoutOf k).size + sizes ks := by
  unfold sizes
  rw [List.map_cons, List.sum_cons]

/-- The first of the blocks has room. -/
theorem room_head {k : FakeKlass} {ks : List FakeKlass} (hroom : good → r.pos + sizes (k :: ks) ≤ r.lim) :
    good → r.pos + (layoutOf k).size ≤ r.lim := by
  intro hg
  have hroom := hroom hg
  rw [sizes_cons] at hroom
  omega

/-- **`walk_enum_klass`**, on an enum. -/
theorem Inv.walkEnumKlass {k : FakeInstanceKlass} (h : Inv good r) (hk : Genuine (.inst k)) (hen : k.isEnum = true)
    (hfits : good → ∀ k' ∈ missingInst r k, Fits k') (hroom : good → r.pos + sizes (missingInst r k) ≤ r.lim)
    (hres : r.walkEnumKlass args fuel k = .ok (r', id)) : Inv good r' ∧ Adds r r' (missingInst r k) := by
  unfold Resolver.walkEnumKlass at hres
  cases hget : r.getByKlass k.addr with
  | some b =>
    rw [hget] at hres
    exact h.of_found (missingInst_some hget) hres
  | none =>
    rw [missingInst_none hget] at hfits hroom ⊢
    rw [hget] at hres
    obtain ⟨⟨r₁, b⟩, hfrom, hres⟩ := bind_eq_ok hres
    have hfit : good → Fits (.inst k) := fun hg => hfits hg _ (List.mem_singleton_self _)
    have hfrom' : r.fromInstanceKlass args k k.isEnum = .ok (r₁, b) := by
      rw [hen]
      exact hfrom
    obtain ⟨hfresh, -, htable, hcounts⟩ := h.fromInstanceKlass hk hfit (room_head hroom) hfrom'
    -- the two sizes that `walk_enum_klass` sets are no part of the table's description
    have hfresh₂ : Fresh good r ((r₁.store b 18 (le 1 12)).store b 16 (le 2 16)) b (.inst k) := by
      refine Fresh.store (Fresh.store hfresh h (by decide) fun _ => ?_) h (by decide) fun _ => ?_
      · exact Or.inr (Or.inl ⟨by decide, by rw [length_le]⟩)
      · exact Or.inr (Or.inl ⟨by decide, by rw [length_le]; decide⟩)
    have hload : ∀ j n, j + n ≤ 16 ∨ 19 ≤ j →
        ((r₁.store b 18 (le 1 12)).store b 16 (le 2 16)).load b j n = r₁.load b j n := by
      intro j n hj
      rw [load_store (by rw [length_le]; omega), load_store (by rw [length_le]; omega)]
    have htable₂ : 24 ≤ ((r₁.store b 18 (le 1 12)).store b 16 (le 2 16)).enumRefArrOff b :=
      (htable hen).trans (hload 10 2 (by decide)).ge
    have hgood₂ : good → ((r₁.store b 18 (le 1 12)).store b 16 (le 2 16)).nStaticField b = (counts k).2 ∧
        1 ≤ (counts k).2 ∧ (counts k).2 < 256 ∧ (layoutOf (.inst k)).sigOff =
          ((r₁.store b 18 (le 1 12)).store b 16 (le 2 16)).enumRefArrOff b + 16 * ((counts k).2 - 1) ∧
        ∀ f ∈ k.fields.take ((counts k).2 - 1 - 0), ∀ c, f.constant = some c → c.ordinal < (counts k).2 - 1 := by
      intro hg
      obtain ⟨harr, hstatic⟩ := hcounts hg
      obtain ⟨-, hshape⟩ := (hfit hg).table
      have hoff : ((r₁.store b 18 (le 1 12)).store b 16 (le 2 16)).enumRefArrOff b = (layoutOf (.inst k)).enumRefArrOff :=
        (hload 10 2 (by decide)).trans harr
      rw [hoff]
      exact ⟨(hload 20 1 (by decide)).trans hstatic, (hfit hg).counted k rfl hen, (counts_lt k).2, (hshape k rfl hen).2,
        (hfit hg).constants k rfl hen⟩
    dsimp only at hres
    generalize (r₁.store b 18 (le 1 12)).store b 16 (le 2 16) = r₂ at hfresh₂ htable₂ hgood₂ hres
    obtain ⟨r₃, henums, hres⟩ := bind_eq_ok hres
    obtain ⟨r₄, hreg, hres⟩ := bind_eq_ok hres
    cases hres
    obtain ⟨h₃, hframe₃⟩ := hfresh₂.inv.setEnums hfresh₂.mem (hfresh₂.last h) htable₂ hgood₂ henums
    exact hfresh₂.register h (Adds.refl _) hframe₃ h₃ (h.not_has hget) List.not_mem_nil hreg

/-- **`walk_instance_klass`**, on a class that is no enum. -/
theorem Inv.walkInstanceKlass {k : FakeInstanceKlass} (h : Inv good r) (hk : Genuine (.inst k)) (hen : k.isEnum = false)
    (hfits : good → ∀ k' ∈ missingInst r k, Fits k') (hroom : good → r.pos + sizes (missingInst r k) ≤ r.lim)
    (hres : r.walkInstanceKlass args fuel k = .ok (r', id)) : Inv good r' ∧ Adds r r' (missingInst r k) := by
  unfold Resolver.walkInstanceKlass at hres
  cases hget : r.getByKlass k.addr with
  | some b =>
    rw [hget] at hres
    exact h.of_found (missingInst_some hget) hres
  | none =>
    rw [missingInst_none hget] at hfits hroom ⊢
    rw [hget] at hres
    obtain ⟨⟨r₁, b⟩, hfrom, hres⟩ := bind_eq_ok hres
    have hfit : good → Fits (.inst k) := fun hg => hfits hg _ (List.mem_singleton_self _)
    have hfrom' : r.fromInstanceKlass args k k.isEnum = .ok (r₁, b) := by
      rw [hen]
      exact hfrom
    obtain ⟨hfresh, hentries, -, -⟩ := h.fromInstanceKlass hk hfit (room_head hroom) hfrom'
    dsimp only at hres
    split_ifs at hres
    · cases hres
    · obtain ⟨r₃, hfields, hres⟩ := bind_eq_ok hres
      obtain ⟨r₄, hreg, hres⟩ := bind_eq_ok hres
      cases hres
      generalize instanceFields (k.fields.take (r₁.nNonStaticField b + r₁.nStaticField b)) = fs at hfields
      obtain ⟨h₂, hframe₂, hn⟩ : Inv good (Resolver.setHeaderSizes b fs r₁) ∧ Frame r₁ (Resolver.setHeaderSizes b fs r₁) ∧
          (Resolver.setHeaderSizes b fs r₁).nNonStaticField b = r₁.nNonStaticField b :=
        hfresh.inv.setHeaderSizes hfresh.mem
      -- the loop is over the entries there are
      have hall : 0 + (Resolver.setHeaderSizes b fs r₁).nNonStaticField b ≤ (layoutOf (.inst k)).nNonStatic := by
        rw [hn, hentries hen, Nat.zero_add]
        exact le_rfl
      obtain ⟨h₃, hframe₃⟩ := h₂.resolveFields (hframe₂.blocks ▸ hfresh.mem) hall hfields
      exact hfresh.register h (Adds.refl _) (hframe₂.trans hframe₃) h₃ (h.not_has hget) List.not_mem_nil hreg

/-- `walk_enum_klass` or `walk_instance_klass`. -/
theorem Inv.walkKlass {k : FakeInstanceKlass} (h : Inv good r) (hk : Genuine (.inst k))
    (hfits : good → ∀ k' ∈ missingInst r k, Fits k') (hroom : good → r.pos + sizes (missingInst r k) ≤ r.lim)
    (hres : r.walkKlass args fuel k = .ok (r', id)) : Inv good r' ∧ Adds r r' (missingInst r k) := by
  unfold Resolver.walkKlass at hres
  cases hen : k.isEnum with
  | true =>
    rw [hen, if_pos rfl] at hres
    exact h.walkEnumKlass hk hen hfits hroom hres
  | false =>
    rw [hen, if_neg (by decide)] at hres
    exact h.walkInstanceKlass hk hen hfits hroom hres

/-- The type of the elements is stored into the new block. -/
theorem Fresh.setElemType {k : FakeArrayKlass} {b : ℕ} (hf : Fresh good r r' b (.array k)) (h : Inv good r) (t : BasicType) :
    Fresh good r (r'.setElemType b t) b (.array k) :=
  hf.store h (by decide) fun _ => Or.inr (Or.inr ⟨by decide, by show 24 + 4 + 1 ≤ 48; decide⟩)

/-- Their id is stored when their class is registered. -/
theorem Inv.setElemId {k : FakeArrayKlass} {b size : ℕ} (h : Inv good r) (hbl : ⟨b, size, .array k⟩ ∈ r.blocks) (id : ℤ) :
    Inv good (r.setElemId b id) := by
  have hpos := h.size_pos hbl
  have hlen : sizeofClassInfo + (leInt16 id).length = 26 := by
    rw [length_leInt16]
    rfl
  have hend : sizeofClassInfo + (leInt16 id).length ≤ size := by
    dsimp only at hpos
    omega
  refine h.store hbl (by decide) (Or.inl hend) fun _ => Or.inr (Or.inr ⟨by decide, ?_⟩)
  show sizeofClassInfo + (leInt16 id).length ≤ 48
  omega

/-- What the walk of the elements' class starts from: it has the same classes to register, and the rest of the room. -/
theorem Fresh.rest {k : FakeArrayKlass} {b : ℕ} {ks : List FakeKlass} (hf : Fresh good r r' b (.array k)) (h : Inv good r)
    (hroom : good → r.pos + sizes (.array k :: ks) ≤ r.lim) : good → r'.pos + sizes ks ≤ r'.lim := by
  intro hg
  have hroom := hroom hg
  obtain ⟨m, ss, rfl⟩ := hf.eq
  show upperAlign (r.pos + (layoutOf (.array k)).size) 8 + sizes ks ≤ r.lim
  rw [sizes_cons] at hroom
  rw [h.upperAlign_eq]
  omega

/-- Registering an array class after its elements' class. -/
theorem Fresh.registerElem {k : FakeArrayKlass} {b : ℕ} {r₁ r₂ : Resolver} {ks : List FakeKlass}
    (hf : Fresh good r r₁ b (.array k)) (h : Inv good r) (h₂ : Inv good r₂) (hadds : Adds r₁ r₂ ks)
    (hnot : ¬ r.Has k.addr) (hks : k.addr ∉ ks.map FakeKlass.addr)
    (hreg : (r₂.setElemId b id).registerClassInfo fuel b = .ok r') : Inv good r' ∧ Adds r r' (.array k :: ks) := by
  obtain ⟨new, hblocks, -, -⟩ := hadds.added
  have hmem : ⟨b, (layoutOf (.array k)).size, .array k⟩ ∈ r₂.blocks := by
    rw [hblocks]
    exact List.mem_append_left _ hf.mem
  exact hf.register h hadds (Frame.store ..) (h₂.setElemId hmem id) hnot hks hreg

/-- An array class that is not registered yet, around the walk of its elements' class. -/
theorem Inv.walkArray_of_elem {k : FakeArrayKlass} {b : ℕ} {r₁ r₂ : Resolver} {ks : List FakeKlass} {t : BasicType}
    (h : Inv good r) (hk : Genuine (.array k)) (hfits : good → ∀ k' ∈ FakeKlass.array k :: ks, Fits k')
    (hroom : good → r.pos + sizes (.array k :: ks) ≤ r.lim) (hnot : ¬ r.Has k.addr) (hks : k.addr ∉ ks.map FakeKlass.addr)
    (hfrom : r.fromArrayKlass args k = .ok (r₁, b))
    (hwalk : Inv good (r₁.setElemType b t) → (∀ a, ((r₁.setElemType b t).getByKlass a).isSome = (r.getByKlass a).isSome) →
      (good → ∀ k' ∈ ks, Fits k') → (good → (r₁.setElemType b t).pos + sizes ks ≤ (r₁.setElemType b t).lim) →
      Inv good r₂ ∧ Adds (r₁.setElemType b t) r₂ ks)
    (hreg : (r₂.setElemId b id).registerClassInfo fuel b = .ok r') : Inv good r' ∧ Adds r r' (.array k :: ks) := by
  have hfresh := (h.fromArrayKlass hk (array_mem_closure _) (fun hg => hfits hg _ List.mem_cons_self) (room_head hroom)
    hfrom).setElemType h t
  obtain ⟨h₂, hadds⟩ := hwalk hfresh.inv (hfresh.getByKlass h) (fun hg k' hk' => hfits hg k' (List.mem_cons_of_mem _ hk'))
    (hfresh.rest h hroom)
  exact hfresh.registerElem h h₂ hadds hnot hks hreg

/-- **`walk_array_klass`**: the block of the array class comes before those of its elements' classes. -/
theorem Inv.walkArrayKlass {k : FakeArrayKlass} (h : Inv good r) (hk : Genuine (.array k))
    (hfits : good → ∀ k' ∈ missingArray r k, Fits k') (hroom : good → r.pos + sizes (missingArray r k) ≤ r.lim)
    (hres : r.walkArrayKlass args fuel k = .ok (r', id)) : Inv good r' ∧ Adds r r' (missingArray r k) := by
  induction k generalizing r r' id with
  | typeArray a hs t =>
    rw [Resolver.walkArrayKlass] at hres
    cases hget : r.getByKlass a with
    | some b =>
      rw [hget] at hres
      exact h.of_found (missingArray_some hget) hres
    | none =>
      have hone : missingArray r (.typeArray a hs t) = [.array (.typeArray a hs t)] := by
        rw [missingArray, hget]
        rfl
      rw [hone] at hfits hroom ⊢
      rw [hget] at hres
      obtain ⟨⟨r₁, b⟩, hfrom, hres⟩ := bind_eq_ok hres
      obtain ⟨r₂, hreg, hres⟩ := bind_eq_ok hres
      cases hres
      have hfresh := (h.fromArrayKlass hk (array_mem_closure _) (fun hg => hfits hg _ (List.mem_singleton_self _))
        (room_head hroom) hfrom).setElemType h t
      exact hfresh.register h (Adds.refl _) (Frame.refl _) hfresh.inv (h.not_has hget) List.not_mem_nil hreg
  | objArray a hs e =>
    rw [Resolver.walkArrayKlass] at hres
    cases hget : r.getByKlass a with
    | some b =>
      rw [hget] at hres
      exact h.of_found (missingArray_some hget) hres
    | none =>
      have hcons : missingArray r (.objArray a hs e) = .array (.objArray a hs e) :: missingInst r e := by
        rw [missingArray, hget]
        rfl
      rw [hcons] at hfits hroom ⊢
      rw [hget] at hres
      obtain ⟨⟨r₁, b⟩, hfrom, hres⟩ := bind_eq_ok hres
      obtain ⟨⟨r₂, id₂⟩, hwalk, hres⟩ := bind_eq_ok hres
      obtain ⟨r₃, hreg, hres⟩ := bind_eq_ok hres
      cases hres
      obtain ⟨helem, hne⟩ := hk.elem
      refine h.walkArray_of_elem (t := .object) hk hfits hroom (h.not_has hget) (fun hmem => ?_) hfrom
        (fun h₁ hsame hfits hroom => ?_) hreg
      · obtain ⟨k', hk', heq⟩ := List.mem_map.mp hmem
        rw [mem_missingInst hk'] at heq
        exact hne heq.symm
      · rw [← missingInst_congr hsame e] at hfits hroom ⊢
        exact h₁.walkKlass helem hfits hroom hwalk
  | multi a hs l ih =>
    rw [Resolver.walkArrayKlass] at hres
    cases hget : r.getByKlass a with
    | some b =>
      rw [hget] at hres
      exact h.of_found (missingArray_some hget) hres
    | none =>
      have hcons : missingArray r (.multi a hs l) = .array (.multi a hs l) :: missingArray r l := by
        rw [missingArray, hget]
        rfl
      rw [hcons] at hfits hroom ⊢
      rw [hget] at hres
      obtain ⟨⟨r₁, b⟩, hfrom, hres⟩ := bind_eq_ok hres
      obtain ⟨⟨r₂, id₂⟩, hwalk, hres⟩ := bind_eq_ok hres
      obtain ⟨r₃, hreg, hres⟩ := bind_eq_ok hres
      cases hres
      obtain ⟨hlower, hne⟩ := hk.lower
      refine h.walkArray_of_elem (t := .array) hk hfits hroom (h.not_has hget) (fun hmem => hne ?_) hfrom
        (fun h₁ hsame hfits hroom => ?_) hreg
      · obtain ⟨k', hk', heq⟩ := List.mem_map.mp hmem
        exact List.mem_map.mpr ⟨k', missingArray_subset k' hk', heq⟩
      · rw [← missingArray_congr hsame l] at hfits hroom ⊢
        exact ih h₁ hlower hfits hroom hwalk

/-- **`register_class`** adds a block for each class that is missing. -/
theorem Inv.registerClass {k : FakeKlass} (h : Inv good r) (hk : Genuine k) (hfits : good → ∀ k' ∈ missing r k, Fits k')
    (hroom : good → r.pos + sizes (missing r k) ≤ r.lim) (hres : r.registerClass args fuel k = .ok (r', id)) :
    Inv good r' ∧ Adds r r' (missing r k) := by
  unfold Resolver.registerClass at hres
  cases hget : r.getByKlass k.addr with
  | some b =>
    rw [hget] at hres
    exact h.of_found (missing_some hget) hres
  | none =>
    rw [hget] at hres
    cases k with
    | inst k => exact h.walkKlass hk hfits hroom hres
    | array k => exact h.walkArrayKlass hk hfits hroom hres

end

/-! ### Runs -/

/-- **Between two calls**: the registered classes are the blocks, and no signature has a zero byte. -/
structure Rest (good : Prop) (r : Resolver) : Prop where
  /-- The invariant. -/
  inv : Inv good r
  /-- What was allocated is registered. -/
  registered : r.infoById.Perm (r.blocks.map Block.addr)
  /-- Signatures are strings. -/
  text : ∀ bl ∈ r.blocks, 0 ∉ bl.klass.signature

theorem rest_new (good : Prop) (mem : Mem) (base lim : ℕ) : Rest good (Resolver.new mem base lim) where
  inv :=
    { placed := fun _ hbl => absurd hbl List.not_mem_nil
      size := fun _ hbl => absurd hbl List.not_mem_nil
      pos := rfl
      apart := List.Pairwise.nil
      klass := fun _ hbl => absurd hbl List.not_mem_nil
      waits := fun _ _ hq => absurd hq List.not_mem_nil
      known := fun _ hb => absurd hb List.not_mem_nil
      perm := List.Perm.refl _
      sorted := List.Pairwise.nil
      room := fun _ => Nat.zero_le lim
      fits := fun _ _ hbl => absurd hbl List.not_mem_nil
      signed := fun _ _ hbl => absurd hbl List.not_mem_nil
      inside := fun _ _ hs => absurd hs List.not_mem_nil }
  registered := List.Perm.refl _
  text := fun _ hbl => absurd hbl List.not_mem_nil

section
variable {good : Prop} {args : JVMArgs} {fuel : ℕ} {r r' : Resolver} {k : FakeKlass}

/-- A call, between two calls. -/
theorem Rest.step (h : Rest good r) (hk : Genuine k) (hfits : good → ∀ k' ∈ missing r k, Fits k')
    (hroom : good → r.pos + sizes (missing r k) ≤ r.lim) (hres : r.step args fuel k = some r') :
    Rest good r' ∧ Adds r r' (missing r k) := by
  obtain ⟨id, hcall⟩ : ∃ id, r.registerClass args fuel k = .ok (r', id) := by
    unfold Resolver.step at hres
    split at hres
    · rename_i r₁ id hcall
      cases hres
      exact ⟨id, hcall⟩
    · cases hres
  obtain ⟨hinv, hadds⟩ := h.inv.registerClass hk hfits hroom hcall
  obtain ⟨new, hblocks, hnew, hperm⟩ := hadds.added
  refine ⟨⟨hinv, ?_, ?_⟩, hadds⟩
  · rw [hblocks, List.map_append]
    exact hperm.trans (h.registered.append_right _)
  · intro bl hbl
    rw [hblocks] at hbl
    rcases List.mem_append.mp hbl with hbl | hbl
    · exact h.text bl hbl
    · refine hk.text _ (missing_subset (r := r) _ ?_)
      rw [← hnew]
      exact List.mem_map_of_mem hbl

/-- As many classes are registered as there are blocks. -/
theorem Rest.length_eq (h : Rest good r) : r.infoById.length = r.blocks.length := by
  rw [h.registered.length_eq, List.length_map]

/-- A block has at least 88 bytes. -/
theorem Rest.few (h : Rest good r) : 88 * r.infoById.length ≤ r.pos := by
  rw [h.length_eq, h.inv.pos]
  have hall : ∀ bl ∈ r.blocks, 88 ≤ bl.size := fun bl hbl => h.inv.size_pos hbl
  generalize r.blocks = bs at hall
  induction bs with
  | nil => exact Nat.zero_le _
  | cons bl bs ih =>
    have hbl := hall bl List.mem_cons_self
    have hbs := ih fun bl' hbl' => hall bl' (List.mem_cons_of_mem _ hbl')
    rw [List.map_cons, List.sum_cons, List.length_cons]
    omega

/-- What holds of every registry, whatever was stored past the ends of blocks. -/
theorem rest_of_run {mem : Mem} {base lim : ℕ} {ks : List FakeKlass} (hks : ∀ k ∈ ks, Genuine k)
    (hrun : run (Resolver.step args fuel) (Resolver.new mem base lim) ks = some r) :
    Rest False r ∧ r.base = base ∧ r.lim = lim := by
  have halong : Along (Resolver.step args fuel) (fun _ k => Genuine k) (Resolver.new mem base lim) ks := Along.of_forall hks
  refine inv_of_along (I := fun r => Rest False r ∧ r.base = base ∧ r.lim = lim) ?_ ⟨rest_new False mem base lim, rfl, rfl⟩
    halong hrun
  rintro r k r' ⟨hr, hbase, hlim⟩ hk hstep
  obtain ⟨hr', hadds⟩ := hr.step hk (fun hf => hf.elim) (fun hf => hf.elim) hstep
  exact ⟨hr', hadds.base.trans hbase, hadds.lim.trans hlim⟩

end

/-- **What the resolver promises**: stores stay in their blocks, blocks are disjoint and in the arena, and a class info has
the signature of its class. -/
structure Sound (r : Resolver) : Prop where
  /-- Everything that was stored for a class is in the block that was allocated for it. -/
  inside : ∀ s ∈ r.stores, ∃ bl ∈ r.blocks, bl.addr = s.block ∧ s.off + s.len ≤ bl.size
  /-- Blocks do not meet. -/
  disjoint : r.blocks.Pairwise fun b c => b.addr + b.size ≤ c.addr
  /-- They are in the arena. -/
  arena : ∀ bl ∈ r.blocks, r.base ≤ bl.addr ∧ bl.addr + bl.size ≤ r.base + r.lim
  /-- They are the class infos that are registered. -/
  registered : r.infoById.Perm (r.blocks.map Block.addr)
  /-- `signature()` reads the signature of the class. -/
  signature : ∀ bl ∈ r.blocks, ∀ fuel, maxSignatureLength ≤ fuel → r.signature fuel bl.addr = some bl.klass.signature

theorem Rest.sound {r : Resolver} (h : Rest True r) : Sound r := by
  refine ⟨h.inv.inside trivial, h.inv.apart, fun bl hbl => ?_, h.registered, fun bl hbl fuel hfuel => ?_⟩
  · obtain ⟨hlow, hhigh⟩ := h.inv.placed bl hbl
    have hroom := h.inv.room trivial
    exact ⟨hlow, by omega⟩
  · obtain ⟨hoff, hbytes⟩ := h.inv.signed trivial bl hbl
    have hshort := (h.inv.fits trivial bl hbl).short
    unfold Resolver.signature
    rw [hoff]
    exact cString_eq hbytes (h.text bl hbl) (by omega)

/-- **The call may register what is missing**: each of these classes fits its block, and the arena has room for all of them. -/
def Admissible (r : Resolver) (k : FakeKlass) : Prop :=
  (∀ k' ∈ missing r k, Fits k') ∧ r.pos + sizes (missing r k) ≤ r.lim

/-- **Class infos do not collide** in a run in which every class that is registered fits. -/
theorem sound_of_run (args : JVMArgs) (fuel : ℕ) (mem : Mem) (base lim : ℕ) (ks : List FakeKlass)
    (hks : ∀ k ∈ ks, Genuine k) (ha : Along (Resolver.step args fuel) Admissible (Resolver.new mem base lim) ks) :
    Throughout (Resolver.step args fuel) Sound (Resolver.new mem base lim) ks := by
  intro pre post r hsplit hrun
  subst hsplit
  have hpre := ha.of_append.and_forall fun k hk => hks k (List.mem_append_left _ hk)
  refine Rest.sound (inv_of_along (I := Rest True) ?_ (rest_new True mem base lim) hpre hrun)
  intro r k r' hr hC hstep
  exact (hr.step hC.2 (fun _ => hC.1.1) (fun _ => hC.1.2) hstep).1

/-- The settings of a JVM whose compressed pointers are pointers. -/
def plainArgs : JVMArgs := ⟨0, .zeroBased, 0, 0, .zeroBased, 0⟩

/-- An enum with one constant. -/
def smallEnum : FakeInstanceKlass where
  addr := 4096
  name := sym "Color"
  super := some (sym "java/lang/Enum")
  layoutHelper := 24
  fieldArrayLength := 12
  fields := [⟨8, sym "LColor;", 0, 0, 1, some ⟨77, 0, 78⟩⟩, ⟨8, sym "[LColor;", 0, 0, 2, none⟩]

/-- An array class, registered before the class of its elements. -/
def smallArray : FakeKlass := .array (.objArray 8192 16 smallEnum)

theorem genuine_smallArray : Genuine smallArray where
  small := by decide
  distinct := by decide
  text := by decide
  named := by
    intro e he
    have hcases : FakeKlass.inst e = .inst smallEnum ∨ FakeKlass.inst e = smallArray := by
      simpa [smallArray, FakeKlass.closure, FakeArrayKlass.closure] using he
    rcases hcases with heq | heq
    · cases heq
      decide
    · cases heq

theorem admissible_smallArray : Admissible (Resolver.new (fun _ => 0) 0 256) smallArray := by
  have hmissing : missing (Resolver.new (fun _ => 0) 0 256) smallArray = [smallArray, .inst smallEnum] := rfl
  have hcounts : counts smallEnum = (0, 2) := by decide
  rw [Admissible, hmissing]
  constructor
  · intro k hk
    rcases List.mem_cons.mp hk with rfl | hk
    · refine ⟨by decide, fun e heq _ => ?_, fun e heq _ => ?_⟩
      · cases heq
      · cases heq
    · rw [List.mem_singleton.mp hk]
      refine ⟨by decide, fun e heq _ => ?_, fun e heq _ => ?_⟩
      · cases heq
        rw [hcounts]
        decide
      · cases heq
        rw [hcounts]
        decide
  · decide

/-- An instance: an array of an enum, in an arena of 256 bytes. -/
theorem sound_of_run_sample :
    Throughout (Resolver.step plainArgs 100) Sound (Resolver.new (fun _ => 0) 0 256) [smallArray] :=
  sound_of_run plainArgs 100 (fun _ => 0) 0 256 [smallArray] (fun _ hk => List.mem_singleton.mp hk ▸ genuine_smallArray)
    ⟨admissible_smallArray, fun _ _ => trivial⟩

/-- A class whose name has 78 characters. -/
def longClass : FakeInstanceKlass where
  addr := 4096
  name := List.replicate 78 97
  super := none
  layoutHelper := 16
  fieldArrayLength := 0
  fields := []

/-- **A long signature leaves its block**: the zero byte behind the 80 characters of this one does. -/
theorem not_sound_long :
    ¬ Throughout (Resolver.step plainArgs 100) Sound (Resolver.new (fun _ => 0) 0 1024) [.inst longClass] := by
  intro hsound
  have hcall : ((Resolver.new (fun _ => 0) 0 1024).step plainArgs 100 (.inst longClass)).map (fun r => (r.blocks, r.stores)) =
      some ([⟨0, 104, .inst longClass⟩], [⟨0, 0, 24⟩, ⟨0, 24, 80⟩, ⟨0, 24, 81⟩, ⟨0, 24, 0⟩, ⟨0, 8, 2⟩]) := by
    decide +kernel
  obtain ⟨r, hr, hshape⟩ := Option.map_eq_some_iff.mp hcall
  rw [Prod.mk.injEq] at hshape
  have hrun : run (Resolver.step plainArgs 100) (Resolver.new (fun _ => 0) 0 1024) [.inst longClass] = some r := by
    rw [run, hr]
    rfl
  obtain ⟨bl, hbl, -, hin⟩ := (hsound [.inst longClass] [] r rfl hrun).inside ⟨0, 24, 81⟩ (by rw [hshape.2]; simp)
  rw [hshape.1, List.mem_singleton] at hbl
  rw [hbl] at hin
  exact absurd hin (by decide)

end DShuffle.Serde.Arena
