import DShuffle.Serde.Register

/-!
# The registry invariant

`register_class` on a sequence of classes, in any order and with any of them more
than once: walking an instance class or an enum fills in a block and registers it,
walking an array class first walks the class of its elements.

## What is proved

* `Inv.walkKlass`, `Inv.walkArrayKlass`, `Inv.registerClass`, `Inv.registerAll` — on
  plain klasses every walk succeeds and keeps the invariant. A block that is not
  registered yet, of an array class whose elements are walked, is left alone.
* `registry_of_calls` — after any sequence of calls on plain klasses that registers at
  most 32748 classes, the registry is what it should be (`Sound`).
* `registry_fails` — an instance klass with an injected field is not plain, and
  registering it reads past the end of the table of its fields.
-/

namespace DShuffle.Serde

open Base

namespace ClassResolver

section
variable {U : FakeKlass → Prop} {done : List FakeKlass} {pts : List (FakeKlass × ℕ)} {r : ClassResolver} {k : FakeKlass} {i p : ℕ}

/-! ### The parts of a class info -/

theorem fieldsCountLoop_eq (fs : List FakeFieldInfo) (i statics : ℕ) :
    FakeInstanceKlass.fieldsCountLoop fs i (6 * (i + fs.length) + fs.countP (·.hasGenericSignature)) statics =
      .ok (i + fs.length, statics + fs.countP (·.isStatic)) := by
  induction fs generalizing i statics with
  | nil =>
    have hlimit : 6 * (i + ([] : List FakeFieldInfo).length) + ([] : List FakeFieldInfo).countP (·.hasGenericSignature) = 6 * i := by
      simp
    rw [hlimit, FakeInstanceKlass.fieldsCountLoop, if_neg (by omega), Nat.mul_div_cancel_left i (by decide)]
    simp
  | cons f fs ih =>
    rw [FakeInstanceKlass.fieldsCountLoop, if_pos (by rw [List.length_cons]; omega)]
    have hlimit : (if f.hasGenericSignature then
        6 * (i + (f :: fs).length) + (f :: fs).countP (·.hasGenericSignature) - 1
        else 6 * (i + (f :: fs).length) + (f :: fs).countP (·.hasGenericSignature)) =
        6 * (i + 1 + fs.length) + fs.countP (·.hasGenericSignature) := by
      rw [List.countP_cons, List.length_cons]
      split_ifs with hgen
      · omega
      · omega
    have hstatics : (if f.isStatic then statics + 1 else statics) + fs.countP (·.isStatic) =
        statics + (f :: fs).countP (·.isStatic) := by
      rw [List.countP_cons]
      split_ifs with hst
      · omega
      · omega
    rw [hlimit, ih, hstatics, List.length_cons]
    congr 2
    omega

theorem fieldsCount_eq {c : FakeInstanceKlass} (hc : c.Plain) : c.fieldsCount = .ok (c.fields.length, c.statics) := by
  have hfew := hc.few
  have hle : c.statics ≤ c.fields.length := List.countP_le_length
  have hloop := fieldsCountLoop_eq c.fields 0 0
  rw [Nat.zero_add, Nat.zero_add, ← hc.slots] at hloop
  rw [FakeInstanceKlass.fieldsCount, hloop]
  show Except.ok (c.fields.length % 256, c.statics % 256) = _
  rw [Nat.mod_eq_of_lt (by omega), Nat.mod_eq_of_lt (by omega)]

/-- The instance fields are those that are not static. -/
theorem length_table {c : FakeInstanceKlass} (hc : c.Plain) : c.table.length = c.fields.length - c.statics := by
  have hfilter : instanceFields c.fields = c.fields.filter fun f => !f.isStatic := by
    refine List.filter_congr fun f hf => ?_
    cases hst : f.isStatic with
    | true => simp
    | false => simp [hc.visible f hf hst]
  have hsplit := List.length_eq_countP_add_countP (fun f : FakeFieldInfo => f.isStatic) (l := c.fields)
  rw [FakeInstanceKlass.table, List.length_insertionSort, hfilter, ← List.countP_eq_length_filter, FakeInstanceKlass.statics]
  simp only [Bool.not_eq_true] at hsplit
  have hcount : c.fields.countP (fun f => !f.isStatic) = c.fields.countP (fun f => decide (f.isStatic = false)) := by
    refine List.countP_congr fun f _ => ?_
    cases f.isStatic <;> simp
  omega

theorem setEnums_eq {n : ℕ} {fs : List FakeFieldInfo} (table : List (Option EnumRef)) (hn : n ≤ fs.length)
    (hc : ∀ f ∈ fs.take n, ∃ c, f.constant = some c ∧ c.ordinal < table.length) :
    setEnums n fs table = .ok ((fs.take n).foldl FakeInstanceKlass.setConstant table) := by
  induction n generalizing fs table with
  | zero => simp [setEnums]
  | succ n ih =>
    cases fs with
    | nil => cases hn
    | cons f fs =>
      obtain ⟨c, hf, hlt⟩ := hc f (by simp)
      have hset : FakeInstanceKlass.setConstant table f = table.set c.ordinal (some ⟨c.object, c.handle⟩) := by
        rw [FakeInstanceKlass.setConstant, hf]
      rw [List.take_succ_cons, List.foldl_cons, hset, setEnums, hf]
      simp only [if_pos hlt]
      refine ih _ (Nat.le_of_succ_le_succ hn) fun g hg => ?_
      rw [List.length_set]
      exact hc g (by rw [List.take_succ_cons]; exact List.mem_cons_of_mem _ hg)

/-- The fields of an instance class: the entries, and which of them wait. -/
theorem Inv.resolveFields_eq (h : Inv U done pts r) (hs : Sane U) {fs : List FakeFieldInfo}
    (htyped : ∀ f ∈ fs, ∃ t, f.type = .ok t ∧ (t.isPrimitive = true ∨ t.isReference = true)) (p header i : ℕ) (u : Unresolved) :
    ∃ u', resolveFields r p header fs.length i fs u = .ok (fs.map (fieldEntry done header), u') ∧
      ∀ sig q, q ∈ waiting u' sig ↔ q ∈ waiting u sig ∨ (Unknown done sig ∧
        ∃ (j : ℕ) (f : FakeFieldInfo), fs[j]? = some f ∧ q = (p, i + j) ∧ f.isRef = true ∧ f.signature = sig) := by
  induction fs generalizing i u with
  | nil => exact ⟨u, rfl, fun sig q => by simp⟩
  | cons f fs ih =>
    obtain ⟨t, ht, htype⟩ := htyped f (List.mem_cons_self ..)
    have hd : f.typeD = t := by rw [FakeFieldInfo.typeD, ht]
    have htyped' : ∀ g ∈ fs, ∃ t, g.type = .ok t ∧ (t.isPrimitive = true ∨ t.isReference = true) :=
      fun g hg => htyped g (List.mem_cons_of_mem _ hg)
    -- the field at `i` is the first, the others follow
    have hcons : ∀ (sig : Symbol) (q : FieldPtr), (∃ (j : ℕ) (g : FakeFieldInfo), (f :: fs)[j]? = some g ∧ q = (p, i + j) ∧
        g.isRef = true ∧ g.signature = sig) ↔ (q = (p, i) ∧ f.isRef = true ∧ f.signature = sig) ∨
        ∃ (j : ℕ) (g : FakeFieldInfo), fs[j]? = some g ∧ q = (p, i + 1 + j) ∧ g.isRef = true ∧ g.signature = sig := by
      intro sig q
      constructor
      · rintro ⟨j, g, hg, hq, hrest⟩
        cases j with
        | zero =>
          cases hg
          exact Or.inl ⟨hq, hrest⟩
        | succ j => exact Or.inr ⟨j, g, hg, by rw [hq]; congr 1; omega, hrest⟩
      · rintro (⟨hq, hrest⟩ | ⟨j, g, hg, hq, hrest⟩)
        · exact ⟨0, f, rfl, hq, hrest⟩
        · exact ⟨j + 1, g, hg, by rw [hq]; congr 1; omega, hrest⟩
    cases href : t.isReference with
    | true =>
      have hisRef : f.isRef = true := by rw [FakeFieldInfo.isRef, hd]; exact href
      rcases h.getBySig_id hs f.signature with ⟨hunknown, hget⟩ | ⟨hknown, info, hget, hid⟩
      · obtain ⟨u', hu', hw⟩ := ih htyped' (i + 1) (pushUnresolved f.signature (p, i) u)
        refine ⟨u', ?_, fun sig q => ?_⟩
        · simp only [List.length_cons, resolveFields, ht, hget, hu', href, bind, Except.bind, if_true, pure, Except.pure]
          simp [fieldEntry, hisRef, hd, sigId_of_unknown hunknown]
        · rw [hw, mem_waiting_push, hcons]
          constructor
          · rintro ((hq | ⟨hsig, hq⟩) | ⟨hsig, hq⟩)
            · exact Or.inl hq
            · exact Or.inr ⟨by rw [← hsig]; exact hunknown, Or.inl ⟨hq, hisRef, hsig⟩⟩
            · exact Or.inr ⟨hsig, Or.inr hq⟩
          · rintro (hq | ⟨hsig, ⟨hq, -, hf⟩ | hq⟩)
            · exact Or.inl (Or.inl hq)
            · exact Or.inl (Or.inr ⟨hf, hq⟩)
            · exact Or.inr ⟨hsig, hq⟩
      · obtain ⟨u', hu', hw⟩ := ih htyped' (i + 1) u
        refine ⟨u', ?_, fun sig q => ?_⟩
        · simp only [List.length_cons, resolveFields, ht, hget, hu', href, bind, Except.bind, if_true, pure, Except.pure]
          simp [fieldEntry, hisRef, hd, hid]
        · rw [hw, hcons]
          refine or_congr_right (and_congr_right fun hsig => ⟨Or.inr, fun hq => hq.resolve_left ?_⟩)
          rintro ⟨-, -, rfl⟩
          exact hknown hsig
    | false =>
      have hprim : t.isPrimitive = true := htype.resolve_right fun hr => by rw [href] at hr; cases hr
      have hisRef : f.isRef = false := by rw [FakeFieldInfo.isRef, hd]; exact href
      obtain ⟨u', hu', hw⟩ := ih htyped' (i + 1) u
      refine ⟨u', ?_, fun sig q => ?_⟩
      · simp only [List.length_cons, resolveFields, ht, hu', href, hprim, bind, Except.bind, Bool.false_eq_true, if_false,
          if_true, pure, Except.pure]
        simp [fieldEntry, hisRef, hd]
      · rw [hw, hcons]
        refine or_congr_right (and_congr_right fun _ => ⟨Or.inr, fun hq => hq.resolve_left ?_⟩)
        rintro ⟨-, hr, -⟩
        rw [hisRef] at hr
        cases hr

/-! ### Walking a klass -/

/-- What walking a klass leaves alone: the blocks that were there and are not registered. -/
structure Keeps (r r' : ClassResolver) : Prop where
  /-- Blocks are not freed. -/
  length : r.infos.length ≤ r'.infos.length
  /-- They stay unregistered. -/
  unregistered : ∀ q < r.infos.length, q ∉ r.infoById → q ∉ r'.infoById
  /-- They are not written. -/
  infos : ∀ q < r.infos.length, q ∉ r.infoById → r'.infos[q]? = r.infos[q]?

theorem Keeps.refl (r : ClassResolver) : Keeps r r := ⟨Nat.le_refl _, fun _ _ h => h, fun _ _ _ => rfl⟩

/-- A block is allocated, and registered. -/
theorem Frame.keeps {r₁ r' : ClassResolver} {info : ClassInfo} (h : Frame r₁ r' r.infos.length)
    (hinfos : r₁.infos = r.infos ++ [info]) (hids : r₁.infoById = r.infoById) : Keeps r r' := by
  have hlen := h.length
  rw [hinfos, List.length_append, List.length_singleton] at hlen
  refine ⟨by omega, fun q hq hnot => ?_, fun q hq hnot => ?_⟩
  · refine h.unregistered q ?_ (by rw [hids]; exact hnot) (by omega)
    rw [hinfos, List.length_append]
    omega
  · rw [h.infos q (by rw [hinfos, List.length_append]; omega) (by rw [hids]; exact hnot) (by omega), hinfos,
      List.getElem?_append_left hq]

/-- Only the fields of an instance class that is no enum may wait. -/
theorem points_append {sig : Symbol} {q : FieldPtr} (hk : ∀ c, k = .inst c → c.isEnum = true) :
    Points (pts ++ [(k, p)]) sig q ↔ Points pts sig q := by
  constructor
  · rintro ⟨c, f, hc, henum, hrest⟩
    rcases List.mem_append.mp hc with hc | hc
    · exact ⟨c, f, hc, henum, hrest⟩
    · rw [List.mem_singleton, Prod.mk.injEq] at hc
      rw [hk c hc.1.symm] at henum
      cases henum
  · rintro ⟨c, f, hc, hrest⟩
    exact ⟨c, f, List.mem_append_left _ hc, hrest⟩

theorem Inv.withWaits (h : Inv U done pts r) {pts' : List (FakeKlass × ℕ)} {u : Unresolved}
    (hw : ∀ sig q, q ∈ waiting u sig ↔ Unknown done sig ∧ Points pts' sig q) :
    Inv U done pts' { r with unresolved := u } :=
  ⟨h.all, h.nodup, h.closed, h.length, h.entries, h.blocks, h.perm, h.sorted, h.sigs, hw⟩

/-- An enum or an array class has no field that waits. -/
theorem Inv.withBlock (h : Inv U done pts r) (hk : ∀ c, k = .inst c → c.isEnum = true) (p : ℕ) :
    Inv U done (pts ++ [(k, p)]) r := by
  refine h.withWaits fun sig q => ?_
  rw [points_append hk]
  exact h.waits sig q

theorem Inv.unknown (h : Inv U done pts r) (hs : Sane U) (hU : U k) (hk : k ∉ done) : Unknown done k.signature := by
  intro k' hk' hsig
  rw [hs.sig k' k (h.all k' hk') hU hsig] at hk'
  exact hk hk'

theorem Inv.notMem_length (h : Inv U done pts r) : r.infos.length ∉ r.infoById := fun hmem =>
  Nat.lt_irrefl _ (h.lt_length hmem)

/-- A klass is not found exactly if it is not registered. -/
theorem Inv.getByKlass_of_notMem (h : Inv U done pts r) (hs : Sane U) (hU : U k) (hk : k ∉ done) : r.getByKlass k.addr = none := by
  refine h.getByKlass_eq_none fun k' hk' haddr => ?_
  rw [hs.addr k' k (h.all k' hk') hU haddr] at hk'
  exact hk hk'

theorem Inv.getByKlass_of_mem (h : Inv U done pts r) (hk : k ∈ done) : r.getByKlass k.addr = some (specInfo done k) :=
  h.getByKlass_iff.mpr ⟨k, hk, rfl, rfl⟩

/-- `from_instance_klass`. -/
theorem fromInstanceKlass_eq {c : FakeInstanceKlass} (hc : c.Plain) (isEnum : Bool) :
    fromInstanceKlass c isEnum = .ok
      { klass := c.addr, id := unregisteredClassId
        enumRefArrOff := if isEnum then (sizeofClassInfo + c.table.length * sizeofFieldInfo) % 2 ^ 16 else 0
        objSize := c.layoutHelper / 2 * 2 % 2 ^ 16, headerSize := 255, nStaticField := c.statics, dim := 0
        signature := c.signature, fields := List.replicate c.table.length blankField
        enums := if isEnum then List.replicate (c.statics - 1) none else [] } := by
  have hfew := hc.few
  have hle : c.statics ≤ c.fields.length := List.countP_le_length
  have hcount : (c.fields.length + 256 - c.statics) % 256 = c.table.length := by
    rw [length_table hc]
    omega
  have hshort : ¬ maxSignatureLength < c.name.length + 3 := by
    have := hc.short
    omega
  simp only [fromInstanceKlass, fieldsCount_eq hc, bind, Except.bind, hcount, if_neg hshort, pure, Except.pure]

/-- A new block is registered. -/
theorem Inv.registerNew {c : FakeInstanceKlass} (h : Inv U done (done.zip r.infoById) r) (hs : Sane U) (hU : U (.inst c))
    (hk : .inst c ∉ done) {u : Unresolved}
    (hw : ∀ sig q, q ∈ waiting u sig ↔ Unknown done sig ∧ Points (done.zip r.infoById ++ [(.inst c, r.infos.length)]) sig q)
    (hcount : done.length < 32748) :
    ∃ r', registerClassInfo { r with infos := r.infos ++ [specInfo done (.inst c)], unresolved := u } r.infos.length =
        .ok (r', minClassId + done.length) ∧
      Inv U (done ++ [.inst c]) ((done ++ [FakeKlass.inst c]).zip r'.infoById) r' ∧ Keeps r r' := by
  have hinv : Inv U done (done.zip r.infoById ++ [(.inst c, r.infos.length)])
      { r with infos := r.infos ++ [specInfo done (.inst c)], unresolved := u } :=
    (h.allocate (specInfo done (.inst c))).withWaits hw
  have hclosed : ∀ x ∈ (FakeKlass.inst c).closure, x ∈ done ++ [.inst c] := fun x hx => List.mem_append_right _ hx
  obtain ⟨r', hreg, hinv', hframe⟩ :=
    Inv.register (r := { r with infos := r.infos ++ [specInfo done (.inst c)], unresolved := u }) hinv hs hU hk hclosed
      (fun a e ha => by cases ha) h.notMem_length (by simp) hcount
  exact ⟨r', hreg, hinv', hframe.keeps rfl rfl⟩

theorem ok_bind {α β : Type} (a : α) (f : α → Except Fault β) : (Except.ok a >>= f) = f a := rfl

theorem walkEnumKlass_eq {c : FakeInstanceKlass} {info : ClassInfo} {enums : List (Option EnumRef)} {n : ℕ}
    (hget : r.getByKlass c.addr = none) (hinfo : fromInstanceKlass c true = .ok info)
    (hn : u32 (info.nStaticField + 2 ^ 32 - 1) = n) (henums : setEnums n c.fields info.enums = .ok enums) :
    r.walkEnumKlass c =
      registerClassInfo { r with infos := r.infos ++ [{ info with headerSize := 12, objSize := 16, enums }] } r.infos.length := by
  rw [walkEnumKlass, hget]
  dsimp only
  rw [hinfo, ok_bind, hn, henums, ok_bind]

theorem Inv.walkEnumKlass {c : FakeInstanceKlass} (h : Inv U done (done.zip r.infoById) r) (hs : Sane U) (hU : U (.inst c))
    (henum : c.isEnum = true) (hk : .inst c ∉ done) (hcount : done.length < 32748) :
    ∃ r', r.walkEnumKlass c = .ok (r', minClassId + done.length) ∧
      Inv U (done ++ [.inst c]) ((done ++ [FakeKlass.inst c]).zip r'.infoById) r' ∧ Keeps r r' := by
  have hplain : c.Plain := hs.plain _ hU
  obtain ⟨hne, hstatic, hconst⟩ := hplain.enum henum
  have hpos : 0 < c.fields.length := List.length_pos_iff.mpr hne
  have hfew := hplain.few
  have hstatics : c.statics = c.fields.length := List.countP_eq_length.mpr hstatic
  have htable : c.table.length = 0 := by rw [length_table hplain, hstatics, Nat.sub_self]
  have hn : u32 (c.statics + 2 ^ 32 - 1) = c.fields.length - 1 := by
    rw [u32, hstatics]
    omega
  have henums : setEnums (c.fields.length - 1) c.fields (List.replicate (c.statics - 1) none) = .ok c.constants := by
    rw [hstatics]
    exact setEnums_eq _ (Nat.sub_le ..) (fun f hf => by rw [List.length_replicate]; exact hconst f hf)
  have hget : r.getByKlass c.addr = none := h.getByKlass_of_notMem hs hU hk
  have hw : ∀ sig q, q ∈ waiting r.unresolved sig ↔
      Unknown done sig ∧ Points (done.zip r.infoById ++ [(.inst c, r.infos.length)]) sig q := by
    intro sig q
    rw [points_append fun c' hc' => by cases hc'; exact henum]
    exact h.waits sig q
  obtain ⟨r', hreg, hrest⟩ := h.registerNew hs hU hk hw hcount
  refine ⟨r', ?_, hrest⟩
  have hinfo : specInfo done (.inst c) =
      { klass := c.addr, id := unregisteredClassId, enumRefArrOff := sizeofClassInfo % 2 ^ 16, objSize := 16, headerSize := 12
        nStaticField := c.statics, dim := 0, signature := c.signature, fields := [], enums := c.constants } := by
    have hid : sigId done c.signature = unregisteredClassId := sigId_of_unknown (h.unknown hs hU hk)
    simp [specInfo, baseInfo, specFields, henum, FakeKlass.signature, hid, sizeofClassInfo]
  rw [hinfo] at hreg
  have hfrom := fromInstanceKlass_eq hplain true
  simp only [htable, if_true, Nat.zero_mul, Nat.add_zero, List.replicate_zero] at hfrom
  rw [walkEnumKlass_eq hget hfrom hn henums]
  exact hreg

theorem Inv.walkInstanceKlass {c : FakeInstanceKlass} (h : Inv U done (done.zip r.infoById) r) (hs : Sane U) (hU : U (.inst c))
    (henum : c.isEnum = false) (hk : .inst c ∉ done) (hcount : done.length < 32748) :
    ∃ r', r.walkInstanceKlass c = .ok (r', minClassId + done.length) ∧
      Inv U (done ++ [.inst c]) ((done ++ [FakeKlass.inst c]).zip r'.infoById) r' ∧ Keeps r r' := by
  have hplain : c.Plain := hs.plain _ hU
  have hle : c.statics ≤ c.fields.length := List.countP_le_length
  have hn : c.table.length + c.statics = c.fields.length := by
    rw [length_table hplain]
    omega
  have hget : r.getByKlass c.addr = none := h.getByKlass_of_notMem hs hU hk
  have htyped : ∀ f ∈ c.table, ∃ t, f.type = .ok t ∧ (t.isPrimitive = true ∨ t.isReference = true) := by
    intro f hf
    have hmem := (List.perm_insertionSort _ (instanceFields c.fields)).mem_iff.mp hf
    exact hplain.typed f (List.mem_of_mem_filter hmem)
  obtain ⟨u, hresolve, hmem⟩ := h.resolveFields_eq hs htyped r.infos.length c.header 0 r.unresolved
  have hw : ∀ sig q, q ∈ waiting u sig ↔
      Unknown done sig ∧ Points (done.zip r.infoById ++ [(.inst c, r.infos.length)]) sig q := by
    intro sig q
    rw [hmem, h.waits]
    constructor
    · rintro (⟨hsig, c', f, hc', hrest⟩ | ⟨hsig, j, f, hf, rfl, hrest⟩)
      · exact ⟨hsig, c', f, List.mem_append_left _ hc', hrest⟩
      · refine ⟨hsig, c, f, List.mem_append_right _ (List.mem_singleton_self _), henum, ?_, hrest⟩
        rw [Nat.zero_add]
        exact hf
    · rintro ⟨hsig, c', f, hc', hnot, hf, hrest⟩
      rcases List.mem_append.mp hc' with hc' | hc'
      · exact Or.inl ⟨hsig, c', f, hc', hnot, hf, hrest⟩
      · rw [List.mem_singleton, Prod.mk.injEq] at hc'
        obtain ⟨hc', hq⟩ := hc'
        cases hc'
        refine Or.inr ⟨hsig, q.2, f, hf, ?_, hrest⟩
        rw [Nat.zero_add, ← hq]
  obtain ⟨r', hreg, hrest⟩ := h.registerNew hs hU hk hw hcount
  refine ⟨r', ?_, hrest⟩
  have hinfo : specInfo done (.inst c) =
      { klass := c.addr, id := unregisteredClassId, enumRefArrOff := 0, objSize := c.layoutHelper / 2 * 2 % 2 ^ 16
        headerSize := c.header, nStaticField := c.statics, dim := 0, signature := c.signature
        fields := c.table.map (fieldEntry done c.header), enums := [] } := by
    have hid : sigId done c.signature = unregisteredClassId := sigId_of_unknown (h.unknown hs hU hk)
    simp [specInfo, baseInfo, specFields, henum, FakeKlass.signature, hid]
  rw [hinfo] at hreg
  have hcollected : instanceFields (c.fields.take (c.table.length + c.statics)) = instanceFields c.fields := by
    rw [hn, List.take_length]
  have hlength : ¬ c.fields.length < c.table.length + c.statics := by omega
  have hresolve' : resolveFields r r.infos.length (headerOf (instanceFields c.fields)) c.table.length 0
      ((instanceFields c.fields).insertionSort fun f g => f.offset ≤ g.offset) r.unresolved =
      .ok (c.table.map (fieldEntry done c.header), u) := hresolve
  simp only [ClassResolver.walkInstanceKlass, hget, fromInstanceKlass_eq hplain, bind, Except.bind, ClassInfo.nNonStaticField,
    List.length_replicate, hcollected, if_neg hlength, hresolve', Bool.false_eq_true, if_false]
  exact hreg

theorem enter_of_mem (hk : k ∈ done) : enter done k = done := if_pos hk

theorem enter_of_notMem (hk : k ∉ done) : enter done k = done ++ [k] := if_neg hk

theorem sigId_enter_of_notMem (hnew : Unknown done k.signature) (hk : k ∉ done) :
    sigId (enter done k) k.signature = minClassId + done.length := by
  rw [enter_of_notMem hk, sigId_concat hnew, if_pos rfl]

theorem length_enter_of_notMem (hk : k ∉ done) : (enter done k).length = done.length + 1 := by
  rw [enter_of_notMem hk, List.length_append]
  rfl

/-- `walk_enum_klass` or `walk_instance_klass`. -/
theorem Inv.walkKlass {c : FakeInstanceKlass} (h : Inv U done (done.zip r.infoById) r) (hs : Sane U) (hU : U (.inst c))
    (hcount : (enter done (.inst c)).length ≤ 32748) :
    ∃ r', r.walkKlass c = .ok (r', sigId (enter done (.inst c)) c.signature) ∧
      Inv U (enter done (.inst c)) ((enter done (.inst c)).zip r'.infoById) r' ∧ Keeps r r' := by
  by_cases hk : .inst c ∈ done
  · rw [enter_of_mem hk]
    have hget : r.getByKlass c.addr = some (specInfo done (.inst c)) := h.getByKlass_of_mem hk
    refine ⟨r, ?_, h, Keeps.refl r⟩
    rw [ClassResolver.walkKlass, ClassResolver.walkEnumKlass, ClassResolver.walkInstanceKlass, hget]
    cases c.isEnum <;> rfl
  · rw [length_enter_of_notMem hk] at hcount
    have hid : sigId (enter done (.inst c)) c.signature = minClassId + done.length :=
      sigId_enter_of_notMem (h.unknown hs hU hk) hk
    rw [hid, enter_of_notMem hk, ClassResolver.walkKlass]
    cases henum : c.isEnum with
    | true => exact h.walkEnumKlass hs hU henum hk (by omega)
    | false => exact h.walkInstanceKlass hs hU henum hk (by omega)

/-- What `from_array_klass` makes. -/
def arrayDraft (a : FakeArrayKlass) : ClassInfo :=
  { baseInfo (.array a) with fields := [{ id := -1, offset := 0, type := .illegal, flag := 0, jFieldId := 0 }] }

theorem fromArrayKlass_eq {a : FakeArrayKlass} (ha : a.signature.length < maxSignatureLength) :
    fromArrayKlass a = .ok (arrayDraft a) := by
  rw [fromArrayKlass, if_neg (by omega)]
  rfl

/-- The block of an array class gets its element entry, and is registered. -/
theorem Inv.registerArray {a : FakeArrayKlass} (h : Inv U done (done.zip r.infoById) r) (hs : Sane U) (hU : U (.array a))
    (hk : .array a ∉ done) (hclosed : ∀ c ∈ a.closure, c ∈ done ++ [.array a]) (helem : ∀ e, a.elem = some e → e ∈ done)
    (hp : p ∉ r.infoById) (hblock : r.infos[p]? = some (arrayDraft a)) (hcount : done.length < 32748) :
    ∃ r', (r.setElem p a.elemType (a.elem.elim (-1) fun e => sigId done e.signature)).registerClassInfo p =
        .ok (r', minClassId + done.length) ∧
      Inv U (done ++ [.array a]) ((done ++ [FakeKlass.array a]).zip r'.infoById) r' ∧ Frame r r' p := by
  generalize hid : (a.elem.elim (-1) fun e => sigId done e.signature) = id
  have hother : ∀ q, q ≠ p → (r.setElem p a.elemType id).infos[q]? = r.infos[q]? := by
    intro q hq
    rw [setElem, List.getElem?_modify]
    simp [Ne.symm hq]
  have hset : (r.setElem p a.elemType id).infos[p]? = some (specInfo done (.array a)) := by
    have hown : sigId done (FakeKlass.array a).signature = unregisteredClassId := sigId_of_unknown (h.unknown hs hU hk)
    rw [setElem, List.getElem?_modify, hblock]
    simp [arrayDraft, specInfo, specFields, hid, hown, baseInfo]
  have hlength : (r.setElem p a.elemType id).infos.length = r.infos.length := List.length_modify ..
  have hinv : Inv U done (done.zip r.infoById) (r.setElem p a.elemType id) := by
    refine h.congr rfl rfl rfl rfl fun q hq => hother q ?_
    rintro rfl
    exact hp hq
  have hinv' : Inv U done (done.zip r.infoById ++ [(.array a, p)]) (r.setElem p a.elemType id) :=
    hinv.withBlock (fun c hc => by cases hc) p
  obtain ⟨r', hreg, hdone, hframe⟩ := Inv.register (r := r.setElem p a.elemType id) hinv' hs hU hk hclosed
    (fun a' e ha' he => by cases ha'; exact helem e he) hp hset hcount
  refine ⟨r', hreg, hdone, ?_, fun q hq hnot hqp => ?_, fun q hq hnot hqp => ?_⟩
  · rw [← hlength]
    exact hframe.length
  · exact hframe.unregistered q (by rw [hlength]; exact hq) hnot hqp
  · rw [hframe.infos q (by rw [hlength]; exact hq) hnot hqp]
    exact hother q hqp

theorem mem_enterAll {cs : List FakeKlass} {c : FakeKlass} : c ∈ cs.foldl enter done ↔ c ∈ done ∨ c ∈ cs := by
  induction cs generalizing done with
  | nil => simp
  | cons x cs ih =>
    rw [List.foldl_cons, ih, List.mem_cons]
    by_cases hx : x ∈ done
    · rw [enter_of_mem hx]
      constructor
      · exact fun hc => hc.imp_right Or.inr
      · rintro (hc | rfl | hc)
        · exact Or.inl hc
        · exact Or.inl hx
        · exact Or.inr hc
    · rw [enter_of_notMem hx, List.mem_append, List.mem_singleton, or_assoc]

/-- What is there is not entered again. -/
theorem enterAll_of_subset {cs : List FakeKlass} (h : ∀ c ∈ cs, c ∈ done) : cs.foldl enter done = done := by
  induction cs with
  | nil => rfl
  | cons c cs ih =>
    rw [List.foldl_cons, enter_of_mem (h c (List.mem_cons_self ..))]
    exact ih fun x hx => h x (List.mem_cons_of_mem _ hx)

theorem length_le_enterAll (cs : List FakeKlass) : done.length ≤ (cs.foldl enter done).length := by
  induction cs generalizing done with
  | nil => exact Nat.le_refl _
  | cons c cs ih =>
    refine Nat.le_trans ?_ ih
    by_cases hc : c ∈ done
    · rw [enter_of_mem hc]
    · rw [length_enter_of_notMem hc]
      omega

/-- The array classes of a closure have no more dimensions. -/
theorem dimension_le_of_mem_closure {a b : FakeArrayKlass} (h : .array b ∈ a.closure) : b.dimension ≤ a.dimension := by
  induction a with
  | typeArray x y t =>
    rw [FakeArrayKlass.closure, List.mem_singleton] at h
    cases h
    exact Nat.le_refl _
  | objArray x y e =>
    rw [FakeArrayKlass.closure, List.mem_cons, List.mem_singleton] at h
    rcases h with h | h
    · cases h
    · cases h
      exact Nat.le_refl _
  | multi x y l ih =>
    rw [FakeArrayKlass.closure, List.mem_append, List.mem_singleton] at h
    rcases h with h | h
    · exact Nat.le_succ_of_le (ih h)
    · cases h
      exact Nat.le_refl _

theorem self_mem_closure (a : FakeArrayKlass) : FakeKlass.array a ∈ a.closure := by
  cases a with
  | typeArray => exact List.mem_cons_self ..
  | objArray => exact List.mem_cons_of_mem _ (List.mem_cons_self ..)
  | multi => exact List.mem_append_right _ (List.mem_cons_self ..)

/-- The last part of `walk_array_klass`: the elements are registered, and the block of the array class is from before. -/
theorem Inv.finishArray {a : FakeArrayKlass} {r₁ : ClassResolver} (h : Inv U done (done.zip r₁.infoById) r₁) (hs : Sane U)
    (hU : U (.array a)) (hk : .array a ∉ done) (hclosed : ∀ c ∈ a.closure, c ∈ done ++ [.array a])
    (helem : ∀ e, a.elem = some e → e ∈ done) (hnot : r.infos.length ∉ r.infoById)
    (hkeeps : Keeps { r with infos := r.infos ++ [arrayDraft a] } r₁) (hcount : done.length < 32748) :
    ∃ r', (r₁.setElem r.infos.length a.elemType (a.elem.elim (-1) fun e => sigId done e.signature)).registerClassInfo
        r.infos.length = .ok (r', minClassId + done.length) ∧
      Inv U (done ++ [.array a]) ((done ++ [FakeKlass.array a]).zip r'.infoById) r' ∧ Keeps r r' := by
  have hlen : (r.infos ++ [arrayDraft a]).length = r.infos.length + 1 := List.length_append
  have hp : r.infos.length ∉ r₁.infoById := hkeeps.unregistered _ (by rw [hlen]; omega) hnot
  have hblock : r₁.infos[r.infos.length]? = some (arrayDraft a) := by
    rw [hkeeps.infos _ (by rw [hlen]; omega) hnot]
    simp
  obtain ⟨r', hreg, hinv, hframe⟩ := h.registerArray hs hU hk hclosed helem hp hblock hcount
  have hle : r.infos.length + 1 ≤ r₁.infos.length := by
    rw [← hlen]
    exact hkeeps.length
  have hold : ∀ q < r.infos.length, q ∉ r.infoById → q ∉ r₁.infoById ∧ r₁.infos[q]? = r.infos[q]? := by
    intro q hq hnotq
    refine ⟨hkeeps.unregistered q (by rw [hlen]; omega) hnotq, ?_⟩
    rw [hkeeps.infos q (by rw [hlen]; omega) hnotq]
    exact List.getElem?_append_left hq
  refine ⟨r', hreg, hinv, ?_, fun q hq hnotq => ?_, fun q hq hnotq => ?_⟩
  · have := hframe.length
    omega
  · exact hframe.unregistered q (by omega) (hold q hq hnotq).1 (by omega)
  · rw [hframe.infos q (by omega) (hold q hq hnotq).1 (by omega)]
    exact (hold q hq hnotq).2

/-- The classes that are registered before the array class. -/
def elements : FakeArrayKlass → List FakeKlass
  | .typeArray _ _ _ => []
  | .objArray _ _ e => [.inst e]
  | .multi _ _ l => l.closure

theorem closure_eq (a : FakeArrayKlass) : a.closure = elements a ++ [.array a] := by
  cases a <;> rfl

theorem elem_mem_elements {a : FakeArrayKlass} {e : FakeKlass} (h : a.elem = some e) : e ∈ elements a := by
  cases a with
  | typeArray => cases h
  | objArray =>
    cases h
    exact List.mem_cons_self ..
  | multi x y l =>
    cases h
    exact self_mem_closure l

theorem notMem_elements (a : FakeArrayKlass) : .array a ∉ elements a := by
  cases a with
  | typeArray => exact List.not_mem_nil
  | objArray x y e =>
    intro hmem
    cases List.mem_singleton.mp hmem
  | multi x y l =>
    intro hmem
    exact absurd (dimension_le_of_mem_closure hmem) (Nat.not_succ_le_self _)

/-- The class of the elements is walked. -/
def walkElem (r : ClassResolver) : FakeArrayKlass → Except Fault (ClassResolver × ℤ)
  | .typeArray _ _ _ => .ok (r, -1)
  | .objArray _ _ e => r.walkKlass e
  | .multi _ _ l => r.walkArrayKlass l

theorem walkArrayKlass_of_some {a : FakeArrayKlass} {info : ClassInfo} (hget : r.getByKlass a.addr = some info) :
    r.walkArrayKlass a = .ok (r, info.id) := by
  cases a with
  | typeArray x y t =>
    rw [FakeArrayKlass.addr] at hget
    rw [walkArrayKlass, hget]
  | objArray x y e =>
    rw [FakeArrayKlass.addr] at hget
    rw [walkArrayKlass, hget]
  | multi x y l =>
    rw [FakeArrayKlass.addr] at hget
    rw [walkArrayKlass, hget]

theorem walkArrayKlass_of_none {a : FakeArrayKlass} {info : ClassInfo} {r₁ : ClassResolver} {id : ℤ}
    (hget : r.getByKlass a.addr = none) (hinfo : fromArrayKlass a = .ok info)
    (hwalk : walkElem { r with infos := r.infos ++ [info] } a = .ok (r₁, id)) :
    r.walkArrayKlass a = (r₁.setElem r.infos.length a.elemType id).registerClassInfo r.infos.length := by
  cases a with
  | typeArray x y t =>
    rw [FakeArrayKlass.addr] at hget
    rw [walkArrayKlass, hget]
    dsimp only
    rw [hinfo, ok_bind]
    cases hwalk
    rfl
  | objArray x y e =>
    rw [FakeArrayKlass.addr] at hget
    rw [walkElem] at hwalk
    rw [walkArrayKlass, hget]
    dsimp only
    rw [hinfo, ok_bind, hwalk, ok_bind]
    rfl
  | multi x y l =>
    rw [FakeArrayKlass.addr] at hget
    rw [walkElem] at hwalk
    rw [walkArrayKlass, hget]
    dsimp only
    rw [hinfo, ok_bind, hwalk, ok_bind]
    rfl

/-- The elements are walked as they should be, so the array class is. -/
theorem Inv.walkArray_of_elem {a : FakeArrayKlass} (h : Inv U done (done.zip r.infoById) r) (hs : Sane U)
    (hU : ∀ c ∈ a.closure, U c) (hcount : (a.closure.foldl enter done).length ≤ 32748)
    (helem : ∀ r₀ : ClassResolver, Inv U done (done.zip r₀.infoById) r₀ → ((elements a).foldl enter done).length ≤ 32748 →
      ∃ r₁, walkElem r₀ a = .ok (r₁, a.elem.elim (-1) fun e => sigId ((elements a).foldl enter done) e.signature) ∧
        Inv U ((elements a).foldl enter done) (((elements a).foldl enter done).zip r₁.infoById) r₁ ∧ Keeps r₀ r₁) :
    ∃ r', r.walkArrayKlass a = .ok (r', sigId (a.closure.foldl enter done) a.signature) ∧
      Inv U (a.closure.foldl enter done) ((a.closure.foldl enter done).zip r'.infoById) r' ∧ Keeps r r' := by
  have hself : U (.array a) := hU _ (self_mem_closure a)
  by_cases hk : .array a ∈ done
  · have hall : ∀ c ∈ a.closure, c ∈ done := h.closed _ hk
    rw [enterAll_of_subset hall]
    exact ⟨r, walkArrayKlass_of_some (h.getByKlass_of_mem hk), h, Keeps.refl r⟩
  · have hclosure : a.closure.foldl enter done = enter ((elements a).foldl enter done) (.array a) := by
      rw [closure_eq, List.foldl_append]
      rfl
    have hnew : .array a ∉ (elements a).foldl enter done := by
      rw [mem_enterAll]
      exact fun hmem => hmem.elim hk (notMem_elements a)
    rw [hclosure, length_enter_of_notMem hnew] at hcount
    obtain ⟨r₁, hwalk, hinv₁, hkeeps⟩ := helem { r with infos := r.infos ++ [arrayDraft a] } (h.allocate (arrayDraft a)) (by omega)
    have hclosed : ∀ c ∈ a.closure, c ∈ (elements a).foldl enter done ++ [.array a] := by
      intro c hc
      rw [closure_eq] at hc
      rcases List.mem_append.mp hc with hc | hc
      · exact List.mem_append_left _ (mem_enterAll.mpr (Or.inr hc))
      · exact List.mem_append_right _ hc
    obtain ⟨r', hreg, hinv', hkeeps'⟩ := hinv₁.finishArray hs hself hnew hclosed
      (fun e he => mem_enterAll.mpr (Or.inr (elem_mem_elements he))) h.notMem_length hkeeps (by omega)
    have hid : sigId (enter ((elements a).foldl enter done) (.array a)) a.signature =
        minClassId + ((elements a).foldl enter done).length := sigId_enter_of_notMem (hinv₁.unknown hs hself hnew) hnew
    rw [hclosure, hid, enter_of_notMem hnew]
    refine ⟨r', ?_, hinv', hkeeps'⟩
    rw [walkArrayKlass_of_none (h.getByKlass_of_notMem hs hself hk) (fromArrayKlass_eq (hs.plain _ hself)) hwalk]
    exact hreg

/-- **`walk_array_klass`.** -/
theorem Inv.walkArrayKlass {a : FakeArrayKlass} (h : Inv U done (done.zip r.infoById) r) (hs : Sane U)
    (hU : ∀ c ∈ a.closure, U c) (hcount : (a.closure.foldl enter done).length ≤ 32748) :
    ∃ r', r.walkArrayKlass a = .ok (r', sigId (a.closure.foldl enter done) a.signature) ∧
      Inv U (a.closure.foldl enter done) ((a.closure.foldl enter done).zip r'.infoById) r' ∧ Keeps r r' := by
  induction a generalizing done r with
  | typeArray x y t => exact h.walkArray_of_elem hs hU hcount fun r₀ h₀ _ => ⟨r₀, rfl, h₀, Keeps.refl r₀⟩
  | objArray x y e =>
    exact h.walkArray_of_elem hs hU hcount fun r₀ h₀ hc => h₀.walkKlass hs (hU _ (List.mem_cons_self ..)) hc
  | multi x y l ih =>
    exact h.walkArray_of_elem hs hU hcount fun r₀ h₀ hc => ih h₀ (fun c hc => hU c (List.mem_append_left _ hc)) hc

/-- **`register_class`**, on a class that is plain. -/
theorem Inv.registerClass (h : Inv U done (done.zip r.infoById) r) (hs : Sane U) (hU : ∀ c ∈ k.closure, U c)
    (hcount : (k.closure.foldl enter done).length ≤ 32748) :
    ∃ r', r.registerClass k = .ok (r', sigId (k.closure.foldl enter done) k.signature) ∧
      Inv U (k.closure.foldl enter done) ((k.closure.foldl enter done).zip r'.infoById) r' := by
  by_cases hk : k ∈ done
  · rw [enterAll_of_subset (h.closed k hk)]
    refine ⟨r, ?_, h⟩
    unfold ClassResolver.registerClass
    rw [h.getByKlass_of_mem hk]
    rfl
  · cases k with
    | inst c =>
      have hUc : U (.inst c) := hU _ (List.mem_cons_self ..)
      obtain ⟨r', hwalk, hinv, -⟩ := h.walkKlass hs hUc hcount
      refine ⟨r', ?_, hinv⟩
      rw [ClassResolver.registerClass, h.getByKlass_of_notMem hs hUc hk]
      exact hwalk
    | array a =>
      obtain ⟨r', hwalk, hinv, -⟩ := h.walkArrayKlass hs hU hcount
      refine ⟨r', ?_, hinv⟩
      rw [ClassResolver.registerClass, h.getByKlass_of_notMem hs (hU _ (self_mem_closure a)) hk]
      exact hwalk

theorem inv_empty (U : FakeKlass → Prop) : Inv U [] [] empty := by
  refine ⟨?_, List.nodup_nil, ?_, rfl, ?_, List.nodup_nil, List.Perm.nil, List.Pairwise.nil, fun sig => rfl, fun sig q => ?_⟩
  · intro k hk
    cases hk
  · intro k hk
    cases hk
  · intro i k p hk
    cases hk
  · constructor
    · intro hq
      cases hq
    · rintro ⟨-, k, f, hk, -⟩
      cases hk

/-- **The registry after calls**, none of which fails. -/
theorem Inv.registerAll {ks : List FakeKlass} (h : Inv U done (done.zip r.infoById) r) (hs : Sane U)
    (hU : ∀ c ∈ ks.flatMap FakeKlass.closure, U c)
    (hcount : ((ks.flatMap FakeKlass.closure).foldl enter done).length ≤ 32748) :
    ∃ r', r.registerAll ks = .ok r' ∧ Inv U ((ks.flatMap FakeKlass.closure).foldl enter done)
      (((ks.flatMap FakeKlass.closure).foldl enter done).zip r'.infoById) r' := by
  induction ks generalizing done r with
  | nil => exact ⟨r, rfl, h⟩
  | cons k ks ih =>
    rw [List.flatMap_cons, List.foldl_append] at hcount
    have hfirst : (k.closure.foldl enter done).length ≤ 32748 := (length_le_enterAll _).trans hcount
    obtain ⟨r₁, hreg, hinv₁⟩ := h.registerClass hs (fun c hc => hU c (List.mem_flatMap.mpr ⟨k, List.mem_cons_self .., hc⟩)) hfirst
    obtain ⟨r', hall, hinv'⟩ := ih hinv₁ (fun c hc => hU c (by rw [List.flatMap_cons]; exact List.mem_append_right _ hc)) hcount
    rw [List.flatMap_cons, List.foldl_append]
    refine ⟨r', ?_, hinv'⟩
    rw [ClassResolver.registerAll, hreg, ok_bind]
    exact hall

/-! ### The registry -/

/-- **What the registry of the classes `done` is to be**. -/
structure Sound (done : List FakeKlass) (r : ClassResolver) : Prop where
  /-- There is one entry for each class. -/
  count : r.infoById.length = done.length
  /-- The ids are the numbers from `MIN_CLASS_ID` on, in the order of registration. -/
  ids : ∀ (i : ℕ) (k : FakeKlass), done[i]? = some k → ∃ info, r.getById (minClassId + i) = some info ∧
    info.id = minClassId + i ∧ info.klass = k.addr ∧ info.signature = k.signature
  /-- `info_by_klass` is a permutation of `info_by_id`. -/
  perm : r.infoByKlass.Perm r.infoById
  /-- It is strictly sorted by the klass. -/
  sorted : SortedBy (klassAt r.infos) r.infoByKlass
  /-- The klass, the id and the signature of a registered class find one entry. -/
  found : ∀ k ∈ done, ∃ info, r.getByKlass k.addr = some info ∧ r.getById info.id = some info ∧
    r.getBySig k.signature = .ok (some info)
  /-- Another klass finds the dummy. -/
  dummyKlass : ∀ a, (∀ k ∈ done, k.addr ≠ a) → r.getByKlass a = none
  /-- Another id finds the dummy. -/
  dummyId : ∀ id, id < minClassId ∨ minClassId + done.length ≤ id → r.getById id = none
  /-- Another signature finds the dummy. -/
  dummySig : ∀ sig, Unknown done sig → r.getBySig sig = .ok none
  /-- A reference field has the id of the class that its signature names, if there is one; if not, it has
  `UNREGISTERED_CLASS_ID`, and waits under its signature and no other. -/
  fields : ∀ c, .inst c ∈ done → c.isEnum = false → ∃ p info, p ∈ r.infoById ∧ r.infos[p]? = some info ∧
    r.getByKlass c.addr = some info ∧ info.fields.length = c.table.length ∧
    ∀ (j : ℕ) (f : FakeFieldInfo) (e : FieldInfo), c.table[j]? = some f → info.fields[j]? = some e → e.type = f.typeD ∧
      (f.isRef = true →
        (∀ k ∈ done, k.signature = f.signature → ∃ target, r.getByKlass k.addr = some target ∧ e.id = target.id) ∧
        (Unknown done f.signature → e.id = unregisteredClassId ∧
          ∀ sig, (p, j) ∈ waiting r.unresolved sig ↔ sig = f.signature))
  /-- Nothing else waits. -/
  waits : ∀ sig q, q ∈ waiting r.unresolved sig → Unknown done sig ∧ ∃ c f, .inst c ∈ done ∧ q.1 ∈ r.infoById ∧
    c.table[q.2]? = some f ∧ f.isRef = true ∧ f.signature = sig
  /-- The element id of an array class is the id of its element class. -/
  elems : ∀ a e, .array a ∈ done → a.elem = some e → ∃ info f target, r.getByKlass a.addr = some info ∧
    info.fields = [f] ∧ r.getByKlass e.addr = some target ∧ f.id = target.id
  /-- Registering a class again changes nothing. -/
  again : ∀ k ∈ done, ∃ id, r.registerClass k = .ok (r, id)

/-- The id of a registered class is its position. -/
theorem Inv.sigId_eq (h : Inv U done pts r) (hs : Sane U) (hk : done[i]? = some k) : sigId done k.signature = minClassId + i := by
  have hmem := List.mem_of_getElem? hk
  cases hfind : done.findIdx? fun k' => k'.signature = k.signature with
  | none => exact absurd rfl (findIdx?_signature_eq_none.mp hfind k hmem)
  | some i' =>
    obtain ⟨hlt, hsig, -⟩ := List.findIdx?_eq_some_iff_getElem.mp hfind
    have heq : done[i'] = k := hs.sig _ k (h.all _ (List.getElem_mem hlt)) (h.all k hmem) (of_decide_eq_true hsig)
    have hget : done[i']? = some k := by rw [List.getElem?_eq_getElem hlt, heq]
    have hi : i' = i := (List.getElem?_inj hlt h.nodup).mp (hget.trans hk.symm)
    rw [sigId, hfind, hi]

theorem Inv.sound (h : Inv U done (done.zip r.infoById) r) (hs : Sane U) : Sound done r := by
  refine ⟨h.length, fun i k hk => ?_, h.perm, h.sorted, fun k hk => ?_, fun a ha => h.getByKlass_eq_none ha,
    fun id hid => h.getById_eq_none hid, fun sig hsig => h.getBySig_of_unknown hsig, fun c hc henum => ?_,
    fun sig q hq => ?_, fun a e ha he => ?_, fun k hk => ?_⟩
  · exact ⟨specInfo done k, h.getById_eq hk, h.sigId_eq hs hk, specInfo_klass done k, specInfo_signature done k⟩
  · obtain ⟨i, hi⟩ := List.getElem?_of_mem hk
    refine ⟨specInfo done k, h.getByKlass_of_mem hk, ?_, h.getBySig_eq hs hk⟩
    rw [show (specInfo done k).id = _ from h.sigId_eq hs hi]
    exact h.getById_eq hi
  · obtain ⟨i, hi⟩ := List.getElem?_of_mem hc
    obtain ⟨p, hp, hblock⟩ := h.block hi
    have hfields : (specInfo done (.inst c)).fields = c.table.map (fieldEntry done c.header) := by
      simp [specInfo, specFields, henum]
    refine ⟨p, specInfo done (.inst c), List.mem_of_getElem? hp, hblock, h.getByKlass_of_mem hc, ?_, fun j f e hf he => ?_⟩
    · rw [hfields, List.length_map]
    · rw [hfields, List.getElem?_map, hf] at he
      cases he
      refine ⟨rfl, fun href => ⟨fun k hk hsig => ?_, fun hunknown => ⟨?_, fun sig => ?_⟩⟩⟩
      · refine ⟨specInfo done k, h.getByKlass_of_mem hk, ?_⟩
        simp [fieldEntry, href, specInfo, hsig]
      · simp [fieldEntry, href, sigId_of_unknown hunknown]
      · rw [h.waits]
        constructor
        · rintro ⟨-, c', f', hc', -, hf', -, rfl⟩
          obtain ⟨i', hi'⟩ := List.getElem?_of_mem hc'
          obtain ⟨hk', hp'⟩ := List.getElem?_zip_eq_some.mp hi'
          obtain ⟨hlt, -⟩ := List.getElem?_eq_some_iff.mp hp
          rw [(List.getElem?_inj hlt h.blocks).mp (hp.trans hp'.symm)] at hi
          cases hi.symm.trans hk'
          rw [hf] at hf'
          cases hf'
          rfl
        · rintro rfl
          refine ⟨hunknown, c, f, ?_, henum, hf, href, rfl⟩
          exact List.mem_of_getElem? (List.getElem?_zip_eq_some.mpr ⟨hi, hp⟩)
  · obtain ⟨hunknown, c, f, hc, -, hrest⟩ := (h.waits sig q).mp hq
    exact ⟨hunknown, c, f, (List.of_mem_zip hc).1, (List.of_mem_zip hc).2, hrest⟩
  · have hin : e ∈ done := h.closed _ ha e (FakeArrayKlass.elem_mem_closure he)
    refine ⟨specInfo done (.array a), _, specInfo done e, h.getByKlass_of_mem ha, rfl, h.getByKlass_of_mem hin, ?_⟩
    simp [he, specInfo]
  · refine ⟨sigId done k.signature, ?_⟩
    unfold ClassResolver.registerClass
    rw [h.getByKlass_of_mem hk]
    rfl

end

/-- **The registry after any sequence of calls** on klasses that are plain and have their own addresses and signatures,
as long as no more than 32748 classes are registered. -/
theorem registry_of_calls (ks : List FakeKlass) (hs : Sane (· ∈ ks.flatMap FakeKlass.closure))
    (hcount : (order ks).length ≤ 32748) : ∃ r, empty.registerAll ks = .ok r ∧ Sound (order ks) r := by
  have hinit : Inv (· ∈ ks.flatMap FakeKlass.closure) [] (([] : List FakeKlass).zip empty.infoById) empty := inv_empty _
  obtain ⟨r, hall, hinv⟩ := hinit.registerAll hs (fun c hc => hc) hcount
  exact ⟨r, hall, hinv.sound hs⟩

/-- A list node: a reference to the next one, and an int. -/
def nodeKlass : FakeInstanceKlass :=
  { addr := 3000, name := sym "Node", super := some (sym "java/lang/Object"), layoutHelper := 24, fieldArrayLength := 12
    fields := [⟨0, sym "LNode;", 4 * 12 + 1, 0, 7, none⟩, ⟨0, sym "I", 4 * 16 + 1, 0, 8, none⟩] }

/-- An array of nodes, then the class of the nodes. -/
def nodeCalls : List FakeKlass := [.array (.objArray 4000 16 nodeKlass), .inst nodeKlass]

theorem nodeKlass_plain : nodeKlass.Plain := by
  refine ⟨by decide, by decide, by decide, fun f hf => ?_, by decide, fun henum => ?_⟩
  · rcases List.mem_cons.mp hf with rfl | hf
    · exact ⟨.object, rfl, Or.inr rfl⟩
    · rw [List.mem_singleton.mp hf]
      exact ⟨.int, rfl, Or.inl rfl⟩
  · exact absurd henum (by decide)

theorem nodeCalls_sane : Sane (· ∈ nodeCalls.flatMap FakeKlass.closure) := by
  have haddr : ∀ k ∈ nodeCalls.flatMap FakeKlass.closure, ∀ k' ∈ nodeCalls.flatMap FakeKlass.closure,
      k.addr = k'.addr → k = k' := by decide
  have hsig : ∀ k ∈ nodeCalls.flatMap FakeKlass.closure, ∀ k' ∈ nodeCalls.flatMap FakeKlass.closure,
      k.signature = k'.signature → k = k' := by decide
  refine ⟨fun k k' hk hk' => haddr k hk k' hk', fun k k' hk hk' => hsig k hk k' hk', fun k hk => ?_⟩
  have hmem : k ∈ [.inst nodeKlass, .array (.objArray 4000 16 nodeKlass), .inst nodeKlass] := hk
  simp only [List.mem_cons, List.not_mem_nil, or_false] at hmem
  rcases hmem with rfl | rfl | rfl
  · exact nodeKlass_plain
  · show (FakeArrayKlass.objArray 4000 16 nodeKlass).signature.length < maxSignatureLength
    decide
  · exact nodeKlass_plain

theorem registry_of_calls_node :
    order nodeCalls = [.inst nodeKlass, .array (.objArray 4000 16 nodeKlass)] ∧
      ∃ r, empty.registerAll nodeCalls = .ok r ∧ Sound (order nodeCalls) r :=
  ⟨by decide, registry_of_calls nodeCalls nodeCalls_sane (by decide)⟩

/-- `java.lang.Class`: a Java field, and the field `klass` that the JVM injects. -/
def classKlass : FakeInstanceKlass :=
  { addr := 5000, name := sym "java/lang/Class", super := some (sym "java/lang/Object"), layoutHelper := 96
    fieldArrayLength := 12
    fields := [⟨0, sym "Ljava/lang/String;", 4 * 12 + 1, 0, 9, none⟩, ⟨0x400, sym "J", 4 * 64 + 1, 0, 0, none⟩] }

/-- **An injected field makes the registration fail**: it is counted, but not collected. -/
theorem registry_fails :
    classKlass.name.length + 2 < maxSignatureLength ∧ empty.registerAll [.inst classKlass] = .error .badAccess ∧
      ¬ ∃ r, empty.registerAll [.inst classKlass] = .ok r ∧ Sound (order [.inst classKlass]) r := by
  have hfail : empty.registerAll [.inst classKlass] = .error .badAccess := by decide
  refine ⟨by decide, hfail, ?_⟩
  rintro ⟨r, hr, -⟩
  rw [hfail] at hr
  cases hr

end ClassResolver

end DShuffle.Serde
