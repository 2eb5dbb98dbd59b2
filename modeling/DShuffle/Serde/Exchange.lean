import DShuffle.Serde.Peers

/-!
# What arrives at another process

`Peers` says that a receiver whose ids agree with the sender's reads a stream as its
own. This module is about every other receiver too: what it reads is of the class that
the id finds there, so if it is of the class that was sent, the id is the same.

## The model

`Arrives` is what the exchange of an object is for: the receiver reads it to the end,
and what it has then is the tree, down to the elements of its arrays.

## What is proved

* `signature_of_makes` — what is read for an id is never of another class than the id
  finds.
* `agrees_of_parse` — so where what is read is the tree, the ids agree.
* `arrives_iff` — an object arrives exactly when every class of its tree has one id at
  both sides, no enum constant occurs twice in it, and its arrays are intact.
-/

namespace DShuffle.Serde

open Base

namespace ObjectReviver

variable {v : ObjectReviver} {rec : Parse}

/-! ### What a run that succeeds did -/

/-- The values that the loops over fields and over elements store: each is read, stored if it may be, and the
reference to it is deleted. -/
def ReadAll (rec : Parse) (takes : Value → Bool) : State → List Value → State → Prop
  | s, [], s' => s' = s
  | s, x :: xs, s' => ∃ id h s₁, rec id s = .ok (h, s₁) ∧
      x = (if takes (s₁.env.resolve h) then s₁.env.resolve h else .null) ∧
      ReadAll rec takes { s₁ with env :=
        (if takes (s₁.env.resolve h) then s₁.env else { s₁.env with exception := true }).deleteLocalRef h } xs s'

theorem parseFields_ok {base k : ℕ} {fs : List FieldInfo} {prims : List (ℕ × Bytes)} {ids : List ℕ} {refs : List Value}
    {s s' : State} {obj : Value} (hnew : ∀ f ∈ fs, f.jFieldId ∉ ids) (hids : (fs.map (·.jFieldId)).Nodup)
    (h : parseFields rec base fs (.object k prims ids refs) s = .ok (obj, s')) :
    ∃ prims' ids' vs, obj = .object k prims' ids' (refs ++ vs) ∧ ReadAll rec (fun _ => true) s vs s' := by
  induction fs generalizing prims ids refs s with
  | nil =>
    rw [parseFields] at h
    cases h
    exact ⟨prims, ids, [], by rw [List.append_nil], rfl⟩
  | cons f fs ih =>
    rw [List.map_cons, List.nodup_cons] at hids
    have hnew' : ∀ g ∈ fs, g.jFieldId ∉ ids := fun g hg => hnew g (List.mem_cons_of_mem _ hg)
    rw [parseFields] at h
    by_cases hp : f.type.isPrimitive = true
    · rw [if_pos hp, Value.setPrim] at h
      exact ih hnew' hids.2 h
    · rw [if_neg hp] at h
      by_cases hr : f.type.isReference = true
      · rw [if_pos hr] at h
        obtain ⟨⟨x, s₁⟩, hread, h⟩ := bind_eq_ok h
        simp only [Value.setRef, if_neg (hnew f List.mem_cons_self)] at h
        have hnext : ∀ g ∈ fs, g.jFieldId ∉ ids ++ [f.jFieldId] := by
          intro g hg hmem
          rcases List.mem_append.mp hmem with hmem | hmem
          · exact hnew' g hg hmem
          · rw [List.mem_singleton] at hmem
            exact hids.1 (hmem ▸ List.mem_map_of_mem hg)
        obtain ⟨prims', ids', vs, hobj, hall⟩ := ih hnext hids.2 h
        refine ⟨prims', ids', s₁.env.resolve x :: vs, ?_, f.id, x, s₁, hread, rfl, hall⟩
        rw [hobj, List.append_assoc]
        rfl
      · rw [if_neg hr] at h
        exact ih hnew' hids.2 h

/-- The loop over the fields leaves the klass of the object. -/
theorem parseFields_object {base k : ℕ} {fs : List FieldInfo} {prims : List (ℕ × Bytes)} {ids : List ℕ} {refs : List Value}
    {s s' : State} {obj : Value} (h : parseFields rec base fs (.object k prims ids refs) s = .ok (obj, s')) :
    ∃ prims' ids' refs', obj = .object k prims' ids' refs' := by
  induction fs generalizing prims ids refs s with
  | nil =>
    rw [parseFields] at h
    cases h
    exact ⟨prims, ids, refs, rfl⟩
  | cons f fs ih =>
    rw [parseFields] at h
    by_cases hp : f.type.isPrimitive = true
    · rw [if_pos hp, Value.setPrim] at h
      exact ih h
    · rw [if_neg hp] at h
      by_cases hr : f.type.isReference = true
      · rw [if_pos hr] at h
        obtain ⟨⟨x, s₁⟩, -, h⟩ := bind_eq_ok h
        simp only [Value.setRef] at h
        by_cases hin : f.jFieldId ∈ ids
        · rw [if_pos hin] at h
          exact ih h
        · rw [if_neg hin] at h
          exact ih h
      · rw [if_neg hr] at h
        exact ih h

theorem parseElems_ok {k n i : ℕ} {id : ℤ} (done : List Value) {elems : List Value} {s s' : State} (hdone : done.length = i)
    (h : v.parseElems rec k id n i (done ++ List.replicate n .null) s = .ok (elems, s')) :
    ∃ vs, elems = done ++ vs ∧ ReadAll rec (v.jvm.admits k) s vs s' := by
  induction n generalizing i done s with
  | zero =>
    rw [parseElems] at h
    cases h
    exact ⟨[], rfl, rfl⟩
  | succ n ih =>
    rw [parseElems] at h
    obtain ⟨⟨x, s₁⟩, hread, h⟩ := bind_eq_ok h
    -- what is stored at `i`, or the null that stays there
    have hset : ∀ y, (done ++ List.replicate (n + 1) Value.null).set i y = (done ++ [y]) ++ List.replicate n .null := by
      intro y
      subst hdone
      rw [List.replicate_succ, List.set_append_right _ _ (Nat.le_refl _), Nat.sub_self, List.set_cons_zero,
        List.append_assoc, List.singleton_append]
    have hnull : done ++ List.replicate (n + 1) Value.null = (done ++ [.null]) ++ List.replicate n .null := by
      rw [List.replicate_succ, List.append_assoc, List.singleton_append]
    have hlen : ∀ y : Value, (done ++ [y]).length = i + 1 := by
      intro y
      rw [List.length_append, hdone]
      rfl
    by_cases hadm : v.jvm.admits k (s₁.env.resolve x) = true
    · simp only [setElement, if_pos hadm, hset] at h
      obtain ⟨vs, helems, hall⟩ := ih _ (hlen _) h
      refine ⟨s₁.env.resolve x :: vs, ?_, id, x, s₁, hread, by rw [if_pos hadm], ?_⟩
      · rw [helems, List.append_assoc]
        rfl
      · rw [if_pos hadm]
        exact hall
    · simp only [setElement, if_neg hadm, hnull] at h
      obtain ⟨vs, helems, hall⟩ := ih _ (hlen _) h
      refine ⟨.null :: vs, ?_, id, x, s₁, hread, by rw [if_neg hadm], ?_⟩
      · rw [helems, List.append_assoc]
        rfl
      · rw [if_neg hadm]
        exact hall

theorem doParseObject_ok {j : ClassInfo} {m : Mem} {off : ℕ} {e : JEnv} {h : Handle} {s : State}
    (hr : v.doParseObject rec j (stateAt m off e) = .ok (h, s)) :
    ∃ obj, parseFields rec (upperAlign off 8) j.fields (.object j.klass [] [] [])
        (stateAt m (upperAlign off 8 + j.objectBodySize) e.newLocal) = .ok (obj, s) ∧ h = .loc e.nLocals obj := by
  rw [doParseObject] at hr
  by_cases ha : v.jvm.allocObject j.klass = false
  · simp only [if_pos ha] at hr
    cases hr
  · simp only [if_neg ha] at hr
    obtain ⟨⟨obj, s₁⟩, hfields, hr⟩ := bind_eq_ok hr
    obtain ⟨-, -, hr⟩ := bind_eq_ok hr
    cases hr
    exact ⟨obj, hfields, rfl⟩

theorem doParseArray_ok {j : ClassInfo} {m : Mem} {off : ℕ} {e : JEnv} {h : Handle} {s : State}
    (hr : v.doParseArray rec j (stateAt m off e) = .ok (h, s)) :
    ∃ f, j.elem = .ok f ∧
      ((f.type.isPrimitive = true ∧ ∃ n contents, h = .loc e.nLocals (.typeArray f.type n contents)) ∨
        (f.type.isReference = true ∧ ∃ c elems, v.r.getById f.id = some c ∧
          v.parseElems rec c.klass f.id (ofLe (read m off 4)) 0 (List.replicate (ofLe (read m off 4)) .null)
            (stateAt m (upperAlign (off + 4) 8) e.newLocal) = .ok (elems, s) ∧
          h = .loc e.nLocals (.objArray c.klass elems))) := by
  rw [doParseArray] at hr
  obtain ⟨f, hf, hr⟩ := bind_eq_ok hr
  refine ⟨f, hf, ?_⟩
  by_cases hp : f.type.isPrimitive = true
  · rw [if_pos hp] at hr
    refine Or.inl ⟨hp, ?_⟩
    split_ifs at hr with ha
    · cases hr
    · obtain ⟨⟨contents, b⟩, -, hr⟩ := bind_eq_ok hr
      obtain ⟨-, -, hr⟩ := bind_eq_ok hr
      cases hr
      exact ⟨_, contents, rfl⟩
  · rw [if_neg hp] at hr
    cases hc : v.r.getById f.id with
    | none =>
      rw [hc] at hr
      cases hr
    | some c =>
      rw [hc] at hr
      simp only at hr
      by_cases href : f.type.isReference = true
      · simp only [if_pos href] at hr
        split_ifs at hr with ha
        · cases hr
        · obtain ⟨⟨elems, s₁⟩, helems, hr⟩ := bind_eq_ok hr
          obtain ⟨-, -, hr⟩ := bind_eq_ok hr
          cases hr
          exact Or.inr ⟨href, c, elems, rfl, helems, rfl⟩
      · simp only [if_neg href] at hr
        split_ifs at hr with ha
        cases hr

/-! ### Of which class it is -/

/-- What a record of the class `j` may be read as. -/
inductive Makes (r : ClassResolver) (j : ClassInfo) : Value → Prop where
  /-- A constant of the enum. -/
  | enumConst (n : ℕ) : Makes r j (.enumConst j.klass n)
  /-- The sentinel, where the reference to the constant was deleted. -/
  | deleted : Makes r j .deleted
  /-- An object of the class. -/
  | object (prims : List (ℕ × Bytes)) (ids : List ℕ) (refs : List Value) : Makes r j (.object j.klass prims ids refs)
  /-- An array of primitive values. -/
  | typeArray (f : FieldInfo) (n : ℕ) (contents : Bytes) (array : j.isArray = true) (elem : j.elem = .ok f)
      (prim : f.type.isPrimitive = true) : Makes r j (.typeArray f.type n contents)
  /-- An array of references. -/
  | objArray (f : FieldInfo) (c : ClassInfo) (elems : List Value) (array : j.isArray = true) (elem : j.elem = .ok f)
      (ref : f.type.isReference = true) (found : r.getById f.id = some c) : Makes r j (.objArray c.klass elems)

/-- What is never of another class than `j`: it has one signature with what was sent. -/
theorem signature_of_makes {r₁ : ClassResolver} (hr₁ : r₁.Regular) {r : ClassResolver} (hr : r.Regular) {j : ClassInfo}
    (hj : r.Has j) {x : Value} (hx : Makes r j x) {t : Tree} {i : ClassInfo} (ho : t.Over r₁) (hi : t.infos.head? = some i)
    (hm : Matches r x t) : j.signature = i.signature := by
  cases t with
  | null => cases hi
  | enumConst i' ordinal =>
    cases hi
    obtain ⟨k, rfl, j', hj', hsig⟩ := hm
    cases hx
    rw [ClassResolver.Has, hj'] at hj
    cases hj
    exact hsig
  | object i' body ms =>
    cases hi
    obtain ⟨k, j', refs, hj', hsig, -, rfl, -⟩ := hm
    cases hx
    rw [ClassResolver.Has, hj'] at hj
    cases hj
    exact hsig
  | refArray i' es =>
    cases hi
    obtain ⟨k, c', xs, hc', hsig, rfl, -⟩ := hm
    cases hx with
    | objArray f c elems ha hf href hc =>
      obtain ⟨c'', hc'', hsig'⟩ := hr.wellFormed.elem j f hj ha hf href
      have hhas := hr.wellFormed.byKlass _ _ hc
      rw [ClassResolver.Has, hc'] at hhas
      cases hhas
      rw [hc] at hc''
      cases hc''
      rw [hsig', hsig]
  | primArray i' n contents =>
    cases hi
    obtain ⟨hi', -, ha', ⟨f', hf', hp', -⟩, -⟩ := ho
    obtain ⟨contents', rfl⟩ := hm
    generalize hty : i.elemType = ty at hx
    cases hx with
    | typeArray f n contents ha hf hp =>
      rw [(ClassInfo.elem_ok hf').1] at hty
      rw [hr.letters j f hj ha hf hp, hr₁.letters i f' hi' ha' hf' hp', hty]

/-- The enum tables are right, but for references that were deleted. -/
def Kept (e : JEnv) (r : ClassResolver) : Prop :=
  ∀ i ordinal c, r.Has i → i.getEnum ordinal = .ok c →
    e.globals c.handle = .enumConst i.klass ordinal ∨ e.globals c.handle = .deleted

theorem makes_of_parseRecord {id : ℤ} {j : ClassInfo} {m : Mem} {off : ℕ} {e : JEnv} {h : Handle} {s : State}
    (hr : v.r.Regular) (hj : v.r.getById id = some j) (hk : Kept e v.r)
    (hrec : v.parseRecord rec j (stateAt m off e) = .ok (h, s)) : Makes v.r j (s.env.resolve h) := by
  rw [parseRecord] at hrec
  by_cases he : j.isEnum = true
  · rw [if_pos he] at hrec
    obtain ⟨c, hc, hrec⟩ := bind_eq_ok hrec
    cases hrec
    show Makes v.r j (e.globals c.handle)
    rcases hk j _ c (hr.wellFormed.byKlass _ _ hj) hc with hg | hg
    · rw [hg]
      exact Makes.enumConst _
    · rw [hg]
      exact Makes.deleted
  · rw [if_neg he] at hrec
    by_cases ho : j.isObject = true
    · rw [if_pos ho] at hrec
      obtain ⟨obj, hfields, rfl⟩ := doParseObject_ok hrec
      obtain ⟨prims, ids, refs, rfl⟩ := parseFields_object hfields
      exact Makes.object prims ids refs
    · rw [if_neg ho] at hrec
      by_cases ha : j.isArray = true
      · rw [if_pos ha] at hrec
        obtain ⟨f, hf, ⟨hp, n, contents, rfl⟩ | ⟨href, c, elems, hc, -, rfl⟩⟩ := doParseArray_ok hrec
        · exact Makes.typeArray f n contents ha hf hp
        · exact Makes.objArray f c elems ha hf href hc
      · rw [if_neg ha] at hrec
        cases hrec

/-- Rebuilding a member and deleting the reference to it keeps the tables so. -/
theorem Kept.rebuild {e e' : JEnv} {h : Handle} {t : Tree} (hk : Kept e v.r) (hr : v.rebuild t e = .ok (h, e')) (b : Bool) :
    Kept ((if b then e' else { e' with exception := true }).deleteLocalRef h) v.r := by
  intro i ordinal c hi hc
  rw [globals_deleteLocalRef_ite, rebuild_globals t hr]
  by_cases hg : c.handle ∈ t.handles
  · rw [if_pos hg]
    exact Or.inr rfl
  · rw [if_neg hg]
    exact hk i ordinal c hi hc

/-! ### Where the tree is read, the ids agree -/

/-- Where `rec` reads a stream of the tree as the tree, the ids agree. -/
def Discerns (v : ObjectReviver) (rec : Parse) (t : Tree) : Prop :=
  ∀ m off eid e h s, Stream v.o v.simdutf m off t → Kept e v.r → rec eid (stateAt m off e) = .ok (h, s) →
    Matches v.r (s.env.resolve h) t → t.Agrees v.r

theorem eq_null_of_matches {r : ClassResolver} {t : Tree} (h : Matches r .null t) : t = .null := by
  cases t with
  | null => rfl
  | enumConst i ordinal => obtain ⟨k, hk, -⟩ := h; cases hk
  | object i body ms => obtain ⟨k, j, refs, -, -, -, hk, -⟩ := h; cases hk
  | refArray i es => obtain ⟨k, j, xs, -, -, hk, -⟩ := h; cases hk
  | primArray i n contents => obtain ⟨c, hk⟩ := h; cases hk

/-- The members, one after the other: once the ids of the first agree, it was read to its end, and the next one
starts there. -/
theorem agreesAll_of_readAll {takes : Value → Bool} (hnull : takes .null = true) {m : Mem} {s' : State} {ts : List Tree} {off : ℕ}
    {e : JEnv} {vs : List Value} (hread : ∀ t ∈ ts, t.Agrees v.r → v.ReadsAs rec t) (hdis : ∀ t ∈ ts, v.Discerns rec t)
    (hs : StreamAll v.o v.simdutf m off ts) (hk : Kept e v.r) (hall : ReadAll rec takes (stateAt m off e) vs s')
    (hm : MatchesAll v.r vs ts) : AgreesAll v.r ts := by
  induction ts generalizing off e vs with
  | nil => exact fun i hi => absurd hi List.not_mem_nil
  | cons t ts ih =>
    obtain ⟨x, xs, rfl, hmt, hmts⟩ := hm
    obtain ⟨id, h, s₁, hrec, hx, hall⟩ := hall
    have ht : t.Agrees v.r ∧ takes (s₁.env.resolve h) = true := by
      by_cases htk : takes (s₁.env.resolve h) = true
      · rw [hx, if_pos htk] at hmt
        exact ⟨hdis t List.mem_cons_self m off id e h s₁ hs.1 hk hrec hmt, htk⟩
      · -- a member that was refused left a null, and a null is never refused
        rw [hx, if_neg htk] at hmt
        obtain rfl := eq_null_of_matches hmt
        have hnone : Tree.null.Agrees v.r := fun i hi => absurd hi List.not_mem_nil
        have hq := hread .null List.mem_cons_self hnone m off id e hs.1
        rw [hrec, Tree.peer, reread, rebuild] at hq
        cases hq
        exact absurd hnull htk
    have hq := hread t List.mem_cons_self ht.1 m off id e hs.1
    rw [hrec] at hq
    cases hreb : v.rebuild (reread v.o v.simdutf m off (t.peer v.r)) e with
    | error err =>
      rw [hreb] at hq
      cases hq
    | ok y =>
      obtain ⟨h', e₁⟩ := y
      rw [hreb] at hq
      cases hq
      exact AgreesAll.cons ht.1 (ih (fun t ht => hread t (List.mem_cons_of_mem _ ht))
        (fun t ht => hdis t (List.mem_cons_of_mem _ ht)) hs.2 (hk.rebuild hreb _) hall hmts)

/-- The record at the head of a stream is read as one of the peer's, which has the id. -/
theorem peer_of_parse {r₁ : ClassResolver} (hr₁ : r₁.Regular) (hr : v.r.Regular) (hp : r₁.Peers v.r) {t : Tree} {i : ClassInfo}
    (ho : t.Over r₁) (hhead : t.infos.head? = some i) {m : Mem} {off k : ℕ} {eid : ℤ} {e : JEnv} {h : Handle} {s : State}
    (h₁ : ofLe (read m (upperAlign off 8) 2) = ofLe (leInt16 i.id)) (h₂ : ofLe (read m (upperAlign off 8 + 2) 2) = k)
    (hk₁ : isNullF k = false) (hk₂ : isRedirectF k = false) (hk : Kept e v.r)
    (hparse : v.parseStep rec eid (stateAt m off e) = .ok (h, s)) (hm : Matches v.r (s.env.resolve h) t) :
    (v.r.peer i).id = i.id ∧ v.parseRecord rec (v.r.peer i) (stateAt m (upperAlign off 8 + 4) e) = .ok (h, s) := by
  have hi : r₁.Has i := has_of_mem_infos t ho i (List.mem_of_mem_head? hhead)
  rw [parseStep_of_head rec h₁ h₂ hk₁ hk₂, hr₁.wellFormed.range i hi] at hparse
  cases hj : v.r.getById i.id with
  | none =>
    rw [hj] at hparse
    cases hparse
  | some j =>
    rw [hj] at hparse
    have hjHas := hr.wellFormed.byKlass _ _ hj
    have hsig := signature_of_makes hr₁ hr hjHas (makes_of_parseRecord hr hj hk hparse) ho hhead hm
    rw [← hp.eq_peer hr hi hjHas hsig]
    exact ⟨hr.idOf _ _ hj, hparse⟩

/-- **Where what is read is the tree, the ids agree**: the record's class is the one that the id finds, and its members
follow by induction. -/
theorem agrees_of_parse {r₁ : ClassResolver} (hr₁ : r₁.Regular) (hr : v.r.Regular) (hp : r₁.Peers v.r) {fuel : ℕ} {t : Tree}
    (ho : t.Over r₁) (hl : t.LaidAt v.r) (hf : t.height < fuel) : v.Discerns (v.parse fuel) t := by
  induction fuel generalizing t with
  | zero => exact absurd hf (Nat.not_lt_zero _)
  | succ fuel ih =>
    have hall : ∀ ts : List Tree, (∀ i ∈ infosAll ts, i.isEnum = false → i.isObject = true → (v.r.peer i).Laid) →
        heightAll ts < fuel → OverAll r₁ ts →
        (∀ t ∈ ts, t.Agrees v.r → v.ReadsAs (v.parse fuel) t) ∧ ∀ t ∈ ts, v.Discerns (v.parse fuel) t := by
      intro ts hls hts hov
      have hlaid : ∀ t ∈ ts, t.LaidAt v.r := fun t ht i hi => hls i (mem_infosAll ht hi)
      have hheight : ∀ t ∈ ts, t.height < fuel := fun t ht => (height_le_heightAll ht).trans_lt hts
      exact ⟨fun t ht => parse_of_agrees hp hr (overAll_mem hov ht) (hlaid t ht) (hheight t ht),
        fun t ht => ih (overAll_mem hov ht) (hlaid t ht) (hheight t ht)⟩
    intro m off eid e h s hs hk hparse hm
    have hal := upperAlign_mod off
    rw [parse] at hparse
    cases t with
    | null => exact fun i hi => absurd hi List.not_mem_nil
    | enumConst i ordinal =>
      obtain ⟨h₁, h₂, -⟩ := head_eq hs (by decide) ho.2.2.1 rfl
      have hid := (peer_of_parse hr₁ hr hp ho rfl h₁ h₂ (by decide) (by decide) hk hparse hm).1
      intro i' hi'
      rw [List.mem_singleton.mp hi']
      exact hid
    | object i body ms =>
      obtain ⟨hhead, -, hstream⟩ := hs
      obtain ⟨h₁, h₂⟩ := read_append hhead
      simp only [length_leInt16, length_le] at h₁ h₂
      obtain ⟨hid, hrec⟩ := peer_of_parse hr₁ hr hp ho rfl (congrArg ofLe h₁) (congrArg ofLe h₂) (by decide) (by decide) hk
        hparse hm
      obtain ⟨hi, he, hob, hbody, -, -, hov⟩ := ho
      have hlike := hp.like i hi
      rw [parseRecord_of_object (hlike.isEnum.trans he) (hlike.isObject.trans hob)] at hrec
      obtain ⟨obj, hfields, rfl⟩ := doParseObject_ok hrec
      have hlaid := hl i (List.mem_cons_self ..) he hob
      obtain ⟨prims, ids, vs, rfl, hread⟩ := parseFields_ok (fun f _ => List.not_mem_nil) hlaid.ids hfields
      have hms : MatchesAll _ vs ms := hm.refs
      have hbase : upperAlign (upperAlign off 8 + 4) 8 + (v.r.peer i).objectBodySize = upperAlign off 8 + 8 + body.length := by
        rw [upperAlign_add 4 hal, hlike.body, hbody]
        rfl
      rw [hbase] at hread
      obtain ⟨hreads, hdis⟩ := hall ms (fun j hj => hl j (List.mem_cons_of_mem _ hj)) (by rw [Tree.height] at hf; omega) hov
      have hrest := agreesAll_of_readAll rfl hreads hdis hstream (e := e.newLocal) hk hread hms
      intro i' hi'
      rcases List.mem_cons.mp hi' with rfl | hi'
      · exact hid
      · exact hrest i' hi'
    | refArray i es =>
      obtain ⟨hhead, hstream⟩ := hs
      obtain ⟨h₁, h₂, h₃⟩ := head_eq hhead (by decide) (by have := ho.2.2.2.2.1; omega) rfl
      obtain ⟨hid, hrec⟩ := peer_of_parse hr₁ hr hp ho rfl h₁ h₂ (by decide) (by decide) hk hparse hm
      obtain ⟨hi, he, harr, -, -, hov⟩ := ho
      have hlike := hp.like i hi
      rw [parseRecord_of_array (hlike.isEnum.trans he) (hlike.isArray.trans harr)] at hrec
      obtain ⟨k, j, xs, -, -, hx, hms⟩ := hm
      obtain ⟨f, hf', ⟨-, n, contents, rfl⟩ | ⟨-, c, elems, -, helems, rfl⟩⟩ := doParseArray_ok hrec
      · cases hx
      · cases hx
        obtain ⟨vs, rfl, hread⟩ := parseElems_ok [] rfl helems
        have hbase : upperAlign (upperAlign off 8 + 4 + 4) 8 = upperAlign off 8 + 8 := upperAlign_of_mod (by omega)
        rw [hbase] at hread
        obtain ⟨hreads, hdis⟩ := hall es (fun j hj => hl j (List.mem_cons_of_mem _ hj)) (by rw [Tree.height] at hf; omega) hov
        have hrest := agreesAll_of_readAll (show v.jvm.admits c.klass .null = true from rfl) hreads hdis hstream
          (e := e.newLocal) hk hread hms
        intro i' hi'
        rcases List.mem_cons.mp hi' with rfl | hi'
        · exact hid
        · exact hrest i' hi'
    | primArray i n contents =>
      obtain ⟨hhead, -⟩ := hs
      obtain ⟨h₁, h₂, -⟩ := head_eq hhead (by decide) (by have := ho.2.2.2.2; omega) rfl
      have hid := (peer_of_parse hr₁ hr hp ho rfl h₁ h₂ (by decide) (by decide) hk hparse hm).1
      intro i' hi'
      rw [List.mem_singleton.mp hi']
      exact hid

end ObjectReviver

/-! ### What arrives -/

open ObjectReviver

/-- The reader of another process: its own JVM and class resolver, the options and the transcoder of the writer. -/
def ObjectWalker.receiver (w : ObjectWalker) (jvm : Jvm) (r : ClassResolver) : ObjectReviver := ⟨jvm, r, w.o, w.simdutf⟩

/-- **The object arrives**: `walk` writes it at the cursor of `b`; the other process, which has the resolver `r`, runs
`parse` from there over what was written; it returns, with its cursor where the walker's ended, and what it returns
unfolds to the tree, with the same elements in every array. -/
def Arrives (w : ObjectWalker) (jvm : Jvm) (r : ClassResolver) (e : JEnv) (fuel a : ℕ) (eid eid' : ℤ) (b : RWBuffer)
    (t : Tree) : Prop :=
  ∃ base b' h s, w.walk fuel a eid b = .ok (base, b') ∧
    (w.receiver jvm r).parse fuel eid' (stateAt b'.data b.off e) = .ok (h, s) ∧
    s.b.off = b'.off ∧ Matches r (s.env.resolve h) t ∧ Holds (s.env.resolve h) t

section
variable {w : ObjectWalker} {jvm : Jvm} {r : ClassResolver} {e : JEnv} {fuel a : ℕ} {eid eid' : ℤ} {b : RWBuffer} {t : Tree}

/-- What the walker writes is a stream of the tree. -/
theorem walk_stream (hs : w.r.Slotted) (hu : Unfolds w.heap w.r a t) (hf : t.height < fuel) (eid : ℤ) (b : RWBuffer) :
    ∃ base b', w.walk fuel a eid b = .ok (base, b') ∧ Stream w.o w.simdutf b'.data b.off t ∧
      endOff w.o w.simdutf b.off t = b'.off := by
  obtain ⟨b', hwalk, hem⟩ := ObjectWalker.walk_emits hs hf a eid b hu
  obtain ⟨hstream, hend⟩ := stream_of_encode hs t (over_of_unfolds hs t hu) hem.read_all
  rw [← hem.off] at hend
  exact ⟨_, b', hwalk, hstream, hend⟩

/-- The receiver reads the stream as its own, where the ids agree. -/
theorem parse_receiver (jvm : Jvm) (hr : r.Regular) (hp : w.r.Peers r) (ho : t.Over w.r) (hl : t.LaidAt r)
    (hf : t.height < fuel) (ha : t.Agrees r) {m : Mem} {off : ℕ} (eid : ℤ) (e : JEnv) (hs : Stream w.o w.simdutf m off t) :
    (w.receiver jvm r).parse fuel eid (stateAt m off e) =
      ((w.receiver jvm r).rebuild (reread w.o w.simdutf m off (t.peer r)) e).map fun x =>
        (x.1, stateAt m (endOff w.o w.simdutf off t) x.2) :=
  parse_of_agrees (v := w.receiver jvm r) hp hr ho hl hf ha m off eid e hs

/-- What is rebuilt at the other side is the tree, and holds it, when its arrays are intact. -/
theorem holds_iff_intact (hp : w.r.Peers r) (hc : w.simdutf.Conforms) (ho : t.Over w.r) (hshort : t.Short) {m : Mem}
    {off : ℕ} (hs : Stream w.o w.simdutf m off t) (ha : t.Agrees r) {h : Handle} {e' : JEnv}
    (hreb : (w.receiver jvm r).rebuild (reread w.o w.simdutf m off (t.peer r)) e = .ok (h, e'))
    (hm : Matches r (e'.resolve h) t) : Holds (e'.resolve h) t ↔ t.Intact w.o := by
  have hmr : Matches r (e'.resolve h) (reread w.o w.simdutf m off (t.peer r)) :=
    (matches_reread _ off).mpr ((matches_peer hp t ho).mpr hm)
  have hhold := holds_of_rebuild _ hreb hmr
  have hpeer : Holds (e'.resolve h) (t.peer r) ↔ Holds (e'.resolve h) t := holds_peer t
  rw [← hpeer, holds_reread_iff hhold,
    reread_eq_iff hc _ (over_peer hp t ho) (short_peer hp t ho hshort) (stream_peer hp t ho ha hs), intact_peer hp t ho]

end

/-- **When an object arrives**: exactly when every class of its tree has one id in both processes, no enum constant
occurs twice in the tree, and its arrays are intact. -/
theorem arrives_iff (w : ObjectWalker) (jvm : Jvm) (r : ClassResolver) (e : JEnv) (hs : w.r.Slotted) (hr₁ : w.r.Regular)
    (hr : r.Regular) (hp : w.r.Peers r) (hc : w.simdutf.Conforms) (hj : jvm.Allocates) (he : e.Fresh r) (a : ℕ) (t : Tree)
    (hu : Unfolds w.heap w.r a t) (hl : t.LaidAt r) (hst : (t.peer r).Storable jvm r) (hshort : t.Short) (b : RWBuffer)
    (eid eid' : ℤ) (fuel : ℕ) (hf : t.height < fuel) :
    Arrives w jvm r e fuel a eid eid' b t ↔ t.Agrees r ∧ t.enumConsts.Nodup ∧ t.Intact w.o := by
  have ho := over_of_unfolds hs t hu
  obtain ⟨base, b', hwalk, hstream, hend⟩ := walk_stream hs hu hf eid b
  have hkept : Kept e r := fun i ordinal c hi hg => Or.inl (he.enums i ordinal c hi hg)
  constructor
  · rintro ⟨base', b'', h, s, hwalk', hparse, -, hm, hhold⟩
    rw [hwalk] at hwalk'
    cases hwalk'
    have ha : t.Agrees r := agrees_of_parse (v := w.receiver jvm r) hr₁ hr hp ho hl hf b'.data b.off eid' e h s
      hstream hkept hparse hm
    rw [parse_receiver jvm hr hp ho hl hf ha eid' e hstream] at hparse
    cases hreb : (w.receiver jvm r).rebuild (reread w.o w.simdutf b'.data b.off (t.peer r)) e with
    | error err =>
      rw [hreb] at hparse
      cases hparse
    | ok y =>
      obtain ⟨h', e'⟩ := y
      rw [hreb] at hparse
      cases hparse
      have hmr : Matches r (e'.resolve h') (reread w.o w.simdutf b'.data b.off (t.peer r)) :=
        (matches_reread _ b.off).mpr ((matches_peer hp t ho).mpr hm)
      have hnd := (nodup_of_rebuild _ hreb hmr).2
      rw [Tree.handles, enumConsts_reread] at hnd
      exact ⟨ha, (nodup_enumConsts_peer hp hr₁ ho).mp (List.Nodup.of_map _ hnd),
        (holds_iff_intact hp hc ho hshort hstream ha hreb hm).mp hhold⟩
  · rintro ⟨ha, hn, hi⟩
    have hop := over_peer hp t ho
    have hnd := (he.nodup_iff hop).mpr ((nodup_enumConsts_peer hp hr₁ ho).mpr hn)
    obtain ⟨h, e', hreb, -, hmr, -⟩ := rebuild_clean (v := w.receiver jvm r) hr.wellFormed hj
      (reread w.o w.simdutf b'.data b.off (t.peer r)) (e := e) (over_reread _ _ hop) (storable_reread _ _ hst) he.clear
      (by rw [enumConsts_reread]; exact he.live hop) (by rw [Tree.handles, enumConsts_reread]; exact hnd)
    have hm : Matches r (e'.resolve h) t := (matches_peer hp t ho).mp ((matches_reread _ b.off).mp hmr)
    refine ⟨base, b', h, stateAt b'.data (endOff w.o w.simdutf b.off t) e', hwalk, ?_, hend, hm,
      (holds_iff_intact hp hc ho hshort hstream ha hreb hm).mpr hi⟩
    rw [parse_receiver jvm hr hp ho hl hf ha eid' e hstream, hreb]
    rfl

end DShuffle.Serde
