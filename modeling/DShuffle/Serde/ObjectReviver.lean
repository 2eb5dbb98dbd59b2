import DShuffle.Serde.Stream

/-!
# The object reviver

`ObjectReviver` (`object_reviver.cxx`) reads a stream and builds the objects in
it through JNI.

## The model

* A `Value` is what a Java reference refers to. The reviver sets the fields of
  an object only before it hands the object on, and never changes one later, so
  objects are values: setting a field gives a new value.
* A handle is a local reference with its object, or a global one. What a global
  reference refers to is part of the JVM's state: `DeleteLocalRef` clears the
  slot behind whatever handle it is given, and a cleared slot refers to
  HotSpot's sentinel object, `Value.deleted`.
* `Jvm` holds what JNI decides: whether an allocation succeeds, and which
  classes may be stored in an array. A length past `INT32_MAX` is negative for
  JNI, and no array of it is made.
* `SetByteArrayRegion(a, 0, n, p)` copies `n` bytes into the body of `a`, which
  starts out zero.

## What is proved

* `parse_eq_rebuild` — on a stream of a tree, `parse` does exactly what
  `rebuild` does on the tree, and its cursor ends where the stream ends. So
  everything about `parse` follows from the tree alone.
-/

namespace DShuffle.Serde

open Base

/-! ### Values and the JVM -/

/-- What a Java reference refers to. -/
inductive Value where
  /-- Nothing. -/
  | null
  /-- The constant of an enum class. -/
  | enumConst (klass ordinal : ℕ)
  /-- The sentinel behind a deleted reference, a plain `java.lang.Object`. -/
  | deleted
  /-- An object: the primitive fields that were set, and the reference fields, by JNI field id. -/
  | object (klass : ℕ) (prims : List (ℕ × Bytes)) (refIds : List ℕ) (refs : List Value)
  /-- An array of primitive values. -/
  | typeArray (t : BasicType) (length : ℕ) (contents : Bytes)
  /-- An array of references, by the klass of its elements. -/
  | objArray (elemKlass : ℕ) (elems : List Value)

/-- The class of an object, as `is_a` sees it. -/
inductive JClass where
  /-- The class with this klass. -/
  | klass (k : ℕ)
  /-- `java.lang.Object`. -/
  | javaLangObject
  /-- An array of primitive values. -/
  | typeArray (t : BasicType)
  /-- An array of references. -/
  | objArray (elemKlass : ℕ)
  deriving DecidableEq, Repr

namespace Value

/-- The class of what is referred to; none of null. -/
def jclass : Value → Option JClass
  | null => none
  | enumConst k _ => some (.klass k)
  | deleted => some .javaLangObject
  | object k _ _ _ => some (.klass k)
  | typeArray t _ _ => some (.typeArray t)
  | objArray e _ => some (.objArray e)

/-- Set one entry of an association list. -/
def upsert {α : Type} (k : ℕ) (v : α) : List (ℕ × α) → List (ℕ × α)
  | [] => [(k, v)]
  | (j, x) :: l => if j = k then (k, v) :: l else (j, x) :: upsert k v l

/-- `Set<Type>Field`. -/
def setPrim (v : Value) (id : ℕ) (x : Bytes) : Value :=
  match v with
  | object k prims ids refs => object k (upsert id x prims) ids refs
  | v => v

/-- `SetObjectField`. -/
def setRef (v : Value) (id : ℕ) (x : Value) : Value :=
  match v with
  | object k prims ids refs =>
    if id ∈ ids then object k prims ids (refs.set (ids.idxOf id) x) else object k prims (ids ++ [id]) (refs ++ [x])
  | v => v

end Value

/-- What JNI decides. -/
structure Jvm where
  /-- `AllocObject` succeeds on the klass. -/
  allocObject : ℕ → Bool
  /-- `New<Type>Array` succeeds. -/
  newTypeArray : BasicType → ℕ → Bool
  /-- `NewObjectArray` succeeds, for elements of the klass. -/
  newObjArray : ℕ → ℕ → Bool
  /-- An object of the class is an instance of the klass. -/
  isA : JClass → ℕ → Bool

/-- A `jobject`. -/
inductive Handle where
  /-- The null reference. -/
  | null
  /-- The `n`-th local reference, and the object behind it. -/
  | loc (n : ℕ) (v : Value)
  /-- A global reference. -/
  | glob (g : ℕ)

/-- The part of the JVM's state that the reviver changes, and its own root handle. -/
structure JEnv where
  /-- What each global reference refers to. -/
  globals : ℕ → Value
  /-- An exception is pending. -/
  exception : Bool
  /-- How many local references were made. -/
  nLocals : ℕ
  /-- `root`: the first local reference made. -/
  root : Option ℕ

namespace JEnv

/-- What a handle refers to. -/
def resolve (e : JEnv) : Handle → Value
  | .null => .null
  | .loc _ v => v
  | .glob g => e.globals g

/-- `DeleteLocalRef`: whatever the handle, the slot behind it is cleared. A local reference is not used again. -/
def deleteLocalRef (e : JEnv) : Handle → JEnv
  | .null => e
  | .loc _ _ => e
  | .glob g => { e with globals := fun x => if x = g then .deleted else e.globals x }

/-- A new local reference; the first becomes the root. -/
def newLocal (e : JEnv) : JEnv := { e with nLocals := e.nLocals + 1, root := e.root.or (some e.nLocals) }

/-- `ExceptionCheck`, and what follows it. -/
def check (e : JEnv) : Except Fault Unit := if e.exception then .error (.die "Meet exception") else .ok ()

end JEnv

/-- The array `v` may take the element: it is null, or an instance of the array's element klass. -/
def Jvm.admits (jvm : Jvm) (elemKlass : ℕ) (v : Value) : Bool :=
  match v.jclass with
  | none => true
  | some c => jvm.isA c elemKlass

/-- A fresh array body of `n` bytes with `bs` stored from its start; what does not fit lands outside. -/
def overlay (n : ℕ) (bs : Bytes) : Bytes := (bs ++ List.replicate (n - bs.length) 0).take n

/-! ### The reader -/

/-- What an `ObjectReviver` is made of, apart from its buffer and root. -/
structure ObjectReviver where
  /-- The JVM it runs in. -/
  jvm : Jvm
  /-- The class resolver. -/
  r : ClassResolver
  /-- The options. -/
  o : Options
  /-- The transcoder. -/
  simdutf : Simdutf

namespace ObjectReviver

/-- The buffer it reads and the JVM's state. -/
structure State where
  /-- The buffer. -/
  b : RWBuffer
  /-- The JVM. -/
  env : JEnv

variable (v : ObjectReviver)

/-- A call of `parse`: the expected id and the state; the handle and the state come back. -/
abbrev Parse := ℤ → State → Except Fault (Handle × State)

/-- The loop of `do_parse_object` over the fields. -/
def parseFields (rec : Parse) (fieldBase : ℕ) : List FieldInfo → Value → State → Except Fault (Value × State)
  | [], obj, s => .ok (obj, s)
  | f :: fs, obj, s =>
    if f.type.isPrimitive then
      parseFields rec fieldBase fs (obj.setPrim f.jFieldId (read s.b.data (fieldBase + f.offset) f.type.size)) s
    else if f.type.isReference then do
      let (h, s) ← rec f.id s
      let obj := obj.setRef f.jFieldId (s.env.resolve h)
      parseFields rec fieldBase fs obj { s with env := s.env.deleteLocalRef h }
    else parseFields rec fieldBase fs obj s

/-- `do_parse_object`. -/
def doParseObject (rec : Parse) (info : ClassInfo) (s : State) : Except Fault (Handle × State) := do
  let b := s.b.skipNextAlign8
  if v.jvm.allocObject info.klass = false then throw (.die "Fail to allocate object")
  let n := s.env.nLocals
  let fieldBase := b.off
  let (obj, s) ← parseFields rec fieldBase info.fields (.object info.klass [] [] [])
    ⟨b.skip info.objectBodySize, s.env.newLocal⟩
  s.env.check
  return (.loc n obj, s)

/-- `SetObjectArrayElement`: an element the array may not take raises `ArrayStoreException`. -/
def setElement (elemKlass i : ℕ) (h : Handle) (elems : List Value) (e : JEnv) : List Value × JEnv :=
  if v.jvm.admits elemKlass (e.resolve h) then (elems.set i (e.resolve h), e)
  else (elems, { e with exception := true })

/-- The loop of `do_parse_array` over the `n` elements from the `i`-th on. -/
def parseElems (rec : Parse) (elemKlass : ℕ) (id : ℤ) : (n i : ℕ) → List Value → State →
    Except Fault (List Value × State)
  | 0, _, elems, s => .ok (elems, s)
  | n + 1, i, elems, s => do
    let (h, s) ← rec id s
    let (elems, env) := v.setElement elemKlass i h elems s.env
    parseElems rec elemKlass id n (i + 1) elems { s with env := env.deleteLocalRef h }

/-- `cvt_utf8_to_utf16`: the code units it leaves in the array. -/
def cvtUtf8ToUtf16 (length : ℕ) (b : RWBuffer) : Bytes × RWBuffer :=
  let (_, b) := b.get 4
  let (actual, b) := b.get 4
  let (stored, _) := v.simdutf.toUtf16 (read b.data b.off actual)
  (overlay (length * 2) stored, b.skip actual)

/-- The primitive part of `do_parse_array`: the contents of the new array. -/
def parseContents (t : BasicType) (length : ℕ) (b : RWBuffer) : Except Fault (Bytes × RWBuffer) :=
  if t = .char ∧ v.o.enableUtf16ToUtf8 = true then .ok (v.cvtUtf8ToUtf16 length b)
  else
    let jLength := length
    if length ≠ jLength then .error (.die (toString length ++ " " ++ toString jLength))
    -- `SetByteArrayRegion` is given the number of elements
    else .ok (overlay (length * t.size) (read b.data b.off length), b.skip (ClassInfo.arrayBodySize t length))

/-- `do_parse_array`. -/
def doParseArray (rec : Parse) (info : ClassInfo) (s : State) : Except Fault (Handle × State) := do
  let (length, b) := s.b.get 4
  let b := b.skipNextAlign8
  let elem ← info.elem
  let n := s.env.nLocals
  if elem.type.isPrimitive then
    if (decide (length < 2 ^ 31) && v.jvm.newTypeArray elem.type length) = false then
      throw (.die "Fail to allocate array")
    let env := s.env.newLocal
    let (contents, b) ← v.parseContents elem.type length b
    env.check
    return (.loc n (.typeArray elem.type length contents), ⟨b, env⟩)
  else
    match v.r.getById elem.id with
    -- the dummy is a null pointer
    | none => throw .badAccess
    | some elemInfo =>
      if (decide (length < 2 ^ 31) && v.jvm.newObjArray elemInfo.klass length) = false then
        throw (.die "Fail to allocate array")
      if elem.type.isReference then
        let (elems, s) ← v.parseElems rec elemInfo.klass elem.id length 0 (List.replicate length .null) ⟨b, s.env.newLocal⟩
        s.env.check
        return (.loc n (.objArray elemInfo.klass elems), s)
      else throw .unreachable

/-- The end of `parse`: what follows the id and the flag, by the class. -/
def parseRecord (rec : Parse) (info : ClassInfo) (s : State) : Except Fault (Handle × State) :=
  if info.isEnum then do
    let e ← info.getEnum (s.b.get 4).1
    return (.glob e.handle, { s with b := (s.b.get 4).2 })
  else if info.isObject then v.doParseObject rec info s
  else if info.isArray then v.doParseArray rec info s
  else .error .unreachable

/-- `parse` once it has read the id and the flag. -/
def parseFlagged (rec : Parse) (id flag : ℕ) (s : State) : Except Fault (Handle × State) :=
  if isNullF flag then .ok (.null, s)
  else if isRedirectF flag then .error (.die "can not be redirect")
  else
    match v.r.getById (int16 id) with
    -- the dummy is a null pointer
    | none => .error .badAccess
    | some info => v.parseRecord rec info s

/-- The body of `parse`. -/
def parseStep (rec : Parse) : Parse := fun _ s =>
  let id := s.b.skipNextAlign8.get 2
  let flag := id.2.get 2
  v.parseFlagged rec id.1 flag.1 ⟨flag.2, s.env⟩

/-- `parse(expected_id)`. -/
def parse : (fuel : ℕ) → Parse
  | 0 => fun _ _ => .error .fuel
  | fuel + 1 => v.parseStep (parse fuel)

end ObjectReviver

/-! ### What the reader does with a tree -/

section
variable (o : Options) (u : Simdutf) (m : Mem)

/-- The contents of the new primitive array that a record at `base` gives. -/
def revivedContents (base : ℕ) (t : BasicType) (length : ℕ) : Bytes :=
  if t = .char ∧ o.enableUtf16ToUtf8 = true then
    overlay (length * 2) (u.toUtf16 (read m (base + 16) (ofLe (read m (base + 12) 4)))).1
  else overlay (length * t.size) (read m (base + 8) length)

mutual

/-- The tree, with the contents of its primitive arrays as the reader takes them from the stream at `off`. -/
def reread (off : ℕ) : Tree → Tree
  | .null => .null
  | .enumConst i ordinal => .enumConst i ordinal
  | .object i body ms => .object i body (rereadAll (upperAlign off 8 + 8 + body.length) ms)
  | .refArray i es => .refArray i (rereadAll (upperAlign off 8 + 8) es)
  | .primArray i n _ => .primArray i n (revivedContents o u m (upperAlign off 8) i.elemType n)

/-- The trees, one after the other. -/
def rereadAll (off : ℕ) : List Tree → List Tree
  | [] => []
  | t :: ts => reread off t :: rereadAll (endOff o u off t) ts

end

theorem length_rereadAll (off : ℕ) (ts : List Tree) : (rereadAll o u m off ts).length = ts.length := by
  induction ts generalizing off with
  | nil => rfl
  | cons t ts ih => rw [rereadAll, List.length_cons, List.length_cons, ih]

end

/-- The primitive fields of an object's body, as the reader sets them. -/
def primValues (fs : List FieldInfo) (body : Bytes) : List (ℕ × Bytes) :=
  (fs.filter (·.type.isPrimitive)).map fun f => (f.jFieldId, slice body f.offset f.type.size)

namespace ObjectReviver

section
variable (v : ObjectReviver)

mutual

/-- What `parse` does on a stream of the tree. -/
def rebuild : Tree → JEnv → Except Fault (Handle × JEnv)
  | .null, e => .ok (.null, e)
  | .enumConst i ordinal, e => do
    let c ← i.getEnum ordinal
    return (.glob c.handle, e)
  | .object i body ms, e => do
    if v.jvm.allocObject i.klass = false then throw (.die "Fail to allocate object")
    let (vs, e') ← rebuildAll (fun _ => true) ms e.newLocal
    e'.check
    return (.loc e.nLocals (.object i.klass (primValues i.fields body) (i.refFields.map (·.jFieldId)) vs), e')
  | .refArray i es, e =>
    match v.r.getById i.elemId with
    | none => .error .badAccess
    | some elemInfo => do
      if (decide (es.length < 2 ^ 31) && v.jvm.newObjArray elemInfo.klass es.length) = false then
        throw (.die "Fail to allocate array")
      let (vs, e') ← rebuildAll (v.jvm.admits elemInfo.klass) es e.newLocal
      e'.check
      return (.loc e.nLocals (.objArray elemInfo.klass vs), e')
  | .primArray i n contents, e => do
    if (decide (n < 2 ^ 31) && v.jvm.newTypeArray i.elemType n) = false then throw (.die "Fail to allocate array")
    e.newLocal.check
    return (.loc e.nLocals (.typeArray i.elemType n contents), e.newLocal)

/-- What the loops over fields and over elements do: rebuild each member, store it if it may be stored, and
delete the reference to it. -/
def rebuildAll (takes : Value → Bool) : List Tree → JEnv → Except Fault (List Value × JEnv)
  | [], e => .ok ([], e)
  | t :: ts, e => do
    let (h, e) ← rebuild t e
    let stored := if takes (e.resolve h) then e.resolve h else .null
    let e' := if takes (e.resolve h) then e else { e with exception := true }
    let (vs, e'') ← rebuildAll takes ts (e'.deleteLocalRef h)
    return (stored :: vs, e'')

end

/-- The state of a reader over the memory `m` with its cursor at `off`. -/
def stateAt (m : Mem) (off : ℕ) (e : JEnv) : State := ⟨⟨m, off⟩, e⟩

/-- `rec` does on every stream of the tree what `rebuild` does on the tree. -/
def ParsesAs (rec : Parse) (t : Tree) : Prop :=
  ∀ m off eid e, Stream v.o v.simdutf m off t → rec eid (stateAt m off e) =
    (v.rebuild (reread v.o v.simdutf m off t) e).map fun x => (x.1, stateAt m (endOff v.o v.simdutf off t) x.2)

end

variable {v : ObjectReviver} {rec : Parse}

theorem upsert_of_notMem {α : Type} {k : ℕ} {x : α} {l : List (ℕ × α)} (h : k ∉ l.map Prod.fst) :
    Value.upsert k x l = l ++ [(k, x)] := by
  induction l with
  | nil => rfl
  | cons p l ih =>
    obtain ⟨j, y⟩ := p
    rw [List.map_cons, List.mem_cons, not_or] at h
    rw [Value.upsert, if_neg (Ne.symm h.1), ih h.2]
    rfl

/-- The loop over the fields: primitive fields are set from the body, reference fields to the rebuilt members. -/
theorem parseFields_eq {m : Mem} {base : ℕ} {body : Bytes} {fs : List FieldInfo} {ms : List Tree} {k : ℕ}
    (prims : List (ℕ × Bytes)) (ids : List ℕ) (refs : List Value) {off : ℕ} (e : JEnv)
    (hrec : ∀ t ∈ ms, v.ParsesAs rec t) (hstream : StreamAll v.o v.simdutf m off ms)
    (hty : ∀ f ∈ fs, f.type.isPrimitive = true ∨ f.type.isReference = true)
    (hlen : ms.length = (fs.filter (·.type.isReference)).length)
    (hprim : ∀ f ∈ fs, f.type.isPrimitive = true → read m (base + f.offset) f.type.size = slice body f.offset f.type.size)
    (hnew : ∀ f ∈ fs, f.jFieldId ∉ prims.map Prod.fst ∧ f.jFieldId ∉ ids) (hids : (fs.map (·.jFieldId)).Nodup) :
    parseFields rec base fs (.object k prims ids refs) (stateAt m off e) =
      (v.rebuildAll (fun _ => true) (rereadAll v.o v.simdutf m off ms) e).map fun x =>
        (.object k (prims ++ primValues fs body) (ids ++ (fs.filter (·.type.isReference)).map (·.jFieldId)) (refs ++ x.1),
          stateAt m (endAll v.o v.simdutf off ms) x.2) := by
  induction fs generalizing ms prims ids refs off e with
  | nil =>
    have hms : ms = [] := List.length_eq_zero_iff.mp hlen
    subst hms
    simp [parseFields, rereadAll, rebuildAll, endAll, primValues, Except.map]
  | cons f fs ih =>
    have hty' : ∀ g ∈ fs, g.type.isPrimitive = true ∨ g.type.isReference = true :=
      fun g hg => hty g (List.mem_cons_of_mem _ hg)
    have hprim' : ∀ g ∈ fs, g.type.isPrimitive = true →
        read m (base + g.offset) g.type.size = slice body g.offset g.type.size :=
      fun g hg => hprim g (List.mem_cons_of_mem _ hg)
    obtain ⟨hf₁, hf₂⟩ := hnew f List.mem_cons_self
    rw [List.map_cons, List.nodup_cons] at hids
    have hne : ∀ g ∈ fs, g.jFieldId ≠ f.jFieldId := fun g hg h => hids.1 (h ▸ List.mem_map_of_mem hg)
    cases hr : f.type.isReference with
    | false =>
      have hp : f.type.isPrimitive = true :=
        BasicType.isPrimitive_of_not_isReference (hty f List.mem_cons_self) hr
      have hpv : primValues (f :: fs) body = (f.jFieldId, slice body f.offset f.type.size) :: primValues fs body := by
        rw [primValues, List.filter_cons, if_pos hp]
        rfl
      rw [filter_isReference_of_neg hr] at hlen ⊢
      have hstep := ih (prims ++ [(f.jFieldId, slice body f.offset f.type.size)]) ids refs e hrec hstream hty' hlen hprim'
        (fun g hg => by
          obtain ⟨hg₁, hg₂⟩ := hnew g (List.mem_cons_of_mem _ hg)
          rw [List.map_append, List.mem_append, not_or]
          exact ⟨⟨hg₁, by simpa using hne g hg⟩, hg₂⟩) hids.2
      rw [parseFields, if_pos hp, Value.setPrim]
      simp only [upsert_of_notMem hf₁, stateAt] at hstep ⊢
      rw [hprim f List.mem_cons_self hp, hstep, hpv]
      simp only [List.append_assoc, List.singleton_append]
    | true =>
      have hp : f.type.isPrimitive = false := BasicType.not_isPrimitive_of_isReference hr
      have hpv : primValues (f :: fs) body = primValues fs body := by
        rw [primValues, List.filter_cons, if_neg (by rw [hp]; exact Bool.false_ne_true)]
        rfl
      rw [filter_isReference_of_pos hr] at hlen ⊢
      cases ms with
      | nil => cases hlen
      | cons t ts =>
        simp only [StreamAll] at hstream
        have hlen' : ts.length = (fs.filter (·.type.isReference)).length := by simpa using hlen
        rw [parseFields, if_neg (by rw [hp]; exact Bool.false_ne_true), if_pos hr, rereadAll, rebuildAll, endAll, hpv]
        rw [hrec t List.mem_cons_self m off f.id e hstream.1]
        cases v.rebuild (reread v.o v.simdutf m off t) e with
        | error err => rfl
        | ok x =>
          obtain ⟨h, e₁⟩ := x
          have hstep := ih prims (ids ++ [f.jFieldId]) (refs ++ [e₁.resolve h])
            (e₁.deleteLocalRef h) (fun t ht => hrec t (List.mem_cons_of_mem _ ht)) hstream.2 hty' hlen' hprim'
            (fun g hg => by
              obtain ⟨hg₁, hg₂⟩ := hnew g (List.mem_cons_of_mem _ hg)
              rw [List.mem_append, not_or]
              exact ⟨hg₁, hg₂, by simpa using hne g hg⟩) hids.2
          simp only [bind, Except.bind, Except.map, stateAt, Value.setRef, if_neg hf₂, if_true, pure, Except.pure] at hstep ⊢
          rw [hstep]
          cases v.rebuildAll (fun _ => true) (rereadAll v.o v.simdutf m (endOff v.o v.simdutf off t) ts)
            (e₁.deleteLocalRef h) with
          | error err => rfl
          | ok y => simp only [List.map_cons, List.append_assoc, List.singleton_append]

/-- The loop over the elements: each is stored if the array may take it. -/
theorem parseElems_eq {m : Mem} (elemKlass : ℕ) {n : ℕ} (i : ℕ) (id : ℤ) {es : List Tree} (done : List Value) {off : ℕ}
    (e : JEnv)
    (hrec : ∀ t ∈ es, v.ParsesAs rec t) (hstream : StreamAll v.o v.simdutf m off es) (hlen : es.length = n)
    (hdone : done.length = i) :
    v.parseElems rec elemKlass id n i (done ++ List.replicate n .null) (stateAt m off e) =
      (v.rebuildAll (v.jvm.admits elemKlass) (rereadAll v.o v.simdutf m off es) e).map fun x =>
        (done ++ x.1, stateAt m (endAll v.o v.simdutf off es) x.2) := by
  induction es generalizing n i done off e with
  | nil =>
    cases hlen
    simp [parseElems, rereadAll, rebuildAll, endAll, Except.map]
  | cons t ts ih =>
    cases hlen
    simp only [StreamAll] at hstream
    rw [List.length_cons, parseElems, rereadAll, rebuildAll, endAll, hrec t List.mem_cons_self m off id e hstream.1]
    cases v.rebuild (reread v.o v.simdutf m off t) e with
    | error err => rfl
    | ok x =>
      obtain ⟨h, e₁⟩ := x
      have hset : ∀ y, (done ++ List.replicate (ts.length + 1) Value.null).set i y =
          (done ++ [y]) ++ List.replicate ts.length .null := by
        intro y
        subst hdone
        rw [List.replicate_succ, List.set_append_right _ _ (Nat.le_refl _), Nat.sub_self, List.set_cons_zero,
          List.append_assoc, List.singleton_append]
      have hstep := fun y e₂ => ih (i + 1) (done ++ [y]) e₂
        (fun t ht => hrec t (List.mem_cons_of_mem _ ht)) hstream.2 rfl (by rw [List.length_append, hdone]; rfl)
      simp only [bind, Except.bind, Except.map, stateAt, setElement, pure, Except.pure] at hstep ⊢
      by_cases hadm : v.jvm.admits elemKlass (e₁.resolve h) = true
      · simp only [hadm, if_true, hset, hstep]
        cases v.rebuildAll (v.jvm.admits elemKlass) (rereadAll v.o v.simdutf m (endOff v.o v.simdutf off t) ts)
          (e₁.deleteLocalRef h) with
        | error err => rfl
        | ok y => simp only [List.append_assoc, List.singleton_append]
      · -- an element that the array refuses leaves the null that was there
        have hnull : done ++ List.replicate (ts.length + 1) Value.null =
            (done ++ [.null]) ++ List.replicate ts.length .null := by
          rw [List.replicate_succ, List.append_assoc, List.singleton_append]
        simp only [if_neg hadm, hnull, hstep]
        cases v.rebuildAll (v.jvm.admits elemKlass) (rereadAll v.o v.simdutf m (endOff v.o v.simdutf off t) ts)
          (JEnv.deleteLocalRef { e₁ with exception := true } h) with
        | error err => rfl
        | ok y => simp only [List.append_assoc, List.singleton_append]

/-- The object case. -/
theorem doParseObject_eq {m : Mem} {off : ℕ} {i : ClassInfo} {body : Bytes} {ms : List Tree} {e : JEnv}
    (hrec : ∀ t ∈ ms, v.ParsesAs rec t) (hl : i.Laid) (hal : off % 8 = 0) (hbody : body.length = i.objectBodySize)
    (hlen : ms.length = i.refFields.length) (hmask : maskSlots 4 i.slots (read m (off + 8) body.length) = body)
    (hstream : StreamAll v.o v.simdutf m (off + 8 + body.length) ms) :
    v.doParseObject rec i (stateAt m (off + 4) e) =
      (v.rebuild (.object i body (rereadAll v.o v.simdutf m (off + 8 + body.length) ms)) e).map fun x =>
        (x.1, stateAt m (endAll v.o v.simdutf (off + 8 + body.length) ms) x.2) := by
  have hbase := upperAlign_add_four hal
  have hin : ∀ k ∈ i.slots, k + 4 ≤ (read m (off + 8) body.length).length := by
    rw [length_read, hbody]
    exact hl.slotted.slots_inside
  have hagree := agreeOff_maskSlots hin
  rw [hmask] at hagree
  -- a primitive field lies off the slots, so masking them does not touch it
  have hprim : ∀ f ∈ i.fields, f.type.isPrimitive = true →
      read m (off + 8 + f.offset) f.type.size = slice body f.offset f.type.size := by
    intro f hf hp
    have hfin : f.offset + f.type.size ≤ body.length := by
      rw [hbody, hl.bodySize]
      exact hl.inside f hf
    rw [← hagree.slice_eq, slice_read hfin]
    intro k hk
    obtain ⟨g, hg, rfl⟩ := List.mem_map.mp hk
    obtain ⟨hg₁, hg₂⟩ := List.mem_filter.mp hg
    have hne : f ≠ g := by
      rintro rfl
      rw [BasicType.not_isPrimitive_of_isReference hg₂] at hp
      cases hp
    have hd := hl.disjoint hf hg₁ hne hg₂
    unfold FieldInfo.Disjoint at hd
    rw [BasicType.size_of_isReference hg₂] at hd
    exact hd
  have hfields := parseFields_eq (k := i.klass) [] [] [] e.newLocal hrec hstream hl.typed hlen hprim
    (fun f _ => ⟨List.not_mem_nil, List.not_mem_nil⟩) hl.ids
  rw [doParseObject, rebuild]
  simp only [stateAt, RWBuffer.skipNextAlign8, RWBuffer.skip, hbase] at hfields ⊢
  rw [hbody] at hfields ⊢
  by_cases ha : v.jvm.allocObject i.klass = false
  · simp only [if_pos ha]
    rfl
  · simp only [if_neg ha, hfields]
    cases v.rebuildAll (fun _ => true) (rereadAll v.o v.simdutf m (off + 8 + i.objectBodySize) ms) e.newLocal with
    | error err => rfl
    | ok x =>
      obtain ⟨vs, e₁⟩ := x
      simp only [bind, Except.bind, Except.map, List.nil_append, pure, Except.pure, JEnv.check]
      by_cases he : e₁.exception = true
      · simp only [if_pos he]
      · simp only [if_neg he]
        rfl

/-- The eight bytes at the head of an array record or an enum record. -/
theorem head_eq {m : Mem} {off k n x : ℕ} {id : ℤ} (h : read m off 8 = leInt16 id ++ le 2 k ++ le 4 n) (hk : k < 2 ^ 16)
    (hn : n < 2 ^ 32) (hx : x = off + 4) :
    ofLe (read m off 2) = ofLe (leInt16 id) ∧ ofLe (read m (off + 2) 2) = k ∧ ofLe (read m x 4) = n := by
  subst hx
  have h₁ := read_append h
  have h₂ := read_append h₁.1
  simp only [List.length_append, length_leInt16, length_le] at h₁ h₂
  rw [h₂.1, h₂.2, h₁.2, ofLe_le, ofLe_le]
  exact ⟨rfl, Nat.mod_eq_of_lt hk, Nat.mod_eq_of_lt hn⟩

/-- The array case, for arrays of references. -/
theorem doParseArray_eq_refs {m : Mem} {off : ℕ} {i : ClassInfo} {f : FieldInfo} {es : List Tree} {e : JEnv}
    (hrec : ∀ t ∈ es, v.ParsesAs rec t) (hal : off % 8 = 0) (hf : i.elem = .ok f) (href : f.type.isReference = true)
    (hlen : ofLe (read m (off + 4) 4) = es.length) (hstream : StreamAll v.o v.simdutf m (off + 8) es) :
    v.doParseArray rec i (stateAt m (off + 4) e) =
      (v.rebuild (.refArray i (rereadAll v.o v.simdutf m (off + 8) es)) e).map fun x =>
        (x.1, stateAt m (endAll v.o v.simdutf (off + 8) es) x.2) := by
  have hbase := upperAlign_add_four_four hal
  have hp := BasicType.ne_primitive_of_isReference href
  rw [doParseArray, rebuild, (ClassInfo.elem_ok hf).2, length_rereadAll]
  simp only [stateAt, RWBuffer.get, RWBuffer.getAt, RWBuffer.skipNextAlign8, hbase, hlen, hf, bind, Except.bind,
    if_neg hp, if_pos href]
  cases v.r.getById f.id with
  | none => rfl
  | some c =>
    have helems := parseElems_eq c.klass 0 f.id [] e.newLocal hrec hstream rfl rfl
    simp only [stateAt, List.nil_append] at helems
    by_cases ha : (decide (es.length < 2 ^ 31) && v.jvm.newObjArray c.klass es.length) = false
    · simp only [if_pos ha]
      rfl
    · simp only [if_neg ha, helems, pure, Except.pure]
      cases v.rebuildAll (v.jvm.admits c.klass) (rereadAll v.o v.simdutf m (off + 8) es) e.newLocal with
      | error err => rfl
      | ok x =>
        obtain ⟨vs, e₁⟩ := x
        simp only [Except.map, JEnv.check]
        by_cases he : e₁.exception = true
        · simp only [if_pos he]
        · simp only [if_neg he]

/-- The contents of an array of primitive values. -/
theorem parseContents_eq {m : Mem} {off n : ℕ} {t : BasicType} {contents : Bytes} (hc : contents.length = n * t.size)
    (hread : read m (off + 8) (encodeContents v.o v.simdutf t n contents).length = encodeContents v.o v.simdutf t n contents) :
    v.parseContents t n ⟨m, off + 8⟩ = .ok (revivedContents v.o v.simdutf m off t n,
      ⟨m, off + 8 + (encodeContents v.o v.simdutf t n contents).length⟩) := by
  unfold parseContents revivedContents
  by_cases hcv : t = .char ∧ v.o.enableUtf16ToUtf8 = true
  · -- the actual byte size says how far the text goes
    have htake : ((v.simdutf.toUtf8 contents).1.take (u32 (v.simdutf.toUtf8 contents).2)).length =
        u32 (v.simdutf.toUtf8 contents).2 := by
      rw [List.length_take, Nat.min_eq_left ((u32_le _).trans (v.simdutf.toUtf8_le contents))]
    have hact : ofLe (read m (off + 8 + 4) 4) = u32 (v.simdutf.toUtf8 contents).2 := by
      rw [encodeContents, if_pos hcv] at hread
      have h₁ := (read_append (read_append hread).1).2
      rw [length_le, length_le] at h₁
      rw [h₁, ofLe_le]
      exact u32_of_lt (u32_lt _)
    rw [if_pos hcv, if_pos hcv, encodeContents, if_pos hcv]
    simp only [cvtUtf8ToUtf16, RWBuffer.get, RWBuffer.getAt, RWBuffer.skip, hact, List.length_append, length_le, htake,
      Nat.add_assoc]
  · have hlen' : (encodeContents v.o v.simdutf t n contents).length = ClassInfo.arrayBodySize t n := by
      rw [encodeContents, if_neg hcv, List.length_take, hc]
      exact Nat.min_eq_left (u32_le _)
    rw [if_neg hcv, if_neg hcv, hlen']
    simp only [ne_eq, not_true_eq_false, if_false, RWBuffer.skip]

/-- The array case, for arrays of primitive values. -/
theorem doParseArray_eq_prims {m : Mem} {off n : ℕ} {i : ClassInfo} {f : FieldInfo} {contents : Bytes} {e : JEnv}
    (hal : off % 8 = 0) (hf : i.elem = .ok f) (hp : f.type.isPrimitive = true)
    (hlen : ofLe (read m (off + 4) 4) = n) (hc : contents.length = n * f.type.size)
    (hread : read m (off + 8) (encodeContents v.o v.simdutf f.type n contents).length =
      encodeContents v.o v.simdutf f.type n contents) :
    v.doParseArray rec i (stateAt m (off + 4) e) =
      (v.rebuild (.primArray i n (revivedContents v.o v.simdutf m off f.type n)) e).map fun x =>
        (x.1, stateAt m (off + 8 + (encodeContents v.o v.simdutf f.type n contents).length) x.2) := by
  have hbase := upperAlign_add_four_four hal
  have hcont := parseContents_eq (v := v) hc hread
  rw [doParseArray, rebuild, (ClassInfo.elem_ok hf).1]
  simp only [stateAt, RWBuffer.get, RWBuffer.getAt, RWBuffer.skipNextAlign8, hbase, hlen, hf, bind, Except.bind, if_pos hp]
  by_cases ha : (decide (n < 2 ^ 31) && v.jvm.newTypeArray f.type n) = false
  · simp only [if_pos ha]
    rfl
  · simp only [if_neg ha, hcont, pure, Except.pure, JEnv.check]
    by_cases he : e.newLocal.exception = true
    · simp only [if_pos he]
      rfl
    · simp only [if_neg he]
      rfl

/-- The record of an object. -/
theorem parseRecord_of_object {i : ClassInfo} (he : i.isEnum = false) (ho : i.isObject = true) (s : State) :
    v.parseRecord rec i s = v.doParseObject rec i s := by
  rw [parseRecord, if_neg (Bool.eq_false_iff.mp he), if_pos ho]

/-- The record of an array. -/
theorem parseRecord_of_array {i : ClassInfo} (he : i.isEnum = false) (ha : i.isArray = true) (s : State) :
    v.parseRecord rec i s = v.doParseArray rec i s := by
  rw [parseRecord, if_neg (Bool.eq_false_iff.mp he), if_neg (Bool.eq_false_iff.mp (ClassInfo.isObject_of_isArray ha)),
    if_pos ha]

/-- One step of the reader, in terms of what it reads. -/
theorem parseStep_stateAt (rec : Parse) (m : Mem) (off : ℕ) (eid : ℤ) (e : JEnv) :
    v.parseStep rec eid (stateAt m off e) =
      v.parseFlagged rec (ofLe (read m (upperAlign off 8) 2)) (ofLe (read m (upperAlign off 8 + 2) 2))
        (stateAt m (upperAlign off 8 + 4) e) := rfl

/-- One step on a null record. -/
theorem parseStep_of_null {m : Mem} {off : ℕ} {eid : ℤ} {e : JEnv} (rec : Parse)
    (h : isNullF (ofLe (read m (upperAlign off 8 + 2) 2)) = true) :
    v.parseStep rec eid (stateAt m off e) = .ok (.null, stateAt m (upperAlign off 8 + 4) e) := by
  rw [parseStep_stateAt, parseFlagged, if_pos h]

/-- One step on a record that is not null: the id finds the class, or the reader goes astray. -/
theorem parseStep_of_head {m : Mem} {off k : ℕ} {id : ℤ} {eid : ℤ} {e : JEnv} (rec : Parse)
    (h₁ : ofLe (read m (upperAlign off 8) 2) = ofLe (leInt16 id)) (h₂ : ofLe (read m (upperAlign off 8 + 2) 2) = k)
    (hk₁ : isNullF k = false) (hk₂ : isRedirectF k = false) :
    v.parseStep rec eid (stateAt m off e) =
      match v.r.getById (int16 id) with
      | none => .error .badAccess
      | some info => v.parseRecord rec info (stateAt m (upperAlign off 8 + 4) e) := by
  rw [parseStep_stateAt, parseFlagged, h₁, h₂, int16_ofLe_leInt16, if_neg (Bool.eq_false_iff.mp hk₁),
    if_neg (Bool.eq_false_iff.mp hk₂)]

theorem parseStep_of_has {m : Mem} {off k : ℕ} {i : ClassInfo} {eid : ℤ} {e : JEnv} (rec : Parse)
    (hw : v.r.WellFormed) (hi : v.r.Has i) (h₁ : ofLe (read m (upperAlign off 8) 2) = ofLe (leInt16 i.id))
    (h₂ : ofLe (read m (upperAlign off 8 + 2) 2) = k) (hk₁ : isNullF k = false) (hk₂ : isRedirectF k = false) :
    v.parseStep rec eid (stateAt m off e) = v.parseRecord rec i (stateAt m (upperAlign off 8 + 4) e) := by
  rw [parseStep_of_head rec h₁ h₂ hk₁ hk₂, hw.range i hi, hw.byId i hi]

/-- **The reader works on the tree**: with fuel above the height of `t`, on every stream of `t`, `parse` does
what `rebuild` does on `t`, and leaves its cursor at the end of the stream. -/
theorem parse_eq_rebuild (hw : v.r.WellFormed) {fuel : ℕ} {t : Tree} (hl : t.Laid) (ht : t.height < fuel)
    (ho : t.Over v.r) : v.ParsesAs (v.parse fuel) t := by
  induction fuel generalizing t with
  | zero => exact absurd ht (Nat.not_lt_zero _)
  | succ fuel ih =>
    have hall : ∀ ts : List Tree, (∀ t ∈ ts, t.Laid) → heightAll ts < fuel → OverAll v.r ts →
        ∀ t ∈ ts, v.ParsesAs (v.parse fuel) t :=
      fun ts hls hts hov t ht => ih (hls t ht) ((height_le_heightAll ht).trans_lt hts) (overAll_mem hov ht)
    intro m off eid e hs
    have hal := upperAlign_mod off
    rw [parse]
    cases t with
    | null =>
      simp only [Stream] at hs
      rw [parseStep_of_null _ hs, reread, rebuild, endOff]
      rfl
    | enumConst i ordinal =>
      obtain ⟨hi, he, hord, c, hc⟩ := ho
      simp only [Stream] at hs
      obtain ⟨h₁, h₂, h₃⟩ := head_eq hs (by decide) hord rfl
      rw [parseStep_of_has _ hw hi h₁ h₂ (by decide) (by decide), parseRecord, if_pos he, reread, rebuild, endOff, hc]
      simp only [stateAt, RWBuffer.get, RWBuffer.getAt, h₃, hc]
      rfl
    | object i body ms =>
      obtain ⟨hi, he, hob, hbody, -, hms, hov⟩ := ho
      obtain ⟨hhead, hmask, hstream⟩ := hs
      obtain ⟨h₁, h₂⟩ := read_append hhead
      simp only [length_leInt16, length_le] at h₁ h₂
      rw [parseStep_of_has _ hw hi (congrArg ofLe h₁) (congrArg ofLe h₂) (by decide) (by decide),
        parseRecord_of_object he hob, reread, endOff]
      exact doParseObject_eq (hall ms hl.members (by rw [Tree.height] at ht; omega) hov)
        (hl i (List.mem_cons_self ..) he hob) hal hbody hms hmask hstream
    | refArray i es =>
      obtain ⟨hi, he, harr, ⟨f, hf, href⟩, hn, hov⟩ := ho
      obtain ⟨hhead, hstream⟩ := hs
      obtain ⟨h₁, h₂, h₃⟩ := head_eq hhead (by decide) (by omega) rfl
      rw [parseStep_of_has _ hw hi h₁ h₂ (by decide) (by decide), parseRecord_of_array he harr, reread,
        endOff]
      exact doParseArray_eq_refs (hall es hl.elements (by rw [Tree.height] at ht; omega) hov) hal hf href h₃
        hstream
    | primArray i n contents =>
      obtain ⟨hi, he, harr, ⟨f, hf, hp, hc⟩, hn⟩ := ho
      obtain ⟨hhead, hread⟩ := hs
      obtain ⟨h₁, h₂, h₃⟩ := head_eq hhead (by decide) (by omega) rfl
      rw [parseStep_of_has _ hw hi h₁ h₂ (by decide) (by decide), parseRecord_of_array he harr, reread,
        endOff]
      rw [(ClassInfo.elem_ok hf).1] at hread ⊢
      exact doParseArray_eq_prims hal hf hp h₃ hc hread

end ObjectReviver

end DShuffle.Serde
