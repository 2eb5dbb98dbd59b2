import DShuffle.Serde.PrimitiveArrays

/-!
# The reviver under a limit

`ObjectReviver` reads from a buffer whose size it never looks at. This module has the same reader with a limit: a
read of a byte at or past the limit ends it with an error of its own, `none`. Where the reader under the limit does
what the reader does, the reader reads nothing at or past the limit.

## What is proved

* `limitedParse_eq` — on the stream of a tree that ends at or before the limit, the two do the same, if every
  primitive array in the tree has fewer than 2^32 bytes.
* `limitedParse_eq_none` — if one has more, and the JVM refuses nothing, the reader goes past the limit:
  `array_body_size` is a `uint32_t`, so the stream holds almost nothing of such an array, and
  `SetByteArrayRegion` is still given its number of elements.
-/

namespace DShuffle.Serde

open Base

namespace ObjectReviver

/-! ### The reader with a limit -/

/-- A result, or a fault of the reader, or `none` for a read at or past the limit. -/
abbrev Limited (α : Type) := Except (Option Fault) α

/-- What has nothing to do with the buffer. -/
def unlimited {α : Type} : Except Fault α → Limited α
  | .ok x => .ok x
  | .error f => .error (some f)

/-- A read of `n` bytes at `a`. -/
def within (limit a n : ℕ) : Limited Unit := if a + n ≤ limit then .ok () else .error none

/-- `parse`, under the limit. -/
abbrev LimitedParse := ℤ → State → Limited (Handle × State)

variable (v : ObjectReviver) (limit : ℕ)

/-- `parseFields`, under the limit. -/
def limitedFields (rec : LimitedParse) (fieldBase : ℕ) : List FieldInfo → Value → State → Limited (Value × State)
  | [], obj, s => .ok (obj, s)
  | f :: fs, obj, s =>
    if f.type.isPrimitive then do
      within limit (fieldBase + f.offset) f.type.size
      limitedFields rec fieldBase fs (obj.setPrim f.jFieldId (read s.b.data (fieldBase + f.offset) f.type.size)) s
    else if f.type.isReference then do
      let (h, s) ← rec f.id s
      let obj := obj.setRef f.jFieldId (s.env.resolve h)
      limitedFields rec fieldBase fs obj { s with env := s.env.deleteLocalRef h }
    else limitedFields rec fieldBase fs obj s

/-- `doParseObject`, under the limit. -/
def limitedObject (rec : LimitedParse) (info : ClassInfo) (s : State) : Limited (Handle × State) := do
  let b := s.b.skipNextAlign8
  if v.jvm.allocObject info.klass = false then throw (some (.die "Fail to allocate object"))
  let n := s.env.nLocals
  let fieldBase := b.off
  let (obj, s) ← limitedFields limit rec fieldBase info.fields (.object info.klass [] [] [])
    ⟨b.skip info.objectBodySize, s.env.newLocal⟩
  unlimited s.env.check
  return (.loc n obj, s)

/-- `parseElems`, under the limit. -/
def limitedElems (rec : LimitedParse) (elemKlass : ℕ) (id : ℤ) : (n i : ℕ) → List Value → State →
    Limited (List Value × State)
  | 0, _, elems, s => .ok (elems, s)
  | n + 1, i, elems, s => do
    let (h, s) ← rec id s
    let (elems, env) := v.setElement elemKlass i h elems s.env
    limitedElems rec elemKlass id n (i + 1) elems { s with env := env.deleteLocalRef h }

/-- `parseContents`, under the limit. -/
def limitedContents (t : BasicType) (length : ℕ) (b : RWBuffer) : Limited (Bytes × RWBuffer) := do
  if t = .char ∧ v.o.enableUtf16ToUtf8 = true then
    within limit b.off 4
    let b' := (b.get 4).2
    within limit b'.off 4
    let (actual, b') := b'.get 4
    within limit b'.off actual
  else within limit b.off length
  unlimited (v.parseContents t length b)

/-- `doParseArray`, under the limit. -/
def limitedArray (rec : LimitedParse) (info : ClassInfo) (s : State) : Limited (Handle × State) := do
  within limit s.b.off 4
  let (length, b) := s.b.get 4
  let b := b.skipNextAlign8
  let elem ← unlimited info.elem
  let n := s.env.nLocals
  if elem.type.isPrimitive then
    if (decide (length < 2 ^ 31) && v.jvm.newTypeArray elem.type length) = false then
      throw (some (.die "Fail to allocate array"))
    let env := s.env.newLocal
    let (contents, b) ← v.limitedContents limit elem.type length b
    unlimited env.check
    return (.loc n (.typeArray elem.type length contents), ⟨b, env⟩)
  else
    match v.r.getById elem.id with
    | none => throw (some .badAccess)
    | some elemInfo =>
      if (decide (length < 2 ^ 31) && v.jvm.newObjArray elemInfo.klass length) = false then
        throw (some (.die "Fail to allocate array"))
      if elem.type.isReference then
        let (elems, s) ← v.limitedElems rec elemInfo.klass elem.id length 0 (List.replicate length .null) ⟨b, s.env.newLocal⟩
        unlimited s.env.check
        return (.loc n (.objArray elemInfo.klass elems), s)
      else throw (some .unreachable)

/-- `parseRecord`, under the limit. -/
def limitedRecord (rec : LimitedParse) (info : ClassInfo) (s : State) : Limited (Handle × State) :=
  if info.isEnum then do
    within limit s.b.off 4
    let e ← unlimited (info.getEnum (s.b.get 4).1)
    return (.glob e.handle, { s with b := (s.b.get 4).2 })
  else if info.isObject then v.limitedObject limit rec info s
  else if info.isArray then v.limitedArray limit rec info s
  else .error (some .unreachable)

/-- `parseFlagged`, under the limit. -/
def limitedFlagged (rec : LimitedParse) (id flag : ℕ) (s : State) : Limited (Handle × State) :=
  if isNullF flag then .ok (.null, s)
  else if isRedirectF flag then .error (some (.die "can not be redirect"))
  else
    match v.r.getById (int16 id) with
    | none => .error (some .badAccess)
    | some info => v.limitedRecord limit rec info s

/-- `parseStep`, under the limit. -/
def limitedStep (rec : LimitedParse) : LimitedParse := fun _ s => do
  within limit s.b.skipNextAlign8.off 2
  let id := s.b.skipNextAlign8.get 2
  within limit id.2.off 2
  let flag := id.2.get 2
  v.limitedFlagged limit rec id.1 flag.1 ⟨flag.2, s.env⟩

/-- `parse`, under the limit. -/
def limitedParse : (fuel : ℕ) → LimitedParse
  | 0 => fun _ _ => .error (some .fuel)
  | fuel + 1 => v.limitedStep limit (limitedParse fuel)

/-- The reader does what it does under the limit: it reads nothing at or past it. -/
def ReadsBelow (fuel : ℕ) (eid : ℤ) (s : State) : Prop := v.limitedParse limit fuel eid s = unlimited (v.parse fuel eid s)

end ObjectReviver

/-! ### Arrays whose bytes can be counted -/

mutual

/-- Every primitive array in the tree that is copied as it is has fewer than 2^32 bytes. -/
def Tree.Counted (o : Options) : Tree → Prop
  | .null => True
  | .enumConst .. => True
  | .object _ _ ms => CountedAll o ms
  | .refArray _ es => CountedAll o es
  | .primArray i n _ => (i.elemType = .char ∧ o.enableUtf16ToUtf8 = true) ∨ n * i.elemType.size < 2 ^ 32

/-- Every such array in the trees has fewer than 2^32 bytes. -/
def CountedAll (o : Options) : List Tree → Prop
  | [] => True
  | t :: ts => t.Counted o ∧ CountedAll o ts

end

theorem countedAll_mem {o : Options} {ts : List Tree} (h : CountedAll o ts) {t : Tree} (ht : t ∈ ts) : t.Counted o := by
  induction ts with
  | nil => cases ht
  | cons u us ih =>
    rcases List.mem_cons.mp ht with rfl | ht
    · exact h.1
    · exact ih h.2 ht

namespace ObjectReviver

/-! ### Below the limit -/

variable {v : ObjectReviver} {limit : ℕ} {recL : LimitedParse} {rec : Parse}

theorem within_of_le {a n : ℕ} (h : a + n ≤ limit) : within limit a n = .ok () := if_pos h

theorem within_of_lt {a n : ℕ} (h : limit < a + n) : within limit a n = .error none := if_neg (Nat.not_le_of_lt h)

/-- On every stream of the tree that ends below the limit, `recL` does what `rec` does. -/
def LimitedAs (v : ObjectReviver) (limit : ℕ) (recL : LimitedParse) (rec : Parse) (t : Tree) : Prop :=
  ∀ m off eid e, Stream v.o v.simdutf m off t → endOff v.o v.simdutf off t ≤ limit →
    recL eid (stateAt m off e) = unlimited (rec eid (stateAt m off e))

theorem limitedFields_eq {m : Mem} {base : ℕ} {fs : List FieldInfo} {ms : List Tree} {off : ℕ} {obj : Value} {e : JEnv}
    (hrec : ∀ t ∈ ms, v.ParsesAs rec t) (hlim : ∀ t ∈ ms, v.LimitedAs limit recL rec t)
    (hstream : StreamAll v.o v.simdutf m off ms) (hend : endAll v.o v.simdutf off ms ≤ limit)
    (hlen : ms.length = (fs.filter (·.type.isReference)).length)
    (hprim : ∀ f ∈ fs, base + f.offset + f.type.size ≤ limit) :
    limitedFields limit recL base fs obj (stateAt m off e) = unlimited (parseFields rec base fs obj (stateAt m off e)) := by
  induction fs generalizing ms off obj e with
  | nil => rfl
  | cons f fs ih =>
    have hprim' : ∀ g ∈ fs, base + g.offset + g.type.size ≤ limit := fun g hg => hprim g (List.mem_cons_of_mem _ hg)
    rw [limitedFields, parseFields]
    cases hr : f.type.isReference with
    | false =>
      rw [filter_isReference_of_neg hr] at hlen
      rw [within_of_le (hprim f List.mem_cons_self)]
      split
      · exact ih hrec hlim hstream hend hlen hprim'
      · exact ih hrec hlim hstream hend hlen hprim'
    | true =>
      have hp := BasicType.ne_primitive_of_isReference hr
      rw [filter_isReference_of_pos hr] at hlen
      cases ms with
      | nil => cases hlen
      | cons t ts =>
        simp only [StreamAll] at hstream
        rw [endAll] at hend
        have hmid : endOff v.o v.simdutf off t ≤ limit := (le_endAll _ _ ts _).trans hend
        rw [if_neg hp, if_neg hp, if_pos rfl, if_pos rfl, hlim t List.mem_cons_self m off f.id e hstream.1 hmid,
          hrec t List.mem_cons_self m off f.id e hstream.1]
        cases v.rebuild (reread v.o v.simdutf m off t) e with
        | error err => rfl
        | ok x =>
          exact ih (fun t ht => hrec t (List.mem_cons_of_mem _ ht)) (fun t ht => hlim t (List.mem_cons_of_mem _ ht))
            hstream.2 hend (by simpa using hlen) hprim'

theorem limitedElems_eq {m : Mem} {elemKlass n i : ℕ} {id : ℤ} {es : List Tree} {off : ℕ} {elems : List Value} {e : JEnv}
    (hrec : ∀ t ∈ es, v.ParsesAs rec t) (hlim : ∀ t ∈ es, v.LimitedAs limit recL rec t)
    (hstream : StreamAll v.o v.simdutf m off es) (hend : endAll v.o v.simdutf off es ≤ limit) (hlen : es.length = n) :
    v.limitedElems recL elemKlass id n i elems (stateAt m off e) =
      unlimited (v.parseElems rec elemKlass id n i elems (stateAt m off e)) := by
  induction es generalizing n i off elems e with
  | nil =>
    cases hlen
    rfl
  | cons t ts ih =>
    cases hlen
    simp only [StreamAll] at hstream
    rw [endAll] at hend
    have hmid : endOff v.o v.simdutf off t ≤ limit := (le_endAll _ _ ts _).trans hend
    rw [List.length_cons, limitedElems, parseElems, hlim t List.mem_cons_self m off id e hstream.1 hmid,
      hrec t List.mem_cons_self m off id e hstream.1]
    cases v.rebuild (reread v.o v.simdutf m off t) e with
    | error err => rfl
    | ok x =>
      exact ih (fun t ht => hrec t (List.mem_cons_of_mem _ ht)) (fun t ht => hlim t (List.mem_cons_of_mem _ ht))
        hstream.2 hend rfl

/-- The fields of an object whose record ends below the limit lie below it. -/
theorem fields_below {off : ℕ} {i : ClassInfo} {body : Bytes} {ms : List Tree} (hl : i.Laid)
    (hbody : body.length = i.objectBodySize) (hend : endAll v.o v.simdutf (off + 8 + body.length) ms ≤ limit) :
    ∀ f ∈ i.fields, off + 8 + f.offset + f.type.size ≤ limit := by
  intro f hf
  have hin := hl.inside f hf
  have hle := le_endAll v.o v.simdutf ms (off + 8 + body.length)
  rw [hbody, hl.bodySize] at hle hend
  omega

theorem limitedObject_eq {m : Mem} {off : ℕ} {i : ClassInfo} {body : Bytes} {ms : List Tree} {e : JEnv}
    (hrec : ∀ t ∈ ms, v.ParsesAs rec t) (hlim : ∀ t ∈ ms, v.LimitedAs limit recL rec t) (hl : i.Laid) (hal : off % 8 = 0)
    (hbody : body.length = i.objectBodySize) (hlen : ms.length = i.refFields.length)
    (hstream : StreamAll v.o v.simdutf m (off + 8 + body.length) ms)
    (hend : endAll v.o v.simdutf (off + 8 + body.length) ms ≤ limit) :
    v.limitedObject limit recL i (stateAt m (off + 4) e) = unlimited (v.doParseObject rec i (stateAt m (off + 4) e)) := by
  have hbase := upperAlign_add_four hal
  have hprim := fields_below hl hbody hend
  have hfields : limitedFields limit recL (off + 8) i.fields (.object i.klass [] [] [])
      (stateAt m (off + 8 + body.length) e.newLocal) = _ := limitedFields_eq hrec hlim hstream hend hlen hprim
  rw [limitedObject, doParseObject]
  simp only [stateAt, RWBuffer.skipNextAlign8, RWBuffer.skip, hbase] at hfields ⊢
  rw [hbody] at hfields
  by_cases ha : v.jvm.allocObject i.klass = false
  · simp only [if_pos ha]
    rfl
  · simp only [if_neg ha]
    rw [hfields]
    cases parseFields rec (off + 8) i.fields (.object i.klass [] [] []) ⟨⟨m, off + 8 + i.objectBodySize⟩, e.newLocal⟩ with
    | error err => rfl
    | ok x =>
      simp only [bind, Except.bind, unlimited]
      cases x.2.env.check with
      | error err => rfl
      | ok _ => rfl

theorem limitedArray_eq_refs {m : Mem} {off : ℕ} {i : ClassInfo} {f : FieldInfo} {es : List Tree} {e : JEnv}
    (hrec : ∀ t ∈ es, v.ParsesAs rec t) (hlim : ∀ t ∈ es, v.LimitedAs limit recL rec t) (hal : off % 8 = 0)
    (hf : i.elem = .ok f) (href : f.type.isReference = true) (hlen : ofLe (read m (off + 4) 4) = es.length)
    (hstream : StreamAll v.o v.simdutf m (off + 8) es) (hend : endAll v.o v.simdutf (off + 8) es ≤ limit) :
    v.limitedArray limit recL i (stateAt m (off + 4) e) = unlimited (v.doParseArray rec i (stateAt m (off + 4) e)) := by
  have hbase := upperAlign_add_four_four hal
  have hp := BasicType.ne_primitive_of_isReference href
  have hhead : off + 4 + 4 ≤ limit := (le_endAll _ _ es _).trans hend
  rw [limitedArray, doParseArray]
  simp only [stateAt, RWBuffer.get, RWBuffer.getAt, RWBuffer.skipNextAlign8, hbase, hlen, hf, bind, Except.bind,
    within_of_le hhead, unlimited, if_neg hp, if_pos href]
  cases v.r.getById f.id with
  | none => rfl
  | some c =>
    have helems : v.limitedElems recL c.klass f.id es.length 0 (List.replicate es.length .null)
        (stateAt m (off + 8) e.newLocal) = _ := limitedElems_eq hrec hlim hstream hend rfl
    simp only [stateAt] at helems
    by_cases ha : (decide (es.length < 2 ^ 31) && v.jvm.newObjArray c.klass es.length) = false
    · simp only [if_pos ha]
      rfl
    · simp only [if_neg ha, helems, pure, Except.pure]
      cases v.parseElems rec c.klass f.id es.length 0 (List.replicate es.length .null)
        ⟨⟨m, off + 8⟩, e.newLocal⟩ with
      | error err => rfl
      | ok x =>
        simp only [unlimited]
        cases x.2.env.check with
        | error err => rfl
        | ok _ => rfl

/-- The contents of an array whose bytes can be counted are read below the limit. -/
theorem limitedContents_eq {m : Mem} {off n : ℕ} {t : BasicType} {contents : Bytes} (hc : contents.length = n * t.size)
    (hp : t.isPrimitive = true)
    (hread : read m (off + 8) (encodeContents v.o v.simdutf t n contents).length = encodeContents v.o v.simdutf t n contents)
    (hend : off + 8 + (encodeContents v.o v.simdutf t n contents).length ≤ limit)
    (hcount : (t = .char ∧ v.o.enableUtf16ToUtf8 = true) ∨ n * t.size < 2 ^ 32) :
    v.limitedContents limit t n ⟨m, off + 8⟩ = unlimited (v.parseContents t n ⟨m, off + 8⟩) := by
  have hcont := parseContents_eq (v := v) hc hread
  rw [limitedContents]
  by_cases hcv : t = .char ∧ v.o.enableUtf16ToUtf8 = true
  · -- where the cursor ends says how long the text is
    have hactual : off + 8 + 4 + 4 + ofLe (read m (off + 8 + 4) 4) =
        off + 8 + (encodeContents v.o v.simdutf t n contents).length := by
      rw [parseContents, if_pos hcv] at hcont
      exact congrArg (fun x => x.2.off) (Except.ok.inj hcont)
    have h₁ : off + 8 + 4 ≤ limit := by omega
    have h₂ : off + 8 + 4 + 4 ≤ limit := by omega
    have h₃ : off + 8 + 4 + 4 + ofLe (read m (off + 8 + 4) 4) ≤ limit := by omega
    simp only [if_pos hcv, RWBuffer.get, RWBuffer.getAt, within_of_le h₁, within_of_le h₂, within_of_le h₃, bind, Except.bind]
  · have hsize := hcount.resolve_left hcv
    have hlen : (encodeContents v.o v.simdutf t n contents).length = n * t.size := by
      rw [encodeContents, if_neg hcv, List.length_take, hc, ClassInfo.arrayBodySize, u32_of_lt hsize, Nat.min_self]
    have hle := length_le_bodySize n hp
    have h₁ : off + 8 + n ≤ limit := by omega
    simp only [if_neg hcv, within_of_le h₁, bind, Except.bind]

theorem limitedArray_eq_prims {m : Mem} {off n : ℕ} {i : ClassInfo} {f : FieldInfo} {e : JEnv}
    (hal : off % 8 = 0) (hf : i.elem = .ok f) (hp : f.type.isPrimitive = true)
    (hlen : ofLe (read m (off + 4) 4) = n) (hhead : off + 8 ≤ limit)
    (hcont : v.limitedContents limit f.type n ⟨m, off + 8⟩ = unlimited (v.parseContents f.type n ⟨m, off + 8⟩)) :
    v.limitedArray limit recL i (stateAt m (off + 4) e) = unlimited (v.doParseArray rec i (stateAt m (off + 4) e)) := by
  have hbase := upperAlign_add_four_four hal
  have hhead' : off + 4 + 4 ≤ limit := hhead
  rw [limitedArray, doParseArray]
  simp only [stateAt, RWBuffer.get, RWBuffer.getAt, RWBuffer.skipNextAlign8, hbase, hlen, hf, bind, Except.bind,
    within_of_le hhead', unlimited, if_pos hp]
  by_cases ha : (decide (n < 2 ^ 31) && v.jvm.newTypeArray f.type n) = false
  · simp only [if_pos ha]
    rfl
  · simp only [if_neg ha, hcont, pure, Except.pure]
    cases v.parseContents f.type n ⟨m, off + 8⟩ with
    | error err => rfl
    | ok x =>
      simp only [unlimited]
      cases e.newLocal.check with
      | error err => rfl
      | ok _ => rfl

/-- One step of the reader under the limit, once its record lies below the limit. -/
theorem limitedStep_stateAt {m : Mem} {off : ℕ} (hhead : upperAlign off 8 + 4 ≤ limit) (eid : ℤ) (e : JEnv) :
    v.limitedStep limit recL eid (stateAt m off e) =
      v.limitedFlagged limit recL (ofLe (read m (upperAlign off 8) 2)) (ofLe (read m (upperAlign off 8 + 2) 2))
        (stateAt m (upperAlign off 8 + 4) e) := by
  have h₁ : upperAlign off 8 + 2 ≤ limit := by omega
  have h₂ : upperAlign off 8 + 2 + 2 ≤ limit := hhead
  simp only [limitedStep, stateAt, RWBuffer.skipNextAlign8, RWBuffer.get, RWBuffer.getAt, within_of_le h₁, within_of_le h₂,
    bind, Except.bind]

/-- One step on a record of a registered class. -/
theorem limitedStep_of_has {m : Mem} {off k : ℕ} {i : ClassInfo} (eid : ℤ) (e : JEnv) (hw : v.r.WellFormed) (hi : v.r.Has i)
    (hhead : upperAlign off 8 + 4 ≤ limit) (h₁ : ofLe (read m (upperAlign off 8) 2) = ofLe (leInt16 i.id))
    (h₂ : ofLe (read m (upperAlign off 8 + 2) 2) = k) (hk₁ : isNullF k = false) (hk₂ : isRedirectF k = false) :
    v.limitedStep limit recL eid (stateAt m off e) =
      v.limitedRecord limit recL i (stateAt m (upperAlign off 8 + 4) e) := by
  rw [limitedStep_stateAt hhead, limitedFlagged, h₁, h₂, int16_ofLe_leInt16, if_neg (Bool.eq_false_iff.mp hk₁),
    if_neg (Bool.eq_false_iff.mp hk₂), hw.range i hi, hw.byId i hi]

/-- The record of an object. -/
theorem limitedRecord_of_object {i : ClassInfo} (he : i.isEnum = false) (ho : i.isObject = true) (s : State) :
    v.limitedRecord limit recL i s = v.limitedObject limit recL i s := by
  rw [limitedRecord, if_neg (Bool.eq_false_iff.mp he), if_pos ho]

/-- The record of an array. -/
theorem limitedRecord_of_array {i : ClassInfo} (he : i.isEnum = false) (ha : i.isArray = true) (s : State) :
    v.limitedRecord limit recL i s = v.limitedArray limit recL i s := by
  rw [limitedRecord, if_neg (Bool.eq_false_iff.mp he), if_neg (Bool.eq_false_iff.mp (ClassInfo.isObject_of_isArray ha)),
    if_pos ha]

/-- **The reader stays below the limit**: on a stream of a tree that ends at or before the limit, it does what it does
under the limit. -/
theorem limitedParse_eq (hw : v.r.WellFormed) {fuel : ℕ} {t : Tree} (hl : t.Laid) (ht : t.height < fuel)
    (ho : t.Over v.r) (hc : t.Counted v.o) : v.LimitedAs limit (v.limitedParse limit fuel) (v.parse fuel) t := by
  induction fuel generalizing t with
  | zero => exact absurd ht (Nat.not_lt_zero _)
  | succ fuel ih =>
    have hparse : ∀ ts : List Tree, (∀ t ∈ ts, t.Laid) → heightAll ts < fuel → OverAll v.r ts →
        ∀ t ∈ ts, v.ParsesAs (v.parse fuel) t :=
      fun ts hls hts hov t ht =>
        parse_eq_rebuild hw (hls t ht) ((height_le_heightAll ht).trans_lt hts) (overAll_mem hov ht)
    have hall : ∀ ts : List Tree, (∀ t ∈ ts, t.Laid) → heightAll ts < fuel → OverAll v.r ts → CountedAll v.o ts →
        ∀ t ∈ ts, v.LimitedAs limit (v.limitedParse limit fuel) (v.parse fuel) t :=
      fun ts hls hts hov hcs t ht =>
        ih (hls t ht) ((height_le_heightAll ht).trans_lt hts) (overAll_mem hov ht) (countedAll_mem hcs ht)
    intro m off eid e hs hend
    have hal := upperAlign_mod off
    have hhead : upperAlign off 8 + 4 ≤ limit := (le_endOff _ _ t off).trans hend
    rw [limitedParse, parse]
    cases t with
    | null =>
      simp only [Stream] at hs
      rw [limitedStep_stateAt hhead, limitedFlagged, if_pos hs, parseStep_of_null _ hs]
      rfl
    | enumConst i ordinal =>
      obtain ⟨hi, he, hord, c, hg⟩ := ho
      simp only [Stream] at hs
      rw [endOff] at hend
      obtain ⟨h₁, h₂, h₃⟩ := head_eq hs (by decide) hord rfl
      rw [limitedStep_of_has eid e hw hi hhead h₁ h₂ (by decide) (by decide),
        parseStep_of_has _ hw hi h₁ h₂ (by decide) (by decide), limitedRecord, parseRecord, if_pos he, if_pos he]
      have h₄ : upperAlign off 8 + 4 + 4 ≤ limit := hend
      simp only [stateAt, RWBuffer.get, RWBuffer.getAt, h₃, hg, within_of_le h₄, bind, Except.bind]
      rfl
    | object i body ms =>
      obtain ⟨hi, he, hob, hbody, -, hms, hov⟩ := ho
      obtain ⟨hread, -, hstream⟩ := hs
      obtain ⟨h₁, h₂⟩ := read_append hread
      simp only [length_leInt16, length_le] at h₁ h₂
      rw [Tree.height] at ht
      rw [endOff] at hend
      rw [limitedStep_of_has eid e hw hi hhead (congrArg ofLe h₁) (congrArg ofLe h₂) (by decide) (by decide),
        parseStep_of_has _ hw hi (congrArg ofLe h₁) (congrArg ofLe h₂) (by decide) (by decide),
        limitedRecord_of_object he hob, parseRecord_of_object he hob]
      exact limitedObject_eq (hparse ms hl.members (by omega) hov) (hall ms hl.members (by omega) hov hc)
        (hl i List.mem_cons_self he hob) hal hbody hms hstream hend
    | refArray i es =>
      obtain ⟨hi, he, harr, ⟨f, hf, href⟩, hn, hov⟩ := ho
      obtain ⟨hread, hstream⟩ := hs
      obtain ⟨h₁, h₂, h₃⟩ := head_eq hread (by decide) (by omega) rfl
      rw [Tree.height] at ht
      rw [endOff] at hend
      rw [limitedStep_of_has eid e hw hi hhead h₁ h₂ (by decide) (by decide),
        parseStep_of_has _ hw hi h₁ h₂ (by decide) (by decide), limitedRecord_of_array he harr,
        parseRecord_of_array he harr]
      exact limitedArray_eq_refs (hparse es hl.elements (by omega) hov) (hall es hl.elements (by omega) hov hc) hal hf href h₃
        hstream hend
    | primArray i n contents =>
      obtain ⟨hi, he, harr, ⟨f, hf, hp, hlen⟩, hn⟩ := ho
      obtain ⟨hread, hbody⟩ := hs
      obtain ⟨h₁, h₂, h₃⟩ := head_eq hread (by decide) (by omega) rfl
      rw [endOff] at hend
      rw [Tree.Counted] at hc
      rw [(ClassInfo.elem_ok hf).1] at hbody hend hc
      rw [limitedStep_of_has eid e hw hi hhead h₁ h₂ (by decide) (by decide),
        parseStep_of_has _ hw hi h₁ h₂ (by decide) (by decide), limitedRecord_of_array he harr,
        parseRecord_of_array he harr]
      exact limitedArray_eq_prims hal hf hp h₃ (by omega) (limitedContents_eq hlen hp hbody hend hc)

/-! ### Past the limit -/

/-- A JVM that refuses nothing stores everything. -/
theorem admits_of_isA (hs : ∀ c k, v.jvm.isA c k = true) (elemKlass : ℕ) (x : Value) : v.jvm.admits elemKlass x = true := by
  unfold Jvm.admits
  cases x.jclass with
  | none => rfl
  | some c => exact hs c elemKlass

theorem exception_deleteLocalRef (e : JEnv) (h : Handle) : (e.deleteLocalRef h).exception = e.exception := by
  cases h <;> rfl

mutual

/-- With a JVM that refuses nothing every well-formed tree is rebuilt. -/
theorem rebuild_of_accepts (hw : v.r.WellFormed) (ha : v.jvm.Allocates) (hs : ∀ c k, v.jvm.isA c k = true) :
    ∀ (t : Tree) {e : JEnv}, t.Over v.r → e.exception = false → ∃ h e', v.rebuild t e = .ok (h, e') ∧ e'.exception = false
  | .null, e, _, he => ⟨.null, e, by rw [rebuild], he⟩
  | .enumConst i ordinal, e, ho, he => by
    obtain ⟨-, -, -, c, hc⟩ := ho
    exact ⟨.glob c.handle, e, by rw [rebuild, hc]; rfl, he⟩
  | .object i body ms, e, ho, he => by
    obtain ⟨-, -, -, -, -, -, hov⟩ := ho
    obtain ⟨vs, e', hall, he'⟩ := rebuildAll_of_accepts hw ha hs (fun _ => rfl) ms (e := e.newLocal) hov he
    refine ⟨.loc e.nLocals (.object i.klass (primValues i.fields body) (i.refFields.map (·.jFieldId)) vs), e', ?_, he'⟩
    rw [rebuild, if_neg (by rw [ha.object]; exact Bool.true_eq_false_eq_False), hall]
    simp only [bind, Except.bind, JEnv.check, he']
    rfl
  | .refArray i es, e, ho, he => by
    obtain ⟨hi, -, harr, ⟨f, hf, href⟩, hn, hov⟩ := ho
    obtain ⟨c, hc, -⟩ := hw.elem i f hi harr hf href
    rw [← (ClassInfo.elem_ok hf).2] at hc
    have htakes := admits_of_isA hs c.klass
    obtain ⟨vs, e', hall, he'⟩ := rebuildAll_of_accepts hw ha hs htakes es (e := e.newLocal) hov he
    refine ⟨.loc e.nLocals (.objArray c.klass vs), e', ?_, he'⟩
    rw [rebuild, hc]
    simp only [ha.objArray, Bool.and_true, decide_eq_true hn, hall]
    simp only [bind, Except.bind, JEnv.check, he']
    rfl
  | .primArray i n contents, e, ho, he => by
    obtain ⟨-, -, -, -, hn⟩ := ho
    refine ⟨.loc e.nLocals (.typeArray i.elemType n contents), e.newLocal, ?_, he⟩
    have hex : e.newLocal.exception = false := he
    rw [rebuild]
    simp only [ha.typeArray, Bool.and_true, decide_eq_true hn, JEnv.check, hex]
    rfl

theorem rebuildAll_of_accepts (hw : v.r.WellFormed) (ha : v.jvm.Allocates) (hs : ∀ c k, v.jvm.isA c k = true)
    {takes : Value → Bool} (htakes : ∀ x, takes x = true) : ∀ (ts : List Tree) {e : JEnv}, OverAll v.r ts →
    e.exception = false → ∃ vs e', v.rebuildAll takes ts e = .ok (vs, e') ∧ e'.exception = false
  | [], e, _, he => ⟨[], e, by rw [rebuildAll], he⟩
  | t :: ts, e, ho, he => by
    obtain ⟨h, e₁, hone, he₁⟩ := rebuild_of_accepts hw ha hs t ho.1 he
    obtain ⟨vs, e₂, hall, he₂⟩ := rebuildAll_of_accepts hw ha hs htakes ts (e := e₁.deleteLocalRef h) ho.2
      (by rw [exception_deleteLocalRef, he₁])
    refine ⟨e₁.resolve h :: vs, e₂, ?_, he₂⟩
    rw [rebuildAll, hone]
    simp only [bind, Except.bind, htakes, if_true, hall]
    rfl

end

/-- On every stream of the tree that ends below the limit, `recL` goes past the limit. -/
def GoesPast (v : ObjectReviver) (limit : ℕ) (recL : LimitedParse) (t : Tree) : Prop :=
  ∀ m off eid e, Stream v.o v.simdutf m off t → endOff v.o v.simdutf off t ≤ limit → e.exception = false →
    recL eid (stateAt m off e) = .error none

/-- On every stream of the tree that ends below the limit, `recL` stays below it, and no exception is pending. -/
def ComesBack (v : ObjectReviver) (limit : ℕ) (recL : LimitedParse) (t : Tree) : Prop :=
  ∀ m off eid e, Stream v.o v.simdutf m off t → endOff v.o v.simdutf off t ≤ limit → e.exception = false →
    ∃ h e', recL eid (stateAt m off e) = .ok (h, stateAt m (endOff v.o v.simdutf off t) e') ∧ e'.exception = false

theorem comesBack_of_limitedAs (hw : v.r.WellFormed) (ha : v.jvm.Allocates) (hs : ∀ c k, v.jvm.isA c k = true) {t : Tree}
    (ho : t.Over v.r) (hrec : v.ParsesAs rec t) (hlim : v.LimitedAs limit recL rec t) : v.ComesBack limit recL t := by
  intro m off eid e hstream hend he
  obtain ⟨h, e', hok, he'⟩ := rebuild_of_accepts hw ha hs _ (over_reread t off ho) he
  refine ⟨h, e', ?_, he'⟩
  rw [hlim m off eid e hstream hend, hrec m off eid e hstream, hok]
  rfl

/-- The loop over the fields ends at the first member that goes past the limit. -/
theorem limitedFields_eq_none {m : Mem} {base : ℕ} {fs : List FieldInfo} {ms : List Tree} {off : ℕ} {obj : Value} {e : JEnv}
    (hback : ∀ t ∈ ms, t.Counted v.o → v.ComesBack limit recL t) (hpast : ∀ t ∈ ms, ¬ t.Counted v.o → v.GoesPast limit recL t)
    (hstream : StreamAll v.o v.simdutf m off ms) (hend : endAll v.o v.simdutf off ms ≤ limit)
    (hlen : ms.length = (fs.filter (·.type.isReference)).length)
    (hprim : ∀ f ∈ fs, base + f.offset + f.type.size ≤ limit) (he : e.exception = false) (hc : ¬ CountedAll v.o ms) :
    limitedFields limit recL base fs obj (stateAt m off e) = .error none := by
  induction fs generalizing ms off obj e with
  | nil =>
    have hms : ms = [] := List.length_eq_zero_iff.mp hlen
    subst hms
    exact absurd trivial hc
  | cons f fs ih =>
    have hprim' : ∀ g ∈ fs, base + g.offset + g.type.size ≤ limit := fun g hg => hprim g (List.mem_cons_of_mem _ hg)
    rw [limitedFields]
    cases hr : f.type.isReference with
    | false =>
      rw [filter_isReference_of_neg hr] at hlen
      rw [within_of_le (hprim f List.mem_cons_self)]
      split
      · exact ih hback hpast hstream hend hlen hprim' he hc
      · exact ih hback hpast hstream hend hlen hprim' he hc
    | true =>
      have hp := BasicType.ne_primitive_of_isReference hr
      rw [filter_isReference_of_pos hr] at hlen
      cases ms with
      | nil => cases hlen
      | cons t ts =>
        simp only [StreamAll] at hstream
        rw [endAll] at hend
        have hmid : endOff v.o v.simdutf off t ≤ limit := (le_endAll _ _ ts _).trans hend
        rw [if_neg hp, if_pos rfl]
        by_cases ht : t.Counted v.o
        · obtain ⟨h, e', hone, he'⟩ := hback t List.mem_cons_self ht m off f.id e hstream.1 hmid he
          rw [hone]
          exact ih (fun t ht => hback t (List.mem_cons_of_mem _ ht)) (fun t ht => hpast t (List.mem_cons_of_mem _ ht))
            hstream.2 hend (by simpa using hlen) hprim' ((exception_deleteLocalRef e' h).trans he') (fun h => hc ⟨ht, h⟩)
        · rw [hpast t List.mem_cons_self ht m off f.id e hstream.1 hmid he]
          rfl

/-- So does the loop over the elements. -/
theorem limitedElems_eq_none {m : Mem} {elemKlass n i : ℕ} {id : ℤ} {es : List Tree} {off : ℕ} {elems : List Value} {e : JEnv}
    (htakes : ∀ x : Value, v.jvm.admits elemKlass x = true)
    (hback : ∀ t ∈ es, t.Counted v.o → v.ComesBack limit recL t) (hpast : ∀ t ∈ es, ¬ t.Counted v.o → v.GoesPast limit recL t)
    (hstream : StreamAll v.o v.simdutf m off es) (hend : endAll v.o v.simdutf off es ≤ limit) (hlen : es.length = n)
    (he : e.exception = false) (hc : ¬ CountedAll v.o es) :
    v.limitedElems recL elemKlass id n i elems (stateAt m off e) = .error none := by
  induction es generalizing n i off elems e with
  | nil => exact absurd trivial hc
  | cons t ts ih =>
    cases hlen
    simp only [StreamAll] at hstream
    rw [endAll] at hend
    have hmid : endOff v.o v.simdutf off t ≤ limit := (le_endAll _ _ ts _).trans hend
    rw [List.length_cons, limitedElems]
    by_cases ht : t.Counted v.o
    · obtain ⟨h, e', hone, he'⟩ := hback t List.mem_cons_self ht m off id e hstream.1 hmid he
      rw [hone]
      simp only [bind, Except.bind, setElement, htakes, if_true, stateAt]
      exact ih (fun t ht => hback t (List.mem_cons_of_mem _ ht)) (fun t ht => hpast t (List.mem_cons_of_mem _ ht))
        hstream.2 hend rfl ((exception_deleteLocalRef e' h).trans he') (fun h => hc ⟨ht, h⟩)
    · rw [hpast t List.mem_cons_self ht m off id e hstream.1 hmid he]
      rfl

theorem limitedObject_eq_none {m : Mem} {off : ℕ} {i : ClassInfo} {body : Bytes} {ms : List Tree} {e : JEnv}
    (ha : v.jvm.Allocates) (hback : ∀ t ∈ ms, t.Counted v.o → v.ComesBack limit recL t)
    (hpast : ∀ t ∈ ms, ¬ t.Counted v.o → v.GoesPast limit recL t) (hl : i.Laid) (hal : off % 8 = 0)
    (hbody : body.length = i.objectBodySize) (hlen : ms.length = i.refFields.length)
    (hstream : StreamAll v.o v.simdutf m (off + 8 + body.length) ms)
    (hend : endAll v.o v.simdutf (off + 8 + body.length) ms ≤ limit) (he : e.exception = false)
    (hc : ¬ CountedAll v.o ms) : v.limitedObject limit recL i (stateAt m (off + 4) e) = .error none := by
  have hbase := upperAlign_add_four hal
  have hprim := fields_below hl hbody hend
  have hfields : limitedFields limit recL (off + 8) i.fields (.object i.klass [] [] [])
      (stateAt m (off + 8 + body.length) e.newLocal) = .error none :=
    limitedFields_eq_none hback hpast hstream hend hlen hprim he hc
  rw [limitedObject]
  simp only [stateAt, RWBuffer.skipNextAlign8, RWBuffer.skip, hbase] at hfields ⊢
  rw [hbody] at hfields
  rw [if_neg (by rw [ha.object]; exact Bool.true_eq_false_eq_False), hfields]
  rfl

theorem limitedArray_eq_none_refs {m : Mem} {off : ℕ} {i : ClassInfo} {f : FieldInfo} {es : List Tree} {e : JEnv}
    {c : ClassInfo} (ha : v.jvm.Allocates) (hs : ∀ c k, v.jvm.isA c k = true)
    (hback : ∀ t ∈ es, t.Counted v.o → v.ComesBack limit recL t) (hpast : ∀ t ∈ es, ¬ t.Counted v.o → v.GoesPast limit recL t)
    (hal : off % 8 = 0) (hf : i.elem = .ok f) (href : f.type.isReference = true) (hget : v.r.getById f.id = some c)
    (hn : es.length < 2 ^ 31) (hlen : ofLe (read m (off + 4) 4) = es.length)
    (hstream : StreamAll v.o v.simdutf m (off + 8) es) (hend : endAll v.o v.simdutf (off + 8) es ≤ limit)
    (he : e.exception = false) (hc : ¬ CountedAll v.o es) :
    v.limitedArray limit recL i (stateAt m (off + 4) e) = .error none := by
  have hbase := upperAlign_add_four_four hal
  have hp := BasicType.ne_primitive_of_isReference href
  have hhead : off + 4 + 4 ≤ limit := (le_endAll _ _ es _).trans hend
  have htakes := admits_of_isA hs c.klass
  have helems : v.limitedElems recL c.klass f.id es.length 0 (List.replicate es.length .null)
      (stateAt m (off + 8) e.newLocal) = .error none :=
    limitedElems_eq_none htakes hback hpast hstream hend rfl he hc
  rw [limitedArray]
  simp only [stateAt] at helems
  simp only [stateAt, RWBuffer.get, RWBuffer.getAt, RWBuffer.skipNextAlign8, hbase, hlen, hf, bind, Except.bind,
    within_of_le hhead, unlimited, if_neg hp, if_pos href, hget, ha.objArray, Bool.and_true, decide_eq_true hn, helems]
  rfl

/-- An array of 2^32 bytes or more has at least 2^29 elements, all of which `SetByteArrayRegion` counts as bytes. -/
theorem limitedArray_eq_none_prims {m : Mem} {off n : ℕ} {i : ClassInfo} {f : FieldInfo} {e : JEnv}
    (ha : v.jvm.Allocates) (hlimit : limit < 2 ^ 29) (hal : off % 8 = 0) (hf : i.elem = .ok f)
    (hp : f.type.isPrimitive = true) (hn : n < 2 ^ 31) (hlen : ofLe (read m (off + 4) 4) = n) (hhead : off + 8 ≤ limit)
    (hc : ¬ ((f.type = .char ∧ v.o.enableUtf16ToUtf8 = true) ∨ n * f.type.size < 2 ^ 32)) :
    v.limitedArray limit recL i (stateAt m (off + 4) e) = .error none := by
  have hbase := upperAlign_add_four_four hal
  have hhead' : off + 4 + 4 ≤ limit := hhead
  obtain ⟨hcv, hsize⟩ := not_or.mp hc
  have hsize8 : f.type.size ≤ 8 := by cases f.type <;> decide
  have hmul : n * f.type.size ≤ n * 8 := Nat.mul_le_mul_left n hsize8
  have hbig : limit < off + 8 + n := by omega
  have hcont : v.limitedContents limit f.type n ⟨m, off + 8⟩ = .error none := by
    rw [limitedContents, if_neg hcv, within_of_lt hbig]
    rfl
  rw [limitedArray]
  simp only [stateAt, RWBuffer.get, RWBuffer.getAt, RWBuffer.skipNextAlign8, hbase, hlen, hf, bind, Except.bind,
    within_of_le hhead', unlimited, if_pos hp, ha.typeArray, Bool.and_true, decide_eq_true hn, hcont]
  rfl

/-- **The reader goes past the limit** on a tree with a primitive array of 2^32 bytes or more, if the JVM refuses
nothing. -/
theorem limitedParse_eq_none (hw : v.r.WellFormed) (ha : v.jvm.Allocates) (hs : ∀ c k, v.jvm.isA c k = true)
    (hlimit : limit < 2 ^ 29) {fuel : ℕ} {t : Tree} (hl : t.Laid) (ht : t.height < fuel) (ho : t.Over v.r)
    (hc : ¬ t.Counted v.o) : v.GoesPast limit (v.limitedParse limit fuel) t := by
  induction fuel generalizing t with
  | zero => exact absurd ht (Nat.not_lt_zero _)
  | succ fuel ih =>
    have hback : ∀ ts : List Tree, (∀ t ∈ ts, t.Laid) → heightAll ts < fuel → OverAll v.r ts →
        ∀ t ∈ ts, t.Counted v.o → v.ComesBack limit (v.limitedParse limit fuel) t := by
      intro ts hls hts hov t ht hct
      have hlt := hls t ht
      have hheight := (height_le_heightAll ht).trans_lt hts
      have hot := overAll_mem hov ht
      exact comesBack_of_limitedAs hw ha hs hot (parse_eq_rebuild hw hlt hheight hot) (limitedParse_eq hw hlt hheight hot hct)
    have hpast : ∀ ts : List Tree, (∀ t ∈ ts, t.Laid) → heightAll ts < fuel → OverAll v.r ts →
        ∀ t ∈ ts, ¬ t.Counted v.o → v.GoesPast limit (v.limitedParse limit fuel) t :=
      fun ts hls hts hov t ht hct => ih (hls t ht) ((height_le_heightAll ht).trans_lt hts) (overAll_mem hov ht) hct
    intro m off eid e hstream hend he
    have hal := upperAlign_mod off
    have hhead : upperAlign off 8 + 4 ≤ limit := (le_endOff _ _ t off).trans hend
    rw [limitedParse]
    cases t with
    | null => exact absurd trivial hc
    | enumConst i ordinal => exact absurd trivial hc
    | object i body ms =>
      obtain ⟨hi, hie, hob, hbody, -, hms, hov⟩ := ho
      obtain ⟨hread, -, hstream⟩ := hstream
      obtain ⟨h₁, h₂⟩ := read_append hread
      simp only [length_leInt16, length_le] at h₁ h₂
      rw [Tree.height] at ht
      rw [endOff] at hend
      rw [Tree.Counted] at hc
      rw [limitedStep_of_has eid e hw hi hhead (congrArg ofLe h₁) (congrArg ofLe h₂) (by decide) (by decide),
        limitedRecord_of_object hie hob]
      exact limitedObject_eq_none ha (hback ms hl.members (by omega) hov) (hpast ms hl.members (by omega) hov)
        (hl i List.mem_cons_self hie hob) hal hbody hms
        hstream hend he hc
    | refArray i es =>
      obtain ⟨hi, hie, harr, ⟨f, hf, href⟩, hn, hov⟩ := ho
      obtain ⟨hread, hstream⟩ := hstream
      obtain ⟨h₁, h₂, h₃⟩ := head_eq hread (by decide) (by omega) rfl
      obtain ⟨c, hget, -⟩ := hw.elem i f hi harr hf href
      rw [Tree.height] at ht
      rw [endOff] at hend
      rw [Tree.Counted] at hc
      rw [limitedStep_of_has eid e hw hi hhead h₁ h₂ (by decide) (by decide), limitedRecord_of_array hie harr]
      exact limitedArray_eq_none_refs ha hs (hback es hl.elements (by omega) hov) (hpast es hl.elements (by omega) hov) hal hf
        href hget hn h₃ hstream hend he hc
    | primArray i n contents =>
      obtain ⟨hi, hie, harr, ⟨f, hf, hp, -⟩, hn⟩ := ho
      obtain ⟨hread, -⟩ := hstream
      obtain ⟨h₁, h₂, h₃⟩ := head_eq hread (by decide) (by omega) rfl
      rw [endOff] at hend
      rw [Tree.Counted, (ClassInfo.elem_ok hf).1] at hc
      rw [limitedStep_of_has eid e hw hi hhead h₁ h₂ (by decide) (by decide), limitedRecord_of_array hie harr]
      exact limitedArray_eq_none_prims ha hlimit hal hf hp hn h₃ (by omega) hc

end ObjectReviver

end DShuffle.Serde
