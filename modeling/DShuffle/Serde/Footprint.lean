import DShuffle.Base.Extents
import DShuffle.Serde.Relocation
import DShuffle.Serde.RoundTrip

/-!
# What the walker stores to

An `RWBuffer` has a `limit()`, and nothing in the walker asks for it. This module has the same walker with every store
recorded: where it starts and how many bytes it has. Dropping the record gives the walker back.

## What is proved

* `recorded_buf` — the recorded walker does what the walker does.
* `recorded_reaches` — on an address that unfolds to a tree, the stores fill exactly what lies between the cursor and
  `reach`, a function of the tree.
* `serialize_inside_iff` — exactly when all stores of `Context::serialize` lie inside a buffer of `N` bytes and fill the
  serialized record.
* `not_inside_sixteen` — a record of 40 bytes is written into a buffer of 16.

## Honest scope

`reach` goes behind the record only for the transcoder: it stores the text in front of a unit that it refuses, and
returns 0. `NewByteArray` gets the length of the record; that it may refuse it is not modelled.
-/

namespace DShuffle.Serde

open Base

/-! ### Recorded stores -/

/-- An `RWBuffer` with the stores to it. -/
structure Recorded where
  /-- The buffer. -/
  buf : RWBuffer
  /-- Where it was stored to, in order. -/
  stores : List Extent

namespace Recorded

/-- `put`. -/
def put (b : Recorded) (bs : Bytes) : Recorded := ⟨b.buf.put bs, b.stores ++ [⟨b.buf.off, bs.length⟩]⟩

/-- `put_at`. -/
def putAt (b : Recorded) (bs : Bytes) (offset : ℕ) : Recorded :=
  ⟨b.buf.putAt bs offset, b.stores ++ [⟨offset, bs.length⟩]⟩

/-- `skip`. -/
def skip (b : Recorded) (n : ℕ) : Recorded := ⟨b.buf.skip n, b.stores⟩

/-- `fill_next_align_8`. -/
def fillNextAlign8 (b : Recorded) : Recorded := b.put (pad8 b.buf.off)

@[simp] theorem buf_put (b : Recorded) (bs : Bytes) : (b.put bs).buf = b.buf.put bs := rfl

@[simp] theorem buf_putAt (b : Recorded) (bs : Bytes) (offset : ℕ) : (b.putAt bs offset).buf = b.buf.putAt bs offset := rfl

@[simp] theorem buf_skip (b : Recorded) (n : ℕ) : (b.skip n).buf = b.buf.skip n := rfl

@[simp] theorem buf_fillNextAlign8 (b : Recorded) : b.fillNextAlign8.buf = b.buf.fillNextAlign8 := rfl

/-- Going from `b` to `b'` stored to exactly the bytes from the cursor of `b` on and below `e`. -/
def Wrote (b b' : Recorded) (e : ℕ) : Prop := ∃ new, b'.stores = b.stores ++ new ∧ Fills new b.buf.off e

variable {b b₁ b₂ : Recorded} {e e₁ e₂ : ℕ}

theorem wrote_put (b : Recorded) (bs : Bytes) : Wrote b (b.put bs) (b.put bs).buf.off := ⟨_, rfl, fills_single _ _⟩

/-- First the one, then the other, which starts where the first has stored or at its end. -/
theorem Wrote.trans (h₁ : Wrote b b₁ e₁) (h₂ : Wrote b₁ b₂ e₂) (hoff : b.buf.off ≤ b₁.buf.off) (hle : b₁.buf.off ≤ e₁) :
    Wrote b b₂ (max e₁ e₂) := by
  obtain ⟨new₁, hs₁, hf₁⟩ := h₁
  obtain ⟨new₂, hs₂, hf₂⟩ := h₂
  exact ⟨new₁ ++ new₂, by rw [hs₂, hs₁, List.append_assoc], hf₁.append hf₂ hoff hle⟩

theorem Wrote.put (h : Wrote b b₁ b₁.buf.off) (hoff : b.buf.off ≤ b₁.buf.off) (bs : Bytes) :
    Wrote b (b₁.put bs) (b₁.put bs).buf.off := by
  have htrans := h.trans (wrote_put b₁ bs) hoff le_rfl
  rwa [max_eq_right (show b₁.buf.off ≤ (b₁.put bs).buf.off from Nat.le_add_right ..)] at htrans

/-- A store behind the start. -/
theorem Wrote.putAt (h : Wrote b b₁ e) {offset : ℕ} (hstart : b.buf.off ≤ offset) (hle : offset ≤ e) (bs : Bytes) :
    Wrote b (b₁.putAt bs offset) (max e (offset + bs.length)) := by
  obtain ⟨new, hs, hf⟩ := h
  refine ⟨new ++ [⟨offset, bs.length⟩], ?_, hf.append (fills_single _ _) hstart hle⟩
  rw [Recorded.putAt, hs, List.append_assoc]

end Recorded

namespace ObjectWalker

variable (w : ObjectWalker)

/-- A call of the recorded walker. -/
abbrev RecordedWalk := ℕ → ℤ → Recorded → Except Fault (ℕ × Recorded)

/-- `walkFields`, recorded. -/
def recordedFields (rec : RecordedWalk) (objBase : ℕ) : List FieldInfo → Recorded → Except Fault Recorded
  | [], b => .ok b
  | f :: fs, b =>
    if f.type.isPrimitive then recordedFields rec objBase fs b
    else do
      let fOffset := objBase + f.offset
      let member ← w.heap.args.parseHeapCptr (b.buf.getAt 4 fOffset)
      let (memberOffset, b) ← rec member f.id b
      recordedFields rec objBase fs (b.putAt (le 4 memberOffset) fOffset)

/-- `doWalkObject`, recorded. -/
def recordedObject (rec : RecordedWalk) (a : ℕ) (info : ClassInfo) (b : Recorded) : Except Fault Recorded :=
  let b := ((b.put (leInt16 info.id)).put (le 2 objectFlag)).fillNextAlign8
  let objBase := b.buf.off
  w.recordedFields rec objBase info.fields (b.put (w.heap.raw a info.headerSize info.objectBodySize))

/-- `walkElems`, recorded. -/
def recordedElems (rec : RecordedWalk) (a base : ℕ) (id : ℤ) : (n i : ℕ) → Recorded → Except Fault Recorded
  | 0, _, b => .ok b
  | n + 1, i, b => do
    let elem ← w.heap.arrayElemRef a base i
    let (_, b) ← rec elem id b
    recordedElems rec a base id n (i + 1) b

/-- `cvtUtf16ToUtf8`, recorded: the conversion stores as many bytes as it writes. -/
def recordedUtf8 (a : ℕ) (info : ClassInfo) (t : BasicType) (length : ℕ) (b : Recorded) : Recorded :=
  let b := b.put (le 4 (ClassInfo.arrayBodySize t length))
  let (stored, n) := w.simdutf.toUtf8 (w.heap.raw a info.headerSize (length * 2))
  let b := b.putAt stored (b.buf.off + 4)
  let actual := u32 n
  (b.put (le 4 actual)).skip actual

/-- `doWalkArray`, recorded. -/
def recordedArray (rec : RecordedWalk) (a : ℕ) (info : ClassInfo) (b : Recorded) : Except Fault Recorded := do
  let length := w.heap.arrayLength a info.headerSize
  let b := (((b.put (leInt16 info.id)).put (le 2 arrayFlag)).put (le 4 length)).fillNextAlign8
  let elem ← info.elem
  if elem.type.isReference then w.recordedElems rec a info.headerSize elem.id length 0 b
  else if elem.type.isPrimitive then
    if elem.type = .char ∧ w.o.enableUtf16ToUtf8 = true then return w.recordedUtf8 a info elem.type length b
    else return b.put (w.heap.raw a info.headerSize (ClassInfo.arrayBodySize elem.type length))
  else throw .unreachable

/-- `walkStep`, recorded. -/
def recordedStep (rec : RecordedWalk) : RecordedWalk := fun a expectedId b =>
  let b := b.fillNextAlign8
  let base := u32 b.buf.off
  if a = 0 then .ok (base, (b.put (leInt16 expectedId)).put (le 2 nullFlag))
  else do
    let klass ← w.heap.klassPointer a
    match w.r.getByKlass klass with
    | none => throw .badAccess
    | some info =>
      if info.isEnum then
        return (base, ((b.put (leInt16 info.id)).put (le 2 (enumFlag + objectFlag))).put
          (le 4 (w.heap.enumOrdinal a)))
      else if info.isObject then return (base, ← w.recordedObject rec a info b)
      else if info.isArray then return (base, ← w.recordedArray rec a info b)
      else throw .unreachable

/-- `walk`, recorded. -/
def recorded : (fuel : ℕ) → RecordedWalk
  | 0 => fun _ _ _ => .error .fuel
  | fuel + 1 => w.recordedStep (recorded fuel)

/-- The static `walk`, recorded. -/
def recordedRoot (fuel : ℕ) (a : ℕ) (out : Mem) : Except Fault (ℕ × Recorded) := do
  let (_, b) ← w.recorded fuel a unregisteredClassId (Recorded.skip ⟨⟨out, 0⟩, []⟩ objectDataOffset)
  let b := b.putAt (le 8 b.buf.off) 0
  return (b.buf.off, b)

/-- `Context::serialize`, on an output buffer: the Java array that it returns, and the stores to the buffer. -/
def serialize (fuel : ℕ) (a : ℕ) (out : Mem) : Except Fault (Bytes × List Extent) := do
  let (totalLength, b) ← w.recordedRoot fuel a out
  return (read b.buf.data 0 totalLength, b.stores)

/-! ### The recorded walker is the walker -/

/-- The recorded call does what the plain one does. -/
def Records (rec : RecordedWalk) (plain : Walk) : Prop :=
  ∀ a eid b, (rec a eid b).map (fun x => (x.1, x.2.buf)) = plain a eid b.buf

variable {w} {rec : RecordedWalk} {plain : Walk}

/-- What a recorded call gives is what the plain call gives. -/
theorem Records.ok (h : Records rec plain) {a base : ℕ} {eid : ℤ} {b b' : Recorded} (hr : rec a eid b = .ok (base, b')) :
    plain a eid b.buf = .ok (base, b'.buf) := by
  rw [← h a eid b, hr]
  rfl

theorem recordedFields_buf (h : Records rec plain) (objBase : ℕ) (fs : List FieldInfo) (b : Recorded) :
    (w.recordedFields rec objBase fs b).map Recorded.buf = w.walkFields plain objBase fs b.buf := by
  induction fs generalizing b with
  | nil => rfl
  | cons f fs ih =>
    rw [recordedFields, walkFields]
    cases f.type.isPrimitive with
    | true => exact ih b
    | false =>
      simp only [Bool.false_eq_true, if_false, bind, Except.bind]
      cases w.heap.args.parseHeapCptr (b.buf.getAt 4 (objBase + f.offset)) with
      | error e => rfl
      | ok member =>
        simp only
        rw [← h member f.id b]
        cases rec member f.id b with
        | error e => rfl
        | ok x => exact ih (x.2.putAt (le 4 x.1) (objBase + f.offset))

theorem recordedElems_buf (h : Records rec plain) (a base : ℕ) (id : ℤ) (n i : ℕ) (b : Recorded) :
    (w.recordedElems rec a base id n i b).map Recorded.buf = w.walkElems plain a base id n i b.buf := by
  induction n generalizing i b with
  | zero => rfl
  | succ n ih =>
    rw [recordedElems, walkElems]
    cases w.heap.arrayElemRef a base i with
    | error e => rfl
    | ok elem =>
      simp only [bind, Except.bind]
      rw [← h elem id b]
      cases rec elem id b with
      | error e => rfl
      | ok x => exact ih (i + 1) x.2

theorem recordedArray_buf (h : Records rec plain) (a : ℕ) (info : ClassInfo) (b : Recorded) :
    (w.recordedArray rec a info b).map Recorded.buf = w.doWalkArray plain a info b.buf := by
  rw [recordedArray, doWalkArray]
  cases info.elem with
  | error e => rfl
  | ok elem =>
    simp only [bind, Except.bind]
    split_ifs
    · exact recordedElems_buf h ..
    · rfl
    · rfl
    · rfl

theorem recordedStep_buf (h : Records rec plain) : Records (w.recordedStep rec) (w.walkStep plain) := by
  intro a eid b
  rw [recordedStep, walkStep]
  by_cases ha : a = 0
  · rw [if_pos ha, if_pos ha]
    rfl
  · rw [if_neg ha, if_neg ha]
    cases w.heap.klassPointer a with
    | error e => rfl
    | ok klass =>
      simp only [bind, Except.bind]
      cases w.r.getByKlass klass with
      | none => rfl
      | some info =>
        simp only
        split_ifs
        · rfl
        · have hobj := recordedFields_buf (w := w) h (((b.fillNextAlign8.put (leInt16 info.id)).put
            (le 2 objectFlag)).fillNextAlign8.buf.off) info.fields ((((b.fillNextAlign8.put (leInt16 info.id)).put
            (le 2 objectFlag)).fillNextAlign8).put (w.heap.raw a info.headerSize info.objectBodySize))
          rw [recordedObject, doWalkObject]
          simp only [Recorded.buf_put, Recorded.buf_fillNextAlign8] at hobj ⊢
          rw [← hobj]
          cases w.recordedFields rec _ info.fields _ with
          | error e => rfl
          | ok b' => rfl
        · have harr := recordedArray_buf (w := w) h a info b.fillNextAlign8
          rw [Recorded.buf_fillNextAlign8] at harr
          rw [← harr]
          cases w.recordedArray rec a info b.fillNextAlign8 with
          | error e => rfl
          | ok b' => rfl
        · rfl

/-- **The recorded walker does what the walker does.** -/
theorem recorded_buf (fuel : ℕ) : Records (w.recorded fuel) (w.walk fuel) := by
  induction fuel with
  | zero => exact fun _ _ _ => rfl
  | succ fuel ih => exact recordedStep_buf ih

end ObjectWalker

/-! ### How far the stores for a tree reach -/

section
variable (o : Options) (u : Simdutf)

/-- How many bytes behind its length an array of primitive values stores to. -/
def storedLength (t : BasicType) (length : ℕ) (contents : Bytes) : ℕ :=
  if t = .char ∧ o.enableUtf16ToUtf8 = true then 8 + (u.toUtf8 contents).1.length
  else (contents.take (ClassInfo.arrayBodySize t length)).length

mutual

/-- The end of the stores for a tree, when the cursor stands at `off`. -/
def reach (off : ℕ) : Tree → ℕ
  | .null => upperAlign off 8 + 4
  | .enumConst .. => upperAlign off 8 + 8
  | .object _ body ms => reachAll (upperAlign off 8 + 8 + body.length) ms
  | .refArray _ es => reachAll (upperAlign off 8 + 8) es
  | .primArray i n contents => upperAlign off 8 + 8 + storedLength o u i.elemType n contents

/-- The end of the stores for the trees, one after the other. -/
def reachAll (off : ℕ) : List Tree → ℕ
  | [] => off
  | t :: ts => max (reach off t) (reachAll (endOff o u off t) ts)

end

theorem length_encodeContents_le (t : BasicType) (length : ℕ) (contents : Bytes) :
    (encodeContents o u t length contents).length ≤ storedLength o u t length contents := by
  unfold encodeContents storedLength
  split_ifs
  · simp only [List.length_append, length_le, List.length_take]
    omega
  · exact le_rfl

theorem reachAll_cons (off : ℕ) (t : Tree) (ts : List Tree) :
    reachAll o u off (t :: ts) = max (reach o u off t) (reachAll o u (endOff o u off t) ts) := by rw [reachAll]

mutual

/-- The stores reach the cursor. -/
theorem endOff_le_reach : ∀ (t : Tree) (off : ℕ), endOff o u off t ≤ reach o u off t
  | .null, off => by rw [endOff, reach]
  | .enumConst .., off => by rw [endOff, reach]
  | .object _ body ms, off => by
    rw [endOff, reach]
    exact endAll_le_reachAll ms _
  | .refArray _ es, off => by
    rw [endOff, reach]
    exact endAll_le_reachAll es _
  | .primArray i n contents, off => by
    have hle := length_encodeContents_le o u i.elemType n contents
    rw [endOff, reach]
    omega

theorem endAll_le_reachAll : ∀ (ts : List Tree) (off : ℕ), endAll o u off ts ≤ reachAll o u off ts
  | [], off => by rw [endAll, reachAll]
  | t :: ts, off => by
    rw [endAll, reachAll]
    exact (endAll_le_reachAll ts _).trans (le_max_right ..)

end

end

/-! ### The stores of a walk -/

namespace ObjectWalker

open Recorded

/-- On every address that unfolds to the tree, a call stores to exactly what lies between the cursor and `reach`. -/
def Reaches (w : ObjectWalker) (rec : RecordedWalk) (t : Tree) : Prop :=
  ∀ a eid b base b', Unfolds w.heap w.r a t → rec a eid b = .ok (base, b') → Wrote b b' (reach w.o w.simdutf b.buf.off t)

variable {w : ObjectWalker} {rec : RecordedWalk} {plain : Walk} {b₀ b : Recorded} {e : ℕ}

/-- What is known of the call for a member or an element: it is the walker's, and where it stores. -/
structure Known (w : ObjectWalker) (rec : RecordedWalk) (plain : Walk) (t : Tree) : Prop where
  walks : w.WalksAs plain t
  reaches : w.Reaches rec t

/-- One call behind earlier stores. -/
theorem Known.call (hl : w.r.Slotted) (hR : Records rec plain) {t : Tree} (hk : Known w rec plain t) {a base : ℕ} {eid : ℤ}
    {b₁ : Recorded} (hu : Unfolds w.heap w.r a t) (hr : rec a eid b = .ok (base, b₁)) (hw : Wrote b₀ b e)
    (hoff : b₀.buf.off ≤ b.buf.off) (hle : b.buf.off ≤ e) :
    Wrote b₀ b₁ (max e (reach w.o w.simdutf b.buf.off t)) ∧ b₁.buf.off = endOff w.o w.simdutf b.buf.off t ∧
      RWBuffer.Emits b.buf (encode w.o w.simdutf b.buf.off eid t) b₁.buf := by
  have hplain := hR.ok hr
  obtain ⟨buf', hok, hem⟩ := hk.walks a eid b.buf hu
  have hbuf : buf' = b₁.buf := by
    rw [hok] at hplain
    cases hplain
    rfl
  rw [hbuf] at hem
  refine ⟨hw.trans (hk.reaches a eid b base b₁ hu hr) hoff hle, ?_, hem⟩
  rw [hem.off, endOff_eq_length hl (over_of_unfolds hl t hu)]

theorem recordedElems_reaches (hl : w.r.Slotted) (hR : Records rec plain) (id : ℤ) {a base n i : ℕ} {ts : List Tree}
    {b' : Recorded} (hk : ∀ t ∈ ts, Known w rec plain t)
    (hu : UnfoldsAll w.heap w.r ((List.range' i n).map (w.heap.arrayElemRef a base)) ts) (hw : Wrote b₀ b e)
    (hoff : b₀.buf.off ≤ b.buf.off) (hle : b.buf.off ≤ e) (hr : w.recordedElems rec a base id n i b = .ok b') :
    Wrote b₀ b' (max e (reachAll w.o w.simdutf b.buf.off ts)) := by
  induction ts generalizing n i b e with
  | nil =>
    simp only [UnfoldsAll, List.map_eq_nil_iff, List.range'_eq_nil_iff] at hu
    subst hu
    cases hr
    rwa [reachAll, max_eq_left hle]
  | cons t ts ih =>
    cases n with
    | zero => simp [UnfoldsAll] at hu
    | succ n =>
      rw [List.range'_succ, List.map_cons] at hu
      simp only [UnfoldsAll, List.cons.injEq] at hu
      obtain ⟨elem, refs, ⟨helem, rfl⟩, ht, hts⟩ := hu
      rw [recordedElems] at hr
      obtain ⟨elem', helem', hr⟩ := bind_eq_ok hr
      cases helem.symm.trans helem'
      obtain ⟨⟨x, b₁⟩, hrec, hrest⟩ := bind_eq_ok hr
      obtain ⟨hw₁, hend, hem⟩ := (hk t List.mem_cons_self).call hl hR ht hrec hw hoff hle
      have hmono : b.buf.off ≤ b₁.buf.off := by rw [hem.off]; exact Nat.le_add_right ..
      have hreach := endOff_le_reach w.o w.simdutf t b.buf.off
      have h := ih (fun t ht => hk t (List.mem_cons_of_mem _ ht)) hts hw₁ (hoff.trans hmono)
        (by rw [hend]; exact hreach.trans (le_max_right ..)) hrest
      rwa [hend, max_assoc, ← reachAll_cons] at h

theorem recordedFields_reaches (hl : w.r.Slotted) (hR : Records rec plain) {objBase : ℕ} {fs : List FieldInfo}
    {ms : List Tree} {b' : Recorded} (hk : ∀ t ∈ ms, Known w rec plain t)
    (hty : ∀ f ∈ fs, f.type.isPrimitive = true ∨ f.type.isReference = true)
    (hin : ∀ f ∈ fs, f.type.isReference = true → objBase + f.offset + 4 ≤ b.buf.off)
    (hap : fs.Pairwise fun f g => f.type.isReference = true → g.type.isReference = true → f.Disjoint g)
    (hu : UnfoldsAll w.heap w.r ((fs.filter (·.type.isReference)).map
      fun f => w.heap.args.parseHeapCptr (b.buf.getAt 4 (objBase + f.offset))) ms)
    (hstart : b₀.buf.off ≤ objBase) (hw : Wrote b₀ b e) (hoff : b₀.buf.off ≤ b.buf.off) (hle : b.buf.off ≤ e)
    (hr : w.recordedFields rec objBase fs b = .ok b') :
    Wrote b₀ b' (max e (reachAll w.o w.simdutf b.buf.off ms)) := by
  induction fs generalizing ms b e with
  | nil =>
    cases ms with
    | nil =>
      cases hr
      rwa [reachAll, max_eq_left hle]
    | cons t ts => simp [UnfoldsAll] at hu
  | cons f fs ih =>
    have hty' : ∀ g ∈ fs, g.type.isPrimitive = true ∨ g.type.isReference = true :=
      fun g hg => hty g (List.mem_cons_of_mem _ hg)
    have hin' : ∀ g ∈ fs, g.type.isReference = true → objBase + g.offset + 4 ≤ b.buf.off :=
      fun g hg => hin g (List.mem_cons_of_mem _ hg)
    obtain ⟨hap₁, hap₂⟩ := List.pairwise_cons.mp hap
    cases hf : f.type.isReference with
    | false =>
      have hp : f.type.isPrimitive = true :=
        BasicType.isPrimitive_of_not_isReference (hty f List.mem_cons_self) hf
      rw [filter_isReference_of_neg hf] at hu
      rw [recordedFields, if_pos hp] at hr
      exact ih hk hty' hin' hap₂ hu hw hoff hle hr
    | true =>
      have hp : f.type.isPrimitive = false := BasicType.not_isPrimitive_of_isReference hf
      have hslot := hin f List.mem_cons_self hf
      rw [filter_isReference_of_pos hf] at hu
      cases ms with
      | nil => simp [UnfoldsAll] at hu
      | cons t ts =>
        rw [List.map_cons] at hu
        simp only [UnfoldsAll, List.cons.injEq] at hu
        obtain ⟨m, refs, ⟨hm, rfl⟩, ht, hts⟩ := hu
        rw [recordedFields, if_neg (by rw [hp]; exact Bool.false_ne_true)] at hr
        obtain ⟨m', hm', hr⟩ := bind_eq_ok hr
        cases hm.symm.trans hm'
        obtain ⟨⟨x, b₁⟩, hrec, hrest⟩ := bind_eq_ok hr
        obtain ⟨hw₁, hend, hem⟩ := (hk t List.mem_cons_self).call hl hR ht hrec hw hoff hle
        have hmono : b.buf.off ≤ b₁.buf.off := by rw [hem.off]; exact Nat.le_add_right ..
        have hreach := endOff_le_reach w.o w.simdutf t b.buf.off
        -- the slot lies inside what was stored to before
        have hw₂ : Wrote b₀ (b₁.putAt (le 4 x) (objBase + f.offset)) (max e (reach w.o w.simdutf b.buf.off t)) := by
          have hfrom : b₀.buf.off ≤ objBase + f.offset := hstart.trans (Nat.le_add_right ..)
          have h := hw₁.putAt hfrom (by omega) (le 4 x)
          rwa [length_le, max_eq_left (by omega)] at h
        have hsame := members_kept (w := w) (v := le 4 x) hem (length_le ..) hf hap₁ hin'
        have h := ih (b := b₁.putAt (le 4 x) (objBase + f.offset)) (fun t ht => hk t (List.mem_cons_of_mem _ ht)) hty'
          (fun g hg hgr => (hin' g hg hgr).trans hmono) hap₂ (hsame ▸ hts) hw₂ (hoff.trans hmono)
          (by rw [show (b₁.putAt (le 4 x) (objBase + f.offset)).buf.off = b₁.buf.off from rfl, hend]
              exact hreach.trans (le_max_right ..)) hrest
        rwa [show (b₁.putAt (le 4 x) (objBase + f.offset)).buf.off = endOff w.o w.simdutf b.buf.off t from hend,
          max_assoc, ← reachAll_cons] at h

theorem wrote_fillNextAlign8 (b : Recorded) : Wrote b b.fillNextAlign8 b.fillNextAlign8.buf.off := wrote_put b _

/-- The head of an object record fills eight bytes. -/
theorem wrote_objectHead (id : ℤ) (hw : Wrote b₀ b b.buf.off) (hoff : b₀.buf.off ≤ b.buf.off) (hal : b.buf.off % 8 = 0) :
    Wrote b₀ ((b.put (leInt16 id)).put (le 2 objectFlag)).fillNextAlign8 (b.buf.off + 8) ∧
      ((b.put (leInt16 id)).put (le 2 objectFlag)).fillNextAlign8.buf.off = b.buf.off + 8 := by
  have hpad : (pad8 (b.buf.off + 4)).length = 4 := by rw [pad8_add 4 hal, length_pad8]; rfl
  have hend : ((b.put (leInt16 id)).put (le 2 objectFlag)).fillNextAlign8.buf.off = b.buf.off + 8 := by
    simp only [Recorded.fillNextAlign8, buf_put, RWBuffer.off_put, length_leInt16, length_le, Nat.add_assoc, hpad]
  refine ⟨?_, hend⟩
  rw [← hend]
  have h₁ : b₀.buf.off ≤ (b.put (leInt16 id)).buf.off := hoff.trans (Nat.le_add_right ..)
  exact ((hw.put hoff _).put h₁ _).put (h₁.trans (Nat.le_add_right ..)) _

/-- The head of an array record fills eight bytes. -/
theorem wrote_arrayHead (id : ℤ) (n : ℕ) (hw : Wrote b₀ b b.buf.off) (hoff : b₀.buf.off ≤ b.buf.off)
    (hal : b.buf.off % 8 = 0) :
    Wrote b₀ (((b.put (leInt16 id)).put (le 2 arrayFlag)).put (le 4 n)).fillNextAlign8 (b.buf.off + 8) ∧
      (((b.put (leInt16 id)).put (le 2 arrayFlag)).put (le 4 n)).fillNextAlign8.buf.off = b.buf.off + 8 := by
  have hpad : (pad8 (b.buf.off + 8)).length = 0 := by rw [pad8_of_mod (by omega)]; rfl
  have hend : (((b.put (leInt16 id)).put (le 2 arrayFlag)).put (le 4 n)).fillNextAlign8.buf.off = b.buf.off + 8 := by
    simp only [Recorded.fillNextAlign8, buf_put, RWBuffer.off_put, length_leInt16, length_le, Nat.add_assoc, hpad,
      Nat.reduceAdd]
  refine ⟨?_, hend⟩
  rw [← hend]
  have h₁ : b₀.buf.off ≤ (b.put (leInt16 id)).buf.off := hoff.trans (Nat.le_add_right ..)
  have h₂ : b₀.buf.off ≤ ((b.put (leInt16 id)).put (le 2 arrayFlag)).buf.off := h₁.trans (Nat.le_add_right ..)
  exact (((hw.put hoff _).put h₁ _).put h₂ _).put (h₂.trans (Nat.le_add_right ..)) _

/-- The text is stored behind the two sizes, the second of which is stored last. -/
theorem wrote_utf8 (w : ObjectWalker) (a n : ℕ) (i : ClassInfo) (t : BasicType) (b : Recorded) :
    Wrote b (w.recordedUtf8 a i t n b)
      (b.buf.off + 8 + (w.simdutf.toUtf8 (w.heap.raw a i.headerSize (n * 2))).1.length) := by
  unfold recordedUtf8
  generalize w.simdutf.toUtf8 (w.heap.raw a i.headerSize (n * 2)) = res
  obtain ⟨stored, k⟩ := res
  refine ⟨[⟨b.buf.off, 4⟩, ⟨b.buf.off + 8, stored.length⟩, ⟨b.buf.off + 4, 4⟩], ?_, fun x => ?_⟩
  · simp [Recorded.put, Recorded.putAt, Recorded.skip, length_le, RWBuffer.putAt]
  · simp only [Covered, List.mem_cons, List.not_mem_nil, or_false, exists_eq_or_imp, exists_eq_left, Extent.Has]
    omega

/-- Behind the head of an array of references come its elements. -/
theorem recordedArray_reaches_refs (hl : w.r.Slotted) (hR : Records rec plain) {a : ℕ} {i : ClassInfo} {f : FieldInfo}
    {es : List Tree} {b' : Recorded} (hk : ∀ t ∈ es, Known w rec plain t) (hw : Wrote b₀ b b.buf.off)
    (hoff : b₀.buf.off ≤ b.buf.off) (hal : b.buf.off % 8 = 0) (hf : i.elem = .ok f) (href : f.type.isReference = true)
    (hu : UnfoldsAll w.heap w.r ((List.range (w.heap.arrayLength a i.headerSize)).map
      (w.heap.arrayElemRef a i.headerSize)) es) (hr : w.recordedArray rec a i b = .ok b') :
    Wrote b₀ b' (reachAll w.o w.simdutf (b.buf.off + 8) es) := by
  obtain ⟨hhead, hend⟩ := wrote_arrayHead i.id (w.heap.arrayLength a i.headerSize) hw hoff hal
  rw [List.range_eq_range'] at hu
  simp only [recordedArray, hf, bind, Except.bind, if_pos href] at hr
  have h := recordedElems_reaches hl hR f.id hk hu hhead (by rw [hend]; omega) (by rw [hend]) hr
  have hle := (le_endAll w.o w.simdutf es (b.buf.off + 8)).trans (endAll_le_reachAll w.o w.simdutf es _)
  rwa [hend, max_eq_right hle] at h

/-- Behind the head of an array of primitive values come its contents. -/
theorem recordedArray_reaches_prims {a : ℕ} {i : ClassInfo} {f : FieldInfo} {b' : Recorded} (hw : Wrote b₀ b b.buf.off)
    (hoff : b₀.buf.off ≤ b.buf.off) (hal : b.buf.off % 8 = 0) (hf : i.elem = .ok f) (hprim : f.type.isPrimitive = true)
    (hr : w.recordedArray rec a i b = .ok b') :
    Wrote b₀ b' (b.buf.off + 8 + storedLength w.o w.simdutf i.elemType (w.heap.arrayLength a i.headerSize)
      (w.heap.raw a i.headerSize (w.heap.arrayLength a i.headerSize * f.type.size))) := by
  have hnref : ¬ f.type.isReference = true := fun h => by
    rw [BasicType.not_isPrimitive_of_isReference h] at hprim
    cases hprim
  obtain ⟨hhead, hend⟩ := wrote_arrayHead i.id (w.heap.arrayLength a i.headerSize) hw hoff hal
  simp only [recordedArray, hf, bind, Except.bind, if_neg hnref, if_pos hprim] at hr
  generalize (((b.put (leInt16 i.id)).put (le 2 arrayFlag)).put
    (le 4 (w.heap.arrayLength a i.headerSize))).fillNextAlign8 = b₁ at hhead hend hr
  generalize w.heap.arrayLength a i.headerSize = n at hr ⊢
  rw [(ClassInfo.elem_ok hf).1, storedLength]
  have hoff₁ : b₀.buf.off ≤ b₁.buf.off := by omega
  by_cases hc : f.type = .char ∧ w.o.enableUtf16ToUtf8 = true
  · have hsize : f.type.size = 2 := by rw [hc.1]; rfl
    rw [if_pos hc] at hr ⊢
    cases hr
    rw [hsize]
    have h := hhead.trans (wrote_utf8 w a n i f.type b₁) hoff₁ hend.le
    rwa [hend, max_eq_right (by omega), Nat.add_assoc (b.buf.off + 8)] at h
  · rw [if_neg hc] at hr ⊢
    cases hr
    have hm : 0 + ClassInfo.arrayBodySize f.type n ≤ n * f.type.size := by
      rw [Nat.zero_add]
      exact Nat.mod_le ..
    have htake : (w.heap.raw a i.headerSize (n * f.type.size)).take (ClassInfo.arrayBodySize f.type n) =
        w.heap.raw a i.headerSize (ClassInfo.arrayBodySize f.type n) := slice_read hm
    rw [← hend] at hhead
    have h := hhead.put hoff₁ (w.heap.raw a i.headerSize (ClassInfo.arrayBodySize f.type n))
    rwa [buf_put, RWBuffer.off_put, hend, ← congrArg List.length htake] at h

/-- Behind the head and the body of an object come its members. -/
theorem recordedObject_reaches (hl : w.r.Slotted) (hR : Records rec plain) {a : ℕ} {i : ClassInfo} {ms : List Tree}
    {b' : Recorded} (hk : ∀ t ∈ ms, Known w rec plain t) (hslot : i.Slotted) (hw : Wrote b₀ b b.buf.off)
    (hoff : b₀.buf.off ≤ b.buf.off) (hal : b.buf.off % 8 = 0)
    (hu : UnfoldsAll w.heap w.r (i.refFields.map fun f => w.heap.referenceAt a (i.headerSize + f.offset)) ms)
    (hr : w.recordedObject rec a i b = .ok b') :
    Wrote b₀ b' (reachAll w.o w.simdutf (b.buf.off + 8 + i.objectBodySize) ms) := by
  obtain ⟨hhead, hend⟩ := wrote_objectHead i.id hw hoff hal
  simp only [recordedObject] at hr
  generalize ((b.put (leInt16 i.id)).put (le 2 objectFlag)).fillNextAlign8 = b₁ at hhead hend hr
  have hraw : (w.heap.raw a i.headerSize i.objectBodySize).length = i.objectBodySize := Heap.length_raw ..
  have hbody : (b₁.put (w.heap.raw a i.headerSize i.objectBodySize)).buf.off = b.buf.off + 8 + i.objectBodySize := by
    rw [buf_put, RWBuffer.off_put, hraw, hend]
  have hoff₁ : b₀.buf.off ≤ b₁.buf.off := by omega
  rw [← hend] at hhead
  have hput := hhead.put hoff₁ (w.heap.raw a i.headerSize i.objectBodySize)
  -- the members are read back from the body that was copied
  have hrefs : (i.fields.filter (·.type.isReference)).map (fun f => w.heap.args.parseHeapCptr
        ((b₁.put (w.heap.raw a i.headerSize i.objectBodySize)).buf.getAt 4 (b₁.buf.off + f.offset))) =
      i.refFields.map fun f => w.heap.referenceAt a (i.headerSize + f.offset) := by
    refine List.map_congr_left fun f hf => ?_
    obtain ⟨hf₁, hf₂⟩ := List.mem_filter.mp hf
    have hle := hslot.inside f hf₁ hf₂
    have hread : (b₁.put (w.heap.raw a i.headerSize i.objectBodySize)).buf.getAt 4 (b₁.buf.off + f.offset) =
        ofLe (slice (w.heap.raw a i.headerSize i.objectBodySize) f.offset 4) :=
      congrArg ofLe (read_write_inside (by rw [hraw]; exact hle))
    rw [hread, Heap.raw, slice_read hle, Heap.referenceAt, Heap.raw, Nat.add_assoc]
  have hin : ∀ f ∈ i.fields, f.type.isReference = true →
      b₁.buf.off + f.offset + 4 ≤ (b₁.put (w.heap.raw a i.headerSize i.objectBodySize)).buf.off := by
    intro f hf href
    have hle := hslot.inside f hf href
    rw [buf_put, RWBuffer.off_put, hraw]
    omega
  have h := recordedFields_reaches hl hR hk hslot.typed hin hslot.apart (by rw [hrefs]; exact hu) hoff₁ hput
    (by rw [hbody]; omega) le_rfl hr
  have hle := (le_endAll w.o w.simdutf ms (b.buf.off + 8 + i.objectBodySize)).trans
    (endAll_le_reachAll w.o w.simdutf ms _)
  rwa [hbody, max_eq_right hle] at h

/-- The recorded walk on an object of a known class. -/
theorem recordedStep_of_class (rec : RecordedWalk) {a : ℕ} {i : ClassInfo} (eid : ℤ) (b : Recorded) (ha : a ≠ 0)
    (hc : w.heap.classOf w.r a = some i) :
    w.recordedStep rec a eid b =
      if i.isEnum then .ok (u32 b.fillNextAlign8.buf.off, ((b.fillNextAlign8.put (leInt16 i.id)).put
        (le 2 (enumFlag + objectFlag))).put (le 4 (w.heap.enumOrdinal a)))
      else if i.isObject then (w.recordedObject rec a i b.fillNextAlign8).map (u32 b.fillNextAlign8.buf.off, ·)
      else if i.isArray then (w.recordedArray rec a i b.fillNextAlign8).map (u32 b.fillNextAlign8.buf.off, ·)
      else .error .unreachable := by
  obtain ⟨k, hk, hi⟩ := Heap.classOf_eq_some hc
  rw [recordedStep]
  simp only [if_neg ha, hk, hi, bind, Except.bind]
  split_ifs
  · rfl
  · cases w.recordedObject rec a i b.fillNextAlign8 <;> rfl
  · cases w.recordedArray rec a i b.fillNextAlign8 <;> rfl
  · rfl

/-- **The stores of a walk**: on every address that unfolds to the tree they fill exactly what lies between the cursor
and `reach`. -/
theorem recorded_reaches (hl : w.r.Slotted) {fuel : ℕ} {t : Tree} (ht : t.height < fuel) :
    w.Reaches (w.recorded fuel) t := by
  induction fuel generalizing t with
  | zero => exact absurd ht (Nat.not_lt_zero _)
  | succ fuel ih =>
    have hall : ∀ ts : List Tree, heightAll ts < fuel → ∀ t ∈ ts, Known w (w.recorded fuel) (w.walk fuel) t :=
      fun ts hts t ht =>
        ⟨walk_emits hl ((height_le_heightAll ht).trans_lt hts), ih ((height_le_heightAll ht).trans_lt hts)⟩
    intro a eid b base b' hu hr
    have hw := wrote_fillNextAlign8 b
    have hoff : b.fillNextAlign8.buf.off = upperAlign b.buf.off 8 := RWBuffer.off_fillNextAlign8 b.buf
    have hmono : b.buf.off ≤ b.fillNextAlign8.buf.off := by rw [hoff]; exact le_upperAlign _
    have hal : b.fillNextAlign8.buf.off % 8 = 0 := by rw [hoff]; exact upperAlign_mod _
    rw [recorded] at hr
    cases t with
    | null =>
      simp only [Unfolds] at hu
      subst hu
      cases hr
      have h := (hw.put hmono (leInt16 eid)).put (hmono.trans (Nat.le_add_right ..)) (le 2 nullFlag)
      rw [reach, ← hoff]
      simpa only [buf_put, RWBuffer.off_put, length_leInt16, length_le, Nat.add_assoc] using h
    | enumConst i ordinal =>
      simp only [Unfolds] at hu
      obtain ⟨ha, hc, he, rfl, -⟩ := hu
      rw [recordedStep_of_class _ eid b ha hc, if_pos he] at hr
      cases hr
      have h₁ : b.buf.off ≤ (b.fillNextAlign8.put (leInt16 i.id)).buf.off := hmono.trans (Nat.le_add_right ..)
      have h := ((hw.put hmono (leInt16 i.id)).put h₁ (le 2 (enumFlag + objectFlag))).put
        (h₁.trans (Nat.le_add_right ..)) (le 4 (w.heap.enumOrdinal a))
      rw [reach, ← hoff]
      simpa only [buf_put, RWBuffer.off_put, length_leInt16, length_le, Nat.add_assoc] using h
    | object i body ms =>
      simp only [Unfolds] at hu
      obtain ⟨ha, hc, he, ho, rfl, hms⟩ := hu
      obtain ⟨k, -, hi⟩ := Heap.classOf_eq_some hc
      have hslot := hl k i hi he ho
      rw [recordedStep_of_class _ eid b ha hc, if_neg (Bool.eq_false_iff.mp he), if_pos ho] at hr
      obtain ⟨b₂, hobj, hb⟩ := map_eq_ok hr
      cases hb
      rw [reach, hslot.length_body, ← hoff]
      exact recordedObject_reaches hl (recorded_buf fuel) (hall ms (by rw [Tree.height] at ht; omega)) hslot hw hmono hal
        hms hobj
    | refArray i es =>
      simp only [Unfolds] at hu
      obtain ⟨ha, hc, he, harr, ⟨f, hf, href⟩, -, hes⟩ := hu
      have hno := Bool.eq_false_iff.mp (ClassInfo.isObject_of_isArray harr)
      rw [recordedStep_of_class _ eid b ha hc, if_neg (Bool.eq_false_iff.mp he), if_neg hno, if_pos harr] at hr
      obtain ⟨b₂, hobj, hb⟩ := map_eq_ok hr
      cases hb
      rw [reach, ← hoff]
      exact recordedArray_reaches_refs hl (recorded_buf fuel) (hall es (by rw [Tree.height] at ht; omega)) hw hmono hal hf
        href hes hobj
    | primArray i n contents =>
      simp only [Unfolds] at hu
      obtain ⟨ha, hc, he, harr, -, rfl, f, hf, hprim, rfl⟩ := hu
      have hno := Bool.eq_false_iff.mp (ClassInfo.isObject_of_isArray harr)
      rw [recordedStep_of_class _ eid b ha hc, if_neg (Bool.eq_false_iff.mp he), if_neg hno, if_pos harr] at hr
      obtain ⟨b₂, hobj, hb⟩ := map_eq_ok hr
      cases hb
      rw [reach, ← hoff]
      exact recordedArray_reaches_prims hw hmono hal hf hprim hobj

/-! ### Serializing into a buffer of `N` bytes -/

/-- The whole of the recorded root call: the header is stored last, in front of the record. -/
theorem recordedRoot_reaches (hl : w.r.Slotted) {fuel a : ℕ} {t : Tree} (ht : t.height < fuel)
    (hu : Unfolds w.heap w.r a t) (out : Mem) :
    ∃ b, w.recordedRoot fuel a out = .ok (endOff w.o w.simdutf 8 t, b) ∧ Fills b.stores 0 (reach w.o w.simdutf 8 t) := by
  have hplain := recorded_buf (w := w) fuel a unregisteredClassId (Recorded.skip ⟨⟨out, 0⟩, []⟩ objectDataOffset)
  obtain ⟨buf', hwalk, hem⟩ := walk_emits hl ht a unregisteredClassId (RWBuffer.skip ⟨out, 0⟩ objectDataOffset) hu
  rw [buf_skip, hwalk] at hplain
  cases hrec : w.recorded fuel a unregisteredClassId (Recorded.skip ⟨⟨out, 0⟩, []⟩ objectDataOffset) with
  | error f =>
    rw [hrec] at hplain
    cases hplain
  | ok x =>
    obtain ⟨base, b₁⟩ := x
    rw [hrec] at hplain
    have hbuf : b₁.buf = buf' := by
      cases hplain
      rfl
    have hoff : b₁.buf.off = endOff w.o w.simdutf 8 t := by
      rw [hbuf, hem.off, endOff_eq_length hl (over_of_unfolds hl t hu) 8 unregisteredClassId]
      rfl
    obtain ⟨new, hstores, hfills⟩ := recorded_reaches hl ht a _ _ _ _ hu hrec
    refine ⟨b₁.putAt (le 8 b₁.buf.off) 0, ?_, ?_⟩
    · rw [recordedRoot, hrec, ← hoff]
      rfl
    · intro x
      have hbody : Covered new x ↔ 8 ≤ x ∧ x < reach w.o w.simdutf 8 t := hfills x
      have hhead : Covered [⟨0, 8⟩] x ↔ 0 ≤ x ∧ x < 0 + 8 := fills_single 0 8 x
      have hle := (le_endOff w.o w.simdutf t 8).trans (endOff_le_reach w.o w.simdutf t 8)
      have h8 : upperAlign 8 8 = 8 := by decide
      have hlist : (b₁.putAt (le 8 b₁.buf.off) 0).stores = new ++ [⟨0, 8⟩] := by
        rw [Recorded.putAt, hstores, length_le]
        rfl
      rw [hlist, covered_append, hbody, hhead]
      omega

/-- What `Context::serialize` returns, and where it has stored then. -/
theorem serialize_fills (hl : w.r.Slotted) {fuel a : ℕ} {t : Tree} (ht : t.height < fuel)
    (hu : Unfolds w.heap w.r a t) (out : Mem) :
    ∃ result stores, w.serialize fuel a out = .ok (result, stores) ∧ result.length = endOff w.o w.simdutf 8 t ∧
      Fills stores 0 (reach w.o w.simdutf 8 t) := by
  obtain ⟨b, hroot, hfills⟩ := recordedRoot_reaches hl ht hu out
  refine ⟨read b.buf.data 0 (endOff w.o w.simdutf 8 t), b.stores, ?_, length_read .., hfills⟩
  rw [serialize, hroot]
  rfl

/-- The stores to an output buffer of `N` bytes stay inside it, and when there is a result they fill it. -/
def Inside (N : ℕ) : Except Fault (Bytes × List Extent) → Prop
  | .error _ => True
  | .ok (result, stores) => (∀ x, Covered stores x → x < N) ∧ Fills stores 0 result.length

/-- **Serialization inside its buffer.** For a graph that unfolds to a tree, `Context::serialize` returns; its stores lie
inside an output buffer of `N` bytes and fill the record exactly if the record of the tree has at most `N` bytes and no
store of the transcoder goes behind it. -/
theorem serialize_inside_iff (w : ObjectWalker) (hl : w.r.Slotted) {fuel a : ℕ} {t : Tree} (ht : t.height < fuel)
    (hu : Unfolds w.heap w.r a t) (out : Mem) (N : ℕ) :
    Inside N (w.serialize fuel a out) ↔
      endOff w.o w.simdutf 8 t ≤ N ∧ reach w.o w.simdutf 8 t = endOff w.o w.simdutf 8 t := by
  obtain ⟨result, stores, hres, hlen, hfills⟩ := serialize_fills hl ht hu out
  have hle := endOff_le_reach w.o w.simdutf t 8
  have hpos : 8 ≤ upperAlign 8 8 := le_upperAlign 8
  have hend := le_endOff w.o w.simdutf t 8
  rw [hres, Inside, hlen]
  constructor
  · rintro ⟨hin, hall⟩
    have heq : reach w.o w.simdutf 8 t = endOff w.o w.simdutf 8 t := hfills.end_unique hall (by omega)
    have hlast := hin (reach w.o w.simdutf 8 t - 1) ((hfills _).mpr ⟨Nat.zero_le _, by omega⟩)
    exact ⟨by omega, heq⟩
  · rintro ⟨hN, heq⟩
    rw [heq] at hfills
    exact ⟨fun x hx => ((hfills x).mp hx).2.trans_le hN, hfills⟩

theorem sampleTree_ends : endOff sampleWalker.o sampleWalker.simdutf 8 sampleTree = 40 ∧
    reach sampleWalker.o sampleWalker.simdutf 8 sampleTree = 40 := by
  rw [sampleTree]
  simp only [endOff, endAll, reach, reachAll]
  decide

/-- The buffer of the samples. -/
def blank : Mem := fun _ => 0

/-- The sample pair has a record of 40 bytes, and a buffer of 40 is enough. -/
theorem serialize_inside_forty : sampleTree.height < 2 ∧ Inside 40 (sampleWalker.serialize 2 104 blank) := by
  have hheight : sampleTree.height < 2 := by decide
  have hiff := serialize_inside_iff sampleWalker sampleResolver_slotted hheight sampleTree_unfolds blank 40
  exact ⟨hheight, hiff.mpr ⟨sampleTree_ends.1.le, sampleTree_ends.2.trans sampleTree_ends.1.symm⟩⟩

/-- **Stores behind the buffer.** The record of 40 bytes is written into a buffer of 16, and returned. -/
theorem not_inside_sixteen :
    Unfolds sampleWalker.heap sampleWalker.r 104 sampleTree ∧ ¬ Inside 16 (sampleWalker.serialize 2 104 blank) := by
  have hheight : sampleTree.height < 2 := by decide
  obtain ⟨result, stores, hres, -, hfills⟩ :=
    serialize_fills (w := sampleWalker) sampleResolver_slotted hheight sampleTree_unfolds blank
  rw [sampleTree_ends.2] at hfills
  refine ⟨sampleTree_unfolds, fun hin => ?_⟩
  rw [hres] at hin
  exact absurd (hin.1 20 ((hfills 20).mpr ⟨by decide, by decide⟩)) (by decide)

end ObjectWalker

end DShuffle.Serde
