import DShuffle.Serde.Limited

/-!
# Records in a Java stream

`SerdeOutputStream.writeObject` appends what `Serialize` returns to a stream. `SerdeInputStream.readObject` reads the
eight bytes of the total length into a buffer of 1 MiB that it uses again for every record, then the rest of the
record behind them, and hands the whole buffer to `Deserialize`.

## The model

* An `InputStream` may return fewer bytes than it is asked for, but at least one before its end: `cut n` is how many
  it is willing to give at its `n`-th call.
* The buffer is a memory, of which the bytes below 2^20 are the array. What lies behind the array is not the
  buffer's; whatever the results say of a record, they say for every memory that has the record's bytes.
* `getLengthOfCurrentObject` is computed in `long` from signed bytes, as it stands.
* `Serialize` leaves old bytes in its output buffer; these are given for every call.

## What is proved

* `readObjects_eq` — however the stream is cut, the records come back one by one, and then `EOFException`.
* `framed_iff` — for records of at most 1 MiB, the reviver reads nothing at or past the total length of each record
  exactly if every primitive array that was written has fewer than 2^32 bytes.
* `not_framed_hugeLongs` — a `long[]` of 2^29 elements: its record has sixteen bytes, and the reviver reads 2^29 more.
-/

namespace DShuffle.Serde.Framing

open Base

/-! ### The streams -/

/-- What `readObject` throws. -/
inductive JavaException where
  /-- `EOFException`. -/
  | eof
  /-- `RuntimeException("Too long")`. -/
  | tooLong
  /-- `IndexOutOfBoundsException`, of `InputStream.read`. -/
  | indexOutOfBounds
  deriving DecidableEq

/-- An `InputStream`. -/
structure InputStream where
  /-- What is left of the stream. -/
  rest : Bytes
  /-- How many bytes it gives at each call, at most. -/
  cut : ℕ → ℕ
  /-- How often it was called. -/
  calls : ℕ

/-- `read(buf, off, len)`: the bytes it gives, or nothing at the end of the stream. -/
def InputStream.read (is : InputStream) (len : ℕ) : Option (Bytes × InputStream) :=
  if len = 0 then some ([], { is with calls := is.calls + 1 })
  else if is.rest = [] then none
  else
    let n := min (max 1 (is.cut is.calls)) len
    some (is.rest.take n, { is with rest := is.rest.drop n, calls := is.calls + 1 })

theorem InputStream.length_pos_of_read {is is' : InputStream} {len : ℕ} {bs : Bytes} (h : is.read len = some (bs, is'))
    (hlen : len ≠ 0) : 0 < bs.length := by
  rw [read, if_neg hlen] at h
  split at h
  · cases h
  · rename_i hrest
    cases h
    have := List.length_pos_iff.mpr hrest
    rw [List.length_take]
    omega

/-- `reuseBuffer.length`. -/
def bufferLength : ℕ := 1 * 1024 * 1024

/-- `readInto(buf, offset, length)`. -/
def readInto (is : InputStream) (buf : Mem) (off remain : ℕ) : Except JavaException (Mem × InputStream) :=
  if bufferLength < off + remain then .error .indexOutOfBounds
  else
    match _h : is.read remain with
    | none => .error .eof
    | some (bs, is') =>
      if _hz : remain - bs.length = 0 then .ok (write buf off bs, is')
      else readInto is' (write buf off bs) (off + bs.length) (remain - bs.length)
termination_by remain
decreasing_by
  have := InputStream.length_pos_of_read _h (by omega)
  omega

/-- `getLengthOfCurrentObject`. -/
def getLengthOfCurrentObject (buf : Mem) : BitVec 64 :=
  ((buf 7).toBitVec.signExtend 64 <<< 56)
    ||| (((buf 6).toBitVec.signExtend 64 &&& 0xff#64) <<< 48)
    ||| (((buf 5).toBitVec.signExtend 64 &&& 0xff#64) <<< 40)
    ||| (((buf 4).toBitVec.signExtend 64 &&& 0xff#64) <<< 32)
    ||| (((buf 3).toBitVec.signExtend 64 &&& 0xff#64) <<< 24)
    ||| (((buf 2).toBitVec.signExtend 64 &&& 0xff#64) <<< 16)
    ||| (((buf 1).toBitVec.signExtend 64 &&& 0xff#64) <<< 8)
    ||| ((buf 0).toBitVec.signExtend 64 &&& 0xff#64)

/-- A `SerdeInputStream`. -/
structure SerdeInputStream where
  /-- `is`. -/
  is : InputStream
  /-- `reuseBuffer`. -/
  reuseBuffer : Mem

/-- `readObject`, up to `Deserialize`: the buffer that is handed to it. -/
def SerdeInputStream.readObject (s : SerdeInputStream) : Except JavaException (Mem × SerdeInputStream) := do
  let (buf, is) ← readInto s.is s.reuseBuffer 0 8
  let length := getLengthOfCurrentObject buf
  if length.toInt > 1 * 1024 * 1024 then throw .tooLong
  let remain := (length.setWidth 32 - 8#32).toInt
  if remain < 0 then throw .indexOutOfBounds
  let (buf, is) ← readInto is buf 8 remain.toNat
  return (buf, ⟨is, buf⟩)

/-- `n` calls of `readObject`. -/
def readObjects : ℕ → SerdeInputStream → Except JavaException (List Mem × SerdeInputStream)
  | 0, s => .ok ([], s)
  | n + 1, s => do
    let (buf, s) ← s.readObject
    let (bufs, s) ← readObjects n s
    return (buf :: bufs, s)

/-- `new SerdeInputStream`, on a stream that is cut in this way. -/
def newInputStream (stream : Bytes) (cut : ℕ → ℕ) : SerdeInputStream := ⟨⟨stream, cut, 0⟩, fun _ => 0⟩

/-- An object that is written. -/
structure Written where
  /-- Its address. -/
  a : ℕ
  /-- What it unfolds to. -/
  tree : Tree
  /-- What `out_buffer` held before. -/
  out : Mem

/-- `Context::serialize`. -/
def serialize (w : ObjectWalker) (fuel : ℕ) (x : Written) : Except Fault Bytes := do
  let (total, m) ← w.walkRoot fuel x.a x.out
  return read m 0 total

/-- The calls of `writeObject`: what each of them appends to the stream. -/
def writeObjects (w : ObjectWalker) (fuel : ℕ) : List Written → Except Fault (List Bytes)
  | [] => .ok []
  | x :: xs => do
    let bs ← serialize w fuel x
    let bss ← writeObjects w fuel xs
    return bs :: bss

/-- What `revive` does: what it parses, and what it leaves of the JVM's state and of its root. -/
def revive (v : ObjectReviver) (fuel : ℕ) (expectedId : ℤ) (m : Mem) (e : JEnv) : Except Fault (Handle × JEnv) :=
  (v.parse fuel expectedId (ObjectReviver.stateAt m objectDataOffset e)).map fun x => (x.1, x.2.env)

/-- The buffer starts with the record, the reviver reads nothing at or past the end of the record, and no other byte
has an influence on what it returns. -/
def HandsOver (w : ObjectWalker) (fuel : ℕ) (buf : Mem) (record : Bytes) : Prop :=
  read buf 0 record.length = record ∧
    ∀ (jvm : Jvm) (eid : ℤ) (e : JEnv),
      (w.reviver jvm).ReadsBelow record.length fuel eid (ObjectReviver.stateAt buf objectDataOffset e) ∧
      ∀ m, read m 0 record.length = record → revive (w.reviver jvm) fuel eid m e = revive (w.reviver jvm) fuel eid buf e

/-- However the stream of the records is cut, they are handed over one by one, and then `readObject` throws
`EOFException`. -/
def Framed (w : ObjectWalker) (fuel : ℕ) (records : List Bytes) : Prop :=
  ∀ cut : ℕ → ℕ, ∃ bufs s, readObjects records.length (newInputStream records.flatten cut) = .ok (bufs, s) ∧
    List.Forall₂ (HandsOver w fuel) bufs records ∧ s.readObject = .error .eof

/-! ### The length of a record -/

theorem signExtend_and (b : BitVec 8) : b.signExtend 64 &&& 0xff#64 = b.setWidth 64 := by
  revert b
  decide +kernel

theorem signExtend_shiftLeft (b : BitVec 8) : b.signExtend 64 <<< 56 = b.setWidth 64 <<< 56 := by
  revert b
  decide +kernel

theorem toNat_shiftLeft_byte (b : UInt8) {k : ℕ} (hk : k ≤ 56) :
    (b.toBitVec.setWidth 64 <<< k).toNat = 2 ^ k * b.toNat := by
  have hb : b.toNat < 2 ^ 8 := b.toNat_lt
  have hle : 2 ^ k ≤ 2 ^ 56 := Nat.pow_le_pow_right Nat.zero_lt_two hk
  have hlt : b.toNat * 2 ^ k < 2 ^ 64 := by
    calc b.toNat * 2 ^ k ≤ b.toNat * 2 ^ 56 := Nat.mul_le_mul_left _ hle
      _ < 2 ^ 8 * 2 ^ 56 := Nat.mul_lt_mul_of_pos_right hb (by decide)
  rw [BitVec.toNat_shiftLeft, BitVec.toNat_setWidth, Nat.shiftLeft_eq, UInt8.toNat_toBitVec,
    Nat.mod_eq_of_lt (by omega : b.toNat < 2 ^ 64), Nat.mod_eq_of_lt hlt, Nat.mul_comm]

/-- The next byte below fills the bits that are free. -/
theorem or_byte (a : ℕ) (b : UInt8) (k : ℕ) : 2 ^ (k + 8) * a ||| 2 ^ k * b.toNat = 2 ^ k * (2 ^ 8 * a + b.toNat) := by
  have hb : b.toNat < 2 ^ 8 := b.toNat_lt
  have hlt : 2 ^ k * b.toNat < 2 ^ (k + 8) := by
    rw [Nat.pow_add]
    exact Nat.mul_lt_mul_of_pos_left hb (Nat.two_pow_pos k)
  rw [← Nat.two_pow_add_eq_or_of_lt hlt, Nat.pow_add, Nat.mul_add, Nat.mul_assoc]

/-- `getLengthOfCurrentObject` is the little-endian word at the front, although the bytes are signed. -/
theorem toNat_getLengthOfCurrentObject (buf : Mem) : (getLengthOfCurrentObject buf).toNat = ofLe (read buf 0 8) := by
  have hread : ofLe (read buf 0 8) = (buf 0).toNat + 256 * ((buf 1).toNat + 256 * ((buf 2).toNat + 256 * ((buf 3).toNat +
      256 * ((buf 4).toNat + 256 * ((buf 5).toNat + 256 * ((buf 6).toNat + 256 * (buf 7).toNat)))))) := by
    simp [Base.read, List.range_succ, ofLe]
  have hlow : ((buf 0).toBitVec.setWidth 64).toNat = 2 ^ 0 * (buf 0).toNat := by
    have := toNat_shiftLeft_byte (buf 0) (Nat.zero_le 56)
    rwa [BitVec.shiftLeft_zero] at this
  rw [getLengthOfCurrentObject, signExtend_shiftLeft]
  simp only [signExtend_and, BitVec.toNat_or, hlow, toNat_shiftLeft_byte _ (by decide : (56 : ℕ) ≤ 56),
    toNat_shiftLeft_byte _ (by decide : (48 : ℕ) ≤ 56), toNat_shiftLeft_byte _ (by decide : (40 : ℕ) ≤ 56),
    toNat_shiftLeft_byte _ (by decide : (32 : ℕ) ≤ 56), toNat_shiftLeft_byte _ (by decide : (24 : ℕ) ≤ 56),
    toNat_shiftLeft_byte _ (by decide : (16 : ℕ) ≤ 56), toNat_shiftLeft_byte _ (by decide : (8 : ℕ) ≤ 56)]
  rw [or_byte _ _ 48, or_byte _ _ 40, or_byte _ _ 32, or_byte _ _ 24, or_byte _ _ 16, or_byte _ _ 8, or_byte _ _ 0, hread]
  omega

/-! ### Reading in pieces -/

/-- A read gives a first part of what it is asked for. -/
theorem InputStream.read_eq {is : InputStream} {bs rest : Bytes} (hrest : is.rest = bs ++ rest) :
    ∃ k, (bs = [] ∨ 0 < k) ∧ k ≤ bs.length ∧
      is.read bs.length = some (bs.take k, ⟨bs.drop k ++ rest, is.cut, is.calls + 1⟩) := by
  by_cases hz : bs.length = 0
  · have hnil : bs = [] := List.length_eq_zero_iff.mp hz
    subst hnil
    refine ⟨0, .inl rfl, Nat.le_refl _, ?_⟩
    rw [InputStream.read, if_pos hz, hrest]
    rfl
  · have hne : is.rest ≠ [] := by
      intro h
      rw [hrest, List.append_eq_nil_iff] at h
      exact hz (by rw [h.1]; rfl)
    refine ⟨min (max 1 (is.cut is.calls)) bs.length, .inr (by omega), Nat.min_le_right .., ?_⟩
    rw [InputStream.read, if_neg hz, if_neg hne, hrest]
    simp only [List.take_append_of_le_length (Nat.min_le_right _ bs.length),
      List.drop_append_of_le_length (Nat.min_le_right _ bs.length)]

/-- **However the reads are cut, the bytes arrive.** -/
theorem readInto_eq (is : InputStream) {bs rest : Bytes} (hrest : is.rest = bs ++ rest) (buf : Mem) (off : ℕ)
    (hfit : off + bs.length ≤ bufferLength) :
    ∃ calls, readInto is buf off bs.length = .ok (write buf off bs, ⟨rest, is.cut, calls⟩) := by
  obtain ⟨n, hn⟩ : ∃ n, bs.length = n := ⟨_, rfl⟩
  induction n using Nat.strong_induction_on generalizing is bs buf off with
  | _ n ih =>
    obtain ⟨k, hpos, hk, hread⟩ := InputStream.read_eq hrest
    have hlen : (bs.take k).length = k := by rw [List.length_take]; omega
    rw [readInto, if_neg (Nat.not_lt.mpr hfit)]
    split
    · rename_i h
      rw [hread] at h
      cases h
    · rename_i bs' is' h
      rw [hread] at h
      cases h
      rw [hlen]
      by_cases hz : bs.length - k = 0
      · have hall : k = bs.length := by omega
        rw [dif_pos hz, hall, List.take_length, List.drop_length]
        exact ⟨is.calls + 1, rfl⟩
      · have hkpos : 0 < k := by
          rcases hpos with rfl | hpos
          · exact absurd (Nat.zero_sub k) hz
          · exact hpos
        have hdrop : (bs.drop k).length = bs.length - k := List.length_drop
        obtain ⟨calls, hrec⟩ := ih (bs.drop k).length (by omega) ⟨bs.drop k ++ rest, is.cut, is.calls + 1⟩ rfl
          (write buf off (bs.take k)) (off + k) (by omega) rfl
        refine ⟨calls, ?_⟩
        rw [dif_neg hz, ← hdrop, hrec]
        have hwrite := write_append buf off (bs.take k) (bs.drop k)
        rw [List.take_append_drop, hlen] at hwrite
        rw [hwrite]

/-- At the end of the stream a read of eight bytes ends in `EOFException`. -/
theorem readObject_eof {s : SerdeInputStream} (hrest : s.is.rest = []) : s.readObject = .error .eof := by
  have hread : s.is.read 8 = none := by
    rw [InputStream.read, if_neg (by decide), if_pos hrest]
  have hinto : readInto s.is s.reuseBuffer 0 8 = .error .eof := by
    rw [readInto, if_neg (by decide)]
    split
    · rfl
    · rename_i h
      rw [hread] at h
      cases h
  rw [SerdeInputStream.readObject, hinto]
  rfl

/-! ### Record by record -/

/-- What the static `walk` makes sure of: a record starts with its own length, and has more than that word. -/
structure IsRecord (record : Bytes) : Prop where
  /-- The total length. -/
  head : ∃ body, record = le 8 record.length ++ body
  /-- The record fits the buffer. -/
  fits : record.length ≤ bufferLength

theorem toInt_of_lt {x : BitVec 64} {n : ℕ} (hx : x.toNat = n) (hn : n < 2 ^ 63) : x.toInt = n := by
  rw [BitVec.toInt_eq_toNat_of_lt (by omega), hx]

/-- The number of bytes behind the length, in `int`. -/
theorem remain_eq {x : BitVec 64} {n : ℕ} (hx : x.toNat = n) (h8 : 8 ≤ n) (hn : n < 2 ^ 31) :
    (x.setWidth 32 - 8#32).toInt = (n - 8 : ℕ) := by
  have hnat : (x.setWidth 32 - 8#32).toNat = n - 8 := by
    rw [BitVec.toNat_sub, BitVec.toNat_setWidth, hx, BitVec.toNat_ofNat]
    omega
  rw [BitVec.toInt_eq_toNat_of_lt (by omega), hnat]

/-- **One record**: the buffer starts with it, and behind it is as it was. -/
theorem readObject_eq {s : SerdeInputStream} {record more : Bytes} (hr : IsRecord record)
    (hrest : s.is.rest = record ++ more) :
    ∃ calls, s.readObject = .ok (write s.reuseBuffer 0 record, ⟨⟨more, s.is.cut, calls⟩, write s.reuseBuffer 0 record⟩) := by
  obtain ⟨⟨body, hhead⟩, hfit⟩ := hr
  have hlen : record.length = 8 + body.length := by
    have := congrArg List.length hhead
    rwa [List.length_append, length_le] at this
  have hle8 : (le 8 record.length).length = 8 := length_le ..
  rw [hhead, List.append_assoc] at hrest
  obtain ⟨calls₁, h₁⟩ := readInto_eq s.is hrest s.reuseBuffer 0 (by rw [hle8]; decide)
  rw [hle8] at h₁
  have hword : (getLengthOfCurrentObject (write s.reuseBuffer 0 (le 8 record.length))).toNat = record.length := by
    have hself := read_write_self s.reuseBuffer 0 (le 8 record.length)
    rw [hle8] at hself
    rw [toNat_getLengthOfCurrentObject, hself, ofLe_le]
    exact Nat.mod_eq_of_lt (hfit.trans_lt (by decide))
  have hsmall : record.length ≤ 2 ^ 20 := hfit
  have hint := toInt_of_lt hword (by omega)
  have hremain := remain_eq hword (by omega) (by omega)
  obtain ⟨calls₂, h₂⟩ := readInto_eq ⟨body ++ more, s.is.cut, calls₁⟩ rfl
    (write s.reuseBuffer 0 (le 8 record.length)) 8 (by rw [← hlen]; exact hfit)
  refine ⟨calls₂, ?_⟩
  have hwrite : write (write s.reuseBuffer 0 (le 8 record.length)) 8 body = write s.reuseBuffer 0 record := by
    have := write_append s.reuseBuffer 0 (le 8 record.length) body
    rw [hle8, ← hhead] at this
    exact this.symm
  have hbody : record.length - 8 = body.length := by omega
  rw [hwrite] at h₂
  rw [SerdeInputStream.readObject, h₁]
  simp only [bind, Except.bind, hint, hremain, hbody, Int.toNat_natCast, h₂]
  rw [if_neg (by omega), if_neg (by omega)]
  rfl

theorem readObjects_eq {records : List Bytes} (hr : ∀ record ∈ records, IsRecord record) {s : SerdeInputStream}
    (hrest : s.is.rest = records.flatten) :
    ∃ bufs s', readObjects records.length s = .ok (bufs, s') ∧ s'.is.rest = [] ∧
      List.Forall₂ (fun buf record => read buf 0 record.length = record) bufs records := by
  induction records generalizing s with
  | nil => exact ⟨[], s, rfl, hrest, .nil⟩
  | cons record records ih =>
    obtain ⟨calls, hone⟩ := readObject_eq (hr record List.mem_cons_self) hrest
    obtain ⟨bufs, s', hall, hend, hbufs⟩ := ih (fun x hx => hr x (List.mem_cons_of_mem _ hx))
      (s := ⟨⟨records.flatten, s.is.cut, calls⟩, write s.reuseBuffer 0 record⟩) rfl
    refine ⟨write s.reuseBuffer 0 record :: bufs, s', ?_, hend, .cons (read_write_self ..) hbufs⟩
    rw [List.length_cons, readObjects, hone]
    simp only [bind, Except.bind, hall]
    rfl

/-! ### What the reviver reads -/

section
variable (v : ObjectReviver) {r : ClassResolver} {limit : ℕ} {m m' : Mem}

/-- The contents of an array whose bytes can be counted lie below the end of its record. -/
theorem revivedContents_congr (hmm : ∀ x < limit, m x = m' x) {off n : ℕ} {t : BasicType} {contents : Bytes}
    (hc : contents.length = n * t.size) (hp : t.isPrimitive = true)
    (hread : read m (off + 8) (encodeContents v.o v.simdutf t n contents).length = encodeContents v.o v.simdutf t n contents)
    (hend : off + 8 + (encodeContents v.o v.simdutf t n contents).length ≤ limit)
    (hcount : (t = .char ∧ v.o.enableUtf16ToUtf8 = true) ∨ n * t.size < 2 ^ 32) :
    revivedContents v.o v.simdutf m off t n = revivedContents v.o v.simdutf m' off t n := by
  have hcont := ObjectReviver.parseContents_eq (v := v) hc hread
  unfold revivedContents
  by_cases hcv : t = .char ∧ v.o.enableUtf16ToUtf8 = true
  · have hactual : off + 16 + ofLe (read m (off + 12) 4) = off + 8 + (encodeContents v.o v.simdutf t n contents).length := by
      rw [ObjectReviver.parseContents, if_pos hcv] at hcont
      exact congrArg (fun x => x.2.off) (Except.ok.inj hcont)
    have hword : read m (off + 12) 4 = read m' (off + 12) 4 := read_congr fun x _ hx => hmm x (by omega)
    have htext : read m (off + 16) (ofLe (read m (off + 12) 4)) = read m' (off + 16) (ofLe (read m' (off + 12) 4)) := by
      rw [← hword]
      exact read_congr fun x _ hx => hmm x (by omega)
    rw [if_pos hcv, if_pos hcv, htext]
  · have hsize := hcount.resolve_left hcv
    have hlen : (encodeContents v.o v.simdutf t n contents).length = n * t.size := by
      rw [encodeContents, if_neg hcv, List.length_take, hc, ClassInfo.arrayBodySize, u32_of_lt hsize, Nat.min_self]
    have hle := length_le_bodySize n hp
    have hbody : read m (off + 8) n = read m' (off + 8) n := read_congr fun x _ hx => hmm x (by omega)
    rw [if_neg hcv, if_neg hcv, hbody]

mutual

/-- What is read of a tree whose arrays can be counted lies below the end of its stream. -/
theorem reread_congr (hmm : ∀ x < limit, m x = m' x) : ∀ (t : Tree) {off : ℕ}, t.Over r → t.Counted v.o →
    Stream v.o v.simdutf m off t → endOff v.o v.simdutf off t ≤ limit →
    reread v.o v.simdutf m off t = reread v.o v.simdutf m' off t
  | .null, _, _, _, _, _ => rfl
  | .enumConst .., _, _, _, _, _ => rfl
  | .object i body ms, off, ho, hc, hs, hend => by
    obtain ⟨-, -, -, -, -, -, hov⟩ := ho
    rw [endOff] at hend
    rw [reread, reread, rereadAll_congr hmm ms hov hc hs.2.2 hend]
  | .refArray i es, off, ho, hc, hs, hend => by
    obtain ⟨-, -, -, -, -, hov⟩ := ho
    rw [endOff] at hend
    rw [reread, reread, rereadAll_congr hmm es hov hc hs.2 hend]
  | .primArray i n contents, off, ho, hc, hs, hend => by
    obtain ⟨-, -, -, ⟨f, hf, hp, hlen⟩, -⟩ := ho
    rw [endOff] at hend
    rw [Tree.Counted] at hc
    rw [← (ClassInfo.elem_ok hf).1] at hp hlen
    rw [reread, reread, revivedContents_congr v hmm hlen hp hs.2 hend hc]

theorem rereadAll_congr (hmm : ∀ x < limit, m x = m' x) : ∀ (ts : List Tree) {off : ℕ}, OverAll r ts → CountedAll v.o ts →
    StreamAll v.o v.simdutf m off ts → endAll v.o v.simdutf off ts ≤ limit →
    rereadAll v.o v.simdutf m off ts = rereadAll v.o v.simdutf m' off ts
  | [], _, _, _, _, _ => rfl
  | t :: ts, off, ho, hc, hs, hend => by
    rw [endAll] at hend
    have hmid : endOff v.o v.simdutf off t ≤ limit := (le_endAll _ _ ts _).trans hend
    rw [rereadAll, rereadAll, reread_congr hmm t ho.1 hc.1 hs.1 hmid, rereadAll_congr hmm ts ho.2 hc.2 hs.2 hend]

end

end

variable {w : ObjectWalker} {fuel : ℕ}

/-- What `Serialize` returns for an object. -/
theorem serialize_eq {x : Written} {record : Bytes} (hl : w.r.Slotted) (hu : Unfolds w.heap w.r x.a x.tree)
    (hheight : x.tree.height < fuel) (hs : serialize w fuel x = .ok record) :
    record = le 8 record.length ++ encode w.o w.simdutf 8 unregisteredClassId x.tree ∧
      record.length = 8 + (encode w.o w.simdutf 8 unregisteredClassId x.tree).length := by
  obtain ⟨m, hm, hread⟩ := ObjectWalker.walkRoot_emits hl hheight hu x.out
  rw [serialize, hm] at hs
  have heq : read m 0 (8 + (encode w.o w.simdutf 8 unregisteredClassId x.tree).length) = record := Except.ok.inj hs
  have hlen : record.length = 8 + (encode w.o w.simdutf 8 unregisteredClassId x.tree).length := by
    rw [← heq, length_read]
  refine ⟨?_, hlen⟩
  rw [hlen, ← hread, heq]

/-- A memory that starts with the record of an object holds a stream of its tree, which ends with the record. -/
theorem stream_of_record {x : Written} {record : Bytes} (hl : w.r.Slotted) (hu : Unfolds w.heap w.r x.a x.tree)
    (hheight : x.tree.height < fuel) (hs : serialize w fuel x = .ok record) {m : Mem}
    (hm : read m 0 record.length = record) :
    Stream w.o w.simdutf m 8 x.tree ∧ endOff w.o w.simdutf 8 x.tree = record.length := by
  obtain ⟨hrecord, hlen⟩ := serialize_eq hl hu hheight hs
  have hbody := (read_append (hm.trans hrecord)).2
  rw [length_le, Nat.zero_add] at hbody
  have hstream := stream_of_encode hl x.tree (over_of_unfolds hl x.tree hu) hbody
  rw [hlen]
  exact hstream

/-- **A record whose arrays can be counted is handed over.** -/
theorem handsOver_of_counted {x : Written} {record : Bytes} (hw : w.r.WellFormed) (hslot : w.r.Slotted)
    (hu : Unfolds w.heap w.r x.a x.tree) (hl : x.tree.Laid) (hheight : x.tree.height < fuel)
    (hs : serialize w fuel x = .ok record) (hc : x.tree.Counted w.o) {buf : Mem}
    (hbuf : read buf 0 record.length = record) : HandsOver w fuel buf record := by
  have ho := over_of_unfolds hslot x.tree hu
  obtain ⟨hstream, hend⟩ := stream_of_record hslot hu hheight hs hbuf
  refine ⟨hbuf, ?_⟩
  intro jvm eid e
  have hlim : (w.reviver jvm).LimitedAs record.length _ _ x.tree :=
    ObjectReviver.limitedParse_eq (v := w.reviver jvm) hw hl hheight ho hc
  have hparse := ObjectReviver.parse_eq_rebuild (v := w.reviver jvm) hw hl hheight ho
  refine ⟨hlim buf 8 eid e hstream (Nat.le_of_eq hend), ?_⟩
  intro m hm
  obtain ⟨hstream', -⟩ := stream_of_record hslot hu hheight hs hm
  have hmm : ∀ a < record.length, buf a = m a := by
    intro a ha
    have hi := read_eq_iff.mp (hbuf.trans hm.symm) a ha
    rwa [Nat.zero_add] at hi
  have hsame : reread w.o w.simdutf buf 8 x.tree = reread w.o w.simdutf m 8 x.tree :=
    reread_congr (w.reviver jvm) hmm x.tree ho hc hstream (Nat.le_of_eq hend)
  have h₁ := hparse m 8 eid e hstream'
  have h₂ := hparse buf 8 eid e hstream
  have hobj : objectDataOffset = 8 := rfl
  rw [revive, revive, hobj, h₁, h₂]
  change Except.map _ (Except.map _ ((w.reviver jvm).rebuild (reread w.o w.simdutf m 8 x.tree) e)) =
    Except.map _ (Except.map _ ((w.reviver jvm).rebuild (reread w.o w.simdutf buf 8 x.tree) e))
  rw [hsame]
  cases (w.reviver jvm).rebuild (reread w.o w.simdutf m 8 x.tree) e <;> rfl

/-- A JVM that refuses nothing. -/
def acceptingJvm : Jvm := ⟨fun _ => true, fun _ _ => true, fun _ _ => true, fun _ _ => true⟩

/-- **A record with an array that cannot be counted is not handed over.** -/
theorem counted_of_handsOver {x : Written} {record : Bytes} (hw : w.r.WellFormed) (hslot : w.r.Slotted)
    (hu : Unfolds w.heap w.r x.a x.tree) (hl : x.tree.Laid) (hheight : x.tree.height < fuel)
    (hs : serialize w fuel x = .ok record) (hfit : record.length ≤ bufferLength) {buf : Mem}
    (hover : HandsOver w fuel buf record) : x.tree.Counted w.o := by
  by_contra hc
  obtain ⟨hbuf, hread⟩ := hover
  have ho := over_of_unfolds hslot x.tree hu
  obtain ⟨hstream, hend⟩ := stream_of_record hslot hu hheight hs hbuf
  have hpast : (w.reviver acceptingJvm).GoesPast record.length _ x.tree :=
    ObjectReviver.limitedParse_eq_none (v := w.reviver acceptingJvm) hw ⟨fun _ => rfl, fun _ _ => rfl, fun _ _ => rfl⟩
      (fun _ _ => rfl) (hfit.trans_lt (by decide)) hl hheight ho hc
  have hnone := hpast buf 8 unregisteredClassId ⟨fun _ => .null, false, 0, none⟩ hstream (Nat.le_of_eq hend) rfl
  have hbelow := (hread acceptingJvm unregisteredClassId ⟨fun _ => .null, false, 0, none⟩).1
  have hobj : objectDataOffset = 8 := rfl
  rw [ObjectReviver.ReadsBelow, hobj, hnone] at hbelow
  generalize (w.reviver acceptingJvm).parse fuel unregisteredClassId
    (ObjectReviver.stateAt buf 8 ⟨fun _ => .null, false, 0, none⟩) = result at hbelow
  cases result with
  | error f => cases hbelow
  | ok y => cases hbelow

/-! ### All the records -/

theorem forall₂_of_writeObjects {xs : List Written} {records : List Bytes} (h : writeObjects w fuel xs = .ok records) :
    List.Forall₂ (fun x record => serialize w fuel x = .ok record) xs records := by
  induction xs generalizing records with
  | nil =>
    cases h
    exact .nil
  | cons x xs ih =>
    rw [writeObjects] at h
    cases hone : serialize w fuel x with
    | error f => rw [hone] at h; cases h
    | ok record =>
      cases hall : writeObjects w fuel xs with
      | error f => rw [hone, hall] at h; cases h
      | ok records' =>
        rw [hone, hall] at h
        cases h
        exact .cons hone (ih hall)

/-- The objects that are written, and their records. -/
structure Serialized (w : ObjectWalker) (fuel : ℕ) (x : Written) (record : Bytes) : Prop where
  /-- The object is a graph. -/
  unfolds : Unfolds w.heap w.r x.a x.tree
  /-- The classes of its objects are laid out. -/
  laid : x.tree.Laid
  /-- The fuel is enough for it. -/
  height : x.tree.height < fuel
  /-- The record is what `Serialize` returns. -/
  eq : serialize w fuel x = .ok record
  /-- The record fits the buffer. -/
  fits : record.length ≤ bufferLength

theorem Serialized.isRecord {x : Written} {record : Bytes} (hl : w.r.Slotted) (h : Serialized w fuel x record) :
    IsRecord record :=
  ⟨⟨_, (serialize_eq hl h.unfolds h.height h.eq).1⟩, h.fits⟩

theorem framed_of_counted (hw : w.r.WellFormed) (hslot : w.r.Slotted) {xs : List Written} {records : List Bytes}
    (hs : List.Forall₂ (Serialized w fuel) xs records) (hc : ∀ x ∈ xs, x.tree.Counted w.o) : Framed w fuel records := by
  intro cut
  have hrecords : ∀ record ∈ records, IsRecord record := by
    intro record hr
    induction hs with
    | nil => cases hr
    | cons hone _ ih =>
      rcases List.mem_cons.mp hr with rfl | hr
      · exact hone.isRecord hslot
      · exact ih (fun x hx => hc x (List.mem_cons_of_mem _ hx)) hr
  obtain ⟨bufs, s, hread, hend, hbufs⟩ := readObjects_eq (s := newInputStream records.flatten cut) hrecords rfl
  refine ⟨bufs, s, hread, ?_, readObject_eof hend⟩
  clear hread hrecords
  induction hs generalizing bufs with
  | nil => cases hbufs; exact .nil
  | cons hone _ ih =>
    obtain _ | ⟨hbuf, hbufs⟩ := hbufs
    exact .cons (handsOver_of_counted hw hslot hone.unfolds hone.laid hone.height hone.eq (hc _ List.mem_cons_self) hbuf)
      (ih (fun x hx => hc x (List.mem_cons_of_mem _ hx)) _ hbufs)

theorem counted_of_framed (hw : w.r.WellFormed) (hslot : w.r.Slotted) {xs : List Written} {records : List Bytes}
    (hs : List.Forall₂ (Serialized w fuel) xs records) (hf : Framed w fuel records) : ∀ x ∈ xs, x.tree.Counted w.o := by
  obtain ⟨bufs, s, -, hbufs, -⟩ := hf fun _ => 1
  clear hf
  induction hs generalizing bufs with
  | nil => intro x hx; cases hx
  | cons hone _ ih =>
    obtain _ | ⟨hbuf, hbufs⟩ := hbufs
    intro x hx
    rcases List.mem_cons.mp hx with rfl | hx
    · exact counted_of_handsOver hw hslot hone.unfolds hone.laid hone.height hone.eq hone.fits hbuf
    · exact ih _ hbufs x hx

/-- **The records come back, and the reviver keeps to them, exactly if every primitive array that was written has
fewer than 2^32 bytes** (or is a text). -/
theorem framed_iff (w : ObjectWalker) (fuel : ℕ) (hw : w.r.WellFormed) (hslot : w.r.Slotted) {xs : List Written}
    {records : List Bytes}
    (hu : ∀ x ∈ xs, Unfolds w.heap w.r x.a x.tree ∧ x.tree.Laid ∧ x.tree.height < fuel)
    (hwrite : writeObjects w fuel xs = .ok records) (hfit : ∀ record ∈ records, record.length ≤ bufferLength) :
    Framed w fuel records ↔ ∀ x ∈ xs, x.tree.Counted w.o := by
  have hs : List.Forall₂ (Serialized w fuel) xs records := by
    have hser := forall₂_of_writeObjects hwrite
    clear hwrite
    induction hser with
    | nil => exact .nil
    | cons hone _ ih =>
      obtain ⟨hunf, hl, hheight⟩ := hu _ List.mem_cons_self
      exact .cons ⟨hunf, hl, hheight, hone, hfit _ List.mem_cons_self⟩
        (ih (fun x hx => hu x (List.mem_cons_of_mem _ hx)) (fun x hx => hfit x (List.mem_cons_of_mem _ hx)))
  exact ⟨counted_of_framed hw hslot hs, framed_of_counted hw hslot hs⟩

open ObjectWalker (sampleTree noSimdutf)

/-- The `P` of the sample heap, written into a buffer that was never used, and again into one that is full of ones. -/
def samples : List Written := [⟨104, sampleTree, fun _ => 0⟩, ⟨104, sampleTree, fun _ => 255⟩]

/-- Two records that come back. -/
theorem framed_samples :
    ∃ records, writeObjects sampleWalker 2 samples = .ok records ∧ (∀ record ∈ records, record.length ≤ bufferLength) ∧
      Framed sampleWalker 2 records := by
  have heval : (match writeObjects sampleWalker 2 samples with
      | .ok records => decide (∀ record ∈ records, record.length ≤ bufferLength)
      | .error _ => false) = true := by
    decide +kernel
  cases hwrite : writeObjects sampleWalker 2 samples with
  | error f => rw [hwrite] at heval; cases heval
  | ok records =>
    rw [hwrite] at heval
    have hfit := of_decide_eq_true heval
    have hsample : ∀ x ∈ samples, x.a = 104 ∧ x.tree = sampleTree := by
      intro x hx
      simp only [samples, List.mem_cons, List.not_mem_nil, or_false] at hx
      rcases hx with rfl | rfl
      · exact ⟨rfl, rfl⟩
      · exact ⟨rfl, rfl⟩
    refine ⟨records, rfl, hfit, (framed_iff sampleWalker 2 sampleResolver_wellFormed ObjectWalker.sampleResolver_slotted ?_
      hwrite hfit).mpr ?_⟩
    · intro x hx
      obtain ⟨ha, ht⟩ := hsample x hx
      rw [ha, ht]
      exact ⟨sampleTree_unfolds, sampleTree_laid, by decide⟩
    · intro x hx
      rw [(hsample x hx).2]
      exact ⟨trivial, trivial⟩

/-! ### A long array -/

/-- The class info of `long[]`. -/
def hugeLongs : ClassInfo :=
  { klass := 1000, id := 20, enumRefArrOff := 0, objSize := 16, headerSize := 16, nStaticField := 0, dim := 1,
    signature := sym "[J", fields := [⟨-1, 0, .long, 0, 0⟩], enums := [] }

/-- A walker over a heap that holds, at `64`, a `long[]` of 2^29 zeros. -/
def hugeWalker : ObjectWalker :=
  { heap := ⟨fun x => (le 8 1 ++ le 4 1000 ++ le 4 (2 ^ 29)).getD (x - 64) 0, ⟨0, .zeroBased, 3, 0, .zeroBased, 0⟩⟩
    r := ⟨[hugeLongs], [0], [0], [], []⟩, o := ⟨true⟩, simdutf := noSimdutf }

/-- The array. -/
def hugeArray : Written :=
  { a := 64, tree := .primArray hugeLongs (2 ^ 29) (hugeWalker.heap.raw 64 16 (2 ^ 29 * 8)), out := fun _ => 0 }

theorem hugeArray_unfolds : Unfolds hugeWalker.heap hugeWalker.r hugeArray.a hugeArray.tree := by
  simp only [hugeArray, Unfolds]
  exact ⟨by decide, by decide, by decide, by decide, by decide, by decide, ⟨-1, 0, .long, 0, 0⟩, rfl, by decide, rfl⟩

theorem mem_hugeWalker {i : ClassInfo} (h : hugeWalker.r.Has i) : i = hugeLongs := by
  have hm := ClassResolver.mem_of_getByKlass h
  simpa [hugeWalker] using hm

theorem hugeWalker_wellFormed : hugeWalker.r.WellFormed where
  byId i hi := by rw [mem_hugeWalker hi]; decide
  range i hi := by rw [mem_hugeWalker hi]; decide
  byKlass id i hi := by
    have hm := ClassResolver.mem_of_getById hi
    have hi' : i = hugeLongs := by simpa [hugeWalker] using hm
    rw [hi']
    exact (by decide : hugeWalker.r.getByKlass 1000 = some hugeLongs)
  elem i f hi _ hf hr := by
    rw [mem_hugeWalker hi] at hf
    cases hf
    cases hr

theorem hugeWalker_slotted : hugeWalker.r.Slotted := by
  intro k i hi _ ho
  rw [mem_hugeWalker (ClassResolver.has_of_getByKlass hi)] at ho
  cases ho

theorem hugeArray_laid : hugeArray.tree.Laid := by
  intro i hi _ ho
  rw [List.mem_singleton.mp hi] at ho
  cases ho

/-- The record of the array has sixteen bytes: `array_body_size` is 2^32, which is zero in `uint32_t`. -/
theorem length_hugeArray : (encode hugeWalker.o hugeWalker.simdutf 8 unregisteredClassId hugeArray.tree).length = 8 := by
  have hsize : ClassInfo.arrayBodySize hugeLongs.elemType (2 ^ 29) = 0 := by decide
  rw [hugeArray, encode, encodeContents, if_neg (by decide), hsize, List.take_zero]
  simp only [List.length_append, length_leInt16, length_le, length_pad8]
  rfl

/-- **A `long[]` of 2^29 elements**: its record has sixteen bytes, and the reviver reads 2^29 bytes behind them. -/
theorem not_framed_hugeLongs :
    hugeWalker.r.WellFormed ∧ hugeWalker.r.Slotted ∧ Unfolds hugeWalker.heap hugeWalker.r hugeArray.a hugeArray.tree ∧
      hugeArray.tree.Laid ∧
      ∃ record, writeObjects hugeWalker 1 [hugeArray] = .ok [record] ∧ record.length = 16 ∧
        ¬ Framed hugeWalker 1 [record] := by
  refine ⟨hugeWalker_wellFormed, hugeWalker_slotted, hugeArray_unfolds, hugeArray_laid, ?_⟩
  have hheight : hugeArray.tree.height < 1 := by rw [hugeArray, Tree.height]; exact Nat.zero_lt_one
  obtain ⟨m, hm, -⟩ := ObjectWalker.walkRoot_emits hugeWalker_slotted hheight hugeArray_unfolds hugeArray.out
  rw [length_hugeArray] at hm
  have hser : serialize hugeWalker 1 hugeArray = .ok (read m 0 16) := by
    rw [serialize, hm]
    rfl
  have hlen : (read m 0 16).length = 16 := length_read ..
  refine ⟨read m 0 16, ?_, hlen, ?_⟩
  · rw [writeObjects, hser]
    rfl
  · intro hf
    have hone : Serialized hugeWalker 1 hugeArray (read m 0 16) :=
      ⟨hugeArray_unfolds, hugeArray_laid, hheight, hser, by rw [hlen]; decide⟩
    have hc := counted_of_framed hugeWalker_wellFormed hugeWalker_slotted (.cons hone .nil) hf hugeArray List.mem_cons_self
    rw [hugeArray, Tree.Counted] at hc
    exact absurd hc (by decide)

end DShuffle.Serde.Framing
