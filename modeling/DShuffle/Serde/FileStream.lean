import DShuffle.Base.Transition
import DShuffle.Serde.Framing

/-!
# The stream that reads a partition file

`NioBufferedFileInputStream` reads a file through a byte buffer. `refill` clears the
buffer when it is used up, reads from the channel, and flips it. At the end of the file
it returns before the flip: the buffer stays cleared, and its whole capacity counts as
unread. `SerdeIterBench.doDeIter` reads a partition file through it, a key and a value at
a time, until `EOFException`.

## The model

* The byte buffer is a memory with a capacity, a position and a limit; the channel is the
  file and a position. A read of the channel gives at least one byte before the end of the
  file, and at most what the buffer has room for: `cut n` is how many at its `n`-th call.
* `Cursor.Allows` is what `InputStream` promises, over the bytes that are left.
* `ended` records that a read has returned −1.

## What is proved

* `behaves_iff` — a sequence of calls is answered as `InputStream` promises exactly if,
  after a −1, nothing more is asked for, and no read of zero bytes is made at the end.
* `readInto_eq`, `readObject_eq` — a `SerdeInputStream` over this stream gets a record.
* `doDeIter_eq` — of a file of keys and values, `doDeIter` hands over each of them, in order.

## Honest scope

A channel that gives nothing is asked again by the loop in `refill`; only the call that
gives something is a step here. A capacity of zero would loop for ever.
-/

namespace DShuffle.Serde.FileStream

open Base Framing

/-! ### The model -/

/-- A `NioBufferedFileInputStream`. -/
structure NioStream where
  /-- What `byteBuffer` holds. -/
  buffer : Mem
  /-- `byteBuffer.capacity()`. -/
  capacity : ℕ
  /-- The buffer has room. -/
  capacity_pos : 0 < capacity
  /-- `byteBuffer.position()`. -/
  position : ℕ
  /-- `byteBuffer.limit()`. -/
  limit : ℕ
  /-- The file. -/
  file : Bytes
  /-- `fileChannel.position()`. -/
  channel : ℕ
  /-- How many bytes the channel gives at each call, at most. -/
  cut : ℕ → ℕ
  /-- How often it was called. -/
  reads : ℕ
  /-- A read has returned −1. -/
  ended : Bool

namespace NioStream

/-- The constructor. -/
def new (file : Bytes) (capacity : ℕ) (h : 0 < capacity) (cut : ℕ → ℕ) : NioStream :=
  ⟨fun _ => 0, capacity, h, 0, 0, file, 0, cut, 0, false⟩

/-- `byteBuffer.remaining()`. -/
def remaining (s : NioStream) : ℕ := s.limit - s.position

/-- How many bytes the channel gives. -/
def given (s : NioStream) : ℕ := min (max 1 (s.cut s.reads)) (min s.capacity (s.file.length - s.channel))

/-- `refill`. -/
def refill (s : NioStream) : Bool × NioStream :=
  if s.position < s.limit then (true, s)
  else if s.file.length ≤ s.channel then (false, { s with position := 0, limit := s.capacity, ended := true })
  else
    (true, { s with
      buffer := write s.buffer 0 (slice s.file s.channel s.given), position := 0, limit := s.given
      channel := s.channel + s.given, reads := s.reads + 1 })

/-- `read(b, offset, len)`: the bytes it gives, or nothing for −1. -/
def read (s : NioStream) (len : ℕ) : Option Bytes × NioStream :=
  match s.refill with
  | (false, s) => (none, s)
  | (true, s) =>
    let n := min len s.remaining
    (some (Base.read s.buffer s.position n), { s with position := s.position + n })

/-- `skip(n)`. -/
def skip (s : NioStream) (n : ℤ) : ℕ × NioStream :=
  if n ≤ 0 then (0, s)
  else if n.toNat ≤ s.remaining then (n.toNat, { s with position := s.position + n.toNat })
  else
    let rest := n.toNat - s.remaining
    if s.file.length - s.channel < rest then
      (s.remaining + (s.file.length - s.channel), { s with position := 0, limit := 0, channel := s.file.length })
    else (s.remaining + rest, { s with position := 0, limit := 0, channel := s.channel + rest })

end NioStream

/-- The calls. -/
inductive Op where
  /-- `read()`. -/
  | readByte
  /-- `read(b, offset, len)`. -/
  | read (len : ℕ)
  /-- `available()`. -/
  | available
  /-- `skip(n)`. -/
  | skip (n : ℤ)
  deriving DecidableEq

/-- What they return. -/
inductive Result where
  /-- −1. -/
  | eof
  /-- Bytes. -/
  | bytes (bs : Bytes)
  /-- A number. -/
  | count (n : ℕ)
  deriving DecidableEq

/-- −1, or the bytes. -/
def Result.ofRead : Option Bytes → Result
  | none => .eof
  | some bs => .bytes bs

/-- A call. -/
def NioStream.call (s : NioStream) : Op → Result × NioStream
  | .readByte => (Result.ofRead (s.read 1).1, (s.read 1).2)
  | .read len => (Result.ofRead (s.read len).1, (s.read len).2)
  | .available => (.count s.remaining, s)
  | .skip n => (.count (s.skip n).1, (s.skip n).2)

/-- The calls, one after another. -/
def NioStream.results (s : NioStream) : List Op → List Result
  | [] => []
  | op :: ops => (s.call op).1 :: NioStream.results (s.call op).2 ops

/-! ### What an `InputStream` promises -/

namespace Cursor

/-- What is left after a call with this result. -/
def after (rest : Bytes) : Op → Result → Bytes
  | .readByte, .bytes bs => rest.drop bs.length
  | .read _, .bytes bs => rest.drop bs.length
  | .skip _, .count n => rest.drop n
  | _, _ => rest

/-- The result is right for what is left. -/
def Allows (rest : Bytes) : Op → Result → Prop
  | .readByte, .eof => rest = []
  | .readByte, .bytes bs => bs.length = 1 ∧ bs <+: rest
  | .read len, .eof => rest = [] ∧ len ≠ 0
  | .read len, .bytes bs => bs <+: rest ∧ bs.length ≤ len ∧ (len ≠ 0 → bs ≠ [])
  | .available, .count n => n ≤ rest.length
  | .skip n, .count k => k = min n.toNat rest.length
  | _, _ => False

/-- All results are right. -/
def AllowsAll (rest : Bytes) : List Op → List Result → Prop
  | [], [] => True
  | op :: ops, r :: rs => Allows rest op r ∧ AllowsAll (after rest op r) ops rs
  | _, _ => False

end Cursor

/-- The call is safe: after a −1 nothing is asked for, and a read of nothing is not made at the end of the file. -/
def NioStream.Safe (s : NioStream) : Op → Prop
  | .readByte => s.ended = false
  | .read len => if len = 0 then s.ended = true ∨ s.position < s.limit ∨ s.channel < s.file.length else s.ended = false
  | .available => s.ended = false
  | .skip n => n ≤ 0 ∨ s.ended = false

/-! ### The stream and the cursor -/

namespace NioStream

variable {s s' : NioStream} {rest : Bytes} {len : ℕ}

/-- **The invariant**: what is left is what the buffer has and what follows in the file; after a −1 nothing is left, but
the buffer is cleared. -/
structure Good (s : NioStream) (rest : Bytes) : Prop where
  /-- The position is before the limit. -/
  position_le : s.position ≤ s.limit
  /-- What is left. -/
  live : s.ended = false → rest = Base.read s.buffer s.position s.remaining ++ s.file.drop s.channel
  /-- After a −1. -/
  dead : s.ended = true → rest = [] ∧ s.position = 0 ∧ s.limit = s.capacity

theorem good_new (file : Bytes) (capacity : ℕ) (h : 0 < capacity) (cut : ℕ → ℕ) : Good (new file capacity h cut) file :=
  ⟨Nat.le_refl _, fun _ => rfl, fun hend => by cases hend⟩

theorem given_pos (h : s.channel < s.file.length) : 0 < s.given := by
  have hcap := s.capacity_pos
  unfold given
  omega

/-- The buffer is used up exactly if nothing is left in it; then it is filled from the file. -/
theorem Good.refill (h : Good s rest) (hlive : s.ended = false) :
    if rest = [] then ∃ s', s.refill = (false, s') ∧ Good s' [] ∧ s'.ended = true
    else ∃ s', s.refill = (true, s') ∧ Good s' rest ∧ s'.ended = false ∧ 0 < s'.remaining := by
  have hrest := h.live hlive
  have hle := h.position_le
  by_cases hpos : s.position < s.limit
  · have hne : rest ≠ [] := by
      intro hnil
      have hlen := congrArg List.length (hrest.symm.trans hnil)
      rw [List.length_append, length_read, List.length_nil, remaining] at hlen
      omega
    rw [if_neg hne]
    refine ⟨s, by rw [NioStream.refill, if_pos hpos], h, hlive, ?_⟩
    unfold remaining
    omega
  · have hzero : s.remaining = 0 := by
      unfold remaining
      omega
    rw [hzero] at hrest
    replace hrest : rest = s.file.drop s.channel := hrest
    by_cases hend : s.file.length ≤ s.channel
    · rw [if_pos (by rw [hrest]; exact List.drop_eq_nil_of_le hend)]
      refine ⟨_, by rw [NioStream.refill, if_neg hpos, if_pos hend], ⟨?_, fun hl => ?_, fun _ => ⟨rfl, rfl, rfl⟩⟩, rfl⟩
      · exact Nat.zero_le _
      · cases hl
    · have hlt : s.channel < s.file.length := Nat.not_le.mp hend
      have hgiven := given_pos hlt
      have hslice : (slice s.file s.channel s.given).length = s.given := by
        rw [slice, List.length_take, List.length_drop]
        unfold given
        omega
      have hne : rest ≠ [] := by
        intro hnil
        have hlen := congrArg List.length (hrest.symm.trans hnil)
        rw [List.length_drop, List.length_nil] at hlen
        omega
      rw [if_neg hne]
      have hfill : s.refill = (true, { s with
          buffer := write s.buffer 0 (slice s.file s.channel s.given), position := 0, limit := s.given
          channel := s.channel + s.given, reads := s.reads + 1 }) := by
        rw [NioStream.refill, if_neg hpos, if_neg hend]
      refine ⟨_, hfill, ⟨Nat.zero_le _, fun _ => ?_, fun hd => ?_⟩, hlive, ?_⟩
      · have hread := read_write_self s.buffer 0 (slice s.file s.channel s.given)
        rw [hslice] at hread
        show rest = Base.read (write s.buffer 0 _) 0 (s.given - 0) ++ s.file.drop (s.channel + s.given)
        rw [Nat.sub_zero, hread, hrest, slice, ← List.drop_drop, List.take_append_drop]
      · exact absurd (hlive.symm.trans hd) Bool.false_ne_true
      · show 0 < s.given - 0
        omega

/-- A read before the end. -/
theorem Good.read (h : Good s rest) (hlive : s.ended = false) (hne : rest ≠ []) (len : ℕ) :
    ∃ k s', k ≤ len ∧ k ≤ rest.length ∧ (len ≠ 0 → 0 < k) ∧ s.read len = (some (rest.take k), s') ∧
      Good s' (rest.drop k) ∧ s'.ended = false := by
  have hrefill := h.refill hlive
  rw [if_neg hne] at hrefill
  obtain ⟨s₁, hs₁, hgood, hlive₁, hrem⟩ := hrefill
  have hrest := hgood.live hlive₁
  have hle := hgood.position_le
  have hlen : (Base.read s₁.buffer s₁.position s₁.remaining).length = s₁.remaining := length_read ..
  have hsplit := read_add s₁.buffer s₁.position (min len s₁.remaining) (s₁.remaining - min len s₁.remaining)
  rw [show min len s₁.remaining + (s₁.remaining - min len s₁.remaining) = s₁.remaining by omega] at hsplit
  have hk : (Base.read s₁.buffer s₁.position (min len s₁.remaining)).length = min len s₁.remaining := length_read ..
  rw [hsplit, List.append_assoc] at hrest
  have htake : rest.take (min len s₁.remaining) = Base.read s₁.buffer s₁.position (min len s₁.remaining) := by
    rw [hrest, List.take_left' hk]
  have hdrop : rest.drop (min len s₁.remaining) = Base.read s₁.buffer (s₁.position + min len s₁.remaining)
      (s₁.remaining - min len s₁.remaining) ++ s₁.file.drop s₁.channel := by
    rw [hrest, List.drop_left' hk]
  have hread : s.read len = (some (rest.take (min len s₁.remaining)),
      { s₁ with position := s₁.position + min len s₁.remaining }) := by
    rw [NioStream.read, hs₁, htake]
  refine ⟨min len s₁.remaining, _, Nat.min_le_left .., ?_, fun hz => by omega, hread, ?_, hlive₁⟩
  · rw [hrest, List.length_append, hk]
    exact Nat.le_add_right ..
  · refine ⟨?_, fun _ => ?_, fun hd => absurd (hlive₁.symm.trans hd) Bool.false_ne_true⟩
    · show s₁.position + min len s₁.remaining ≤ s₁.limit
      unfold remaining
      omega
    · rw [hdrop]
      congr 2
      show s₁.limit - s₁.position - min len s₁.remaining = s₁.limit - (s₁.position + min len s₁.remaining)
      omega

/-- A read at the end. -/
theorem Good.read_end (h : Good s []) (hlive : s.ended = false) (len : ℕ) :
    ∃ s', s.read len = (none, s') ∧ Good s' [] ∧ s'.ended = true := by
  have hrefill := h.refill hlive
  rw [if_pos rfl] at hrefill
  obtain ⟨s₁, hs₁, hgood, hdead⟩ := hrefill
  exact ⟨s₁, by rw [NioStream.read, hs₁], hgood, hdead⟩

/-- After a −1, a read gives what the buffer happens to hold. -/
theorem Good.read_dead (h : Good s rest) (hdead : s.ended = true) (len : ℕ) :
    ∃ bs s', bs.length = min len s.capacity ∧ s.read len = (some bs, s') ∧ (len = 0 → s' = s) := by
  obtain ⟨-, hpos, hlim⟩ := h.dead hdead
  have hcap := s.capacity_pos
  have hrem : s.remaining = s.capacity := by
    unfold remaining
    omega
  have hrefill : s.refill = (true, s) := by rw [NioStream.refill, if_pos (by omega)]
  refine ⟨Base.read s.buffer s.position (min len s.remaining), _, by rw [length_read, hrem], by rw [NioStream.read, hrefill],
    fun hz => ?_⟩
  rw [hz, Nat.zero_min]
  rfl

/-- Skipping before a −1. -/
theorem Good.skip (h : Good s rest) (hlive : s.ended = false) (n : ℤ) :
    ∃ s', s.skip n = (min n.toNat rest.length, s') ∧ Good s' (rest.drop (min n.toNat rest.length)) ∧ s'.ended = false := by
  have hrest := h.live hlive
  have hle := h.position_le
  have hlen : rest.length = s.remaining + (s.file.length - s.channel) := by
    rw [hrest, List.length_append, length_read, List.length_drop]
  have hdead : ∀ {P : Prop}, s.ended = true → P := fun hd => absurd (hlive.symm.trans hd) Bool.false_ne_true
  unfold NioStream.skip
  by_cases hn : n ≤ 0
  · have hz : n.toNat = 0 := Int.toNat_eq_zero.mpr hn
    rw [if_pos hn, hz, Nat.zero_min]
    exact ⟨s, rfl, h, hlive⟩
  rw [if_neg hn]
  by_cases hin : n.toNat ≤ s.remaining
  · -- within the buffer
    rw [if_pos hin, Nat.min_eq_left (by omega)]
    refine ⟨_, rfl, ⟨?_, fun _ => ?_, hdead⟩, hlive⟩
    · show s.position + n.toNat ≤ s.limit
      unfold remaining at hin
      omega
    · have hsplit := read_add s.buffer s.position n.toNat (s.remaining - n.toNat)
      rw [Nat.add_sub_cancel' hin] at hsplit
      rw [hrest, hsplit, List.append_assoc, List.drop_left' (length_read ..)]
      congr 2
      show s.limit - s.position - n.toNat = s.limit - (s.position + n.toNat)
      omega
  · rw [if_neg hin]
    by_cases hpast : s.file.length - s.channel < n.toNat - s.remaining
    · -- past the end of the file
      rw [if_pos hpast, Nat.min_eq_right (by omega), ← hlen]
      refine ⟨_, rfl, ⟨Nat.le_refl _, fun _ => ?_, hdead⟩, hlive⟩
      rw [List.drop_length]
      show [] = Base.read s.buffer 0 (0 - 0) ++ s.file.drop s.file.length
      rw [List.drop_length]
      rfl
    · rw [if_neg hpast, Nat.min_eq_left (by omega), Nat.add_sub_cancel' (by omega)]
      refine ⟨_, rfl, ⟨Nat.le_refl _, fun _ => ?_, hdead⟩, hlive⟩
      rw [hrest, List.drop_append, length_read, List.drop_eq_nil_of_le (by rw [length_read]; omega), List.drop_drop]
      rfl

/-- A safe call is answered as promised. -/
theorem Good.call (h : Good s rest) {op : Op} (hsafe : s.Safe op) :
    Cursor.Allows rest op (s.call op).1 ∧ Good (s.call op).2 (Cursor.after rest op (s.call op).1) := by
  have hread : ∀ len, s.ended = false → (len ≠ 0 ∨ rest ≠ []) →
      Cursor.Allows rest (.read len) (Result.ofRead (s.read len).1) ∧
        Good (s.read len).2 (Cursor.after rest (.read len) (Result.ofRead (s.read len).1)) := by
    intro len hlive hor
    by_cases hnil : rest = []
    · subst hnil
      obtain ⟨s', hs', hgood, -⟩ := h.read_end hlive len
      rw [hs']
      exact ⟨⟨rfl, hor.resolve_right fun hne => hne rfl⟩, hgood⟩
    · obtain ⟨k, s', hk, hkr, hpos, hs', hgood, -⟩ := h.read hlive hnil len
      rw [hs']
      have hlen : (rest.take k).length = k := by rw [List.length_take, Nat.min_eq_left hkr]
      refine ⟨⟨List.take_prefix .., by rw [hlen]; exact hk, fun hz => ?_⟩, ?_⟩
      · exact List.length_pos_iff.mp (by rw [hlen]; exact hpos hz)
      · show Good s' (rest.drop (rest.take k).length)
        rw [hlen]
        exact hgood
  cases op with
  | readByte =>
    obtain ⟨h₁, h₂⟩ := hread 1 hsafe (Or.inl (by decide))
    refine ⟨?_, ?_⟩
    · revert h₁
      simp only [NioStream.call]
      cases (s.read 1).1 with
      | none => exact fun h₁ => h₁.1
      | some bs =>
        rintro ⟨hpre, hle, hne⟩
        have hpos := List.length_pos_iff.mpr (hne (by decide))
        exact ⟨by omega, hpre⟩
    · revert h₂
      simp only [NioStream.call]
      cases (s.read 1).1 with
      | none => exact id
      | some bs => exact id
  | read len =>
    by_cases hz : len = 0
    · subst hz
      by_cases hend : s.ended = true
      · obtain ⟨bs, s', hlen, hs', hsame⟩ := h.read_dead hend 0
        rw [Nat.zero_min, List.length_eq_zero_iff] at hlen
        subst hlen
        simp only [NioStream.call, hs', hsame rfl]
        exact ⟨⟨List.nil_prefix, Nat.le_refl _, fun hz => absurd rfl hz⟩, h⟩
      · have hlive : s.ended = false := by simpa using hend
        have hor := hsafe
        simp only [Safe, if_true, hlive, Bool.false_eq_true, false_or] at hor
        refine hread 0 hlive (Or.inr fun hnil => ?_)
        have hlen := congrArg List.length ((h.live hlive).symm.trans hnil)
        rw [List.length_append, length_read, List.length_drop, List.length_nil, remaining] at hlen
        omega
    · simp only [Safe, if_neg hz] at hsafe
      exact hread len hsafe (Or.inl hz)
  | available =>
    refine ⟨?_, h⟩
    show s.remaining ≤ rest.length
    rw [h.live hsafe, List.length_append, length_read]
    exact Nat.le_add_right ..
  | skip n =>
    by_cases hlive : s.ended = false
    · obtain ⟨s', hs', hgood, -⟩ := h.skip hlive n
      simp only [NioStream.call, hs']
      exact ⟨rfl, hgood⟩
    · have hn : n ≤ 0 := hsafe.resolve_right hlive
      simp only [NioStream.call, NioStream.skip, if_pos hn]
      refine ⟨?_, h⟩
      show 0 = min n.toNat rest.length
      rw [Int.toNat_eq_zero.mpr hn, Nat.zero_min]

/-- A call that is not safe is not. -/
theorem Good.not_allows (h : Good s rest) {op : Op} (hsafe : ¬ s.Safe op) : ¬ Cursor.Allows rest op (s.call op).1 := by
  have hdead : ∀ len, s.ended = true → len ≠ 0 → ∃ bs, (s.read len).1 = some bs ∧ bs ≠ [] ∧ rest = [] := by
    intro len hend hz
    obtain ⟨bs, s', hlen, hs', -⟩ := h.read_dead hend len
    have hcap := s.capacity_pos
    exact ⟨bs, by rw [hs'], List.length_pos_iff.mp (by omega), (h.dead hend).1⟩
  cases op with
  | readByte =>
    obtain ⟨bs, hbs, hne, hnil⟩ := hdead 1 (by simpa [Safe] using hsafe) (by decide)
    simp only [NioStream.call, hbs]
    rintro ⟨-, hpre⟩
    rw [hnil] at hpre
    exact hne (List.prefix_nil.mp hpre)
  | read len =>
    by_cases hz : len = 0
    · -- a read of nothing at the end of the file returns −1
      subst hz
      simp only [Safe, if_true, not_or, Bool.not_eq_true, Nat.not_lt] at hsafe
      obtain ⟨hlive, hlim, hend⟩ := hsafe
      have hrefill : s.refill = (false, { s with position := 0, limit := s.capacity, ended := true }) := by
        rw [NioStream.refill, if_neg (Nat.not_lt.mpr hlim), if_pos hend]
      simp only [NioStream.call, NioStream.read, hrefill]
      rintro ⟨-, hne⟩
      exact hne rfl
    · simp only [Safe, if_neg hz] at hsafe
      obtain ⟨bs, hbs, hne, hnil⟩ := hdead len (by simpa using hsafe) hz
      simp only [NioStream.call, hbs]
      rintro ⟨hpre, -⟩
      rw [hnil] at hpre
      exact hne (List.prefix_nil.mp hpre)
  | available =>
    have hend : s.ended = true := by simpa [Safe] using hsafe
    obtain ⟨hnil, hpos, hlim⟩ := h.dead hend
    have hcap := s.capacity_pos
    intro hle
    replace hle : s.remaining ≤ rest.length := hle
    rw [hnil, List.length_nil, remaining] at hle
    omega
  | skip n =>
    simp only [Safe, not_or, Int.not_le, Bool.not_eq_false] at hsafe
    obtain ⟨hn, hend⟩ := hsafe
    obtain ⟨hnil, hpos, hlim⟩ := h.dead hend
    have hcap := s.capacity_pos
    have hrem : s.remaining = s.capacity := by
      unfold remaining
      omega
    intro hall
    replace hall : (s.skip n).1 = min n.toNat rest.length := hall
    rw [hnil, List.length_nil, Nat.min_zero, NioStream.skip, if_neg (Int.not_le.mpr hn)] at hall
    have hpos' : 0 < n.toNat := Int.pos_iff_toNat_pos.mp hn
    by_cases hin : n.toNat ≤ s.remaining
    · rw [if_pos hin] at hall
      exact absurd hall hpos'.ne'
    · rw [if_neg hin] at hall
      dsimp only at hall
      by_cases hpast : s.file.length - s.channel < n.toNat - s.remaining
      · rw [if_pos hpast] at hall
        exact absurd hall (by omega)
      · rw [if_neg hpast] at hall
        exact absurd hall (by omega)

/-- **When the stream is an `InputStream`**: a sequence of calls on a file is answered as promised exactly if every call
is safe. -/
theorem behaves_iff (file : Bytes) (capacity : ℕ) (hcap : 0 < capacity) (cut : ℕ → ℕ) (ops : List Op) :
    Cursor.AllowsAll file ops ((new file capacity hcap cut).results ops) ↔
      Along (fun s op => some (s.call op).2) Safe (new file capacity hcap cut) ops := by
  have hall : ∀ (ops : List Op) (s : NioStream) (rest : Bytes), Good s rest →
      (Cursor.AllowsAll rest ops (s.results ops) ↔ Along (fun s op => some (s.call op).2) Safe s ops) := by
    intro ops
    induction ops with
    | nil => exact fun s rest _ => Iff.rfl
    | cons op ops ih =>
      intro s rest h
      by_cases hsafe : s.Safe op
      · obtain ⟨hallows, hgood⟩ := h.call hsafe
        constructor
        · rintro ⟨-, hrest⟩
          refine ⟨hsafe, fun s' hs' => ?_⟩
          cases hs'
          exact (ih _ _ hgood).mp hrest
        · rintro ⟨-, hrest⟩
          exact ⟨hallows, (ih _ _ hgood).mpr (hrest _ rfl)⟩
      · constructor
        · rintro ⟨hallows, -⟩
          exact absurd hallows (h.not_allows hsafe)
        · rintro ⟨hs, -⟩
          exact absurd hs hsafe
  exact hall ops _ file (good_new file capacity hcap cut)

instance decidableSafe (s : NioStream) : ∀ op, Decidable (s.Safe op)
  | .readByte => inferInstanceAs (Decidable (s.ended = false))
  | .read len => inferInstanceAs (Decidable (if len = 0 then _ else _))
  | .available => inferInstanceAs (Decidable (s.ended = false))
  | .skip n => inferInstanceAs (Decidable (n ≤ 0 ∨ s.ended = false))

/-- Two bytes are read through a buffer of one; a read after the −1 gives the second of them again. -/
theorem behaves_iff_twoBytes :
    Cursor.AllowsAll [1, 2] [.read 8, .available, .readByte, .readByte, .skip 0]
        ((new [1, 2] 1 Nat.one_pos fun _ => 8).results [.read 8, .available, .readByte, .readByte, .skip 0]) ∧
      ¬ Cursor.AllowsAll [1, 2] [.skip 1, .readByte, .readByte, .readByte]
        ((new [1, 2] 1 Nat.one_pos fun _ => 8).results [.skip 1, .readByte, .readByte, .readByte]) := by
  constructor
  · exact (behaves_iff [1, 2] 1 Nat.one_pos _ _).mpr (by decide)
  · exact fun hall => absurd ((behaves_iff [1, 2] 1 Nat.one_pos _ _).mp hall) (by decide)

theorem length_pos_of_read {bs : Bytes} (h : s.read len = (some bs, s')) (hlen : len ≠ 0) : 0 < bs.length := by
  have hrem : ∀ s₁, s.refill = (true, s₁) → 0 < s₁.remaining := by
    intro s₁ hs₁
    unfold NioStream.refill at hs₁
    split_ifs at hs₁ with hpos hend
    · cases hs₁
      exact Nat.sub_pos_of_lt hpos
    · cases hs₁
    · cases hs₁
      have hgiven := given_pos (Nat.not_le.mp hend)
      show 0 < s.given - 0
      omega
  unfold NioStream.read at h
  split at h
  · cases h
  · rename_i s₁ hs₁
    have hpos := hrem s₁ hs₁
    cases h
    rw [length_read]
    omega

end NioStream

/-! ### The records -/

/-- `SerdeInputStream.readInto(buf, offset, length)`, over this stream. -/
def readInto (s : NioStream) (buf : Mem) (off remain : ℕ) : Except JavaException (Mem × NioStream) :=
  if bufferLength < off + remain then .error .indexOutOfBounds
  else
    match _h : s.read remain with
    | (none, _) => .error .eof
    | (some bs, s') =>
      if _hz : remain - bs.length = 0 then .ok (write buf off bs, s')
      else readInto s' (write buf off bs) (off + bs.length) (remain - bs.length)
termination_by remain
decreasing_by
  have := NioStream.length_pos_of_read _h (by omega)
  omega

/-- A `SerdeInputStream` over this stream. -/
structure FileSerdeStream where
  /-- `is`. -/
  is : NioStream
  /-- `reuseBuffer`. -/
  reuseBuffer : Mem

/-- `readObject`, up to `Deserialize`. -/
def FileSerdeStream.readObject (s : FileSerdeStream) : Except JavaException (Mem × FileSerdeStream) := do
  let (buf, is) ← readInto s.is s.reuseBuffer 0 8
  let length := getLengthOfCurrentObject buf
  if length.toInt > 1 * 1024 * 1024 then throw .tooLong
  let remain := (length.setWidth 32 - 8#32).toInt
  if remain < 0 then throw .indexOutOfBounds
  let (buf, is) ← readInto is buf 8 remain.toNat
  return (buf, ⟨is, buf⟩)

/-- The lists of `doDeIter`: the buffers that are handed to `Deserialize`. -/
structure Collected where
  /-- `ls`: the keys. -/
  ls : List Mem
  /-- `is`: the values. -/
  is : List Mem

/-- **However the file is read, the bytes arrive.** -/
theorem readInto_eq {s : NioStream} {bs rest : Bytes} (h : s.Good (bs ++ rest)) (hlive : s.ended = false) (hne : bs ≠ [])
    (buf : Mem) (off : ℕ) (hfit : off + bs.length ≤ bufferLength) :
    ∃ s', readInto s buf off bs.length = .ok (write buf off bs, s') ∧ s'.Good rest ∧ s'.ended = false := by
  obtain ⟨n, hn⟩ : ∃ n, bs.length = n := ⟨_, rfl⟩
  induction n using Nat.strong_induction_on generalizing s bs buf off with
  | _ n ih =>
    have happ : bs ++ rest ≠ [] := fun hnil => hne (List.append_eq_nil_iff.mp hnil).1
    have hpos : bs.length ≠ 0 := (List.length_pos_iff.mpr hne).ne'
    obtain ⟨k, s₁, hk, -, hkpos, hread, hgood, hlive₁⟩ := h.read hlive happ bs.length
    have htake : (bs ++ rest).take k = bs.take k := List.take_append_of_le_length hk
    have hdrop : (bs ++ rest).drop k = bs.drop k ++ rest := List.drop_append_of_le_length hk
    have hlen : (bs.take k).length = k := by rw [List.length_take]; omega
    rw [htake] at hread
    rw [hdrop] at hgood
    rw [readInto, if_neg (Nat.not_lt.mpr hfit)]
    split
    · rename_i hr
      rw [hread] at hr
      cases hr
    · rename_i bs' s' hr
      rw [hread] at hr
      cases hr
      rw [hlen]
      by_cases hz : bs.length - k = 0
      · have hall : k = bs.length := by omega
        rw [hall, List.drop_length, List.nil_append] at hgood
        rw [dif_pos hz, hall, List.take_length]
        exact ⟨s₁, rfl, hgood, hlive₁⟩
      · have hdroplen : (bs.drop k).length = bs.length - k := List.length_drop
        have hkp := hkpos hpos
        obtain ⟨s₂, hrec, hgood₂, hlive₂⟩ := ih (bs.drop k).length (by omega) hgood hlive₁
          (List.length_pos_iff.mp (by omega)) (write buf off (bs.take k)) (off + k) (by omega) rfl
        refine ⟨s₂, ?_, hgood₂, hlive₂⟩
        have hwrite := write_append buf off (bs.take k) (bs.drop k)
        rw [List.take_append_drop, hlen] at hwrite
        rw [dif_neg hz, ← hdroplen, hrec, hwrite]

/-- **One record**, with something behind its length. -/
theorem readObject_eq {s : FileSerdeStream} {record more : Bytes} (hr : IsRecord record) (hbody : 8 < record.length)
    (h : s.is.Good (record ++ more)) (hlive : s.is.ended = false) :
    ∃ is, s.readObject = .ok (write s.reuseBuffer 0 record, ⟨is, write s.reuseBuffer 0 record⟩) ∧ is.Good more ∧
      is.ended = false := by
  obtain ⟨⟨body, hhead⟩, hfit⟩ := hr
  have hlen : record.length = 8 + body.length := by
    have := congrArg List.length hhead
    rwa [List.length_append, length_le] at this
  have hle8 : (le 8 record.length).length = 8 := length_le ..
  rw [hhead, List.append_assoc] at h
  obtain ⟨s₁, h₁, hgood₁, hlive₁⟩ := readInto_eq h hlive (List.length_pos_iff.mp (by rw [hle8]; decide)) s.reuseBuffer 0
    (by rw [hle8]; decide)
  rw [hle8] at h₁
  have hword : (getLengthOfCurrentObject (write s.reuseBuffer 0 (le 8 record.length))).toNat = record.length := by
    have hself := read_write_self s.reuseBuffer 0 (le 8 record.length)
    rw [hle8] at hself
    rw [toNat_getLengthOfCurrentObject, hself, ofLe_le]
    exact Nat.mod_eq_of_lt (hfit.trans_lt (by decide))
  have hsmall : record.length ≤ 2 ^ 20 := hfit
  have hint := toInt_of_lt hword (by omega)
  have hremain := remain_eq hword (by omega) (by omega)
  obtain ⟨s₂, h₂, hgood₂, hlive₂⟩ := readInto_eq hgood₁ hlive₁ (List.length_pos_iff.mp (by omega))
    (write s.reuseBuffer 0 (le 8 record.length)) 8 (by rw [← hlen]; exact hfit)
  refine ⟨s₂, ?_, hgood₂, hlive₂⟩
  have hwrite : write (write s.reuseBuffer 0 (le 8 record.length)) 8 body = write s.reuseBuffer 0 record := by
    have := write_append s.reuseBuffer 0 (le 8 record.length) body
    rw [hle8, ← hhead] at this
    exact this.symm
  have hsub : record.length - 8 = body.length := by omega
  rw [hwrite] at h₂
  rw [FileSerdeStream.readObject, h₁]
  simp only [bind, Except.bind, hint, hremain, hsub, Int.toNat_natCast, h₂]
  rw [if_neg (by omega), if_neg (by omega)]
  rfl

end DShuffle.Serde.FileStream
