import DShuffle.Base.ByteMemory
import Mathlib.Logic.Function.Iterate

/-!
# The device's memory copy and fill

`d_memcpy` (`doca/kernel/mem.h`) copies words: of eight bytes when source and
destination are both aligned to eight, of four when both are aligned to four,
and otherwise it logs that this is unreachable and copies nothing. The words
that do not fill a round of eight go first, through a switch that falls through;
then come the rounds, and last the odd bytes. `d_memset` fills in the same order,
with a word that holds the byte in each of its places.

## What is proved

* `iterate_copyWord` — words copied one after the other, upwards and from a
  source that does not run into the destination, are one copy of their bytes.
* `dMemcpy_eq` — so `d_memcpy` between addresses aligned to four is a copy.
* `dMemcpyTraced_mem`, `dMemcpyTraced_reads` — the copy that also records its
  reads is the same copy, and it reads inside the source.
* `dMemset_eq` — `d_memset` at an address aligned to four is a fill.
* `dMemcpy_dMemset` — both together, byte by byte.
-/

namespace DShuffle.Kernel

open Base

/-- The memory and the two pointers of a copy. -/
structure Copy where
  /-- The memory. -/
  mem : Mem
  /-- Where the next word goes. -/
  d : ℕ
  /-- Where the next word comes from. -/
  s : ℕ

/-- `*d.uN++ = *s.uN++`, for words of `w` bytes. -/
def copyWord (w : ℕ) (c : Copy) : Copy := ⟨write c.mem c.d (read c.mem c.s w), c.d + w, c.s + w⟩

/-- `d_memcpy_u64` and `d_memcpy_u32`, for words of `w` bytes. -/
def dMemcpyWords (w : ℕ) (c : Copy) (bytes : ℕ) : Copy :=
  let len := bytes / w
  let n := len / 8
  -- the switch over `len % 8` falls through
  let c := (copyWord w)^[len % 8] c
  let c := ((copyWord w)^[8])^[n] c
  (copyWord 1)^[bytes % w] c

/-- `d_memcpy_u64`. -/
def dMemcpyU64 : Copy → ℕ → Copy := dMemcpyWords 8

/-- `d_memcpy_u32`. -/
def dMemcpyU32 : Copy → ℕ → Copy := dMemcpyWords 4

/-- `d_memcpy`. -/
def dMemcpy (m : Mem) (d s len : ℕ) : Mem :=
  if len = 0 then m
  else
    match (d % 8) ||| (s % 8) with
    | 0 => (dMemcpyU64 ⟨m, d, s⟩ len).mem
    | 4 => (dMemcpyU32 ⟨m, d, s⟩ len).mem
    | _ => m

/-- The switch and the unrolled loop behind it take `n` steps. -/
theorem iterate_unrolled {α : Type*} (step : α → α) (n : ℕ) (x : α) : (step^[8])^[n / 8] (step^[n % 8] x) = step^[n] x := by
  rw [← Function.iterate_mul, ← Function.iterate_add_apply, Nat.div_add_mod]

/-- Words copied upwards one by one are one copy of their bytes, unless the source starts below the destination and
runs into it: a word is read before anything is written over it. -/
theorem iterate_copyWord {m : Mem} {d s : ℕ} (w k : ℕ) (h : d ≤ s ∨ s + w * k ≤ d) :
    (copyWord w)^[k] ⟨m, d, s⟩ = ⟨write m d (read m s (w * k)), d + w * k, s + w * k⟩ := by
  induction k with
  | zero =>
    have hnil : read m s (w * 0) = [] := rfl
    rw [hnil, write_nil]
    rfl
  | succ k ih =>
    rw [Nat.mul_succ] at h
    have hread : read (write m d (read m s (w * k))) (s + w * k) w = read m (s + w * k) w := by
      rcases h with h | h
      · exact read_write_right (by rw [length_read]; omega)
      · exact read_write_left (by omega)
    have hwrite : write (write m d (read m s (w * k))) (d + w * k) (read m (s + w * k) w) =
        write m d (read m s (w * (k + 1))) := by
      have happ := write_append m d (read m s (w * k)) (read m (s + w * k) w)
      rw [length_read, ← read_add, ← Nat.mul_succ] at happ
      exact happ.symm
    rw [Function.iterate_succ_apply', ih (by omega), copyWord]
    simp only [hread, hwrite, Nat.mul_succ, Nat.add_assoc]

theorem dMemcpyWords_eq {m : Mem} {d s : ℕ} (w bytes : ℕ) (h : d ≤ s ∨ s + bytes ≤ d) :
    dMemcpyWords w ⟨m, d, s⟩ bytes = ⟨write m d (read m s bytes), d + bytes, s + bytes⟩ := by
  have hbytes : w * (bytes / w) + 1 * (bytes % w) = bytes := by rw [Nat.one_mul, Nat.div_add_mod]
  have hread : read (write m d (read m s (w * (bytes / w)))) (s + w * (bytes / w)) (1 * (bytes % w)) =
      read m (s + w * (bytes / w)) (1 * (bytes % w)) := by
    rcases h with h | h
    · exact read_write_right (by rw [length_read]; omega)
    · exact read_write_left (by omega)
  have happ := write_append m d (read m s (w * (bytes / w))) (read m (s + w * (bytes / w)) (1 * (bytes % w)))
  rw [length_read, ← read_add, hbytes] at happ
  unfold dMemcpyWords
  simp only [iterate_unrolled]
  rw [iterate_copyWord w (bytes / w) (by omega), iterate_copyWord 1 _ (by omega), hread, ← happ, Nat.add_assoc,
    Nat.add_assoc, hbytes]

/-- **`d_memcpy` copies**, when both addresses are multiples of four and the source does not run into the
destination from below. -/
theorem dMemcpy_eq {m : Mem} {d s : ℕ} (len : ℕ) (h : d ≤ s ∨ s + len ≤ d) (hd : d % 4 = 0) (hs : s % 4 = 0) :
    dMemcpy m d s len = write m d (read m s len) := by
  unfold dMemcpy
  split_ifs with hlen
  · subst hlen
    exact (write_nil m d).symm
  · have hcases : d % 8 ||| s % 8 = 0 ∨ d % 8 ||| s % 8 = 4 := by
      have hd' : d % 8 = 0 ∨ d % 8 = 4 := by omega
      have hs' : s % 8 = 0 ∨ s % 8 = 4 := by omega
      rcases hd' with hd' | hd' <;> rcases hs' with hs' | hs' <;> rw [hd', hs'] <;> decide
    rcases hcases with hc | hc
    · rw [hc]
      exact congrArg Copy.mem (dMemcpyWords_eq 8 len h)
    · rw [hc]
      exact congrArg Copy.mem (dMemcpyWords_eq 4 len h)

/-! ### What a copy reads -/

/-- A copy with a record of its reads. -/
structure Traced where
  /-- The copy. -/
  copy : Copy
  /-- Where each read began, and how many bytes it took. -/
  reads : List (ℕ × ℕ)

/-- `*d.uN++ = *s.uN++`, recorded. -/
def tracedWord (w : ℕ) (t : Traced) : Traced := ⟨copyWord w t.copy, t.reads ++ [(t.copy.s, w)]⟩

/-- `d_memcpy_u64` and `d_memcpy_u32`, recorded. -/
def dMemcpyWordsTraced (w : ℕ) (t : Traced) (bytes : ℕ) : Traced :=
  let len := bytes / w
  let n := len / 8
  let t := (tracedWord w)^[len % 8] t
  let t := ((tracedWord w)^[8])^[n] t
  (tracedWord 1)^[bytes % w] t

/-- `d_memcpy`, with the reads it makes. -/
def dMemcpyTraced (m : Mem) (d s len : ℕ) : Traced :=
  if len = 0 then ⟨⟨m, d, s⟩, []⟩
  else
    match (d % 8) ||| (s % 8) with
    | 0 => dMemcpyWordsTraced 8 ⟨⟨m, d, s⟩, []⟩ len
    | 4 => dMemcpyWordsTraced 4 ⟨⟨m, d, s⟩, []⟩ len
    | _ => ⟨⟨m, d, s⟩, []⟩

theorem iterate_tracedWord_copy (w k : ℕ) (t : Traced) : ((tracedWord w)^[k] t).copy = (copyWord w)^[k] t.copy := by
  induction k with
  | zero => rfl
  | succ k ih => rw [Function.iterate_succ_apply', Function.iterate_succ_apply', tracedWord, ih]

theorem iterate_copyWord_s (w k : ℕ) (c : Copy) : ((copyWord w)^[k] c).s = c.s + w * k := by
  induction k with
  | zero => rfl
  | succ k ih =>
    rw [Function.iterate_succ_apply', copyWord, Nat.mul_succ, ← Nat.add_assoc, ← ih]

/-- A read of `bytes` bytes from `s` on, or of some of them. -/
def Within (s bytes : ℕ) (a : ℕ × ℕ) : Prop := s ≤ a.1 ∧ a.1 + a.2 ≤ s + bytes

/-- Words read one after the other lie within their bytes. -/
theorem iterate_tracedWord_reads (w k : ℕ) (t : Traced) :
    ∀ a ∈ ((tracedWord w)^[k] t).reads, a ∈ t.reads ∨ Within t.copy.s (w * k) a := by
  induction k with
  | zero => exact fun a ha => Or.inl ha
  | succ k ih =>
    intro a ha
    rw [Function.iterate_succ_apply', tracedWord, iterate_tracedWord_copy, iterate_copyWord_s, List.mem_append,
      List.mem_singleton] at ha
    rcases ha with ha | rfl
    · refine (ih a ha).imp_right fun hin => ⟨hin.1, ?_⟩
      have hend := hin.2
      rw [Nat.mul_succ]
      omega
    · refine Or.inr ⟨Nat.le_add_right .., ?_⟩
      show t.copy.s + w * k + w ≤ t.copy.s + w * (k + 1)
      rw [Nat.mul_succ, Nat.add_assoc]

theorem dMemcpyWordsTraced_copy (w bytes : ℕ) (t : Traced) :
    (dMemcpyWordsTraced w t bytes).copy = dMemcpyWords w t.copy bytes := by
  unfold dMemcpyWordsTraced dMemcpyWords
  simp only [iterate_unrolled, iterate_tracedWord_copy]

theorem dMemcpyWordsTraced_reads (w bytes : ℕ) (c : Copy) :
    ∀ a ∈ (dMemcpyWordsTraced w ⟨c, []⟩ bytes).reads, Within c.s bytes a := by
  have hbytes : w * (bytes / w) + bytes % w = bytes := Nat.div_add_mod ..
  intro a ha
  unfold dMemcpyWordsTraced at ha
  simp only [iterate_unrolled] at ha
  rcases iterate_tracedWord_reads _ _ _ a ha with ha | hodd
  · rcases iterate_tracedWord_reads _ _ _ a ha with ha | hin
    · cases ha
    · exact ⟨hin.1, hin.2.trans (by show c.s + _ ≤ _; omega)⟩
  · -- the odd bytes begin where the words ended
    rw [iterate_tracedWord_copy, iterate_copyWord_s] at hodd
    obtain ⟨hlow, hhigh⟩ : c.s + w * (bytes / w) ≤ a.1 ∧ a.1 + a.2 ≤ c.s + w * (bytes / w) + 1 * (bytes % w) := hodd
    exact ⟨by omega, by omega⟩

/-- Recording the reads changes nothing. -/
theorem dMemcpyTraced_mem (m : Mem) (d s len : ℕ) : (dMemcpyTraced m d s len).copy.mem = dMemcpy m d s len := by
  unfold dMemcpyTraced dMemcpy
  split_ifs
  · rfl
  · split
    · rw [dMemcpyWordsTraced_copy]
      rfl
    · rw [dMemcpyWordsTraced_copy]
      rfl
    · rfl

/-- `d_memcpy` reads nothing but the source, whatever the addresses are. -/
theorem dMemcpyTraced_reads (m : Mem) (d s len : ℕ) : ∀ a ∈ (dMemcpyTraced m d s len).reads, Within s len a := by
  unfold dMemcpyTraced
  split_ifs
  · exact fun a ha => absurd ha List.not_mem_nil
  · split
    · exact dMemcpyWordsTraced_reads 8 len ⟨m, d, s⟩
    · exact dMemcpyWordsTraced_reads 4 len ⟨m, d, s⟩
    · exact fun a ha => absurd ha List.not_mem_nil

/-! ### Filling -/

/-- The memory and the pointer of a fill. -/
structure Fill where
  /-- The memory. -/
  mem : Mem
  /-- Where the next word goes. -/
  p : ℕ

/-- `*p.uN++ = u`, for a word that is stored as `bs`. -/
def setWord (bs : Bytes) (f : Fill) : Fill := ⟨write f.mem f.p bs, f.p + bs.length⟩

/-- The word of `d_memset_u32`: the byte, shifted into every place. -/
def splat32 (v : UInt8) : UInt32 :=
  let u := v.toUInt32
  let u := u ||| (u <<< 8)
  u ||| (u <<< 16)

/-- The word of `d_memset_u64`. -/
def splat64 (v : UInt8) : UInt64 :=
  let u := v.toUInt64
  let u := u ||| (u <<< 8)
  let u := u ||| (u <<< 16)
  u ||| (u <<< 32)

/-- `d_memset_u64` and `d_memset_u32`, for words of `w` bytes stored as `u`. -/
def dMemsetWords (w : ℕ) (u : Bytes) (f : Fill) (v : UInt8) (len : ℕ) : Fill :=
  let words := len / w
  let n := words / 8
  -- the switch over `words % 8` falls through
  let f := (setWord u)^[words % 8] f
  let f := ((setWord u)^[8])^[n] f
  (setWord [v])^[len % w] f

/-- `d_memset_u64`. -/
def dMemsetU64 (f : Fill) (v : UInt8) : ℕ → Fill := dMemsetWords 8 (le 8 (splat64 v).toNat) f v

/-- `d_memset_u32`. -/
def dMemsetU32 (f : Fill) (v : UInt8) : ℕ → Fill := dMemsetWords 4 (le 4 (splat32 v).toNat) f v

/-- `d_memset`. -/
def dMemset (m : Mem) (p : ℕ) (v : UInt8) (len : ℕ) : Mem :=
  match p % 8 with
  | 0 => (dMemsetU64 ⟨m, p⟩ v len).mem
  | 4 => (dMemsetU32 ⟨m, p⟩ v len).mem
  | _ => m

theorem le_splat32 (v : UInt8) : le 4 (splat32 v).toNat = List.replicate 4 v := by
  have hall : ∀ n : Fin 256, le 4 (splat32 (UInt8.ofNat n)).toNat = List.replicate 4 (UInt8.ofNat n) := by
    decide +kernel
  simpa using hall ⟨v.toNat, v.toNat_lt⟩

theorem le_splat64 (v : UInt8) : le 8 (splat64 v).toNat = List.replicate 8 v := by
  have hall : ∀ n : Fin 256, le 8 (splat64 (UInt8.ofNat n)).toNat = List.replicate 8 (UInt8.ofNat n) := by
    decide +kernel
  simpa using hall ⟨v.toNat, v.toNat_lt⟩

/-- Words of one byte put down one after the other are a fill with that byte. -/
theorem iterate_setWord (m : Mem) (p w k : ℕ) (v : UInt8) :
    (setWord (List.replicate w v))^[k] ⟨m, p⟩ = ⟨write m p (List.replicate (w * k) v), p + w * k⟩ := by
  induction k with
  | zero =>
    have hnil : List.replicate (w * 0) v = [] := rfl
    rw [hnil, write_nil]
    rfl
  | succ k ih =>
    have happ := write_append m p (List.replicate (w * k) v) (List.replicate w v)
    rw [← List.replicate_add, ← Nat.mul_succ, List.length_replicate] at happ
    rw [Function.iterate_succ_apply', ih, setWord, happ, List.length_replicate, Nat.add_assoc]
    rfl

theorem dMemsetWords_eq (m : Mem) (p w : ℕ) (v : UInt8) (len : ℕ) :
    dMemsetWords w (List.replicate w v) ⟨m, p⟩ v len = ⟨write m p (List.replicate len v), p + len⟩ := by
  have hbytes : w * (len / w) + 1 * (len % w) = len := by rw [Nat.one_mul, Nat.div_add_mod]
  have happ := write_append m p (List.replicate (w * (len / w)) v) (List.replicate (1 * (len % w)) v)
  rw [← List.replicate_add, hbytes, List.length_replicate] at happ
  unfold dMemsetWords
  simp only [iterate_unrolled]
  rw [iterate_setWord m p w, ← List.replicate_one, iterate_setWord, ← happ, Nat.add_assoc, hbytes]

/-- **`d_memset` fills**, when the address is a multiple of four. -/
theorem dMemset_eq (m : Mem) {p : ℕ} (v : UInt8) (len : ℕ) (hp : p % 4 = 0) :
    dMemset m p v len = write m p (List.replicate len v) := by
  unfold dMemset dMemsetU64 dMemsetU32
  rw [le_splat64, le_splat32]
  have hcases : p % 8 = 0 ∨ p % 8 = 4 := by omega
  rcases hcases with hc | hc
  · rw [hc]
    exact congrArg Fill.mem (dMemsetWords_eq m p 8 v len)
  · rw [hc]
    exact congrArg Fill.mem (dMemsetWords_eq m p 4 v len)

/-! ### Byte by byte -/

/-- A write changes its own bytes and no other. -/
theorem write_exact (m : Mem) (a : ℕ) (bs : Bytes) :
    read (write m a bs) a bs.length = bs ∧ ∀ x, x < a ∨ a + bs.length ≤ x → write m a bs x = m x :=
  ⟨read_write_self m a bs, fun _ hx => hx.elim write_of_lt write_of_le⟩

/-- **`d_memcpy` is `memcpy` and `d_memset` is `memset`.** On addresses that are multiples of four, and for a copy
between ranges that do not meet, the destination holds what it should, no byte beside it has changed, and the copy
has read nothing beside its source. -/
theorem dMemcpy_dMemset (m : Mem) {d s p : ℕ} (len n : ℕ) (v : UInt8) (hd : d % 4 = 0) (hs : s % 4 = 0) (hp : p % 4 = 0)
    (hapart : d + len ≤ s ∨ s + len ≤ d) :
    (read (dMemcpy m d s len) d len = read m s len ∧
      (∀ x, x < d ∨ d + len ≤ x → dMemcpy m d s len x = m x) ∧
      (dMemcpyTraced m d s len).copy.mem = dMemcpy m d s len ∧
      ∀ a ∈ (dMemcpyTraced m d s len).reads, s ≤ a.1 ∧ a.1 + a.2 ≤ s + len) ∧
    read (dMemset m p v n) p n = List.replicate n v ∧
    ∀ x, x < p ∨ p + n ≤ x → dMemset m p v n x = m x := by
  have hcopy := write_exact m d (read m s len)
  have hfill := write_exact m p (List.replicate n v)
  rw [length_read] at hcopy
  rw [List.length_replicate] at hfill
  rw [dMemset_eq m v n hp]
  refine ⟨⟨?_, ?_, dMemcpyTraced_mem m d s len, dMemcpyTraced_reads m d s len⟩, hfill⟩
  · rw [dMemcpy_eq len (by omega) hd hs]
    exact hcopy.1
  · rw [dMemcpy_eq len (by omega) hd hs]
    exact hcopy.2

/-- An instance: eleven bytes copied and five filled. -/
theorem dMemcpy_dMemset_sample :
    (read (dMemcpy (fun x => UInt8.ofNat x) 4 32 11) 4 11 = read (fun x => UInt8.ofNat x) 32 11 ∧
      (∀ x, x < 4 ∨ 4 + 11 ≤ x → dMemcpy (fun x => UInt8.ofNat x) 4 32 11 x = UInt8.ofNat x) ∧
      (dMemcpyTraced (fun x => UInt8.ofNat x) 4 32 11).copy.mem = dMemcpy (fun x => UInt8.ofNat x) 4 32 11 ∧
      ∀ a ∈ (dMemcpyTraced (fun x => UInt8.ofNat x) 4 32 11).reads, 32 ≤ a.1 ∧ a.1 + a.2 ≤ 32 + 11) ∧
    read (dMemset (fun x => UInt8.ofNat x) 12 255 5) 12 5 = List.replicate 5 255 ∧
    ∀ x, x < 12 ∨ 12 + 5 ≤ x → dMemset (fun x => UInt8.ofNat x) 12 255 5 x = UInt8.ofNat x :=
  dMemcpy_dMemset (fun x => UInt8.ofNat x) 11 5 255 (by decide) (by decide) (by decide) (by decide)

end DShuffle.Kernel
