import DShuffle.Serde.ClassInfo

/-!
# The read-write buffer

`RWBuffer` (`rw_buffer.hxx`): a borrowed buffer and a cursor in it. Nothing
checks the size of the buffer, so here it is a whole memory, with the buffer's
first byte at address `0`.

What writing does is said once, by the relation `Emits b bs b'`: going from `b`
to `b'` the cursor moved over the bytes `bs`, which are now there, and nothing
before them changed. What lies past the cursor is left open: the transcoder may
leave bytes there.
-/

namespace DShuffle.Serde

open Base

/-- `RWBuffer`. -/
structure RWBuffer where
  /-- The bytes of the buffer. -/
  data : Mem
  /-- The cursor. -/
  off : ℕ

namespace RWBuffer

/-- `put`: write at the cursor and move it. -/
def put (b : RWBuffer) (bs : Bytes) : RWBuffer := ⟨write b.data b.off bs, b.off + bs.length⟩

/-- `put_at`. -/
def putAt (b : RWBuffer) (bs : Bytes) (offset : ℕ) : RWBuffer := { b with data := write b.data offset bs }

/-- `get_at<T>`, for a `T` of `n` bytes. -/
def getAt (b : RWBuffer) (n offset : ℕ) : ℕ := ofLe (read b.data offset n)

/-- `get<T>`, for a `T` of `n` bytes. -/
def get (b : RWBuffer) (n : ℕ) : ℕ × RWBuffer := (b.getAt n b.off, { b with off := b.off + n })

/-- `skip`. -/
def skip (b : RWBuffer) (n : ℕ) : RWBuffer := { b with off := b.off + n }

/-- `fill_next_align_8`. -/
def fillNextAlign8 (b : RWBuffer) : RWBuffer := b.put (List.replicate (upperAlign b.off 8 - b.off) 0)

/-- `skip_next_align_8`. -/
def skipNextAlign8 (b : RWBuffer) : RWBuffer := { b with off := upperAlign b.off 8 }

theorem fillNextAlign8_eq (b : RWBuffer) : b.fillNextAlign8 = b.put (pad8 b.off) := rfl

theorem put_put (b : RWBuffer) (bs cs : Bytes) : (b.put bs).put cs = b.put (bs ++ cs) := by
  simp only [put, write_append, List.length_append, Nat.add_assoc]

@[simp] theorem off_put (b : RWBuffer) (bs : Bytes) : (b.put bs).off = b.off + bs.length := rfl

@[simp] theorem off_fillNextAlign8 (b : RWBuffer) : b.fillNextAlign8.off = upperAlign b.off 8 := by
  rw [fillNextAlign8_eq, off_put, add_length_pad8]

/-! ### What writing does -/

/-- Going from `b` to `b'` wrote the bytes `bs` at the cursor and moved it past them. -/
structure Emits (b : RWBuffer) (bs : Bytes) (b' : RWBuffer) : Prop where
  /-- The cursor moved over the bytes. -/
  off : b'.off = b.off + bs.length
  /-- Up to the cursor the memory is as if they had been written. -/
  data : ∀ x < b'.off, b'.data x = write b.data b.off bs x

theorem Emits.refl (b : RWBuffer) : Emits b [] b := ⟨rfl, fun _ _ => by rw [write_nil]⟩

theorem emits_put (b : RWBuffer) (bs : Bytes) : Emits b bs (b.put bs) := ⟨rfl, fun _ _ => rfl⟩

theorem Emits.trans {b b₁ b₂ : RWBuffer} {bs cs : Bytes} (h₁ : Emits b bs b₁) (h₂ : Emits b₁ cs b₂) :
    Emits b (bs ++ cs) b₂ := by
  refine ⟨by rw [h₂.off, h₁.off, List.length_append, Nat.add_assoc], fun x hx => ?_⟩
  rw [h₂.data x hx, write_append, ← h₁.off]
  by_cases hlt : x < b₁.off
  · rw [write_of_lt hlt, write_of_lt hlt, h₁.data x hlt]
  · obtain ⟨i, rfl⟩ := Nat.exists_eq_add_of_le (Nat.le_of_not_lt hlt)
    have hi : i < cs.length := by have := h₂.off; omega
    rw [write_inside hi, write_inside hi]

theorem Emits.put {b b' : RWBuffer} {bs : Bytes} (h : Emits b bs b') (cs : Bytes) :
    Emits b (bs ++ cs) (b'.put cs) := h.trans (emits_put b' cs)

theorem Emits.fillNextAlign8 {b b' : RWBuffer} {bs : Bytes} (h : Emits b bs b') :
    Emits b (bs ++ pad8 (b.off + bs.length)) b'.fillNextAlign8 := by
  rw [fillNextAlign8_eq, h.off]
  exact h.put _

/-- What is read back inside the bytes written. -/
theorem Emits.read_eq {b b' : RWBuffer} {bs : Bytes} {k n : ℕ} (h : Emits b bs b') (hk : k + n ≤ bs.length) :
    read b'.data (b.off + k) n = slice bs k n := by
  rw [← read_write_inside hk]
  refine read_congr fun x _ hx => h.data x ?_
  rw [h.off]
  omega

/-- The bytes written are there. -/
theorem Emits.read_all {b b' : RWBuffer} {bs : Bytes} (h : Emits b bs b') : read b'.data b.off bs.length = bs := by
  have hr := h.read_eq (k := 0) (n := bs.length) (Nat.le_of_eq (Nat.zero_add _))
  exact hr.trans (slice_all bs)

/-- What was before the bytes written is still there. -/
theorem Emits.read_before {b b' : RWBuffer} {bs : Bytes} {a n : ℕ} (h : Emits b bs b') (ha : a + n ≤ b.off) :
    read b'.data a n = read b.data a n := by
  have hw : read (write b.data b.off bs) a n = read b.data a n := read_write_left ha
  rw [← hw]
  refine read_congr fun x _ hx => h.data x ?_
  rw [h.off]
  omega

/-- Writing inside the bytes written patches them. -/
theorem Emits.putAt {b b' : RWBuffer} {bs v : Bytes} {k : ℕ} (h : Emits b bs b') (hk : k + v.length ≤ bs.length) :
    Emits b (patch bs k v) (b'.putAt v (b.off + k)) := by
  refine ⟨by rw [length_patch hk]; exact h.off, fun x hx => ?_⟩
  rw [← write_write_inside hk]
  change write b'.data (b.off + k) v x = _
  by_cases h₁ : x < b.off + k
  · rw [write_of_lt h₁, write_of_lt h₁, h.data x hx]
  by_cases h₂ : x < b.off + k + v.length
  · obtain ⟨i, rfl⟩ := Nat.exists_eq_add_of_le (Nat.le_of_not_lt h₁)
    rw [write_inside (by omega), write_inside (by omega)]
  · rw [write_of_le (by omega), write_of_le (by omega), h.data x hx]

end RWBuffer

end DShuffle.Serde
