import DShuffle.Base.ByteMemory

/-!
# Serializers that read back what they wrote

A codec writes a value as bytes, and reads a value from the front of a string of
bytes, whatever comes behind it. So values that are written one after the other
are read one after the other (`Codec.prod`), and bytes left over in a buffer do no
harm.
-/

namespace DShuffle.Base

/-- A serializer and its deserializer. -/
structure Codec (α : Type) where
  /-- The bytes of a value. -/
  put : α → Bytes
  /-- A value at the front of the bytes, and the bytes behind it. -/
  get : Bytes → Option (α × Bytes)
  /-- What was written is read. -/
  get_put : ∀ (a : α) (rest : Bytes), get (put a ++ rest) = some (a, rest)

namespace Codec

variable {α β : Type}

/-- An unsigned number of `n` bytes, little end first. -/
def word (n : ℕ) : Codec (BitVec (8 * n)) where
  put v := le n v.toNat
  get bs := if n ≤ bs.length then some (BitVec.ofNat _ (ofLe (bs.take n)), bs.drop n) else none
  get_put v rest := by
    have hlen : (le n v.toNat).length = n := length_le ..
    have hv : v.toNat < 256 ^ n := by
      have h256 : 256 ^ n = 2 ^ (8 * n) := by rw [Nat.pow_mul]
      rw [h256]
      exact v.isLt
    rw [if_pos (by rw [List.length_append, hlen]; exact Nat.le_add_right ..), List.take_left' hlen, List.drop_left' hlen,
      ofLe_le, Nat.mod_eq_of_lt hv, BitVec.ofNat_toNat, BitVec.setWidth_eq]

/-- Two values, one after the other. -/
def prod (a : Codec α) (b : Codec β) : Codec (α × β) where
  put v := a.put v.1 ++ b.put v.2
  get bs := (a.get bs).bind fun x => (b.get x.2).map fun y => ((x.1, y.1), y.2)
  get_put v rest := by
    rw [List.append_assoc, a.get_put, Option.bind_some, b.get_put, Option.map_some]

/-- A record of the values. -/
def record (a : Codec α) (f : α → β) (g : β → α) (h : ∀ b, f (g b) = b) : Codec β where
  put v := a.put (g v)
  get bs := (a.get bs).map fun x => (f x.1, x.2)
  get_put v rest := by rw [a.get_put, Option.map_some, h]

end Codec

end DShuffle.Base
