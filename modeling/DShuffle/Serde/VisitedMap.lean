import DShuffle.Base.Chains
import DShuffle.Base.ByteMemory
import Mathlib.Data.List.Nodup

/-!
# The map of visited objects

`MapImpl` (`map.hxx`) keeps its entries in an array in the order they were inserted
and threads them into `prime` buckets, through one index array for the buckets and one
for the entries. Both arrays are laid out in one block with the entries, which is filled
with bytes of ones at first: an index of all ones is the mark that ends a chain. The
DPA has a copy of it in C (`doca/kernel/map.h`) that sorts keys into buckets with
another hash function.

## The model

`map_t` in normal mode, with its counter and its marks as 16-bit numbers and its
keys and values as 64-bit words (`K` and `V` are cast to them). An access outside an
array is a fault; the loops run on fuel. What the two programs share is stated once,
with the bucket of the key as a parameter, and each function of `MapImpl` is that at its
own hash.

## What is proved

* `init_eq` — after the byte fill every index is the mark.
* `Holds.find` — in a map that holds some entries the loop of each operation ends, and
  finds the entry with the key if there is one.
* `Holds.insertBy_fresh`, `Holds.insertBy_known` — an insert appends the entry, or
  changes nothing.
-/

namespace DShuffle.Serde.VisitedMap

open Base

/-! ### The block -/

/-- `invalid_mark`. -/
def invalidMark : ℕ := 0xFFFF

/-- `invalid_value`. -/
def invalidValue : UInt64 := 0xFFFFFFFFFFFFFFFF

/-- A key with its value. -/
structure Entry where
  /-- The key. -/
  k : UInt64
  /-- The value. -/
  v : UInt64
  deriving DecidableEq, Repr

/-- `map_t` (`normal_map_t`). -/
structure MapT where
  /-- How many entries there are. -/
  n : ℕ
  /-- For each bucket, its newest entry. -/
  slotsK : List ℕ
  /-- For each entry, the one inserted before it into its bucket. -/
  nextK : List ℕ
  /-- The entries. -/
  s : List Entry
  deriving DecidableEq, Repr

/-- Where the entries begin: behind the counter and the index arrays, at a multiple of eight. -/
def entriesOff (prime capacity : ℕ) : ℕ := upperAlign (2 + 2 * prime + 2 * capacity) 8

/-- `sizeof(map_t)`. -/
def sizeofMapT (prime capacity : ℕ) : ℕ := entriesOff prime capacity + 16 * capacity

/-- The `map_t` at an address. -/
def MapT.load (prime capacity : ℕ) (mem : Mem) (a : ℕ) : MapT where
  n := ofLe (read mem a 2)
  slotsK := (List.range prime).map fun i => ofLe (read mem (a + 2 + 2 * i) 2)
  nextK := (List.range capacity).map fun i => ofLe (read mem (a + 2 + 2 * prime + 2 * i) 2)
  s := (List.range capacity).map fun i =>
    ⟨UInt64.ofNat (ofLe (read mem (a + entriesOff prime capacity + 16 * i) 8)),
      UInt64.ofNat (ofLe (read mem (a + entriesOff prime capacity + 16 * i + 8) 8))⟩

/-- `init`: `memset(m, -1, sizeof(map_t))`, and no entries. -/
def initAt (prime capacity : ℕ) (mem : Mem) (a : ℕ) : MapT :=
  { MapT.load prime capacity (write mem a (List.replicate (sizeofMapT prime capacity) 0xFF)) a with n := 0 }

/-- The map that `init` leaves. -/
def empty (prime capacity : ℕ) : MapT :=
  ⟨0, List.replicate prime invalidMark, List.replicate capacity invalidMark,
    List.replicate capacity ⟨invalidValue, invalidValue⟩⟩

/-! ### What both programs do, with the bucket of the key as `nk` -/

namespace MapT

/-- `add`. -/
def push (m : MapT) (nk : ℕ) (k v : UInt64) : Option MapT := do
  let n := m.n
  let old ← m.slotsK[nk]?
  if n < m.nextK.length ∧ n < m.s.length then
    return ⟨(n + 1) % 2 ^ 16, m.slotsK.set nk n, m.nextK.set n old, m.s.set n ⟨k, v⟩⟩
  else none

/-- The loop of `_lookup_v`, of `_lookup_v_ref` and of `_insert_kv`, where the cursor is called `nxt`: the entry with
the key on the chain from `p`. -/
def find (m : MapT) (k : UInt64) (fuel p : ℕ) : Option (Option ℕ) :=
  follow m.nextK invalidMark (fun i => m.s[i]?.map fun e => e.k == k) fuel p

/-- `_lookup_v`. -/
def lookupBy (m : MapT) (fuel nk : ℕ) (k : UInt64) : Option UInt64 := do
  let p ← m.slotsK[nk]?
  match ← m.find k fuel p with
  | some i => return (← m.s[i]?).v
  | none => return invalidValue

/-- `_lookup_v_ref`: which entry the pointer points into, `none` for the null pointer. -/
def lookupRefBy (m : MapT) (fuel nk : ℕ) (k : UInt64) : Option (Option ℕ) := do
  let p ← m.slotsK[nk]?
  m.find k fuel p

/-- `_insert_kv`. -/
def insertBy (m : MapT) (fuel nk : ℕ) (k v : UInt64) : Option (MapT × Bool) := do
  let nxt ← m.slotsK[nk]?
  match ← m.find k fuel nxt with
  | some _ => return (m, false)
  | none => return (← m.push nk k v, true)

end MapT

/-! ### `MapImpl` -/

/-- `h`: the four words of the key, added up. -/
def h (x : UInt64) (p : ℕ) : ℕ :=
  let w (i : ℕ) := x.toNat / 2 ^ (16 * i) % 2 ^ 16
  (w 0 + w 1 + w 2 + w 3) % p % 2 ^ 16

/-- `add`. -/
def add (prime : ℕ) (m : MapT) (k v : UInt64) : Option MapT := m.push (h k prime) k v

/-- `insert_kv`. -/
def insertKv (prime fuel : ℕ) (m : MapT) (k v : UInt64) : Option (MapT × Bool) := m.insertBy fuel (h k prime) k v

/-- `lookup_v`. -/
def lookupV (prime fuel : ℕ) (m : MapT) (k : UInt64) : Option (UInt64 × Bool) := do
  let v ← m.lookupBy fuel (h k prime) k
  return (v, v != invalidValue)

/-- `lookup_v_ref`. -/
def lookupVRef (prime fuel : ℕ) (m : MapT) (k : UInt64) : Option (Option ℕ × Bool) := do
  let p ← m.lookupRefBy fuel (h k prime) k
  return (p, p.isSome)

/-! ### The byte fill -/

theorem read_fill {mem : Mem} {a n j w : ℕ} (h : j + w ≤ n) :
    read (write mem a (List.replicate n (0xFF : UInt8))) (a + j) w = List.replicate w 0xFF := by
  rw [read_write_inside (by rw [List.length_replicate]; exact h), slice, List.drop_replicate, List.take_replicate]
  congr 1
  omega

/-- **After the byte fill every index is the mark**, and every key and value the invalid one. -/
theorem init_eq (prime capacity : ℕ) (mem : Mem) (a : ℕ) : initAt prime capacity mem a = empty prime capacity := by
  have hoff : 2 + 2 * prime + 2 * capacity ≤ entriesOff prime capacity := le_upperAlign _
  have hmark : ofLe (List.replicate 2 0xFF) = invalidMark := by decide
  have hword : UInt64.ofNat (ofLe (List.replicate 8 0xFF)) = invalidValue := by decide
  have hslots : ∀ i ∈ List.range prime, ofLe (read (write mem a (List.replicate (sizeofMapT prime capacity) 0xFF))
      (a + 2 + 2 * i) 2) = invalidMark := by
    intro i hi
    rw [List.mem_range] at hi
    rw [Nat.add_assoc, read_fill (by unfold sizeofMapT; omega), hmark]
  have hnext : ∀ i ∈ List.range capacity, ofLe (read (write mem a (List.replicate (sizeofMapT prime capacity) 0xFF))
      (a + 2 + 2 * prime + 2 * i) 2) = invalidMark := by
    intro i hi
    rw [List.mem_range] at hi
    rw [Nat.add_assoc a, Nat.add_assoc a, read_fill (by unfold sizeofMapT; omega), hmark]
  have hentry : ∀ i ∈ List.range capacity, (⟨UInt64.ofNat (ofLe (read (write mem a
      (List.replicate (sizeofMapT prime capacity) 0xFF)) (a + entriesOff prime capacity + 16 * i) 8)),
      UInt64.ofNat (ofLe (read (write mem a (List.replicate (sizeofMapT prime capacity) 0xFF))
        (a + entriesOff prime capacity + 16 * i + 8) 8))⟩ : Entry) = ⟨invalidValue, invalidValue⟩ := by
    intro i hi
    rw [List.mem_range] at hi
    rw [Nat.add_assoc a, Nat.add_assoc a, read_fill (by unfold sizeofMapT; omega),
      read_fill (by unfold sizeofMapT; omega), hword]
  unfold initAt MapT.load empty
  rw [List.map_congr_left hslots, List.map_congr_left hnext, List.map_congr_left hentry]
  simp only [List.map_const', List.length_range]

/-! ### What a map holds -/

/-- The bucket of the entry at an index. -/
def bucketOf (hash : UInt64 → ℕ) (es : List Entry) (i : ℕ) : ℕ := ((es[i]?).map fun e => hash e.k).getD 0

theorem bucketOf_append {hash : UInt64 → ℕ} {es : List Entry} {e : Entry} {i : ℕ} (hi : i < es.length) :
    bucketOf hash es i = bucketOf hash (es ++ [e]) i := by
  unfold bucketOf
  rw [List.getElem?_append_left hi]

theorem bucketOf_length (hash : UInt64 → ℕ) (es : List Entry) (e : Entry) :
    bucketOf hash (es ++ [e]) es.length = hash e.k := by
  unfold bucketOf
  rw [List.getElem?_append_right (Nat.le_refl _), Nat.sub_self]
  rfl

/-- **The map holds these entries**, in the order they were inserted, sorted into buckets by the hash. -/
structure Holds (prime capacity : ℕ) (hash : UInt64 → ℕ) (m : MapT) (es : List Entry) : Prop where
  /-- There is a slot for each bucket. -/
  slots : m.slotsK.length = prime
  /-- There is an index for each entry there can be. -/
  next : m.nextK.length = capacity
  /-- There is room for the entries. -/
  room : m.s.length = capacity
  /-- The counter counts them. -/
  count : m.n = es.length
  /-- They come first. -/
  entries : es <+: m.s
  /-- The indices thread them. -/
  threaded : Threaded m.slotsK m.nextK invalidMark es.length (bucketOf hash es)

section
variable {prime capacity fuel : ℕ} {hash : UInt64 → ℕ} {m : MapT} {es : List Entry} {k v : UInt64}

theorem holds_empty (prime capacity : ℕ) (hash : UInt64 → ℕ) : Holds prime capacity hash (empty prime capacity) [] where
  slots := List.length_replicate
  next := List.length_replicate
  room := List.length_replicate
  count := rfl
  entries := List.nil_prefix
  threaded := Threaded.empty prime _ invalidMark _

/-- An entry that is held is in its place. -/
theorem Holds.getElem? (h : Holds prime capacity hash m es) {i : ℕ} {e : Entry} (he : es[i]? = some e) : m.s[i]? = some e := by
  obtain ⟨t, ht⟩ := h.entries
  rw [← ht, List.getElem?_append_left (List.getElem?_eq_some_iff.mp he).1]
  exact he

/-- **The loop ends, and finds the entry with the key** if there is one. -/
theorem Holds.find (h : Holds prime capacity hash m es) (hk : hash k < prime) (hfuel : capacity < fuel) :
    ∃ p, m.slotsK[hash k]? = some p ∧
      ((∃ i e, m.find k fuel p = some (some i) ∧ es[i]? = some e ∧ e.k = k) ∨
        (m.find k fuel p = some none ∧ ∀ e ∈ es, e.k ≠ k)) := by
  have hlt : hash k < m.slotsK.length := h.slots ▸ hk
  have hle : es.length ≤ capacity := h.room ▸ h.entries.length_le
  refine ⟨m.slotsK[hash k], List.getElem?_eq_getElem hlt, ?_⟩
  -- the test of the loop, on the entries that are held
  let good : ℕ → Bool := fun i => (es[i]?.map fun e => e.k == k).getD false
  have htest : ∀ i ∈ members (bucketOf hash es) (hash k) es.length,
      (m.s[i]?.map fun e => e.k == k) = some (good i) := by
    intro i hi
    have hi' : i < es.length := (mem_members.mp hi).1
    show _ = some (((es[i]?).map fun e => e.k == k).getD false)
    rw [h.getElem? (List.getElem?_eq_getElem hi'), List.getElem?_eq_getElem hi']
    rfl
  have hfollow : m.find k fuel m.slotsK[hash k] = some ((members (bucketOf hash es) (hash k) es.length).find? good) :=
    (h.threaded _ _ (List.getElem?_eq_getElem hlt)).follow_eq htest
      (Nat.lt_of_le_of_lt ((length_members_le _ _ _).trans hle) hfuel)
  cases hfound : (members (bucketOf hash es) (hash k) es.length).find? good with
  | some i =>
    have hi := (mem_members.mp (List.mem_of_find?_eq_some hfound)).1
    have hgood : good i = true := List.find?_some hfound
    refine Or.inl ⟨i, es[i], by rw [hfollow, hfound], List.getElem?_eq_getElem hi, ?_⟩
    have hkey : (es[i].k == k) = true := by
      have hg : ((es[i]?).map fun e => e.k == k).getD false = true := hgood
      rw [List.getElem?_eq_getElem hi] at hg
      exact hg
    exact eq_of_beq hkey
  | none =>
    refine Or.inr ⟨by rw [hfollow, hfound], fun e he heq => ?_⟩
    obtain ⟨i, hi, rfl⟩ := List.getElem_of_mem he
    have hbucket : bucketOf hash es i = hash k := by
      unfold bucketOf
      rw [List.getElem?_eq_getElem hi, ← heq]
      rfl
    have hno := List.find?_eq_none.mp hfound i (mem_members.mpr ⟨hi, hbucket⟩)
    refine hno ?_
    show ((es[i]?).map fun e => e.k == k).getD false = true
    rw [List.getElem?_eq_getElem hi]
    exact beq_iff_eq.mpr heq

/-- `add` appends the entry. -/
theorem Holds.push (h : Holds prime capacity hash m es) (hk : hash k < prime) (hroom : es.length < capacity)
    (hcap : capacity < 65535) : ∃ m', m.push (hash k) k v = some m' ∧ Holds prime capacity hash m' (es ++ [⟨k, v⟩]) := by
  have hlt : hash k < m.slotsK.length := h.slots ▸ hk
  have hfits : m.n < m.nextK.length ∧ m.n < m.s.length := by
    rw [h.count, h.next, h.room]
    exact ⟨hroom, hroom⟩
  refine ⟨⟨(m.n + 1) % 2 ^ 16, m.slotsK.set (hash k) m.n, m.nextK.set m.n m.slotsK[hash k], m.s.set m.n ⟨k, v⟩⟩, ?_, ?_⟩
  · unfold MapT.push
    rw [List.getElem?_eq_getElem hlt]
    show (if _ then _ else _) = _
    rw [if_pos hfits]
    rfl
  have hbucket : bucketOf hash (es ++ [⟨k, v⟩]) es.length = hash k := bucketOf_length hash es ⟨k, v⟩
  refine ⟨by rw [List.length_set, h.slots], by rw [List.length_set, h.next], by rw [List.length_set, h.room], ?_, ?_, ?_⟩
  · show (m.n + 1) % 2 ^ 16 = _
    rw [h.count, List.length_append, List.length_singleton, Nat.mod_eq_of_lt (by omega)]
  · -- the entry goes where the entries that are held end
    obtain ⟨t, ht⟩ := h.entries
    have hlen : (es ++ t).length = capacity := by rw [ht, h.room]
    rw [List.length_append] at hlen
    cases t with
    | nil => exact absurd hlen (by rw [List.length_nil]; omega)
    | cons x t =>
      show es ++ [⟨k, v⟩] <+: m.s.set m.n ⟨k, v⟩
      rw [← ht, h.count, List.set_append_right _ _ (Nat.le_refl _), Nat.sub_self, List.set_cons_zero]
      exact ⟨t, by rw [List.append_assoc, List.singleton_append]⟩
  · show Threaded (m.slotsK.set (hash k) m.n) (m.nextK.set m.n m.slotsK[hash k]) _ _ _
    have hpush := (h.threaded.congr fun i hi => bucketOf_append (e := ⟨k, v⟩) hi).push (q := m.slotsK[hash k])
      (by rw [h.next]; exact hroom) (by unfold invalidMark; omega) (by rw [hbucket, List.getElem?_eq_getElem hlt])
    rw [hbucket] at hpush
    rw [h.count, List.length_append, List.length_singleton]
    exact hpush

/-- **Inserting a key that is held** changes nothing. -/
theorem Holds.insertBy_known (h : Holds prime capacity hash m es) (hk : hash k < prime) (hfuel : capacity < fuel)
    (hknown : ∃ e ∈ es, e.k = k) : m.insertBy fuel (hash k) k v = some (m, false) := by
  obtain ⟨p, hp, hfind⟩ := h.find hk hfuel
  unfold MapT.insertBy
  rcases hfind with ⟨i, e, hfind, -, -⟩ | ⟨-, hnone⟩
  · rw [hp]
    show (m.find k fuel p).bind _ = _
    rw [hfind]
    rfl
  · obtain ⟨e, he, heq⟩ := hknown
    exact absurd heq (hnone e he)

/-- **Inserting a new key** appends its entry. -/
theorem Holds.insertBy_fresh (h : Holds prime capacity hash m es) (hk : hash k < prime) (hfuel : capacity < fuel)
    (hfresh : ∀ e ∈ es, e.k ≠ k) (hroom : es.length < capacity) (hcap : capacity < 65535) :
    ∃ m', m.insertBy fuel (hash k) k v = some (m', true) ∧ Holds prime capacity hash m' (es ++ [⟨k, v⟩]) := by
  obtain ⟨p, hp, hfind⟩ := h.find hk hfuel
  obtain ⟨m', hpush, hm'⟩ := h.push (v := v) hk hroom hcap
  refine ⟨m', ?_, hm'⟩
  unfold MapT.insertBy
  rcases hfind with ⟨i, e, -, he, heq⟩ | ⟨hfind, -⟩
  · exact absurd heq (hfresh e (List.mem_of_getElem? he))
  · rw [hp]
    show (m.find k fuel p).bind _ = _
    rw [hfind]
    show (m.push (hash k) k v).bind _ = _
    rw [hpush]
    rfl

end

end DShuffle.Serde.VisitedMap
