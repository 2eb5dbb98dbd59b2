import DShuffle.Serde.VisitedMap
import DShuffle.Kernel.Mem
import Mathlib.Data.Finset.Card
import Mathlib.Data.List.Dedup

/-!
# The visited maps as finite maps

The map of `doca/kernel/map.h` is the one of `MapImpl` with other names, one hash
function, 23 buckets and room for 64 entries. Both are meant to be finite maps in
which the first insert of a key wins.

## The model

The device's functions are the shared ones at its own hash, and `init_map` fills the
block with `d_memset`. A run is a list of operations and what each of them answers; a
pointer is answered by the value it points to. The abstract map is a partial function
from keys to values.

## What is proved

* `Represents.step` — one operation, on either map: it ends, answers as the partial
  function does, and leaves a map of the new one.
* `Represents.run` — hence a whole run, as long as the distinct keys that are inserted fit.
* `initMap_eq` — `init_map` leaves the empty map.
* `maps_agree` — `MapImpl`, for any capacity and any number of buckets, and the device's
  map, for up to 64 keys, answer as the partial function.
* `Represents.insertBy_full` — a full map is written out of its bounds; so `device_overflows`.
-/

namespace DShuffle.Kernel

open Base Serde.VisitedMap

/-! ### The device's map -/

namespace DeviceMap

/-- `prime`. -/
def prime : ℕ := 23

/-- `capacity`. -/
def capacity : ℕ := 64

/-- `h`. -/
def h (x : UInt64) (p : ℕ) : ℕ := x.toNat % p % 2 ^ 16

/-- `init_map`, on the block at an address. -/
def initMap (mem : Mem) (a : ℕ) : MapT :=
  { MapT.load prime capacity (dMemset mem a 0xFF (sizeofMapT prime capacity)) a with n := 0 }

/-- `map_add`. -/
def mapAdd (m : MapT) (k v : UInt64) : Option MapT := m.push (h k prime) k v

/-- `map_lookup`. -/
def mapLookup (fuel : ℕ) (m : MapT) (k : UInt64) : Option UInt64 := m.lookupBy fuel (h k prime) k

/-- `map_lookup_ref`. -/
def mapLookupRef (fuel : ℕ) (m : MapT) (k : UInt64) : Option (Option ℕ) := m.lookupRefBy fuel (h k prime) k

/-- `map_insert`: one for an insert, zero for a key that is there. -/
def mapInsert (fuel : ℕ) (m : MapT) (k v : UInt64) : Option (MapT × ℕ) := do
  let (m, isNew) ← m.insertBy fuel (h k prime) k v
  return (m, if isNew then 1 else 0)

/-- `init_map` leaves the empty map, at any address a `map_t` can have. -/
theorem initMap_eq (mem : Mem) {a : ℕ} (ha : a % 8 = 0) : initMap mem a = empty prime capacity := by
  have hinit := init_eq prime capacity mem a
  unfold initAt at hinit
  rw [initMap, dMemset_eq mem 0xFF _ (by omega), hinit]

end DeviceMap

/-! ### Operations and answers -/

/-- An operation on a map. -/
inductive MapOp where
  /-- `insert_kv`, `map_insert`. -/
  | insert (k v : UInt64)
  /-- `lookup_v`, `map_lookup`. -/
  | lookup (k : UInt64)
  /-- `lookup_v_ref`, `map_lookup_ref`. -/
  | lookupRef (k : UInt64)
  deriving DecidableEq, Repr

/-- What an operation answers. -/
inductive MapAnswer where
  /-- Whether the key was new. -/
  | inserted (isNew : Bool)
  /-- A value, and whether it is one. -/
  | value (v : UInt64) (found : Bool)
  /-- The value behind the pointer, `none` for the null pointer. -/
  | ref (v : Option UInt64)
  deriving DecidableEq, Repr

/-- What a pointer into the entries points to. -/
def deref (m : MapT) : Option ℕ → Option (Option UInt64)
  | none => some none
  | some i => (m.s[i]?).map fun e => some e.v

/-- An operation on a `MapImpl`. -/
def nativeStep (prime fuel : ℕ) (m : MapT) : MapOp → Option (MapT × MapAnswer)
  | .insert k v => do
    let (m, isNew) ← insertKv prime fuel m k v
    return (m, .inserted isNew)
  | .lookup k => do
    let (v, found) ← lookupV prime fuel m k
    return (m, .value v found)
  | .lookupRef k => do
    let (p, _) ← lookupVRef prime fuel m k
    return (m, .ref (← deref m p))

/-- An operation on the device's map. A lookup that finds nothing answers the invalid value. -/
def deviceStep (fuel : ℕ) (m : MapT) : MapOp → Option (MapT × MapAnswer)
  | .insert k v => do
    let (m, r) ← DeviceMap.mapInsert fuel m k v
    return (m, .inserted (r != 0))
  | .lookup k => do
    let v ← DeviceMap.mapLookup fuel m k
    return (m, .value v (v != invalidValue))
  | .lookupRef k => do
    return (m, .ref (← deref m (← DeviceMap.mapLookupRef fuel m k)))

/-- One operation after the other. -/
def runMap (step : MapT → MapOp → Option (MapT × MapAnswer)) : List MapOp → MapT → Option (MapT × List MapAnswer)
  | [], m => some (m, [])
  | op :: ops, m => do
    let (m, answer) ← step m op
    let (m, answers) ← runMap step ops m
    return (m, answer :: answers)

/-! ### The partial function -/

/-- What a map is for: each key has a value or has none. -/
abbrev PartialMap := UInt64 → Option UInt64

/-- An operation on it: the first insert of a key wins. -/
def PartialMap.step (f : PartialMap) : MapOp → PartialMap × MapAnswer
  | .insert k v => if (f k).isSome then (f, .inserted false) else (Function.update f k (some v), .inserted true)
  | .lookup k => (f, .value ((f k).getD invalidValue) (f k).isSome)
  | .lookupRef k => (f, .ref (f k))

/-- One operation after the other. -/
def PartialMap.run : List MapOp → PartialMap → PartialMap × List MapAnswer
  | [], f => (f, [])
  | op :: ops, f =>
    let (f, answer) := f.step op
    let (f, answers) := PartialMap.run ops f
    (f, answer :: answers)

/-- The keys that are inserted. -/
def insertedKeys (ops : List MapOp) : List UInt64 :=
  ops.filterMap fun
    | .insert k _ => some k
    | _ => none

/-- How many distinct keys are inserted. -/
def distinctKeys (ops : List MapOp) : ℕ := (insertedKeys ops).toFinset.card

/-- No value that is inserted is the invalid one. -/
def ValidValues (ops : List MapOp) : Prop := ∀ k v, MapOp.insert k v ∈ ops → v ≠ invalidValue

/-- The value of a key among these entries. -/
def contents (es : List Entry) : PartialMap := fun k => (es.find? fun e => e.k == k).map (·.v)

theorem contents_none {es : List Entry} {k : UInt64} (h : ∀ e ∈ es, e.k ≠ k) : contents es k = none := by
  unfold contents
  rw [List.find?_eq_none.mpr fun e he => by rw [beq_iff_eq]; exact h e he]
  rfl

/-- Where keys are distinct, an entry is what its key has. -/
theorem contents_some {es : List Entry} {e : Entry} (hd : (es.map (·.k)).Nodup) (he : e ∈ es) :
    contents es e.k = some e.v := by
  induction es with
  | nil => cases he
  | cons x es ih =>
    rw [List.map_cons, List.nodup_cons] at hd
    unfold contents
    rcases List.mem_cons.mp he with rfl | he
    · have hself : (e.k == e.k) = true := beq_self_eq_true e.k
      rw [List.find?_cons, hself]
      rfl
    · have hne : (x.k == e.k) = false := by
        rw [beq_eq_false_iff_ne]
        exact fun heq => hd.1 (List.mem_map.mpr ⟨e, he, heq.symm⟩)
      rw [List.find?_cons, hne]
      exact ih hd.2 he

theorem contents_append {es : List Entry} {k v : UInt64} (h : ∀ e ∈ es, e.k ≠ k) :
    contents (es ++ [⟨k, v⟩]) = Function.update (contents es) k (some v) := by
  funext x
  unfold contents
  rw [List.find?_append]
  by_cases hx : x = k
  · subst hx
    rw [Function.update_self, List.find?_eq_none.mpr fun e he => by rw [beq_iff_eq]; exact h e he]
    simp
  · rw [Function.update_of_ne hx]
    have hone : [(⟨k, v⟩ : Entry)].find? (fun e => e.k == x) = none := by
      rw [List.find?_eq_none]
      intro e he
      rw [List.mem_singleton.mp he, beq_iff_eq]
      exact fun heq => hx heq.symm
    rw [hone, Option.or_none]

/-! ### One map, one partial function -/

/-- **The map represents the partial function**: it holds entries with distinct keys and valid values, and these are
what the function has. -/
structure Represents (prime capacity : ℕ) (hash : UInt64 → ℕ) (m : MapT) (es : List Entry) (f : PartialMap) : Prop where
  /-- The map holds the entries. -/
  holds : Holds prime capacity hash m es
  /-- No key is there twice. -/
  distinct : (es.map (·.k)).Nodup
  /-- No value is the invalid one. -/
  valid : ∀ e ∈ es, e.v ≠ invalidValue
  /-- The function has them. -/
  same : f = contents es

theorem represents_empty (prime capacity : ℕ) (hash : UInt64 → ℕ) :
    Represents prime capacity hash (empty prime capacity) [] fun _ => none :=
  ⟨holds_empty prime capacity hash, List.nodup_nil, fun _ he => absurd he List.not_mem_nil, rfl⟩

/-- An operation on a map that sorts its keys with `hash`: both programs' operations are this one. -/
def stepBy (hash : UInt64 → ℕ) (fuel : ℕ) (m : MapT) : MapOp → Option (MapT × MapAnswer)
  | .insert k v => (m.insertBy fuel (hash k) k v).map fun r => (r.1, .inserted r.2)
  | .lookup k => (m.lookupBy fuel (hash k) k).map fun v => (m, .value v (v != invalidValue))
  | .lookupRef k => ((m.lookupRefBy fuel (hash k) k).bind (deref m)).map fun v => (m, .ref v)

/-- Both programs' operations are the same two loops, over the buckets of their own hash. -/
theorem nativeStep_eq (prime fuel : ℕ) : nativeStep prime fuel = stepBy (Serde.VisitedMap.h · prime) fuel := by
  funext m op
  cases op with
  | insert k v =>
    rw [stepBy, Option.map_eq_bind]
    rfl
  | lookup k =>
    rw [stepBy, Option.map_eq_bind]
    exact Option.bind_assoc ..
  | lookupRef k =>
    rw [stepBy, Option.map_eq_bind, Option.bind_assoc]
    exact Option.bind_assoc ..

theorem deviceStep_eq (fuel : ℕ) : deviceStep fuel = stepBy (DeviceMap.h · DeviceMap.prime) fuel := by
  funext m op
  cases op with
  | insert k v =>
    rw [stepBy, Option.map_eq_bind]
    refine (Option.bind_assoc ..).trans ?_
    congr 1
    funext r
    obtain ⟨m', isNew⟩ := r
    cases isNew <;> rfl
  | lookup k =>
    rw [stepBy, Option.map_eq_bind]
    rfl
  | lookupRef k =>
    rw [stepBy, Option.map_eq_bind, Option.bind_assoc]
    rfl

section
variable {prime capacity fuel : ℕ} {hash : UInt64 → ℕ} {m : MapT} {es : List Entry} {f : PartialMap}

/-- What the loop finds, in terms of the partial function. -/
theorem Represents.find (h : Represents prime capacity hash m es f) {k : UInt64} (hk : hash k < prime)
    (hfuel : capacity < fuel) :
    (∃ i e, m.lookupRefBy fuel (hash k) k = some (some i) ∧ m.s[i]? = some e ∧ f k = some e.v ∧ e.v ≠ invalidValue ∧
        ∃ e ∈ es, e.k = k) ∨
      (m.lookupRefBy fuel (hash k) k = some none ∧ f k = none ∧ ∀ e ∈ es, e.k ≠ k) := by
  obtain ⟨p, hp, hfind⟩ := h.holds.find hk hfuel
  have hlookup : m.lookupRefBy fuel (hash k) k = m.find k fuel p := by
    unfold MapT.lookupRefBy
    rw [hp]
    rfl
  rw [hlookup, h.same]
  rcases hfind with ⟨i, e, hfind, he, heq⟩ | ⟨hfind, hnone⟩
  · have hmem := List.mem_of_getElem? he
    refine Or.inl ⟨i, e, hfind, h.holds.getElem? he, ?_, h.valid e hmem, e, hmem, heq⟩
    rw [← heq]
    exact contents_some h.distinct hmem
  · exact Or.inr ⟨hfind, contents_none hnone, hnone⟩

/-- A lookup follows the pointer of `lookup_v_ref`, or answers the invalid value. -/
theorem lookupBy_eq (m : MapT) (fuel nk : ℕ) (k : UInt64) :
    m.lookupBy fuel nk k = (m.lookupRefBy fuel nk k).bind fun p =>
      match p with
      | some i => (m.s[i]?).map (·.v)
      | none => some invalidValue := by
  unfold MapT.lookupBy MapT.lookupRefBy
  cases m.slotsK[nk]? with
  | none => rfl
  | some p =>
    show (m.find k fuel p).bind _ = (m.find k fuel p).bind _
    congr 1
    funext r
    cases r with
    | none => rfl
    | some i =>
      show (m.s[i]?).bind _ = (m.s[i]?).map _
      cases m.s[i]? <;> rfl

/-- **One operation**: it ends, answers as the partial function does, and leaves a map of the new one. An insert needs
room for a key that is not there. -/
theorem Represents.step (h : Represents prime capacity hash m es f) (hhash : ∀ k, hash k < prime) (hcap : capacity < 65535)
    (hfuel : capacity < fuel) (op : MapOp) (hvalid : ValidValues [op])
    (hroom : (es.map (·.k) ++ insertedKeys [op]).toFinset.card ≤ capacity) :
    ∃ m' es', stepBy hash fuel m op = some (m', (f.step op).2) ∧ Represents prime capacity hash m' es' (f.step op).1 ∧
      ∀ ks : List UInt64, (es'.map (·.k) ++ ks).toFinset ⊆ (es.map (·.k) ++ (insertedKeys [op] ++ ks)).toFinset := by
  have hkeys : ∀ ks : List UInt64, (es.map (·.k) ++ ks).toFinset ⊆ (es.map (·.k) ++ (insertedKeys [op] ++ ks)).toFinset := by
    intro ks x hx
    rw [List.mem_toFinset, List.mem_append] at hx ⊢
    exact hx.imp_right fun hmem => List.mem_append_right _ hmem
  cases op with
  | insert k v =>
    rcases h.find (hhash k) hfuel with ⟨i, e, -, -, hf, -, hknown⟩ | ⟨-, hf, hfresh⟩
    · have hstep : PartialMap.step f (.insert k v) = (f, .inserted false) := by
        rw [PartialMap.step, hf]
        rfl
      refine ⟨m, es, ?_, ?_, hkeys⟩
      · rw [hstep, stepBy, h.holds.insertBy_known (hhash k) hfuel hknown]
        rfl
      · rw [hstep]
        exact h
    · have hstep : PartialMap.step f (.insert k v) = (Function.update f k (some v), .inserted true) := by
        rw [PartialMap.step, hf]
        rfl
      have hnew : (es.map (·.k) ++ [k]).Nodup := by
        rw [← List.concat_eq_append]
        refine h.distinct.concat fun hmem => ?_
        obtain ⟨e, he, heq⟩ := List.mem_map.mp hmem
        exact hfresh e he heq
      have hlt : es.length < capacity := by
        have hone : insertedKeys [MapOp.insert k v] = [k] := rfl
        rw [hone, List.toFinset_card_of_nodup hnew, List.length_append, List.length_map] at hroom
        exact hroom
      obtain ⟨m', hinsert, hm'⟩ := h.holds.insertBy_fresh (v := v) (hhash k) hfuel hfresh hlt hcap
      refine ⟨m', es ++ [⟨k, v⟩], ?_, ⟨?_, ?_, ?_, ?_⟩, ?_⟩
      · rw [hstep, stepBy, hinsert]
        rfl
      · exact hm'
      · rw [List.map_append]
        exact hnew
      · intro e he
        rcases List.mem_append.mp he with he | he
        · exact h.valid e he
        · rw [List.mem_singleton.mp he]
          exact hvalid k v (List.mem_singleton.mpr rfl)
      · rw [hstep, contents_append hfresh, ← h.same]
      · intro ks
        rw [List.map_append, List.append_assoc]
        exact Finset.Subset.refl _
  | lookup k =>
    refine ⟨m, es, ?_, h, hkeys⟩
    rcases h.find (hhash k) hfuel with ⟨i, e, hfind, he, hf, hne, -⟩ | ⟨hfind, hf, -⟩
    · rw [stepBy, lookupBy_eq, hfind, PartialMap.step, hf]
      show ((m.s[i]?).map (·.v)).map _ = _
      rw [he]
      show some (m, MapAnswer.value e.v (e.v != invalidValue)) = _
      rw [bne_iff_ne.mpr hne]
      rfl
    · rw [stepBy, lookupBy_eq, hfind, PartialMap.step, hf]
      rfl
  | lookupRef k =>
    refine ⟨m, es, ?_, h, hkeys⟩
    rcases h.find (hhash k) hfuel with ⟨i, e, hfind, he, hf, -, -⟩ | ⟨hfind, hf, -⟩
    · rw [stepBy, hfind, PartialMap.step, hf]
      show ((m.s[i]?).map fun e => some e.v).map _ = _
      rw [he]
      rfl
    · rw [stepBy, hfind, PartialMap.step, hf]
      rfl

/-- **A run**: every operation ends and answers as the partial function does, as long as the keys that are inserted fit
beside those that are there. -/
theorem Represents.run (h : Represents prime capacity hash m es f) (hhash : ∀ k, hash k < prime) (hcap : capacity < 65535)
    (hfuel : capacity < fuel) (ops : List MapOp) (hvalid : ValidValues ops)
    (hroom : (es.map (·.k) ++ insertedKeys ops).toFinset.card ≤ capacity) :
    ∃ m' es', runMap (stepBy hash fuel) ops m = some (m', (PartialMap.run ops f).2) ∧
      Represents prime capacity hash m' es' (PartialMap.run ops f).1 := by
  induction ops generalizing m es f with
  | nil => exact ⟨m, es, rfl, h⟩
  | cons op ops ih =>
    have hsplit : insertedKeys (op :: ops) = insertedKeys [op] ++ insertedKeys ops := by
      unfold insertedKeys
      rw [← List.filterMap_append, List.singleton_append]
    rw [hsplit] at hroom
    have hroom₁ : (es.map (·.k) ++ insertedKeys [op]).toFinset.card ≤ capacity := by
      refine (Finset.card_le_card fun x hx => ?_).trans hroom
      rw [List.mem_toFinset, ← List.append_assoc, List.mem_append]
      exact Or.inl (List.mem_toFinset.mp hx)
    obtain ⟨m₁, es₁, hstep, h₁, hkeys⟩ := h.step hhash hcap hfuel op
      (fun k v hmem => hvalid k v (List.mem_singleton.mp hmem ▸ List.mem_cons_self ..)) hroom₁
    obtain ⟨m₂, es₂, hrun, h₂⟩ := ih h₁ (fun k v hmem => hvalid k v (List.mem_cons_of_mem _ hmem))
      ((Finset.card_le_card (hkeys _)).trans hroom)
    refine ⟨m₂, es₂, ?_, h₂⟩
    rw [runMap, hstep]
    show (runMap (stepBy hash fuel) ops m₁).bind _ = _
    rw [hrun]
    rfl

/-- Inserting a key the function has changes nothing, whatever the value. -/
theorem Represents.insertBy_known (h : Represents prime capacity hash m es f) {k : UInt64} (hk : hash k < prime)
    (hfuel : capacity < fuel) (hknown : (f k).isSome) (v : UInt64) : m.insertBy fuel (hash k) k v = some (m, false) := by
  rcases h.find hk hfuel with ⟨_, _, _, _, _, _, hmem⟩ | ⟨_, hnone, _⟩
  · exact h.holds.insertBy_known hk hfuel hmem
  · rw [hnone] at hknown
    exact absurd hknown (by decide)

/-- **A full map is written out of its bounds** by the insert of one more key: nothing checks the counter. -/
theorem Represents.insertBy_full (h : Represents prime capacity hash m es f) {k : UInt64} (hk : hash k < prime)
    (hfuel : capacity < fuel) (hfull : es.length = capacity) (hfresh : f k = none) (v : UInt64) :
    m.insertBy fuel (hash k) k v = none := by
  rcases h.find hk hfuel with ⟨_, _, _, _, hsome, _, _⟩ | ⟨hfind, _, _⟩
  · rw [hfresh] at hsome
    cases hsome
  · unfold MapT.lookupRefBy at hfind
    unfold MapT.insertBy
    obtain ⟨p, hp⟩ : ∃ p, m.slotsK[hash k]? = some p := by
      have hlt : hash k < m.slotsK.length := h.holds.slots ▸ hk
      exact ⟨_, List.getElem?_eq_getElem hlt⟩
    rw [hp] at hfind ⊢
    have hfind' : m.find k fuel p = some none := hfind
    have hpush : m.push (hash k) k v = none := by
      unfold MapT.push
      rw [hp]
      show (if _ then _ else _) = _
      rw [if_neg]
      rintro ⟨hlt, -⟩
      rw [h.holds.count, h.holds.next, hfull] at hlt
      exact Nat.lt_irrefl _ hlt
    show (m.find k fuel p).bind _ = _
    rw [hfind']
    show (m.push (hash k) k v).bind _ = _
    rw [hpush]
    rfl

end

/-! ### The two maps -/

theorem h_lt {prime : ℕ} (hprime : 0 < prime) (k : UInt64) : Serde.VisitedMap.h k prime < prime :=
  Nat.lt_of_le_of_lt (Nat.mod_le _ _) (Nat.mod_lt _ hprime)

theorem DeviceMap.h_lt (k : UInt64) : DeviceMap.h k DeviceMap.prime < DeviceMap.prime :=
  Nat.lt_of_le_of_lt (Nat.mod_le _ _) (Nat.mod_lt _ (by decide))

/-- **Both maps are finite maps.** After `init`, a `MapImpl` of any capacity below 65535 and any number of buckets
answers every sequence of operations that inserts at most `capacity` distinct keys as the partial function does, and
an insert of a key it has would change nothing; so does the device's map after `init_map`, if its 64 entries are
enough. Every operation ends: fuel for one step more than there can be entries is enough. -/
theorem maps_agree {prime capacity : ℕ} (hprime : 0 < prime) (hcap : capacity < 65535) (ops : List MapOp)
    (hvalid : ValidValues ops) (hkeys : distinctKeys ops ≤ capacity) (mem dmem : Mem) (a : ℕ) {da fuel : ℕ}
    (hda : da % 8 = 0) (hfuel : capacity < fuel) :
    (∃ m, runMap (nativeStep prime fuel) ops (initAt prime capacity mem a) =
        some (m, (PartialMap.run ops fun _ => none).2) ∧
      ∀ k v, ((PartialMap.run ops fun _ => none).1 k).isSome → insertKv prime fuel m k v = some (m, false)) ∧
    (distinctKeys ops ≤ DeviceMap.capacity → ∀ dfuel, DeviceMap.capacity < dfuel →
      ∃ m, runMap (deviceStep dfuel) ops (DeviceMap.initMap dmem da) = some (m, (PartialMap.run ops fun _ => none).2) ∧
        ∀ k v, ((PartialMap.run ops fun _ => none).1 k).isSome → DeviceMap.mapInsert dfuel m k v = some (m, 0)) := by
  constructor
  · obtain ⟨m, es, hrun, hm⟩ := (represents_empty prime capacity (Serde.VisitedMap.h · prime)).run (h_lt hprime) hcap hfuel
      ops hvalid hkeys
    rw [nativeStep_eq, init_eq]
    exact ⟨m, hrun, fun k v hknown => hm.insertBy_known (h_lt hprime k) hfuel hknown v⟩
  · intro hfew dfuel hdfuel
    obtain ⟨m, es, hrun, hm⟩ := (represents_empty DeviceMap.prime DeviceMap.capacity (DeviceMap.h · DeviceMap.prime)).run
      DeviceMap.h_lt (by decide) hdfuel ops hvalid hfew
    rw [deviceStep_eq, DeviceMap.initMap_eq dmem hda]
    refine ⟨m, hrun, fun k v hknown => ?_⟩
    have hinsert := hm.insertBy_known (DeviceMap.h_lt k) hdfuel hknown v
    unfold DeviceMap.mapInsert
    rw [hinsert]
    rfl

/-- Two keys of one bucket, in both programs. -/
def collidingOps : List MapOp :=
  [.insert 5 7, .insert 28 9, .insert 5 8, .lookup 5, .lookupRef 28, .lookup 51]

/-- An instance: the second insert of a key is refused, and colliding keys are told apart. -/
theorem maps_agree_sample :
    (∃ m, runMap (nativeStep 23 9) collidingOps (initAt 23 8 (fun _ => 0) 0) =
        some (m, (PartialMap.run collidingOps fun _ => none).2) ∧
      ∀ k v, ((PartialMap.run collidingOps fun _ => none).1 k).isSome → insertKv 23 9 m k v = some (m, false)) ∧
    (distinctKeys collidingOps ≤ DeviceMap.capacity → ∀ dfuel, DeviceMap.capacity < dfuel →
      ∃ m, runMap (deviceStep dfuel) collidingOps (DeviceMap.initMap (fun _ => 0) 0) =
          some (m, (PartialMap.run collidingOps fun _ => none).2) ∧
        ∀ k v, ((PartialMap.run collidingOps fun _ => none).1 k).isSome → DeviceMap.mapInsert dfuel m k v = some (m, 0)) :=
  maps_agree (by decide) (by decide) collidingOps
    (by
      intro k v hmem
      simp only [collidingOps, List.mem_cons, MapOp.insert.injEq, reduceCtorEq, List.not_mem_nil, or_false] at hmem
      rcases hmem with ⟨-, rfl⟩ | ⟨-, rfl⟩ | ⟨-, rfl⟩ <;> decide)
    (by decide) (fun _ => 0) (fun _ => 0) 0 (by decide) (by decide)

/-- The first `n` keys, with the value zero. -/
def countingOps (n : ℕ) : List MapOp := (List.range n).map fun i => .insert (UInt64.ofNat i) 0

/-- **A `MapImpl` may hold more keys than the device's map**: with room for 65 it takes 65 keys, and the device's map
writes behind its arrays. -/
theorem device_overflows :
    (∃ m, runMap (nativeStep 23 66) (countingOps 65) (initAt 23 65 (fun _ => 0) 0) =
        some (m, (PartialMap.run (countingOps 65) fun _ => none).2)) ∧
      runMap (deviceStep 66) (countingOps 65) (DeviceMap.initMap (fun _ => 0) 0) = none := by
  have hvalid : ValidValues (countingOps 65) := by
    intro k v hmem
    obtain ⟨i, -, heq⟩ := List.mem_map.mp hmem
    rw [MapOp.insert.injEq] at heq
    rw [← heq.2]
    decide
  constructor
  · have hfuel : 65 < 66 := by decide
    obtain ⟨m, es, hrun, -⟩ := (represents_empty 23 65 (Serde.VisitedMap.h · 23)).run (h_lt (by decide)) (by decide) hfuel
      (countingOps 65) hvalid (by decide +kernel)
    rw [nativeStep_eq, init_eq]
    exact ⟨m, hrun⟩
  · rw [DeviceMap.initMap_eq _ (by decide)]
    decide +kernel

end DShuffle.Kernel
