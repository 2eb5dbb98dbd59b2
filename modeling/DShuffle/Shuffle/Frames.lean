import Mathlib.Algebra.BigOperators.Group.Finset.Piecewise
import Mathlib.Algebra.Order.Ring.Nat
import DShuffle.Base.Cut
import DShuffle.Shuffle.Partition

/-!
# The frames of a partition

`native_partition` walks over its span by lengths that it finds in the span itself. What it does with whole records
is one thing, and for which bytes it comes to its end is another.

## The model

* A run of the loop that needs more rounds than it is given ends with `fuel`; a read outside the span, and a `subspan`
  that ends outside, are a `badAccess`.
* A span is shorter than `2 ^ 63`, as a pointer difference has to count it.

## What is proved

* `nativePartition_partitions` — of `m` records the loop makes `m` rounds, and what it leaves is a partition of them.
* `terminates_inside_iff` — the loop comes to its end inside the span exactly if the span is cut into an even number of
  pieces, each as long as the eight bytes from its start on say. The pieces may be shorter than eight bytes.
* `doomed_partitionFrom` — from a length of zero, and from one that leads out of the span, there is no way back: also not
  with `dynamic_extent`, which takes the rest and steps back by one byte.
* `not_odd_frames` — an odd number of frames leads out of the span.
* `never_ends_zeros` — eight zero bytes are walked over forever.
-/

namespace DShuffle.Shuffle

open Base Serde

/-! ### Whole records -/

/-- Every record is counted in one bucket. -/
theorem sum_length_recordsOf (kvs : List KeyValue) :
    ∑ p ∈ Finset.range nBucket, (bytesOf (recordsOf kvs p)).length = (bytesOf kvs).length := by
  induction kvs with
  | nil => rfl
  | cons kv kvs ih =>
    have hone : ∀ p, (bytesOf (recordsOf (kv :: kvs) p)).length =
        (if pidOf kv.key = p then kv.bytes.length else 0) + (bytesOf (recordsOf kvs p)).length := by
      intro p
      by_cases hp : pidOf kv.key = p
      · have hrec : recordsOf (kv :: kvs) p = kv :: recordsOf kvs p := by simp [recordsOf, hp]
        rw [hrec, if_pos hp]
        simp [bytesOf]
      · have hrec : recordsOf (kv :: kvs) p = recordsOf kvs p := by simp [recordsOf, hp]
        rw [hrec, if_neg hp, Nat.zero_add]
    have hmem : pidOf kv.key ∈ Finset.range nBucket := Finset.mem_range.mpr (Nat.mod_lt _ (by decide))
    rw [Finset.sum_congr rfl fun p _ => hone p, Finset.sum_add_distrib, Finset.sum_ite_eq, if_pos hmem, ih]
    simp [bytesOf]

/-- Bytes of a record that goes to the bucket lie between those of the records around it. -/
theorem bytesOf_recordsOf_middle (before after : List KeyValue) (kv : KeyValue) :
    bytesOf (recordsOf (before ++ kv :: after) (pidOf kv.key)) =
      bytesOf (recordsOf before (pidOf kv.key)) ++ (kv.key ++ kv.value) ++ bytesOf (recordsOf after (pidOf kv.key)) := by
  simp [recordsOf, bytesOf, KeyValue.bytes]

theorem recordsOf_middle_of_ne {before after : List KeyValue} {kv : KeyValue} {p : ℕ} (hp : p ≠ pidOf kv.key) :
    recordsOf (before ++ kv :: after) p = recordsOf before p ++ recordsOf after p := by
  simp [recordsOf, Ne.symm hp]

/-- What is left of the records is a partition of them. -/
structure Partitions (kvs : List KeyValue) (results : List Bytes) : Prop where
  /-- There are 32 results. -/
  count : results.length = nBucket
  /-- A result is a header with its number and its total size, and its pairs in the order of the input. -/
  result : ∀ p < nBucket, ∃ bytes, results[p]? = some bytes ∧
    bytes = le 8 p ++ le 8 bytes.length ++ bytesOf (recordsOf kvs p)
  /-- A pair lies in one result, that of its hash: its key and its value next to each other, behind the pairs before it
  and before those behind it. -/
  placed : ∀ before kv after, kvs = before ++ kv :: after → ∀ p,
    (∃ header : Bytes, header.length = Spill.headerSize ∧ results[p]? = some (header ++
      (bytesOf (recordsOf before p) ++ (kv.key ++ kv.value) ++ bytesOf (recordsOf after p)))) ↔ p = pidOf kv.key
  /-- The payloads add up to the input. -/
  total : (results.map fun bytes => (bytes.drop Spill.headerSize).length).sum = (bytesOf kvs).length

/-- Fewer rounds than there are records do not suffice. -/
theorem partitionFrom_short (kvs : List KeyValue) (pre : Bytes) (results : List Bytes) {fuel : ℕ} (hfuel : fuel ≤ kvs.length) :
    partitionFrom (pre ++ bytesOf kvs) fuel pre.length results = .error .fuel := by
  induction kvs generalizing pre results fuel with
  | nil =>
    rw [List.length_nil, Nat.le_zero] at hfuel
    rw [hfuel, partitionFrom]
  | cons kv kvs ih =>
    cases fuel with
    | zero => rfl
    | succ fuel =>
      rw [kv.partitionFrom_cons]
      exact ih (pre ++ kv.bytes) (insertRecord results kv.key kv.value) (Nat.le_of_succ_le_succ hfuel)

/-- The results of the records, in a list. -/
def resultsOf (kvs : List KeyValue) : List Bytes := (List.range nBucket).map fun p =>
  le 8 p ++ le 8 (Spill.headerSize + (bytesOf (recordsOf kvs p)).length) ++ bytesOf (recordsOf kvs p)

theorem getElem?_resultsOf (kvs : List KeyValue) {p : ℕ} (hp : p < nBucket) : (resultsOf kvs)[p]? =
    some (le 8 p ++ le 8 (Spill.headerSize + (bytesOf (recordsOf kvs p)).length) ++ bytesOf (recordsOf kvs p)) := by
  rw [resultsOf, List.getElem?_map, List.getElem?_range hp, Option.map_some]

theorem length_header (i n : ℕ) : (le 8 i ++ le 8 n).length = Spill.headerSize := by
  rw [List.length_append, length_le, length_le, Spill.headerSize]

theorem nativePartition_resultsOf (kvs : List KeyValue) {fuel : ℕ} (hfuel : kvs.length < fuel) :
    nativePartition fuel (bytesOf kvs) = .ok (resultsOf kvs) := by
  obtain ⟨results, hrun, hcount, hget⟩ := nativePartition_eq kvs hfuel
  rw [hrun]
  refine congrArg Except.ok (List.ext_getElem? fun p => ?_)
  by_cases hp : p < nBucket
  · rw [hget p hp, getElem?_resultsOf kvs hp]
  · rw [List.getElem?_eq_none (by omega), List.getElem?_eq_none (by rw [resultsOf, List.length_map, List.length_range]; omega)]

theorem resultsOf_partitions (kvs : List KeyValue) : Partitions kvs (resultsOf kvs) where
  count := by rw [resultsOf, List.length_map, List.length_range]
  result p hp := by
    refine ⟨_, getElem?_resultsOf kvs hp, ?_⟩
    rw [List.length_append, length_header]
  placed := by
    rintro before kv after rfl p
    constructor
    · rintro ⟨header, hheader, hget⟩
      by_contra hne
      have hp : p < nBucket := by
        obtain ⟨hp, -⟩ := List.getElem?_eq_some_iff.mp hget
        rwa [resultsOf, List.length_map, List.length_range] at hp
      -- the pair would have to fit between the others
      rw [getElem?_resultsOf _ hp, recordsOf_middle_of_ne hne] at hget
      have hlen := congrArg List.length (Option.some.inj hget)
      have hpos := List.length_pos_of_ne_nil kv.key_framed.ne_nil
      have hsplit : (bytesOf (recordsOf before p ++ recordsOf after p)).length =
          (bytesOf (recordsOf before p)).length + (bytesOf (recordsOf after p)).length := by simp [bytesOf]
      rw [List.length_append, length_header, List.length_append, hheader, hsplit] at hlen
      simp only [List.length_append] at hlen
      omega
    · rintro rfl
      have hp : pidOf kv.key < nBucket := Nat.mod_lt _ (by decide)
      have hget := getElem?_resultsOf (before ++ kv :: after) hp
      rw [bytesOf_recordsOf_middle] at hget
      exact ⟨_, length_header _ _, hget⟩
  total := by
    have hpayload : ∀ p n (bytes : Bytes), ((le 8 p ++ le 8 n ++ bytes).drop Spill.headerSize).length = bytes.length := by
      intro p n bytes
      rw [← length_header p n, List.drop_left]
    rw [← sum_length_recordsOf kvs, resultsOf, List.map_map]
    simp only [Function.comp_def, hpayload]
    rfl

/-- **The input is partitioned**: of `m` records the loop makes `m` rounds, no more and no less, and every pair lies in the
result of its hash, as it was and in its order, and nothing else lies there. -/
theorem nativePartition_partitions (kvs : List KeyValue) : ∃ results, Partitions kvs results ∧
    ∀ fuel, nativePartition fuel (bytesOf kvs) = if kvs.length < fuel then .ok results else .error .fuel := by
  refine ⟨resultsOf kvs, resultsOf_partitions kvs, fun fuel => ?_⟩
  split_ifs with hfuel
  · exact nativePartition_resultsOf kvs hfuel
  · have hshort := partitionFrom_short kvs [] (List.replicate nBucket (List.replicate Spill.headerSize 0))
      (Nat.le_of_not_lt hfuel)
    rw [List.nil_append, List.length_nil] at hshort
    rw [nativePartition, hshort]
    rfl

/-! ### Any bytes -/

/-- `native_partition` comes to its end, and reads nothing outside its span. -/
def TerminatesInside (data : Bytes) : Prop := ∃ fuel results, nativePartition fuel data = .ok results

variable {data : Bytes} {offset : ℕ}

/-- The length at the offset is zero, or it leads out of any span: all its bytes but the first are ones. -/
def Doomed (data : Bytes) (offset : ℕ) : Prop :=
  offset + 8 ≤ data.length ∧ (ofLe (slice data offset 8) = 0 ∨ 2 ^ 64 - 256 ≤ ofLe (slice data offset 8))

/-- The eight bytes at an offset, from those behind it. -/
theorem ofLe_slice_succ (h : offset + 9 ≤ data.length) :
    256 * (ofLe (slice data (offset + 1) 8) % 256 ^ 7) ≤ ofLe (slice data offset 8) := by
  have hlt : offset < data.length := by omega
  have hcons : data.drop offset = data[offset] :: data.drop (offset + 1) := List.drop_eq_getElem_cons hlt
  rw [slice, slice, hcons, List.take_succ_cons, ofLe, ← ofLe_take, List.take_take]
  exact Nat.le_add_left ..

section

variable (hsize : data.length < 2 ^ 63) (hfirst : ofLe (slice data 0 8) ≠ dynamicExtent)

include hsize hfirst

/-- There is no way back: `get_object` stays where it is, fails, or steps back by one byte. -/
theorem Doomed.getObject (h : Doomed data offset) {bs : Bytes} {behind : ℕ} (hget : getObject data offset = .ok (bs, behind)) :
    Doomed data behind := by
  obtain ⟨hin, hword⟩ := h
  rw [Shuffle.getObject, if_pos hin] at hget
  simp only at hget
  split_ifs at hget with hdyn hfit
  · cases offset with
    | zero => exact absurd hdyn hfirst
    | succ offset =>
      obtain rfl : offset = behind := by
        have h := (Prod.mk.inj (Except.ok.inj hget)).2
        rw [hdyn, dynamicExtent] at h
        omega
      have hstep := ofLe_slice_succ (show offset + 9 ≤ data.length by omega)
      rw [hdyn, dynamicExtent] at hstep
      exact ⟨by omega, Or.inr (le_trans (by decide) hstep)⟩
  · obtain rfl : offset + ofLe (slice data offset 8) = behind := (Prod.mk.inj (Except.ok.inj hget)).2
    have hzero : ofLe (slice data offset 8) = 0 := by omega
    rw [hzero, Nat.add_zero]
    exact ⟨hin, Or.inl hzero⟩

/-- **No way back**: from such an offset the loop does not come to its end. -/
theorem doomed_partitionFrom (h : Doomed data offset) (fuel : ℕ) (results r : List Bytes) :
    partitionFrom data fuel offset results ≠ .ok r := by
  induction fuel generalizing offset results with
  | zero =>
    intro hrun
    cases hrun
  | succ fuel ih =>
    intro hrun
    have hlimit : offset < data.length := by
      have hin := h.1
      omega
    rw [partitionFrom, if_pos hlimit] at hrun
    obtain ⟨⟨key, behind⟩, hkey, hrun⟩ := bind_eq_ok hrun
    obtain ⟨⟨value, next⟩, hvalue, hrun⟩ := bind_eq_ok hrun
    exact ih ((h.getObject hsize hfirst hkey).getObject hsize hfirst hvalue) _ hrun

/-- What `get_object` takes is a piece of the span, or there is no way back behind it. -/
theorem getObject_piece {bs : Bytes} {behind : ℕ} (hget : getObject data offset = .ok (bs, behind)) :
    Doomed data behind ∨
      bs ≠ [] ∧ word (data.drop offset) = some bs.length ∧ data.drop offset = bs ++ data.drop behind := by
  by_cases hdoomed : Doomed data offset
  · exact Or.inl (hdoomed.getObject hsize hfirst hget)
  have hin : offset + 8 ≤ data.length := by
    by_contra hin
    rw [getObject, if_neg hin] at hget
    cases hget
  have hnot : ofLe (slice data offset 8) ≠ 0 ∧ ofLe (slice data offset 8) ≠ dynamicExtent := by
    constructor
    · exact fun h => hdoomed ⟨hin, Or.inl h⟩
    · exact fun h => hdoomed ⟨hin, Or.inr (by rw [h]; decide)⟩
  rw [getObject, if_pos hin] at hget
  simp only at hget
  rw [if_neg hnot.2] at hget
  split_ifs at hget with hfit
  obtain ⟨hbs, hbehind⟩ := Prod.mk.inj (Except.ok.inj hget)
  have hlen : bs.length = ofLe (slice data offset 8) := by
    rw [← hbs, slice, List.length_take, List.length_drop]
    omega
  refine Or.inr ⟨fun hnil => hnot.1 ?_, ?_, ?_⟩
  · rw [← hlen, hnil, List.length_nil]
  · rw [word, if_pos (by rw [List.length_drop]; omega), hlen]
    simp [slice]
  · rw [← hbs, ← hbehind, slice, ← List.drop_drop, List.take_append_drop]

/-- A span that the loop comes to the end of is cut into pieces. -/
theorem cut_of_partitionFrom {fuel : ℕ} {results r : List Bytes} (hrun : partitionFrom data fuel offset results = .ok r) :
    ∃ pieces : List Bytes, pieces.flatten = data.drop offset ∧ Even pieces.length ∧ Cut word pieces := by
  induction fuel generalizing offset results with
  | zero => cases hrun
  | succ fuel ih =>
    rw [partitionFrom] at hrun
    split_ifs at hrun with hlimit
    · obtain ⟨⟨key, behind⟩, hkey, hrun⟩ := bind_eq_ok hrun
      obtain ⟨⟨value, next⟩, hvalue, hrun⟩ := bind_eq_ok hrun
      rcases getObject_piece hsize hfirst hvalue with hno | ⟨hvne, hvword, hvdrop⟩
      · exact (doomed_partitionFrom hsize hfirst hno _ _ _ hrun).elim
      rcases getObject_piece hsize hfirst hkey with hno | ⟨hkne, hkword, hkdrop⟩
      · exact (doomed_partitionFrom hsize hfirst (hno.getObject hsize hfirst hvalue) _ _ _ hrun).elim
      obtain ⟨pieces, hflat, heven, hcut⟩ := ih hrun
      refine ⟨key :: value :: pieces, ?_, ?_, ?_⟩
      · rw [List.flatten_cons, List.flatten_cons, hflat, ← hvdrop, ← hkdrop]
      · rw [List.length_cons, List.length_cons, Nat.even_add_one, Nat.even_add_one, not_not]
        exact heven
      · rw [Cut, Cut, List.flatten_cons, hflat, ← hvdrop, ← hkdrop]
        exact ⟨⟨hkne, hkword⟩, ⟨hvne, hvword⟩, hcut⟩
    · refine ⟨[], ?_, ⟨0, rfl⟩, trivial⟩
      rw [List.drop_of_length_le (by omega)]
      rfl

end

/-- A first key of `dynamic_extent` bytes is the whole span; its value is looked for at the last offset there is. -/
theorem first_partitionFrom (hsize : data.length < 2 ^ 63) (hfirst : ofLe (slice data 0 8) = dynamicExtent) (fuel : ℕ)
    (results r : List Bytes) : partitionFrom data fuel 0 results ≠ .ok r := by
  intro hrun
  cases fuel with
  | zero => cases hrun
  | succ fuel =>
    rw [partitionFrom] at hrun
    split_ifs at hrun with hlimit
    · obtain ⟨⟨key, behind⟩, hkey, hrun⟩ := bind_eq_ok hrun
      obtain ⟨⟨value, next⟩, hvalue, -⟩ := bind_eq_ok hrun
      rw [getObject] at hkey
      split_ifs at hkey with hin
      simp only [hfirst, if_pos] at hkey
      obtain rfl : dynamicExtent = behind := by
        have h := (Prod.mk.inj (Except.ok.inj hkey)).2
        rwa [Nat.zero_add, Nat.mod_eq_of_lt (by decide)] at h
      rw [getObject, if_neg (by rw [dynamicExtent]; omega)] at hvalue
      cases hvalue
    · rw [List.eq_nil_of_length_eq_zero (Nat.eq_zero_of_not_pos hlimit)] at hfirst
      exact absurd hfirst (by decide)

/-- The loop comes to the end of a span that is cut into an even number of pieces. -/
theorem partitionFrom_of_cut (pieces : List Bytes) (hcut : Cut word pieces) (heven : Even pieces.length) :
    ∀ (pre : Bytes) (results : List Bytes), (pre ++ pieces.flatten).length < dynamicExtent →
      ∃ fuel r, partitionFrom (pre ++ pieces.flatten) fuel pre.length results = .ok r := by
  refine Cut.pairs (motive := fun pieces => ∀ (pre : Bytes) (results : List Bytes),
    (pre ++ pieces.flatten).length < dynamicExtent →
      ∃ fuel r, partitionFrom (pre ++ pieces.flatten) fuel pre.length results = .ok r) ?_ ?_ pieces hcut heven
  · intro pre results _
    refine ⟨1, results, ?_⟩
    rw [partitionFrom, if_neg (by simp)]
  · intro key value rest hkne hkword _ hvword ih pre results hsize
    have hdata : pre ++ (key :: value :: rest).flatten = pre ++ key ++ value ++ rest.flatten := by
      simp only [List.flatten_cons, List.append_assoc]
    rw [hdata] at hsize ⊢
    obtain ⟨fuel, r, hrun⟩ := ih (pre ++ key ++ value) (insertRecord results key value) hsize
    simp only [List.length_append] at hsize
    refine ⟨fuel + 1, r, ?_⟩
    rw [partitionFrom_pair rfl hkne ⟨by omega, hkword⟩ ⟨by omega, hvword⟩]
    exact hrun

/-- A span that the loop comes to the end of is cut into an even number of pieces. -/
theorem cut_of_terminatesInside (hsize : data.length < 2 ^ 63) (h : TerminatesInside data) :
    ∃ pieces : List Bytes, pieces.flatten = data ∧ Even pieces.length ∧ Cut word pieces := by
  obtain ⟨fuel, results, hrun⟩ := h
  rw [nativePartition] at hrun
  obtain ⟨r, hloop, -⟩ := bind_eq_ok hrun
  by_cases hfirst : ofLe (slice data 0 8) = dynamicExtent
  · exact (first_partitionFrom hsize hfirst _ _ _ hloop).elim
  · have hcut := cut_of_partitionFrom hsize hfirst hloop
    rwa [List.drop_zero] at hcut

/-- **When `native_partition` comes to its end**: the span is cut into an even number of pieces. -/
theorem terminates_inside_iff (data : Bytes) (hsize : data.length < 2 ^ 63) :
    TerminatesInside data ↔ ∃ pieces : List Bytes, pieces.flatten = data ∧ Even pieces.length ∧ Cut word pieces := by
  constructor
  · exact cut_of_terminatesInside hsize
  · rintro ⟨pieces, rfl, heven, hcut⟩
    have hrun := partitionFrom_of_cut pieces hcut heven []
      (List.replicate nBucket (List.replicate Spill.headerSize 0)) (lt_trans hsize (by decide))
    rw [List.nil_append, List.length_nil] at hrun
    obtain ⟨fuel, r, hrun⟩ := hrun
    refine ⟨fuel, r.mapIdx putHeader, ?_⟩
    rw [nativePartition, hrun]
    rfl

/-- Two frames of eight bytes. -/
theorem terminates_inside_two : TerminatesInside (le 8 8 ++ le 8 8) := by
  refine (terminates_inside_iff (le 8 8 ++ le 8 8) (by decide)).mpr ⟨[le 8 8, le 8 8], rfl, ⟨1, rfl⟩, ?_⟩
  exact ⟨⟨by decide, by decide⟩, ⟨by decide, by decide⟩, trivial⟩

/-- **An odd number of frames** leads out of the span. -/
theorem not_odd_frames (frames : List Bytes) (hframed : ∀ f ∈ frames, Framed f) (hodd : Odd frames.length)
    (hsize : frames.flatten.length < 2 ^ 63) : ¬ TerminatesInside frames.flatten := by
  intro h
  obtain ⟨pieces, hflat, heven, hcut⟩ := cut_of_terminatesInside hsize h
  have hframes : Cut word frames := Cut.of_local fun f hf => ⟨(hframed f hf).ne_nil, (hframed f hf).word⟩
  rw [hcut.unique hframes hflat] at heven
  exact Nat.not_even_iff_odd.mpr hodd heven

/-- On eight zero bytes a round takes nothing. -/
theorem partitionFrom_zeros (fuel : ℕ) (results : List Bytes) :
    partitionFrom (List.replicate 8 0) fuel 0 results = .error .fuel := by
  induction fuel generalizing results with
  | zero => rfl
  | succ fuel ih => exact ih (insertRecord results [] [])

/-- **Eight zero bytes**: the loop never comes to its end. -/
theorem never_ends_zeros : (∀ fuel, nativePartition fuel (List.replicate 8 0) = .error .fuel) ∧
    ¬ TerminatesInside (List.replicate 8 0) := by
  have hrun : ∀ fuel, nativePartition fuel (List.replicate 8 0) = .error .fuel := by
    intro fuel
    rw [nativePartition, partitionFrom_zeros]
    rfl
  refine ⟨hrun, ?_⟩
  rintro ⟨fuel, results, hok⟩
  rw [hrun fuel] at hok
  cases hok

end DShuffle.Shuffle
