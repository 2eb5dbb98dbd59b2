import Mathlib.Algebra.Order.Ring.Nat
import DShuffle.Base.SortedList
import Mathlib.Data.List.Basic

/-!
# The extents of a file

`get_file_fragments` asks the file system where a file lies on the disk. A call of
the ioctl gives as many extents as the buffer has room for, from a position of the
file on; the loop goes on behind the last extent that it was given, until an extent
is marked as the last one of the file, or nothing is left.

## The model

* The ioctl is a parameter: what it answers to a request, or that it fails.
* The loop gets fuel, one for each call of the ioctl.

## What is proved

* `readExtents_eq` — a batch adds a fragment for each of its extents, and shows whether
  the last extent of the file was among them.
* `file_fragments_complete` — on every file, and with every capacity, the loop ends, and
  has every extent once and in order.

## Honest scope

The warning about an extent that is not aligned goes to the log only, and is left out.
Positions in a file are signed 64-bit numbers; all that is used of that is that
no extent ends at 2 ^ 64.
-/

namespace DShuffle.Spill.Fragments

open Base

/-- `fiemap_extent`. -/
structure FiemapExtent where
  /-- `fe_logical`, where it starts in the file. -/
  logical : ℕ
  /-- `fe_physical`, where it starts on the disk. -/
  physical : ℕ
  /-- `fe_length`. -/
  length : ℕ
  /-- `FIEMAP_EXTENT_LAST`. -/
  last : Bool
  deriving DecidableEq

/-- Where an extent ends in the file. -/
def FiemapExtent.stop (e : FiemapExtent) : ℕ := e.logical + e.length

/-- What `fiemap` asks for. -/
structure Fiemap where
  /-- `fm_start`. -/
  start : ℕ
  /-- `fm_length`. -/
  length : ℕ
  /-- `FIEMAP_FLAG_SYNC` in `fm_flags`. -/
  sync : Bool
  /-- `fm_extent_count`. -/
  extentCount : ℕ
  deriving DecidableEq

/-- `FIEMAP_MAX_OFFSET`. -/
def fiemapMaxOffset : ℕ := 2 ^ 64 - 1

/-- `ioctl(fd, FS_IOC_FIEMAP, p)`: the extents that it maps, or that it fails. -/
abbrev Ioctl := Fiemap → Option (List FiemapExtent)

/-- `frag_t`. -/
structure Frag where
  /-- In bytes. -/
  length : ℕ
  /-- Where it starts in the file. -/
  logicOffset : ℕ
  /-- Where it starts on the disk. -/
  physicalOffset : ℕ
  /-- Its first block. -/
  startLba : ℕ
  /-- How many blocks. -/
  lbaCount : ℕ
  deriving DecidableEq

/-- The process ends. -/
inductive Died where
  /-- `ioctl failure`. -/
  | ioctlFailure
  deriving DecidableEq

/-- `count`, the extents that have room in the buffer of 8 KiB behind its header. -/
def count : ℕ := (8 * 1024 - 32) / 56

/-- What `emplace_back` makes of an extent. -/
def fragOf (lbaSize : ℕ) (e : FiemapExtent) : Frag where
  length := e.length
  logicOffset := e.logical
  physicalOffset := e.physical
  startLba := e.physical / lbaSize
  lbaCount := e.length / lbaSize

/-- The loop over a batch, which keeps the fragments and `eof`. -/
def readExtents (lbaSize : ℕ) : List FiemapExtent → List Frag → Bool → List Frag × Bool
  | [], frags, eof => (frags, eof)
  | e :: exts, frags, eof => readExtents lbaSize exts (frags ++ [fragOf lbaSize e]) (if e.last then true else eof)

section
variable (ioctl : Ioctl) (count lbaSize : ℕ)

/-- The loop of `get_file_fragments` with a buffer for `count` extents, from `fm_start` on; `none` if it runs out of
fuel. -/
def fragmentsLoop : ℕ → ℕ → List Frag → Option (Except Died (List Frag))
  | 0, _, _ => none
  | fuel + 1, start, frags =>
    match ioctl ⟨start, fiemapMaxOffset, true, count⟩ with
    | none => some (.error .ioctlFailure)
    | some exts =>
      match exts.getLast? with
      -- `fm_mapped_extents` is 0
      | none => some (.ok frags)
      | some back =>
        let (frags, eof) := readExtents lbaSize exts frags false
        let start := (back.logical + back.length) % 2 ^ 64
        if eof then some (.ok frags) else fragmentsLoop fuel start frags

end

/-- `get_file_fragments`. -/
def getFileFragments (ioctl : Ioctl) (lbaSize fuel : ℕ) : Option (Except Died (List Frag)) :=
  fragmentsLoop ioctl count lbaSize fuel 0 []

/-! ### The file -/

/-- The extents of a file, on a disk with blocks of `lbaSize` bytes. -/
structure File (lbaSize : ℕ) where
  /-- In the order of the file. -/
  extents : List FiemapExtent
  /-- None is empty. -/
  nonempty : ∀ e ∈ extents, 0 < e.length
  /-- None reaches into a later one. -/
  ordered : extents.Pairwise fun e f => e.stop ≤ f.logical
  /-- They consist of blocks. -/
  aligned : ∀ e ∈ extents, lbaSize ∣ e.physical ∧ lbaSize ∣ e.length
  /-- They end at positions of 64 bits. -/
  bounded : ∀ e ∈ extents, e.stop < 2 ^ 64
  /-- At most the last one is marked. -/
  marked : ∀ e ∈ extents.dropLast, e.last = false

/-- **What is assumed of the ioctl**: it gives the first extents that end behind the start, as many as have room. -/
def Maps (ioctl : Ioctl) (extents : List FiemapExtent) : Prop :=
  ∀ p : Fiemap, p.length = fiemapMaxOffset → p.sync = true →
    ioctl p = some ((extents.filter fun e => p.start < e.stop).take p.extentCount)

/-- The fragment says where the extent lies, in bytes and in blocks. -/
structure Locates (lbaSize : ℕ) (e : FiemapExtent) (f : Frag) : Prop where
  /-- The size. -/
  length : f.length = e.length
  /-- The place in the file. -/
  logical : f.logicOffset = e.logical
  /-- The place on the disk. -/
  physical : f.physicalOffset = e.physical
  /-- The first block. -/
  start : f.startLba * lbaSize = e.physical
  /-- The number of blocks. -/
  blocks : f.lbaCount * lbaSize = e.length

variable {ioctl : Ioctl} {lbaSize : ℕ}

theorem locates_fragOf {e : FiemapExtent} (h : lbaSize ∣ e.physical ∧ lbaSize ∣ e.length) :
    Locates lbaSize e (fragOf lbaSize e) where
  length := rfl
  logical := rfl
  physical := rfl
  start := Nat.div_mul_cancel h.1
  blocks := Nat.div_mul_cancel h.2

theorem File.locates (file : File lbaSize) :
    List.Forall₂ (Locates lbaSize) file.extents (file.extents.map (fragOf lbaSize)) := by
  rw [List.forall₂_map_right_iff, List.forall₂_same]
  intro e he
  exact locates_fragOf (file.aligned e he)

/-- The extents are sorted by where they end. -/
theorem File.sorted (file : File lbaSize) : SortedBy FiemapExtent.stop file.extents := by
  refine file.ordered.imp_of_mem ?_
  intro e f _ hf h
  have hpos := file.nonempty f hf
  show e.stop < f.logical + f.length
  omega

/-- **One batch**: a fragment for each of its extents, and whether one of them is marked. -/
theorem readExtents_eq (exts : List FiemapExtent) (frags : List Frag) (eof : Bool) :
    readExtents lbaSize exts frags eof = (frags ++ exts.map (fragOf lbaSize), eof || exts.any FiemapExtent.last) := by
  induction exts generalizing frags eof with
  | nil => simp [readExtents]
  | cons e exts ih =>
    have hmarked : (if e.last then true else eof) = (eof || e.last) := by
      cases e.last <;> simp
    show readExtents lbaSize exts _ _ = _
    rw [ih, hmarked, List.map_cons, List.any_cons, Bool.or_assoc, List.append_assoc, List.singleton_append]

/-- What the ioctl gives when the extents before the start are read. -/
theorem Maps.behind {done rest : List FiemapExtent} (h : Maps ioctl (done ++ rest)) {start : ℕ}
    (hdone : ∀ e ∈ done, e.stop ≤ start) (hrest : ∀ e ∈ rest, start < e.stop) (count : ℕ) :
    ioctl ⟨start, fiemapMaxOffset, true, count⟩ = some (rest.take count) := by
  rw [h _ rfl rfl, filter_behind hdone hrest]

/-- Behind a marked extent there is none. -/
theorem File.eq_nil_of_marked (file : File lbaSize) {done rest : List FiemapExtent} (heq : file.extents = done ++ rest)
    (h : done.any FiemapExtent.last = true) : rest = [] := by
  by_contra hne
  obtain ⟨e, he, hlast⟩ := List.any_eq_true.mp h
  have hmem : e ∈ file.extents.dropLast := by
    rw [heq, List.dropLast_append_of_ne_nil hne]
    exact List.mem_append_left _ he
  rw [file.marked e hmem] at hlast
  cases hlast

/-- **The loop**, when the extents `done` are read and `rest` are left: every call reads at least one more. -/
theorem fragmentsLoop_eq (file : File lbaSize) (hmaps : Maps ioctl file.extents) {count : ℕ} (hcount : 1 ≤ count)
    {fuel start : ℕ} {done rest : List FiemapExtent} (heq : file.extents = done ++ rest)
    (hdone : ∀ e ∈ done, e.stop ≤ start) (hrest : ∀ e ∈ rest, start < e.stop) (hfuel : rest.length < fuel) :
    fragmentsLoop ioctl count lbaSize fuel start (done.map (fragOf lbaSize)) =
      some (.ok (file.extents.map (fragOf lbaSize))) := by
  induction fuel generalizing start done rest with
  | zero => omega
  | succ fuel ih =>
    have hcall : ioctl ⟨start, fiemapMaxOffset, true, count⟩ = some (rest.take count) :=
      Maps.behind (heq ▸ hmaps) hdone hrest count
    rw [fragmentsLoop, hcall]
    cases hback : (rest.take count).getLast? with
    | none =>
      have hnil : rest = [] := by
        rcases List.take_eq_nil_iff.mp (List.getLast?_eq_none_iff.mp hback) with hzero | hnil
        · omega
        · exact hnil
      simp only [hback]
      rw [heq, hnil, List.append_nil]
    | some back =>
      have hread : file.extents = (done ++ rest.take count) ++ rest.drop count := by
        rw [List.append_assoc, List.take_append_drop, heq]
      simp only [hback, readExtents_eq, Bool.false_or, ← List.map_append]
      split_ifs with heof
      · have hnil : rest.drop count = [] := by
          refine file.eq_nil_of_marked hread ?_
          rw [List.any_append, heof, Bool.or_true]
        rw [hread, hnil, List.append_nil]
      · have hsorted := file.sorted
        rw [hread] at hsorted
        have hmem : back ∈ done ++ rest.take count := List.mem_append_right _ (List.mem_of_getLast? hback)
        have hlast : (done ++ rest.take count).getLast? = some back := by
          rw [List.getLast?_append, hback, Option.some_or]
        have hstart : (back.logical + back.length) % 2 ^ 64 = back.stop :=
          Nat.mod_eq_of_lt (file.bounded back (hread ▸ List.mem_append_left _ hmem))
        rw [hstart]
        refine ih hread ?_ ?_ ?_
        · intro e he
          exact SortedBy.le_getLast (List.pairwise_append.mp hsorted).1 hlast he
        · intro e he
          exact (List.pairwise_append.mp hsorted).2.2 back hmem e he
        · have hpos := List.length_pos_of_mem (List.mem_of_getLast? hback)
          rw [List.length_take] at hpos
          rw [List.length_drop]
          omega

/-- The whole loop. -/
theorem fragmentsLoop_start (file : File lbaSize) (hmaps : Maps ioctl file.extents) {count : ℕ} (hcount : 1 ≤ count)
    {fuel : ℕ} (hfuel : file.extents.length < fuel) :
    fragmentsLoop ioctl count lbaSize fuel 0 [] = some (.ok (file.extents.map (fragOf lbaSize))) := by
  refine fragmentsLoop_eq file hmaps hcount (List.nil_append file.extents).symm ?_ ?_ hfuel
  · intro e he
    cases he
  · intro e he
    have hpos := file.nonempty e he
    show 0 < e.logical + e.length
    omega

/-- **Every file is enumerated**: with every capacity the loop ends, and it has a fragment for every extent, once and in
the order of the file. -/
theorem file_fragments_complete (file : File lbaSize) (hmaps : Maps ioctl file.extents) {count : ℕ} (hcount : 1 ≤ count) :
    ∃ frags, List.Forall₂ (Locates lbaSize) file.extents frags ∧
      ∀ fuel, file.extents.length < fuel → fragmentsLoop ioctl count lbaSize fuel 0 [] = some (.ok frags) :=
  ⟨_, file.locates, fun _ hfuel => fragmentsLoop_start file hmaps hcount hfuel⟩

/-- Three extents, with a hole behind the first, and none of them marked. -/
def sampleFile : File 512 where
  extents := [⟨0, 8192, 4096, false⟩, ⟨8192, 1048576, 1024, false⟩, ⟨9216, 512, 512, false⟩]
  nonempty := by decide
  ordered := by decide
  aligned := by decide
  bounded := by decide
  marked := by decide

/-- The ioctl on that file. -/
def sampleIoctl : Ioctl := fun p => some ((sampleFile.extents.filter fun e => p.start < e.stop).take p.extentCount)

/-- Two extents at a time. -/
theorem file_fragments_complete_sample :
    ∃ frags, List.Forall₂ (Locates 512) sampleFile.extents frags ∧
      ∀ fuel, 3 < fuel → fragmentsLoop sampleIoctl 2 512 fuel 0 [] = some (.ok frags) :=
  file_fragments_complete sampleFile (fun _ _ _ => rfl) (by decide)

/-- `get_file_fragments`, with the capacity of its buffer. -/
theorem getFileFragments_eq (file : File lbaSize) (hmaps : Maps ioctl file.extents) {fuel : ℕ}
    (hfuel : file.extents.length < fuel) :
    getFileFragments ioctl lbaSize fuel = some (.ok (file.extents.map (fragOf lbaSize))) :=
  fragmentsLoop_start file hmaps (by decide) hfuel

end DShuffle.Spill.Fragments
