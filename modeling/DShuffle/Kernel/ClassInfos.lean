import DShuffle.Kernel.Mem
import DShuffle.Serde.ArenaWalk

/-!
# The registry on the device

Before a task is sent to the DPA, `export_class_infos` has the device copy the arena of
the class resolver, and two tables of offsets into it: one in the order of the ids, one
in that of the klasses. `register_class_infos` (`sd.c`) puts the three behind each
other into one buffer, turns the offsets into pointers in place, and looks classes up
by bisection from then on.

## The model

The device's memory is one `Mem`, in which host memory is seen through windows
(`doca_dpa_dev_mmap_get_external_ptr`); the windows' addresses are parameters, and what
DOCA says of them is `Windows`. The RPC's stores are the stores of `d_memcpy` and of the
loop that relocates. Loops run on fuel.

## What is proved

* `image_fits_iff` — the buffer has as many bytes as `max_class_info_size` says, and the
  image takes 16 bytes more than its block for each class: when it fits.
* `image_overruns` — one class whose block fills the arena is one too many.
-/

namespace DShuffle.Kernel

open Base Serde Serde.Arena

/-! ### Exporting -/

/-- The offsets of the class infos in the arena: differences of pointers, as `uint64_t`. -/
def offsets (base : ℕ) (bs : List ℕ) : List ℕ := bs.map fun b => (b + 2 ^ 64 - base) % 2 ^ 64

/-- A table of `uint64_t`. -/
def tableBytes (ws : List ℕ) : Bytes := ws.flatMap (le 8)

/-- What `export_class_infos` lets the device see of the host's memory. -/
structure Export where
  /-- The part of the arena that was given out, `a.allocated()` bytes. -/
  infos : Bytes
  /-- The offsets by id. -/
  byIdOffsets : Bytes
  /-- The offsets by klass. -/
  byKlassOffsets : Bytes
  /-- `info_by_id.size()`. -/
  nClassInfos : ℕ

/-- `export_class_infos`. -/
def exportClassInfos (r : Resolver) : Export where
  infos := read r.mem r.base r.pos
  byIdOffsets := tableBytes (offsets r.base r.infoById)
  byKlassOffsets := tableBytes (offsets r.base r.infoByKlass)
  nClassInfos := r.infoById.length

/-- The bytes that `alloc_dpa_mem` allocates for a buffer of `size` bytes: its parameter is a `uint32_t`. -/
def dpaBufferSize (size : ℕ) : ℕ := u32 size

/-- `lim` of the arena: `OwnedBuffer` rounds up. -/
def arenaSize (maxClassInfoSize : ℕ) : ℕ := upperAlign maxClassInfoSize 64

/-! ### `register_class_infos` -/

/-- `meta_idx_t`. -/
structure MetaIdx where
  /-- `class_infos_by_id`. -/
  classInfosById : ℕ
  /-- `class_infos_by_id_len`. -/
  classInfosByIdLen : ℕ
  /-- `class_infos_by_klass`. -/
  classInfosByKlass : ℕ
  /-- `class_infos_by_klass_len`. -/
  classInfosByKlassLen : ℕ
  /-- `class_infos_base`. -/
  classInfosBase : ℕ
  /-- `class_infos_lim`. -/
  classInfosLim : ℕ
  deriving DecidableEq, Repr

/-- `meta_idx`, for `len` bytes of `n` class infos in the buffer at `dev`. -/
def metaIdx (dev len n : ℕ) : MetaIdx where
  classInfosById := dev + len
  classInfosByIdLen := n
  classInfosByKlass := dev + len + n * 8 % 2 ^ 64
  classInfosByKlassLen := n
  classInfosBase := dev
  classInfosLim := len

/-- `*p += dev`. -/
def relocateEntry (dev p : ℕ) (m : Mem) : Mem := write m p (le 8 (ofLe (read m p 8) + dev))

/-- The loop that relocates, from the entry `i` on. -/
def relocateLoop (dev : ℕ) (g : MetaIdx) (n : ℕ) : (fuel i : ℕ) → Mem → Option Mem
  | 0, _, _ => none
  | fuel + 1, i, m =>
    if i < n then
      relocateLoop dev g n fuel (u32 (i + 1))
        (relocateEntry dev (g.classInfosByKlass + 8 * i) (relocateEntry dev (g.classInfosById + 8 * i) m))
    else some m

/-- `register_class_infos`; host memory is seen at `infosPtr`, `byIdPtr` and `byKlassPtr`. -/
def registerClassInfos (fuel : ℕ) (m : Mem) (dev infosPtr len n byIdPtr byKlassPtr : ℕ) : Option (MetaIdx × Mem) := do
  let offsetsLength := n * 8 % 2 ^ 64
  let g := metaIdx dev len n
  let m := dMemcpy m g.classInfosBase infosPtr len
  let m := dMemcpy m g.classInfosById byIdPtr offsetsLength
  let m := dMemcpy m g.classInfosByKlass byKlassPtr offsetsLength
  let m ← relocateLoop dev g n fuel 0 m
  return (g, m)

/-! ### `get_class_info_by_klass` -/

/-- The entry `i` of a table of pointers. -/
def wordAt (m : Mem) (p i : ℕ) : ℕ := ofLe (read m (p + 8 * i) 8)

/-- `info->klass`. -/
def klassAt (m : Mem) (info : ℕ) : ℕ := ofLe (read m info 8)

/-- The loop of `get_class_info_by_klass`; behind it the null pointer is returned. -/
def searchLoop (m : Mem) (g : MetaIdx) (klass : ℕ) : (fuel l r : ℕ) → Option ℕ
  | 0, _, _ => none
  | fuel + 1, l, r =>
    if l < r then
      let mid := (r - l) / 2 + l
      let info := wordAt m g.classInfosByKlass mid
      if klassAt m info = klass then some info
      else if klassAt m info < klass then searchLoop m g klass fuel (u32 (mid + 1)) r
      else searchLoop m g klass fuel l mid
    else some 0

/-- `get_class_info_by_klass`. -/
def getClassInfoByKlass (fuel : ℕ) (m : Mem) (g : MetaIdx) (klass : ℕ) : Option ℕ :=
  searchLoop m g klass fuel 0 (u32 g.classInfosByKlassLen)

/-! ### The size of the image -/

/-- The device's copy of the arena and both tables are in the `size` bytes at `dev`. -/
structure MetaIdx.Inside (g : MetaIdx) (dev size : ℕ) : Prop where
  /-- The class infos. -/
  infos : dev ≤ g.classInfosBase ∧ g.classInfosBase + g.classInfosLim ≤ dev + size
  /-- The table by id. -/
  byId : dev ≤ g.classInfosById ∧ g.classInfosById + 8 * g.classInfosByIdLen ≤ dev + size
  /-- The table by klass. -/
  byKlass : dev ≤ g.classInfosByKlass ∧ g.classInfosByKlass + 8 * g.classInfosByKlassLen ≤ dev + size

/-- **The image of a registry fits** the buffer that was allocated for it. -/
def ImageFits (dev maxClassInfoSize : ℕ) (r : Resolver) : Prop :=
  (metaIdx dev (exportClassInfos r).infos.length (exportClassInfos r).nClassInfos).Inside dev (dpaBufferSize maxClassInfoSize)

theorem imageFits_eq (dev maxClassInfoSize : ℕ) (r : Resolver) : ImageFits dev maxClassInfoSize r =
    (metaIdx dev r.pos r.infoById.length).Inside dev (dpaBufferSize maxClassInfoSize) := by
  unfold ImageFits exportClassInfos
  rw [length_read]

theorem inside_metaIdx_iff {dev len n size : ℕ} (hn : n * 8 < 2 ^ 64) :
    (metaIdx dev len n).Inside dev size ↔ len + 16 * n ≤ size := by
  have hmod : n * 8 % 2 ^ 64 = n * 8 := Nat.mod_eq_of_lt hn
  constructor
  · intro h
    obtain ⟨-, hend⟩ := h.byKlass
    unfold metaIdx at hend
    dsimp only at hend
    rw [hmod] at hend
    omega
  · intro h
    constructor <;> unfold metaIdx <;> dsimp only
    · exact ⟨le_rfl, by omega⟩
    · exact ⟨by omega, by omega⟩
    · rw [hmod]
      exact ⟨by omega, by omega⟩

section
variable {args : JVMArgs} {fuel : ℕ} {mem : Mem} {base lim : ℕ} {ks : List FakeKlass} {r : Resolver}

/-- The bytes of the image: each class has its block, and an entry in each table. -/
theorem image_size {good : Prop} (h : Rest good r) :
    r.pos + 16 * r.infoById.length = (r.blocks.map fun bl => (layoutOf bl.klass).size + 16).sum := by
  have hsizes : r.blocks.map Block.size = r.blocks.map fun bl => (layoutOf bl.klass).size :=
    List.map_congr_left h.inv.size
  rw [h.inv.pos, hsizes, h.length_eq]
  generalize r.blocks = bs
  induction bs with
  | nil => rfl
  | cons bl bs ih =>
    rw [List.map_cons, List.map_cons, List.sum_cons, List.sum_cons, List.length_cons, ← ih]
    omega

/-- **When the image fits.** After any calls of `register_class` that leave the class infos in the arena, the image is in
the device's buffer exactly if the registered classes' blocks, with 16 bytes more for each, have no more bytes than that. -/
theorem image_fits_iff {maxClassInfoSize : ℕ} (dev : ℕ) (hmax : maxClassInfoSize < 2 ^ 64) (hks : ∀ k ∈ ks, Genuine k)
    (hrun : run (Resolver.step args fuel) (Resolver.new mem base (arenaSize maxClassInfoSize)) ks = some r)
    (harena : r.pos ≤ arenaSize maxClassInfoSize) :
    ImageFits dev maxClassInfoSize r ↔
      (r.blocks.map fun bl => (layoutOf bl.klass).size + 16).sum ≤ dpaBufferSize maxClassInfoSize := by
  obtain ⟨hr, -, -⟩ := rest_of_run hks hrun
  have hfew := hr.few
  have hn : r.infoById.length * 8 < 2 ^ 64 := by
    unfold arenaSize upperAlign at harena
    omega
  rw [imageFits_eq, inside_metaIdx_iff hn, image_size hr]

end

/-- An array class of a primitive type, whose block has 128 bytes. -/
def intArray : FakeKlass := .array (.typeArray 4096 16 .int)

theorem genuine_intArray : Genuine intArray := by
  refine ⟨by decide, by decide, by decide, fun e he => ?_⟩
  cases List.mem_singleton.mp he

theorem intArray_registered : ∃ r, run (Resolver.step plainArgs 100) (Resolver.new (fun _ => 0) 0 (arenaSize 128)) [intArray] =
    some r ∧ r.pos = 128 ∧ r.blocks = [⟨0, 128, intArray⟩] ∧ r.infoById = [0] := by
  have hcall : ((Resolver.new (fun _ => 0) 0 (arenaSize 128)).step plainArgs 100 intArray).map
      (fun r => (r.pos, r.blocks, r.infoById)) = some (128, [⟨0, 128, intArray⟩], [0]) := by
    decide +kernel
  obtain ⟨r, hr, hshape⟩ := Option.map_eq_some_iff.mp hcall
  rw [Prod.mk.injEq, Prod.mk.injEq] at hshape
  refine ⟨r, ?_, hshape⟩
  rw [run, hr]
  rfl

/-- Another one, with a smaller klass. -/
def longArray : FakeKlass := .array (.typeArray 2048 16 .long)

theorem genuine_arrays : ∀ k ∈ [intArray, longArray], Genuine k := by
  intro k hk
  rcases List.mem_cons.mp hk with rfl | hk
  · exact genuine_intArray
  · rw [List.mem_singleton.mp hk]
    refine ⟨by decide, by decide, by decide, fun e he => ?_⟩
    cases List.mem_singleton.mp he

/-- The class that is registered second comes first in the table by klass. -/
theorem arrays_registered :
    ∃ r, run (Resolver.step plainArgs 100) (Resolver.new (fun _ => 0) 0 (arenaSize 320)) [intArray, longArray] = some r ∧
      r.pos = 256 ∧ r.blocks = [⟨0, 128, intArray⟩, ⟨128, 128, longArray⟩] ∧ r.base = 0 ∧ r.infoById = [0, 128] ∧
        r.infoByKlass = [128, 0] ∧ r.getByKlass 2048 = some 128 ∧ r.getByKlass 4096 = some 0 ∧ r.getByKlass 3000 = none := by
  have hrun : (run (Resolver.step plainArgs 100) (Resolver.new (fun _ => 0) 0 (arenaSize 320)) [intArray, longArray]).map
      (fun r => ((r.pos, r.blocks, r.base), (r.infoById, r.infoByKlass), [2048, 4096, 3000].map r.getByKlass)) =
        some ((256, [⟨0, 128, intArray⟩, ⟨128, 128, longArray⟩], 0), ([0, 128], [128, 0]), [some 128, some 0, none]) := by
    decide +kernel
  obtain ⟨r, hr, hshape⟩ := Option.map_eq_some_iff.mp hrun
  simp only [Prod.mk.injEq, List.map_cons, List.cons.injEq] at hshape
  obtain ⟨⟨hpos, hblocks, hbase⟩, ⟨hids, hklasses⟩, hlong, hint, hnone, -⟩ := hshape
  exact ⟨r, hr, hpos, hblocks, hbase, hids, hklasses, hlong, hint, hnone⟩

/-- An instance: the image of two classes is in a buffer of 320 bytes. -/
theorem image_fits_sample :
    ∃ r, run (Resolver.step plainArgs 100) (Resolver.new (fun _ => 0) 0 (arenaSize 320)) [intArray, longArray] = some r ∧
      ImageFits 4096 320 r := by
  obtain ⟨r, hrun, hpos, hblocks, -⟩ := arrays_registered
  refine ⟨r, hrun, (image_fits_iff 4096 (by decide) genuine_arrays hrun (by rw [hpos]; decide)).mpr ?_⟩
  rw [hblocks]
  decide

/-- **An image that does not fit**: the class info is in the arena of 128 bytes, and both tables are behind the buffer of
as many bytes. -/
theorem image_overruns : ∃ r, run (Resolver.step plainArgs 100) (Resolver.new (fun _ => 0) 0 (arenaSize 128)) [intArray] =
    some r ∧ r.pos ≤ arenaSize 128 ∧ ¬ ImageFits 4096 128 r := by
  obtain ⟨r, hrun, hpos, -, hids⟩ := intArray_registered
  refine ⟨r, hrun, by rw [hpos]; decide, fun hfits => ?_⟩
  rw [imageFits_eq, hpos, hids, inside_metaIdx_iff (by decide)] at hfits
  exact absurd hfits (by decide)

end DShuffle.Kernel
