import DShuffle.Base.Joined
import DShuffle.Spill.Files

/-!
# The chunks of the JVM partitioner

`jvm_partition` (`naive_offload_server.cxx`) has `Partitioner.doPartition` split a buffer of Java objects. For
every partition there is an `ObjectOutputStream`, which is reset behind every fifty pairs. The first four bytes
of each result, the stream header, are cut off and a `PartitionDataHeader` is put in front. The spill worker cuts
that off and appends the rest to the file of the partition, which it started with a stream header.

## The model

* A Java stream is the four bytes of its header and then its terminals, as `doc/java_ossp.md` has them
  (`Base.Handles`). The class descriptor of an object stands in front of the object's number, everything else
  behind it; for a class descriptor everything stands behind its number.
* The objects that `objIn` returns for an input buffer, before it throws, are given; so are the heap of the JVM
  and `hashCode`.
* `StackOverflowError` and `NullPointerException` end the thread of `doPartition`; then there are no results.

## What is proved

* `doPartition_eq` — what a partition's stream holds: the pairs whose keys hash to it, in order, with a reset
  behind every fifty.
* `reads_back_iff` — the file of a partition is read as the records of its chunks exactly if, in each chunk, what
  comes up again before the first reset is the same as what has its number in the file.
* `not_reads_back_integers` — two strings in one chunk, and two integers in the next: the class of the second
  integer is looked for at the place of a string.

## Honest scope

A class with a `writeObject` of its own is taken to write the things behind the number of its objects in some
order and to read them back in that order. A reader that takes a wrong class descriptor goes on with as many
things as were written.
-/

namespace DShuffle.Shuffle.JavaStream

open Base Base.Handles

variable {T : Type}

/-! ### Java objects -/

/-- The data of a terminal. -/
inductive Label where
  /-- `TC_STRING`, with its characters. -/
  | string (utf : Bytes)
  /-- `TC_CLASSDESC`, with the typecode and the name of each field. -/
  | classDesc (className : Bytes) (serialVersionUID : Bytes) (flags : UInt8) (fields : List (UInt8 × Bytes))
  /-- `TC_OBJECT`, with its primitive data. -/
  | object (prims : Bytes)
  /-- `TC_ARRAY`, with its primitive elements. -/
  | array (prims : Bytes)
  /-- `TC_ENUM`. -/
  | enum
  /-- `TC_CLASS`. -/
  | clazz
  deriving DecidableEq

/-- A class descriptor. -/
def isClassDesc : Option Label → Bool
  | some (.classDesc ..) => true
  | _ => false

/-- A string. -/
def isString : Option Label → Bool
  | some (.string _) => true
  | _ => false

/-- The kinds of the things a terminal has: what the casts of the reader look at. -/
def fits (n : Shape Label Label) : Bool :=
  match n.label with
  | .string _ => n.pre == [] && n.post == []
  -- `className1` of each field that is an object, and then the class descriptor of the superclass
  | .classDesc .. => n.pre == [] && n.post.dropLast.all isString &&
      n.post.getLast?.any fun super => super.isNone || isClassDesc super
  | .object _ | .array _ => n.pre.length == 1 && n.pre.all isClassDesc
  | .enum => n.pre.length == 1 && n.pre.all isClassDesc && n.post.length == 1 && n.post.all isString
  | .clazz => n.pre.length == 1 && n.pre.all isClassDesc && n.post == []

/-- The bytes of a terminal, with the primitive data that belongs to it. -/
def byteLength : Tok Label → ℕ
  | .null | .reset => 1
  | .ref _ => 5
  | .new (.string utf) _ _ => if utf.length ≤ 65535 then 3 + utf.length else 9 + utf.length
  | .new (.classDesc className serialVersionUID _ fields) _ _ =>
    3 + className.length + serialVersionUID.length + 3 + (fields.map fun f => 3 + f.2.length).sum + 1
  | .new (.object prims) _ _ => 1 + prims.length
  | .new (.array prims) _ _ => 5 + prims.length
  | .new .enum _ _ | .new .clazz _ _ => 1

/-- What the JVM holds. -/
structure Jvm (T : Type) where
  /-- The objects, strings and class descriptors. -/
  heap : T → Shape Label T
  /-- `Object.hashCode`. -/
  hashCode : T → ℤ
  /-- A thing has things of the right kinds. -/
  fits : ∀ t, fits (kindsOf heap t) = true

/-! ### `Partitioner.doPartition` -/

/-- A byte of the stream header or of a `PartitionDataHeader`, or a terminal. -/
inductive Item where
  /-- A byte. -/
  | byte (b : UInt8)
  /-- A terminal. -/
  | tok (t : Tok Label)
  deriving DecidableEq

/-- `STREAM_MAGIC` and `STREAM_VERSION`. -/
def streamHeader : List Item := [.byte 0xac, .byte 0xed, .byte 0x00, .byte 0x05]

/-- One of the partitions' streams. -/
structure Oss (T : Type) where
  /-- The bytes in `bss`. -/
  out : List Item
  /-- The things that have numbers. -/
  known : List T
  /-- `counter`. -/
  counter : ℕ

variable [DecidableEq T] (jvm : Jvm T) (depth : ℕ)

/-- `new ObjectOutputStream`. -/
def newOss : Oss T := ⟨streamHeader, [], 0⟩

/-- `ObjectOutputStream.writeObject`. -/
def writeObject (oss : Oss T) (x : Option T) : Option (Oss T) := do
  let (ts, known) ← write jvm.heap depth oss.known x
  return { oss with out := oss.out ++ ts.map .tok, known := known }

/-- `ObjectOutputStream.reset`. -/
def reset (oss : Oss T) : Oss T := { oss with out := oss.out ++ [.tok .reset], known := [] }

/-- Writes a key and a value, and resets the stream if it is time. -/
def writePair (oss : Oss T) (k : T) (v : Option T) : Option (Oss T) := do
  let oss ← writeObject jvm depth oss (some k)
  let oss ← writeObject jvm depth oss v
  let oss := { oss with counter := oss.counter + 2 }
  return if oss.counter ≥ 100 then { reset oss with counter := 0 } else oss

/-- The partition of a key. -/
def pidOf (n : ℕ) (k : T) : ℤ :=
  let pid := (jvm.hashCode k).tmod n
  if pid < 0 then pid + n else pid

/-- The loop of `doPartition`, over what `objIn` returns. -/
def partitionLoop (n : ℕ) : List (Oss T) → List (Option T) → Option (List (Oss T))
  | osss, k :: v :: rest => do
    let k ← k
    let oss ← osss[(pidOf jvm n k).toNat]?
    let oss ← writePair jvm depth oss k v
    partitionLoop n (osss.set (pidOf jvm n k).toNat oss) rest
  | osss, _ => some osss

/-- `Partitioner.doPartition`. -/
def doPartition (n : ℕ) (src : List (Option T)) : Option (List (List Item)) := do
  let osss ← partitionLoop jvm depth n (List.replicate n newOss) src
  return osss.map Oss.out

/-! ### `jvm_partition` and the file -/

/-- The number of bytes. -/
def byteSize (raw : List Item) : ℕ :=
  (raw.map fun
    | .byte _ => 1
    | .tok t => byteLength t).sum

/-- A partition's chunk: a `PartitionDataHeader` in place of the stream header. -/
def chunkOf (i : ℕ) (raw : List Item) : List Item :=
  (le 8 i ++ le 8 (byteSize raw + Spill.headerSize - 4)).map .byte ++ raw.drop 4

/-- `jvm_partition`. -/
def jvmPartition (np : ℕ) (data : List (Option T)) : Option (List (List Item)) := do
  let outputs ← doPartition jvm depth np data
  return outputs.mapIdx chunkOf

/-- What `submit_direct_spill` writes of a chunk. -/
def payload (chunk : List Item) : List Item := chunk.drop Spill.headerSize

/-- The file of partition `p`, behind `create_partition_files(true)` and the chunks of the input buffers. -/
def partitionFile (np p : ℕ) (inputs : List (List (Option T))) : Option (List Item) := do
  let results ← inputs.mapM (jvmPartition jvm depth np)
  let chunks ← results.mapM fun result => result[p]?
  return (Spill.initialHeader .host true).map .byte ++ (chunks.map payload).flatten

/-! ### Reading the file -/

/-- A terminal. -/
def Item.tok? : Item → Option (Tok Label)
  | .byte _ => none
  | .tok t => some t

/-- `new ObjectInputStream`: what follows the header. -/
def openStream (file : List Item) : Option (List (Tok Label)) :=
  if file.take 4 = streamHeader then (file.drop 4).mapM Item.tok? else none

/-- An `ObjectInputStream` returns these objects, up to the end of the file. -/
def ReadsBack (file : List Item) (records : List (Option T)) : Prop :=
  ∃ ts, openStream file = some ts ∧ ReadAs JavaStream.fits depth jvm.heap ts records

/-- The pairs that `objIn` returns. -/
def pairs : List (Option T) → List (T × Option T)
  | some k :: v :: rest => (k, v) :: pairs rest
  | _ => []

/-- The pairs of an input buffer that belong to a partition. -/
def pairsOf (n p : ℕ) (src : List (Option T)) : List (T × Option T) :=
  (pairs src).filter fun kv => (pidOf jvm n kv.1).toNat = p

/-- The objects of the pairs. -/
def recordsOf (n p : ℕ) (src : List (Option T)) : List (Option T) :=
  (pairsOf jvm n p src).flatMap fun kv => [some kv.1, kv.2]

/-- What a stream is told to do for the pairs, when its counter stands there. -/
def opsOf : ℕ → List (T × Option T) → List (Op T)
  | _, [] => []
  | counter, (k, v) :: kvs =>
    .object (some k) :: .object v ::
      if counter + 2 ≥ 100 then .reset :: opsOf 0 kvs else opsOf (counter + 2) kvs

/-- What comes up again in a chunk, before the first reset of the chunk, is the same as what has its number in the
file of partition `p`, counted from the last reset in front of the chunk. -/
def NumbersStand (np p : ℕ) (inputs : List (List (Option T))) : Prop :=
  StandsAll jvm.heap depth [] (inputs.map fun src => opsOf 0 (pairsOf jvm np p src))

/-! ### What the streams hold -/

variable {jvm depth}

theorem writeObject_eq_some {oss oss' : Oss T} {x : Option T} (h : writeObject jvm depth oss x = some oss') :
    ∃ ts, write jvm.heap depth oss.known x = some (ts, oss'.known) ∧ oss'.out = oss.out ++ ts.map .tok ∧
      oss'.counter = oss.counter := by
  simp only [writeObject, Option.bind_eq_bind, Option.bind_eq_some_iff, Option.pure_def, Option.some.injEq,
    Prod.exists] at h
  obtain ⟨ts, known, hw, rfl⟩ := h
  exact ⟨ts, hw, rfl, rfl⟩

/-- A pair makes the stream do what `opsOf` says, and leaves the rest to what it makes of the stream. -/
theorem writePair_eq_some {oss oss' : Oss T} {k : T} {v : Option T} (h : writePair jvm depth oss k v = some oss')
    (kvs : List (T × Option T)) :
    ∃ ts, oss'.out = oss.out ++ ts.map .tok ∧ ∀ us known,
      writeOps jvm.heap depth oss'.known (opsOf oss'.counter kvs) = some (us, known) →
      writeOps jvm.heap depth oss.known (opsOf oss.counter ((k, v) :: kvs)) = some (ts ++ us, known) := by
  simp only [writePair, Option.bind_eq_bind, Option.bind_eq_some_iff, Option.pure_def, Option.some.injEq] at h
  obtain ⟨oss₁, h₁, oss₂, h₂, rfl⟩ := h
  obtain ⟨ts₁, hw₁, hout₁, hc₁⟩ := writeObject_eq_some h₁
  obtain ⟨ts₂, hw₂, hout₂, hc₂⟩ := writeObject_eq_some h₂
  have hc : oss₂.counter = oss.counter := by rw [hc₂, hc₁]
  by_cases hge : oss.counter + 2 ≥ 100
  · rw [if_pos (by simpa [hc] using hge)]
    refine ⟨ts₁ ++ ts₂ ++ [.reset], ?_, ?_⟩
    · simp [reset, hout₂, hout₁]
    · intro us known hus
      simp only [reset] at hus
      simp [opsOf, hge, writeOps, hw₁, hw₂, hus]
  · rw [if_neg (by simpa [hc] using hge)]
    refine ⟨ts₁ ++ ts₂, ?_, ?_⟩
    · simp [hout₂, hout₁]
    · intro us known hus
      simp only [hc] at hus
      simp [opsOf, hge, writeOps, hw₁, hw₂, hus]

/-- Every stream gets the pairs of its partition. -/
theorem partitionLoop_eq_some {n p : ℕ} {src : List (Option T)} {osss osss' : List (Oss T)} {oss : Oss T}
    (h : partitionLoop jvm depth n osss src = some osss') (hoss : osss[p]? = some oss) :
    ∃ oss' ts, osss'[p]? = some oss' ∧ oss'.out = oss.out ++ ts.map .tok ∧
      writeOps jvm.heap depth oss.known (opsOf oss.counter (pairsOf jvm n p src)) = some (ts, oss'.known) := by
  induction src using pairs.induct generalizing osss oss with
  | case1 k v rest ih =>
    simp only [partitionLoop, Option.bind_eq_bind, Option.bind_some, Option.bind_eq_some_iff] at h
    obtain ⟨oss₁, hoss₁, oss₂, hpair, hrest⟩ := h
    have hlt := (List.getElem?_eq_some_iff.mp hoss₁).1
    by_cases hp : (pidOf jvm n k).toNat = p
    · subst hp
      rw [hoss₁] at hoss
      cases hoss
      obtain ⟨oss', us, hget, hout, hops⟩ := ih hrest (List.getElem?_set_self hlt)
      obtain ⟨ts, hout', hpair'⟩ := writePair_eq_some hpair (pairsOf jvm n (pidOf jvm n k).toNat rest)
      refine ⟨oss', ts ++ us, hget, ?_, ?_⟩
      · rw [hout, hout', List.map_append, List.append_assoc]
      · have hpairs : pairsOf jvm n (pidOf jvm n k).toNat (some k :: v :: rest) =
            (k, v) :: pairsOf jvm n (pidOf jvm n k).toNat rest := by
          simp [pairsOf, pairs]
        rw [hpairs]
        exact hpair' us _ hops
    · have hpairs : pairsOf jvm n p (some k :: v :: rest) = pairsOf jvm n p rest := by
        simp [pairsOf, pairs, hp]
      rw [hpairs]
      exact ih hrest (by rw [List.getElem?_set_ne hp]; exact hoss)
  | case2 src hsrc =>
    have hnil : pairsOf jvm n p src = [] := by
      rw [pairsOf, pairs]
      · rfl
      · exact hsrc
    rw [hnil]
    have hsame : osss' = osss := by
      rcases src with _ | ⟨k, _ | ⟨v, rest⟩⟩
      · cases h; rfl
      · cases h; rfl
      · cases k with
        | none => simp [partitionLoop] at h
        | some k => exact absurd rfl (hsrc k v rest)
    subst hsame
    exact ⟨oss, [], hoss, by simp, by simp [opsOf, writeOps]⟩

theorem length_of_partitionLoop {n : ℕ} {src : List (Option T)} {osss osss' : List (Oss T)}
    (h : partitionLoop jvm depth n osss src = some osss') : osss'.length = osss.length := by
  induction src using pairs.induct generalizing osss with
  | case1 k v rest ih =>
    simp only [partitionLoop, Option.bind_eq_bind, Option.bind_some, Option.bind_eq_some_iff] at h
    obtain ⟨oss₁, -, oss₂, -, hrest⟩ := h
    rw [ih hrest, List.length_set]
  | case2 src hsrc =>
    rcases src with _ | ⟨k, _ | ⟨v, rest⟩⟩
    · cases h; rfl
    · cases h; rfl
    · cases k with
      | none => simp [partitionLoop] at h
      | some k => exact absurd rfl (hsrc k v rest)

/-- **The stream of a partition holds the pairs whose keys hash to it, with a reset behind every fifty.** -/
theorem doPartition_eq {n p : ℕ} {src : List (Option T)} {outputs : List (List Item)} {raw : List Item}
    (h : doPartition jvm depth n src = some outputs) (hraw : outputs[p]? = some raw) :
    ∃ ts known, writeOps jvm.heap depth [] (opsOf 0 (pairsOf jvm n p src)) = some (ts, known) ∧
      raw = streamHeader ++ ts.map .tok := by
  simp only [doPartition, Option.bind_eq_bind, Option.bind_eq_some_iff, Option.pure_def, Option.some.injEq] at h
  obtain ⟨osss, hloop, rfl⟩ := h
  rw [List.getElem?_map, Option.map_eq_some_iff] at hraw
  obtain ⟨oss, hoss, rfl⟩ := hraw
  have hp : p < n := by
    have := (List.getElem?_eq_some_iff.mp hoss).1
    rwa [length_of_partitionLoop hloop, List.length_replicate] at this
  have hnew : (List.replicate n (newOss : Oss T))[p]? = some newOss := List.getElem?_replicate_of_lt hp
  obtain ⟨oss', ts, hoss', hout, hops⟩ := partitionLoop_eq_some hloop hnew
  rw [hoss] at hoss'
  cases hoss'
  exact ⟨ts, oss.known, hops, hout⟩

/-- What is appended to the file for a chunk is the stream without its header. -/
theorem payload_chunkOf (i : ℕ) (ts : List (Tok Label)) :
    payload (chunkOf i (streamHeader ++ ts.map .tok)) = ts.map .tok := by
  have hlen : ((le 8 i ++ le 8 (byteSize (streamHeader ++ ts.map .tok) + Spill.headerSize - 4)).map Item.byte).length =
      Spill.headerSize := by
    simp [Spill.headerSize]
  rw [payload, chunkOf, List.drop_left' hlen]
  rfl

theorem payload_of_jvmPartition {np p : ℕ} {src : List (Option T)} {result : List (List Item)} {chunk : List Item}
    (h : jvmPartition jvm depth np src = some result) (hchunk : result[p]? = some chunk) :
    ∃ ts known, writeOps jvm.heap depth [] (opsOf 0 (pairsOf jvm np p src)) = some (ts, known) ∧
      payload chunk = ts.map .tok := by
  simp only [jvmPartition, Option.bind_eq_bind, Option.bind_eq_some_iff, Option.pure_def, Option.some.injEq] at h
  obtain ⟨outputs, hout, rfl⟩ := h
  rw [List.getElem?_mapIdx, Option.map_eq_some_iff] at hchunk
  obtain ⟨raw, hraw, rfl⟩ := hchunk
  obtain ⟨ts, known, hops, rfl⟩ := doPartition_eq hout hraw
  exact ⟨ts, known, hops, payload_chunkOf p ts⟩

/-- The file holds the streams of the chunks, which were written apart. -/
theorem partitionFile_eq {np p : ℕ} {inputs : List (List (Option T))} {file : List Item}
    (h : partitionFile jvm depth np p inputs = some file) :
    ∃ tss, Written jvm.heap depth (inputs.map fun src => opsOf 0 (pairsOf jvm np p src)) tss ∧
      file = streamHeader ++ tss.flatten.map .tok := by
  simp only [partitionFile, Option.bind_eq_bind, Option.bind_eq_some_iff, Option.pure_def, Option.some.injEq] at h
  obtain ⟨results, hresults, chunks, hchunks, rfl⟩ := h
  suffices hw : ∃ tss, Written jvm.heap depth (inputs.map fun src => opsOf 0 (pairsOf jvm np p src)) tss ∧
      (chunks.map payload).flatten = tss.flatten.map .tok by
    obtain ⟨tss, hw, hflat⟩ := hw
    exact ⟨tss, hw, by rw [hflat]; rfl⟩
  induction inputs generalizing results chunks with
  | nil =>
    cases hresults
    cases hchunks
    exact ⟨[], .nil, rfl⟩
  | cons src inputs ih =>
    simp only [List.mapM_cons, Option.bind_eq_bind, Option.bind_eq_some_iff, Option.pure_def, Option.some.injEq] at hresults
    obtain ⟨result, hresult, results', hresults', rfl⟩ := hresults
    simp only [List.mapM_cons, Option.bind_eq_bind, Option.bind_eq_some_iff, Option.pure_def, Option.some.injEq] at hchunks
    obtain ⟨chunk, hchunk, chunks', hchunks', rfl⟩ := hchunks
    obtain ⟨ts, known, hops, hpay⟩ := payload_of_jvmPartition hresult hchunk
    obtain ⟨tss, hw, hflat⟩ := ih results' hresults' chunks' hchunks'
    refine ⟨ts :: tss, .cons ⟨known, hops⟩ hw, ?_⟩
    rw [List.map_cons, List.flatten_cons, List.flatten_cons, hpay, hflat, List.map_append]

theorem mapM_tok? (ts : List (Tok Label)) : (ts.map Item.tok).mapM Item.tok? = some ts := by
  induction ts with
  | nil => rfl
  | cons t ts ih => rw [List.map_cons, List.mapM_cons, ih]; rfl

theorem openStream_eq (ts : List (Tok Label)) : openStream (streamHeader ++ ts.map .tok) = some ts := by
  have htake : (streamHeader ++ ts.map Item.tok).take 4 = streamHeader := rfl
  have hdrop : (streamHeader ++ ts.map Item.tok).drop 4 = ts.map Item.tok := rfl
  rw [openStream, if_pos htake, hdrop, mapM_tok?]

omit [DecidableEq T] in
theorem objects_opsOf (counter : ℕ) (kvs : List (T × Option T)) :
    objects (opsOf counter kvs) = kvs.flatMap fun kv => [some kv.1, kv.2] := by
  induction kvs generalizing counter with
  | nil => rfl
  | cons kv kvs ih =>
    rw [opsOf, List.flatMap_cons]
    split
    · simp [objects, ih]
    · simp [objects, ih]

/-- **The file of a partition is read as the records of its chunks exactly if the numbers stand.** The reader has at
least as much stack as the writers. -/
theorem reads_back_iff (jvm : Jvm T) {depth readDepth : ℕ} (hdepth : depth ≤ readDepth) {np p : ℕ}
    {inputs : List (List (Option T))} {file : List Item} (hfile : partitionFile jvm depth np p inputs = some file) :
    ReadsBack jvm readDepth file (inputs.flatMap (recordsOf jvm np p)) ↔ NumbersStand jvm depth np p inputs := by
  obtain ⟨tss, hw, rfl⟩ := partitionFile_eq hfile
  have hiff := readAs_iff hdepth jvm.fits hw
  have hrecords : (inputs.map fun src => opsOf 0 (pairsOf jvm np p src)).flatMap objects =
      inputs.flatMap (recordsOf jvm np p) := by
    rw [List.flatMap_map]
    simp only [objects_opsOf]
    rfl
  rw [hrecords] at hiff
  rw [NumbersStand, ← hiff]
  constructor
  · rintro ⟨ts, hopen, hread⟩
    rw [openStream_eq] at hopen
    cases hopen
    exact hread
  · intro hread
    exact ⟨_, openStream_eq _, hread⟩

/-! ### Two integers behind two strings -/

/-- Some strings and integers with their class descriptors. -/
inductive Thing where
  /-- The string "a". -/
  | a
  /-- The string "x". -/
  | x
  /-- The string "b". -/
  | b
  /-- The string "c". -/
  | c
  /-- The integer 2. -/
  | two
  /-- The integer 3. -/
  | three
  /-- The class descriptor of `java.lang.Integer`. -/
  | integer
  /-- The class descriptor of `java.lang.Number`. -/
  | number
  deriving DecidableEq

/-- The heap with these things. -/
def things : Thing → Shape Label Thing
  | .a => ⟨.string [97], [], []⟩
  | .x => ⟨.string [120], [], []⟩
  | .b => ⟨.string [98], [], []⟩
  | .c => ⟨.string [99], [], []⟩
  | .two => ⟨.object [0, 0, 0, 2], [some .integer], []⟩
  | .three => ⟨.object [0, 0, 0, 3], [some .integer], []⟩
  | .integer => ⟨.classDesc [73] [18, 226, 160, 164, 247, 129, 135, 56] 2 [(73, [118])], [], [some .number]⟩
  | .number => ⟨.classDesc [78] [134, 172, 149, 29, 11, 148, 224, 139] 2 [], [], [none]⟩

/-- Strings of one character hash to the character, integers to their values. -/
def thingsJvm : Jvm Thing where
  heap := things
  hashCode
    | .a => 97
    | .x => 120
    | .b => 98
    | .c => 99
    | .two => 2
    | .three => 3
    | .integer | .number => 0
  fits := by intro t; cases t <;> rfl

/-- Two pairs for each chunk, a string and an integer each: in both chunks the second integer refers to its class by the
number 1, which that class has in the file, and the file is read. -/
theorem reads_back_two_pairs :
    ∃ file, partitionFile thingsJvm 8 1 0
        [[some .a, some .two, some .b, some .three], [some .x, some .two, some .c, some .three]] = some file ∧
      ReadsBack thingsJvm 8 file
        ([[some .a, some .two, some .b, some .three], [some .x, some .two, some .c, some .three]].flatMap
          (recordsOf thingsJvm 1 0)) := by
  have hsome : (partitionFile thingsJvm 8 1 0
      [[some .a, some .two, some .b, some .three], [some .x, some .two, some .c, some .three]]).isSome := by decide +kernel
  obtain ⟨file, hfile⟩ := Option.isSome_iff_exists.mp hsome
  refine ⟨file, hfile, (reads_back_iff thingsJvm (Nat.le_refl 8) hfile).mpr ?_⟩
  refine ⟨stands_nil .., ⟨?_, ?_, ?_, ?_, trivial⟩, trivial⟩
  · intro p hp
    exact absurd hp List.not_mem_nil
  · intro p hp
    exact absurd hp List.not_mem_nil
  · intro p hp
    exact absurd hp List.not_mem_nil
  · intro p hp
    replace hp : p ∈ [(1, Thing.integer)] := hp
    rw [List.mem_singleton.mp hp]
    exact ⟨.integer, rfl, Same.refl ..⟩

/-- **A chunk with two strings and a chunk with two integers**: the second integer refers to its class by the number
that "x" has in the file, and the file is not read as the records. -/
theorem not_reads_back_integers :
    ∃ file, partitionFile thingsJvm 8 1 0 [[some .a, some .x], [some .b, some .two, some .c, some .three]] = some file ∧
      ¬ ReadsBack thingsJvm 8 file
        ([[some .a, some .x], [some .b, some .two, some .c, some .three]].flatMap (recordsOf thingsJvm 1 0)) := by
  have heval : ((partitionFile thingsJvm 8 1 0 [[some .a, some .x], [some .b, some .two, some .c, some .three]]).bind
      openStream).map (fun ts => (readAll fits 8 (ts.length + 1) ⟨0, []⟩ ts).isNone) = some true := by
    decide +kernel
  rw [Option.map_eq_some_iff] at heval
  obtain ⟨ts, hts, hnone⟩ := heval
  obtain ⟨file, hfile, hopen⟩ := Option.bind_eq_some_iff.mp hts
  refine ⟨file, hfile, ?_⟩
  rintro ⟨ts', hopen', vals, s, hread, -⟩
  rw [hopen] at hopen'
  cases hopen'
  rw [hread] at hnone
  simp at hnone

end DShuffle.Shuffle.JavaStream
