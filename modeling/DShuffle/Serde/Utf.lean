import DShuffle.Base.Unicode
import DShuffle.Serde.PrimitiveArrays

/-!
# Char arrays in UTF-8

With `enable_utf16_to_utf8`, which `Serde.Initialize` always sets, a char array
goes over the wire in UTF-8: `cvt_utf16_to_utf8` writes the byte size of the
array, the byte size of the text and the text, and `cvt_utf8_to_utf16` converts
it back into the new array.

A `char[]` is any sequence of code units, and what `simdutf` converts is only
well-formed UTF-16: on an unpaired surrogate it returns `0`, which is stored as
the size of the text. The reader's check, `assert(actual_length == length)`, is
gone from a release build. The size of the text is also cut to 32 bits.

## What is proved

* `cvtUtf8ToUtf16_cvtUtf16ToUtf8` — the two cursors always advance by the same
  amount, and the reader converts what the counted part of the text says.
* `restores_iff` — the code units come back exactly when they are well-formed
  UTF-16 whose text in UTF-8 is shorter than 2^32 bytes.
* `surrogate_lost` — one unpaired surrogate does not come back.
-/

namespace DShuffle.Serde

open Base ObjectReviver

/-- What is assumed of `simdutf`: both conversions are exact on well-formed input and return `0` on other input. -/
structure Simdutf.Conforms (u : Simdutf) : Prop where
  /-- UTF-16 is converted to the UTF-8 of the same text. -/
  toUtf8_exact : ∀ cs, u.toUtf8 (utf16 cs) = (utf8 cs, (utf8 cs).length)
  /-- Ill-formed UTF-16 is refused. -/
  toUtf8_bad : ∀ bs, decodeUtf16 bs = none → (u.toUtf8 bs).2 = 0
  /-- UTF-8 is converted to the UTF-16 of the same text. -/
  toUtf16_exact : ∀ cs, u.toUtf16 (utf8 cs) = (utf16 cs, units cs)
  /-- Ill-formed UTF-8 is refused. -/
  toUtf16_bad : ∀ bs, decodeUtf8 bs = none → (u.toUtf16 bs).2 = 0

/-- `actual_length` of `cvt_utf8_to_utf16`: how many code units its conversion says it has restored. -/
def ObjectReviver.actualLength (v : ObjectReviver) (b : RWBuffer) : ℕ :=
  let (actual, b) := (b.get 4).2.get 4
  u32 (v.simdutf.toUtf16 (read b.data b.off actual)).2

/-- The char array of length `n` at `a` is restored from what `cvt_utf16_to_utf8` writes at the cursor of `b`: the
same length, the same code units, and the same advance of the two cursors. -/
structure Restores (w : ObjectWalker) (jvm : Jvm) (a : ℕ) (i : ClassInfo) (n : ℕ) (b : RWBuffer) : Prop where
  /-- As many code units are restored as the array has. -/
  length : (w.reviver jvm).actualLength ⟨(w.cvtUtf16ToUtf8 a i .char n b).data, b.off⟩ = n
  /-- They are the same code units. -/
  contents : ((w.reviver jvm).cvtUtf8ToUtf16 n ⟨(w.cvtUtf16ToUtf8 a i .char n b).data, b.off⟩).1 =
    w.heap.raw a i.headerSize (n * 2)
  /-- The cursors advance by the same amount. -/
  cursor : ((w.reviver jvm).cvtUtf8ToUtf16 n ⟨(w.cvtUtf16ToUtf8 a i .char n b).data, b.off⟩).2.off =
    (w.cvtUtf16ToUtf8 a i .char n b).off

section
variable {w : ObjectWalker} {a n : ℕ} {i : ClassInfo} {b : RWBuffer}

/-- The part of the UTF-8 text that its stored size covers. -/
def countedText (w : ObjectWalker) (a : ℕ) (i : ClassInfo) (n : ℕ) : Bytes :=
  (w.simdutf.toUtf8 (w.heap.raw a i.headerSize (n * 2))).1.take
    (u32 (w.simdutf.toUtf8 (w.heap.raw a i.headerSize (n * 2))).2)

/-- What the reader finds behind the byte size of the array: the size of the text, and the text. -/
theorem read_cvtUtf16ToUtf8 :
    ofLe (read (w.cvtUtf16ToUtf8 a i .char n b).data (b.off + 4) 4) = (countedText w a i n).length ∧
      read (w.cvtUtf16ToUtf8 a i .char n b).data (b.off + 4 + 4) (countedText w a i n).length = countedText w a i n ∧
      (w.cvtUtf16ToUtf8 a i .char n b).off = b.off + 4 + 4 + (countedText w a i n).length := by
  have hem := ObjectWalker.cvtUtf16ToUtf8_emits (w := w) (a := a) (n := n) (i := i) (t := .char) (RWBuffer.Emits.refl (b := b))
  have hlen : (countedText w a i n).length = u32 (w.simdutf.toUtf8 (w.heap.raw a i.headerSize (n * 2))).2 := by
    rw [countedText, List.length_take, Nat.min_eq_left ((u32_le _).trans (w.simdutf.toUtf8_le _))]
  have hall := hem.read_all
  rw [List.nil_append] at hall
  have hsize := (read_append (read_append hall).1).2
  have htext := (read_append hall).2
  rw [length_le, length_le] at hsize
  rw [List.length_append, length_le, length_le] at htext
  refine ⟨?_, htext, ?_⟩
  · rw [hsize, ofLe_le, hlen]
    exact u32_of_lt (u32_lt _)
  · rw [hem.off, countedText]
    simp only [List.length_append, List.length_nil, length_le]
    omega

/-- **The reader converts the counted part of the text**, and its cursor ends where the writer's did. -/
theorem cvtUtf8ToUtf16_cvtUtf16ToUtf8 (jvm : Jvm) :
    (w.reviver jvm).cvtUtf8ToUtf16 n ⟨(w.cvtUtf16ToUtf8 a i .char n b).data, b.off⟩ =
        (overlay (n * 2) (w.simdutf.toUtf16 (countedText w a i n)).1, w.cvtUtf16ToUtf8 a i .char n b) ∧
      (w.reviver jvm).actualLength ⟨(w.cvtUtf16ToUtf8 a i .char n b).data, b.off⟩ =
        u32 (w.simdutf.toUtf16 (countedText w a i n)).2 := by
  obtain ⟨h₁, h₂, h₃⟩ := read_cvtUtf16ToUtf8 (w := w) (a := a) (n := n) (i := i) (b := b)
  simp only [cvtUtf8ToUtf16, actualLength, RWBuffer.get, RWBuffer.getAt, RWBuffer.skip, h₁, h₂, ← h₃]
  exact ⟨rfl, rfl⟩

/-- Well-formed code units with a short text come back. -/
theorem restores_of_decodeUtf16 {jvm : Jvm} (hu : w.simdutf.Conforms) {cs : List Char}
    (hcs : decodeUtf16 (w.heap.raw a i.headerSize (n * 2)) = some cs) (hlt : (utf8 cs).length < 2 ^ 32) :
    Restores w jvm a i n b := by
  obtain ⟨hcvt, hact⟩ := cvtUtf8ToUtf16_cvtUtf16ToUtf8 (w := w) (a := a) (n := n) (i := i) (b := b) jvm
  have hraw : utf16 cs = w.heap.raw a i.headerSize (n * 2) := decodeUtf16_eq_some_iff.mp hcs
  have hn : units cs = n := by
    have hlen := length_utf16 cs
    rw [hraw, Heap.length_raw] at hlen
    omega
  have htext : countedText w a i n = utf8 cs := by
    rw [countedText, ← hraw, hu.toUtf8_exact, u32_of_lt hlt, List.take_length]
  rw [htext, hu.toUtf16_exact] at hcvt hact
  refine ⟨?_, ?_, by rw [hcvt]⟩
  · rw [hact, hn]
    exact u32_of_lt ((hn ▸ units_le_length_utf8 cs).trans_lt hlt)
  · rw [hcvt, overlay]
    have hlen : (utf16 cs).length = n * 2 := by rw [length_utf16, hn, Nat.mul_comm]
    rw [hlen, Nat.sub_self, List.replicate_zero, List.append_nil, List.take_of_length_le (Nat.le_of_eq hlen), hraw]

/-- A text restored from a prefix of the UTF-8 text is a prefix of the text. -/
theorem units_of_prefix (hu : w.simdutf.Conforms) {cs : List Char} {bs : Bytes} (hbs : bs <+: utf8 cs)
    (hc : u32 (w.simdutf.toUtf16 bs).2 = units cs) : bs = utf8 cs := by
  cases hd : decodeUtf8 bs with
  | none =>
    rw [hu.toUtf16_bad bs hd] at hc
    have hnil : cs = [] := by
      by_contra hne
      exact absurd hc (Nat.ne_of_lt (units_pos hne))
    rw [hnil] at hbs ⊢
    exact List.prefix_nil.mp hbs
  | some ds =>
    have hds : utf8 ds = bs := decodeUtf8_eq_some_iff.mp hd
    obtain ⟨rest, hrest⟩ := hbs
    rw [← hds] at hrest hc
    obtain ⟨es, rfl⟩ := prefix_of_utf8_append hrest
    rw [hu.toUtf16_exact, units_append] at hc
    change u32 (units ds) = _ at hc
    have hes : es = [] := by
      by_contra hne
      have hpos := units_pos hne
      have hle := u32_le (units ds)
      omega
    rw [hes, List.append_nil, hds]

/-- Code units that come back are well formed, and their text is short. -/
theorem decodeUtf16_of_restores {jvm : Jvm} (hu : w.simdutf.Conforms) (hr : Restores w jvm a i n b) :
    ∃ cs, decodeUtf16 (w.heap.raw a i.headerSize (n * 2)) = some cs ∧ (utf8 cs).length < 2 ^ 32 := by
  obtain ⟨-, hact⟩ := cvtUtf8ToUtf16_cvtUtf16ToUtf8 (w := w) (a := a) (n := n) (i := i) (b := b) jvm
  rw [hr.length] at hact
  cases hd : decodeUtf16 (w.heap.raw a i.headerSize (n * 2)) with
  | none =>
    -- nothing was converted, so nothing was restored, but the array is not empty
    have htext : countedText w a i n = utf8 [] := by
      rw [countedText, hu.toUtf8_bad _ hd]
      rfl
    rw [htext, hu.toUtf16_exact] at hact
    have hn : n = 0 := hact
    rw [hn] at hd
    cases hd
  | some cs =>
    refine ⟨cs, rfl, ?_⟩
    have hraw : utf16 cs = w.heap.raw a i.headerSize (n * 2) := decodeUtf16_eq_some_iff.mp hd
    have hn : units cs = n := by
      have hlen := length_utf16 cs
      rw [hraw, Heap.length_raw] at hlen
      omega
    have htext : countedText w a i n = (utf8 cs).take (u32 (utf8 cs).length) := by
      rw [countedText, ← hraw, hu.toUtf8_exact]
    rw [htext, ← hn] at hact
    have hall := units_of_prefix hu (List.take_prefix _ _) hact.symm
    have hlen := congrArg List.length hall
    rw [List.length_take, Nat.min_eq_left (u32_le _)] at hlen
    rw [← hlen]
    exact u32_lt _

end

/-- **When the code units of a char array come back**: exactly when they are well-formed UTF-16 and their text in
UTF-8 is shorter than 2^32 bytes. -/
theorem restores_iff (w : ObjectWalker) (jvm : Jvm) (a n : ℕ) (i : ClassInfo) (b : RWBuffer) (hu : w.simdutf.Conforms) :
    Restores w jvm a i n b ↔
      ∃ cs, decodeUtf16 (w.heap.raw a i.headerSize (n * 2)) = some cs ∧ (utf8 cs).length < 2 ^ 32 := by
  constructor
  · exact decodeUtf16_of_restores hu
  · rintro ⟨cs, hcs, hlt⟩
    exact restores_of_decodeUtf16 hu hcs hlt

/-! ### Two arrays -/

/-- The transcoder that does what the Unicode standard says. -/
def unicodeSimdutf : Simdutf where
  toUtf8 bs :=
    match decodeUtf16 bs with
    | some cs => (utf8 cs, (utf8 cs).length)
    | none => ([], 0)
  toUtf16 bs :=
    match decodeUtf8 bs with
    | some cs => (utf16 cs, units cs)
    | none => ([], 0)
  toUtf8_le bs := by cases decodeUtf16 bs <;> exact Nat.le_refl _
  toUtf16_le bs := by
    cases decodeUtf8 bs with
    | none => exact Nat.le_refl 0
    | some cs => exact Nat.le_of_eq (length_utf16 cs).symm

theorem unicodeSimdutf_conforms : unicodeSimdutf.Conforms where
  toUtf8_exact cs := by simp only [unicodeSimdutf, decodeUtf16_eq_some_iff.mpr (rfl : utf16 cs = utf16 cs)]
  toUtf8_bad bs h := by simp only [unicodeSimdutf, h]
  toUtf16_exact cs := by simp only [unicodeSimdutf, decodeUtf8_eq_some_iff.mpr (rfl : utf8 cs = utf8 cs)]
  toUtf16_bad bs h := by simp only [unicodeSimdutf, h]

/-- The class info of `char[]`. -/
def sampleChars : ClassInfo :=
  { klass := 5000, id := 24, enumRefArrOff := 0, objSize := 16, headerSize := 16, nStaticField := 0, dim := 1,
    signature := sym "[C", fields := [⟨-1, 0, .char, 0, 0⟩], enums := [] }

/-- A walker over a heap that holds, at `64`, an array of the three code units `x`, `y`, `z`. -/
def charsWalker (x y z : ℕ) : ObjectWalker :=
  { heap := ⟨fun k => (le 8 1 ++ le 4 5000 ++ le 4 3 ++ le 2 x ++ le 2 y ++ le 2 z).getD (k - 64) 0,
      ⟨0, .zeroBased, 0, 0, .zeroBased, 0⟩⟩
    r := ObjectWalker.sampleResolver, o := ⟨true⟩, simdutf := unicodeSimdutf }

/-- A letter and a pair of surrogates come back. -/
theorem restores_of_pair : Restores (charsWalker 0x41 0xD83D 0xDE00) sampleJvm 64 sampleChars 3 ⟨fun _ => 255, 8⟩ :=
  (restores_iff (charsWalker 0x41 0xD83D 0xDE00) sampleJvm 64 3 sampleChars ⟨fun _ => 255, 8⟩
    unicodeSimdutf_conforms).mpr ⟨['A', '😀'], by decide, by decide⟩

/-- With an unpaired surrogate between two letters nothing comes back. -/
theorem surrogate_lost : ¬ Restores (charsWalker 0x41 0xD83D 0x42) sampleJvm 64 sampleChars 3 ⟨fun _ => 255, 8⟩ := by
  intro h
  obtain ⟨cs, hcs, -⟩ := decodeUtf16_of_restores unicodeSimdutf_conforms h
  have hnone : decodeUtf16 ((charsWalker 0x41 0xD83D 0x42).heap.raw 64 sampleChars.headerSize (3 * 2)) = none := by decide
  rw [hnone] at hcs
  cases hcs

end DShuffle.Serde
