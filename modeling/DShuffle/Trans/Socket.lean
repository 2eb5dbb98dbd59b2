import DShuffle.Base.ByteMemory
import Mathlib.Algebra.Order.Ring.Nat

/-!
# Strings over a socket

`socket.cxx` sends and receives strings over a TCP connection. `read_string` calls
`read` until it has all bytes; `write_string` calls `write` once. With a header the
string goes behind its length. Two peers exchange the descriptors of their RDMA
connections so (`exchange_desc`), and `wait_for_disconnect` waits for one byte, the
farewell of the peer.

## The model

* A turn is what the kernel does with one call of `read` or `write`: it moves at
  most so many bytes, but at least one if there is one to move, or it fails.
* `inbox` are the bytes that the peer has sent or will send and that were not read;
  `closed` is whether it closes the connection behind them. At the end of the
  stream `read` returns 0 if the peer closed the connection, and waits if not.
* A run of a loop takes the turns of the calls; one that has used them up waits.

## What is proved

* `readLoop_returns`, `readLoop_eq_returned` — what `read_string` returns.
* `exchangeDesc_iff` — exactly when a string, and two descriptors, get across.
* `read_string_ends_iff` — exactly when `read_string` ends, and `wait_for_disconnect`
  stops its endpoints.

## Honest scope

Both sides have `size_t` of eight bytes, little end first. The memory for a string
is always there.
-/

namespace DShuffle.Trans.Socket

open Base

/-- What the kernel does with a call. -/
inductive Turn where
  /-- It moves at most `k + 1` bytes. -/
  | moves (k : ℕ)
  /-- The call fails. -/
  | fails
  deriving DecidableEq, Repr

/-- A string or a view of one: its size is a `size_t`. -/
abbrev StringView := { s : Bytes // s.length < 2 ^ 64 }

/-- Where a call of `read_string` stands. -/
inductive Outcome where
  /-- It returned the string; those are the bytes and the turns that are left. -/
  | returned (s inbox : Bytes) (turns : List Turn)
  /-- It waits for a call of `read`. -/
  | waiting
  /-- `die`. -/
  | died
  deriving DecidableEq, Repr

/-- The variables of `read_string`. -/
structure Reader where
  /-- `buf`. -/
  buf : Bytes
  /-- `offset`. -/
  offset : ℕ
  /-- `remain`. -/
  remain : ℕ
  deriving DecidableEq, Repr

/-- They start so. -/
def Reader.new (len : ℕ) : Reader := ⟨List.replicate len 0, 0, len⟩

/-- After a call of `read` that put these bytes into the buffer. -/
def Reader.advance (r : Reader) (bs : Bytes) : Reader := ⟨patch r.buf r.offset bs, r.offset + bs.length, r.remain - bs.length⟩

/-- The loop of `read_string`. -/
def readLoop (closed : Bool) : List Turn → Reader → Bytes → Outcome
  | [], r, inbox => if r.remain = 0 then .returned r.buf inbox [] else .waiting
  | t :: ts, r, inbox =>
    if r.remain = 0 then .returned r.buf inbox (t :: ts)
    else
      match t with
      | .fails => .died
      | .moves k =>
        if inbox = [] then
          -- the end of the stream: `read` returns 0
          if closed then readLoop closed ts (r.advance []) inbox else .waiting
        else readLoop closed ts (r.advance (inbox.take (min (k + 1) r.remain))) (inbox.drop (min (k + 1) r.remain))

/-- `read_string`. -/
def readString (closed : Bool) (turns : List Turn) (len : ℕ) (inbox : Bytes) : Outcome :=
  readLoop closed turns (.new len) inbox

/-- `read_string_with_header`. -/
def readStringWithHeader (closed : Bool) (turns : List Turn) (inbox : Bytes) : Outcome :=
  match readString closed turns 8 inbox with
  | .returned header inbox turns => readString closed turns (ofLe header) inbox
  | o => o

/-- `write_string`: the bytes that get onto the stream; `none` if it dies. -/
def writeString (sv : Bytes) : Turn → Option Bytes
  | .moves k => some (sv.take (k + 1))
  | .fails => none

/-- `write_string_with_header`. -/
def writeStringWithHeader (sv : Bytes) (t₁ t₂ : Turn) : Option Bytes := do
  let header ← writeString (le 8 sv.length) t₁
  let body ← writeString sv t₂
  return header ++ body

/-- `exchange_desc`: the bytes that were written, and the descriptor of the peer. -/
def exchangeDesc (passive : Bool) (localDesc : Bytes) (t₁ t₂ : Turn) (turns : List Turn) (inbox : Bytes) :
    Option (Bytes × Outcome) :=
  if passive then
    match readStringWithHeader false turns inbox with
    | .returned remoteDesc inbox turns =>
      (writeStringWithHeader localDesc t₁ t₂).map fun sent => (sent, .returned remoteDesc inbox turns)
    | o => some ([], o)
  else (writeStringWithHeader localDesc t₁ t₂).map fun sent => (sent, readStringWithHeader false turns inbox)

/-! ### The loop of `read_string` -/

/-- The calls move bytes. -/
def turns (splits : ℕ → ℕ) (n : ℕ) : List Turn := (List.range n).map fun i => .moves (splits i)

/-- All of the turns move bytes. -/
def Moving (ts : List Turn) : Prop := ∀ t ∈ ts, t ≠ .fails

theorem moving_turns (splits : ℕ → ℕ) (n : ℕ) : Moving (turns splits n) := by
  intro t ht
  obtain ⟨i, -, rfl⟩ := List.mem_map.mp ht
  exact Turn.noConfusion

theorem length_turns (splits : ℕ → ℕ) (n : ℕ) : (turns splits n).length = n := by simp [turns]

section
variable {closed : Bool} {ts : List Turn} {r : Reader} {inbox : Bytes}

theorem readLoop_of_done (h : r.remain = 0) : readLoop closed ts r inbox = .returned r.buf inbox ts := by
  cases ts with
  | nil => rw [readLoop, if_pos h]
  | cons t ts => cases t <;> rw [readLoop, if_pos h]

theorem readLoop_moves {k : ℕ} (h : r.remain ≠ 0) :
    readLoop closed (.moves k :: ts) r inbox =
      if inbox = [] then if closed then readLoop closed ts (r.advance []) inbox else .waiting
      else readLoop closed ts (r.advance (inbox.take (min (k + 1) r.remain))) (inbox.drop (min (k + 1) r.remain)) := by
  rw [readLoop, if_neg h]

theorem readLoop_fails (h : r.remain ≠ 0) : readLoop closed (.fails :: ts) r inbox = .died := by rw [readLoop, if_neg h]

end

/-- The buffer has what was read, then room for the bytes that remain. -/
structure Reader.Valid (r : Reader) (got : Bytes) : Prop where
  /-- The bytes that were read are in front. -/
  front : r.buf.take r.offset = got
  /-- `offset` counts them. -/
  offset : r.offset = got.length
  /-- The others remain. -/
  length : r.buf.length = r.offset + r.remain

theorem Reader.valid_new (len : ℕ) : (Reader.new len).Valid [] := by
  refine ⟨rfl, rfl, ?_⟩
  show (List.replicate len (0 : UInt8)).length = 0 + len
  rw [List.length_replicate, Nat.zero_add]

theorem Reader.Valid.advance {r : Reader} {got bs : Bytes} (h : r.Valid got) (hle : bs.length ≤ r.remain) :
    (r.advance bs).Valid (got ++ bs) := by
  have hlen := h.length
  have hoff := h.offset
  have hpatch : (patch r.buf r.offset bs).length = r.buf.length := length_patch (by omega)
  refine ⟨?_, ?_, ?_⟩
  · show (patch r.buf r.offset bs).take (r.offset + bs.length) = got ++ bs
    have hfront : (r.buf.take r.offset ++ bs).length = r.offset + bs.length := by
      rw [List.length_append, List.length_take, Nat.min_eq_left (by omega)]
    rw [patch, ← hfront, List.take_left, h.front]
  · show r.offset + bs.length = (got ++ bs).length
    rw [List.length_append, hoff]
  · show (patch r.buf r.offset bs).length = r.offset + bs.length + (r.remain - bs.length)
    omega

theorem Reader.Valid.buf_eq {r : Reader} {got : Bytes} (h : r.Valid got) (hz : r.remain = 0) : r.buf = got := by
  have hlen := h.length
  rw [← h.front, List.take_of_length_le (by omega)]

/-- **What the loop returns** are the next bytes of the stream; the others are left. -/
theorem readLoop_eq_returned {closed : Bool} {ts ts' : List Turn} {r : Reader} {got inbox s rest : Bytes} (hr : r.Valid got)
    (h : readLoop closed ts r inbox = .returned s rest ts') :
    r.remain ≤ inbox.length ∧ s = got ++ inbox.take r.remain ∧ rest = inbox.drop r.remain := by
  induction ts generalizing r got inbox with
  | nil =>
    unfold readLoop at h
    split_ifs at h with hz
    cases h
    rw [hz, hr.buf_eq hz]
    simp
  | cons t ts ih =>
    by_cases hz : r.remain = 0
    · rw [readLoop_of_done hz] at h
      cases h
      rw [hz, hr.buf_eq hz]
      simp
    · cases t with
      | fails =>
        rw [readLoop_fails hz] at h
        cases h
      | moves k =>
        rw [readLoop_moves hz] at h
        split_ifs at h with hnil hclosed
        · subst hnil
          obtain ⟨hle, -, -⟩ := ih (hr.advance (Nat.zero_le _)) h
          exact absurd (Nat.le_zero.mp hle) hz
        · generalize hm : min (k + 1) r.remain = m at h
          have hm' : m ≤ r.remain := by omega
          have htake : (inbox.take m).length = min m inbox.length := List.length_take
          obtain ⟨hle, hs, hrest⟩ := ih (hr.advance (by omega)) h
          have hremain : (r.advance (inbox.take m)).remain = r.remain - min m inbox.length := by
            rw [← htake]
            rfl
          rw [hremain, List.length_drop] at hle
          rw [hremain] at hs hrest
          have hpos : inbox.length ≠ 0 := fun hzero => hnil (List.eq_nil_of_length_eq_zero hzero)
          have hmin : min m inbox.length = m := by omega
          rw [hmin] at hs hrest
          refine ⟨by omega, ?_, ?_⟩
          · rw [hs, List.append_assoc, ← List.take_add]
            congr 2
            omega
          · rw [hrest, List.drop_drop]
            congr 1
            omega

/-- **The loop returns**, if the bytes come, and there are as many calls as bytes. -/
theorem readLoop_returns (closed : Bool) {ts : List Turn} {r : Reader} {got inbox : Bytes} (hr : r.Valid got) (hts : Moving ts)
    (hcount : r.remain ≤ ts.length) (hle : r.remain ≤ inbox.length) :
    ∃ ts', readLoop closed ts r inbox = .returned (got ++ inbox.take r.remain) (inbox.drop r.remain) ts' ∧ Moving ts' ∧
      ts.length ≤ ts'.length + r.remain := by
  induction ts generalizing r got inbox with
  | nil =>
    have hz : r.remain = 0 := Nat.le_zero.mp hcount
    refine ⟨[], ?_, hts, by simp⟩
    rw [readLoop_of_done hz, hz, hr.buf_eq hz]
    simp
  | cons t ts ih =>
    by_cases hz : r.remain = 0
    · refine ⟨t :: ts, ?_, hts, by omega⟩
      rw [readLoop_of_done hz, hz, hr.buf_eq hz]
      simp
    · cases t with
      | fails => exact absurd rfl (hts .fails (List.mem_cons_self ..))
      | moves k =>
        have hnil : inbox ≠ [] := by
          rintro rfl
          exact hz (Nat.le_zero.mp hle)
        generalize hm : min (k + 1) r.remain = m
        have htake : (inbox.take m).length = m := by rw [List.length_take]; omega
        have hremain : (r.advance (inbox.take m)).remain = r.remain - m := by
          show r.remain - (inbox.take m).length = _
          rw [htake]
        rw [List.length_cons] at hcount
        have hcalls : (r.advance (inbox.take m)).remain ≤ ts.length := by omega
        have hbytes : (r.advance (inbox.take m)).remain ≤ (inbox.drop m).length := by
          rw [List.length_drop]
          omega
        obtain ⟨ts', hloop, hmov, hlen⟩ :=
          ih (hr.advance (by omega)) (fun u hu => hts u (List.mem_cons_of_mem _ hu)) hcalls hbytes
        refine ⟨ts', ?_, hmov, by rw [List.length_cons]; omega⟩
        rw [readLoop_moves hz, if_neg hnil, hm, hloop, hremain, List.append_assoc, ← List.take_add, List.drop_drop]
        have hsum : m + (r.remain - m) = r.remain := by omega
        rw [hsum]

/-- Too few bytes come: the loop does not end, whether the peer closes the connection or not. -/
theorem readLoop_waits (closed : Bool) {ts : List Turn} {r : Reader} {inbox : Bytes} (hts : Moving ts)
    (hlt : inbox.length < r.remain) : readLoop closed ts r inbox = .waiting := by
  induction ts generalizing r inbox with
  | nil => rw [readLoop, if_neg (by omega)]
  | cons t ts ih =>
    have hts' : Moving ts := fun u hu => hts u (List.mem_cons_of_mem _ hu)
    cases t with
    | fails => exact absurd rfl (hts .fails (List.mem_cons_self ..))
    | moves k =>
      rw [readLoop_moves (by omega)]
      split_ifs with hnil hclosed
      · exact ih hts' hlt
      · rfl
      · refine ih hts' ?_
        show (inbox.drop (min (k + 1) r.remain)).length < r.remain - (inbox.take (min (k + 1) r.remain)).length
        rw [List.length_drop, List.length_take]
        have hpos : inbox.length ≠ 0 := fun hzero => hnil (List.eq_nil_of_length_eq_zero hzero)
        omega

theorem readString_returns (closed : Bool) {ts : List Turn} {len : ℕ} {inbox : Bytes} (hts : Moving ts) (hcount : len ≤ ts.length)
    (hle : len ≤ inbox.length) : ∃ ts', readString closed ts len inbox = .returned (inbox.take len) (inbox.drop len) ts' ∧
      Moving ts' ∧ ts.length ≤ ts'.length + len :=
  readLoop_returns closed (Reader.valid_new len) hts hcount hle

theorem readString_eq_returned {closed : Bool} {ts ts' : List Turn} {len : ℕ} {inbox s rest : Bytes}
    (h : readString closed ts len inbox = .returned s rest ts') :
    len ≤ inbox.length ∧ s = inbox.take len ∧ rest = inbox.drop len :=
  readLoop_eq_returned (Reader.valid_new len) h

/-! ### Strings with a header -/

theorem readStringWithHeader_eq_returned {closed : Bool} {ts ts' : List Turn} {inbox s rest : Bytes}
    (h : readStringWithHeader closed ts inbox = .returned s rest ts') :
    8 ≤ inbox.length ∧ s.length = ofLe (inbox.take 8) ∧ 8 + s.length ≤ inbox.length ∧ rest = inbox.drop (8 + s.length) := by
  unfold readStringWithHeader at h
  cases hhead : readString closed ts 8 inbox with
  | waiting =>
    rw [hhead] at h
    cases h
  | died =>
    rw [hhead] at h
    cases h
  | returned header inbox' ts₁ =>
    obtain ⟨hle, rfl, rfl⟩ := readString_eq_returned hhead
    rw [hhead] at h
    obtain ⟨hle', hs, hrest⟩ := readString_eq_returned h
    have hlen : s.length = ofLe (inbox.take 8) := by
      rw [hs, List.length_take]
      omega
    rw [List.length_drop] at hle'
    refine ⟨hle, hlen, by omega, ?_⟩
    rw [hrest, List.drop_drop, hlen]

/-- A string with its header is read back. -/
theorem readStringWithHeader_returns (closed : Bool) {ts : List Turn} (s : StringView) (rest : Bytes) (hts : Moving ts)
    (hcount : 8 + s.val.length ≤ ts.length) :
    ∃ ts', readStringWithHeader closed ts (le 8 s.val.length ++ s.val ++ rest) = .returned s.val rest ts' := by
  have hheader : (le 8 s.val.length ++ s.val ++ rest).take 8 = le 8 s.val.length := by
    rw [List.append_assoc]
    exact List.take_left' (length_le 8 _)
  have hdrop : (le 8 s.val.length ++ s.val ++ rest).drop 8 = s.val ++ rest := by
    rw [List.append_assoc]
    exact List.drop_left' (length_le 8 _)
  have hval : ofLe (le 8 s.val.length) = s.val.length := by
    rw [ofLe_le]
    exact Nat.mod_eq_of_lt s.property
  have height : 8 ≤ (le 8 s.val.length ++ s.val ++ rest).length := by
    simp only [List.length_append, length_le]
    omega
  obtain ⟨ts₁, hhead, hmov, hlen⟩ := readString_returns closed hts (by omega) height
  rw [hheader, hdrop] at hhead
  have hbytes : s.val.length ≤ (s.val ++ rest).length := by
    rw [List.length_append]
    omega
  obtain ⟨ts₂, hbody, -, -⟩ := readString_returns closed hmov (by omega) hbytes
  refine ⟨ts₂, ?_⟩
  rw [readStringWithHeader, hhead]
  dsimp only
  rw [hval, hbody, List.take_left, List.drop_left]

/-! ### Exchanging descriptors -/

/-- One side of an exchange. -/
structure Side where
  /-- The string that it sends, its descriptor. -/
  desc : StringView
  /-- The call that writes the header moves at most `header + 1` bytes. -/
  header : ℕ
  /-- The call that writes the string moves at most `body + 1` bytes. -/
  body : ℕ
  /-- How its reads are split. -/
  splits : ℕ → ℕ
  /-- What it sends afterwards. -/
  later : Bytes

namespace Side

/-- What gets onto the stream. -/
def sent (w : Side) : Bytes := (le 8 w.desc.val.length).take (w.header + 1) ++ w.desc.val.take (w.body + 1)

/-- **The condition**: each of the two writes moves all of its bytes. -/
def Full (w : Side) : Prop := 8 ≤ w.header + 1 ∧ w.desc.val.length ≤ w.body + 1

instance (w : Side) : Decidable w.Full := inferInstanceAs (Decidable (_ ∧ _))

/-- **The round trip**: the reader returns what the writer sent, and leaves what the writer sends afterwards. -/
def RoundTrip (closed : Bool) (w : Side) (splits : ℕ → ℕ) : Prop :=
  ∃ sent n ts, writeStringWithHeader w.desc.val (.moves w.header) (.moves w.body) = some sent ∧
    readStringWithHeader closed (turns splits n) (sent ++ w.later) = .returned w.desc.val w.later ts

/-- **The exchange**: the active and the passive side obtain each other's descriptors. -/
def Exchanged (a p : Side) : Prop :=
  ∃ sentA sentP n m tsA tsP,
    exchangeDesc false a.desc.val (.moves a.header) (.moves a.body) (turns a.splits n) (sentP ++ p.later) =
      some (sentA, .returned p.desc.val p.later tsA) ∧
    exchangeDesc true p.desc.val (.moves p.header) (.moves p.body) (turns p.splits m) (sentA ++ a.later) =
      some (sentP, .returned a.desc.val a.later tsP)

variable {w a p : Side}

theorem writeStringWithHeader_eq (w : Side) :
    writeStringWithHeader w.desc.val (.moves w.header) (.moves w.body) = some w.sent := rfl

theorem sent_of_full (h : w.Full) : w.sent = le 8 w.desc.val.length ++ w.desc.val := by
  rw [sent, List.take_of_length_le (by rw [length_le]; exact h.1), List.take_of_length_le h.2]

/-- A reader that ends where the writer does has the whole string. -/
theorem full_of_returned {closed : Bool} {ts ts' : List Turn}
    (h : readStringWithHeader closed ts (w.sent ++ w.later) = .returned w.desc.val w.later ts') : w.Full := by
  obtain ⟨-, -, hle, hrest⟩ := readStringWithHeader_eq_returned h
  have hlen := congrArg List.length hrest
  rw [List.length_drop] at hlen
  simp only [sent, List.length_append, List.length_take, length_le] at hlen hle
  refine ⟨?_, ?_⟩ <;> omega

/-- Whole writes are read back, whatever the splits of the reads. -/
theorem returned_of_full (closed : Bool) (h : w.Full) (splits : ℕ → ℕ) : ∃ n ts,
    readStringWithHeader closed (turns splits n) (w.sent ++ w.later) = .returned w.desc.val w.later ts := by
  obtain ⟨ts, hts⟩ := readStringWithHeader_returns closed w.desc w.later (moving_turns splits (8 + w.desc.val.length))
    (by rw [length_turns])
  rw [← sent_of_full h] at hts
  exact ⟨_, ts, hts⟩

theorem roundTrip_iff_full (closed : Bool) (w : Side) (splits : ℕ → ℕ) : w.RoundTrip closed splits ↔ w.Full := by
  constructor
  · rintro ⟨sent, n, ts, hw, hr⟩
    rw [writeStringWithHeader_eq] at hw
    cases hw
    exact full_of_returned hr
  · intro h
    obtain ⟨n, ts, hr⟩ := returned_of_full closed h splits
    exact ⟨w.sent, n, ts, writeStringWithHeader_eq w, hr⟩

/-- The active side writes, then reads. -/
theorem exchangeDesc_active (a : Side) (ts : List Turn) (inbox : Bytes) :
    exchangeDesc false a.desc.val (.moves a.header) (.moves a.body) ts inbox = some (a.sent, readStringWithHeader false ts inbox) :=
  rfl

/-- The passive side reads, then writes. -/
theorem exchangeDesc_passive {ts ts' : List Turn} {inbox d rest : Bytes}
    (h : readStringWithHeader false ts inbox = .returned d rest ts') :
    exchangeDesc true p.desc.val (.moves p.header) (.moves p.body) ts inbox = some (p.sent, .returned d rest ts') := by
  rw [exchangeDesc, if_pos rfl, h]
  rfl

theorem exchangeDesc_passive_returned {ts ts' : List Turn} {inbox d rest sent : Bytes}
    (h : exchangeDesc true p.desc.val (.moves p.header) (.moves p.body) ts inbox = some (sent, .returned d rest ts')) :
    sent = p.sent ∧ readStringWithHeader false ts inbox = .returned d rest ts' := by
  cases hr : readStringWithHeader false ts inbox with
  | returned d' rest' ts₁ =>
    rw [exchangeDesc_passive hr] at h
    cases h
    exact ⟨rfl, rfl⟩
  | waiting =>
    rw [exchangeDesc, if_pos rfl, hr] at h
    cases h
  | died =>
    rw [exchangeDesc, if_pos rfl, hr] at h
    cases h

/-- **Exactly when a string gets across**, and when two sides obtain each other's descriptors: for all strings, and all
splits of the reads and the writes. -/
theorem exchangeDesc_iff (closed : Bool) (a p : Side) :
    (a.RoundTrip closed p.splits ↔ a.Full) ∧ (Exchanged a p ↔ a.Full ∧ p.Full) := by
  refine ⟨roundTrip_iff_full closed a p.splits, ?_, ?_⟩
  · rintro ⟨sentA, sentP, n, m, tsA, tsP, hactive, hpassive⟩
    obtain ⟨rfl, hreadP⟩ := exchangeDesc_passive_returned hpassive
    rw [exchangeDesc_active, Option.some.injEq, Prod.mk.injEq] at hactive
    obtain ⟨rfl, hreadA⟩ := hactive
    exact ⟨full_of_returned hreadP, full_of_returned hreadA⟩
  · rintro ⟨ha, hp⟩
    obtain ⟨m, tsP, hreadP⟩ := returned_of_full false ha p.splits
    obtain ⟨n, tsA, hreadA⟩ := returned_of_full false hp a.splits
    refine ⟨a.sent, p.sent, n, m, tsA, tsP, ?_, exchangeDesc_passive hreadP⟩
    rw [exchangeDesc_active, hreadA]

/-- A string of three bytes; the kernel takes two of them. Then the length of a string of one byte follows. -/
def clipped : Side := ⟨⟨[1, 2, 3], by decide⟩, 7, 1, fun _ => 7, le 8 1 ++ [9]⟩

/-- **A short write takes a byte out of the stream**: the reader returns the first byte of the next header as the last
byte of the string, and stands in the middle of that header. -/
theorem not_roundTrip_clipped :
    readStringWithHeader false (turns clipped.splits 3) (clipped.sent ++ clipped.later) =
        .returned [1, 2, 1] [0, 0, 0, 0, 0, 0, 0, 9] [.moves 7] ∧
      ¬ clipped.RoundTrip false clipped.splits ∧ ¬ Exchanged clipped clipped := by
  have hnot : ¬ clipped.Full := by decide
  refine ⟨by decide, fun h => hnot ((roundTrip_iff_full false clipped clipped.splits).mp h), ?_⟩
  rintro ⟨sentA, sentP, n, m, tsA, tsP, hactive, hpassive⟩
  obtain ⟨rfl, -⟩ := exchangeDesc_passive_returned hpassive
  rw [exchangeDesc_active, Option.some.injEq, Prod.mk.injEq] at hactive
  exact hnot (full_of_returned hactive.2)

end Side

/-! ### Waiting for the farewell -/

/-- `Status` of an endpoint. -/
inductive Status where
  | idle | ready | running | stopping | exited
  deriving DecidableEq, Repr

/-- `EndpointBase::stop`. -/
def Status.stop : Status → Status := fun _ => .stopping

/-- `EndpointBase::shutdown`. -/
def Status.shutdown : Status → Status := fun _ => .exited

/-- `tcp::ConnectionHandle::wait_for_disconnect`: the statuses of the pending endpoints, and the farewell that is sent. -/
def tcpWaitForDisconnect (closed : Bool) (turns : List Turn) (t : Turn) (inbox : Bytes) (es : List Status) :
    List Status × Option Bytes :=
  match readString closed turns 1 inbox with
  | .returned _ _ _ => (es.map fun e => e.stop.shutdown, writeString [120] t)
  | _ => (es, none)

/-- `rdma::ConnectionHandle::wait_for_disconnect`: the statuses of the pending endpoints. -/
def rdmaWaitForDisconnect (closed : Bool) (turns : List Turn) (inbox : Bytes) (es : List Status) : List Status :=
  match readString closed turns 1 inbox with
  | .returned _ _ _ => es.map Status.stop
  | _ => es

/-- `read_string` ends exactly if all its bytes come. -/
theorem readString_ends_iff (closed : Bool) (len : ℕ) (inbox : Bytes) (splits : ℕ → ℕ) :
    (∃ n, readString closed (turns splits n) len inbox ≠ .waiting) ↔ len ≤ inbox.length := by
  constructor
  · rintro ⟨n, hn⟩
    by_contra hlt
    exact hn (readLoop_waits closed (moving_turns splits n) (Nat.lt_of_not_le hlt))
  · intro hle
    obtain ⟨ts, hread, -, -⟩ := readString_returns closed (moving_turns splits len) (by rw [length_turns]) hle
    refine ⟨len, ?_⟩
    rw [hread]
    exact Outcome.noConfusion

/-- The call for one byte returns, or it waits. -/
theorem readString_farewell (closed : Bool) (inbox : Bytes) (splits : ℕ → ℕ) :
    (inbox ≠ [] ∧ ∃ s rest ts, readString closed (turns splits 1) 1 inbox = .returned s rest ts) ∨
      inbox = [] ∧ ∀ n, readString closed (turns splits n) 1 inbox = .waiting := by
  by_cases hnil : inbox = []
  · subst hnil
    exact Or.inr ⟨rfl, fun n => readLoop_waits closed (moving_turns splits n) Nat.one_pos⟩
  · have hone : 1 ≤ inbox.length := List.length_pos_iff.mpr hnil
    obtain ⟨ts, hread, -, -⟩ := readString_returns closed (moving_turns splits 1) (by rw [length_turns]) hone
    exact Or.inl ⟨hnil, _, _, ts, hread⟩

/-- **Exactly when `read_string` ends** for a peer that closes the connection after the bytes `inbox`, however the reads
are split; and exactly when `wait_for_disconnect` stops its endpoints. -/
theorem read_string_ends_iff (len : ℕ) (inbox : Bytes) (splits : ℕ → ℕ) :
    ((∃ n, readString true (turns splits n) len inbox ≠ .waiting) ↔ len ≤ inbox.length) ∧ ∀ k t,
      ((∃ n, ∀ e ∈ (tcpWaitForDisconnect true (turns splits n) t inbox (List.replicate (k + 1) .running)).1, e = .exited) ↔
        inbox ≠ []) ∧
      ((∃ n, ∀ e ∈ rdmaWaitForDisconnect true (turns splits n) inbox (List.replicate (k + 1) .running), e = .stopping) ↔
        inbox ≠ []) := by
  refine ⟨readString_ends_iff true len inbox splits, fun k t => ?_⟩
  have hmem : Status.running ∈ List.replicate (k + 1) Status.running := List.mem_replicate.mpr ⟨Nat.succ_ne_zero k, rfl⟩
  rcases readString_farewell true inbox splits with ⟨hne, s, rest, ts, hread⟩ | ⟨rfl, hwait⟩
  · refine ⟨⟨fun _ => hne, fun _ => ⟨1, ?_⟩⟩, ⟨fun _ => hne, fun _ => ⟨1, ?_⟩⟩⟩
    · rw [tcpWaitForDisconnect, hread]
      intro e he
      obtain ⟨e', -, rfl⟩ := List.mem_map.mp he
      rfl
    · rw [rdmaWaitForDisconnect, hread]
      intro e he
      obtain ⟨e', -, rfl⟩ := List.mem_map.mp he
      rfl
  · refine ⟨⟨?_, fun h => absurd rfl h⟩, ⟨?_, fun h => absurd rfl h⟩⟩
    · rintro ⟨n, hn⟩
      rw [tcpWaitForDisconnect, hwait n] at hn
      exact absurd (hn _ hmem) (by decide)
    · rintro ⟨n, hn⟩
      rw [rdmaWaitForDisconnect, hwait n] at hn
      exact absurd (hn _ hmem) (by decide)

/-- **A peer that closes the connection without a farewell**: the loop never ends, and the endpoints keep running. -/
theorem read_string_hangs :
    (¬ ∃ n, readString true (turns (fun _ => 0) n) 1 [] ≠ .waiting) ∧
      (∀ n, (tcpWaitForDisconnect true (turns (fun _ => 0) n) (.moves 0) [] [.running]).1 = [.running]) ∧
      ∀ n, rdmaWaitForDisconnect true (turns (fun _ => 0) n) [] [.running] = [.running] := by
  have hwait : ∀ n, readString true (turns (fun _ => 0) n) 1 [] = .waiting :=
    fun n => readLoop_waits true (moving_turns _ n) Nat.one_pos
  refine ⟨fun ⟨n, hn⟩ => hn (hwait n), fun n => ?_, fun n => ?_⟩
  · rw [tcpWaitForDisconnect, hwait n]
  · rw [rdmaWaitForDisconnect, hwait n]

end DShuffle.Trans.Socket
