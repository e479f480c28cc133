import NetBricks.Lib.Ranges
import NetBricks.State.ReorderedRing
import NetBricks.State.RingFifo

/-!
# Out-of-order placement in a ring

`write_at_offset_from_tail` of `src/framework/src/state/ring_buffer.rs` puts bytes behind
the tail, `seek_tail` makes them readable once the gaps are filled. What the two are for
is `reassemble`: a queue of unread bytes, and the ranges behind it, counted from the tail,
of which the bytes are there. A ring whose unread bytes fit (`available() <= size - 1`)
follows it for every list of placements and reads (`place_simulates`): a placement stores
what fits into the free space, in any order and with any overlap, and leaves the unread
bytes alone. Ranges that cover the first `n` places are as good as one write at the tail
(`Reassembles.seekTail`).

The bytes that are placed are those of one stream, whose byte `i` belongs at offset `i`
from the tail. The tail does not move while bytes are placed and read.
-/

namespace NetBricks.State

open Lib
open Lib.Outcome

/-! ## Reachable rings -/

/-- A call of a public function of a ring. -/
inductive RingCall where
  | inOrder (op : RingOp)
  | writeAtOffsetFromTail (offset : Nat) (data : List UInt8)
  | seekTail (incrementBy : Nat)
  | writeAtOffset (offset : Nat) (data : List UInt8)
  | readFromOffset (offset : Nat) (data : List UInt8)

namespace RingBuffer

/-- Make a call. `write_at_offset` and `read_from_offset` are `wrapped_write` and
`wrapped_read`. -/
def call (rb : RingBuffer) : RingCall → Outcome (RingResult × RingBuffer)
  | .inOrder op => do
    let ((r, _), rb) ← rb.step op
    .ok (r, rb)
  | .writeAtOffsetFromTail offset data => do
    let (n, rb) ← rb.writeAtOffsetFromTail offset data
    .ok (.written n, rb)
  | .seekTail incrementBy => .ok (.unit, rb.seekTail incrementBy)
  | .writeAtOffset offset data => do
    let (n, rb) ← rb.wrappedWrite offset data
    .ok (.written n, rb)
  | .readFromOffset offset data => do
    let (n, data) ← rb.wrappedRead offset data
    .ok (.read n data, rb)

/-- The ring is what calls have made of a new one. -/
def Reachable (rb : RingBuffer) : Prop :=
  ∃ bytes rb₀ calls rs, bytes < 2 ^ 64 ∧ new bytes = .ok (.ok rb₀) ∧
    runOps call rb₀ calls = .ok (rs, rb)

namespace Counted

variable {k : Nat} {rb rb' : RingBuffer}

theorem of_readFromHeadWithIncrement {r : Nat × List UInt8} {data : List UInt8} {increment : Nat}
    (hc : Counted k rb) (h : rb.readFromHeadWithIncrement data increment = .ok (r, rb')) :
    Counted k rb' := by
  unfold readFromHeadWithIncrement at h
  obtain ⟨slice, -, h⟩ := bind_eq_ok.mp h
  obtain ⟨read, -, h⟩ := bind_eq_ok.mp h
  cases h
  exact ⟨hc.counters _ _, wrappingAdd_lt _ _ _, hc.tail_lt⟩

theorem of_seekHead {seek : Nat} (hc : Counted k rb) (h : rb.seekHead seek = .ok rb') :
    Counted k rb' := by
  unfold seekHead at h
  obtain ⟨-, -, h⟩ := bind_eq_ok.mp h
  cases h
  exact ⟨hc.counters _ _, wrappingAdd_lt _ _ _, hc.tail_lt⟩

theorem of_wrappedWrite_offset {n offset : Nat} {data : List UInt8} (hc : Counted k rb)
    (h : rb.wrappedWrite offset data = .ok (n, rb')) : Counted k rb' := by
  have hlt : offset < 2 ^ k := by
    unfold wrappedWrite at h
    obtain ⟨_, hcheck, -⟩ := bind_eq_ok.mp h
    rw [← hc.size_eq]
    exact check_eq_ok.mp hcheck
  rw [← Nat.mod_eq_of_lt hlt] at h
  exact (hc.of_wrappedWrite h).1

theorem of_step {r : RingResult × Nat} {op : RingOp} (hc : Counted k rb)
    (h : rb.step op = .ok (r, rb')) : Counted k rb' := by
  cases op with
  | writeAtTail data =>
    obtain ⟨⟨n, rb₁⟩, hwrite, h⟩ := bind_eq_ok.mp h
    cases h
    exact (hc.of_writeAtTail hwrite).1
  | readFromHead data =>
    obtain ⟨⟨⟨n, out⟩, rb₁⟩, hread, h⟩ := bind_eq_ok.mp h
    cases h
    exact (hc.of_readFromHead hread).1
  | readFromHeadWithIncrement data increment =>
    obtain ⟨⟨⟨n, out⟩, rb₁⟩, hread, h⟩ := bind_eq_ok.mp h
    cases h
    exact hc.of_readFromHeadWithIncrement hread
  | seekHead seek =>
    obtain ⟨rb₁, hseek, h⟩ := bind_eq_ok.mp h
    cases h
    exact hc.of_seekHead hseek
  | clear =>
    cases h
    exact ⟨hc.counters 0 0, Nat.two_pow_pos 64, Nat.two_pow_pos 64⟩

/-- Every call keeps the size and the width of the counters. -/
theorem of_call {r : RingResult} {c : RingCall} (hc : Counted k rb)
    (h : rb.call c = .ok (r, rb')) : Counted k rb' := by
  cases c with
  | inOrder op =>
    obtain ⟨⟨⟨r₁, available⟩, rb₁⟩, hstep, h⟩ := bind_eq_ok.mp h
    cases h
    exact hc.of_step hstep
  | writeAtOffsetFromTail offset data =>
    obtain ⟨⟨n, rb₁⟩, hwrite, h⟩ := bind_eq_ok.mp h
    cases h
    exact (hc.of_writeAtOffset hwrite).1
  | seekTail incrementBy =>
    cases h
    exact hc.seekTail incrementBy
  | writeAtOffset offset data =>
    obtain ⟨⟨n, rb₁⟩, hwrite, h⟩ := bind_eq_ok.mp h
    cases h
    exact hc.of_wrappedWrite_offset hwrite
  | readFromOffset offset data =>
    obtain ⟨⟨n, out⟩, -, h⟩ := bind_eq_ok.mp h
    cases h
    exact hc

end Counted

theorem Reachable.counted {rb : RingBuffer} (h : rb.Reachable) : ∃ k, Counted k rb := by
  obtain ⟨bytes, rb₀, calls, rs, hbytes, hnew, hrun⟩ := h
  obtain ⟨k, hat, -⟩ := geom_of_new hbytes hnew
  exact ⟨k, runOps_keeps (fun _ _ _ _ hc hcall => hc.of_call hcall) hat.counted hrun⟩

end RingBuffer

/-! ## Reassembly -/

/-- `len` bytes of a stream from `offset` on. -/
def streamBytes (stream : Nat → UInt8) (offset len : Nat) : List UInt8 :=
  (List.range len).map fun i => stream (offset + i)

theorem length_streamBytes (stream : Nat → UInt8) (offset len : Nat) :
    (streamBytes stream offset len).length = len := by
  rw [streamBytes, List.length_map, List.length_range]

theorem getElem?_streamBytes (stream : Nat → UInt8) {offset len i : Nat} (hi : i < len) :
    (streamBytes stream offset len)[i]? = some (stream (offset + i)) := by
  rw [streamBytes, List.getElem?_map, List.getElem?_range hi, Option.map_some]

/-- Bytes of the stream are placed behind the tail, or unread bytes are read. -/
inductive PlaceOp where
  | place (offset len : Nat)
  | readFromHead (data : List UInt8)
  | readFromHeadWithIncrement (data : List UInt8) (increment : Nat)

/-- The same calls on the ring. -/
def RingBuffer.place (stream : Nat → UInt8) (rb : RingBuffer) :
    PlaceOp → Outcome (RingResult × RingBuffer)
  | .place offset len => do
    let (n, rb) ← rb.writeAtOffsetFromTail offset (streamBytes stream offset len)
    .ok (.written n, rb)
  | .readFromHead data => do
    let ((n, data), rb) ← rb.readFromHead data
    .ok (.read n data, rb)
  | .readFromHeadWithIncrement data increment => do
    let ((n, data), rb) ← rb.readFromHeadWithIncrement data increment
    .ok (.read n data, rb)

/-- The unread bytes, and the ranges behind them that have been stored, by their offsets
from the tail. -/
structure Reassembly where
  unread : List UInt8
  stored : List (Nat × Nat)

/-- A placement stores the bytes that fit; a read takes unread bytes only. -/
def reassemble (cap : Nat) (a : Reassembly) : PlaceOp → RingResult × Reassembly
  | .place offset len =>
    let n := min len (cap - a.unread.length - offset)
    (.written n, { a with stored := (offset, n) :: a.stored })
  | .readFromHead data =>
    let (r, unread) := fifoRead a.unread data data.length
    (r, { a with unread := unread })
  | .readFromHeadWithIncrement data increment =>
    let (r, unread) := fifoRead a.unread data increment
    (r, { a with unread := unread })

/-- The unread bytes of the ring are these, and in the stored ranges behind them lie the
bytes of the stream. -/
def Reassembles (k : Nat) (stream : Nat → UInt8) (rb : RingBuffer) (a : Reassembly) : Prop :=
  ∃ h t, RingBuffer.At k h t rb ∧ a.unread = window rb.vec h (t - h) ∧
    ∀ o, Covered a.stored o → o < 2 ^ k - 1 - (t - h) ∧ cell rb.vec (t + o) = some (stream o)

theorem Reassembles.represents {k : Nat} {stream : Nat → UInt8} {rb : RingBuffer} {a : Reassembly}
    (hr : Reassembles k stream rb a) : Represents k rb a.unread := by
  obtain ⟨h, t, ha, hunread, -⟩ := hr
  exact ⟨h, t, ha, hunread⟩

/-- A placement stores what fits and changes nothing else. -/
theorem Reassembles.place {k : Nat} {stream : Nat → UInt8} {rb : RingBuffer} {a : Reassembly}
    (hr : Reassembles k stream rb a) (offset len : Nat) :
    ∃ rb', rb.writeAtOffsetFromTail offset (streamBytes stream offset len) =
        .ok (min len (2 ^ k - 1 - a.unread.length - offset), rb') ∧
      Reassembles k stream rb' { a with
        stored := (offset, min len (2 ^ k - 1 - a.unread.length - offset)) :: a.stored } := by
  obtain ⟨h, t, ha, hunread, hstored⟩ := hr
  have hroom := ha.room
  have hle := ha.le
  have hv := ha.length_vec
  have hsize := Nat.two_pow_pos k
  obtain ⟨rb', hwrite, ha', hcell⟩ :=
    RingBuffer.writeAtOffsetFromTail_at ha offset (streamBytes stream offset len)
  have hv' := ha'.length_vec
  rw [length_streamBytes] at hwrite hcell
  rw [hunread, ha.length_window]
  refine ⟨rb', hwrite, h, t, ha', ?_, ?_⟩
  · exact window_congr (by omega) (by omega) fun i hi => by
      rw [hcell _ (by omega) (by omega), if_neg (by omega)]
  · intro o ho
    rcases covered_cons.mp ho with hnew | hold
    · obtain ⟨hlo, hhi⟩ := hnew
      dsimp only at hlo hhi
      refine ⟨by omega, ?_⟩
      rw [hcell _ (by omega) (by omega), if_pos (by omega), getElem?_streamBytes _ (by omega)]
      congr 2
      omega
    · obtain ⟨hfree, hbyte⟩ := hstored o hold
      refine ⟨hfree, ?_⟩
      -- an overlap carries the byte that is there
      rw [hcell _ (by omega) (by omega)]
      by_cases hin : t + offset ≤ t + o ∧
          t + o < t + offset + min len (2 ^ k - 1 - (t - h) - offset)
      · rw [if_pos hin, getElem?_streamBytes _ (by omega)]
        congr 2
        omega
      · rw [if_neg hin, hbyte]

/-- A read leaves what is stored behind the tail. -/
theorem Reassembles.read {k : Nat} {stream : Nat → UInt8} {rb : RingBuffer} {a : Reassembly}
    (hr : Reassembles k stream rb a) (data : List UInt8) (increment : Nat) :
    ∃ rb', rb.readFromHeadWithIncrement data increment =
        .ok ((min a.unread.length data.length, a.unread.take (min a.unread.length data.length) ++
          data.drop (min a.unread.length data.length)), rb') ∧
      Reassembles k stream rb' { a with
        unread := a.unread.drop (min increment (min a.unread.length data.length)) } := by
  obtain ⟨h, t, ha, hunread, hstored⟩ := hr
  have hroom := ha.room
  obtain ⟨ha', hwindow⟩ := ha.advance
    (show min increment (min (t - h) data.length) ≤ t - h by omega)
  rw [hunread, ha.length_window, window_take (by omega)]
  refine ⟨_, RingBuffer.readFromHeadWithIncrement_eq ha data increment, _, t, ha', hwindow.symm, ?_⟩
  intro o ho
  obtain ⟨hfree, hbyte⟩ := hstored o ho
  exact ⟨by omega, hbyte⟩

/-- The ring follows the reassembly call by call. -/
theorem place_simulates (k : Nat) (stream : Nat → UInt8) (rb : RingBuffer) (a : Reassembly)
    (op : PlaceOp) (hr : Reassembles k stream rb a) :
    ∃ rb', rb.place stream op = .ok ((reassemble (2 ^ k - 1) a op).1, rb') ∧
      Reassembles k stream rb' (reassemble (2 ^ k - 1) a op).2 := by
  cases op with
  | place offset len =>
    obtain ⟨rb', hwrite, hr'⟩ := hr.place offset len
    exact ⟨rb', by rw [RingBuffer.place, hwrite]; rfl, hr'⟩
  | readFromHead data =>
    obtain ⟨rb', hread, hr'⟩ := hr.read data data.length
    exact ⟨rb', by rw [RingBuffer.place, RingBuffer.readFromHead, hread]; rfl, hr'⟩
  | readFromHeadWithIncrement data increment =>
    obtain ⟨rb', hread, hr'⟩ := hr.read data increment
    exact ⟨rb', by rw [RingBuffer.place, hread]; rfl, hr'⟩

/-- When the first `n` places are stored, advancing the tail over them is writing them
there. -/
theorem Reassembles.seekTail {k n : Nat} {stream : Nat → UInt8} {rb : RingBuffer} {a : Reassembly}
    (hr : Reassembles k stream rb a) (hall : ∀ o, o < n → Covered a.stored o) :
    rb.writeAtTail (streamBytes stream 0 n) = .ok (n, rb.seekTail n) ∧
      Represents k (rb.seekTail n) (a.unread ++ streamBytes stream 0 n) := by
  have hrep := hr.represents
  obtain ⟨h, t, ha, hunread, hstored⟩ := hr
  have hroom := ha.room
  have hle := ha.le
  have hv := ha.length_vec
  have hsize := Nat.two_pow_pos k
  have hlen := length_streamBytes stream 0 n
  have hfree : n ≤ 2 ^ k - 1 - (t - h) := by
    rcases Nat.eq_zero_or_pos n with rfl | hpos
    · exact Nat.zero_le _
    · have := (hstored (n - 1) (hall _ (by omega))).1
      omega
  have hmin : min n (2 ^ k - 1 - (t - h)) = n := Nat.min_eq_left hfree
  have hwrite := RingBuffer.writeAtTail_eq ha (streamBytes stream 0 n)
  rw [hlen, hmin, List.take_of_length_le (Nat.le_of_eq hlen)] at hwrite
  -- the bytes are there already
  have hsame : blit rb.vec (t % 2 ^ k) (streamBytes stream 0 n) = rb.vec := by
    have hlen' : (blit rb.vec (t % 2 ^ k) (streamBytes stream 0 n)).length = 2 ^ k :=
      RingBuffer.length_write ha t (by omega)
    refine eq_of_cells (hlen'.trans hv.symm) h fun j hj => ?_
    have hcell := @RingBuffer.cell_write k h t rb ha t n (streamBytes stream 0 n) (Nat.le_refl t)
      (Nat.le_of_eq hlen.symm) (by omega) (h + j) (by omega) (by omega)
    rw [List.take_of_length_le (Nat.le_of_eq hlen)] at hcell
    rw [hcell]
    by_cases hin : t ≤ h + j ∧ h + j < t + n
    · have hbyte := (hstored (h + j - t) (hall _ (by omega))).2
      rw [Nat.add_sub_cancel' hin.1] at hbyte
      rw [if_pos hin, getElem?_streamBytes _ (by omega), Nat.zero_add, hbyte]
    · rw [if_neg hin]
  have htail : rb.seekTail n = { rb with tail := (t + n) % 2 ^ 64 } := by
    rw [RingBuffer.seekTail, ha.tail_eq, wrappingAdd_mod]
  rw [hsame, ← htail] at hwrite
  refine ⟨hwrite, ?_⟩
  obtain ⟨rb', hwrite', hrep'⟩ := hrep.writeAtTail (streamBytes stream 0 n)
  rw [hwrite, hunread, ha.length_window, hlen, hmin] at hwrite'
  rw [hunread, ha.length_window, hlen, hmin, List.take_of_length_le (Nat.le_of_eq hlen)] at hrep'
  cases hwrite'
  rw [hunread]
  exact hrep'

/-! ## Every reachable ring -/

namespace RingBuffer

/-- The unread bytes. -/
def unread (rb : RingBuffer) : List UInt8 := window rb.vec rb.head rb.available

/-- The byte of the `i`-th cell from the head on: an unread one for `i < available()`,
then those behind the tail. -/
def fromHead (rb : RingBuffer) (i : Nat) : Option UInt8 := cell rb.vec (rb.head + i)

/-- The first `n` bytes of the data are stored at the offset from the tail, as many as
there is room for, and no other cell has changed. -/
structure Placed (rb : RingBuffer) (offset : Nat) (data : List UInt8) (n : Nat)
    (rb' : RingBuffer) : Prop where
  head_eq : rb'.head = rb.head
  tail_eq : rb'.tail = rb.tail
  written : n = min data.length (rb.size - 1 - rb.available - offset)
  stored : ∀ i, i < rb.size → rb'.fromHead i =
    if rb.available + offset ≤ i ∧ i < rb.available + offset + n then
      data[i - (rb.available + offset)]?
    else rb.fromHead i

theorem Counted.placed {k : Nat} {rb : RingBuffer} (hc : Counted k rb)
    (hroom : rb.available ≤ rb.size - 1) (offset : Nat) (data : List UInt8) :
    ∃ n rb', rb.writeAtOffsetFromTail offset data = .ok (n, rb') ∧ Placed rb offset data n rb' := by
  have hat := hc.at_of_room (Nat.mod_eq_of_lt hc.head_lt).symm (hc.size_eq ▸ hroom)
  obtain ⟨rb', hwrite, -, hcell⟩ := writeAtOffsetFromTail_at hat offset data
  obtain ⟨-, hhead, htail⟩ := hc.of_writeAtOffset hwrite
  rw [Nat.add_sub_cancel_left, ← hc.size_eq] at hwrite hcell
  refine ⟨_, rb', hwrite, hhead, htail, rfl, fun i hi => ?_⟩
  rw [fromHead, fromHead, hhead, hcell _ (by omega) (by omega)]
  by_cases hin : rb.available + offset ≤ i ∧
      i < rb.available + offset + min data.length (rb.size - 1 - rb.available - offset)
  · rw [if_pos hin, if_pos (by omega)]
    congr 1
    omega
  · rw [if_neg hin, if_neg (by omega)]

/-- The unread bytes do not depend on which positions the counters stand for. -/
theorem At.unread_eq {k h t : Nat} {rb : RingBuffer} (ha : At k h t rb) :
    rb.unread = window rb.vec h (t - h) := by
  have hdvd : rb.vec.length ∣ 2 ^ 64 := by
    rw [ha.length_vec]
    exact pow_dvd_pow 2 (Nat.le_of_lt ha.lt)
  rw [unread, available_eq ha, ha.head_eq, window_mod hdvd]

end RingBuffer

theorem Represents.unread_eq {k : Nat} {rb : RingBuffer} {q : List UInt8} (hr : Represents k rb q) :
    rb.unread = q := by
  obtain ⟨h, t, ha, rfl⟩ := hr
  exact ha.unread_eq

theorem Represents.counted {k : Nat} {rb : RingBuffer} {q : List UInt8} (hr : Represents k rb q) :
    rb.Counted k ∧ rb.available ≤ rb.size - 1 := by
  obtain ⟨havailable, hle⟩ := hr.available
  obtain ⟨h, t, ha, -⟩ := hr
  rw [havailable, ha.size_eq]
  exact ⟨ha.counted, hle⟩

/-- **Out-of-order placement.** From every reachable ring whose unread bytes fit, any list of
placements and reads returns what the reassembly returns and leaves its unread bytes. The
next placement stores what fits and changes no other cell. When the ranges stored so far
cover the first `n` places, `seek_tail` gives the ring that one `write_at_tail` of the first
`n` bytes of the stream gives, and reads return them behind the unread bytes. -/
theorem ring_reassembles {rb : RingBuffer} (hreach : rb.Reachable)
    (hroom : rb.available ≤ rb.size - 1) (stream : Nat → UInt8) (ops : List PlaceOp) :
    ∃ rb', runOps (RingBuffer.place stream) rb ops =
        .ok ((runSpec (reassemble (rb.size - 1)) ⟨rb.unread, []⟩ ops).1, rb') ∧
      rb'.unread = (runSpec (reassemble (rb.size - 1)) ⟨rb.unread, []⟩ ops).2.unread ∧
      (∀ offset data, ∃ n rb'', rb'.writeAtOffsetFromTail offset data = .ok (n, rb'') ∧
        rb'.Placed offset data n rb'') ∧
      ∀ n, (∀ o, o < n →
          Covered (runSpec (reassemble (rb.size - 1)) ⟨rb.unread, []⟩ ops).2.stored o) →
        rb'.writeAtTail (streamBytes stream 0 n) = .ok (n, rb'.seekTail n) ∧
        ∀ data, ∃ m rb'', (rb'.seekTail n).readFromHead data =
            .ok ((m, (rb'.unread ++ streamBytes stream 0 n).take m ++ data.drop m), rb'') ∧
          m = min (rb'.available + n) data.length := by
  obtain ⟨k, hc⟩ := hreach.counted
  have hat := hc.at_of_room (Nat.mod_eq_of_lt hc.head_lt).symm (hc.size_eq ▸ hroom)
  have hstart : Reassembles k stream rb ⟨rb.unread, []⟩ :=
    ⟨_, _, hat, hat.unread_eq, fun o ho => by
      obtain ⟨r, hr, -⟩ := ho
      cases hr⟩
  obtain ⟨rb', hrun, hr'⟩ := runOps_simulates
    (fun rb a op hr _ => place_simulates k stream rb a op hr) ops hstart
    (legalRun_of_forall ops _ fun _ _ => trivial)
  rw [hc.size_eq]
  generalize runSpec (reassemble (2 ^ k - 1)) ⟨rb.unread, []⟩ ops = final at hrun hr' ⊢
  have hunread := hr'.represents.unread_eq
  obtain ⟨hc', hroom'⟩ := hr'.represents.counted
  refine ⟨rb', hrun, hunread, fun offset data => hc'.placed hroom' offset data, fun n hall => ?_⟩
  obtain ⟨hwrite, hrep⟩ := hr'.seekTail hall
  refine ⟨hwrite, fun data => ?_⟩
  obtain ⟨rb'', hread, -⟩ := hrep.read data data.length
  rw [List.length_append, length_streamBytes, ← hr'.represents.available.1, ← hunread] at hread
  exact ⟨_, rb'', hread, rfl⟩

/-- Two unread bytes in the last cells but one of a ring of eight. -/
def lateRing : RingBuffer :=
  { head := 5, tail := 7, size := 8, mask := 7, vec := [9, 9, 9, 9, 9, 1, 2, 0] }

theorem reachable_lateRing : lateRing.Reachable :=
  ⟨8, { head := 0, tail := 0, size := 8, mask := 7, vec := List.replicate 8 0 },
    [.inOrder (.writeAtTail [9, 9, 9, 9, 9]), .inOrder (.readFromHead [0, 0, 0, 0, 0]),
      .inOrder (.writeAtTail [1, 2])], _, by decide, rfl, rfl⟩

/-- Bytes placed on both sides of the end of the vector, the later ones first and two of
them twice; what goes beyond the free space is cut off. -/
theorem ring_reassembles_late :
    ∃ rb', runOps (RingBuffer.place UInt8.ofNat) lateRing
        [.place 3 9, .readFromHead [0], .place 0 4, .place 7 1] =
          .ok ([.written 2, .read 1 [1], .written 4, .written 0], rb') ∧
      rb'.unread = [2] ∧
      rb'.writeAtTail [0, 1, 2, 3, 4] = .ok (5, rb'.seekTail 5) := by
  obtain ⟨rb', hrun, hunread, -, hseek⟩ := ring_reassembles reachable_lateRing (by decide)
    UInt8.ofNat [.place 3 9, .readFromHead [0], .place 0 4, .place 7 1]
  refine ⟨rb', hrun, hunread, (hseek 5 ?_).1⟩
  intro o ho
  by_cases hfirst : o < 4
  · exact ⟨(0, 4), by decide, Nat.zero_le _, by omega⟩
  · exact ⟨(3, 2), by decide, by omega, by omega⟩

end NetBricks.State
