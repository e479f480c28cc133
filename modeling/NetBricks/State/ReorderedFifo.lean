import NetBricks.State.ReorderedBuffer
import NetBricks.State.RingFifo

/-!
# `ReorderedBuffer` in order is a bounded FIFO

As long as data arrives in order, a reassembly buffer has nothing to reassemble:
it is a queue of bytes of fixed capacity, and a sequence number that counts what
went in. `Inbox` is that: the unread bytes and the next sequence number. `deliver`
cuts off what is old, stores what fits and counts it; `take` hands out the oldest
bytes.

A call in order (`InOrder`) starts at the tail, or before it and ends behind it. The
first kind goes through `fast_path_insert`, and the tail's sequence number is the
count modulo `2 ^ 32`: data at the tail may pass the wrap. The second kind is up to
`slow_path_insert`, which compares the end of the data with the tail as plain numbers.
Data that ends at exactly `2 ^ 32` has the end `0` there, below every tail, and is
taken for old: its new bytes are dropped (`addData_of_wraps`). That is the
only way for a run in order to leave the inbox (`reorderedBuffer_refines_inbox`).
-/

namespace NetBricks.State

open Lib
open Lib.Outcome

/-! ## The abstract queue -/

/-- The unread bytes, and the sequence number of the byte to come. -/
structure Inbox where
  unread : List UInt8
  nextSeq : Nat
  deriving DecidableEq, Repr

namespace Inbox

/-- Bytes from the next sequence number on: those that fit are stored. -/
def append (cap : Nat) (q : Inbox) (new : List UInt8) : InsertionResult × Inbox :=
  let written := min new.length (cap - q.unread.length)
  let unread := q.unread ++ new.take written
  (if written = new.length then .inserted written unread.length
    else .outOfMemory written unread.length,
   { unread := unread, nextSeq := (q.nextSeq + written) % 2 ^ 32 })

/-- Bytes from `seq` on: those before the next sequence number are old. -/
def deliver (cap : Nat) (q : Inbox) (seq : Nat) (data : List UInt8) : InsertionResult × Inbox :=
  q.append cap (data.drop (q.nextSeq - seq))

/-- The oldest bytes, to the front of the caller's buffer. -/
def take (q : Inbox) (data : List UInt8) : (Nat × List UInt8) × Inbox :=
  let n := min q.unread.length data.length
  ((n, q.unread.take n ++ data.drop n), { q with unread := q.unread.drop n })

/-- One call. -/
def step (cap : Nat) (q : Inbox) : BufferOp → BufferResult × Inbox
  | .addData seq data =>
    (.insertion (q.deliver cap seq.toNat data).1, (q.deliver cap seq.toNat data).2)
  | .readData data => (.read (q.take data).1.1 (q.take data).1.2, (q.take data).2)

/-- Nothing received yet; `seq` comes first. -/
def start (seq : Nat) : Inbox := { unread := [], nextSeq := seq }

/-- Data with something new in it is never reported as all old. -/
theorem deliver_ne_old (cap : Nat) (q : Inbox) {seq : Nat} {data : List UInt8}
    (hbehind : q.nextSeq - seq < data.length) (available : Nat) :
    (q.deliver cap seq data).1 ≠ .inserted 0 available := by
  unfold deliver append
  dsimp only
  have hnew : 0 < (data.drop (q.nextSeq - seq)).length := by
    rw [List.length_drop]
    omega
  split
  next hall =>
    intro h
    injection h with h
    omega
  next => exact fun h => nomatch h

end Inbox

namespace ReorderedBuffer

/-- The calls the comparison is about: data that starts at the tail, or that starts before
it, ends behind it and does not pass `2 ^ 32`. The end is the number of the byte to come
after the data, so data whose last byte has the number `2 ^ 32 - 1` does not pass it. -/
def InOrder (b : ReorderedBuffer) : BufferOp → Prop
  | .addData seq data => seq.toNat = b.tailSeq ∨
      (seq.toNat < b.tailSeq ∧ b.tailSeq < seq.toNat + data.length ∧
        seq.toNat + data.length ≤ 2 ^ 32)
  | .readData _ => True

/-- Data from before the tail does not end at exactly `2 ^ 32`, where the end that
`slow_path_insert` computes in 32 bits is `0`. -/
def EndUnwrapped (b : ReorderedBuffer) : BufferOp → Prop
  | .addData seq data => seq.toNat < b.tailSeq → seq.toNat + data.length ≠ 2 ^ 32
  | .readData _ => True

/-! ## The representation -/

/-- A connected buffer that holds the inbox: the unread bytes of the ring are those of the
inbox, and the next number it expects is the tail. Nothing is said of `head_seq` and of the
list, which the calls that stay in this state do not read. -/
structure Follows (k : Nat) (b : ReorderedBuffer) (q : Inbox) : Prop where
  connected : b.state = .connected
  ring : Represents k b.data q.unread
  tailSeq_eq : b.tailSeq = q.nextSeq

theorem Follows.fastPathInsert {k : Nat} {b : ReorderedBuffer} {q : Inbox} (h : Follows k b q)
    (new : List UInt8) :
    ∃ b', b.fastPathInsert new = .ok ((q.append (2 ^ k - 1) new).1, b') ∧
      Follows k b' (q.append (2 ^ k - 1) new).2 := by
  obtain ⟨ring, hwrite, hring⟩ := h.ring.writeAtTail new
  unfold ReorderedBuffer.fastPathInsert Inbox.append
  rw [hwrite, bind_ok]
  dsimp only
  generalize min new.length (2 ^ k - 1 - q.unread.length) = written at hring
  have htail : wrappingAdd 32 b.tailSeq (truncate 32 written) = (q.nextSeq + written) % 2 ^ 32 := by
    unfold wrappingAdd truncate
    rw [h.tailSeq_eq, Nat.add_mod_mod]
  have havail : ring.available = (q.unread ++ new.take written).length := hring.available.1
  refine ⟨{ b with data := ring, tailSeq := wrappingAdd 32 b.tailSeq (truncate 32 written) }, ?_,
    h.connected, hring, htail⟩
  unfold report ReorderedBuffer.available
  dsimp only
  rw [havail]

/-- A delivery in order whose end does not wrap. -/
theorem Follows.addData {k : Nat} {b : ReorderedBuffer} {q : Inbox} (h : Follows k b q)
    {seq : UInt32} {data : List UInt8} (hin : b.InOrder (.addData seq data))
    (hend : b.EndUnwrapped (.addData seq data)) (fuel : Nat) :
    ∃ b', b.addData fuel seq.toNat data = .ok ((q.deliver (2 ^ k - 1) seq.toNat data).1, b') ∧
      Follows k b' (q.deliver (2 ^ k - 1) seq.toNat data).2 := by
  have htail := h.tailSeq_eq
  obtain ⟨b', hins, h'⟩ := h.fastPathInsert (data.drop (q.nextSeq - seq.toNat))
  refine ⟨b', ?_, h'⟩
  unfold ReorderedBuffer.addData Inbox.deliver
  rw [h.connected]
  dsimp only
  rcases hin with hat | ⟨hbefore, hbehind, hle⟩
  · -- at the tail: nothing is old
    rw [if_pos hat]
    rwa [show q.nextSeq - seq.toNat = 0 by omega, List.drop_zero] at hins ⊢
  · -- before the tail: the front of the data is cut off
    have hwrap : seq.toNat + data.length < 2 ^ 32 := Nat.lt_of_le_of_ne hle (hend hbefore)
    have hstop : wrappingAdd 32 seq.toNat (truncate 32 data.length) = seq.toNat + data.length := by
      rw [truncate_of_lt (by omega), wrappingAdd_of_lt hwrap]
    rw [if_neg (by omega)]
    unfold slowPathInsert
    dsimp only
    rw [hstop, if_pos ⟨hbefore, hbehind⟩, checkedSub_of_le (by omega), bind_ok,
      sliceFrom_of_le (by omega), bind_ok, htail]
    exact hins

/-- Data from before the tail that ends at exactly `2 ^ 32` is reported as all old, with
nothing stored. -/
theorem addData_of_wraps {b : ReorderedBuffer} (hconn : b.state = .connected) {seq : UInt32}
    {data : List UInt8} (hbefore : seq.toNat < b.tailSeq)
    (hend : seq.toNat + data.length = 2 ^ 32) (fuel : Nat) :
    b.addData fuel seq.toNat data = .ok (.inserted 0 b.available, b) := by
  have hstop : wrappingAdd 32 seq.toNat (truncate 32 data.length) = 0 := by
    unfold wrappingAdd truncate
    rw [Nat.add_mod_mod, hend, Nat.mod_self]
  unfold ReorderedBuffer.addData
  rw [hconn]
  dsimp only
  rw [if_neg (Nat.ne_of_lt hbefore)]
  unfold slowPathInsert
  dsimp only
  rw [hstop, if_neg (fun h => Nat.not_lt_zero _ h.2), if_pos (Nat.zero_lt_of_lt hbefore)]

theorem Follows.readData {k : Nat} {b : ReorderedBuffer} {q : Inbox} (h : Follows k b q)
    (data : List UInt8) (fuel : Nat) :
    ∃ b', b.readData fuel data = .ok ((q.take data).1, b') ∧ Follows k b' (q.take data).2 := by
  obtain ⟨ring, hread, hring⟩ := h.ring.read data data.length
  rw [Nat.min_eq_right (Nat.min_le_right q.unread.length data.length)] at hring
  unfold ReorderedBuffer.readData readDataCommon RingBuffer.readFromHead
  rw [h.connected]
  dsimp only
  rw [hread, bind_ok]
  exact ⟨_, rfl, rfl, hring, h.tailSeq_eq⟩

/-! ## Whole runs -/

/-- Every call in order whose end does not wrap follows the inbox. -/
theorem step_follows (k fuel : Nat) (b : ReorderedBuffer) (q : Inbox) (op : BufferOp)
    (h : Follows k b q) (hin : b.InOrder op) (hend : b.EndUnwrapped op) :
    ∃ b', b.step fuel op = .ok ((q.step (2 ^ k - 1) op).1, b') ∧
      Follows k b' (q.step (2 ^ k - 1) op).2 := by
  cases op with
  | addData seq data =>
    obtain ⟨b', hadd, h'⟩ := h.addData hin hend fuel
    refine ⟨b', ?_, h'⟩
    rw [ReorderedBuffer.step, hadd]
    rfl
  | readData data =>
    obtain ⟨b', hread, h'⟩ := h.readData data fuel
    refine ⟨b', ?_, h'⟩
    rw [ReorderedBuffer.step, hread]
    rfl

/-- Every other call in order returns something else than the inbox. -/
theorem step_not_follows (k fuel : Nat) (b : ReorderedBuffer) (q : Inbox) (op : BufferOp)
    (h : Follows k b q) (hin : b.InOrder op) (hend : ¬ b.EndUnwrapped op) (b' : ReorderedBuffer) :
    b.step fuel op ≠ .ok ((q.step (2 ^ k - 1) op).1, b') := by
  cases op with
  | readData data => exact absurd trivial hend
  | addData seq data =>
    obtain ⟨hbefore, hwrap⟩ := Classical.not_imp.mp hend
    have hend := Classical.not_not.mp hwrap
    have hbehind : q.nextSeq - seq.toNat < data.length := by
      rcases hin with hat | ⟨-, hlt, -⟩
      · omega
      · rw [← h.tailSeq_eq]
        omega
    rw [ReorderedBuffer.step, addData_of_wraps h.connected hbefore hend]
    intro hret
    injection hret with hret
    injection hret with hres
    injection hres with hres
    exact Inbox.deliver_ne_old _ q hbehind _ hres.symm

/-- A new buffer of a power of two bytes, and `seq` on it. -/
theorem follows_seq {k : Nat} (hk : k < 64) (seq0 : UInt32) (data : List UInt8) :
    ∃ b b₁, new (2 ^ k) = .ok (.ok b) ∧
      b.seq seq0.toNat data = .ok (((Inbox.start seq0.toNat).append (2 ^ k - 1) data).1, b₁) ∧
      Follows k b₁ ((Inbox.start seq0.toNat).append (2 ^ k - 1) data).2 := by
  obtain ⟨rb, hring, hrep⟩ := represents_new hk
  have hnew : ∃ b, new (2 ^ k) = .ok (.ok b) ∧ b.data = rb ∧ b.state = .closed := by
    unfold new newWithSegments
    dsimp only
    rw [roundToPowerOf2_two_pow hk, hring]
    exact ⟨_, rfl, rfl, rfl⟩
  obtain ⟨b, hnew, rfl, hclosed⟩ := hnew
  have hstart : Follows k
      { b with state := .connected, headSeq := seq0.toNat, tailSeq := seq0.toNat }
      (Inbox.start seq0.toNat) := ⟨rfl, hrep, rfl⟩
  obtain ⟨b₁, hins, h₁⟩ := hstart.fastPathInsert data
  refine ⟨b, b₁, hnew, ?_, h₁⟩
  unfold ReorderedBuffer.seq
  rw [hclosed]
  exact hins

/-- **In-order operation is a bounded FIFO**, but for data that ends at exactly `2 ^ 32`. For
every power-of-two size, after `seq` and through a run of reads and of deliveries in order
the buffer is `Connected`, holds exactly the inbox's unread bytes and its sequence number,
and has returned what the inbox returns, if and only if no delivery from before the tail
ends at exactly `2 ^ 32`. -/
theorem reorderedBuffer_refines_inbox {k : Nat} (hk : k < 64) (fuel : Nat) (seq0 : UInt32)
    (data : List UInt8) :
    ∃ b b₁, new (2 ^ k) = .ok (.ok b) ∧
      b.seq seq0.toNat data = .ok (((Inbox.start seq0.toNat).append (2 ^ k - 1) data).1, b₁) ∧
      Follows k b₁ ((Inbox.start seq0.toNat).append (2 ^ k - 1) data).2 ∧
      ∀ ops, Meets (step fuel) InOrder b₁ ops →
        ((∃ b', runOps (step fuel) b₁ ops =
            .ok ((runSpec (Inbox.step (2 ^ k - 1))
              ((Inbox.start seq0.toNat).append (2 ^ k - 1) data).2 ops).1, b') ∧
          Follows k b' (runSpec (Inbox.step (2 ^ k - 1))
            ((Inbox.start seq0.toNat).append (2 ^ k - 1) data).2 ops).2) ↔
        Meets (step fuel) EndUnwrapped b₁ ops) := by
  obtain ⟨b, b₁, hnew, hseq, h₁⟩ := follows_seq hk seq0 data
  refine ⟨b, b₁, hnew, hseq, h₁, fun ops hin => ?_⟩
  exact runOps_follows_iff (step_follows k fuel) (step_not_follows k fuel) ops h₁ hin

/-- A stream that passes the wrap, a retransmission with one new byte behind it,
and a read. -/
theorem reorderedBuffer_refines_inbox_wrapped :
    ∃ b b₁ b', new (2 ^ 3) = .ok (.ok b) ∧
      b.seq (4294967294 : UInt32).toNat [1, 2, 3] = .ok (.inserted 3 3, b₁) ∧
      Meets (step 0) InOrder b₁ [.addData 1 [4, 5], .addData 2 [5, 6], .readData [0, 0, 0, 0]] ∧
      runOps (step 0) b₁ [.addData 1 [4, 5], .addData 2 [5, 6], .readData [0, 0, 0, 0]] =
        .ok ([.insertion (.inserted 2 5), .insertion (.inserted 1 6), .read 4 [1, 2, 3, 4]],
          b') := by
  obtain ⟨b, b₁, hnew, hseq, -, hiff⟩ :=
    reorderedBuffer_refines_inbox (show 3 < 64 by decide) 0 4294967294 [1, 2, 3]
  have hin : Meets (step 0) InOrder b₁
      [.addData 1 [4, 5], .addData 2 [5, 6], .readData [0, 0, 0, 0]] := by
    cases hnew
    cases hseq
    refine Meets.cons (Or.inl rfl) rfl (Meets.cons (Or.inr ?_) rfl (Meets.cons trivial rfl trivial))
    exact ⟨by decide, by decide, by decide⟩
  have hend : Meets (step 0) EndUnwrapped b₁
      [.addData 1 [4, 5], .addData 2 [5, 6], .readData [0, 0, 0, 0]] := by
    cases hnew
    cases hseq
    refine Meets.cons ?_ rfl (Meets.cons ?_ rfl (Meets.cons trivial rfl trivial))
    · exact fun _ => by decide
    · exact fun _ => by decide
  obtain ⟨b', hrun, -⟩ := (hiff _ hin).mpr hend
  exact ⟨b, b₁, b', hnew, hseq, hin, hrun⟩

/-- Eight bytes, the numbers `2 ^ 32 - 4` and `2 ^ 32 - 3` received, and a retransmission from
`2 ^ 32 - 3` on with two new bytes: the call is in order, the inbox stores both, the buffer
drops them and reports `Inserted`. -/
theorem reorderedBuffer_drops_last_bytes :
    ∃ b b₁, new 8 = .ok (.ok b) ∧
      b.seq (4294967292 : UInt32).toNat [1, 2] = .ok (.inserted 2 2, b₁) ∧
      b₁.InOrder (.addData 4294967293 [2, 3, 4]) ∧
      b₁.step 0 (.addData 4294967293 [2, 3, 4]) = .ok (.insertion (.inserted 0 2), b₁) ∧
      (Inbox.step 7 ((Inbox.start 4294967292).append 7 [1, 2]).2
        (.addData 4294967293 [2, 3, 4])).1 = .insertion (.inserted 2 4) := by
  refine ⟨_, _, rfl, rfl, .inr ⟨?_, ?_, ?_⟩, rfl, rfl⟩
  · decide
  · decide
  · decide

end ReorderedBuffer

end NetBricks.State
