import NetBricks.State.RingBuffer
import NetBricks.Lib.Machine

/-!
# `RingBuffer` refines a bounded FIFO

What a ring buffer is *for*: a first-in first-out queue of bytes with a fixed
capacity. `fifoStep` says that over plain lists — no counters, no mask, no
wrap. `Represents k rb q` ties a ring of `2 ^ k` cells to the list `q` of its
unread bytes: the counters stand for true positions `h ≤ t`, and `q` is the
window of cells between them. Each operation keeps the relation
(`step_simulates`), so whole runs return what the list program returns
(`ringBuffer_refines_fifo`).

The true positions never wrap; the `usize` counters hold them modulo `2 ^ 64`,
so nothing bounds the length of a run. A power-of-two size divides `2 ^ 64`,
which is why the masked index survives the counter wrap.
-/

namespace NetBricks.State

open Lib
open Lib.Outcome

/-- The operations of the in-order interface. The byte lists of the reads are
the caller's buffers. -/
inductive RingOp where
  | writeAtTail (data : List UInt8)
  | readFromHead (data : List UInt8)
  | readFromHeadWithIncrement (data : List UInt8) (increment : Nat)
  | seekHead (seek : Nat)
  | clear
  deriving DecidableEq, Repr

/-- What an operation returns. -/
inductive RingResult where
  | written (n : Nat)
  | read (n : Nat) (data : List UInt8)
  | unit
  deriving DecidableEq, Repr

/-- One operation on the ring, with `available()` as it is afterwards. -/
def RingBuffer.step (rb : RingBuffer) : RingOp → Outcome ((RingResult × Nat) × RingBuffer)
  | .writeAtTail data => do
    let (n, rb) ← rb.writeAtTail data
    .ok ((.written n, rb.available), rb)
  | .readFromHead data => do
    let ((n, data), rb) ← rb.readFromHead data
    .ok ((.read n data, rb.available), rb)
  | .readFromHeadWithIncrement data increment => do
    let ((n, data), rb) ← rb.readFromHeadWithIncrement data increment
    .ok ((.read n data, rb.available), rb)
  | .seekHead seek => do
    let rb ← rb.seekHead seek
    .ok ((.unit, rb.available), rb)
  | .clear => .ok ((.unit, rb.clear.available), rb.clear)

/-! ## The abstract queue -/

/-- Append what fits. -/
def fifoWrite (cap : Nat) (q data : List UInt8) : RingResult × List UInt8 :=
  let n := min data.length (cap - q.length)
  (.written n, q ++ data.take n)

/-- Return the oldest bytes and drop the first `increment` of them. -/
def fifoRead (q data : List UInt8) (increment : Nat) : RingResult × List UInt8 :=
  let n := min q.length data.length
  (.read n (q.take n ++ data.drop n), q.drop (min increment n))

/-- The bounded FIFO of capacity `cap`, with its length after the operation. -/
def fifoStep (cap : Nat) (q : List UInt8) (op : RingOp) : (RingResult × Nat) × List UInt8 :=
  let (r, q') := match op with
    | .writeAtTail data => fifoWrite cap q data
    | .readFromHead data => fifoRead q data data.length
    | .readFromHeadWithIncrement data increment => fifoRead q data increment
    | .seekHead seek => (.unit, q.drop seek)
    | .clear => (.unit, [])
  ((r, q'.length), q')

/-- The one obligation on the caller: seek within the unread bytes. -/
def fifoLegal (q : List UInt8) : RingOp → Prop
  | .seekHead seek => seek ≤ q.length
  | _ => True

instance (q : List UInt8) : (op : RingOp) → Decidable (fifoLegal q op)
  | .seekHead seek => inferInstanceAs (Decidable (seek ≤ q.length))
  | .writeAtTail _ => isTrue trivial
  | .readFromHead _ => isTrue trivial
  | .readFromHeadWithIncrement _ _ => isTrue trivial
  | .clear => isTrue trivial

/-! ## The representation -/

/-- The ring's unread bytes are `q`: the cells from the position of the next byte to read up to
that of the next byte to write, wherever these lie in the vector. -/
def Represents (k : Nat) (rb : RingBuffer) (q : List UInt8) : Prop :=
  ∃ h t, RingBuffer.At k h t rb ∧ q = window rb.vec h (t - h)

theorem RingBuffer.At.length_window {k h t : Nat} {rb : RingBuffer} (ha : RingBuffer.At k h t rb) :
    (window rb.vec h (t - h)).length = t - h := by
  have := ha.room
  have := ha.length_vec
  exact Lib.length_window (by omega) h

/-- A ring that stores `q` has `q.length` bytes available, below its size. -/
theorem Represents.available {k : Nat} {rb : RingBuffer} {q : List UInt8}
    (hr : Represents k rb q) : rb.available = q.length ∧ q.length ≤ 2 ^ k - 1 := by
  obtain ⟨h, t, ha, rfl⟩ := hr
  rw [ha.length_window, RingBuffer.available_eq ha]
  exact ⟨rfl, ha.room⟩

theorem represents_new {k : Nat} (hk : k < 64) :
    ∃ rb, RingBuffer.new (2 ^ k) = .ok (.ok rb) ∧ Represents k rb [] := by
  refine ⟨_, RingBuffer.new_two_pow k, 0, 0, ?_, ?_⟩
  · exact ⟨⟨hk, rfl, rfl, List.length_replicate⟩, rfl, rfl, Nat.le_refl 0, Nat.zero_le _⟩
  · rfl

/-- Writing at the tail appends the bytes that fit. -/
theorem Represents.writeAtTail {k : Nat} {rb : RingBuffer} {q : List UInt8}
    (hr : Represents k rb q) (data : List UInt8) :
    ∃ rb', rb.writeAtTail data = .ok (min data.length (2 ^ k - 1 - q.length), rb') ∧
      Represents k rb' (q ++ data.take (min data.length (2 ^ k - 1 - q.length))) := by
  obtain ⟨h, t, ha, rfl⟩ := hr
  have hroom := ha.room
  have hle := ha.le
  have hv := ha.length_vec
  rw [ha.length_window]
  obtain ⟨rb', hwrite, ha', hcell⟩ := RingBuffer.writeAtTail_at ha data
  refine ⟨rb', hwrite, h, _, ha', ?_⟩
  have hv' := ha'.length_vec
  generalize hw : min data.length (2 ^ k - 1 - (t - h)) = w at hcell
  have hlen : (data.take w).length = w := List.length_take_of_le (by omega)
  -- the old bytes are untouched, the new ones follow them
  have hgrow := @window_extend _ rb.vec rb'.vec (data.take w) h (t - h) (by omega) (by omega)
    (fun i hi => by rw [hcell _ (by omega) (by omega), if_neg (by omega)])
    (fun i hi => by
      rw [hcell _ (by omega) (by omega), if_pos (by omega), List.getElem?_take_of_lt (by omega)]
      congr 1
      omega)
  rw [← hgrow, hlen]
  congr 1
  omega

/-- Advancing the head drops the oldest bytes. -/
theorem RingBuffer.At.advance {k h t n : Nat} {rb : RingBuffer} (ha : RingBuffer.At k h t rb)
    (hn : n ≤ t - h) : RingBuffer.At k (h + n) t { rb with head := (h + n) % 2 ^ 64 } ∧
      window rb.vec (h + n) (t - (h + n)) = (window rb.vec h (t - h)).drop n := by
  have hroom := ha.room
  have hle := ha.le
  have hv := ha.length_vec
  refine ⟨⟨⟨ha.lt, ha.size_eq, ha.mask_eq, ha.length_vec⟩, rfl, ha.tail_eq, by omega, by omega⟩, ?_⟩
  rw [window_drop (by omega) hn, show t - h - n = t - (h + n) by omega]

theorem Represents.advance {k : Nat} {rb : RingBuffer} {h t n : Nat}
    (ha : RingBuffer.At k h t rb) (hn : n ≤ t - h) :
    Represents k { rb with head := (h + n) % 2 ^ 64 } ((window rb.vec h (t - h)).drop n) :=
  ⟨h + n, t, (ha.advance hn).1, (ha.advance hn).2.symm⟩

/-- A read returns the oldest bytes and drops what the increment says. -/
theorem Represents.read {k : Nat} {rb : RingBuffer} {q : List UInt8}
    (hr : Represents k rb q) (data : List UInt8) (increment : Nat) :
    ∃ rb', rb.readFromHeadWithIncrement data increment =
        .ok ((min q.length data.length,
          q.take (min q.length data.length) ++ data.drop (min q.length data.length)), rb') ∧
      Represents k rb' (q.drop (min increment (min q.length data.length))) := by
  obtain ⟨h, t, ha, rfl⟩ := hr
  rw [ha.length_window, window_take (by omega)]
  exact ⟨_, RingBuffer.readFromHeadWithIncrement_eq ha data increment,
    Represents.advance ha (by omega)⟩

/-- Seeking within the unread bytes drops them. -/
theorem Represents.seekHead {k : Nat} {rb : RingBuffer} {q : List UInt8}
    (hr : Represents k rb q) {seek : Nat} (hs : seek ≤ q.length) :
    ∃ rb', rb.seekHead seek = .ok rb' ∧ Represents k rb' (q.drop seek) := by
  obtain ⟨h, t, ha, rfl⟩ := hr
  rw [ha.length_window] at hs
  refine ⟨{ rb with head := (h + seek) % 2 ^ 64 }, ?_, Represents.advance ha hs⟩
  unfold RingBuffer.seekHead
  rw [check_true (by rw [RingBuffer.available_eq ha]; exact hs), bind_ok, ha.head_eq,
    wrappingAdd_mod]

theorem Represents.clear {k : Nat} {rb : RingBuffer} {q : List UInt8}
    (hr : Represents k rb q) : Represents k rb.clear [] := by
  obtain ⟨h, t, ha, rfl⟩ := hr
  refine ⟨0, 0, ha.clear, ?_⟩
  rfl

/-! ## Whole runs -/

/-- Every operation follows the list program. -/
theorem step_simulates (k : Nat) (rb : RingBuffer) (q : List UInt8) (op : RingOp)
    (hr : Represents k rb q) (hl : fifoLegal q op) :
    ∃ rb', rb.step op = .ok ((fifoStep (2 ^ k - 1) q op).1, rb') ∧
      Represents k rb' (fifoStep (2 ^ k - 1) q op).2 := by
  cases op with
  | writeAtTail data =>
    obtain ⟨rb', hw, hr'⟩ := hr.writeAtTail data
    refine ⟨rb', ?_, hr'⟩
    rw [RingBuffer.step, hw, bind_ok]
    simp only [hr'.available.1]
    rfl
  | readFromHead data =>
    obtain ⟨rb', hw, hr'⟩ := hr.read data data.length
    refine ⟨rb', ?_, hr'⟩
    rw [RingBuffer.step, RingBuffer.readFromHead, hw, bind_ok]
    simp only [hr'.available.1]
    rfl
  | readFromHeadWithIncrement data increment =>
    obtain ⟨rb', hw, hr'⟩ := hr.read data increment
    refine ⟨rb', ?_, hr'⟩
    rw [RingBuffer.step, hw, bind_ok]
    simp only [hr'.available.1]
    rfl
  | seekHead seek =>
    obtain ⟨rb', hw, hr'⟩ := hr.seekHead hl
    refine ⟨rb', ?_, hr'⟩
    rw [RingBuffer.step, hw, bind_ok, hr'.available.1]
    rfl
  | clear =>
    refine ⟨rb.clear, ?_, hr.clear⟩
    rw [RingBuffer.step, hr.clear.available.1]
    rfl

/-- The queue never holds more than its capacity. -/
theorem fifoStep_le (cap : Nat) (q : List UInt8) (op : RingOp) (hq : q.length ≤ cap) :
    (fifoStep cap q op).1.2 ≤ cap ∧ (fifoStep cap q op).2.length ≤ cap := by
  have hlen : (fifoStep cap q op).1.2 = (fifoStep cap q op).2.length := rfl
  rw [hlen, and_self]
  cases op with
  | writeAtTail data =>
    simp only [fifoStep, fifoWrite, List.length_append, List.length_take]
    omega
  | readFromHead data =>
    simp only [fifoStep, fifoRead, List.length_drop]
    omega
  | readFromHeadWithIncrement data increment =>
    simp only [fifoStep, fifoRead, List.length_drop]
    omega
  | seekHead seek =>
    simp only [fifoStep, List.length_drop]
    omega
  | clear => exact Nat.zero_le _

/-- **The ring buffer is a bounded FIFO.** For every power-of-two size and every
run from a fresh ring in which `seek_head` stays within the unread bytes, the
run returns — no assertion fails — with exactly the results and the
`available()` counts of the list program of capacity `2 ^ k - 1`, and those
counts never exceed the capacity. -/
theorem ringBuffer_refines_fifo {k : Nat} (hk : k < 64) (ops : List RingOp)
    (hops : LegalRun (fifoStep (2 ^ k - 1)) fifoLegal [] ops) :
    ∃ rb rb', RingBuffer.new (2 ^ k) = .ok (.ok rb) ∧
      runOps RingBuffer.step rb ops = .ok ((runSpec (fifoStep (2 ^ k - 1)) [] ops).1, rb') ∧
      Represents k rb' (runSpec (fifoStep (2 ^ k - 1)) [] ops).2 ∧
      ∀ r ∈ (runSpec (fifoStep (2 ^ k - 1)) [] ops).1, r.2 ≤ 2 ^ k - 1 := by
  obtain ⟨rb, hnew, hr⟩ := represents_new hk
  obtain ⟨rb', hrun, hr'⟩ := runOps_simulates (step_simulates k) ops hr hops
  have hle := runSpec_forall (I := fun q : List UInt8 => q.length ≤ 2 ^ k - 1)
    (P := fun r : RingResult × Nat => r.2 ≤ 2 ^ k - 1)
    (fun q op hq _ => fifoStep_le (2 ^ k - 1) q op hq) ops (Nat.zero_le _) hops
  exact ⟨rb, rb', hnew, hrun, hr', hle.1⟩

theorem ringBuffer_refines_fifo_four :
    LegalRun (fifoStep (2 ^ 2 - 1)) fifoLegal []
      [.writeAtTail [1, 2, 3, 4], .readFromHeadWithIncrement [0, 0] 1, .seekHead 1] ∧
    ∃ rb rb', RingBuffer.new (2 ^ 2) = .ok (.ok rb) ∧
      runOps RingBuffer.step rb
        [.writeAtTail [1, 2, 3, 4], .readFromHeadWithIncrement [0, 0] 1, .seekHead 1] =
          .ok ([(.written 3, 3), (.read 2 [1, 2], 2), (.unit, 1)], rb') := by
  have hl : LegalRun (fifoStep (2 ^ 2 - 1)) fifoLegal []
      [.writeAtTail [1, 2, 3, 4], .readFromHeadWithIncrement [0, 0] 1, .seekHead 1] :=
    ⟨trivial, trivial, by decide, trivial⟩
  obtain ⟨rb, rb', hnew, hrun, -, -⟩ := ringBuffer_refines_fifo (by decide : 2 < 64) _ hl
  exact ⟨hl, rb, rb', hnew, hrun⟩

end NetBricks.State
