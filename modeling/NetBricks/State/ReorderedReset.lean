import NetBricks.State.ReorderedMirror
import NetBricks.State.ReorderedRing
import NetBricks.State.ReorderedStream
import NetBricks.State.SegmentChain

/-!
# `ReorderedBuffer::reset`

A buffer that has been reset should serve the next connection like a new one. It
does not look like a new one: the segments of the connection before are in its
storage, the free nodes are in another order, and its bytes are in the ring.

The nodes do not matter. `clear` puts the nodes of the list back on the free
stack, and a node that is taken is written before it is read (`SegmentMirror`),
provided that the list was one: it ends, and none of its nodes was free already
(`SegmentList.Intact`).

The bytes do matter where a read returns more than was delivered, which happens
(`reorderedBuffer_returns_undelivered`): a new buffer then returns zeros, and a
buffer that was reset the bytes of the connection before
(`reorderedBuffer_reset_leaks`). As long as reads return only bytes that were
delivered since (`ReadsDelivered`), both return the same
(`reorderedBuffer_reset_fresh`).
-/

namespace NetBricks.State

open Lib
open Lib.Outcome

/-! ## The history of a run -/

namespace Tracked

/-- The positions of `len` bytes from `seq` on, when `tailSeq` is the number of the
tail: those at or behind the tail that are inside the buffer. Data whose numbers
wrap is only taken in order. -/
def place (x : Tracked) (tailSeq seq len : Nat) : Nat × Nat :=
  if seq + len < 2 ^ 32 ∨ seq = tailSeq then
    (x.tail + (seq - tailSeq),
      min (x.tail + (seq + len) - tailSeq) (x.read + x.buf.data.mask))
  else (0, 0)

/-- The history after a call that returned `r` and left the buffer `b`. -/
def note (x : Tracked) (b : ReorderedBuffer) : BufferCall → BufferResult → Tracked
  | .seq seq data, _ =>
    { x with buf := b, stored := x.place seq.toNat seq.toNat data.length :: x.stored }
  | .op (.addData seq data), _ =>
    { x with buf := b, stored := x.place x.buf.tailSeq seq.toNat data.length :: x.stored }
  | .op (.readData _), .read n data =>
    { x with buf := b, read := x.read + n, out := x.out ++ data.take n }
  | .op (.readData _), .insertion _ => { x with buf := b }

/-- One call, with its history. -/
def call (fuel : Nat) (x : Tracked) (c : BufferCall) : Outcome (BufferResult × Tracked) := do
  let (r, b) ← x.buf.call fuel c
  .ok (r, x.note b c r)

theorem note_buf (x : Tracked) (b : ReorderedBuffer) (c : BufferCall) (r : BufferResult) :
    (x.note b c r).buf = b := by
  cases c with
  | seq seq data => rfl
  | op op =>
    cases op with
    | addData seq data => rfl
    | readData data => cases r <;> rfl

end Tracked

/-- A read returns only positions that have been delivered. -/
def ReadsDelivered (x : Tracked) : BufferCall → Prop
  | .op (.readData data) =>
    ∀ p, x.read ≤ p → p < x.read + min x.buf.available data.length → x.Stored p
  | _ => True

/-- A buffer with a history, and one that holds the same as far as it goes: the first may have
bytes in its cells that are left from before the `reset`. They agree where something was
delivered since (`mirrored`), and `head` says at which position of the stream the next read
begins, which is what tells these cells from the others. -/
structure Resumes (k : Nat) (x : Tracked) (b : ReorderedBuffer) : Prop where
  mirrored : Mirrored id (RingBuffer.Alike k x.Stored) x.buf b
  counted : x.buf.data.Counted k
  head : x.buf.data.head = x.read % 2 ^ 64

namespace Resumes

variable {k : Nat} {x : Tracked} {b : ReorderedBuffer}

/-- Data that both buffers stored is the same in both. -/
theorem stored (h : Resumes k x b) {c c' : ReorderedBuffer} {seq : Nat} {data : List UInt8}
    {ring ring' : RingBuffer} (hs : c.Stores seq data ring) (hs' : c'.Stores seq data ring')
    (hc : c.data = x.buf.data) (hc' : c'.data = b.data) (htail : c'.tailSeq = c.tailSeq)
    (halike : RingBuffer.Alike k x.Stored ring ring') (b₁ : ReorderedBuffer) :
    RingBuffer.Alike k
      { x with buf := b₁, stored := x.place c.tailSeq seq data.length :: x.stored }.Stored
      ring ring' := by
  refine { halike with agree := fun {p} hp => ?_ }
  rcases stored_cons.mp hp with hnew | hold
  · unfold Tracked.place at hnew
    split at hnew
    · next hseq =>
      -- the position is inside the buffer, so there is no more unread data than cells
      have hmask := h.counted.mask_eq
      have havail : x.tail = x.read + x.buf.data.available := rfl
      have hat : x.buf.data.At k x.read x.tail := h.counted.at_of_room h.head (by omega)
      have hat' : b.data.At k x.read x.tail :=
        ⟨h.mirrored.data.right, h.mirrored.data.head.trans hat.head_eq,
          h.mirrored.data.tail.trans hat.tail_eq, hat.le, hat.room⟩
      rw [← hc] at hat
      rw [← hc'] at hat'
      rw [hs.cell hat hseq (by omega) (by omega) (by omega),
        hs'.cell hat' (htail ▸ hseq) (by omega) (by omega) (by omega), htail]
    · omega
  · exact halike.agree hold

theorem seq (h : Resumes k x b) (fuel : Nat) (seq : UInt32) (data : List UInt8) :
    Sim (fun y z => y.1 = z.1 ∧ Resumes k (x.note y.2 (.seq seq data) y.1) z.2)
      (x.buf.call fuel (.seq seq data)) (b.call fuel (.seq seq data)) := by
  refine (h.mirrored.seq (RingBuffer.ringPeers_alike k x.Stored) (fun _ _ => rfl) seq.toNat
    data).bind_ok ?_
  rintro ⟨r, b₁⟩ ⟨_, b₁'⟩ hb hb' ⟨rfl, hm⟩
  have hs := ReorderedBuffer.seq_stores hb
  have hs' := ReorderedBuffer.seq_stores hb'
  obtain ⟨hcounted, hhead⟩ := hs.counted h.counted
  exact ⟨rfl, { hm with data := h.stored hs hs' rfl rfl rfl hm.data b₁ }, hcounted,
    hhead.trans h.head⟩

theorem addData (h : Resumes k x b) (fuel : Nat) (seq : UInt32) (data : List UInt8) :
    Sim (fun y z => y.1 = z.1 ∧ Resumes k (x.note y.2 (.op (.addData seq data)) y.1) z.2)
      (x.buf.call fuel (.op (.addData seq data))) (b.call fuel (.op (.addData seq data))) := by
  by_cases hclosed : x.buf.state = .closed
  · dsimp only [ReorderedBuffer.call, ReorderedBuffer.step]
    unfold ReorderedBuffer.addData
    rw [h.mirrored.state, hclosed]
    exact rfl
  · obtain ⟨m, ht⟩ := h.mirrored.twins hclosed
    have hw : CallWithin (fun _ => True) x.buf seq.toNat data.length :=
      ⟨trivial, trivial, trivial, trivial, trivial⟩
    refine (ht.addData (RingBuffer.ringPeers_alike k x.Stored) (Recoding.refl 32) fuel
      hw).bind_ok ?_
    rintro ⟨r, b₁⟩ ⟨_, b₁'⟩ hb hb' hans
    obtain ⟨rfl, hm⟩ := hans.mirrored
    have hs := ReorderedBuffer.addData_stores hb
    have hs' := ReorderedBuffer.addData_stores hb'
    obtain ⟨hcounted, hhead⟩ := hs.counted h.counted
    exact ⟨rfl, { hm with data := h.stored hs hs' rfl rfl ht.tailSeq hm.data b₁ }, hcounted,
      hhead.trans h.head⟩

/-- `read_data` of bytes that were delivered. -/
theorem readData (h : Resumes k x b) (fuel : Nat) {data : List UInt8}
    (hread : ReadsDelivered x (.op (.readData data))) :
    Sim (fun y z => y.1 = z.1 ∧ Resumes k (x.note y.2 (.op (.readData data)) y.1) z.2)
      (x.buf.call fuel (.op (.readData data))) (b.call fuel (.op (.readData data))) := by
  have hR : RingBuffer.Reads x.Stored data.length x.buf.data := ⟨x.read, h.head, hread⟩
  have hsim : Sim (fun y z => y.1 = z.1 ∧ Mirrored id (RingBuffer.Alike k x.Stored) y.2 z.2)
      (x.buf.readData fuel data) (b.readData fuel data) := by
    by_cases hstate : x.buf.state = .connectedOutOfOrder
    · obtain ⟨m, ht⟩ := h.mirrored.twins (hstate ▸ nofun)
      exact (ht.readData_outOfOrder (RingBuffer.ringPeers_alike k x.Stored) (Recoding.refl 32)
        fuel hstate hR trivial).mono (fun _ _ h => h.mirrored)
    · exact h.mirrored.readData_inOrder (RingBuffer.ringPeers_alike k x.Stored) (fun _ _ => rfl)
        fuel hstate hR
  refine hsim.bind_ok ?_
  rintro ⟨⟨n, out⟩, b₁⟩ ⟨⟨_, _⟩, b₁'⟩ hb - ⟨heq, hm⟩
  cases heq
  obtain ⟨hcounted, hhead, -⟩ := ReorderedBuffer.readData_ring h.counted hb
  refine ⟨rfl, hm, hcounted, ?_⟩
  rw [h.head, wrappingAdd_mod] at hhead
  exact hhead

end Resumes

theorem call_resumes {k fuel : Nat} (x : Tracked) (b : ReorderedBuffer) (c : BufferCall)
    (h : Resumes k x b) (hread : ReadsDelivered x c) :
    Sim (fun y z => y.1 = z.1 ∧ Resumes k y.2 z.2) (x.call fuel c) (b.call fuel c) := by
  have hsim : Sim (fun y z => y.1 = z.1 ∧ Resumes k (x.note y.2 c y.1) z.2) (x.buf.call fuel c)
      (b.call fuel c) := by
    cases c with
    | seq seq data => exact h.seq fuel seq data
    | op op =>
      cases op with
      | addData seq data => exact h.addData fuel seq data
      | readData data => exact h.readData fuel hread
  unfold Tracked.call
  rw [← bind_pure (b.call fuel c)]
  refine hsim.bind ?_
  rintro ⟨r, b₁⟩ ⟨_, b₁'⟩ ⟨rfl, h₁⟩
  exact ⟨rfl, h₁⟩

theorem results_tracked {fuel : Nat} {cond : Tracked → BufferCall → Prop} (x : Tracked)
    (calls : List BufferCall) (hmeets : Meets (Tracked.call fuel) cond x calls) :
    results (Tracked.call fuel) x calls = results (ReorderedBuffer.call fuel) x.buf calls := by
  have hsim : ∀ (x : Tracked) (b : ReorderedBuffer) (c : BufferCall), x.buf = b → cond x c →
      Sim (fun y z => y.1 = z.1 ∧ y.2.buf = z.2) (x.call fuel c) (b.call fuel (id c)) := by
    rintro x _ c rfl -
    unfold Tracked.call
    rw [← bind_pure (x.buf.call fuel (id c))]
    refine (Sim.self (R := Eq) (fun _ _ => rfl)).bind ?_
    rintro ⟨r, b₁⟩ _ rfl
    exact ⟨rfl, Tracked.note_buf x b₁ c r⟩
  have heq := results_eq (R := fun x b => x.buf = b) hsim calls rfl hmeets
  rwa [List.map_id] at heq

/-- After a run that leaves the segment list intact, a buffer that is reset returns
in every further run the results that a new buffer of its size returns, as long as
reads return only what was delivered in that run. -/
theorem reorderedBuffer_reset_fresh {size fuel : Nat} {b₀ b : ReorderedBuffer}
    {before : List BufferCall} {rs : List BufferResult}
    (hnew : ReorderedBuffer.new size = .ok (.ok b₀))
    (hrun : runOps (ReorderedBuffer.call fuel) b₀ before = .ok (rs, b))
    (hintact : b.segmentList.Intact) (hfuel : b.segmentList.storage.length < fuel) :
    ∃ b', b.reset fuel = .ok b' ∧ ∀ calls,
      Meets (Tracked.call fuel) ReadsDelivered (Tracked.fresh b₀) calls →
      results (ReorderedBuffer.call fuel) b' calls =
        results (ReorderedBuffer.call fuel) b₀ calls := by
  obtain ⟨k, hat, -, hstate, hlist⟩ := ReorderedBuffer.of_new hnew
  have hcounted₀ : b₀.data.Counted k := hat.counted
  have hcounted : b.data.Counted k :=
    runOps_keeps (I := fun b => b.data.Counted k)
      (fun _ _ _ _ hc hcall => ReorderedBuffer.call_counted hc hcall) hcounted₀ hrun
  obtain ⟨l, hl, hholds, htail⟩ := SegmentList.clear_intact hintact hfuel
  refine ⟨{ b with state := .closed, segmentList := l, data := b.data.clear }, ?_, ?_⟩
  · unfold ReorderedBuffer.reset
    rw [hl, bind_ok]
  · intro calls hmeets
    have hfresh : Resumes k (Tracked.fresh b₀)
        { b with state := .closed, segmentList := l, data := b.data.clear } := by
      refine ⟨⟨⟨hat.toGeom, hcounted.counters 0 0, hat.head_eq.symm, hat.tail_eq.symm, ?_⟩,
        ⟨_, .ofEmpty ?_ ?_ hholds htail⟩, hstate.symm, fun h => absurd hstate h,
        fun h => absurd hstate h⟩, hcounted₀, hat.head_eq⟩
      · rintro p ⟨r, hr, -⟩
        exact absurd hr List.not_mem_nil
      · exact hlist ▸ SegmentList.holds_new _
      · exact hlist ▸ rfl
    have heq := results_eq (f := id) call_resumes calls hfresh hmeets
    rw [List.map_id] at heq
    rw [← heq, results_tracked _ calls hmeets]
    rfl

/-- A connection that ends with data ahead of a gap, then one in which the gap is
filled before the read. -/
theorem reorderedBuffer_reset_fresh_filled :
    ∃ b₀ rs b b', ReorderedBuffer.new 16 = .ok (.ok b₀) ∧
      runOps (ReorderedBuffer.call 4) b₀ [.seq 100 [9, 9, 9], .op (.addData 105 [9, 9])] =
        .ok (rs, b) ∧
      b.segmentList.Intact ∧ b.segmentList.storage.length < 4 ∧ b.reset 4 = .ok b' ∧
      Meets (Tracked.call 4) ReadsDelivered (Tracked.fresh b₀)
        [.seq 7 [1], .op (.addData 9 [3, 4]), .op (.addData 8 [2]), .op (.readData [0, 0, 0, 0])] ∧
      results (ReorderedBuffer.call 4) b'
          [.seq 7 [1], .op (.addData 9 [3, 4]), .op (.addData 8 [2]),
           .op (.readData [0, 0, 0, 0])] =
        .ok [.insertion (.inserted 1 1), .insertion (.inserted 2 1), .insertion (.inserted 2 4),
          .read 4 [1, 2, 3, 4]] := by
  have hmeets : ∀ {b₀}, ReorderedBuffer.new 16 = .ok (.ok b₀) →
      Meets (Tracked.call 4) ReadsDelivered (Tracked.fresh b₀)
        [.seq 7 [1], .op (.addData 9 [3, 4]), .op (.addData 8 [2]),
         .op (.readData [0, 0, 0, 0])] := by
    intro b₀ hnew
    have hthree : ∃ r₁ r₂ r₃ x₁ x₂ x₃, Tracked.call 4 (Tracked.fresh b₀) (.seq 7 [1]) =
          .ok (r₁, x₁) ∧
        x₁.call 4 (.op (.addData 9 [3, 4])) = .ok (r₂, x₂) ∧
        x₂.call 4 (.op (.addData 8 [2])) = .ok (r₃, x₃) ∧
        x₃.read + min x₃.buf.available 4 = 4 ∧ x₃.stored = [(1, 2), (2, 4), (0, 1)] := by
      cases hnew
      exact ⟨_, _, _, _, _, _, rfl, rfl, rfl, by decide +kernel, by decide +kernel⟩
    obtain ⟨r₁, r₂, r₃, x₁, x₂, x₃, h₁, h₂, h₃, hread, hstored⟩ := hthree
    refine Meets.cons trivial h₁ (Meets.cons trivial h₂ (Meets.cons trivial h₃
      ⟨?_, fun _ _ _ => trivial⟩))
    intro p _ hp
    have hp : p < 4 := Nat.lt_of_lt_of_eq hp hread
    unfold Tracked.Stored
    rw [hstored]
    -- the three deliveries, the last one first
    have hcase : p < 1 ∨ (1 ≤ p ∧ p < 2) ∨ (2 ≤ p ∧ p < 4) := by omega
    rcases hcase with hp | hp | hp
    · exact ⟨(0, 1), .tail _ (.tail _ (.head _)), Nat.zero_le p, hp⟩
    · exact ⟨(1, 2), .head _, hp.1, hp.2⟩
    · exact ⟨(2, 4), .tail _ (.head _), hp.1, hp.2⟩
  have hrun : ∃ b₀ rs b, ReorderedBuffer.new 16 = .ok (.ok b₀) ∧
      runOps (ReorderedBuffer.call 4) b₀ [.seq 100 [9, 9, 9], .op (.addData 105 [9, 9])] =
        .ok (rs, b) ∧
      b.segmentList.Intact ∧ b.segmentList.storage.length < 4 ∧
      results (ReorderedBuffer.call 4) b₀
          [.seq 7 [1], .op (.addData 9 [3, 4]), .op (.addData 8 [2]),
           .op (.readData [0, 0, 0, 0])] =
        .ok [.insertion (.inserted 1 1), .insertion (.inserted 2 1), .insertion (.inserted 2 4),
          .read 4 [1, 2, 3, 4]] := by
    refine ⟨_, _, _, rfl, rfl, ⟨⟨nofun, List.nodup_nil⟩, [0], ?_⟩, ?_, rfl⟩
    · exact .cons ⟨rfl, List.not_mem_nil⟩ List.not_mem_nil .nil
    · decide
  obtain ⟨b₀, rs, b, hnew, hrun, hintact, hfuel, hres⟩ := hrun
  obtain ⟨b', hreset, hsame⟩ := reorderedBuffer_reset_fresh hnew hrun hintact hfuel
  exact ⟨b₀, rs, b, b', hnew, hrun, hintact, hfuel, hreset, hmeets hnew,
    (hsame _ (hmeets hnew)).trans hres⟩

/-- Five bytes, a reset, and deliveries of positions 2, 4, 0 and 1: the read returns
a byte of the connection before where a new buffer returns a zero. -/
theorem reorderedBuffer_reset_leaks :
    ∃ b₀ rs b b', ReorderedBuffer.new 16 = .ok (.ok b₀) ∧
      runOps (ReorderedBuffer.call 4) b₀ [.seq 0 [9, 9, 9, 9, 9]] = .ok (rs, b) ∧
      b.reset 4 = .ok b' ∧
      results (ReorderedBuffer.call 4) b₀
          [.seq 0 [], .op (.addData 2 [3]), .op (.addData 4 [5]), .op (.addData 0 [1, 2]),
           .op (.readData [0, 0, 0, 0, 0])] =
        .ok [.insertion (.inserted 0 0), .insertion (.inserted 1 0), .insertion (.inserted 1 0),
          .insertion (.inserted 3 5), .read 5 [1, 2, 3, 0, 5]] ∧
      results (ReorderedBuffer.call 4) b'
          [.seq 0 [], .op (.addData 2 [3]), .op (.addData 4 [5]), .op (.addData 0 [1, 2]),
           .op (.readData [0, 0, 0, 0, 0])] =
        .ok [.insertion (.inserted 0 0), .insertion (.inserted 1 0), .insertion (.inserted 1 0),
          .insertion (.inserted 3 5), .read 5 [1, 2, 3, 9, 5]] :=
  ⟨_, _, _, _, rfl, rfl, rfl, rfl, rfl⟩

end NetBricks.State
