import NetBricks.State.ReorderedNoTrace

/-!
# `ReorderedBuffer`: what an insertion reports

Callers decide by the variant of an `InsertionResult` whether a connection has lost data.
`fast_path_insert` compares what the ring took with what it was given. The insertion at
the tail in `ConnectedOutOfOrder` does not: whatever the ring took, it ends in
`advanceTail`, which reports `Inserted` (`insertAtTail_inserted`). So the variant is right
in `Connected`, and in `ConnectedOutOfOrder` as long as everything fits
(`report_truthful_iff`).

How much the ring takes is its free space as `write_at_tail` computes it, in every state
that can be reached.
-/

namespace NetBricks.State

open Lib
open Lib.Outcome

namespace RingBuffer

/-- The free space, as the write functions compute it. -/
def free (rb : RingBuffer) : Nat := wrappingSub 64 (wrappingAdd 64 rb.mask rb.head) rb.tail

/-- The ring takes what fits, from the tail on. -/
theorem Counted.writeAtTail_stores {k n : Nat} {rb rb' : RingBuffer} {data : List UInt8}
    (hc : Counted k rb) (h : rb.writeAtTail data = .ok (n, rb')) :
    n = min data.length rb.free ∧ ∀ i, i < n → cell rb'.vec (rb.tail + i) = data[i]? := by
  have hlen : (data.take (min data.length rb.free)).length = min data.length rb.free :=
    List.length_take_of_le (Nat.min_le_left _ _)
  unfold writeAtTail at h
  dsimp only at h
  rw [hc.and_mask, sliceTo_of_le (Nat.min_le_left _ _), bind_ok,
    wrappedWrite_of_geom (hc.seekTail _).toGeom] at h
  split at h
  · next hfit =>
    cases h
    have hv := hc.length_vec
    refine ⟨hlen, fun i hi => ?_⟩
    have hi : i < min data.length rb.free := hlen ▸ hi
    have hfit : (data.take (min data.length rb.free)).length ≤ rb.vec.length := hv ▸ hfit
    have hcell := cell_blit hfit rb.tail (show i < rb.vec.length by omega)
    rw [if_pos (by omega), List.getElem?_take_of_lt hi, hv] at hcell
    exact hcell
  · cases h

end RingBuffer

/-- The variant. -/
def InsertionResult.isInserted : InsertionResult → Bool
  | .inserted _ _ => true
  | .outOfMemory _ _ => false

namespace ReorderedBuffer

variable {fuel : Nat} {b b' : ReorderedBuffer} {data : List UInt8} {r : InsertionResult}

/-- The buffer is what calls, `reset` among them, have made of a new one. -/
def Reached (fuel : Nat) (b : ReorderedBuffer) : Prop :=
  ∃ size segs b₀ uses rs, newWithSegments size segs = .ok (.ok b₀) ∧
    runOps (use fuel) b₀ uses = .ok (rs, b)

theorem Reached.counted (h : Reached fuel b) : ∃ k, b.data.Counted k := by
  obtain ⟨size, segs, b₀, uses, rs, hnew, hrun⟩ := h
  obtain ⟨k, hc, -⟩ := counted_of_moves hnew (run_moves hrun)
  exact ⟨k, hc⟩

theorem isInserted_report (b : ReorderedBuffer) (written len : Nat) :
    (b.report written len).isInserted = true ↔ written = len := by
  unfold report
  split
  · next heq => exact ⟨fun _ => heq, fun _ => rfl⟩
  · next hne => exact ⟨fun h => Bool.noConfusion h, fun heq => absurd heq hne⟩

theorem addData_connected (hb : Reached fuel b) (hconn : b.state = .connected)
    (h : b.addData fuel b.tailSeq data = .ok (r, b')) :
    (r.isInserted = true ↔ min data.length b.data.free = data.length) ∧
      ∀ i, i < min data.length b.data.free → cell b'.data.vec (b.data.tail + i) = data[i]? := by
  obtain ⟨k, hc⟩ := hb.counted
  unfold addData at h
  rw [hconn] at h
  dsimp only at h
  rw [if_pos rfl] at h
  obtain ⟨n, ring, hw, rfl, rfl⟩ := fastPathInsert_eq_ok h
  obtain ⟨rfl, hcell⟩ := hc.writeAtTail_stores hw
  exact ⟨isInserted_report _ _ _, hcell⟩

/-- In `ConnectedOutOfOrder`, at the tail. -/
theorem addData_outOfOrder (hb : Reached fuel b) (hstate : b.state = .connectedOutOfOrder)
    (h : b.addData fuel b.tailSeq data = .ok (r, b')) :
    r.isInserted = true ∧
      ∀ i, i < min data.length b.data.free → cell b'.data.vec (b.data.tail + i) = data[i]? := by
  obtain ⟨k, hc⟩ := hb.counted
  unfold addData at h
  rw [hstate] at h
  dsimp only at h
  rw [outOfOrderInsert_of_new (Nat.le_refl _) (.inl rfl), Nat.sub_self, List.drop_zero] at h
  obtain ⟨written, rfl⟩ := insertAtTail_inserted h
  obtain ⟨n, rb, hw, hring⟩ := insertAtTail_ring h
  obtain ⟨rfl, hcell⟩ := hc.writeAtTail_stores hw
  refine ⟨rfl, ?_⟩
  rw [hring.vec_eq]
  exact hcell

/-- The result of an insertion at the tail, of which the ring took the first `n` bytes, says
whether that was everything, and says what the fast path says with as much free space. -/
structure Truthful (fuel : Nat) (b : ReorderedBuffer) (data : List UInt8) (n : Nat)
    (r : InsertionResult) : Prop where
  inserted_iff : r.isInserted = true ↔ n = data.length
  refused : n < data.length → r.isInserted = false
  same_variant : ∀ c r' c', Reached fuel c → c.state = .connected → c.data.free = b.data.free →
    c.addData fuel c.tailSeq data = .ok (r', c') → r.isInserted = r'.isInserted

theorem truthful_of_iff {n : Nat} (hn : n = min data.length b.data.free)
    (h : r.isInserted = true ↔ n = data.length) : Truthful fuel b data n r where
  inserted_iff := h
  refused := fun hlt => Bool.eq_false_iff.mpr fun hr => by
    have := h.mp hr
    omega
  same_variant := by
    intro c r' c' hc hconn hfree hadd
    have hiff := (addData_connected hc hconn hadd).1
    rw [hfree, ← hn] at hiff
    exact Bool.eq_iff_iff.mpr (h.trans hiff.symm)

/-- In every established state that can be reached, data at the tail is stored as far as
there is free space. What is reported is true exactly in `Connected` and when everything
fits. -/
theorem report_truthful_iff {seq : UInt32} (hb : Reached fuel b) (hopen : b.state ≠ .closed)
    (hseq : seq.toNat = b.tailSeq) (h : b.addData fuel seq.toNat data = .ok (r, b')) :
    ∃ n, n = min data.length b.data.free ∧
      (∀ i, i < n → cell b'.data.vec (b.data.tail + i) = data[i]?) ∧
      (Truthful fuel b data n r ↔ b.state = .connected ∨ data.length ≤ b.data.free) := by
  rw [hseq] at h
  cases hstate : b.state with
  | closed => exact absurd hstate hopen
  | connected =>
    obtain ⟨hiff, hcell⟩ := addData_connected hb hstate h
    exact ⟨_, rfl, hcell, fun _ => .inl rfl, fun _ => truthful_of_iff rfl hiff⟩
  | connectedOutOfOrder =>
    obtain ⟨hr, hcell⟩ := addData_outOfOrder hb hstate h
    refine ⟨_, rfl, hcell, fun ht => .inr ?_, fun hfit => truthful_of_iff rfl ?_⟩
    · exact min_eq_left_iff.mp (ht.inserted_iff.mp hr)
    · rcases hfit with hconn | hle
      · cases hconn
      · exact ⟨fun _ => Nat.min_eq_left hle, fun _ => hr⟩

/-- Out of order, with room for the last byte. -/
theorem report_truthful_fits :
    ∃ b r b', Reached 4 b ∧ b.state = .connectedOutOfOrder ∧
      b.addData 4 (5 : UInt32).toNat [6] = .ok (r, b') ∧ Truthful 4 b [6] 1 r := by
  have hrun : ∃ b₀ rs b r b', newWithSegments 8 0 = .ok (.ok b₀) ∧
      runOps (use 4) b₀ [.call (.seq 0 [1, 2, 3, 4, 5]),
        .call (.op (.addData 0 [1, 2, 3, 4, 5]))] = .ok (rs, b) ∧
      b.state = .connectedOutOfOrder ∧ b.tailSeq = 5 ∧ b.data.free = 2 ∧
      b.addData 4 (5 : UInt32).toNat [6] = .ok (r, b') :=
    ⟨_, _, _, _, _, rfl, rfl, rfl, rfl, rfl, rfl⟩
  obtain ⟨b₀, rs, b, r, b', hnew, hrun, hstate, htail, hfree, hadd⟩ := hrun
  have hb : Reached 4 b := ⟨8, 0, b₀, _, rs, hnew, hrun⟩
  obtain ⟨n, hn, -, hiff⟩ :=
    report_truthful_iff hb (hstate ▸ nofun) (by rw [htail]; rfl) hadd
  rw [hfree] at hn hiff
  obtain rfl : n = 1 := hn
  exact ⟨b, r, b', hb, hstate, hadd, hiff.mpr (.inr (by decide))⟩

/-- Out of order, with room for two of four bytes: all are reported as inserted. -/
theorem report_untruthful :
    ∃ b₀ rs b b', newWithSegments 8 0 = .ok (.ok b₀) ∧
      runOps (use 4) b₀ [.call (.seq 0 [1, 2, 3, 4, 5]),
        .call (.op (.addData 0 [1, 2, 3, 4, 5]))] = .ok (rs, b) ∧
      b.state = .connectedOutOfOrder ∧ b.tailSeq = 5 ∧ b.data.free = 2 ∧
      b.addData 4 5 [6, 7, 8, 9] = .ok (.inserted 2 7, b') :=
  ⟨_, _, _, _, rfl, rfl, rfl, rfl, rfl, rfl⟩

end ReorderedBuffer

end NetBricks.State
