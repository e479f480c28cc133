import Mathlib.Order.Bounds.Basic
import NetBricks.Queues.MpscFifo
import NetBricks.State.ReorderedBuffer

/-!
# Rounding up to a power of two

`round_to_power_of_2` of `src/framework/src/utils/mod.rs` and the two rings that are made
with it: the byte ring of `ReorderedBuffer::new_with_segments` and the slots of
`MpscQueue::new`. Both mask positions with one less than their size, which is reduction
modulo the size for a power of two only.

The shifts give the least power of two that is not below the size, up to the largest one a
`usize` holds (`roundToPowerOf2_isLeast`); what they do to the bits is in
`NetBricks.Common`. So every such size makes a ring of either kind
(`roundToPowerOf2_rings`).

Mirroring notes:

* The memory for a ring is not modelled: `new` accepts a size when its own check does.
* `MpscQueue::new` does not round a size that is a power of two already.
-/

namespace NetBricks

open Lib
open Lib.Outcome

/-- There is a power of two from a size to below its double, and up to `2 ^ 63` it fits a
`usize`. -/
theorem exists_two_pow_ge {size : Nat} (h : 1 ≤ size) (hle : size ≤ 2 ^ 63) :
    ∃ k, k < 64 ∧ size ≤ 2 ^ k ∧ 2 ^ k < 2 * size := by
  obtain rfl | htwo : size = 1 ∨ 2 ≤ size := by omega
  · exact ⟨0, by decide, by decide, by decide⟩
  · obtain ⟨k, -, hk, hlt⟩ := roundToPowerOf2_eq htwo (by omega)
    have hbound : 2 ^ k < 2 ^ 64 := by omega
    exact ⟨k, (Nat.pow_lt_pow_iff_right (by decide)).mp hbound, hk, hlt⟩

/-- The rounding is that power of two. -/
theorem roundToPowerOf2_eq_two_pow {size k : Nat} (hk : k < 64) (hle : size ≤ 2 ^ k)
    (hlt : 2 ^ k < 2 * size) : roundToPowerOf2 size = 2 ^ k := by
  obtain rfl | htwo : size = 1 ∨ 2 ≤ size := by omega
  · have hzero : k = 0 := two_pow_unique hle hlt (k := 0) (by decide) (by decide)
    rw [hzero]
    exact roundToPowerOf2_two_pow (k := 0) (by decide)
  · exact roundToPowerOf2_of_le htwo hk hle hlt

theorem two_pow_le_of_ge {n j k : Nat} (hlt : 2 ^ k < 2 * n) (hj : n ≤ 2 ^ j) : 2 ^ k ≤ 2 ^ j := by
  have hkj : k < j + 1 := (Nat.pow_lt_pow_iff_right (a := 2) (by decide)).mp (by
    rw [Nat.pow_succ]
    omega)
  exact Nat.pow_le_pow_right (by decide) (by omega)

/-- The rounding is the least power of two that is not below the size. -/
theorem roundToPowerOf2_isLeast {size : Nat} (h : 1 ≤ size) (hle : size ≤ 2 ^ 63) :
    IsLeast { n : Nat | n.isPowerOfTwo ∧ size ≤ n } (roundToPowerOf2 size) := by
  obtain ⟨k, hk, hge, hlt⟩ := exists_two_pow_ge h hle
  rw [roundToPowerOf2_eq_two_pow hk hge hlt]
  refine ⟨⟨⟨k, rfl⟩, hge⟩, ?_⟩
  rintro n ⟨⟨j, rfl⟩, hj⟩
  exact two_pow_le_of_ge hlt hj

/-- Masking is reduction modulo a power of two. -/
theorem and_pred_of_isPowerOfTwo {n : Nat} (h : n.isPowerOfTwo) (x : Nat) :
    x &&& (n - 1) = x % n := by
  obtain ⟨k, rfl⟩ := h
  exact Nat.and_two_pow_sub_one_eq_mod x k

/-- A queue that `new` returns masks with one less than its slots. -/
theorem Queues.MpscQueue.mask_of_new {α : Type} [Inhabited α] {size : Nat} {q : MpscQueue α}
    (h : MpscQueue.new size = .ok q) : q.mask = q.slots - 1 := by
  unfold MpscQueue.new at h
  obtain ⟨less, -, h⟩ := bind_eq_ok.mp h
  obtain ⟨mask, hmask, h⟩ := bind_eq_ok.mp h
  cases h
  exact (checkedSub_eq_ok.mp hmask).2

/-- A buffer is made for every size up to `2 ^ 63`, with a ring of the rounded size. -/
theorem State.ReorderedBuffer.newWithSegments_rounds {size : Nat} (h : 1 ≤ size)
    (hle : size ≤ 2 ^ 63) (segs : Nat) :
    ∃ b, newWithSegments size segs = .ok (.ok b) ∧ b.data.size = roundToPowerOf2 size ∧
      b.data.mask = b.data.size - 1 := by
  obtain ⟨k, hk, hge, hlt⟩ := exists_two_pow_ge h hle
  unfold newWithSegments
  dsimp only
  rw [roundToPowerOf2_eq_two_pow hk hge hlt, RingBuffer.new_two_pow, bind_ok]
  exact ⟨_, rfl, rfl, rfl⟩

/-- For every size from 1 to `2 ^ 63` the rounding is the least power of two not below it;
the ring of a reordered buffer has that size and is accepted, and a queue has that many
slots. Both mask with one less, which is reduction modulo their size. -/
theorem roundToPowerOf2_rings {α : Type} [Inhabited α] {size : Nat} (h : 1 ≤ size)
    (hle : size ≤ 2 ^ 63) :
    IsLeast { n : Nat | n.isPowerOfTwo ∧ size ≤ n } (roundToPowerOf2 size) ∧
    (∀ segs, ∃ b, State.ReorderedBuffer.newWithSegments size segs = .ok (.ok b) ∧
      b.data.size = roundToPowerOf2 size ∧ b.data.mask = b.data.size - 1 ∧
      ∀ x, x &&& b.data.mask = x % b.data.size) ∧
    ∃ q : Queues.MpscQueue α, Queues.MpscQueue.new size = .ok q ∧
      q.slots = roundToPowerOf2 size ∧ q.slots.isPowerOfTwo ∧ size ≤ q.slots ∧
      q.mask = q.slots - 1 ∧ ∀ x, x &&& q.mask = x % q.slots := by
  have hleast := roundToPowerOf2_isLeast h hle
  have hpow : (roundToPowerOf2 size).isPowerOfTwo := hleast.1.1
  refine ⟨hleast, ?_, ?_⟩
  · intro segs
    obtain ⟨b, hb, hsize, hmask⟩ := State.ReorderedBuffer.newWithSegments_rounds h hle segs
    refine ⟨b, hb, hsize, hmask, ?_⟩
    rw [hmask, hsize]
    exact and_pred_of_isPowerOfTwo hpow
  · obtain ⟨k, hk, hge, hlt⟩ := exists_two_pow_ge h hle
    obtain ⟨q, hq, hslots⟩ := Queues.new_slots (α := α) hk hge hlt
    have hround : q.slots = roundToPowerOf2 size :=
      hslots.trans (roundToPowerOf2_eq_two_pow hk hge hlt).symm
    have hmask := Queues.MpscQueue.mask_of_new hq
    refine ⟨q, hq, hround, ?_, ?_, hmask, ?_⟩
    · rwa [hround]
    · rw [hround]
      exact hleast.1.2
    · rw [hmask, hround]
      exact and_pred_of_isPowerOfTwo hpow

theorem roundToPowerOf2_rings_five :
    IsLeast { n : Nat | n.isPowerOfTwo ∧ 5 ≤ n } (roundToPowerOf2 5) ∧
    (∀ segs, ∃ b, State.ReorderedBuffer.newWithSegments 5 segs = .ok (.ok b) ∧
      b.data.size = roundToPowerOf2 5 ∧ b.data.mask = b.data.size - 1 ∧
      ∀ x, x &&& b.data.mask = x % b.data.size) ∧
    ∃ q : Queues.MpscQueue Nat, Queues.MpscQueue.new 5 = .ok q ∧
      q.slots = roundToPowerOf2 5 ∧ q.slots.isPowerOfTwo ∧ 5 ≤ q.slots ∧
      q.mask = q.slots - 1 ∧ ∀ x, x &&& q.mask = x % q.slots :=
  roundToPowerOf2_rings (by decide) (by decide)

end NetBricks
