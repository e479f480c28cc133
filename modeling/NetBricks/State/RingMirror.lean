import NetBricks.Lib.Judgment
import NetBricks.State.RingBuffer

/-!
# Rings that mirror each other

`RingPeers P R` says of a relation `P` between two rings that every ring
operation ends alike on related rings and keeps them related; a read into `n`
bytes returns the same bytes from rings with `R n`. Two such relations:

* equality (`ringPeers_eq`);
* the same counters and the same bytes at the positions in some set `W`
  (`Alike`): two rings with a different past. A read returns the same bytes if
  the positions it reads are in `W` (`Reads`). Whatever is written goes to the
  same cells in both rings, so no position of `W` is lost (`cell_blit_congr`).

The counters of such rings need not be in any order: the relation holds through
states in which `available` exceeds the size, where the operations panic.
-/

namespace NetBricks.State

open Lib
open Lib.Outcome

/-- A relation between rings that every ring operation keeps: the two return the same and are
related afterwards. `R` says of which rings a read into `n` bytes returns the same bytes; for
the other operations nothing has to be known. -/
structure RingPeers (P : RingBuffer → RingBuffer → Prop) (R : Nat → RingBuffer → Prop) :
    Prop where
  available : ∀ {a b}, P a b → b.available = a.available
  seekTail : ∀ {a b}, P a b → ∀ n, P (a.seekTail n) (b.seekTail n)
  writeAtTail : ∀ {a b}, P a b → ∀ data,
    Sim (fun x y => x.1 = y.1 ∧ P x.2 y.2) (a.writeAtTail data) (b.writeAtTail data)
  writeAtOffset : ∀ {a b}, P a b → ∀ offset data,
    Sim (fun x y => x.1 = y.1 ∧ P x.2 y.2) (a.writeAtOffsetFromTail offset data)
      (b.writeAtOffsetFromTail offset data)
  readFromHead : ∀ {a b}, P a b → ∀ data, R data.length a →
    Sim (fun x y => x.1 = y.1 ∧ P x.2 y.2) (a.readFromHead data) (b.readFromHead data)

theorem ringPeers_eq : RingPeers Eq (fun _ _ => True) where
  available h := by rw [h]
  seekTail h n := by rw [h]
  writeAtTail h data := by
    subst h
    exact Sim.self (fun x _ => ⟨rfl, rfl⟩)
  writeAtOffset h offset data := by
    subst h
    exact Sim.self (fun x _ => ⟨rfl, rfl⟩)
  readFromHead h data _ := by
    subst h
    exact Sim.self (fun x _ => ⟨rfl, rfl⟩)

namespace RingBuffer

/-! ## What is written, without anything about the counters -/

theorem wrappedWrite_le {rb rb' : RingBuffer} {offset n : Nat} {data : List UInt8}
    (h : rb.wrappedWrite offset data = .ok (n, rb')) : n ≤ data.length := by
  unfold wrappedWrite copyInto at h
  rw [bind_eq_ok] at h
  obtain ⟨-, -, h⟩ := h
  rw [bind_eq_ok] at h
  obtain ⟨-, -, h⟩ := h
  rw [bind_eq_ok] at h
  obtain ⟨dst, -, h⟩ := h
  dsimp only at h
  rw [bind_eq_ok] at h
  obtain ⟨stop, -, h⟩ := h
  split at h
  · rw [bind_eq_ok] at h
    obtain ⟨remaining, -, h⟩ := h
    rw [bind_eq_ok] at h
    obtain ⟨dst₂, -, h⟩ := h
    rw [bind_eq_ok] at h
    obtain ⟨src, hsrc, h⟩ := h
    rw [sliceFrom_of_le (Nat.min_le_right _ _)] at hsrc
    cases hsrc
    cases h
    rw [List.length_drop]
    omega
  · cases h
    exact Nat.min_le_right _ _

/-- No more is written than there is. -/
theorem writeAtTail_le {rb rb' : RingBuffer} {n : Nat} {data : List UInt8}
    (h : rb.writeAtTail data = .ok (n, rb')) : n ≤ data.length := by
  unfold writeAtTail at h
  dsimp only at h
  rw [sliceTo_of_le (Nat.min_le_left _ _)] at h
  exact Nat.le_trans (wrappedWrite_le h) (List.length_take_le' _ _)

theorem writeAtOffsetFromTail_le {rb rb' : RingBuffer} {offset n : Nat} {data : List UInt8}
    (h : rb.writeAtOffsetFromTail offset data = .ok (n, rb')) : n ≤ data.length := by
  unfold writeAtOffsetFromTail at h
  dsimp only at h
  split at h
  · cases h
    exact Nat.zero_le _
  · rw [sliceTo_of_le (Nat.min_le_left _ _)] at h
    exact Nat.le_trans (wrappedWrite_le h) (List.length_take_le' _ _)

theorem wrappedWrite_of_geom {k : Nat} {rb : RingBuffer} (hg : Geom k rb) (p : Nat)
    (data : List UInt8) : rb.wrappedWrite (p % 2 ^ k) data =
      if data.length ≤ 2 ^ k then
        .ok (data.length, { rb with vec := blit rb.vec (p % 2 ^ k) data })
      else .panic (.assertion "data.len() <= self.size") := by
  by_cases hlen : data.length ≤ 2 ^ k
  · rw [if_pos hlen, wrappedWrite_eq hg p hlen]
  · have ho : p % 2 ^ k < 2 ^ k := Nat.mod_lt _ (Nat.two_pow_pos k)
    rw [if_neg hlen]
    unfold wrappedWrite
    rw [hg.size_eq, check_true ho, bind_ok, check_false hlen]
    rfl

theorem wrappedRead_of_geom {k : Nat} {rb : RingBuffer} (hg : Geom k rb) (p : Nat)
    (data : List UInt8) : rb.wrappedRead (p % 2 ^ k) data =
      if data.length ≤ 2 ^ k then .ok (data.length, window rb.vec p data.length)
      else .panic (.assertion "data.len() <= self.size") := by
  by_cases hlen : data.length ≤ 2 ^ k
  · rw [if_pos hlen, wrappedRead_eq hg p hlen]
  · have ho : p % 2 ^ k < 2 ^ k := Nat.mod_lt _ (Nat.two_pow_pos k)
    rw [if_neg hlen]
    unfold wrappedRead
    rw [hg.size_eq, check_true ho, bind_ok, check_false hlen]
    rfl

/-- The counters are no part of the geometry. -/
theorem Geom.counters {k : Nat} {rb : RingBuffer} (hg : Geom k rb) (head tail : Nat) :
    Geom k { rb with head := head, tail := tail } :=
  ⟨hg.lt, hg.size_eq, hg.mask_eq, hg.length_vec⟩

theorem Geom.and_mask {k : Nat} {rb : RingBuffer} (hg : Geom k rb) (n : Nat) :
    n &&& rb.mask = n % 2 ^ k := by
  rw [hg.mask_eq, Nat.and_two_pow_sub_one_eq_mod]

/-! ## The same bytes at some positions -/

/-- Two rings with the same counters that hold the same bytes at the positions in `W`. In the
other cells they may differ: these have not been written since the two had a different past. -/
structure Alike (k : Nat) (W : Nat → Prop) (a b : RingBuffer) : Prop where
  left : Geom k a
  right : Geom k b
  head : b.head = a.head
  tail : b.tail = a.tail
  agree : ∀ {p}, W p → cell a.vec p = cell b.vec p

/-- The positions that a read into `n` bytes returns are in `W`. -/
def Reads (W : Nat → Prop) (n : Nat) (rb : RingBuffer) : Prop :=
  ∃ h, rb.head = h % 2 ^ 64 ∧ ∀ p, h ≤ p → p < h + min rb.available n → W p

namespace Alike

variable {k : Nat} {W : Nat → Prop} {a b : RingBuffer}

/-- The same block goes into the same cells. -/
theorem wrappedWrite (h : Alike k W a b) (p : Nat) (data : List UInt8) :
    Sim (fun x y => x.1 = y.1 ∧ Alike k W x.2 y.2) (a.wrappedWrite (p % 2 ^ k) data)
      (b.wrappedWrite (p % 2 ^ k) data) := by
  rw [wrappedWrite_of_geom h.left, wrappedWrite_of_geom h.right]
  by_cases hlen : data.length ≤ 2 ^ k
  · rw [if_pos hlen, if_pos hlen]
    have hp : p % 2 ^ k < 2 ^ k := Nat.mod_lt _ (Nat.two_pow_pos k)
    have ha := h.left.length_vec
    have hb := h.right.length_vec
    refine ⟨rfl, ⟨h.left.lt, h.left.size_eq, h.left.mask_eq, ?_⟩,
      ⟨h.right.lt, h.right.size_eq, h.right.mask_eq, ?_⟩, h.head, h.tail, ?_⟩
    · show (blit a.vec _ _).length = _
      rw [length_blit (by omega) (by omega), ha]
    · show (blit b.vec _ _).length = _
      rw [length_blit (by omega) (by omega), hb]
    · intro q hq
      have := cell_blit_congr (ha.trans hb.symm) (ha.symm ▸ hlen) p (h.agree hq)
      rwa [ha, hb] at this
  · rw [if_neg hlen, if_neg hlen]
    exact rfl

theorem seekTail (h : Alike k W a b) (n : Nat) : Alike k W (a.seekTail n) (b.seekTail n) :=
  ⟨h.left.counters _ _, h.right.counters _ _, h.head, congrArg (wrappingAdd 64 · n) h.tail,
    h.agree⟩

/-- The room as both rings compute it. -/
theorem room_eq (h : Alike k W a b) :
    wrappingAdd 64 b.mask b.head = wrappingAdd 64 a.mask a.head := by
  rw [h.left.mask_eq, h.right.mask_eq, h.head]

theorem writeAtTail (h : Alike k W a b) (data : List UInt8) :
    Sim (fun x y => x.1 = y.1 ∧ Alike k W x.2 y.2) (a.writeAtTail data) (b.writeAtTail data) := by
  unfold RingBuffer.writeAtTail
  dsimp only
  rw [h.room_eq, h.tail, h.left.and_mask, h.right.and_mask, sliceTo_of_le (Nat.min_le_left _ _),
    bind_ok, bind_ok]
  exact (h.seekTail _).wrappedWrite _ _

theorem writeAtOffset (h : Alike k W a b) (offset : Nat) (data : List UInt8) :
    Sim (fun x y => x.1 = y.1 ∧ Alike k W x.2 y.2) (a.writeAtOffsetFromTail offset data)
      (b.writeAtOffsetFromTail offset data) := by
  unfold RingBuffer.writeAtOffsetFromTail
  dsimp only
  rw [h.room_eq, h.tail, h.left.and_mask, h.right.and_mask]
  split
  · exact ⟨rfl, h⟩
  · rw [sliceTo_of_le (Nat.min_le_left _ _), bind_ok, bind_ok]
    exact h.wrappedWrite _ _

theorem available_eq (h : Alike k W a b) : b.available = a.available := by
  unfold RingBuffer.available
  rw [h.head, h.tail]

theorem readFromHead (h : Alike k W a b) (data : List UInt8) (hR : Reads W data.length a) :
    Sim (fun x y => x.1 = y.1 ∧ Alike k W x.2 y.2) (a.readFromHead data) (b.readFromHead data) := by
  obtain ⟨p, hp, hW⟩ := hR
  unfold RingBuffer.readFromHead readFromHeadWithIncrement readOffset
  dsimp only
  rw [h.available_eq, h.head, h.left.and_mask, h.right.and_mask,
    sliceTo_of_le (Nat.min_le_right _ _), bind_ok, bind_ok]
  generalize hn : min a.available data.length = n at hW ⊢
  have hlen : (data.take n).length = n := by
    rw [List.length_take]
    omega
  have hdvd : 2 ^ k ∣ 2 ^ 64 := Nat.pow_dvd_pow 2 (Nat.le_of_lt h.left.lt)
  rw [wrappedRead_of_geom (h.left.counters (wrappingAdd 64 a.head (min data.length n)) a.tail),
    wrappedRead_of_geom (h.right.counters (wrappingAdd 64 a.head (min data.length n)) b.tail), hlen]
  by_cases hfit : n ≤ 2 ^ k
  · rw [if_pos hfit, if_pos hfit]
    have hwin : window a.vec a.head n = window b.vec a.head n := by
      rw [hp, window_mod (h.left.length_vec.symm ▸ hdvd),
        window_mod (h.right.length_vec.symm ▸ hdvd)]
      refine window_congr (h.left.length_vec.symm ▸ hfit) (h.right.length_vec.symm ▸ hfit) ?_
      intro i hi
      exact h.agree (hW _ (by omega) (by omega))
    refine ⟨?_, h.left.counters _ _, h.right.counters _ _, rfl, h.tail, h.agree⟩
    show (n, window a.vec a.head n ++ _) = (n, window b.vec a.head n ++ _)
    rw [hwin]
  · rw [if_neg hfit, if_neg hfit]
    exact rfl

end Alike

theorem ringPeers_alike (k : Nat) (W : Nat → Prop) : RingPeers (Alike k W) (Reads W) where
  available h := h.available_eq
  seekTail h := h.seekTail
  writeAtTail h := h.writeAtTail
  writeAtOffset h := h.writeAtOffset
  readFromHead h := h.readFromHead

end RingBuffer

end NetBricks.State
