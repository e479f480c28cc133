import Mathlib.Data.Set.BooleanAlgebra
import Mathlib.Order.CompletePartialOrder
import NetBricks.Lib.Word

/-!
# Ranges of addresses

`Ipv4Prefix` of `src/framework/src/utils/flow.rs`: the addresses that begin with the same
bits. The code keeps a mask with these bits set and compares masked addresses.

`block p a` is what such a range is for, the addresses that agree with `a` on their `p`
most significant bits. `range_new` says that the code computes it. That ranges are nested or
disjoint is then a fact about blocks: agreeing on `p` bits is an equivalence, and it is a
coarser one for a smaller `p`.
-/

namespace NetBricks.Utils

open Lib
open Lib.Outcome

structure Ipv4Prefix where
  ipAddress : UInt32
  /-- `prefix`, the number of bits. -/
  pfx : UInt8
  mask : UInt32
  deriving DecidableEq, Repr

namespace Ipv4Prefix

/-- The mask that `new` computes. -/
def maskOf (pfx : UInt8) : Outcome UInt32 :=
  if pfx = 0 then .ok 0
  else do
    let invPfx ← checkedSub 32 pfx.toNat
    .ok (~~~((1 <<< UInt32.ofNat invPfx) - 1))

def new (address : UInt32) (pfx : UInt8) : Outcome Ipv4Prefix := do
  let mask ← maskOf pfx
  .ok { ipAddress := address &&& mask, pfx := pfx, mask := mask }

def inRange (r : Ipv4Prefix) (address : UInt32) : Bool := (address &&& r.mask) == r.ipAddress

/-- The addresses in range. -/
def range (r : Ipv4Prefix) : Set UInt32 := { x | r.inRange x = true }

end Ipv4Prefix

/-! ## Blocks -/

/-- The two addresses agree on their `p` most significant bits. -/
def Agree (p : Nat) (a x : UInt32) : Prop :=
  ∀ i, i < p → a.toBitVec.getMsbD i = x.toBitVec.getMsbD i

namespace Agree

variable {p q : Nat} {a b x : UInt32}

theorem symm (h : Agree p a x) : Agree p x a := fun i hi => (h i hi).symm

theorem trans (h : Agree p a b) (h' : Agree p b x) : Agree p a x := fun i hi =>
  (h i hi).trans (h' i hi)

theorem mono (hpq : p ≤ q) (h : Agree q a x) : Agree p a x := fun i hi =>
  h i (Nat.lt_of_lt_of_le hi hpq)

end Agree

/-- The addresses that agree with `a` on `p` bits. -/
def block (p : Nat) (a : UInt32) : Set UInt32 := { x | Agree p a x }

theorem block_subset {p q : Nat} {a b : UInt32} (hpq : p ≤ q) (h : Agree p a b) :
    block q b ⊆ block p a := fun _ hx => h.trans (hx.mono hpq)

/-- A finer block is inside a coarser one or apart from it. -/
theorem block_nested_or_disjoint {p q : Nat} (hpq : p ≤ q) (a b : UInt32) :
    block q b ⊆ block p a ∨ Disjoint (block p a) (block q b) := by
  by_cases h : Agree p a b
  · exact Or.inl (block_subset hpq h)
  · refine Or.inr (Set.disjoint_left.mpr fun x hxa hxb => h ?_)
    -- an address in both would make the two bases agree
    exact hxa.trans (hxb.mono hpq).symm

/-! ## What the code computes -/

namespace Ipv4Prefix

theorem getMsbD_mask {k : Nat} (hk : k < 32) {i : Nat} (hi : i < 32) :
    (~~~((1 <<< UInt32.ofNat k) - 1) : UInt32).toBitVec.getMsbD i = decide (i < 32 - k) := by
  have hone : (1 <<< UInt32.ofNat k : UInt32).toNat = 2 ^ k := by
    have hlt : 2 ^ k < 2 ^ 32 := Nat.pow_lt_pow_right (by decide) hk
    rw [UInt32.toNat_shiftLeft, UInt32.toNat_ofNat', Nat.mod_eq_of_lt (show k < 2 ^ 32 by omega),
      Nat.mod_eq_of_lt hk, Nat.shiftLeft_eq, UInt32.toNat_one, Nat.one_mul, Nat.mod_eq_of_lt hlt]
  have hle : (1 : UInt32) ≤ 1 <<< UInt32.ofNat k := by
    rw [UInt32.le_iff_toNat_le, hone]
    exact Nat.two_pow_pos k
  have hnat : ((1 <<< UInt32.ofNat k) - 1 : UInt32).toNat = 2 ^ k - 1 := by
    rw [UInt32.toNat_sub_of_le _ _ hle, hone]
    rfl
  have hbit : ((1 <<< UInt32.ofNat k) - 1 : UInt32).toBitVec.getMsbD i = decide (31 - i < k) := by
    rw [BitVec.getMsbD_eq_getLsbD, ← BitVec.testBit_toNat, UInt32.toNat_toBitVec, hnat,
      Nat.testBit_two_pow_sub_one, decide_eq_true hi, Bool.true_and]
  rw [UInt32.toBitVec_not, BitVec.getMsbD_not, hbit, decide_eq_true hi, Bool.true_and,
    ← decide_not]
  congr 1
  rw [eq_iff_iff]
  omega

theorem maskOf_spec {p : UInt8} (hp : p.toNat ≤ 32) :
    ∃ mask, maskOf p = .ok mask ∧ ∀ i, i < 32 → mask.toBitVec.getMsbD i = decide (i < p.toNat) := by
  unfold maskOf
  by_cases hzero : p = 0
  · rw [if_pos hzero, hzero]
    exact ⟨0, rfl, fun i _ => by simp⟩
  · have hpos : p.toNat ≠ 0 := fun h => hzero (UInt8.toNat_inj.mp h)
    rw [if_neg hzero, checkedSub_of_le hp, bind_ok]
    refine ⟨_, rfl, fun i hi => ?_⟩
    rw [getMsbD_mask (by omega) hi]
    congr 2
    omega

/-- Masked addresses are equal when the addresses agree on the bits of the mask. -/
theorem and_mask_eq_iff {p : Nat} (hp : p ≤ 32) {mask : UInt32}
    (hmask : ∀ i, i < 32 → mask.toBitVec.getMsbD i = decide (i < p)) (a x : UInt32) :
    x &&& mask = a &&& mask ↔ Agree p a x := by
  constructor
  · intro h i hi
    have hbit := congrArg (fun y : UInt32 => y.toBitVec.getMsbD i) h
    simp only [UInt32.toBitVec_and, BitVec.getMsbD_and, hmask i (by omega), decide_eq_true hi,
      Bool.and_true] at hbit
    exact hbit.symm
  · intro h
    apply UInt32.eq_of_toBitVec_eq
    apply BitVec.eq_of_getMsbD_eq
    intro i hi
    rw [UInt32.toBitVec_and, UInt32.toBitVec_and, BitVec.getMsbD_and, BitVec.getMsbD_and,
      hmask i hi]
    by_cases hip : i < p
    · rw [h i hip]
    · rw [decide_eq_false hip, Bool.and_false, Bool.and_false]

/-- `new` builds the block of the address, and its base is in it. -/
theorem range_new (a : UInt32) {p : UInt8} (hp : p.toNat ≤ 32) :
    ∃ r, new a p = .ok r ∧ r.range = block p.toNat a ∧ Agree p.toNat a r.ipAddress := by
  obtain ⟨mask, hmaskOf, hmask⟩ := maskOf_spec hp
  refine ⟨{ ipAddress := a &&& mask, pfx := p, mask := mask }, ?_, ?_, ?_⟩
  · rw [new, hmaskOf, bind_ok]
  · ext x
    have heq : (x &&& mask == a &&& mask) = true ↔ Agree p.toNat a x := by
      rw [beq_iff_eq, and_mask_eq_iff hp hmask]
    exact heq
  · apply (and_mask_eq_iff hp hmask a _).mp
    rw [UInt32.and_assoc, UInt32.and_self]

/-- **Matching is exact.** For all addresses and lengths up to 32: an address is in range when
it agrees with the given one on so many bits, a longer range whose base is in a shorter one
is contained in it, and two ranges are nested or disjoint. -/
theorem inRange_exact (a b : UInt32) {p q : UInt8} (hp : p.toNat ≤ 32) (hq : q.toNat ≤ 32) :
    ∃ r s, new a p = .ok r ∧ new b q = .ok s ∧
      (∀ x, r.inRange x = true ↔ Agree p.toNat a x) ∧
      (p.toNat ≤ q.toNat → r.inRange s.ipAddress = true → s.range ⊆ r.range) ∧
      (s.range ⊆ r.range ∨ r.range ⊆ s.range ∨ Disjoint r.range s.range) := by
  obtain ⟨r, hr, hrange, -⟩ := range_new a hp
  obtain ⟨s, hs, hrange', hbase⟩ := range_new b hq
  refine ⟨r, s, hr, hs, fun x => ?_, fun hpq hin => ?_, ?_⟩
  · exact Set.ext_iff.mp hrange x
  · have hagree : Agree p.toNat a s.ipAddress := (Set.ext_iff.mp hrange s.ipAddress).mp hin
    rw [hrange, hrange']
    exact block_subset hpq (hagree.trans (hbase.mono hpq).symm)
  · rw [hrange, hrange']
    rcases Nat.le_total p.toNat q.toNat with hpq | hqp
    · exact (block_nested_or_disjoint hpq a b).imp_right Or.inr
    · exact Or.inr ((block_nested_or_disjoint hqp b a).imp_right fun h => h.symm)

/-- 10.1.0.0/16 is contained in 10.0.0.0/8. -/
theorem inRange_exact_ten : ∃ r s, new 0x0a000000 8 = .ok r ∧ new 0x0a010203 16 = .ok s ∧
    r.inRange s.ipAddress = true ∧ s.range ⊆ r.range := by
  obtain ⟨r, s, hr, hs, hiff, hcontained, -⟩ :=
    inRange_exact 0x0a000000 0x0a010203 (show (8 : UInt8).toNat ≤ 32 by decide)
      (show (16 : UInt8).toNat ≤ 32 by decide)
  have hbase : r.inRange s.ipAddress = true := by
    have hr' : new 0x0a000000 8 =
        .ok { ipAddress := 0x0a000000, pfx := 8, mask := 0xff000000 } := by decide
    have hs' : new 0x0a010203 16 =
        .ok { ipAddress := 0x0a010000, pfx := 16, mask := 0xffff0000 } := by decide
    rw [hr'] at hr
    rw [hs'] at hs
    rw [← Outcome.ok.inj hr, ← Outcome.ok.inj hs]
    decide
  exact ⟨r, s, hr, hs, hbase, hcontained (by decide) hbase⟩

end Ipv4Prefix

end NetBricks.Utils
