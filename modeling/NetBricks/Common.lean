import NetBricks.Lib.Word

/-!
# Shared vocabulary: error kinds, machine widths, parsing, rounding

`ErrorKind` lists the `error_chain!` kinds of `common/errors.rs` that the
modelled functions return. `usize` is 64 bits wide (the target is x86-64), and
`roundToPowerOf2` is `utils::round_to_power_of_2`, shift for shift. `cString` and
`parseI32` are the two library calls on strings that more than one module makes.
-/

namespace NetBricks

open Lib

/-- The error kinds the modelled functions return. -/
inductive ErrorKind where
  | failedAllocation
  | failedDeallocation
  | badOffset (offset : Nat)
  | metadataTooLarge
  | invalidRingSize (size : Nat)
  | failedToInitializePort (port : Int32)
  | badDev (dev : String)
  | badVdev (vdev : String)
  | badTxQueue (port queue : Int32)
  | badRxQueue (port queue : Int32)
  | configurationError (description : String)
  deriving DecidableEq, Repr

/-- `u16::MAX`. -/
def u16Max : Nat := 65535

/-- `CString::new(s).unwrap()`. -/
def cString (s : String) : Outcome String :=
  if '\x00' ∈ s.toList then .panic (.explicit "called `Result::unwrap()` on an `Err` value")
  else .ok s

/-- The number that decimal digits stand for. -/
def parseDigits (digits : List Char) : Option Nat :=
  if digits = [] then none
  else digits.foldlM (fun n c =>
    if '0' ≤ c ∧ c ≤ '9' then some (10 * n + (c.toNat - '0'.toNat)) else none) 0

/-- `s.parse::<i32>()`. -/
def parseI32 (s : String) : Option Int32 :=
  let number : Option Int := match s.toList with
    | '+' :: digits => (parseDigits digits).map Int.ofNat
    | '-' :: digits => (parseDigits digits).map fun n => -(n : Int)
    | digits => (parseDigits digits).map Int.ofNat
  (number.filter fun n => -2 ^ 31 ≤ n ∧ n < 2 ^ 31).map Int32.ofInt

/-- `utils::round_to_power_of_2`. -/
def roundToPowerOf2 (size : Nat) : Nat :=
  let size := wrappingSub 64 size 1
  let size := size ||| (size >>> 1)
  let size := size ||| (size >>> 2)
  let size := size ||| (size >>> 4)
  let size := size ||| (size >>> 8)
  let size := size ||| (size >>> 16)
  let size := size ||| (size >>> 32)
  wrappingAdd 64 size 1

/-! ## Rounding up -/

/-- `y` is `x` with every bit copied to the `w - 1` places below it. -/
def Smeared (x w y : Nat) : Prop := ∀ i, y.testBit i = true ↔ ∃ j, j < w ∧ x.testBit (i + j) = true

theorem smeared_one (x : Nat) : Smeared x 1 x := by
  intro i
  constructor
  · intro h
    exact ⟨0, Nat.zero_lt_one, h⟩
  · rintro ⟨j, hj, h⟩
    rwa [Nat.lt_one_iff.mp hj] at h

/-- One line of the rounding doubles the reach of the smear. -/
theorem Smeared.double {x w y : Nat} (h : Smeared x w y) : Smeared x (2 * w) (y ||| (y >>> w)) := by
  intro i
  rw [Nat.testBit_or, Nat.testBit_shiftRight, Bool.or_eq_true, h i, h (w + i)]
  constructor
  · rintro (⟨j, hj, hx⟩ | ⟨j, hj, hx⟩)
    · exact ⟨j, by omega, hx⟩
    · exact ⟨w + j, by omega, by rwa [Nat.add_comm w i, Nat.add_assoc] at hx⟩
  · rintro ⟨j, hj, hx⟩
    rcases Nat.lt_or_ge j w with hw | hw
    · exact Or.inl ⟨j, hw, hx⟩
    · refine Or.inr ⟨j - w, by omega, ?_⟩
      rwa [show w + i + (j - w) = i + j by omega]

/-- Smeared over the whole word, a number becomes all ones up to its top bit. -/
theorem Smeared.eq_two_pow_sub_one {x w y : Nat} (h : Smeared x w y) (hx : x ≠ 0)
    (hlt : x < 2 ^ w) : y = 2 ^ (x.log2 + 1) - 1 := by
  apply Nat.eq_of_testBit_eq
  intro i
  rw [Nat.testBit_two_pow_sub_one, Bool.eq_iff_iff, h i, decide_eq_true_iff]
  have hlog := (Nat.log2_lt hx).mpr hlt
  constructor
  · rintro ⟨j, -, hbit⟩
    have hge : 2 ^ (i + j) ≤ x := Nat.ge_two_pow_of_testBit hbit
    have : i + j ≤ x.log2 := (Nat.le_log2 hx).mpr hge
    omega
  · intro hi
    refine ⟨x.log2 - i, by omega, ?_⟩
    rw [show i + (x.log2 - i) = x.log2 by omega]
    exact Nat.testBit_log2 hx

/-- Rounding gives the least power of two that is not below `size`, reduced to
a `usize`. -/
theorem roundToPowerOf2_eq {size : Nat} (h : 2 ≤ size) (hlt : size < 2 ^ 64) :
    ∃ k, roundToPowerOf2 size = 2 ^ k % 2 ^ 64 ∧ size ≤ 2 ^ k ∧ 2 ^ k < 2 * size := by
  have hsub : wrappingSub 64 size 1 = size - 1 := wrappingSub_of_le (by omega) hlt
  have hsmear := (smeared_one (size - 1)).double.double.double.double.double.double
  have hones := hsmear.eq_two_pow_sub_one (by omega) (by omega)
  refine ⟨(size - 1).log2 + 1, ?_, ?_, ?_⟩
  · have hpos := Nat.two_pow_pos ((size - 1).log2 + 1)
    unfold roundToPowerOf2
    rw [hsub]
    dsimp only
    refine (congrArg (wrappingAdd 64 · 1) hones).trans ?_
    rw [wrappingAdd, Nat.sub_add_cancel hpos]
  · have := Nat.lt_log2_self (n := size - 1)
    omega
  · have := Nat.log2_self_le (n := size - 1) (by omega)
    rw [Nat.pow_succ]
    omega

/-- There is only one power of two from `n` to below its double. -/
theorem two_pow_unique {n j k : Nat} (hj : n ≤ 2 ^ j) (hj' : 2 ^ j < 2 * n) (hk : n ≤ 2 ^ k)
    (hk' : 2 ^ k < 2 * n) : j = k := by
  have hjk : j < k + 1 := (Nat.pow_lt_pow_iff_right (a := 2) (by decide)).mp (by
    rw [Nat.pow_succ]
    omega)
  have hkj : k < j + 1 := (Nat.pow_lt_pow_iff_right (a := 2) (by decide)).mp (by
    rw [Nat.pow_succ]
    omega)
  omega

/-- The rounding is the power of two that is not below `size` and below its double. -/
theorem roundToPowerOf2_of_le {size k : Nat} (h : 2 ≤ size) (hk : k < 64) (hle : size ≤ 2 ^ k)
    (hlt : 2 ^ k < 2 * size) : roundToPowerOf2 size = 2 ^ k := by
  have hbound : 2 ^ k < 2 ^ 64 := Nat.pow_lt_pow_right (by decide) hk
  obtain ⟨j, heq, hlej, hltj⟩ := roundToPowerOf2_eq h (by omega)
  obtain rfl := two_pow_unique hlej hltj hle hlt
  rw [heq, Nat.mod_eq_of_lt hbound]

/-- A power of two is its own rounding. -/
theorem roundToPowerOf2_two_pow {k : Nat} (hk : k < 64) : roundToPowerOf2 (2 ^ k) = 2 ^ k := by
  cases k with
  | zero => rfl
  | succ k =>
    have hpos := Nat.two_pow_pos k
    exact roundToPowerOf2_of_le (by rw [Nat.pow_succ]; omega) hk (Nat.le_refl _) (by omega)

end NetBricks
