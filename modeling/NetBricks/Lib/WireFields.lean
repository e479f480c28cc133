import NetBricks.Lib.Circular
import NetBricks.Lib.Fields

/-!
# Fields of a header on the wire

A header on the wire is one number, its first byte the highest. The figures of the
protocol standards count its bits from the left, so `wireBits start width bytes` is
the field of `width` bits that starts at bit `start` of the header.

Code that has the header in memory does not work on this number but on a few bytes of
it at a time. Two rules lead from the bytes to the number:

* `wireBits_eq` reads a field off the bytes it lies in;
* `Replaces.of_overwrite`: writing a field into these bytes replaces the field in the
  number, and nothing else. `Replaces.wireBits_self` and `Replaces.wireBits_of_disjoint`
  say what a reader sees then.

For half-words, words, single bits and the high half of a byte the rules are spelled
out (`wireBits_half` to `replaces_high`).
-/

namespace NetBricks.Lib

/-! ## The number of a list of bytes -/

theorem beNat_append (a b : List UInt8) :
    beNat (a ++ b) = 2 ^ (8 * b.length) * beNat a + beNat b := by
  have hpow : 256 ^ b.length = 2 ^ (8 * b.length) := by
    rw [Nat.pow_mul]
  rw [beNat, leNat, List.reverse_append, List.map_append, Nat.ofDigits_append, List.length_map,
    List.length_reverse, hpow, Nat.add_comm]
  rfl

theorem beNat_lt_two_pow (bytes : List UInt8) : beNat bytes < 2 ^ (8 * bytes.length) := by
  have h := beNat_lt bytes
  rwa [show 256 = 2 ^ 8 from rfl, ← Nat.pow_mul] at h

theorem testBit_beNat_append (a b : List UInt8) (i : Nat) :
    (beNat (a ++ b)).testBit i =
      if i < 8 * b.length then (beNat b).testBit i else (beNat a).testBit (i - 8 * b.length) := by
  rw [beNat_append, Nat.testBit_two_pow_mul_add _ (beNat_lt_two_pow b)]

/-- A header, cut into the bytes before a piece of it, the piece and the bytes behind. -/
theorem split_piece {bytes piece : List UInt8} {i k : Nat}
    (hpiece : (bytes.drop i).take k = piece) :
    bytes = bytes.take i ++ (piece ++ bytes.drop (i + k)) := by
  rw [← hpiece, ← List.drop_drop, List.take_append_drop, List.take_append_drop]

theorem length_piece {bytes piece : List UInt8} {i k : Nat}
    (hpiece : (bytes.drop i).take k = piece) (hin : i + k ≤ bytes.length) : piece.length = k := by
  rw [← hpiece, List.length_take, List.length_drop]
  omega

/-- The bits of the header, by where they lie. -/
theorem testBit_beNat_piece {bytes piece : List UInt8} {i k : Nat}
    (hpiece : (bytes.drop i).take k = piece) (hin : i + k ≤ bytes.length) (j : Nat) :
    (beNat bytes).testBit j =
      if j < 8 * (k + (bytes.length - i - k)) then
        if j < 8 * (bytes.length - i - k) then (beNat (bytes.drop (i + k))).testBit j
        else (beNat piece).testBit (j - 8 * (bytes.length - i - k))
      else (beNat (bytes.take i)).testBit (j - 8 * (k + (bytes.length - i - k))) := by
  have hafter : (bytes.drop (i + k)).length = bytes.length - i - k := by
    rw [List.length_drop]
    omega
  have h := testBit_beNat_append (bytes.take i) (piece ++ bytes.drop (i + k)) j
  rwa [← split_piece hpiece, testBit_beNat_append, List.length_append, length_piece hpiece hin,
    hafter] at h

/-! ## Fields -/

/-- The `width` bits from bit `start` on, counted from the left. -/
def wireBits (start width : Nat) (bytes : List UInt8) : Nat :=
  bits (8 * bytes.length - start - width) width (beNat bytes)

/-- A field is read off the bytes it lies in. -/
theorem wireBits_eq {bytes piece : List UInt8} {i k s w : Nat}
    (hpiece : (bytes.drop i).take k = piece) (hin : i + k ≤ bytes.length) (hfit : s + w ≤ 8 * k) :
    wireBits (8 * i + s) w bytes = bits (8 * k - s - w) w (beNat piece) := by
  apply Nat.eq_of_testBit_eq
  intro j
  rw [wireBits, testBit_bits, testBit_bits, testBit_beNat_piece hpiece hin]
  by_cases hj : j < w
  · rw [if_pos (by omega), if_neg (by omega)]
    congr 2
    omega
  · rw [decide_eq_false hj, Bool.false_and, Bool.false_and]

/-- The second header is the first one with the field replaced by the low bits of `v`. -/
structure Replaces (start width v : Nat) (bytes bytes' : List UInt8) : Prop where
  length_eq : bytes'.length = bytes.length
  beNat_eq : beNat bytes' = setBits (8 * bytes.length - start - width) width v (beNat bytes)

namespace Replaces

variable {start width v : Nat} {bytes bytes' : List UInt8}

theorem wireBits_self (h : Replaces start width v bytes bytes') :
    wireBits start width bytes' = v % 2 ^ width := by
  rw [wireBits, h.length_eq, h.beNat_eq, bits_setBits]

theorem wireBits_of_disjoint (h : Replaces start width v bytes bytes') {start' width' : Nat}
    (hdisj : start' + width' ≤ start ∨ start + width ≤ start')
    (hin : start + width ≤ 8 * bytes.length) (hin' : start' + width' ≤ 8 * bytes.length) :
    wireBits start' width' bytes' = wireBits start' width' bytes := by
  rw [wireBits, wireBits, h.length_eq, h.beNat_eq, bits_setBits_of_disjoint (by omega)]

/-- Writing a field into the bytes it lies in. -/
theorem of_overwrite {piece piece' : List UInt8} {i k s w : Nat}
    (hpiece : (bytes.drop i).take k = piece) (hin : i + k ≤ bytes.length) (hfit : s + w ≤ 8 * k)
    (hlen : piece'.length = k)
    (hset : beNat piece' = setBits (8 * k - s - w) w v (beNat piece)) :
    Replaces (8 * i + s) w v bytes (overwrite bytes i piece') := by
  refine ⟨length_overwrite (by omega), Nat.eq_of_testBit_eq fun j => ?_⟩
  have hafter : (bytes.drop (i + k)).length = bytes.length - i - k := by
    rw [List.length_drop]
    omega
  rw [overwrite, hlen, testBit_beNat_append, testBit_beNat_append, List.length_append, hlen, hafter,
    testBit_setBits, testBit_beNat_piece hpiece hin, hset, testBit_setBits]
  -- bit `j` lies behind the piece, in it, or before it
  by_cases hbehind : j < 8 * (bytes.length - i - k)
  · simp only [if_pos hbehind, if_pos (show j < 8 * (k + (bytes.length - i - k)) by omega),
      if_pos (show j < 8 * bytes.length - (8 * i + s) - w by omega)]
  · by_cases hinside : j < 8 * (k + (bytes.length - i - k))
    · simp only [if_neg hbehind, if_pos hinside]
      by_cases hlow : j < 8 * bytes.length - (8 * i + s) - w
      · rw [if_pos hlow, if_pos (by omega)]
      · rw [if_neg hlow, if_neg (by omega)]
        by_cases hfield : j < 8 * bytes.length - (8 * i + s) - w + w
        · rw [if_pos hfield, if_pos (by omega)]
          congr 1
          omega
        · rw [if_neg hfield, if_neg (by omega)]
    · simp only [if_neg hinside]
      rw [if_neg (by omega), if_neg (by omega)]

end Replaces

/-! ## Half-words and words -/

theorem wireBits_half {bytes : List UInt8} {i : Nat} {x : UInt16}
    (hpiece : (bytes.drop i).take 2 = leBytes16 x) (hin : i + 2 ≤ bytes.length) :
    wireBits (8 * i) 16 bytes = (swap16 x).toNat := by
  have h := wireBits_eq (s := 0) (w := 16) hpiece hin (by decide)
  rw [beNat_leBytes16] at h
  refine h.trans ?_
  rw [bits, Nat.mod_eq_of_lt (Nat.lt_of_le_of_lt (Nat.div_le_self _ _) (swap16 x).toNat_lt)]
  exact Nat.div_one _

theorem wireBits_word {bytes : List UInt8} {i : Nat} {x : UInt32}
    (hpiece : (bytes.drop i).take 4 = leBytes x) (hin : i + 4 ≤ bytes.length) :
    wireBits (8 * i) 32 bytes = (swap32 x).toNat := by
  have h := wireBits_eq (s := 0) (w := 32) hpiece hin (by decide)
  rw [beNat_leBytes] at h
  exact h.trans (bits_all _)

theorem replaces_half {bytes : List UInt8} {i : Nat} {x : UInt16} (v : Nat)
    (hpiece : (bytes.drop i).take 2 = leBytes16 x) (hin : i + 2 ≤ bytes.length) :
    Replaces (8 * i) 16 v bytes (overwrite bytes i (leBytes16 (swap16 (.ofNat v)))) := by
  have hx := (swap16 x).toNat_lt
  refine Replaces.of_overwrite (s := 0) hpiece hin (by decide) rfl ?_
  rw [beNat_leBytes16, beNat_leBytes16, swap16_swap16, UInt16.toNat_ofNat']
  simp only [setBits]
  omega

theorem replaces_word {bytes : List UInt8} {i : Nat} {x : UInt32} (v : Nat)
    (hpiece : (bytes.drop i).take 4 = leBytes x) (hin : i + 4 ≤ bytes.length) :
    Replaces (8 * i) 32 v bytes (overwrite bytes i (leBytes (swap32 (.ofNat v)))) := by
  have hx := (swap32 x).toNat_lt
  refine Replaces.of_overwrite (s := 0) hpiece hin (by decide) rfl ?_
  rw [beNat_leBytes, beNat_leBytes, swap32_swap32, UInt32.toNat_ofNat']
  simp only [setBits]
  omega

/-! ## Parts of a byte -/

theorem beNat_singleton (b : UInt8) : beNat [b] = b.toNat := by
  simp [beNat, leNat]

/-- One bit of a byte, as `b & mask` looks at it. -/
theorem toNat_and_bit {b mask : UInt8} {k : Nat} (hmask : mask.toNat = 2 ^ k) :
    (b &&& mask).toNat = bits k 1 b.toNat * 2 ^ k := by
  rw [UInt8.toNat_and, hmask]
  have h := and_mask k 1 b.toNat
  rwa [show (2 ^ 1 - 1) * 2 ^ k = 2 ^ k by omega] at h

theorem toNat_or_bit {b mask : UInt8} {k : Nat} (hmask : mask.toNat = 2 ^ k) :
    (b ||| mask).toNat = setBits k 1 1 b.toNat := by
  apply Nat.eq_of_testBit_eq
  intro i
  rw [UInt8.toNat_or, hmask, Nat.testBit_or, Nat.testBit_two_pow, testBit_setBits]
  by_cases hlow : i < k
  · simp [hlow, show ¬ k = i by omega]
  · by_cases hk : i < k + 1
    · have hik : i = k := by omega
      simp [hik]
    · simp [hlow, hk, show ¬ k = i by omega]

theorem toNat_and_not_bit {b mask : UInt8} {k : Nat} (hk : k < 8) (hmask : mask.toNat = 2 ^ k) :
    (b &&& ~~~mask).toNat = setBits k 1 0 b.toNat := by
  have h := @and_not_mask_or 8 k 1 0 b.toNat (by omega) b.toNat_lt (by decide)
  rw [Nat.zero_mul, Nat.or_zero, show (2 ^ 1 - 1) * 2 ^ k = 2 ^ k by omega] at h
  rw [UInt8.toNat_and, UInt8.toNat_not, hmask, ← h]
  rfl

theorem wireBits_bit {bytes : List UInt8} {i k : Nat} {b : UInt8}
    (hpiece : (bytes.drop i).take 1 = [b]) (hin : i + 1 ≤ bytes.length) (hk : k < 8) :
    wireBits (8 * i + (7 - k)) 1 bytes = bits k 1 b.toNat := by
  have h := wireBits_eq (s := 7 - k) (w := 1) hpiece hin (by omega)
  rw [h, beNat_singleton]
  congr 1
  omega

theorem replaces_bit {bytes : List UInt8} {i k v : Nat} {b b' : UInt8}
    (hpiece : (bytes.drop i).take 1 = [b]) (hin : i + 1 ≤ bytes.length) (hk : k < 8)
    (hset : b'.toNat = setBits k 1 v b.toNat) :
    Replaces (8 * i + (7 - k)) 1 v bytes (overwrite bytes i [b']) := by
  refine Replaces.of_overwrite (s := 7 - k) hpiece hin (by omega)
    rfl ?_
  rw [beNat_singleton, beNat_singleton, hset]
  congr 1
  omega

theorem wireBits_high {bytes : List UInt8} {i : Nat} {b : UInt8}
    (hpiece : (bytes.drop i).take 1 = [b]) (hin : i + 1 ≤ bytes.length) :
    wireBits (8 * i) 4 bytes = bits 4 4 b.toNat := by
  have h := wireBits_eq (s := 0) (w := 4) hpiece hin (by decide)
  rwa [beNat_singleton] at h

theorem replaces_high {bytes : List UInt8} {i v : Nat} {b b' : UInt8}
    (hpiece : (bytes.drop i).take 1 = [b]) (hin : i + 1 ≤ bytes.length)
    (hset : b'.toNat = setBits 4 4 v b.toNat) :
    Replaces (8 * i) 4 v bytes (overwrite bytes i [b']) := by
  refine Replaces.of_overwrite (s := 0) hpiece hin (by decide) rfl ?_
  rw [beNat_singleton, beNat_singleton, hset]

end NetBricks.Lib
