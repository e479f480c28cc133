import Mathlib.Data.List.Basic
import Mathlib.Data.Nat.Bitwise
import Mathlib.Data.Nat.Digits.Defs

/-!
# Bit fields and byte order

A packed structure keeps several fields in one machine word. `bits lo n x` is the
field of `n` bits from bit `lo` on, and `setBits` replaces it. What is there to
know about them is in two rules, what was set is read back (`bits_setBits`) and
other fields stay (`bits_setBits_of_disjoint`); `toNat_readField` and
`toNat_writeField` bring the usual mask-and-shift code into these terms.

A word lies in memory with its low byte first (`leNat`), and on the wire with its
high byte first (`beNat`). `swap16` and `swap32` turn one into the other: they are
`from_be` and `to_be` on a little-endian machine.
-/

namespace NetBricks.Lib

/-! ## Fields of a number -/

/-- The `n` bits of `x` from bit `lo` on. -/
def bits (lo n x : Nat) : Nat := x / 2 ^ lo % 2 ^ n

/-- `x` with these bits replaced by the low bits of `v`. -/
def setBits (lo n v x : Nat) : Nat :=
  2 ^ lo * (2 ^ n * (x / 2 ^ (lo + n)) + v % 2 ^ n) + x % 2 ^ lo

theorem testBit_bits (lo n x i : Nat) :
    (bits lo n x).testBit i = (decide (i < n) && x.testBit (i + lo)) := by
  rw [bits, Nat.testBit_mod_two_pow, Nat.testBit_div_two_pow]

theorem testBit_setBits (lo n v x i : Nat) :
    (setBits lo n v x).testBit i =
      if i < lo then x.testBit i
      else if i < lo + n then v.testBit (i - lo) else x.testBit i := by
  have hlow : x % 2 ^ lo < 2 ^ lo := Nat.mod_lt _ (Nat.two_pow_pos lo)
  have hmid : v % 2 ^ n < 2 ^ n := Nat.mod_lt _ (Nat.two_pow_pos n)
  rw [setBits, Nat.testBit_two_pow_mul_add _ hlow]
  by_cases hi : i < lo
  · rw [if_pos hi, if_pos hi, Nat.testBit_mod_two_pow, decide_eq_true hi, Bool.true_and]
  · rw [if_neg hi, if_neg hi, Nat.testBit_two_pow_mul_add _ hmid]
    by_cases hn : i < lo + n
    · rw [if_pos hn, if_pos (by omega), Nat.testBit_mod_two_pow, decide_eq_true (by omega),
        Bool.true_and]
    · rw [if_neg hn, if_neg (by omega), Nat.testBit_div_two_pow]
      congr 1
      omega

theorem bits_setBits (lo n v x : Nat) : bits lo n (setBits lo n v x) = v % 2 ^ n := by
  apply Nat.eq_of_testBit_eq
  intro i
  rw [testBit_bits, testBit_setBits, if_neg (by omega), Nat.testBit_mod_two_pow,
    Nat.add_sub_cancel]
  by_cases hi : i < n
  · rw [if_pos (by omega)]
  · rw [decide_eq_false hi, Bool.false_and, Bool.false_and]

theorem bits_setBits_of_disjoint {lo n lo' n' : Nat} (h : lo' + n' ≤ lo ∨ lo + n ≤ lo')
    (v x : Nat) : bits lo' n' (setBits lo n v x) = bits lo' n' x := by
  apply Nat.eq_of_testBit_eq
  intro i
  rw [testBit_bits, testBit_bits, testBit_setBits]
  by_cases hi : i < n'
  · congr 1
    rcases h with h | h
    · rw [if_pos (by omega)]
    · rw [if_neg (by omega), if_neg (by omega)]
  · rw [decide_eq_false hi, Bool.false_and, Bool.false_and]

theorem bits_and (lo n x y : Nat) : bits lo n (x &&& y) = bits lo n x &&& bits lo n y := by
  apply Nat.eq_of_testBit_eq
  intro i
  simp only [testBit_bits, Nat.testBit_and]
  cases decide (i < n) <;> simp

theorem bits_or (lo n x y : Nat) : bits lo n (x ||| y) = bits lo n x ||| bits lo n y := by
  apply Nat.eq_of_testBit_eq
  intro i
  simp only [testBit_bits, Nat.testBit_or]
  cases decide (i < n) <;> simp

theorem bits_lt (lo n x : Nat) : bits lo n x < 2 ^ n := Nat.mod_lt _ (Nat.two_pow_pos n)

theorem bits_bits {lo n m : Nat} (h : lo + n ≤ m) (lo' x : Nat) :
    bits lo n (bits lo' m x) = bits (lo' + lo) n x := by
  apply Nat.eq_of_testBit_eq
  intro i
  rw [testBit_bits, testBit_bits, testBit_bits]
  by_cases hi : i < n
  · rw [decide_eq_true (show i + lo < m by omega), Bool.true_and, Nat.add_right_comm i lo lo',
      Nat.add_assoc, Nat.add_comm lo' lo]
  · rw [decide_eq_false hi, Bool.false_and, Bool.false_and]

theorem and_mask (lo n x : Nat) : x &&& (2 ^ n - 1) * 2 ^ lo = bits lo n x * 2 ^ lo := by
  apply Nat.eq_of_testBit_eq
  intro i
  rw [Nat.testBit_and, Nat.testBit_mul_two_pow, Nat.testBit_mul_two_pow, testBit_bits,
    Nat.testBit_two_pow_sub_one]
  by_cases hi : lo ≤ i
  · rw [decide_eq_true hi, Nat.sub_add_cancel hi, Bool.true_and, Bool.true_and, Bool.and_comm]
  · rw [decide_eq_false hi, Bool.false_and, Bool.false_and, Bool.and_false]

/-- Blanking a field with the complement of its mask and putting a value there. -/
theorem and_not_mask_or {w lo n v x : Nat} (hw : lo + n ≤ w) (hx : x < 2 ^ w) (hv : v < 2 ^ n) :
    x &&& (2 ^ w - 1 - (2 ^ n - 1) * 2 ^ lo) ||| v * 2 ^ lo = setBits lo n v x := by
  have hmask : (2 ^ n - 1) * 2 ^ lo < 2 ^ w := by
    have hn := Nat.two_pow_pos n
    calc (2 ^ n - 1) * 2 ^ lo < 2 ^ n * 2 ^ lo :=
          Nat.mul_lt_mul_of_pos_right (by omega) (Nat.two_pow_pos lo)
      _ = 2 ^ (lo + n) := by rw [← Nat.pow_add, Nat.add_comm]
      _ ≤ 2 ^ w := Nat.pow_le_pow_right (by decide) hw
  have hnot : 2 ^ w - 1 - (2 ^ n - 1) * 2 ^ lo = 2 ^ w - ((2 ^ n - 1) * 2 ^ lo + 1) := by omega
  apply Nat.eq_of_testBit_eq
  intro i
  rw [hnot, Nat.testBit_or, Nat.testBit_and, Nat.testBit_two_pow_sub_succ hmask,
    Nat.testBit_mul_two_pow, Nat.testBit_mul_two_pow, Nat.testBit_two_pow_sub_one, testBit_setBits]
  by_cases hlo : i < lo
  · have hle : ¬ lo ≤ i := by omega
    have hi : i < w := by omega
    simp [hlo, hle, hi]
  · have hle : lo ≤ i := by omega
    by_cases hn : i < lo + n
    · have hin : i - lo < n := by omega
      simp [hlo, hn, hle, hin]
    · have hin : ¬ i - lo < n := by omega
      have hvi : v.testBit (i - lo) = false :=
        Nat.testBit_lt_two_pow (Nat.lt_of_lt_of_le hv (Nat.pow_le_pow_right (by decide) (by omega)))
      by_cases hi : i < w
      · simp [hlo, hn, hle, hin, hvi, hi]
      · have hxi : x.testBit i = false :=
          Nat.testBit_lt_two_pow
            (Nat.lt_of_lt_of_le hx (Nat.pow_le_pow_right (by decide) (by omega)))
        simp [hlo, hn, hle, hin, hvi, hi, hxi]

/-! ## Fields of a 32-bit word -/

/-- `(word & mask) >> shift`. -/
def readField (mask shift word : UInt32) : UInt32 := (word &&& mask) >>> shift

/-- `(word & !mask) | (value << shift)`. -/
def writeField (mask shift value word : UInt32) : UInt32 := (word &&& ~~~mask) ||| (value <<< shift)

/-- `mask` covers the `n` bits from bit `lo` on, and `shift` brings them down. -/
structure FieldMask (lo n : Nat) (mask shift : UInt32) : Prop where
  mask_eq : mask.toNat = (2 ^ n - 1) * 2 ^ lo
  shift_eq : shift.toNat = lo
  pos : 0 < n
  le : lo + n ≤ 32

instance (lo n : Nat) (mask shift : UInt32) : Decidable (FieldMask lo n mask shift) :=
  decidable_of_iff (mask.toNat = (2 ^ n - 1) * 2 ^ lo ∧ shift.toNat = lo ∧ 0 < n ∧ lo + n ≤ 32)
    ⟨fun h => ⟨h.1, h.2.1, h.2.2.1, h.2.2.2⟩, fun h => ⟨h.mask_eq, h.shift_eq, h.pos, h.le⟩⟩

theorem toNat_readField {lo n : Nat} {mask shift : UInt32} (h : FieldMask lo n mask shift)
    (word : UInt32) : (readField mask shift word).toNat = bits lo n word.toNat := by
  have hpos := h.pos
  have hle := h.le
  rw [readField, UInt32.toNat_shiftRight, UInt32.toNat_and, h.mask_eq, h.shift_eq, and_mask,
    Nat.mod_eq_of_lt (by omega), Nat.shiftRight_eq_div_pow,
    Nat.mul_div_cancel _ (Nat.two_pow_pos lo)]

/-- Only the low bits of the value count. -/
theorem setBits_mod (lo n v x : Nat) : setBits lo n (v % 2 ^ n) x = setBits lo n v x := by
  rw [setBits, setBits, Nat.mod_mod]

theorem toNat_writeField {lo n v : Nat} {mask shift : UInt32} (h : FieldMask lo n mask shift)
    {value : UInt32} (hv : value.toNat = v % 2 ^ n) (word : UInt32) :
    (writeField mask shift value word).toNat = setBits lo n v word.toNat := by
  have hpos := h.pos
  have hle := h.le
  have hvlt : v % 2 ^ n < 2 ^ n := Nat.mod_lt _ (Nat.two_pow_pos n)
  have hlt : v % 2 ^ n * 2 ^ lo < 2 ^ 32 :=
    calc v % 2 ^ n * 2 ^ lo < 2 ^ n * 2 ^ lo :=
          Nat.mul_lt_mul_of_pos_right hvlt (Nat.two_pow_pos lo)
      _ = 2 ^ (lo + n) := by rw [← Nat.pow_add, Nat.add_comm]
      _ ≤ 2 ^ 32 := Nat.pow_le_pow_right (by decide) hle
  rw [writeField, UInt32.toNat_or, UInt32.toNat_and, UInt32.toNat_not, UInt32.toNat_shiftLeft,
    h.mask_eq, h.shift_eq, hv, Nat.mod_eq_of_lt (show lo < 32 by omega), Nat.shiftLeft_eq,
    Nat.mod_eq_of_lt hlt, ← setBits_mod]
  exact and_not_mask_or hle word.toNat_lt hvlt

theorem toNat_readField_toUInt8 {lo n : Nat} {mask shift : UInt32} (h : FieldMask lo n mask shift)
    (hn : n ≤ 8) (word : UInt32) :
    (readField mask shift word).toUInt8.toNat = bits lo n word.toNat := by
  rw [UInt32.toNat_toUInt8, toNat_readField h]
  exact Nat.mod_eq_of_lt
    (Nat.lt_of_lt_of_le (bits_lt lo n _) (Nat.pow_le_pow_right (by decide) hn))

theorem toNat_readField_toUInt16 {lo n : Nat} {mask shift : UInt32} (h : FieldMask lo n mask shift)
    (hn : n ≤ 16) (word : UInt32) :
    (readField mask shift word).toUInt16.toNat = bits lo n word.toNat := by
  rw [UInt32.toNat_toUInt16, toNat_readField h]
  exact Nat.mod_eq_of_lt
    (Nat.lt_of_lt_of_le (bits_lt lo n _) (Nat.pow_le_pow_right (by decide) hn))

theorem readField_toUInt16 {lo n : Nat} {mask shift : UInt32} (h : FieldMask lo n mask shift)
    (hn : n ≤ 16) (word : UInt32) :
    (readField mask shift word).toUInt16 = .ofNat (bits lo n word.toNat) := by
  rw [← toNat_readField_toUInt16 h hn, UInt16.ofNat_toNat]

theorem bits_all (x : UInt32) : bits 0 32 x.toNat = x.toNat := by
  rw [bits, Nat.pow_zero, Nat.div_one, Nat.mod_eq_of_lt x.toNat_lt]

theorem setBits_all (v x : UInt32) : setBits 0 32 v.toNat x.toNat = v.toNat := by
  have hx := x.toNat_lt
  have hv := v.toNat_lt
  unfold setBits
  omega

/-! ## Byte order -/

/-- `u16::from_be` and `u16::to_be`. -/
def swap16 (x : UInt16) : UInt16 := x % 256 * 256 + x / 256

/-- `u32::from_be` and `u32::to_be`. -/
def swap32 (x : UInt32) : UInt32 :=
  x % 256 * 16777216 + x / 256 % 256 * 65536 + x / 65536 % 256 * 256 + x / 16777216

theorem toNat_swap16 (x : UInt16) : (swap16 x).toNat = x.toNat % 256 * 256 + x.toNat / 256 := by
  have hx := x.toNat_lt
  simp only [swap16, UInt16.toNat_add, UInt16.toNat_mul, UInt16.toNat_mod, UInt16.toNat_div,
    UInt16.toNat_ofNat, Nat.reducePow, Nat.reduceMod]
  omega

theorem swap16_swap16 (x : UInt16) : swap16 (swap16 x) = x := by
  have hx := x.toNat_lt
  apply UInt16.toNat_inj.mp
  rw [toNat_swap16, toNat_swap16]
  omega

/-- The number with these bytes, the low one first. -/
def word (a b c d : UInt8) : Nat := a.toNat + 256 * (b.toNat + 256 * (c.toNat + 256 * d.toNat))

theorem word_lt (a b c d : UInt8) : word a b c d < 2 ^ 32 := by
  have ha := a.toNat_lt
  have hb := b.toNat_lt
  have hc := c.toNat_lt
  have hd := d.toNat_lt
  unfold word
  omega

theorem word_bytes (a b c d : UInt8) :
    word a b c d % 256 = a.toNat ∧ word a b c d / 256 % 256 = b.toNat ∧
      word a b c d / 65536 % 256 = c.toNat ∧ word a b c d / 16777216 = d.toNat := by
  have ha := a.toNat_lt
  have hb := b.toNat_lt
  have hc := c.toNat_lt
  unfold word
  omega

theorem bits_word (a b c d : UInt8) :
    bits 0 8 (word a b c d) = a.toNat ∧ bits 8 8 (word a b c d) = b.toNat ∧
      bits 16 8 (word a b c d) = c.toNat ∧ bits 24 8 (word a b c d) = d.toNat := by
  have ha := a.toNat_lt
  have hb := b.toNat_lt
  have hc := c.toNat_lt
  have hd := d.toNat_lt
  unfold bits word
  omega

/-- A word as it lies in the memory of a little-endian machine. -/
def leBytes (x : UInt32) : List UInt8 :=
  [x.toUInt8, (x >>> 8).toUInt8, (x >>> 16).toUInt8, (x >>> 24).toUInt8]

theorem leBytes_eq {x : UInt32} {a b c d : UInt8} (hx : x.toNat = word a b c d) :
    leBytes x = [a, b, c, d] := by
  obtain ⟨h₀, h₁, h₂, h₃⟩ := word_bytes a b c d
  have hd := d.toNat_lt
  unfold leBytes
  congr
  all_goals
    apply UInt8.toNat_inj.mp
    simp only [UInt32.toNat_toUInt8, UInt32.toNat_shiftRight, UInt32.toNat_ofNat,
      Nat.shiftRight_eq_div_pow, Nat.reducePow, Nat.reduceMod, hx]
    omega

theorem exists_word (x : UInt32) : ∃ a b c d, x.toNat = word a b c d := by
  have hx := x.toNat_lt
  refine ⟨x.toUInt8, (x >>> 8).toUInt8, (x >>> 16).toUInt8, (x >>> 24).toUInt8, ?_⟩
  simp only [word, UInt32.toNat_toUInt8, UInt32.toNat_shiftRight, UInt32.toNat_ofNat,
    Nat.shiftRight_eq_div_pow, Nat.reducePow, Nat.reduceMod]
  omega

theorem toNat_swap32 {x : UInt32} {a b c d : UInt8} (hx : x.toNat = word a b c d) :
    (swap32 x).toNat = word d c b a := by
  obtain ⟨h₀, h₁, h₂, h₃⟩ := word_bytes a b c d
  have hlt := word_lt d c b a
  simp only [swap32, UInt32.toNat_add, UInt32.toNat_mul, UInt32.toNat_mod, UInt32.toNat_div,
    UInt32.toNat_ofNat, Nat.reducePow, Nat.reduceMod, hx, h₀, h₁, h₂, h₃]
  unfold word at hlt ⊢
  omega

theorem swap32_swap32 (x : UInt32) : swap32 (swap32 x) = x := by
  obtain ⟨a, b, c, d, hx⟩ := exists_word x
  apply UInt32.toNat_inj.mp
  rw [hx]
  exact toNat_swap32 (toNat_swap32 hx)

/-- A field inside a byte is in the mirrored byte of the swapped word. -/
theorem bits_swap32 (k lo n : Nat) (hk : k < 4) (hn : lo + n ≤ 8) (x : UInt32) :
    bits (8 * (3 - k) + lo) n (swap32 x).toNat = bits (8 * k + lo) n x.toNat := by
  obtain ⟨a, b, c, d, hx⟩ := exists_word x
  rw [← bits_bits hn, ← bits_bits hn, toNat_swap32 hx, hx]
  congr 1
  obtain ⟨h₀, h₁, h₂, h₃⟩ := bits_word a b c d
  obtain ⟨h₀', h₁', h₂', h₃'⟩ := bits_word d c b a
  rcases (by omega : k = 0 ∨ k = 1 ∨ k = 2 ∨ k = 3) with rfl | rfl | rfl | rfl
  · exact h₃'.trans h₀.symm
  · exact h₂'.trans h₁.symm
  · exact h₁'.trans h₂.symm
  · exact h₀'.trans h₃.symm

theorem bits_word_half (a b c d : UInt8) :
    bits 0 16 (word a b c d) = a.toNat + 256 * b.toNat ∧
      bits 16 16 (word a b c d) = c.toNat + 256 * d.toNat := by
  have ha := a.toNat_lt
  have hb := b.toNat_lt
  have hc := c.toNat_lt
  have hd := d.toNat_lt
  unfold bits word
  omega

/-- The high half of the swapped word is the low one, with its bytes swapped. -/
theorem bits_swap32_high (x : UInt32) :
    bits 16 16 (swap32 x).toNat = (swap16 (.ofNat (bits 0 16 x.toNat))).toNat := by
  obtain ⟨a, b, c, d, hx⟩ := exists_word x
  have ha := a.toNat_lt
  have hb := b.toNat_lt
  rw [toNat_swap32 hx, hx, toNat_swap16, UInt16.toNat_ofNat', (bits_word_half a b c d).1,
    (bits_word_half d c b a).2]
  omega

theorem bits_swap32_low (x : UInt32) :
    bits 0 16 (swap32 x).toNat = (swap16 (.ofNat (bits 16 16 x.toNat))).toNat := by
  have h := bits_swap32_high (swap32 x)
  rw [swap32_swap32] at h
  rw [h, UInt16.ofNat_toNat, swap16_swap16, UInt16.toNat_ofNat', Nat.mod_eq_of_lt (bits_lt 0 16 _)]

/-! ## Words in memory -/

/-- The number whose bytes are in memory with the low one first. -/
def leNat (bytes : List UInt8) : Nat := Nat.ofDigits 256 (bytes.map UInt8.toNat)

/-- The number whose bytes are in memory with the high one first. -/
def beNat (bytes : List UInt8) : Nat := leNat bytes.reverse

theorem leNat_four (a b c d : UInt8) : leNat [a, b, c, d] = word a b c d := by
  simp [leNat, Nat.ofDigits_cons, word]

theorem beNat_four (a b c d : UInt8) : beNat [a, b, c, d] = word d c b a := leNat_four d c b a

theorem leNat_lt (bytes : List UInt8) : leNat bytes < 256 ^ bytes.length := by
  have h := Nat.ofDigits_lt_base_pow_length (b := 256) (l := bytes.map UInt8.toNat)
    (by decide) (by
      intro x hx
      obtain ⟨y, -, rfl⟩ := List.mem_map.mp hx
      exact y.toNat_lt)
  rwa [List.length_map] at h

theorem beNat_lt (bytes : List UInt8) : beNat bytes < 256 ^ bytes.length := by
  have h := leNat_lt bytes.reverse
  rwa [List.length_reverse] at h

/-- Read with its high byte first, the word is the swapped one. -/
theorem beNat_leBytes (x : UInt32) : beNat (leBytes x) = (swap32 x).toNat := by
  obtain ⟨a, b, c, d, hx⟩ := exists_word x
  rw [leBytes_eq hx, beNat_four, toNat_swap32 hx]

/-- The word at a position in memory. -/
def leWordAt (bytes : List UInt8) (i : Nat) : UInt32 := .ofNat (leNat ((bytes.drop i).take 4))

/-- A word is read from its own bytes. -/
theorem leWordAt_take {bytes : List UInt8} {i n : Nat} (h : i + 4 ≤ n) :
    leWordAt (bytes.take n) i = leWordAt bytes i := by
  rw [leWordAt, leWordAt, List.drop_take, List.take_take, Nat.min_eq_left (by omega)]

theorem leBytes_leWordAt {bytes : List UInt8} {i : Nat} (h : i + 4 ≤ bytes.length) :
    leBytes (leWordAt bytes i) = (bytes.drop i).take 4 := by
  have hlen : ((bytes.drop i).take 4).length = 4 := by
    rw [List.length_take, List.length_drop]
    omega
  obtain ⟨a, b, c, d, htake⟩ := List.length_eq_four.mp hlen
  rw [leWordAt, htake, leNat_four]
  apply leBytes_eq
  rw [UInt32.toNat_ofNat', Nat.mod_eq_of_lt (word_lt a b c d)]

theorem leWordAt_leBytes (x : UInt32) (rest : List UInt8) : leWordAt (leBytes x ++ rest) 0 = x := by
  obtain ⟨a, b, c, d, hx⟩ := exists_word x
  rw [leBytes_eq hx]
  show UInt32.ofNat (leNat [a, b, c, d]) = x
  rw [leNat_four, ← hx, UInt32.ofNat_toNat]

/-- A half-word as it lies in memory. -/
def leBytes16 (x : UInt16) : List UInt8 := [x.toUInt8, (x >>> 8).toUInt8]

/-- Read with its high byte first, the half-word is the swapped one. -/
theorem beNat_leBytes16 (x : UInt16) : beNat (leBytes16 x) = (swap16 x).toNat := by
  have hx := x.toNat_lt
  simp only [beNat, leNat, leBytes16, List.reverse_cons, List.reverse_nil, List.nil_append,
    List.cons_append, List.map_cons, List.map_nil, Nat.ofDigits_cons, Nat.ofDigits_nil,
    UInt16.toNat_toUInt8, UInt16.toNat_shiftRight, UInt16.toNat_ofNat, Nat.shiftRight_eq_div_pow,
    Nat.reducePow, Nat.reduceMod, toNat_swap16]
  omega

/-- The half-word at a position in memory. -/
def leHalfAt (bytes : List UInt8) (i : Nat) : UInt16 := .ofNat (leNat ((bytes.drop i).take 2))

theorem leHalfAt_take {bytes : List UInt8} {i n : Nat} (h : i + 2 ≤ n) :
    leHalfAt (bytes.take n) i = leHalfAt bytes i := by
  rw [leHalfAt, leHalfAt, List.drop_take, List.take_take, Nat.min_eq_left (by omega)]

theorem leBytes16_leHalfAt {bytes : List UInt8} {i : Nat} (h : i + 2 ≤ bytes.length) :
    leBytes16 (leHalfAt bytes i) = (bytes.drop i).take 2 := by
  have hlen : ((bytes.drop i).take 2).length = 2 := by
    rw [List.length_take, List.length_drop]
    omega
  obtain ⟨a, b, htake⟩ := List.length_eq_two.mp hlen
  have ha := a.toNat_lt
  have hb := b.toNat_lt
  have hnat : leNat [a, b] = a.toNat + 256 * b.toNat := by
    simp [leNat, Nat.ofDigits_cons]
  rw [leHalfAt, htake, hnat, leBytes16]
  congr
  all_goals
    apply UInt8.toNat_inj.mp
    simp only [UInt16.toNat_toUInt8, UInt16.toNat_shiftRight, UInt16.toNat_ofNat,
      UInt16.toNat_ofNat', Nat.shiftRight_eq_div_pow, Nat.reducePow, Nat.reduceMod]
    omega

theorem leHalfAt_leBytes16 (x : UInt16) (rest : List UInt8) :
    leHalfAt (leBytes16 x ++ rest) 0 = x := by
  have hx := x.toNat_lt
  have hnat : leNat (leBytes16 x) = x.toNat := by
    simp only [leNat, leBytes16, List.map_cons, List.map_nil, Nat.ofDigits_cons, Nat.ofDigits_nil,
      UInt16.toNat_toUInt8, UInt16.toNat_shiftRight, UInt16.toNat_ofNat,
      Nat.shiftRight_eq_div_pow, Nat.reducePow, Nat.reduceMod]
    omega
  show UInt16.ofNat (leNat (leBytes16 x)) = x
  rw [hnat, UInt16.ofNat_toNat]

/-- A word as it goes over the wire. -/
def beBytes (x : UInt32) : List UInt8 := (leBytes x).reverse

/-- A half-word as it goes over the wire. -/
def beBytes16 (x : UInt16) : List UInt8 := (leBytes16 x).reverse

@[simp] theorem length_beBytes (x : UInt32) : (beBytes x).length = 4 := rfl

@[simp] theorem length_beBytes16 (x : UInt16) : (beBytes16 x).length = 2 := rfl

theorem ofNat_beNat_beBytes (x : UInt32) : UInt32.ofNat (beNat (beBytes x)) = x := by
  rw [beBytes, beNat, List.reverse_reverse]
  exact leWordAt_leBytes x []

theorem ofNat_beNat_beBytes16 (x : UInt16) : UInt16.ofNat (beNat (beBytes16 x)) = x := by
  rw [beBytes16, beNat, List.reverse_reverse]
  exact leHalfAt_leBytes16 x []

theorem beBytes_ofNat_beNat {bytes : List UInt8} (h : bytes.length = 4) :
    beBytes (.ofNat (beNat bytes)) = bytes := by
  have htake : (bytes.reverse.drop 0).take 4 = bytes.reverse := by
    rw [List.drop_zero, List.take_of_length_le (by rw [List.length_reverse]; omega)]
  have hword := leBytes_leWordAt (i := 0) (show 0 + 4 ≤ bytes.reverse.length by
    rw [List.length_reverse]; omega)
  rw [leWordAt, htake] at hword
  rw [beBytes, beNat, hword, List.reverse_reverse]

theorem beBytes16_ofNat_beNat {bytes : List UInt8} (h : bytes.length = 2) :
    beBytes16 (.ofNat (beNat bytes)) = bytes := by
  have htake : (bytes.reverse.drop 0).take 2 = bytes.reverse := by
    rw [List.drop_zero, List.take_of_length_le (by rw [List.length_reverse]; omega)]
  have hhalf := leBytes16_leHalfAt (i := 0) (show 0 + 2 ≤ bytes.reverse.length by
    rw [List.length_reverse]; omega)
  rw [leHalfAt, htake] at hhalf
  rw [beBytes16, beNat, hhalf, List.reverse_reverse]

theorem leHalfAt_eq_iff (memory : List UInt8) (i : Nat) (x : UInt16) :
    leHalfAt memory i = x ↔ leNat ((memory.drop i).take 2) = x.toNat := by
  have hlt : leNat ((memory.drop i).take 2) < 2 ^ 16 :=
    Nat.lt_of_lt_of_le (leNat_lt _)
      (Nat.pow_le_pow_right (by decide) (List.length_take_le 2 _))
  rw [leHalfAt, ← UInt16.toNat_inj, UInt16.toNat_ofNat', Nat.mod_eq_of_lt hlt]

end NetBricks.Lib
