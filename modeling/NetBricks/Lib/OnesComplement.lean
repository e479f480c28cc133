import NetBricks.Lib.Fields

/-!
# One's-complement sums

The Internet checksum is a sum of 16-bit words in which the carry out of the highest bit
comes back in at the lowest (`onesAdd`). Such a sum is a number modulo `0xffff` with two
zeros, 0 and `0xffff`, and it is 0 only where every word is (`onesSum_eq_max_iff`).

Reading the bytes of a word the other way around multiplies it by 256 modulo `0xffff`
(`sum_beWords_modEq`). This is why the checksum of a header can be computed over words as
the machine loads them, and it says what happens when the result is not stored the way it
was loaded: `onesSum_swapped_iff`.
-/

namespace NetBricks.Lib

/-! ## Sums with the carry brought around -/

/-- The carry of a sum added to its low 16 bits. -/
def endAround (s : Nat) : Nat := s / 65536 + s % 65536

/-- The sum of two 16-bit words. -/
def onesAdd (a b : Nat) : Nat := endAround (a + b)

/-- The sum of a list of them. -/
def onesSum (words : List Nat) : Nat := words.foldl onesAdd 0

/-- A sum of fewer than `2 ^ 16` words, brought down to 16 bits at the end. -/
def foldCarry (s : Nat) : Nat := endAround (endAround s)

theorem onesAdd_spec {a b : Nat} (ha : a ≤ 65535) (hb : b ≤ 65535) :
    onesAdd a b ≤ 65535 ∧ onesAdd a b % 65535 = (a + b) % 65535 ∧
      (onesAdd a b = 0 ↔ a + b = 0) := by
  unfold onesAdd endAround
  omega

theorem foldCarry_spec {s : Nat} (hs : s < 2 ^ 32) :
    foldCarry s ≤ 65535 ∧ foldCarry s % 65535 = s % 65535 ∧ (foldCarry s = 0 ↔ s = 0) := by
  unfold foldCarry endAround
  omega

/-- Adding the words one by one, from `a` on. -/
theorem foldl_onesAdd_spec {words : List Nat} (h : ∀ w ∈ words, w ≤ 65535) :
    ∀ {a : Nat}, a ≤ 65535 →
      words.foldl onesAdd a ≤ 65535 ∧
        words.foldl onesAdd a % 65535 = (a + words.sum) % 65535 ∧
        (words.foldl onesAdd a = 0 ↔ a + words.sum = 0) := by
  induction words with
  | nil =>
    intro a ha
    exact ⟨ha, rfl, Iff.rfl⟩
  | cons w ws ih =>
    intro a ha
    obtain ⟨hle, hmod, hzero⟩ := onesAdd_spec ha (h w List.mem_cons_self)
    obtain ⟨hle', hmod', hzero'⟩ := ih (fun w' hw' => h w' (List.mem_cons_of_mem _ hw')) hle
    rw [List.foldl_cons, List.sum_cons]
    refine ⟨hle', ?_, ?_⟩
    · rw [hmod', Nat.add_mod, hmod, ← Nat.add_mod, Nat.add_assoc]
    · rw [hzero']
      omega

/-- The sum is `0xffff` when it is 0 modulo `0xffff` and not all words are 0. -/
theorem onesSum_eq_max_iff {words : List Nat} (h : ∀ w ∈ words, w ≤ 65535) :
    onesSum words = 65535 ↔ words.sum % 65535 = 0 ∧ words.sum ≠ 0 := by
  obtain ⟨hle, hmod, hzero⟩ := foldl_onesAdd_spec h (Nat.zero_le 65535)
  rw [Nat.zero_add] at hmod hzero
  unfold onesSum
  omega

/-! ## The words of a list of bytes -/

/-- The 16-bit words of the bytes, each with its high byte first. -/
def beWords : List UInt8 → List Nat
  | a :: b :: rest => (256 * a.toNat + b.toNat) :: beWords rest
  | _ => []

/-- The 16-bit words of the bytes, each with its low byte first. -/
def leWords : List UInt8 → List Nat
  | a :: b :: rest => (a.toNat + 256 * b.toNat) :: leWords rest
  | _ => []

theorem beWords_le (bytes : List UInt8) : ∀ w ∈ beWords bytes, w ≤ 65535 := by
  induction bytes using beWords.induct with
  | case1 a b rest ih =>
    have ha := a.toNat_lt
    have hb := b.toNat_lt
    rw [beWords, List.forall_mem_cons]
    exact ⟨by omega, ih⟩
  | case2 bytes hbytes =>
    rw [beWords.eq_2 bytes hbytes]
    nofun

theorem sum_leWords_le (bytes : List UInt8) : (leWords bytes).sum ≤ 65535 * bytes.length := by
  induction bytes using leWords.induct with
  | case1 a b rest ih =>
    have ha := a.toNat_lt
    have hb := b.toNat_lt
    rw [leWords, List.sum_cons, List.length_cons, List.length_cons]
    omega
  | case2 bytes hbytes =>
    rw [leWords.eq_2 bytes hbytes]
    exact Nat.zero_le _

/-- Behind an even number of bytes the words start anew. -/
theorem sum_beWords_append {front : List UInt8} (h : front.length % 2 = 0) (back : List UInt8) :
    (beWords (front ++ back)).sum = (beWords front).sum + (beWords back).sum := by
  induction front using beWords.induct with
  | case1 a b rest ih =>
    have hrest : rest.length % 2 = 0 := by
      simp only [List.length_cons] at h
      omega
    rw [List.cons_append, List.cons_append, beWords, beWords, List.sum_cons, List.sum_cons,
      ih hrest, ← Nat.add_assoc]
  | case2 bytes hbytes =>
    match bytes, hbytes, h with
    | [], _, _ => simp [beWords]
    | [a], _, h => simp at h
    | a :: b :: rest, hbytes, _ => exact absurd rfl (hbytes a b rest)

/-- The other byte order multiplies by 256, modulo `0xffff`, and keeps 0 apart from the rest. -/
theorem sum_beWords_modEq (bytes : List UInt8) :
    (beWords bytes).sum % 65535 = 256 * (leWords bytes).sum % 65535 ∧
      ((beWords bytes).sum = 0 ↔ (leWords bytes).sum = 0) := by
  induction bytes using beWords.induct with
  | case1 a b rest ih =>
    obtain ⟨hmod, hzero⟩ := ih
    rw [beWords, leWords, List.sum_cons, List.sum_cons]
    omega
  | case2 bytes hbytes =>
    rw [beWords.eq_2 bytes hbytes, leWords.eq_2 bytes hbytes]
    exact ⟨rfl, Iff.rfl⟩

/-- Four bytes are the number they spell, modulo 257. -/
theorem sum_beWords_four (a b c d : UInt8) :
    (beWords [a, b, c, d]).sum % 257 = beNat [a, b, c, d] % 257 := by
  rw [beNat_four, word]
  simp only [beWords, List.sum_cons, List.sum_nil]
  omega

/-! ## A checksum stored with its bytes swapped -/

/-- A header whose checksum `c` is the complement of the sum of its words, loaded with the
low byte first and with 0 for the checksum. Stored with the high byte first it makes the
sum of the words on the wire `0xffff` exactly when the sum of the other words is a multiple
of 257: then, and only then, its two bytes are equal. -/
theorem onesSum_swapped_iff {front back : List UInt8} (heven : front.length % 2 = 0)
    (hsmall : (front ++ ([0, 0] ++ back)).length < 65536) {hi lo : UInt8}
    (hsum : 256 * hi.toNat + lo.toNat +
      foldCarry (leWords (front ++ ([0, 0] ++ back))).sum = 65535) :
    onesSum (beWords (front ++ ([hi, lo] ++ back))) = 65535 ↔
      ((beWords front).sum + (beWords back).sum) % 257 = 0 := by
  have hbound := sum_leWords_le (front ++ ([0, 0] ++ back))
  obtain ⟨hle, hmod, hzero⟩ := foldCarry_spec
    (show (leWords (front ++ ([0, 0] ++ back))).sum < 2 ^ 32 by omega)
  obtain ⟨hswap, hswap0⟩ := sum_beWords_modEq (front ++ ([0, 0] ++ back))
  have hpair : ∀ a b : UInt8, (beWords (front ++ ([a, b] ++ back))).sum =
      (beWords front).sum + (256 * a.toNat + b.toNat + (beWords back).sum) := fun a b => by
    rw [sum_beWords_append heven]
    rfl
  rw [hpair] at hswap hswap0
  have hlo := lo.toNat_lt
  have hhi := hi.toNat_lt
  rw [onesSum_eq_max_iff (beWords_le _), hpair]
  -- modulo 0xffff the sum is 255 times the folded one, and 0xffff is 255 * 257
  simp only [show (0 : UInt8).toNat = 0 from rfl] at hswap hswap0
  omega

end NetBricks.Lib
