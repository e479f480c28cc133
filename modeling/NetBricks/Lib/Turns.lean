import NetBricks.Lib.Circular

/-!
# Taking turns

Step `c` of a rotation over `k` parties is for party `c % k`. In any stretch of
consecutive steps every party has had `n / k` turns, or one more (`turns_eq`), so
the numbers of turns of two parties differ by at most one (`turns_le_succ`).
-/

namespace NetBricks.Lib

/-- The turns of party `i` in the `n` steps from step `m` on. -/
def turns (k m n i : Nat) : Nat := (List.range' m n).countP (fun c => c % k = i)

/-- After how many steps from step `m` on party `i` has its first turn. -/
def wait (k m i : Nat) : Nat := if m % k ≤ i then i - m % k else i + k - m % k

theorem wait_lt {k m i : Nat} (hi : i < k) : wait k m i < k := by
  have : m % k < k := Nat.mod_lt _ (by omega)
  unfold wait
  split <;> omega

theorem mod_eq_iff_wait {k m n i : Nat} (hi : i < k) : (m + n) % k = i ↔ n % k = wait k m i := by
  have hm : m % k < k := Nat.mod_lt _ (by omega)
  have hn : n % k < k := Nat.mod_lt _ (by omega)
  rw [Nat.add_mod, add_mod_cases hn, Nat.mod_eq_of_lt hm]
  unfold wait
  split <;> split <;> omega

/-- One more step is a turn for the party whose step it is. -/
theorem turns_succ (k m n i : Nat) :
    turns k m (n + 1) i = turns k m n i + if (m + n) % k = i then 1 else 0 := by
  unfold turns
  rw [List.range'_concat, List.countP_append, List.countP_singleton]
  simp

/-- Every party has the same number of turns, but for those of the last round. -/
theorem turns_eq {k m i : Nat} (hi : i < k) (n : Nat) :
    turns k m n i = n / k + if wait k m i < n % k then 1 else 0 := by
  have hw := wait_lt (m := m) hi
  induction n with
  | zero =>
    rw [Nat.zero_div, Nat.zero_mod, if_neg (Nat.not_lt_zero _)]
    rfl
  | succ n ih =>
    have hn : n % k < k := Nat.mod_lt _ (by omega)
    have hsplit := Nat.mod_add_div n k
    have hstep : turns k m (n + 1) i =
        turns k m n i + if n % k = wait k m i then 1 else 0 := by
      simp [turns_succ, mod_eq_iff_wait hi]
    rw [hstep, ih]
    by_cases hlast : n % k + 1 < k
    · obtain ⟨hdiv, hmod⟩ : (n + 1) / k = n / k ∧ (n + 1) % k = n % k + 1 :=
        (Nat.div_mod_unique (by omega)).mpr ⟨by omega, hlast⟩
      rw [hdiv, hmod]
      split <;> split <;> split <;> omega
    · -- the step completes a round
      obtain ⟨hdiv, hmod⟩ : (n + 1) / k = n / k + 1 ∧ (n + 1) % k = 0 :=
        (Nat.div_mod_unique (by omega)).mpr ⟨by rw [Nat.mul_add]; omega, by omega⟩
      rw [hdiv, hmod, if_neg (Nat.not_lt_zero _)]
      split <;> split <;> omega

/-- The numbers of turns of two parties differ by at most one. -/
theorem turns_le_succ {k i j : Nat} (hi : i < k) (hj : j < k) (m n : Nat) :
    turns k m n i ≤ turns k m n j + 1 := by
  rw [turns_eq hi, turns_eq hj]
  split <;> split <;> omega

end NetBricks.Lib
