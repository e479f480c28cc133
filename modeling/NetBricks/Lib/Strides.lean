import Mathlib.Data.List.Nodup
import Mathlib.Data.List.Perm.Subperm
import Mathlib.Data.Nat.ModEq
import Mathlib.Data.Nat.Prime.Basic

/-!
# Steps around a circle

Starting at `a` and going on by `s` at a time around a circle of `m` places: when
`s` and `m` have no common factor, `m` steps visit every place exactly once
(`stride_perm`). For a prime `m` any step that is not a whole turn will do.
-/

namespace NetBricks.Lib

/-- The places visited in the first `m` steps. -/
def stride (m a s : Nat) : List Nat := (List.range m).map fun j => (a + j * s) % m

@[simp] theorem stride_length (m a s : Nat) : (stride m a s).length = m := by
  simp [stride]

theorem stride_nodup {m a s : Nat} (hs : m.Coprime s) : (stride m a s).Nodup := by
  refine List.Nodup.map_on (fun i hi j hj hij => ?_) List.nodup_range
  have hmod : i * s ≡ j * s [MOD m] := Nat.ModEq.add_left_cancel' a hij
  exact (Nat.ModEq.cancel_right_of_coprime hs hmod).eq_of_lt_of_lt (List.mem_range.mp hi)
    (List.mem_range.mp hj)

/-- Every place is visited exactly once. -/
theorem stride_perm {m a s : Nat} (hm : 0 < m) (hs : m.Coprime s) :
    (stride m a s).Perm (List.range m) := by
  refine (List.subperm_of_subset (stride_nodup hs) fun c hc => ?_).perm_of_length_le (by simp)
  obtain ⟨j, -, rfl⟩ := List.mem_map.mp hc
  exact List.mem_range.mpr (Nat.mod_lt _ hm)

theorem stride_perm_of_prime {m a s : Nat} (hm : m.Prime) (hpos : 0 < s) (hlt : s < m) :
    (stride m a s).Perm (List.range m) :=
  stride_perm hm.pos (Nat.coprime_of_lt_prime (by omega) hlt hm)

end NetBricks.Lib
