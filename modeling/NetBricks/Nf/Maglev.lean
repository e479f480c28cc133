import Mathlib.Tactic.NormNum.Prime
import NetBricks.Lib.Cells
import NetBricks.Lib.Machine
import NetBricks.Lib.Strides
import NetBricks.Lib.Turns
import NetBricks.Lib.Word
import NetBricks.Utils.FlowBytes

/-!
# Maglev: the lookup table

`Maglev` of `test/maglev/src/nf.rs`. Each backend has a permutation of the slots,
a stride whose start and step come from two hashes of its name; the backends take
turns, and each takes the next slot of its permutation that is still free, until no
slot is. The two hash functions are parameters (`Hashers`).

`Filling` is the invariant of the turns. A backend has only passed slots that were
taken (`passed`), so while a slot is free its scan finds one and never runs off the
end of the permutation (`scan_total`); and the slots a backend owns are the turns it
has had (`owned`), which is why the table is balanced.

The closure that `maglev` gives to `group_by` keeps the groups it has looked up. A group that is
kept is the one in the table (`Steady`), so packets of one flow stay with one backend
(`maglev_steers`).
-/

namespace NetBricks.Nf

open Lib Outcome

/-- The hashes of a name under the two hashers. -/
structure Hashers where
  fnv : String → UInt64
  xx : String → UInt64

/-- `0x8000`, the mark of a slot that is not taken. -/
def unset : Nat := 0x8000

/-- `Maglev`. -/
structure Maglev where
  lut : List Nat
  lutSize : Nat
  deriving DecidableEq, Repr

namespace Maglev

/-- `Maglev::offset_skip_for_name`. -/
def offsetSkipForName (h : Hashers) (name : String) (lsize : Nat) : Outcome (Nat × Nat) := do
  let hash1 := (h.fnv name).toNat
  let hash2 := (h.xx name).toNat
  let offset ← checkedRem hash2 lsize
  let last ← checkedSub lsize 1
  let rest ← checkedRem hash1 last
  let skip ← checkedAdd 64 rest 1
  .ok (offset, skip)

/-- The permutation of one backend. -/
def permutation (lsize : Nat) (offsetSkip : Nat × Nat) : Outcome (List Nat) :=
  (List.range lsize).mapM fun j => do
    let way ← checkedMul 64 j offsetSkip.2
    let place ← checkedAdd 64 offsetSkip.1 way
    checkedRem place lsize

/-- `Maglev::generate_permutations`. -/
def generatePermutations (h : Hashers) (backends : List String) (lsize : Nat) :
    Outcome (List (List Nat)) :=
  backends.mapM fun name => do
    let offsetSkip ← offsetSkipForName h name lsize
    permutation lsize offsetSkip

/-- The local variables of `generate_lut`. -/
structure Fill where
  next : List Nat
  entry : List Nat
  n : Nat

/-- `while entry[c] != 0x8000 { next[i] += 1; c = permutations[i][next[i]]; }`, from
`next[i] = pos`. -/
def scan (perm entry : List Nat) : Nat → Nat → Nat → Outcome (Nat × Nat)
  | 0, _, _ => .timeout
  | fuel + 1, pos, c => do
    let e ← index entry c
    if e ≠ unset then
      let c ← index perm (pos + 1)
      scan perm entry fuel (pos + 1) c
    else .ok (pos, c)

/-- The body of the `for` loop up to the test that leaves it. -/
def turn (permutations : List (List Nat)) (fuel : Nat) (s : Fill) (i : Nat) : Outcome Fill := do
  let perm ← index permutations i
  let pos ← index s.next i
  let c ← index perm pos
  let (pos, c) ← scan perm s.entry fuel pos c
  let e ← index s.entry c
  if e = unset then
    .ok ⟨s.next.set i (pos + 1), s.entry.set c i, s.n + 1⟩
  else .ok { s with next := s.next.set i pos }

/-- The `for` loop over the backends. -/
def pass (permutations : List (List Nat)) (size fuel : Nat) : List Nat → Fill → Outcome Fill
  | [], s => .ok s
  | i :: is, s => do
    let s ← turn permutations fuel s i
    if size ≤ s.n then .ok s else pass permutations size fuel is s

/-- The `while` loop; its fuel is also that of each scan. -/
def passes (permutations : List (List Nat)) (size scanFuel : Nat) : Nat → Fill → Outcome Fill
  | 0, _ => .timeout
  | fuel + 1, s =>
    if s.n < size then do
      let s ← pass permutations size scanFuel (List.range s.next.length) s
      passes permutations size scanFuel fuel s
    else .ok s

/-- `Maglev::generate_lut`. -/
def generateLut (permutations : List (List Nat)) (size fuel : Nat) : Outcome (List Nat) := do
  let start : Fill := ⟨permutations.map fun _ => 0, (List.range size).map fun _ => unset, 0⟩
  let s ← passes permutations size fuel fuel start
  .ok s.entry

/-- `Maglev::new`. -/
def new (h : Hashers) (fuel : Nat) (name : List String) (lsize : Nat) : Outcome Maglev := do
  let permutations ← generatePermutations h name lsize
  let lut ← generateLut permutations lsize fuel
  .ok ⟨lut, lsize⟩

/-- `Maglev::lookup`. -/
def lookup (m : Maglev) (hash : Nat) : Outcome Nat := do
  let idx ← checkedRem hash m.lutSize
  index m.lut idx

/-! ## The permutations -/

/-- With a prime size the start and the step are places of the circle, the step not
a whole turn. -/
theorem offsetSkipForName_eq (h : Hashers) (name : String) {m : Nat} (hm : m.Prime)
    (hlt : m < 2 ^ 32) :
    ∃ offset skip, offsetSkipForName h name m = .ok (offset, skip) ∧ offset < m ∧ 0 < skip ∧
      skip < m := by
  have htwo := hm.two_le
  have hoffset : (h.xx name).toNat % m < m := Nat.mod_lt _ (by omega)
  have hskip : (h.fnv name).toNat % (m - 1) < m - 1 := Nat.mod_lt _ (by omega)
  refine ⟨_, _, ?_, hoffset, Nat.succ_pos _, (by omega : (h.fnv name).toNat % (m - 1) + 1 < m)⟩
  unfold offsetSkipForName
  dsimp only
  rw [checkedRem_of_pos (by omega), bind_ok, checkedSub_of_le (by omega), bind_ok,
    checkedRem_of_pos (by omega), bind_ok, checkedAdd_of_lt (by omega), bind_ok]

theorem permutation_eq {m offset skip : Nat} (hlt : m < 2 ^ 32) (hoffset : offset < m)
    (hskip : skip < m) : permutation m (offset, skip) = .ok (stride m offset skip) := by
  refine mapM_of_forall fun j hj => ?_
  have hj := List.mem_range.mp hj
  dsimp only
  have hway : j * skip ≤ (m - 1) * (m - 1) := Nat.mul_le_mul (by omega) (by omega)
  -- the largest intermediate value is `(m - 1) * (m - 1) + (m - 1)`
  have htop : (m - 1) * (m - 1) + (m - 1) < 2 ^ 64 := by
    have hsq : (m - 1) * (m - 1) + (m - 1) = (m - 1) * m := by
      obtain ⟨k, rfl⟩ := Nat.exists_eq_succ_of_ne_zero (by omega : m ≠ 0)
      rw [Nat.succ_sub_one, Nat.mul_succ]
    calc (m - 1) * (m - 1) + (m - 1) = (m - 1) * m := hsq
      _ < 2 ^ 32 * 2 ^ 32 := Nat.mul_lt_mul'' (by omega) hlt
      _ = 2 ^ 64 := by decide
  rw [checkedMul_of_lt (by omega), bind_ok, checkedAdd_of_lt (by omega), bind_ok,
    checkedRem_of_pos (by omega)]

/-- The permutations, and that each visits every slot exactly once. -/
theorem generatePermutations_total (h : Hashers) (names : List String) {m : Nat} (hm : m.Prime)
    (hlt : m < 2 ^ 32) :
    ∃ perms, generatePermutations h names m = .ok perms ∧ perms.length = names.length ∧
      ∀ p ∈ perms, p.Perm (List.range m) := by
  choose offset skip hok hoffset hpos hskip using fun name => offsetSkipForName_eq h name hm hlt
  refine ⟨names.map fun name => stride m (offset name) (skip name), ?_, List.length_map _,
    fun p hp => ?_⟩
  · refine mapM_of_forall fun name _ => ?_
    rw [hok name, bind_ok]
    exact permutation_eq hlt (hoffset name) (hskip name)
  · obtain ⟨name, -, rfl⟩ := List.mem_map.mp hp
    exact stride_perm_of_prime hm (hpos name) (hskip name)

/-! ## A turn -/

/-- The slot is not taken. -/
def Free (entry : List Nat) (c : Nat) : Prop := entry[c]? = some unset

/-- The slots before `pos` in the permutation are all taken. -/
def Passed (perm entry : List Nat) (pos : Nat) : Prop :=
  ∀ j < pos, ∀ c, perm[j]? = some c → ¬ Free entry c

/-- While a slot is free, the scan finds the next one of the permutation. The
induction is on the distance to the free slot. -/
theorem scan_total {perm entry : List Nat} {j free : Nat} (hj : perm[j]? = some free)
    (hfree : Free entry free) (hin : ∀ c ∈ perm, c < entry.length) :
    ∀ {ahead pos c : Nat}, pos + ahead = j → Passed perm entry pos → perm[pos]? = some c →
      ∃ pos' c', (∀ fuel, ahead < fuel → scan perm entry fuel pos c = .ok (pos', c')) ∧
        perm[pos']? = some c' ∧ Free entry c' ∧ Passed perm entry pos' := by
  intro ahead
  induction ahead with
  | zero =>
    intro pos c hpj hpassed hpos
    rw [Nat.add_zero] at hpj
    rw [hpj, hj] at hpos
    obtain rfl := Option.some.inj hpos
    refine ⟨pos, free, fun fuel hfuel => ?_, hpj ▸ hj, hfree, hpassed⟩
    obtain ⟨fuel, rfl⟩ := Nat.exists_eq_succ_of_ne_zero (by omega : fuel ≠ 0)
    rw [scan, index_of_some hfree, bind_ok, if_neg (fun h => h rfl)]
  | succ ahead ih =>
    intro pos c hpj hpassed hpos
    have hlt : c < entry.length := hin c (List.mem_of_getElem? hpos)
    have hc : entry[c]? = some entry[c] := List.getElem?_eq_getElem hlt
    by_cases htaken : entry[c] = unset
    · refine ⟨pos, c, fun fuel hfuel => ?_, hpos, hc.trans (congrArg some htaken), hpassed⟩
      obtain ⟨fuel, rfl⟩ := Nat.exists_eq_succ_of_ne_zero (by omega : fuel ≠ 0)
      rw [scan, index_of_some hc, bind_ok, if_neg (fun h => h htaken)]
    · -- the slot is taken, so the scan goes on, past it
      have hne : ¬ Free entry c := fun hf => htaken (Option.some.inj (hc.symm.trans hf))
      have hlen : pos + 1 < perm.length := by
        have := (List.getElem?_eq_some_iff.mp hj).1
        omega
      have hnext : perm[pos + 1]? = some perm[pos + 1] := List.getElem?_eq_getElem hlen
      have hpassed₁ : Passed perm entry (pos + 1) := by
        intro i hi c' hc'
        rcases Nat.lt_succ_iff_lt_or_eq.mp hi with hi | rfl
        · exact hpassed i hi c' hc'
        · rw [hpos] at hc'
          exact Option.some.inj hc' ▸ hne
      obtain ⟨pos', c', hscan, hrest⟩ := ih (by omega) hpassed₁ hnext
      refine ⟨pos', c', fun fuel hfuel => ?_, hrest⟩
      obtain ⟨fuel, rfl⟩ := Nat.exists_eq_succ_of_ne_zero (by omega : fuel ≠ 0)
      rw [scan, index_of_some hc, bind_ok, if_pos htaken, index_of_some hnext, bind_ok]
      exact hscan fuel (by omega)

/-- The table after `s.n` turns of `k` backends in rotation. As many slots are taken as turns
were made (`free`), by backends only (`backends`), each of which has as many as it had turns
(`owned`). Where a backend looks next, all slots before are taken (`passed`): so it never looks
back, and finds a free one as long as there is one. -/
structure Filling (perms : List (List Nat)) (size : Nat) (s : Fill) : Prop where
  next_length : s.next.length = perms.length
  entry_length : s.entry.length = size
  free : s.entry.count unset + s.n = size
  backends : ∀ e ∈ s.entry, e = unset ∨ e < perms.length
  owned : ∀ i < perms.length, s.entry.count i = turns perms.length 0 s.n i
  passed : ∀ (i : Nat) perm pos, perms[i]? = some perm → s.next[i]? = some pos →
    Passed perm s.entry pos

theorem filling_start (perms : List (List Nat)) (size : Nat) (hperms : perms.length ≤ unset) :
    Filling perms size ⟨perms.map fun _ => 0, (List.range size).map fun _ => unset, 0⟩ := by
  have hentry : ((List.range size).map fun _ => unset) = List.replicate size unset := by
    rw [List.map_const', List.length_range]
  refine ⟨by simp, by simp, ?_, fun e he => ?_, fun i hi => ?_, fun i perm pos _ hpos => ?_⟩
  · simp [hentry]
  · obtain ⟨-, -, rfl⟩ := List.mem_map.mp he
    exact Or.inl rfl
  · have hne : unset ≠ i := by omega
    rw [hentry, List.count_replicate, if_neg (by simpa using hne)]
    rfl
  · obtain ⟨-, -, rfl⟩ := List.mem_map.mp (List.mem_of_getElem? hpos)
    exact fun j hj => absurd hj (Nat.not_lt_zero j)

/-- Taking a free slot, in the backend's turn, keeps the invariant. -/
theorem Filling.take {perms : List (List Nat)} {size : Nat} {s : Fill} {i pos c : Nat}
    {perm : List Nat} (h : Filling perms size s) (hperms : perms.length ≤ unset)
    (hturn : s.n % perms.length = i) (hi : i < perms.length) (hperm : perms[i]? = some perm)
    (hpos : perm[pos]? = some c) (hfree : Free s.entry c) (hpassed : Passed perm s.entry pos) :
    Filling perms size ⟨s.next.set i (pos + 1), s.entry.set c i, s.n + 1⟩ := by
  obtain ⟨hc, hcell⟩ := List.getElem?_eq_some_iff.mp hfree
  have hne : i ≠ unset := by omega
  have hcount : 0 < s.entry.count unset := List.count_pos_iff.mpr (List.mem_of_getElem? hfree)
  have hkeep : ∀ d, Free (s.entry.set c i) d → Free s.entry d ∧ d ≠ c := by
    intro d hd
    unfold Free at hd ⊢
    by_cases hdc : c = d
    · rw [← hdc, List.getElem?_set_self hc] at hd
      exact absurd (Option.some.inj hd) hne
    · rw [List.getElem?_set_ne hdc] at hd
      exact ⟨hd, fun heq => hdc heq.symm⟩
  refine ⟨?_, ?_, ?_, fun e he => ?_, fun b hb => ?_, fun b perm' pos' hperm' hpos' => ?_⟩
  · rw [List.length_set, h.next_length]
  · rw [List.length_set, h.entry_length]
  · have hfreeCount := h.free
    rw [List.count_set hc, hcell, if_pos (by simp), if_neg (by simpa using hne)]
    dsimp only
    omega
  · rcases List.mem_or_eq_of_mem_set he with he | rfl
    · exact h.backends e he
    · exact Or.inr hi
  · have hb' : unset ≠ b := by omega
    rw [List.count_set hc, hcell, if_neg (by simpa using hb'), h.owned b hb, turns_succ,
      Nat.zero_add, hturn, Nat.sub_zero]
    simp
  · by_cases hbi : i = b
    · subst hbi
      rw [List.getElem?_set_self (by rw [h.next_length]; exact hi)] at hpos'
      rw [hperm] at hperm'
      obtain rfl := Option.some.inj hpos'
      obtain rfl := Option.some.inj hperm'
      intro j hj d hd hfreed
      obtain ⟨hfreed, hdc⟩ := hkeep d hfreed
      rcases Nat.lt_succ_iff_lt_or_eq.mp hj with hj | rfl
      · exact hpassed j hj d hd hfreed
      · rw [hpos] at hd
        exact hdc (Option.some.inj hd).symm
    · rw [List.getElem?_set_ne hbi] at hpos'
      exact fun j hj d hd hfreed =>
        h.passed b perm' pos' hperm' hpos' j hj d hd (hkeep d hfreed).1

/-- A turn takes one slot as long as one is free. -/
theorem turn_total {perms : List (List Nat)} {size : Nat} {s : Fill} {i : Nat}
    (h : Filling perms size s) (hperms : perms.length ≤ unset)
    (hall : ∀ p ∈ perms, p.Perm (List.range size)) (hi : i < perms.length)
    (hturn : s.n % perms.length = i) (hn : s.n < size) :
    ∃ s', (∀ fuel, size < fuel → turn perms fuel s i = .ok s') ∧ Filling perms size s' ∧
      s'.n = s.n + 1 := by
  have hfreeCount := h.free
  obtain ⟨free, hfree⟩ := List.getElem?_of_mem
    (List.count_pos_iff.mp (by omega : 0 < s.entry.count unset))
  obtain ⟨perm, hperm⟩ : ∃ perm, perms[i]? = some perm := ⟨_, List.getElem?_eq_getElem hi⟩
  have hpermi := hall perm (List.mem_of_getElem? hperm)
  have hlen : perm.length = size := by simpa using hpermi.length_eq
  have hin : ∀ c ∈ perm, c < s.entry.length := by
    intro c hc
    rw [h.entry_length]
    exact List.mem_range.mp (hpermi.mem_iff.mp hc)
  -- the free slot is somewhere in the permutation, and not among those passed
  have hmem : free ∈ perm := by
    refine hpermi.mem_iff.mpr (List.mem_range.mpr ?_)
    rw [← h.entry_length]
    exact (List.getElem?_eq_some_iff.mp hfree).1
  obtain ⟨j, hj⟩ := List.getElem?_of_mem hmem
  have hjlt := (List.getElem?_eq_some_iff.mp hj).1
  obtain ⟨start, hnext⟩ : ∃ start, s.next[i]? = some start :=
    ⟨_, List.getElem?_eq_getElem (by rw [h.next_length]; exact hi)⟩
  have hpassed := h.passed i perm start hperm hnext
  have hle : start ≤ j := by
    by_contra hlt
    exact hpassed j (by omega) free hj hfree
  obtain ⟨first, hfirst⟩ : ∃ c, perm[start]? = some c :=
    ⟨_, List.getElem?_eq_getElem (by omega)⟩
  obtain ⟨pos, c, hscan, hpos, hc, hpassed'⟩ :=
    scan_total hj hfree hin (Nat.add_sub_cancel' hle) hpassed hfirst
  refine ⟨_, fun fuel hfuel => ?_, h.take hperms hturn hi hperm hpos hc hpassed', rfl⟩
  rw [turn, index_of_some hperm, bind_ok, index_of_some hnext, bind_ok, index_of_some hfirst,
    bind_ok, hscan fuel (by omega), bind_ok]
  dsimp only
  rw [index_of_some hc, bind_ok, if_pos rfl]

/-! ## Passes -/

section Passes

variable {perms : List (List Nat)} {size : Nat}

/-- The turns from backend `i` to the last: they fill the table, or complete a round. -/
theorem pass_total (hperms : perms.length ≤ unset) (hall : ∀ p ∈ perms, p.Perm (List.range size))
    {r : Nat} :
    ∀ {todo i : Nat} {s : Fill}, i + todo = perms.length → s.n = perms.length * r + i →
      s.n < size → Filling perms size s →
      ∃ s', (∀ fuel, size < fuel → pass perms size fuel (List.range' i todo) s = .ok s') ∧
        Filling perms size s' ∧
        (s'.n = size ∨ s'.n = perms.length * (r + 1) ∧ s'.n < size) := by
  intro todo
  induction todo with
  | zero =>
    intro i s hi hs hn h
    refine ⟨s, fun _ _ => rfl, h, Or.inr ⟨?_, hn⟩⟩
    rw [hs, Nat.mul_succ, ← hi, Nat.add_zero]
  | succ todo ih =>
    intro i s hi hs hn h
    have hturn : s.n % perms.length = i := by
      rw [hs, Nat.mul_add_mod, Nat.mod_eq_of_lt (by omega)]
    obtain ⟨s₁, hok, h₁, hn₁⟩ := turn_total h hperms hall (by omega) hturn hn
    by_cases hfull : size ≤ s₁.n
    · refine ⟨s₁, fun fuel hfuel => ?_, h₁, Or.inl (by omega)⟩
      rw [List.range'_succ, pass, hok fuel hfuel, bind_ok, if_pos hfull]
    · obtain ⟨s₂, hrest, h₂⟩ := ih (i := i + 1) (s := s₁) (by omega) (by omega) (by omega) h₁
      refine ⟨s₂, fun fuel hfuel => ?_, h₂⟩
      rw [List.range'_succ, pass, hok fuel hfuel, bind_ok, if_neg hfull]
      exact hrest fuel hfuel

/-- The passes fill the table. The induction is on the slots that are left. -/
theorem passes_total (hpos : 0 < perms.length) (hperms : perms.length ≤ unset)
    (hall : ∀ p ∈ perms, p.Perm (List.range size)) :
    ∀ {left r : Nat} {s : Fill}, size - s.n ≤ left → s.n = perms.length * r → s.n < size →
      Filling perms size s →
      ∃ s', (∀ scanFuel fuel, size < scanFuel → left < fuel →
        passes perms size scanFuel fuel s = .ok s') ∧ Filling perms size s' ∧ s'.n = size := by
  intro left
  induction left with
  | zero =>
    intro r s hleft _ hn
    omega
  | succ left ih =>
    intro r s hleft hs hn h
    obtain ⟨s₁, hok, h₁, hdone⟩ := pass_total hperms hall (r := r) (i := 0)
      (Nat.zero_add perms.length) hs hn h
    rcases hdone with hfull | ⟨hround, hmore⟩
    · refine ⟨s₁, fun scanFuel fuel hscan hfuel => ?_, h₁, hfull⟩
      obtain ⟨fuel, rfl⟩ := Nat.exists_eq_add_of_le' (by omega : 2 ≤ fuel)
      rw [passes, if_pos hn, h.next_length, List.range_eq_range', hok scanFuel hscan, bind_ok,
        passes, if_neg (by omega)]
    · have hgrow : s.n < s₁.n := by
        rw [hs, hround, Nat.mul_succ]
        omega
      obtain ⟨s₂, hrest, h₂⟩ := ih (by omega) hround hmore h₁
      refine ⟨s₂, fun scanFuel fuel hscan hfuel => ?_, h₂⟩
      obtain ⟨fuel, rfl⟩ := Nat.exists_eq_succ_of_ne_zero (by omega : fuel ≠ 0)
      rw [passes, if_pos hn, h.next_length, List.range_eq_range', hok scanFuel hscan, bind_ok]
      exact hrest scanFuel fuel hscan (by omega)

end Passes

/-- The table: every slot has a backend, and no backend has two slots more than
another. -/
theorem generateLut_total {perms : List (List Nat)} {size : Nat} (hsize : 0 < size)
    (hpos : 0 < perms.length) (hperms : perms.length ≤ unset)
    (hall : ∀ p ∈ perms, p.Perm (List.range size)) :
    ∃ lut, (∀ fuel, size < fuel → generateLut perms size fuel = .ok lut) ∧ lut.length = size ∧
      (∀ e ∈ lut, e < perms.length) ∧
      ∀ i < perms.length, ∀ j < perms.length, lut.count i ≤ lut.count j + 1 := by
  obtain ⟨s, hok, h, hfull⟩ := passes_total hpos hperms hall (r := 0) (Nat.le_refl _) rfl hsize
    (filling_start perms size hperms)
  refine ⟨s.entry, fun fuel hfuel => ?_, h.entry_length, fun e he => ?_, fun i hi j hj => ?_⟩
  · rw [generateLut, hok fuel fuel hfuel hfuel, bind_ok]
  · refine (h.backends e he).resolve_left fun hunset => ?_
    have hcount := List.count_pos_iff.mpr (hunset ▸ he)
    have hfree := h.free
    omega
  · rw [h.owned i hi, h.owned j hj]
    exact turns_le_succ hi hj 0 s.n

theorem lookup_total {table : Maglev} {n : Nat} (hsize : 0 < table.lutSize)
    (hlen : table.lut.length = table.lutSize) (hlut : ∀ e ∈ table.lut, e < n) (hash : Nat) :
    ∃ i < n, table.lookup hash = .ok i := by
  have hlt : hash % table.lutSize < table.lut.length := by
    rw [hlen]
    exact Nat.mod_lt _ hsize
  refine ⟨_, hlut _ (List.getElem_mem hlt), ?_⟩
  rw [lookup, checkedRem_of_pos hsize, bind_ok, index_of_some (List.getElem?_eq_getElem hlt)]

end Maglev

open Maglev in
/-- For a prime size and at most `0x8000` backends `Maglev::new` returns whatever
the hashes are; the permutations visit every slot once, the table holds backends
only and is balanced, and every lookup gives a backend. -/
theorem maglev_new_balanced (h : Hashers) (names : List String) (m : Nat) (hm : m.Prime)
    (hlt : m < 2 ^ 32) (hsome : 1 ≤ names.length) (hmany : names.length ≤ 32768) :
    (∃ perms, generatePermutations h names m = .ok perms ∧ perms.length = names.length ∧
      ∀ p ∈ perms, p.Perm (List.range m)) ∧
    ∃ table : Maglev, (∀ fuel, m < fuel → Maglev.new h fuel names m = .ok table) ∧
      table.lut.length = m ∧ (∀ e ∈ table.lut, e < names.length) ∧
      (∀ i < names.length, ∀ j < names.length, table.lut.count i ≤ table.lut.count j + 1) ∧
      ∀ hash, ∃ i < names.length, table.lookup hash = .ok i := by
  obtain ⟨perms, hperms, hlen, hall⟩ := generatePermutations_total h names hm hlt
  refine ⟨⟨perms, hperms, hlen, hall⟩, ?_⟩
  obtain ⟨lut, hlut, hsize, hbackends, hbalanced⟩ :=
    generateLut_total hm.pos (by omega) (by rw [hlen]; exact hmany) hall
  rw [hlen] at hbackends hbalanced
  refine ⟨⟨lut, m⟩, fun fuel hfuel => ?_, hsize, hbackends, hbalanced,
    lookup_total hm.pos hsize hbackends⟩
  rw [Maglev.new, hperms, bind_ok, hlut fuel hfuel, bind_ok]

theorem maglev_new_balanced_seven :
    ∃ table : Maglev,
      (∀ fuel, 7 < fuel → Maglev.new ⟨fun _ => 3, fun _ => 5⟩ fuel ["a", "b", "c"] 7 = .ok table) ∧
      ∀ e ∈ table.lut, e < 3 := by
  obtain ⟨-, table, hok, -, hlut, -⟩ := maglev_new_balanced ⟨fun _ => 3, fun _ => 5⟩
    ["a", "b", "c"] 7 (by decide) (by decide) (by decide) (by decide)
  exact ⟨table, hok, hlut⟩

example : Maglev.new ⟨fun _ => 3, fun _ => 5⟩ 8 ["a", "b", "c"] 7 =
    .ok ⟨[1, 0, 1, 0, 2, 0, 2], 7⟩ := by decide

/-! ## The closure -/

section Closure

variable [Utils.BigEndian] (fnv : List UInt8 → UInt64)

/-- The closure given to `group_by`, for the payload of a packet's MAC header. -/
def maglevGroup (lut : Maglev) (cache : Std.HashMap Nat Nat) (payload : List UInt8) :
    Outcome (Nat × Std.HashMap Nat Nat) := do
  let hash ← Utils.ipv4FlowHash fnv payload 0
  match cache[hash]? with
  | some out => .ok (out, cache)
  | none => do
    let out ← lut.lookup hash
    .ok (out, cache.insert hash out)

/-- What is kept is what the table has. -/
def Steady (lut : Maglev) (cache : Std.HashMap Nat Nat) : Prop :=
  ∀ (hash : Nat) out, cache[hash]? = some out → lut.lookup hash = .ok out

/-- A packet goes where the table says, which is one of `n` groups. -/
def Steered (lut : Maglev) (n : Nat) (payload : List UInt8) (out : Nat) : Prop :=
  out < n ∧ ∃ hash, Utils.ipv4FlowHash fnv payload 0 = .ok hash ∧ lut.lookup hash = .ok out

variable {fnv} in
theorem maglevGroup_steady {lut : Maglev} {n : Nat}
    (hlut : ∀ hash, ∃ out < n, lut.lookup hash = .ok out) {cache : Std.HashMap Nat Nat}
    (h : Steady lut cache) {payload : List UInt8} {hash : Nat}
    (hhash : Utils.ipv4FlowHash fnv payload 0 = .ok hash) :
    ∃ out cache', maglevGroup fnv lut cache payload = .ok (out, cache') ∧
      Steered fnv lut n payload out ∧ Steady lut cache' := by
  obtain ⟨out, hlt, hout⟩ := hlut hash
  unfold maglevGroup
  rw [hhash, bind_ok]
  cases hc : cache[hash]? with
  | some kept =>
    have hkept := h hash kept hc
    rw [hout] at hkept
    cases hkept
    exact ⟨out, cache, rfl, ⟨hlt, hash, hhash, hout⟩, h⟩
  | none =>
    refine ⟨out, cache.insert hash out, by simp [hout], ⟨hlt, hash, hhash, hout⟩,
      fun k o hk => ?_⟩
    rw [Std.HashMap.getElem?_insert] at hk
    split at hk
    · next heq =>
      cases hk
      rw [← beq_iff_eq.mp heq]
      exact hout
    · exact h k o hk

variable {fnv} in
theorem runOps_maglevGroup {lut : Maglev} {n : Nat}
    (hlut : ∀ hash, ∃ out < n, lut.lookup hash = .ok out) :
    ∀ (payloads : List (List UInt8)) {cache : Std.HashMap Nat Nat}, Steady lut cache →
      (∀ p ∈ payloads, ∃ hash, Utils.ipv4FlowHash fnv p 0 = .ok hash) →
      ∃ outs cache', runOps (maglevGroup fnv lut) cache payloads = .ok (outs, cache') ∧
        List.Forall₂ (Steered fnv lut n) payloads outs := by
  intro payloads
  induction payloads with
  | nil => exact fun {cache} _ _ => ⟨[], cache, rfl, .nil⟩
  | cons p payloads ih =>
    intro cache hs hhash
    obtain ⟨hash, hp⟩ := hhash p List.mem_cons_self
    obtain ⟨out, cache₁, hone, hsteered, hs₁⟩ := maglevGroup_steady hlut hs hp
    obtain ⟨outs, cache₂, hrest, hall⟩ := ih hs₁ fun q hq => hhash q (List.mem_cons_of_mem p hq)
    refine ⟨out :: outs, cache₂, ?_, .cons hsteered hall⟩
    simp only [runOps, hone, bind_ok, hrest]

open Maglev in
/-- For up to `0x8000` backends and packets with a flow, every packet is put into the group of a
backend, and into the one that the table has for its flow. -/
theorem maglev_steers (h : Hashers) (names : List String) (hsome : 1 ≤ names.length)
    (hmany : names.length ≤ 32768) :
    ∃ lut : Maglev, (∀ fuel, 65537 < fuel → Maglev.new h fuel names 65537 = .ok lut) ∧
      ∀ payloads : List (List UInt8),
        (∀ p ∈ payloads, ∃ hash, Utils.ipv4FlowHash fnv p 0 = .ok hash) →
        ∃ outs cache, runOps (maglevGroup fnv lut) ∅ payloads = .ok (outs, cache) ∧
          List.Forall₂ (Steered fnv lut names.length) payloads outs := by
  have hm : Nat.Prime 65537 := by norm_num
  obtain ⟨perms, hperms, hlen, hall⟩ := generatePermutations_total h names hm (by norm_num)
  obtain ⟨lut, hlut, hsize, hbackends, -⟩ :=
    generateLut_total hm.pos (by omega) (by rw [hlen]; exact hmany) hall
  rw [hlen] at hbackends
  refine ⟨⟨lut, 65537⟩, fun fuel hfuel => ?_, fun payloads hhash => ?_⟩
  · rw [Maglev.new, hperms, bind_ok, hlut fuel hfuel, bind_ok]
  · exact runOps_maglevGroup (lookup_total hm.pos hsize hbackends) payloads (by simp [Steady]) hhash

end Closure

/-- A UDP packet from 10.0.0.1, port 7, to 10.0.0.2, port 9. -/
def firstPacket : List UInt8 :=
  [0x45, 0, 0, 24, 0, 0, 0, 0, 64, 17, 0, 0, 10, 0, 0, 1, 10, 0, 0, 2, 0, 7, 0, 9]

/-- A later packet of the same flow, with another identification and some data. -/
def laterPacket : List UInt8 :=
  [0x45, 0, 0, 26, 0, 1, 0, 0, 64, 17, 0, 0, 10, 0, 0, 1, 10, 0, 0, 2, 0, 7, 0, 9, 1, 2]

/-- A hash of bytes, for runs on given packets. -/
def byteHash (bytes : List UInt8) : UInt64 :=
  bytes.foldl (fun hash byte => 31 * hash + byte.toUInt64) 7

/-- Two packets of one flow: the group of the second is found among those that were kept, and
is the group of the first. -/
theorem maglev_steers_twice : letI := Utils.networkOrder
    ∃ lut : Maglev, (∀ fuel, 65537 < fuel →
        Maglev.new ⟨fun _ => 3, fun _ => 5⟩ fuel ["a", "b", "c"] 65537 = .ok lut) ∧
      ∃ out cache, out < 3 ∧
        runOps (maglevGroup byteHash lut) ∅ [firstPacket, laterPacket] =
          .ok ([out, out], cache) := by
  let _ := Utils.networkOrder
  obtain ⟨lut, hnew, h⟩ := maglev_steers byteHash ⟨fun _ => 3, fun _ => 5⟩ ["a", "b", "c"]
    (by decide) (by decide)
  have hsame : Utils.ipv4FlowHash byteHash firstPacket 0 =
      Utils.ipv4FlowHash byteHash laterPacket 0 := rfl
  obtain ⟨outs, cache, hrun, hall⟩ := h [firstPacket, laterPacket] fun p hp => by
    rcases List.mem_cons.mp hp with rfl | hp
    · exact ⟨_, rfl⟩
    · rw [List.mem_singleton.mp hp]
      exact ⟨_, rfl⟩
  rcases hall with _ | ⟨⟨hlt, hash, hhash, hout⟩, _ | ⟨⟨-, hash', hhash', hout'⟩, _ | _⟩⟩
  rw [← hsame, hhash] at hhash'
  cases hhash'
  rw [hout] at hout'
  cases hout'
  exact ⟨lut, hnew, _, cache, hlt, hrun⟩

end NetBricks.Nf
