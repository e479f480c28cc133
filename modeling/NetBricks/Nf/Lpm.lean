import Mathlib.Data.Finset.Card
import Mathlib.Data.Nat.Bitwise
import Mathlib.Data.Finset.Image
import Mathlib.Algebra.GroupWithZero.Nat
import NetBricks.Lib.Cells
import NetBricks.Lib.Painting

/-!
# Longest-prefix match: the two-level table

`IPLookup` of `test/lpm/src/nf.rs`. `tbl24` has an entry for each 24-bit prefix;
an entry with the top bit set names a block of 256 entries in `tbl_long`, one for
each address with that prefix. `construct_table` goes through the prefixes by
increasing length, and inside a length in whatever order the hash map yields
them; the order is a parameter here, an `IterationOrder`.

What a table says about every address is its `view`, and placing a prefix, short
or long, paints the prefix's addresses over the view (`place_view`). That rests on
`Placed`: the entries with the top bit are those of the prefixes that hold a block
(`Allocation`), and no two of them hold the same one.
-/

namespace NetBricks.Nf

open Lib Outcome

/-- `TBL24_SIZE`. -/
def tbl24Size : Nat := (1 <<< 24) + 1

/-- `RAW_SIZE`. -/
def rawSize : Nat := 33

/-- `OVERFLOW_MASK`. -/
def overflowMask : UInt16 := 0x8000

/-- `IPLookup`. -/
structure IPLookup where
  tbl24 : Cells UInt16
  tblLong : Cells UInt16
  currentTblLong : Nat
  rawEntries : List (Std.HashMap UInt32 UInt16)

/-- The order in which each hash map yields its entries. -/
structure IterationOrder where
  of : Nat → List (UInt32 × UInt16) → List (UInt32 × UInt16)
  perm : ∀ i l, (of i l).Perm l

namespace IPLookup

/-- `IPLookup::new`. -/
def new : IPLookup where
  tbl24 := .replicate tbl24Size 0
  tblLong := .replicate tbl24Size 0
  currentTblLong := 0
  rawEntries := List.replicate rawSize ∅

/-- `IPLookup::insert`. -/
def insert (t : IPLookup) (ip : UInt32) (len : Nat) (gate : UInt16) : Outcome IPLookup := do
  let m ← index t.rawEntries len
  .ok { t with rawEntries := t.rawEntries.set len (m.insert ip gate) }

/-- The body of the first loop of `construct_table`: a prefix of at most 24 bits. -/
def placeShort (i : Nat) (t : IPLookup) (kv : UInt32 × UInt16) : Outcome IPLookup := do
  let start := kv.1.toNat >>> 8
  let tbl24 ← t.tbl24.fillWith (fun _ => kv.2) (1 <<< (24 - i)) start
  .ok { t with tbl24 := tbl24 }

/-- The body of the second loop: a longer prefix. -/
def placeLong (i : Nat) (t : IPLookup) (kv : UInt32 × UInt16) : Outcome IPLookup := do
  let addr := kv.1.toNat
  let t24entry ← t.tbl24.get (addr >>> 8)
  if t24entry &&& overflowMask = 0 then
    -- not overflown yet: a new block, with the old entry around the prefix
    let ctlb := t.currentTblLong
    let start := ctlb + (addr &&& 0xff)
    let stop := start + 1 <<< (32 - i)
    let tblLong ← t.tblLong.fillWith
      (fun j => if j < start ∨ stop ≤ j then t24entry else kv.2) 256 ctlb
    let tbl24 ← t.tbl24.set (addr >>> 8) ((ctlb >>> 8).toUInt16 ||| overflowMask)
    .ok { t with tbl24 := tbl24, tblLong := tblLong, currentTblLong := t.currentTblLong + 256 }
  else
    let start := (t24entry &&& ~~~overflowMask).toNat <<< 8 + (addr &&& 0xff)
    let tblLong ← t.tblLong.fillWith (fun _ => kv.2) (1 <<< (32 - i)) start
    .ok { t with tblLong := tblLong }

/-- `IPLookup::construct_table`. -/
def constructTable (t : IPLookup) (order : IterationOrder) : Outcome IPLookup := do
  let t ← (List.range' 0 25).foldlM (fun t i => do
    let m ← index t.rawEntries i
    (order.of i m.toList).foldlM (placeShort i) t) t
  (List.range' 25 (rawSize - 25)).foldlM (fun t i => do
    let m ← index t.rawEntries i
    (order.of i m.toList).foldlM (placeLong i) t) t

/-- `IPLookup::lookup_entry`. -/
def lookupEntry (t : IPLookup) (ip : UInt32) : Outcome UInt16 := do
  let addr := ip.toNat
  let t24entry ← t.tbl24.get (addr >>> 8)
  if t24entry &&& overflowMask > 0 then
    t.tblLong.get ((t24entry &&& ~~~overflowMask).toNat <<< 8 + (addr &&& 0xff))
  else .ok t24entry

end IPLookup

/-! ## Entries -/

/-- The block an entry with the top bit names. -/
def blockOf (e : UInt16) : Nat := (e &&& ~~~overflowMask).toNat

/-- The entry that names a block. -/
def blockEntry (k : Nat) : UInt16 := k.toUInt16 ||| overflowMask

theorem and_overflowMask_eq_zero {e : UInt16} : e &&& overflowMask = 0 ↔ e.toNat < 2 ^ 15 := by
  rw [← UInt16.toNat_inj, UInt16.toNat_and]
  have hlt : e.toNat < 2 ^ 16 := e.toNat_lt
  have hbit : e.toNat &&& 2 ^ 15 = (e.toNat.testBit 15).toNat * 2 ^ 15 := Nat.and_two_pow _ _
  show e.toNat &&& 2 ^ 15 = 0 ↔ _
  rw [hbit, Nat.testBit_eq_decide_div_mod_eq]
  by_cases h : e.toNat < 2 ^ 15
  · rw [decide_eq_false (show ¬ e.toNat / 2 ^ 15 % 2 = 1 by omega)]
    exact ⟨fun _ => h, fun _ => rfl⟩
  · rw [decide_eq_true (show e.toNat / 2 ^ 15 % 2 = 1 by omega)]
    exact ⟨fun h0 => absurd h0 (by decide), fun hlt => absurd hlt h⟩

theorem blockOf_eq (e : UInt16) : blockOf e = e.toNat % 2 ^ 15 := by
  unfold blockOf
  rw [UInt16.toNat_and]
  exact Nat.and_two_pow_sub_one_eq_mod e.toNat 15

theorem blockOf_lt (e : UInt16) : blockOf e < 2 ^ 15 := by
  rw [blockOf_eq]
  exact Nat.mod_lt _ (by decide)

theorem toNat_blockEntry (k : Nat) : (blockEntry k).toNat = k % 2 ^ 16 ||| 2 ^ 15 := by
  unfold blockEntry
  rw [UInt16.toNat_or]
  rfl

theorem blockEntry_and_overflowMask (k : Nat) : blockEntry k &&& overflowMask ≠ 0 := by
  rw [Ne, and_overflowMask_eq_zero, toNat_blockEntry, Nat.not_lt]
  exact Nat.right_le_or

/-- Only 15 bits of the block's number are stored. -/
theorem blockOf_blockEntry (k : Nat) : blockOf (blockEntry k) = k % 2 ^ 15 := by
  rw [blockOf_eq, toNat_blockEntry, ← Nat.and_two_pow_sub_one_eq_mod, Nat.and_or_distrib_right,
    Nat.and_two_pow_sub_one_eq_mod, Nat.and_two_pow_sub_one_eq_mod, Nat.mod_self, Nat.or_zero]
  exact Nat.mod_mod_of_dvd k (by decide)


/-! ## Placing a prefix -/

namespace IPLookup

/-- The body of whichever loop handles prefixes of length `i`. -/
def place (i : Nat) (t : IPLookup) (kv : UInt32 × UInt16) : Outcome IPLookup :=
  if i < 25 then placeShort i t kv else placeLong i t kv

/-- The table after a short prefix. -/
def withShort (t : IPLookup) (i : Nat) (kv : UInt32 × UInt16) : IPLookup :=
  { t with tbl24 := t.tbl24.overwrite (kv.1.toNat / 256) (2 ^ (24 - i)) fun _ => kv.2 }

/-- The table after a long prefix that gets a new block. -/
def withBlock (t : IPLookup) (i : Nat) (kv : UInt32 × UInt16) : IPLookup :=
  { t with
    tbl24 := t.tbl24.overwrite (kv.1.toNat / 256) 1 fun _ => blockEntry (t.currentTblLong / 256)
    tblLong := t.tblLong.overwrite t.currentTblLong 256 fun j =>
      if j < t.currentTblLong + kv.1.toNat % 256 ∨
        t.currentTblLong + kv.1.toNat % 256 + 2 ^ (32 - i) ≤ j then
        t.tbl24.cell (kv.1.toNat / 256)
      else kv.2
    currentTblLong := t.currentTblLong + 256 }

/-- The table after a long prefix whose block is there. -/
def withPatch (t : IPLookup) (i : Nat) (kv : UInt32 × UInt16) : IPLookup :=
  { t with
    tblLong := t.tblLong.overwrite
      (256 * blockOf (t.tbl24.cell (kv.1.toNat / 256)) + kv.1.toNat % 256) (2 ^ (32 - i))
      fun _ => kv.2 }

variable {t t' : IPLookup} {i : Nat} {kv : UInt32 × UInt16}

theorem shiftRight_eight (n : Nat) : n >>> 8 = n / 256 := Nat.shiftRight_eq_div_pow n 8

theorem and_ff (n : Nat) : n &&& 0xff = n % 256 := Nat.and_two_pow_sub_one_eq_mod n 8

theorem shiftLeft_eight (n : Nat) : n <<< 8 = 256 * n := by
  rw [Nat.shiftLeft_eq, Nat.mul_comm]

theorem placeShort_eq : placeShort i t kv =
    if kv.1.toNat / 256 + 2 ^ (24 - i) ≤ t.tbl24.size then .ok (t.withShort i kv)
    else .panic .index := by
  have hpos := Nat.two_pow_pos (24 - i)
  unfold placeShort
  dsimp only
  rw [shiftRight_eight, Nat.one_shiftLeft, Cells.fillWith_eq]
  by_cases h : kv.1.toNat / 256 + 2 ^ (24 - i) ≤ t.tbl24.size
  · rw [if_pos (Or.inr h), if_pos h]
    rfl
  · rw [if_neg (by omega), if_neg h]
    rfl

theorem placeLong_of_short (hsize : kv.1.toNat / 256 < t.tbl24.size)
    (hcell : t.tbl24.cell (kv.1.toNat / 256) &&& overflowMask = 0) :
    placeLong i t kv = if t.currentTblLong + 256 ≤ t.tblLong.size then .ok (t.withBlock i kv)
      else .panic .index := by
  unfold placeLong
  dsimp only
  rw [shiftRight_eight, Cells.get_of_lt hsize, bind_ok, if_pos hcell, and_ff, Nat.one_shiftLeft,
    shiftRight_eight, Cells.set_of_lt hsize, Cells.fillWith_eq]
  by_cases h : t.currentTblLong + 256 ≤ t.tblLong.size
  · rw [if_pos (Or.inr h), if_pos h]
    rfl
  · rw [if_neg (by omega), if_neg h]
    rfl

theorem placeLong_of_long (hsize : kv.1.toNat / 256 < t.tbl24.size)
    (hcell : t.tbl24.cell (kv.1.toNat / 256) &&& overflowMask ≠ 0) :
    placeLong i t kv =
      if 256 * blockOf (t.tbl24.cell (kv.1.toNat / 256)) + kv.1.toNat % 256 + 2 ^ (32 - i) ≤
          t.tblLong.size then .ok (t.withPatch i kv)
      else .panic .index := by
  have hpos := Nat.two_pow_pos (32 - i)
  unfold placeLong
  dsimp only
  rw [shiftRight_eight, Cells.get_of_lt hsize, bind_ok, if_neg hcell, and_ff, Nat.one_shiftLeft,
    shiftLeft_eight, Cells.fillWith_eq, ← blockOf]
  by_cases h : 256 * blockOf (t.tbl24.cell (kv.1.toNat / 256)) + kv.1.toNat % 256 + 2 ^ (32 - i) ≤
      t.tblLong.size
  · rw [if_pos (Or.inr h), if_pos h]
    rfl
  · rw [if_neg (by omega), if_neg h]
    rfl

end IPLookup

/-! ## Which prefixes hold a block -/

/-- The 24-bit prefixes that hold a block, and how many blocks were handed out. -/
structure Allocation where
  live : Finset Nat
  blocks : Nat

/-- What placing a prefix does: a short one takes the blocks of what it covers
out of use, a long one gets a block for its first 24 bits unless they have one. -/
def Allocation.place (a : Allocation) (i : Nat) (k : UInt32) : Allocation :=
  if i < 25 then
    { a with live := a.live.filter fun p =>
        ¬ (k.toNat / 256 ≤ p ∧ p < k.toNat / 256 + 2 ^ (24 - i)) }
  else if k.toNat / 256 ∈ a.live then a
  else ⟨insert (k.toNat / 256) a.live, a.blocks + 1⟩

/-- The table's entries and the blocks handed out; `block` is the number under which a prefix
got its block. The entries of prefixes that have one hold its number with the overflow bit
(`long`), the others a gate without it (`short`), and no number is given twice (`apart`). -/
structure Placed (t : IPLookup) (a : Allocation) (block : Nat → Nat) : Prop where
  size24 : t.tbl24.size = tbl24Size
  sizeLong : t.tblLong.size = tbl24Size
  current : t.currentTblLong = 256 * a.blocks
  short : ∀ p, p ∉ a.live → t.tbl24.cell p &&& overflowMask = 0
  long : ∀ p ∈ a.live, t.tbl24.cell p = blockEntry (block p) ∧ block p < a.blocks ∧ p < 2 ^ 24
  apart : Set.InjOn block a.live

theorem toNat_div_lt (k : UInt32) : k.toNat / 256 < 2 ^ 24 := by
  have := k.toNat_lt
  omega

theorem div_lt_tbl24Size (k : UInt32) : k.toNat / 256 < tbl24Size := by
  have := toNat_div_lt k
  unfold tbl24Size
  omega

namespace Placed

variable {t t' : IPLookup} {a : Allocation} {block : Nat → Nat} {i : Nat} {kv : UInt32 × UInt16}

theorem mem_live_iff (h : Placed t a block) (p : Nat) :
    p ∈ a.live ↔ t.tbl24.cell p &&& overflowMask ≠ 0 := by
  constructor
  · intro hp
    rw [(h.long p hp).1]
    exact blockEntry_and_overflowMask _
  · intro hcell
    by_contra hp
    exact hcell (h.short p hp)

theorem withShort (h : Placed t a block) (hi : i < 25) (hgate : kv.2 &&& overflowMask = 0) :
    Placed (t.withShort i kv) (a.place i kv.1) block := by
  unfold Allocation.place
  rw [if_pos hi]
  refine ⟨h.size24, h.sizeLong, h.current, fun p hp => ?_, fun p hp => ?_, ?_⟩
  · dsimp only [IPLookup.withShort, Cells.overwrite_cell]
    split
    · exact hgate
    · next hout => exact h.short p fun hlive => hp (Finset.mem_filter.mpr ⟨hlive, hout⟩)
  · obtain ⟨hlive, hout⟩ := Finset.mem_filter.mp hp
    dsimp only [IPLookup.withShort, Cells.overwrite_cell]
    rw [if_neg hout]
    exact h.long p hlive
  · exact h.apart.mono fun p hp => (Finset.mem_filter.mp hp).1

/-- The number of the block that is handed out next. -/
def nextBlock (a : Allocation) (block : Nat → Nat) (p : Nat) : Nat → Nat :=
  Function.update block p a.blocks

theorem withBlock (h : Placed t a block) (hi : ¬ i < 25) (hp : kv.1.toNat / 256 ∉ a.live) :
    Placed (t.withBlock i kv) (a.place i kv.1) (nextBlock a block (kv.1.toNat / 256)) := by
  have hnext : t.currentTblLong / 256 = a.blocks := by
    rw [h.current, Nat.mul_div_cancel_left _ (by decide)]
  have hold : ∀ q ∈ a.live, nextBlock a block (kv.1.toNat / 256) q = block q := fun q hq =>
    Function.update_of_ne (ne_of_mem_of_not_mem hq hp) _ _
  have hnew : nextBlock a block (kv.1.toNat / 256) (kv.1.toNat / 256) = a.blocks :=
    Function.update_self _ _ _
  unfold Allocation.place
  rw [if_neg hi, if_neg hp]
  refine ⟨h.size24, h.sizeLong, ?_, fun q hq => ?_, fun q hq => ?_, ?_⟩
  · dsimp only [IPLookup.withBlock]
    rw [h.current, Nat.mul_add]
  · obtain ⟨hne, hq⟩ := not_or.mp fun hor => hq (Finset.mem_insert.mpr hor)
    dsimp only [IPLookup.withBlock, Cells.overwrite_cell]
    rw [if_neg (by omega)]
    exact h.short q hq
  · dsimp only [IPLookup.withBlock, Cells.overwrite_cell]
    by_cases hqp : q = kv.1.toNat / 256
    · rw [if_pos (by omega), hnext, hqp, hnew]
      exact ⟨rfl, Nat.lt_succ_self _, toNat_div_lt kv.1⟩
    · have hq := (Finset.mem_insert.mp hq).resolve_left hqp
      obtain ⟨hcell, hlt, hbound⟩ := h.long q hq
      rw [if_neg (by omega), hold q hq]
      exact ⟨hcell, by omega, hbound⟩
  · rw [Finset.coe_insert, Set.injOn_insert hp]
    refine ⟨h.apart.congr fun q hq => (hold q hq).symm, ?_⟩
    -- the new number is above all the others
    rw [hnew]
    intro hmem
    obtain ⟨q, hq, hblock⟩ := hmem
    have := (h.long q hq).2.1
    rw [hold q hq] at hblock
    omega

theorem withPatch (h : Placed t a block) (hi : ¬ i < 25) (hp : kv.1.toNat / 256 ∈ a.live) :
    Placed (t.withPatch i kv) (a.place i kv.1) block := by
  unfold Allocation.place
  rw [if_neg hi, if_pos hp]
  exact ⟨h.size24, h.sizeLong, h.current, h.short, h.long, h.apart⟩

/-- What placing a prefix can do, on a table whose entries name the blocks handed out. -/
theorem place_cases (h : Placed t a block) (hok : t.place i kv = .ok t') :
    (i < 25 ∧ t' = t.withShort i kv) ∨
    (¬ i < 25 ∧ kv.1.toNat / 256 ∉ a.live ∧ t' = t.withBlock i kv) ∨
    (¬ i < 25 ∧ kv.1.toNat / 256 ∈ a.live ∧ t' = t.withPatch i kv) := by
  have hsize : kv.1.toNat / 256 < t.tbl24.size := h.size24 ▸ div_lt_tbl24Size kv.1
  unfold IPLookup.place at hok
  split at hok
  · next hi =>
    rw [IPLookup.placeShort_eq] at hok
    split at hok
    · exact Or.inl ⟨hi, (Outcome.ok.inj hok).symm⟩
    · cases hok
  · next hi =>
    right
    by_cases hp : kv.1.toNat / 256 ∈ a.live
    · rw [IPLookup.placeLong_of_long hsize ((h.mem_live_iff _).mp hp)] at hok
      split at hok
      · exact Or.inr ⟨hi, hp, (Outcome.ok.inj hok).symm⟩
      · cases hok
    · rw [IPLookup.placeLong_of_short hsize (h.short _ hp)] at hok
      split at hok
      · exact Or.inl ⟨hi, hp, (Outcome.ok.inj hok).symm⟩
      · cases hok

theorem place (h : Placed t a block) (hgate : i < 25 → kv.2 &&& overflowMask = 0)
    (hok : t.place i kv = .ok t') : ∃ block', Placed t' (a.place i kv.1) block' := by
  rcases h.place_cases hok with ⟨hi, rfl⟩ | ⟨hi, hp, rfl⟩ | ⟨hi, hp, rfl⟩
  · exact ⟨_, h.withShort hi (hgate hi)⟩
  · exact ⟨_, h.withBlock hi hp⟩
  · exact ⟨_, h.withPatch hi hp⟩

end Placed

/-! ## Aligned prefixes -/

/-- A multiple of `d`, below a multiple of `d`, leaves room for another `d`. -/
theorem mod_add_le {m d k : Nat} (hd : d ∣ m) (hm : 0 < m) (hk : k % d = 0) : k % m + d ≤ m := by
  obtain ⟨c, rfl⟩ := hd
  have hmod : k % (d * c) % d = 0 := by rw [Nat.mod_mul_right_mod, hk]
  obtain ⟨q, hq⟩ := Nat.dvd_of_mod_eq_zero hmod
  have hlt : k % (d * c) < d * c := Nat.mod_lt _ hm
  rw [hq] at hlt ⊢
  have hqc : q < c := Nat.lt_of_mul_lt_mul_left hlt
  calc d * q + d = d * (q + 1) := (Nat.mul_succ d q).symm
    _ ≤ d * c := Nat.mul_le_mul_left d hqc

/-- The bits of the address after the prefix are zero. -/
def Aligned (i : Nat) (k : UInt32) : Prop := k.toNat % 2 ^ (32 - i) = 0

instance (i : Nat) (k : UInt32) : Decidable (Aligned i k) := inferInstanceAs (Decidable (_ = _))

namespace Aligned

variable {i : Nat} {k : UInt32}

theorem add_le (h : Aligned i k) : k.toNat + 2 ^ (32 - i) ≤ 2 ^ 32 := by
  have hroom := mod_add_le (Nat.pow_dvd_pow 2 (by omega : 32 - i ≤ 32)) (by decide) h
  rwa [Nat.mod_eq_of_lt k.toNat_lt] at hroom

/-- A long prefix stays inside the block of its first 24 bits. -/
theorem long_add_le (h : Aligned i k) (hi : ¬ i < 25) : k.toNat % 256 + 2 ^ (32 - i) ≤ 256 :=
  mod_add_le (Nat.pow_dvd_pow 2 (by omega : 32 - i ≤ 8)) (by decide) h

theorem two_pow_eq (hi : i < 25) : 2 ^ (32 - i) = 256 * 2 ^ (24 - i) := by
  rw [show 32 - i = 8 + (24 - i) by omega, Nat.pow_add]

/-- A short prefix starts at a multiple of 256. -/
theorem short_eq (h : Aligned i k) (hi : i < 25) : k.toNat = 256 * (k.toNat / 256) := by
  unfold Aligned at h
  rw [two_pow_eq hi] at h
  have hmod : k.toNat % 256 = 0 := by
    rw [← Nat.mod_mul_right_mod k.toNat 256 (2 ^ (24 - i)), h]
  omega

theorem short_add_le (h : Aligned i k) (hi : i < 25) :
    k.toNat / 256 + 2 ^ (24 - i) ≤ 2 ^ 24 := by
  have hle := h.add_le
  have heq := h.short_eq hi
  rw [two_pow_eq hi] at hle
  omega

end Aligned

/-- An aligned prefix can be placed as long as there are blocks left. -/
theorem Placed.place_total {t : IPLookup} {a : Allocation} {block : Nat → Nat} {i : Nat}
    {kv : UInt32 × UInt16} (h : Placed t a block) (halign : Aligned i kv.1)
    (hblocks : (a.place i kv.1).blocks ≤ 2 ^ 16) : ∃ t', t.place i kv = .ok t' := by
  have hsize : kv.1.toNat / 256 < t.tbl24.size := h.size24 ▸ div_lt_tbl24Size kv.1
  have hsize24 := h.size24
  have hsizeLong := h.sizeLong
  unfold tbl24Size at hsize24 hsizeLong
  unfold IPLookup.place
  by_cases hi : i < 25
  · have hroom := halign.short_add_le hi
    rw [if_pos hi, IPLookup.placeShort_eq, if_pos (by omega)]
    exact ⟨_, rfl⟩
  · rw [if_neg hi]
    by_cases hp : kv.1.toNat / 256 ∈ a.live
    · have hroom := halign.long_add_le hi
      have hblock := blockOf_lt (t.tbl24.cell (kv.1.toNat / 256))
      rw [IPLookup.placeLong_of_long hsize ((h.mem_live_iff _).mp hp), if_pos (by omega)]
      exact ⟨_, rfl⟩
    · have hcurrent := h.current
      have hnext : (a.place i kv.1).blocks = a.blocks + 1 := by
        unfold Allocation.place
        rw [if_neg hi, if_neg hp]
      rw [IPLookup.placeLong_of_short hsize (h.short _ hp), if_pos (by omega)]
      exact ⟨_, rfl⟩

/-! ## What the table says -/

/-- What the table says about an address. -/
def IPLookup.view (t : IPLookup) (x : Nat) : UInt16 :=
  if t.tbl24.cell (x / 256) &&& overflowMask = 0 then t.tbl24.cell (x / 256)
  else t.tblLong.cell (256 * blockOf (t.tbl24.cell (x / 256)) + x % 256)

/-- The addresses of a prefix and its gate. -/
def addresses (i : Nat) (kv : UInt32 × UInt16) : Layer Nat UInt16 where
  covers x := decide (kv.1.toNat ≤ x ∧ x < kv.1.toNat + 2 ^ (32 - i))
  value := kv.2

theorem paint_addresses (f : Nat → UInt16) (i : Nat) (kv : UInt32 × UInt16) (x : Nat) :
    (addresses i kv).paint f x =
      if kv.1.toNat ≤ x ∧ x < kv.1.toNat + 2 ^ (32 - i) then kv.2 else f x := by
  unfold Layer.paint addresses
  simp only [decide_eq_true_eq]

theorem Allocation.blocks_le_place (a : Allocation) (i : Nat) (k : UInt32) :
    a.blocks ≤ (a.place i k).blocks := by
  unfold Allocation.place
  split
  · exact Nat.le_refl _
  · split
    · exact Nat.le_refl _
    · exact Nat.le_succ _

/-- The view of a table that holds no more blocks than 15 bits can number. -/
theorem Placed.view_of_mem {t : IPLookup} {a : Allocation} {block : Nat → Nat} {x : Nat}
    (h : Placed t a block) (hblocks : a.blocks ≤ 2 ^ 15) (hx : x / 256 ∈ a.live) :
    t.view x = t.tblLong.cell (256 * block (x / 256) + x % 256) := by
  obtain ⟨hcell, hlt, -⟩ := h.long _ hx
  unfold IPLookup.view
  rw [if_neg ((h.mem_live_iff _).mp hx), hcell, blockOf_blockEntry, Nat.mod_eq_of_lt (by omega)]

theorem Placed.view_of_not_mem {t : IPLookup} {a : Allocation} {block : Nat → Nat} {x : Nat}
    (h : Placed t a block) (hx : x / 256 ∉ a.live) : t.view x = t.tbl24.cell (x / 256) :=
  if_pos (h.short _ hx)

section View

variable {t t' : IPLookup} {a : Allocation} {block : Nat → Nat} {i : Nat} {kv : UInt32 × UInt16}

theorem view_withShort (halign : Aligned i kv.1) (hi : i < 25)
    (hgate : kv.2 &&& overflowMask = 0) :
    (t.withShort i kv).view = (addresses i kv).paint t.view := by
  funext x
  have heq := halign.short_eq hi
  rw [paint_addresses, Aligned.two_pow_eq hi]
  by_cases hx : kv.1.toNat / 256 ≤ x / 256 ∧ x / 256 < kv.1.toNat / 256 + 2 ^ (24 - i)
  · have hcell : (t.withShort i kv).tbl24.cell (x / 256) = kv.2 := if_pos hx
    rw [IPLookup.view, hcell, if_pos hgate, if_pos (by omega)]
  · have hcell : (t.withShort i kv).tbl24.cell (x / 256) = t.tbl24.cell (x / 256) := if_neg hx
    rw [IPLookup.view, hcell, if_neg (c := kv.1.toNat ≤ x ∧ _) (by omega)]
    rfl

theorem view_withBlock (h : Placed t a block) (halign : Aligned i kv.1) (hi : ¬ i < 25)
    (hp : kv.1.toNat / 256 ∉ a.live) (hblocks : a.blocks + 1 ≤ 2 ^ 15) :
    (t.withBlock i kv).view = (addresses i kv).paint t.view := by
  funext x
  have hroom := halign.long_add_le hi
  have hplaced := h.withBlock (i := i) hi hp
  have hlive : (a.place i kv.1).live = insert (kv.1.toNat / 256) a.live := by
    unfold Allocation.place
    rw [if_neg hi, if_neg hp]
  have hnext : (a.place i kv.1).blocks = a.blocks + 1 := by
    unfold Allocation.place
    rw [if_neg hi, if_neg hp]
  have hcurrent := h.current
  rw [paint_addresses]
  by_cases hx : x / 256 = kv.1.toNat / 256
  · -- an address of the new block
    have hmem : x / 256 ∈ (a.place i kv.1).live := by
      rw [hlive, hx]
      exact Finset.mem_insert_self _ _
    rw [hplaced.view_of_mem (by omega) hmem, h.view_of_not_mem (by rwa [hx]), hx,
      Placed.nextBlock, Function.update_self]
    dsimp only [IPLookup.withBlock, Cells.overwrite_cell]
    rw [if_pos (by omega)]
    by_cases hin : kv.1.toNat ≤ x ∧ x < kv.1.toNat + 2 ^ (32 - i)
    · rw [if_neg (by omega), if_pos hin]
    · rw [if_pos (by omega), if_neg hin]
  · rw [if_neg (by omega)]
    by_cases hlong : x / 256 ∈ a.live
    · have hlt := (h.long _ hlong).2.1
      have hmem : x / 256 ∈ (a.place i kv.1).live := by
        rw [hlive]
        exact Finset.mem_insert_of_mem hlong
      rw [hplaced.view_of_mem (by omega) hmem, h.view_of_mem (by omega) hlong,
        Placed.nextBlock, Function.update_of_ne hx]
      dsimp only [IPLookup.withBlock, Cells.overwrite_cell]
      rw [if_neg (by omega)]
    · have hmem : x / 256 ∉ (a.place i kv.1).live := by
        rw [hlive, Finset.mem_insert]
        exact not_or.mpr ⟨hx, hlong⟩
      rw [hplaced.view_of_not_mem hmem, h.view_of_not_mem hlong]
      dsimp only [IPLookup.withBlock, Cells.overwrite_cell]
      rw [if_neg (by omega)]

theorem view_withPatch (h : Placed t a block) (halign : Aligned i kv.1) (hi : ¬ i < 25)
    (hp : kv.1.toNat / 256 ∈ a.live) (hblocks : a.blocks ≤ 2 ^ 15) :
    (t.withPatch i kv).view = (addresses i kv).paint t.view := by
  funext x
  have hroom := halign.long_add_le hi
  have hplaced : Placed (t.withPatch i kv) a block :=
    ⟨h.size24, h.sizeLong, h.current, h.short, h.long, h.apart⟩
  obtain ⟨hcell, hlt, -⟩ := h.long _ hp
  have hstart : blockOf (t.tbl24.cell (kv.1.toNat / 256)) = block (kv.1.toNat / 256) := by
    rw [hcell, blockOf_blockEntry, Nat.mod_eq_of_lt (by omega)]
  rw [paint_addresses]
  by_cases hlong : x / 256 ∈ a.live
  · rw [hplaced.view_of_mem hblocks hlong, h.view_of_mem hblocks hlong]
    dsimp only [IPLookup.withPatch, Cells.overwrite_cell]
    rw [hstart]
    by_cases hx : x / 256 = kv.1.toNat / 256
    · rw [hx]
      by_cases hin : kv.1.toNat ≤ x ∧ x < kv.1.toNat + 2 ^ (32 - i)
      · rw [if_pos (by omega), if_pos hin]
      · rw [if_neg (by omega), if_neg hin]
    · -- another prefix, so another block
      have hne : block (x / 256) ≠ block (kv.1.toNat / 256) := fun hb => hx (h.apart hlong hp hb)
      rw [if_neg (by omega), if_neg (by omega)]
  · have hx : x / 256 ≠ kv.1.toNat / 256 := fun hx => hlong (hx ▸ hp)
    rw [hplaced.view_of_not_mem hlong, h.view_of_not_mem hlong, if_neg (by omega)]
    rfl

/-- Placing a prefix paints its addresses over what the table says. -/
theorem place_view (h : Placed t a block) (halign : Aligned i kv.1)
    (hgate : kv.2 &&& overflowMask = 0) (hblocks : (a.place i kv.1).blocks ≤ 2 ^ 15)
    (hok : t.place i kv = .ok t') : t'.view = (addresses i kv).paint t.view := by
  rcases h.place_cases hok with ⟨hi, rfl⟩ | ⟨hi, hp, rfl⟩ | ⟨hi, hp, rfl⟩
  · exact view_withShort halign hi hgate
  · refine view_withBlock h halign hi hp ?_
    unfold Allocation.place at hblocks
    rwa [if_neg hi, if_neg hp] at hblocks
  · exact view_withPatch h halign hi hp ((a.blocks_le_place i kv.1).trans hblocks)

end View

end NetBricks.Nf
