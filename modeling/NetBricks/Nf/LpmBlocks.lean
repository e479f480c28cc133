import NetBricks.Nf.LpmRounds

/-!
# Longest-prefix match: whose block an entry names

`construct_table` of `test/lpm/src/nf.rs` stores the number of a block as a `u16` with the
overflow bit on, so 15 bits of it are left. Nothing checks the number: the table of blocks has
room for twice as many. And nothing keeps a gate with that bit out of `tbl24`, where it is taken
for the number of a block.

The `Register` of the rounds is what the entries of `tbl24` stand for, with the numbers of the
blocks as they were handed out. It depends on what was inserted and on the order of the maps.
The entries are the register's, encoded (`Recorded`), whether or not a number is cut: the code
only looks at the overflow bit. So the entries name different blocks and no number was cut exactly
when no more than `2 ^ 15` blocks were handed out and no gate in the register has the number of
another entry (`blocks_kept_iff`).
-/

namespace NetBricks.Nf

open Lib Outcome

/-! ## The register -/

/-- What the entry of a 24-bit prefix stands for: the gate of a short prefix, at first `0`, or
the block of its own with this number. -/
inductive Tbl24Entry where
  | gate (g : UInt16)
  | block (k : Nat)

namespace Tbl24Entry

/-- The entry as it is stored. -/
def stored : Tbl24Entry → UInt16
  | gate g => g
  | block k => blockEntry k

/-- The block that the entry is taken to name. -/
def number : Tbl24Entry → Nat
  | gate g => blockOf g
  | block k => k

end Tbl24Entry

/-- What the entries stand for, and how many blocks were handed out. -/
structure Register where
  entry : Nat → Tbl24Entry
  blocks : Nat

namespace Register

def new : Register := ⟨fun _ => .gate 0, 0⟩

/-- A short prefix writes its gate over the entries it covers. A long one takes the next block,
unless the entry of its first 24 bits has the overflow bit. -/
def place (d : Register) (i : Nat) (kv : UInt32 × UInt16) : Register :=
  if i < 25 then
    { d with entry := fun p =>
        if kv.1.toNat / 256 ≤ p ∧ p < kv.1.toNat / 256 + 2 ^ (24 - i) then .gate kv.2
        else d.entry p }
  else if (d.entry (kv.1.toNat / 256)).stored &&& overflowMask = 0 then
    ⟨Function.update d.entry (kv.1.toNat / 256) (.block d.blocks), d.blocks + 1⟩
  else d

/-- No gate in the register is taken for the block of another entry. A gate with the overflow
bit is looked up in `tbl_long`, at the block with its other 15 bits, which should be no other
prefix's. -/
def GatesApart (d : Register) : Prop :=
  ∀ p < 2 ^ 24, ∀ q < 2 ^ 24, p ≠ q → ∀ g, d.entry p = .gate g → g &&& overflowMask ≠ 0 →
    (d.entry q).stored &&& overflowMask ≠ 0 → blockOf g ≠ (d.entry q).number

end Register

/-- The maps after one more insert. -/
def insertRaw (raw : List (Std.HashMap UInt32 UInt16)) (e : Insert) :
    List (Std.HashMap UInt32 UInt16) :=
  raw.set e.len ((raw[e.len]?.getD ∅).insert e.ip e.gate)

/-- The maps and the register after one more round. -/
def enter (s : List (Std.HashMap UInt32 UInt16) × Register) (r : Round) :
    List (Std.HashMap UInt32 UInt16) × Register :=
  let raw := r.inserts.foldl insertRaw s.1
  (raw, (placements r.order raw (List.range rawSize)).foldl (fun d o => d.place o.1 o.2) s.2)

/-- The register of the rounds. -/
def register (rounds : List Round) : Register :=
  (rounds.foldl enter (List.replicate rawSize ∅, .new)).2

/-! ## The table keeps the register -/

/-- The entries of the table are those of the register, cut to 16 bits where it holds the number
of a block (`stored`). The counter of the table says how many blocks there are (`current`), and
the register gives no number twice (`apart`). -/
structure Recorded (t : IPLookup) (d : Register) : Prop where
  size24 : t.tbl24.size = tbl24Size
  current : t.currentTblLong = 256 * d.blocks
  stored : ∀ p, t.tbl24.cell p = (d.entry p).stored
  lt : ∀ p k, d.entry p = .block k → k < d.blocks
  apart : ∀ p q k, d.entry p = .block k → d.entry q = .block k → p = q

theorem Recorded.new : Recorded IPLookup.new .new := by
  refine ⟨rfl, rfl, fun _ => rfl, fun p k hk => ?_, fun p q k hk _ => ?_⟩
  · cases hk
  · cases hk

section Recorded

variable {t t' : IPLookup} {d : Register} {i : Nat} {kv : UInt32 × UInt16}

theorem Recorded.withRaw (h : Recorded t d) (raw : List (Std.HashMap UInt32 UInt16)) :
    Recorded { t with rawEntries := raw } d := ⟨h.size24, h.current, h.stored, h.lt, h.apart⟩

theorem Recorded.withShort (h : Recorded t d) (hi : i < 25) :
    Recorded (t.withShort i kv) (d.place i kv) := by
  rw [Register.place, if_pos hi]
  have hold : ∀ {p k}, (if kv.1.toNat / 256 ≤ p ∧ p < kv.1.toNat / 256 + 2 ^ (24 - i)
      then Tbl24Entry.gate kv.2 else d.entry p) = .block k → d.entry p = .block k := by
    intro p k hk
    split at hk
    · cases hk
    · exact hk
  refine ⟨h.size24, h.current, fun p => ?_, fun p k hk => h.lt p k (hold hk),
    fun p q k hp hq => h.apart p q k (hold hp) (hold hq)⟩
  dsimp only [IPLookup.withShort, Cells.overwrite_cell]
  split
  · rfl
  · exact h.stored p

theorem Recorded.withBlock (h : Recorded t d) (hi : ¬ i < 25)
    (hcell : t.tbl24.cell (kv.1.toNat / 256) &&& overflowMask = 0) :
    Recorded (t.withBlock i kv) (d.place i kv) := by
  have hnext : t.currentTblLong / 256 = d.blocks := by
    rw [h.current, Nat.mul_div_cancel_left _ (by decide)]
  rw [h.stored] at hcell
  rw [Register.place, if_neg hi, if_pos hcell]
  -- the prefix with its new number, or another with its old one
  have hold : ∀ {p k}, Function.update d.entry (kv.1.toNat / 256) (.block d.blocks) p = .block k →
      p = kv.1.toNat / 256 ∧ k = d.blocks ∨ d.entry p = .block k := by
    intro p k hk
    by_cases hp : p = kv.1.toNat / 256
    · rw [hp, Function.update_self] at hk
      cases hk
      exact .inl ⟨hp, rfl⟩
    · rw [Function.update_of_ne hp] at hk
      exact .inr hk
  refine ⟨h.size24, ?_, fun p => ?_, fun p k hk => ?_, fun p q k hp hq => ?_⟩
  · dsimp only [IPLookup.withBlock]
    rw [h.current, Nat.mul_add]
  · dsimp only [IPLookup.withBlock, Cells.overwrite_cell]
    by_cases hp : p = kv.1.toNat / 256
    · rw [if_pos (by omega), hnext, hp, Function.update_self]
      rfl
    · rw [if_neg (by omega), Function.update_of_ne hp]
      exact h.stored p
  · rcases hold hk with ⟨-, rfl⟩ | hk
    · exact Nat.lt_succ_self _
    · exact Nat.lt_succ_of_lt (h.lt p k hk)
  · rcases hold hp with ⟨rfl, rfl⟩ | hp
    · rcases hold hq with ⟨rfl, -⟩ | hq
      · rfl
      · exact absurd (h.lt q _ hq) (Nat.lt_irrefl _)
    · rcases hold hq with ⟨-, rfl⟩ | hq
      · exact absurd (h.lt p _ hp) (Nat.lt_irrefl _)
      · exact h.apart p q k hp hq

theorem Recorded.withPatch (h : Recorded t d) (hi : ¬ i < 25)
    (hcell : t.tbl24.cell (kv.1.toNat / 256) &&& overflowMask ≠ 0) :
    Recorded (t.withPatch i kv) (d.place i kv) := by
  rw [h.stored] at hcell
  rw [Register.place, if_neg hi, if_neg hcell]
  exact ⟨h.size24, h.current, h.stored, h.lt, h.apart⟩

/-- Whatever is placed, if it can be. -/
theorem Recorded.place (h : Recorded t d) (hok : t.place i kv = .ok t') :
    Recorded t' (d.place i kv) := by
  have hsize : kv.1.toNat / 256 < t.tbl24.size := h.size24 ▸ div_lt_tbl24Size kv.1
  unfold IPLookup.place at hok
  split at hok
  · next hi =>
    rw [IPLookup.placeShort_eq] at hok
    split at hok
    · cases hok
      exact h.withShort hi
    · cases hok
  · next hi =>
    by_cases hcell : t.tbl24.cell (kv.1.toNat / 256) &&& overflowMask = 0
    · rw [IPLookup.placeLong_of_short hsize hcell] at hok
      split at hok
      · cases hok
        exact h.withBlock hi hcell
      · cases hok
    · rw [IPLookup.placeLong_of_long hsize hcell] at hok
      split at hok
      · cases hok
        exact h.withPatch hi hcell
      · cases hok

end Recorded

/-- The inserts of a round, on the maps. -/
theorem inserts_raw {es : List Insert} {t t' : IPLookup}
    (hok : es.foldlM (fun t e => IPLookup.insert t e.ip e.len e.gate) t = .ok t') :
    t' = { t with rawEntries := es.foldl insertRaw t.rawEntries } := by
  refine foldlM_invariant insertRaw
    (R := fun (t' : IPLookup) raw => t' = { t with rawEntries := raw })
    (fun e _ s raw s' hs hstep => ?_) rfl hok
  subst hs
  rw [IPLookup.insert, bind_eq_ok] at hstep
  obtain ⟨m, hm, hstep⟩ := hstep
  rw [index_eq_ok] at hm
  cases hstep
  rw [insertRaw, hm, Option.getD_some]

theorem length_insertRaw (es : List Insert) (raw : List (Std.HashMap UInt32 UInt16)) :
    (es.foldl insertRaw raw).length = raw.length := by
  induction es generalizing raw with
  | nil => rfl
  | cons e es ih => rw [List.foldl_cons, ih, insertRaw, List.length_set]

theorem Recorded.perform {t t' : IPLookup} {d : Register} {r : Round} (h : Recorded t d)
    (hlen : t.rawEntries.length = rawSize) (hok : r.perform t = .ok t') :
    t'.rawEntries = (enter (t.rawEntries, d) r).1 ∧ Recorded t' (enter (t.rawEntries, d) r).2 := by
  rw [Round.perform, bind_eq_ok] at hok
  obtain ⟨t₁, hins, hok⟩ := hok
  obtain rfl := inserts_raw hins
  rw [constructTable_eq _ ((length_insertRaw _ _).trans hlen)] at hok
  exact foldlM_invariant (fun d (o : Nat × UInt32 × UInt16) => Register.place d o.1 o.2)
    (R := fun (t' : IPLookup) d =>
      t'.rawEntries = r.inserts.foldl insertRaw t.rawEntries ∧ Recorded t' d)
    (fun o _ s d s' hs hstep => ⟨(place_rawEntries hstep).trans hs.1, hs.2.place hstep⟩)
    ⟨rfl, h.withRaw _⟩ hok

/-- The table that rounds leave keeps their register. -/
theorem recorded_build {rounds : List Round} {t : IPLookup} (hok : build rounds = .ok t) :
    Recorded t (register rounds) := by
  have hkeep := foldlM_invariant enter
    (R := fun (t : IPLookup) s => t.rawEntries = s.1 ∧ s.1.length = rawSize ∧ Recorded t s.2)
    (fun r _ t s t' hs hstep => by
      obtain ⟨raw, d⟩ := s
      obtain ⟨rfl, hlen, hrec⟩ := hs
      obtain ⟨hraw', hrec'⟩ := hrec.perform hlen hstep
      exact ⟨hraw', (length_insertRaw _ _).trans hlen, hrec'⟩)
    (a := (List.replicate rawSize ∅, Register.new)) ⟨rfl, List.length_replicate, .new⟩ hok
  exact hkeep.2.2

/-! ## Blocks of their own -/

/-- Different 24-bit prefixes whose entries have the overflow bit name different blocks. -/
def SharesNoBlock (t : IPLookup) : Prop :=
  ∀ p < 2 ^ 24, ∀ q < 2 ^ 24, p ≠ q → t.tbl24.cell p &&& overflowMask ≠ 0 →
    t.tbl24.cell q &&& overflowMask ≠ 0 → blockOf (t.tbl24.cell p) ≠ blockOf (t.tbl24.cell q)

/-- The number of no block that was handed out so far was cut when it was stored. -/
def NeverCut (t : IPLookup) : Prop := ∀ k, 256 * k < t.currentTblLong → blockOf (blockEntry k) = k

theorem Recorded.neverCut_iff {t : IPLookup} {d : Register} (h : Recorded t d) :
    NeverCut t ↔ d.blocks ≤ 32768 := by
  unfold NeverCut
  rw [h.current]
  constructor
  · intro hkept
    by_contra hmany
    have hfirst := hkept 32768 (by omega)
    rw [blockOf_blockEntry] at hfirst
    exact absurd hfirst (by decide)
  · intro hle k hk
    rw [blockOf_blockEntry, Nat.mod_eq_of_lt (by omega)]

/-- The block that an entry names in the table is the one it has in the register. -/
theorem Recorded.blockOf_cell {t : IPLookup} {d : Register} (h : Recorded t d)
    (hle : d.blocks ≤ 32768) (p : Nat) : blockOf (t.tbl24.cell p) = (d.entry p).number := by
  rw [h.stored]
  cases he : d.entry p with
  | gate g => rfl
  | block k =>
    have := h.lt p k he
    rw [Tbl24Entry.stored, blockOf_blockEntry, Nat.mod_eq_of_lt (by omega), Tbl24Entry.number]

theorem Recorded.sharesNoBlock_iff {t : IPLookup} {d : Register} (h : Recorded t d)
    (hle : d.blocks ≤ 32768) : SharesNoBlock t ↔ d.GatesApart := by
  constructor
  · intro hshare p hp q hq hne g hg hover hover'
    have hdiff := hshare p hp q hq hne (by rw [h.stored, hg]; exact hover) (by rwa [h.stored])
    rw [h.blockOf_cell hle, h.blockOf_cell hle, hg] at hdiff
    exact hdiff
  · intro hgates p hp q hq hne hover hover'
    rw [h.stored] at hover hover'
    rw [h.blockOf_cell hle, h.blockOf_cell hle]
    cases hep : d.entry p with
    | gate g =>
      rw [hep] at hover
      exact hgates p hp q hq hne g hep hover hover'
    | block k =>
      cases heq : d.entry q with
      | gate g =>
        rw [heq] at hover'
        have hdiff := hgates q hq p hp (Ne.symm hne) g heq hover' (by rwa [hep] at hover ⊢)
        rw [hep] at hdiff
        exact Ne.symm hdiff
      | block k' =>
        -- two blocks that were handed out
        rintro (rfl : k = k')
        exact hne (h.apart p q k hep heq)

/-- After any rounds that complete, different entries name different blocks and no number was
cut exactly when 15 bits were enough to number the blocks and no gate is taken for a block. -/
theorem blocks_kept_iff (rounds : List Round) (t : IPLookup) (hok : build rounds = .ok t) :
    SharesNoBlock t ∧ NeverCut t ↔
      (register rounds).blocks ≤ 32768 ∧ (register rounds).GatesApart := by
  have hrec := recorded_build hok
  rw [hrec.neverCut_iff, and_comm]
  exact and_congr_right fun hle => hrec.sharesNoBlock_iff hle

/-! ## Gates without the overflow bit -/

/-- The gates in the register do not have the overflow bit. -/
def Register.Plain (d : Register) : Prop := ∀ p g, d.entry p = .gate g → g &&& overflowMask = 0

theorem Register.Plain.gatesApart {d : Register} (h : d.Plain) : d.GatesApart :=
  fun p _ _ _ _ g hg hover _ => absurd (h p g hg) hover

theorem Register.Plain.place {d : Register} (h : d.Plain) {i : Nat} {kv : UInt32 × UInt16}
    (hgate : i < 25 → kv.2 &&& overflowMask = 0) : (d.place i kv).Plain := by
  intro p g hg
  unfold Register.place at hg
  split at hg
  · next hi =>
    dsimp only at hg
    split at hg
    · cases hg
      exact hgate hi
    · exact h p g hg
  · split at hg
    · dsimp only at hg
      by_cases hp : p = kv.1.toNat / 256
      · rw [hp, Function.update_self] at hg
        cases hg
      · rw [Function.update_of_ne hp] at hg
        exact h p g hg
    · exact h p g hg

theorem Register.Plain.foldl {ops : List (Nat × UInt32 × UInt16)} {d : Register} (h : d.Plain)
    (hgates : ∀ o ∈ ops, o.1 < 25 → o.2.2 &&& overflowMask = 0) :
    (ops.foldl (fun d o => d.place o.1 o.2) d).Plain := by
  induction ops generalizing d with
  | nil => exact h
  | cons o ops ih =>
    exact ih (h.place (hgates o List.mem_cons_self))
      (fun o ho => hgates o (List.mem_cons_of_mem _ ho))

/-- If no short prefix has a gate with the overflow bit, neither has the register, and the blocks
handed out are those that the inserts need. -/
theorem register_of_plain {rounds : List Round} {t : IPLookup}
    (hgates : ∀ e ∈ inserted rounds, e.len < 25 → e.gate &&& overflowMask = 0)
    (hok : build rounds = .ok t) :
    (register rounds).Plain ∧ (register rounds).blocks = blocksAllocated rounds := by
  have hkeep := foldlM_invariant enter
    (R := fun (t : IPLookup) s =>
      t.rawEntries = s.1 ∧ Recorded t s.2 ∧ (∃ h n, After t h n) ∧ s.2.Plain)
    (fun r hr t s t' hs hstep => by
      obtain ⟨raw, d⟩ := s
      obtain ⟨rfl, hrec, ⟨h, n, hafter⟩, hplain⟩ := hs
      obtain ⟨hraw', hrec'⟩ := hrec.perform hafter.holds.length hstep
      have hafter' := hafter.perform (fun e he => hgates e (List.mem_flatMap.mpr ⟨r, hr, he⟩)) hstep
      refine ⟨hraw', hrec', ⟨_, _, hafter'⟩, hplain.foldl fun o ho hshort => ?_⟩
      -- what is placed was inserted
      obtain ⟨e, he, hlen, -, hgate⟩ := insert_of_placement (hraw' ▸ hafter'.holds) ho
      exact hgate ▸ hafter'.gates e he (hlen ▸ hshort))
    (a := (List.replicate rawSize ∅, Register.new))
    ⟨rfl, .new, ⟨[], 0, After.new⟩, fun _ _ hg => by cases hg; rfl⟩ hok
  obtain ⟨block, hP⟩ := (After.build hgates hok).placed
  have hcurrent : t.currentTblLong = 256 * blocksAllocated rounds := hP.current
  have hcurrent' := (recorded_build hok).current
  exact ⟨hkeep.2.2.2, by omega⟩

/-- Two rounds that need two blocks. -/
theorem blocks_kept_twoRounds :
    ∃ t, build twoRounds = .ok t ∧ SharesNoBlock t ∧ NeverCut t := by
  have hblocks := twoRounds_blocks
  obtain ⟨t, hok, -⟩ := build_total twoRounds_legal (by omega)
  obtain ⟨hplain, hcount⟩ := register_of_plain
    (fun e he _ => and_overflowMask_eq_zero.mpr (twoRounds_legal e he).gate_lt) hok
  exact ⟨t, hok, (blocks_kept_iff twoRounds t hok).mpr ⟨by omega, hplain.gatesApart⟩⟩

/-! ## Too many blocks -/

/-- More prefixes with a block than 15 bits can number: two of them name the same. -/
theorem After.card_le {t : IPLookup} {h : List Insert} {n : Nat} (ht : After t h n)
    (hshare : SharesNoBlock t) : (longs h).card ≤ 2 ^ 15 := by
  obtain ⟨block, hP⟩ := ht.placed
  by_contra hlt
  obtain ⟨p, hp, q, hq, hne, heq⟩ := Finset.exists_ne_map_eq_of_card_lt_of_maps_to
    (t := Finset.range (2 ^ 15)) (s := longs h) (f := fun p => blockOf (t.tbl24.cell p))
    (by rw [Finset.card_range]; omega)
    (fun p _ => Finset.mem_coe.mpr (Finset.mem_range.mpr (blockOf_lt _)))
  exact hshare p (hP.long p hp).2.2 q (hP.long q hq).2.2 hne ((hP.mem_live_iff p).mp hp)
    ((hP.mem_live_iff q).mp hq) heq

/-- A single round hands out one block for each prefix that needs one. -/
theorem blocksAllocated_singleton (r : Round) :
    blocksAllocated [r] = (longs r.inserts).card := by
  simp [blocksAllocated, tally, freshBlocks, longs]

/-- A host route in each of the first `n` 24-bit prefixes. -/
def hostRoutes (n : Nat) : Round :=
  ⟨(List.range n).map fun i => ⟨.ofNat (256 * i), 32, 1⟩, .asListed⟩

theorem card_longs_hostRoutes {n : Nat} (hn : n ≤ 2 ^ 24) :
    (longs (hostRoutes n).inserts).card = n := by
  have hkeys : ∀ i ∈ List.range n, (UInt32.ofNat (256 * i)).toNat / 256 = i := by
    intro i hi
    have hlt := List.mem_range.mp hi
    rw [UInt32.toNat_ofNat_of_lt' (by simp only [UInt32.size]; omega)]
    omega
  have hlongs : longs (hostRoutes n).inserts = (List.range n).toFinset := by
    unfold longs hostRoutes
    rw [List.filter_eq_self.mpr (by simp), List.map_map]
    congr 1
    exact (List.map_congr_left hkeys).trans (List.map_id _)
  rw [hlongs, List.toFinset_card_of_nodup List.nodup_range, List.length_range]

theorem hostRoutes_legal (n : Nat) : ∀ e ∈ (hostRoutes n).inserts, e.Legal := by
  intro e he
  obtain ⟨i, -, rfl⟩ := List.mem_map.mp he
  exact ⟨Nat.le_refl 32, Nat.mod_one _, show (1 : UInt16).toNat < 0x8000 by decide⟩

/-- Host routes in 32769 prefixes: `construct_table` returns, but two prefixes share
a block. -/
theorem hostRoutes_share : ∃ t, build [hostRoutes 32769] = .ok t ∧ ¬ SharesNoBlock t := by
  have hcard := card_longs_hostRoutes (n := 32769) (by decide)
  have hinserted : inserted [hostRoutes 32769] = (hostRoutes 32769).inserts :=
    List.flatMap_singleton _ _
  obtain ⟨t, hok, hafter, -⟩ := build_total (hinserted ▸ hostRoutes_legal 32769)
    (by rw [blocksAllocated_singleton]; omega)
  refine ⟨t, hok, fun hshare => ?_⟩
  have hle := hafter.card_le hshare
  rw [hinserted] at hle
  omega

end NetBricks.Nf
