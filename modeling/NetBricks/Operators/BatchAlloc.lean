import NetBricks.Native.Mempool
import NetBricks.Operators.PacketBatch

/-!
# Allocating packets in bulk

The two callers of `mbuf_alloc_bulk` that choose the count themselves:
`allocate_batch_with_size` of `src/framework/src/operators/packet_batch.rs` asks for as many
mbufs as the batch has capacity for, and `new_packet_array` of
`src/framework/src/interface/packet.rs` for as many as it has just allocated slots. Both pass
exactly the slots they have, so there is none behind the mbufs, and an odd count makes
`mbuf_alloc_bulk` write outside of them (`mbufAllocBulk_fills_iff`).

Mirroring notes:

* A capacity or count is a `usize` that is cut to an `i32`; the count goes back to a `usize`
  with its sign extended. So from `2 ^ 31` on a batch asks for fewer mbufs than it has slots
  or is refused.
* The memory of `Vec::with_capacity(count)` is a parameter, of `count` slots.
* `packet_from_mbuf_no_increment` does not read the array.
-/

namespace NetBricks.Operators

open Lib
open Lib.Outcome
open Interface
open Native

/-- `cnt as usize`. -/
def asUsize (cnt : Int32) : Nat := (cnt.toInt % 2 ^ 64).toNat

section Callers

variable (pool : Mempool) (template : M128) (tmp : Ptr)

/-- `alloc_packet_batch`. -/
def PacketBatch.allocPacketBatch (p : PacketBatch) (len : BitVec 16) (cnt : Int32) (mem : Memory) :
    Outcome (Except ErrorKind Unit × PacketBatch × Memory) :=
  if p.array.capacity < asUsize cnt then .ok (.error .failedAllocation, p, mem)
  else do
    let (ret, slots, mem) ← mbufAllocBulk pool template tmp p.array.slots len cnt mem
    let array := p.array.write slots
    if ret = 0 then
      let array ← array.setLen (asUsize cnt)
      .ok (.ok (), { p with array := array }, mem)
    else .ok (.error .failedAllocation, { p with array := array }, mem)

/-- `allocate_batch_with_size`. -/
def PacketBatch.allocateBatchWithSize (p : PacketBatch) (len : BitVec 16) (mem : Memory) :
    Outcome (Except ErrorKind Unit × PacketBatch × Memory) :=
  p.allocPacketBatch pool template tmp len (Int32.ofNat p.array.capacity) mem

/-- `new_packet_array`, in an allocation of `slots`. -/
def newPacketArray (count : Nat) (slots : List Ptr) (mem : Memory) :
    Outcome (List Packet × Memory) := do
  let (allocRet, slots, mem) ← mbufAllocBulk pool template tmp slots 0 (Int32.ofNat count) mem
  let array := RawVec.empty slots
  let array ← (if allocRet = 0 then array.setLen count else .ok array)
  .ok (array.toList.map Packet.fromMbuf, mem)

end Callers

/-! ## Counts -/

theorem toInt_ofNat_eq (n : Nat) : (Int32.ofNat n).toInt =
    if n % 2 ^ 32 < 2 ^ 31 then (n : Int) % 2 ^ 32 else (n : Int) % 2 ^ 32 - 2 ^ 32 := by
  rw [Int32.toInt_ofNat', Int.bmod_def]
  simp only [Int32.size]
  split <;> split <;> omega

theorem unsigned_ofNat (n : Nat) : unsigned (Int32.ofNat n) = n % 2 ^ 32 := by
  rw [unsigned, toInt_ofNat_eq]
  split <;> omega

/-- The call stays inside an array of as many slots as the count was cut from. -/
theorem oversteps_ofNat (n : Nat) : Oversteps n (Int32.ofNat n) ↔
    n % 2 = 1 ∧ (n < 2 ^ 31 ∨ 2 ^ 31 - 1 ≤ n % 2 ^ 32) := by
  rw [Oversteps, toInt_ofNat_eq]
  split <;> omega

/-- The capacity is compared with the sign-extended count: a negative one is refused. -/
theorem lt_asUsize_ofNat {n : Nat} (h : n < 2 ^ 63) :
    n < asUsize (Int32.ofNat n) ↔ 2 ^ 31 ≤ n % 2 ^ 32 := by
  rw [asUsize, toInt_ofNat_eq]
  split <;> omega

/-! ## The callers -/

section Returns

variable {pool : Mempool} {template : M128} {tmp : Ptr} {len : BitVec 16} {mem : Memory}

theorem allocPacketBatch_returns_iff {p : PacketBatch} {cnt : Int32} :
    (∃ r, p.allocPacketBatch pool template tmp len cnt mem = .ok r) ↔
      p.array.capacity < asUsize cnt ∨
        ∃ r, mbufAllocBulk pool template tmp p.array.slots len cnt mem = .ok r := by
  unfold PacketBatch.allocPacketBatch
  by_cases hcap : p.array.capacity < asUsize cnt
  · rw [if_pos hcap]
    exact ⟨fun _ => .inl hcap, fun _ => ⟨_, rfl⟩⟩
  · rw [if_neg hcap]
    constructor
    · intro h
      obtain ⟨r, hr⟩ := h
      obtain ⟨a, ha, -⟩ := bind_eq_ok.mp hr
      exact .inr ⟨a, ha⟩
    · intro h
      obtain ⟨⟨ret, slots, mem'⟩, hcall⟩ := h.resolve_left hcap
      rw [hcall, bind_ok]
      dsimp only
      split
      · -- the capacity is at least what it was
        have hle : asUsize cnt ≤ (p.array.write slots).slots.length := by
          unfold RawVec.capacity at hcap
          unfold RawVec.write
          rw [List.length_append, List.length_drop]
          omega
        rw [RawVec.setLen, dif_pos hle, bind_ok]
        exact ⟨_, rfl⟩
      · exact ⟨_, rfl⟩

/-- A batch is allocated inside its array unless the capacity is odd, the `i32` holds it
and the pool has the mbufs. -/
theorem allocateBatchWithSize_returns_iff {p : PacketBatch} (h : p.array.capacity < 2 ^ 63) :
    (∃ r, p.allocateBatchWithSize pool template tmp len mem = .ok r) ↔
      ¬ (p.array.capacity % 2 = 1 ∧
        (p.array.capacity < 2 ^ 31 ∨ p.array.capacity % 2 ^ 32 = 2 ^ 31 - 1)) ∨
      ∃ code, pool.getBulk (p.array.capacity % 2 ^ 32) = .error code := by
  have hroom : unsigned (Int32.ofNat p.array.capacity) ≤ p.array.slots.length := by
    rw [unsigned_ofNat]
    exact Nat.mod_le _ _
  have hover := oversteps_ofNat p.array.capacity
  rw [PacketBatch.allocateBatchWithSize, allocPacketBatch_returns_iff, lt_asUsize_ofNat h,
    mbufAllocBulk_returns_iff hroom, unsigned_ofNat, ← or_assoc]
  refine or_congr ?_ Iff.rfl
  show _ ∨ ¬ Oversteps p.array.capacity _ ↔ _
  rw [hover]
  omega

theorem newPacketArray_returns_iff {count : Nat} {slots : List Ptr} (h : slots.length = count) :
    (∃ r, newPacketArray pool template tmp count slots mem = .ok r) ↔
      ¬ (count % 2 = 1 ∧ (count < 2 ^ 31 ∨ 2 ^ 31 - 1 ≤ count % 2 ^ 32)) ∨
      ∃ code, pool.getBulk (count % 2 ^ 32) = .error code := by
  have hroom : unsigned (Int32.ofNat count) ≤ slots.length := by
    rw [unsigned_ofNat, h]
    exact Nat.mod_le _ _
  have hcall : (∃ r, newPacketArray pool template tmp count slots mem = .ok r) ↔
      ∃ r, mbufAllocBulk pool template tmp slots 0 (Int32.ofNat count) mem = .ok r := by
    unfold newPacketArray
    constructor
    · intro hret
      obtain ⟨r, hr⟩ := hret
      obtain ⟨a, ha, -⟩ := bind_eq_ok.mp hr
      exact ⟨a, ha⟩
    · intro hret
      obtain ⟨⟨ret, slots', mem'⟩, hcall⟩ := hret
      have hle : count ≤ (RawVec.empty slots').slots.length :=
        Nat.le_of_eq (h.symm.trans (length_of_mbufAllocBulk hcall).symm)
      rw [hcall, bind_ok]
      dsimp only
      split
      · rw [RawVec.setLen, dif_pos hle, bind_ok]
        exact ⟨_, rfl⟩
      · exact ⟨_, rfl⟩
  rw [hcall, mbufAllocBulk_returns_iff hroom, unsigned_ofNat, h, oversteps_ofNat]

end Returns

/-! ## What a bulk allocation is for -/

/-- The call returns, which it does only if it stays in the array, and if it reports success
the array holds the mbufs that the pool gave out, with both lengths set. -/
def Fills (pool : Mempool) (template : M128) (tmp : Ptr) (array : List Ptr) (len : BitVec 16)
    (cnt : Int32) (mem : Memory) : Prop :=
  ∃ ret array' mem', mbufAllocBulk pool template tmp array len cnt mem = .ok (ret, array', mem') ∧
    (ret = 0 → array'.length = array.length ∧ pool.getBulk array.length = .ok array' ∧
      ∀ p ∈ array', (mem' p).pktLen.toNat = len.toNat ∧ (mem' p).dataLen = len)

theorem fills_iff {pool : Mempool} {template : M128} {tmp : Ptr} {array : List Ptr}
    {len : BitVec 16} {cnt : Int32} {mem : Memory} (hpos : 1 ≤ cnt.toInt)
    (hslots : (array.length : Int) = cnt.toInt) :
    Fills pool template tmp array len cnt mem ↔
      cnt.toInt % 2 = 0 ∨ ∃ code, pool.getBulk array.length = .error code := by
  have hcount : unsigned cnt = array.length := by
    have : (unsigned cnt : Int) = cnt.toInt := unsigned_of_nonneg (by omega)
    omega
  have hover : ¬ Oversteps array.length cnt ↔ cnt.toInt % 2 = 0 := by
    unfold Oversteps
    omega
  constructor
  · intro h
    obtain ⟨ret, array', mem', hcall, -⟩ := h
    have hret := (mbufAllocBulk_returns_iff (Nat.le_of_eq hcount)).mp ⟨_, hcall⟩
    rwa [hover, hcount] at hret
  · intro h
    cases hpool : pool.getBulk (unsigned cnt) with
    | error code =>
      exact ⟨code, array, mem, mbufAllocBulk_of_error hpool,
        fun hzero => absurd hzero (pool.fails _ _ hpool)⟩
    | ok mbufs =>
      have heven : cnt.toInt % 2 = 0 := by
        rcases h with h | ⟨code, hcode⟩
        · exact h
        · rw [← hcount, hpool] at hcode
          cases hcode
      obtain ⟨array', mem', hcall, hlen, htake, hfresh⟩ := mbufAllocBulk_of_ok template tmp
        len mem hpool (Nat.le_of_eq hcount) (hover.mpr heven)
      rw [List.take_of_length_le (by omega)] at htake
      refine ⟨0, array', mem', hcall, fun _ => ⟨hlen, ?_, ?_⟩⟩
      · rw [← hcount, hpool, htake]
      · intro p hp
        rw [hfresh (by omega) p (htake ▸ hp)]
        exact RteMbuf.fresh_lengths template len

/-- Bulk allocation into an array of exactly `cnt` slots stays inside it and fills it with
initialised mbufs exactly when the count is even or the pool refuses. So a batch of odd
capacity, and a packet array of an odd count, are allocated out of bounds as soon as the pool
has the mbufs. (From `2 ^ 31` on, the count is no longer the number of slots.) -/
theorem mbufAllocBulk_fills_iff (pool : Mempool) (template : M128) (tmp : Ptr) (len : BitVec 16)
    (mem : Memory) :
    (∀ (cnt : Int32) (array : List Ptr), 1 ≤ cnt.toInt → (array.length : Int) = cnt.toInt →
      (Fills pool template tmp array len cnt mem ↔
        cnt.toInt % 2 = 0 ∨ ∃ code, pool.getBulk array.length = .error code)) ∧
    (∀ p : PacketBatch, p.array.capacity < 2 ^ 63 →
      ((∃ r, p.allocateBatchWithSize pool template tmp len mem = .ok r) ↔
        ¬ (p.array.capacity % 2 = 1 ∧
          (p.array.capacity < 2 ^ 31 ∨ p.array.capacity % 2 ^ 32 = 2 ^ 31 - 1)) ∨
        ∃ code, pool.getBulk (p.array.capacity % 2 ^ 32) = .error code)) ∧
    ∀ (count : Nat) (slots : List Ptr), slots.length = count →
      ((∃ r, newPacketArray pool template tmp count slots mem = .ok r) ↔
        ¬ (count % 2 = 1 ∧ (count < 2 ^ 31 ∨ 2 ^ 31 - 1 ≤ count % 2 ^ 32)) ∨
        ∃ code, pool.getBulk (count % 2 ^ 32) = .error code) :=
  ⟨fun _ _ hpos hslots => fills_iff hpos hslots,
    fun _ hcap => allocateBatchWithSize_returns_iff hcap,
    fun _ _ hslots => newPacketArray_returns_iff hslots⟩

/-- A pool that never runs out: it gives out the mbufs 1, 2 and so on. -/
def endlessPool : Mempool where
  getBulk n := .ok (List.range' 1 n)
  fills n ps h := by
    cases h
    exact List.length_range'
  fails n code h := by cases h

/-- An mbuf of zeros. -/
def blankMbuf : RteMbuf := RteMbuf.fresh ⟨0, 0, 0, 0⟩ 0

/-- One mbuf into an array of one slot: the address of the local mbuf is written behind it.
So are those of a batch of capacity 1 and of a packet array of one. -/
theorem mbufAllocBulk_one_oversteps :
    mbufAllocBulk endlessPool ⟨0, 0, 0, 0⟩ 100 [0] 60 1 (fun _ => blankMbuf) = .panic .index ∧
    (PacketBatch.new [0]).allocateBatchWithSize endlessPool ⟨0, 0, 0, 0⟩ 100 60
      (fun _ => blankMbuf) = .panic .index ∧
    newPacketArray endlessPool ⟨0, 0, 0, 0⟩ 100 1 [0] (fun _ => blankMbuf) = .panic .index :=
  ⟨rfl, rfl, rfl⟩

/-- Two mbufs into an array of two slots. -/
theorem mbufAllocBulk_fills_two :
    Fills endlessPool ⟨0, 0, 0, 0⟩ 100 [0, 0] 60 2 (fun _ => blankMbuf) :=
  ((mbufAllocBulk_fills_iff endlessPool ⟨0, 0, 0, 0⟩ 100 60 (fun _ => blankMbuf)).1 2 [0, 0]
    (by decide) (by decide)).mpr (.inl (by decide))

end NetBricks.Operators
