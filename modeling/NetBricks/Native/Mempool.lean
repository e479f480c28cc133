import Mathlib.Logic.Function.Basic
import NetBricks.Interface.Packet

/-!
# `mbuf_alloc_bulk`

The bulk allocation of `src/native/mempool.c`: `cnt` mbufs are taken from the pool into the
array of the caller, and the loop initialises them two at a time. For an odd count the
second mbuf of the last round is a local one, whose address is put behind the others for
the time of the loop: into the slot `array[cnt]`.

Every access to the array is checked here against the slots the caller has (`slot`,
`setSlot`), so a call that returns has stayed inside them. For a count that is not negative
this is the case unless the count is odd and there is no slot behind the `cnt` ones
(`mbufAllocBulk_returns_iff`); then the slots hold the mbufs of the pool, each initialised
(`mbufAllocBulk_of_ok`).

Mirroring notes:

* What the pool answers is a parameter (`Mempool`). It fills as many slots as it was asked
  for or fails with a code other than 0.
* A `__m128i` is four lanes of 32 bits. The 16 bytes from `buf_len` on, which are copied
  from the template, stay one vector.
* `i += 2` beyond `INT_MAX` has no meaning in the source; the model stops there.
* The loop makes no more rounds than `cnt`, which is the fuel it is given.
-/

namespace NetBricks.Native

open Lib
open Lib.Outcome
open Interface (Ptr)

/-- `__m128i`, the lowest lane first. -/
structure M128 where
  e0 : BitVec 32
  e1 : BitVec 32
  e2 : BitVec 32
  e3 : BitVec 32
  deriving DecidableEq, Repr

/-- The fields of `struct rte_mbuf` that the stores write. -/
structure RteMbuf where
  bufLen : M128
  packetType : BitVec 32
  pktLen : BitVec 32
  dataLen : BitVec 16
  vlanTci : BitVec 16
  rss : BitVec 32
  deriving DecidableEq, Repr

/-- The mbufs by their addresses. -/
abbrev Memory := Ptr → RteMbuf

/-- `rte_mempool_get_bulk` on the pool of this core: the mbufs it puts into the array, or
its return code. -/
structure Mempool where
  getBulk : Nat → Except Int32 (List Ptr)
  fills : ∀ n ps, getBulk n = .ok ps → ps.length = n
  fails : ∀ n code, getBulk n = .error code → code ≠ 0

/-- `_mm_store_si128((__m128i *)&m->buf_len, v)`. -/
def RteMbuf.storeBufLen (m : RteMbuf) (v : M128) : RteMbuf := { m with bufLen := v }

/-- `_mm_store_si128((__m128i *)&m->packet_type, v)`. -/
def RteMbuf.storePacketType (m : RteMbuf) (v : M128) : RteMbuf :=
  { m with
    packetType := v.e0
    pktLen := v.e1
    dataLen := v.e2.setWidth 16
    vlanTci := (v.e2 >>> 16).setWidth 16
    rss := v.e3 }

/-- `_mm_setr_epi32(0, len, len, 0)`. -/
def rxdescFields (len : BitVec 16) : M128 :=
  { e0 := 0, e1 := len.setWidth 32, e2 := len.setWidth 32, e3 := 0 }

/-- The two stores to one mbuf. -/
def initMbuf (template fields : M128) (mbuf : Ptr) (mem : Memory) : Memory :=
  Function.update mem mbuf (((mem mbuf).storeBufLen template).storePacketType fields)

/-- `array[i]`. -/
def slot (array : List Ptr) (i : Int) : Outcome Ptr :=
  if 0 ≤ i then index array i.toNat else .panic .index

/-- `array[i] = mbuf`. -/
def setSlot (array : List Ptr) (i : Int) (mbuf : Ptr) : Outcome (List Ptr) :=
  if 0 ≤ i ∧ i < array.length then .ok (array.set i.toNat mbuf) else .panic .index

/-- What `rte_mempool_get_bulk` writes, from the first slot on. -/
def setFront (array mbufs : List Ptr) : Outcome (List Ptr) :=
  if mbufs.length ≤ array.length then .ok (mbufs ++ array.drop mbufs.length) else .panic .index

/-- A value of type `int`. -/
def cInt (i : Int) : Outcome Int := if -2 ^ 31 ≤ i ∧ i < 2 ^ 31 then .ok i else .panic .overflow

/-- The loop over the mbufs, two at a time. -/
def initLoop (array : List Ptr) (template fields : M128) (cnt : Int) :
    Nat → Int → Memory → Outcome Memory
  | 0, _, _ => .timeout
  | fuel + 1, i, mem =>
    if i < cnt then do
      let mbuf0 ← slot array i
      let mbuf1 ← slot array (i + 1)
      let mem := initMbuf template fields mbuf0 mem
      let mem := initMbuf template fields mbuf1 mem
      let i ← cInt (i + 2)
      initLoop array template fields cnt fuel i mem
    else .ok mem

/-- `cnt` as the `unsigned` argument of `rte_mempool_get_bulk`. -/
def unsigned (cnt : Int32) : Nat := (cnt.toInt % 2 ^ 32).toNat

/-- The null pointer. -/
def nullPtr : Ptr := 0

/-- `if (cnt & 1) array[cnt] = mbuf`. -/
def setBehind (array : List Ptr) (cnt : Int32) (mbuf : Ptr) : Outcome (List Ptr) :=
  if cnt.toInt % 2 = 1 then setSlot array cnt.toInt mbuf else .ok array

section Call

variable (pool : Mempool) (template : M128) (tmp : Ptr)

/-- `mbuf_alloc_bulk`, with the local mbuf at `tmp`. -/
def mbufAllocBulk (array : List Ptr) (len : BitVec 16) (cnt : Int32) (mem : Memory) :
    Outcome (Int32 × List Ptr × Memory) :=
  match pool.getBulk (unsigned cnt) with
  | .error ret => .ok (ret, array, mem)
  | .ok mbufs => do
    let array ← setFront array mbufs
    let array ← setBehind array cnt tmp
    let mem ← initLoop array template (rxdescFields len) cnt.toInt (cnt.toInt.toNat + 1) 0 mem
    let array ← setBehind array cnt nullPtr
    .ok (0, array, mem)

end Call

/-! ## Initialised mbufs -/

/-- An mbuf as the two stores leave it. -/
def RteMbuf.fresh (template : M128) (len : BitVec 16) : RteMbuf :=
  { bufLen := template, packetType := 0, pktLen := len.setWidth 32, dataLen := len, vlanTci := 0,
    rss := 0 }

/-- The stores leave nothing of what was there. -/
theorem initMbuf_eq (template : M128) (len : BitVec 16) (mbuf : Ptr) (mem : Memory) :
    initMbuf template (rxdescFields len) mbuf mem =
      Function.update mem mbuf (RteMbuf.fresh template len) := by
  have hlen : (len.setWidth 32).setWidth 16 = len := by
    apply BitVec.eq_of_toNat_eq
    have := len.isLt
    simp only [BitVec.toNat_setWidth]
    omega
  have hvlan : (len.setWidth 32 >>> 16).setWidth 16 = 0 := by
    apply BitVec.eq_of_toNat_eq
    have := len.isLt
    simp only [BitVec.toNat_setWidth, BitVec.toNat_ushiftRight, Nat.shiftRight_eq_div_pow]
    show _ = 0
    omega
  unfold initMbuf RteMbuf.storeBufLen RteMbuf.storePacketType rxdescFields RteMbuf.fresh
  rw [hlen, hvlan]

/-- Both lengths of an initialised mbuf are the one asked for. -/
theorem RteMbuf.fresh_lengths (template : M128) (len : BitVec 16) :
    (fresh template len).pktLen.toNat = len.toNat ∧ (fresh template len).dataLen = len :=
  ⟨BitVec.toNat_setWidth_of_le (by decide), rfl⟩

/-! ## The loop -/

theorem slot_natCast (array : List Ptr) (i : Nat) : slot array (i : Int) = index array i := by
  rw [slot, if_pos (Int.natCast_nonneg i), Int.toNat_natCast]

theorem setSlot_of_lt {array : List Ptr} {i : Nat} (h : i < array.length) (mbuf : Ptr) :
    setSlot array (i : Int) mbuf = .ok (array.set i mbuf) := by
  rw [setSlot, if_pos ⟨Int.natCast_nonneg i, by omega⟩, Int.toNat_natCast]

/-- The mbufs in the first `n` slots are initialised. -/
def Inits (template : M128) (len : BitVec 16) (array : List Ptr) (n : Nat) (mem : Memory) : Prop :=
  ∀ k < n, ∀ p, array[k]? = some p → mem p = RteMbuf.fresh template len

section Loop

variable {template : M128} {len : BitVec 16} {array : List Ptr}

/-- One round initialises the next two slots. -/
theorem Inits.round {n : Nat} {mem : Memory} {p q : Ptr} (h : Inits template len array n mem)
    (hp : array[n]? = some p) (hq : array[n + 1]? = some q) :
    Inits template len array (n + 2)
      (initMbuf template (rxdescFields len) q (initMbuf template (rxdescFields len) p mem)) := by
  intro k hk r hr
  rw [initMbuf_eq, initMbuf_eq, Function.update_apply, Function.update_apply]
  split
  · rfl
  · next hrq =>
    split
    · rfl
    · next hrp =>
      -- neither of the two: an earlier slot
      refine h k ?_ r hr
      have hn : k ≠ n := fun he => hrp (Option.some.inj (hr.symm.trans (he ▸ hp)))
      have hn' : k ≠ n + 1 := fun he => hrq (Option.some.inj (hr.symm.trans (he ▸ hq)))
      omega

/-- With a slot for both mbufs of every round, the loop initialises all of them. -/
theorem initLoop_inits (template : M128) (len : BitVec 16) {cnt : Nat}
    (hroom : cnt + cnt % 2 ≤ array.length) (hint : cnt + cnt % 2 < 2 ^ 31) :
    ∀ (fuel n : Nat) (mem : Memory), n % 2 = 0 →
    n ≤ cnt + cnt % 2 → cnt + 2 ≤ n + 2 * fuel → Inits template len array n mem →
    ∃ mem', initLoop array template (rxdescFields len) cnt fuel n mem = .ok mem' ∧
      Inits template len array cnt mem' := by
  intro fuel
  induction fuel with
  | zero =>
    intro n mem heven hle hfuel h
    omega
  | succ fuel ih =>
    intro n mem heven hle hfuel h
    unfold initLoop
    by_cases hn : n < cnt
    · obtain ⟨p, hp⟩ : ∃ p, array[n]? = some p := ⟨_, List.getElem?_eq_getElem (by omega)⟩
      obtain ⟨q, hq⟩ : ∃ q, array[n + 1]? = some q := ⟨_, List.getElem?_eq_getElem (by omega)⟩
      obtain ⟨mem', hloop, hinits⟩ :=
        ih (n + 2) _ (by omega) (by omega) (by omega) (h.round hp hq)
      refine ⟨mem', ?_, hinits⟩
      have hone : (n : Int) + 1 = ((n + 1 : Nat) : Int) := by omega
      have htwo : (n : Int) + 2 = ((n + 2 : Nat) : Int) := by omega
      rw [if_pos (by omega), slot_natCast, index_of_some hp, bind_ok, hone, slot_natCast,
        index_of_some hq, bind_ok, htwo, cInt, if_pos (by omega), bind_ok]
      exact hloop
    · refine ⟨mem, if_neg (by omega), fun k hk p hp => h k (by omega) p hp⟩

/-- The counter of a loop that returned got to the count. -/
theorem le_of_initLoop {fields : M128} {cnt : Int} : ∀ (fuel : Nat) {i : Int} {mem mem' : Memory},
    i % 2 = 0 → i < 2 ^ 31 → initLoop array template fields cnt fuel i mem = .ok mem' →
    ∃ j : Int, j % 2 = 0 ∧ j < 2 ^ 31 ∧ cnt ≤ j := by
  intro fuel
  induction fuel with
  | zero =>
    intro i mem mem' _ _ h
    cases h
  | succ fuel ih =>
    intro i mem mem' heven hlt h
    unfold initLoop at h
    split at h
    · obtain ⟨mbuf0, -, h⟩ := bind_eq_ok.mp h
      obtain ⟨mbuf1, -, h⟩ := bind_eq_ok.mp h
      obtain ⟨next, hnext, h⟩ := bind_eq_ok.mp h
      unfold cInt at hnext
      split at hnext
      · next hint =>
        cases hnext
        exact ih (by omega) hint.2 h
      · cases hnext
    · next hcnt => exact ⟨i, heven, hlt, by omega⟩

end Loop

/-! ## A call -/

/-- The call leaves the array once it has its mbufs, or its counter leaves the `int`. -/
def Oversteps (slots : Nat) (cnt : Int32) : Prop :=
  cnt.toInt % 2 = 1 ∧ (cnt.toInt < 0 ∨ (slots : Int) ≤ cnt.toInt ∨ cnt.toInt = 2 ^ 31 - 1)

instance (slots : Nat) (cnt : Int32) : Decidable (Oversteps slots cnt) :=
  inferInstanceAs (Decidable (_ ∧ _))

section Calls

variable {pool : Mempool} {template : M128} {tmp : Ptr} {array : List Ptr} {len : BitVec 16}
  {cnt : Int32} {mem : Memory}

theorem unsigned_of_nonneg {cnt : Int32} (h : 0 ≤ cnt.toInt) :
    ((unsigned cnt : Nat) : Int) = cnt.toInt := by
  have := cnt.toInt_lt
  unfold unsigned
  omega

theorem mbufAllocBulk_of_error {code : Int32} (h : pool.getBulk (unsigned cnt) = .error code) :
    mbufAllocBulk pool template tmp array len cnt mem = .ok (code, array, mem) := by
  unfold mbufAllocBulk
  rw [h]

theorem setFront_of_le {mbufs : List Ptr} (h : mbufs.length ≤ array.length) :
    setFront array mbufs = .ok (mbufs ++ array.drop mbufs.length) := if_pos h

theorem length_of_setFront {mbufs array' : List Ptr} (h : setFront array mbufs = .ok array') :
    array'.length = array.length := by
  unfold setFront at h
  split at h
  · next hle =>
    cases h
    rw [List.length_append, List.length_drop]
    omega
  · cases h

theorem length_of_setBehind {mbuf : Ptr} {array' : List Ptr}
    (h : setBehind array cnt mbuf = .ok array') : array'.length = array.length := by
  unfold setBehind setSlot at h
  split at h
  · split at h
    · cases h
      exact List.length_set
    · cases h
  · cases h
    rfl

theorem setBehind_of_even (h : cnt.toInt % 2 ≠ 1) (mbuf : Ptr) :
    setBehind array cnt mbuf = .ok array := if_neg h

theorem setBehind_of_odd {c : Nat} (h : cnt.toInt % 2 = 1) (hcnt : (c : Int) = cnt.toInt)
    (hlt : c < array.length) (mbuf : Ptr) : setBehind array cnt mbuf = .ok (array.set c mbuf) := by
  rw [setBehind, if_pos h, ← hcnt, setSlot_of_lt hlt]

/-- The loop of a call, from the first slot on. -/
theorem initLoop_of_take (template : M128) (len : BitVec 16) (mem : Memory) {c : Nat}
    {mbufs : List Ptr} (htake : array.take c = mbufs)
    (hroom : c + c % 2 ≤ array.length) (hint : c + c % 2 < 2 ^ 31) :
    ∃ mem', initLoop array template (rxdescFields len) c (c + 1) 0 mem = .ok mem' ∧
      ∀ p ∈ mbufs, mem' p = RteMbuf.fresh template len := by
  obtain ⟨mem', hloop, hinits⟩ := initLoop_inits template len hroom hint (c + 1) 0 mem rfl
    (Nat.zero_le _) (by omega) (fun k hk => absurd hk (Nat.not_lt_zero k))
  refine ⟨mem', hloop, fun p hp => ?_⟩
  obtain ⟨k, hk⟩ := List.getElem?_of_mem (htake ▸ hp)
  rw [List.getElem?_take, Option.ite_none_right_eq_some] at hk
  exact hinits k hk.1 p hk.2

/-- With a slot for every access the call returns, and its mbufs are initialised. -/
theorem mbufAllocBulk_of_ok (template : M128) (tmp : Ptr) (len : BitVec 16) (mem : Memory)
    {mbufs : List Ptr} (hpool : pool.getBulk (unsigned cnt) = .ok mbufs)
    (hroom : unsigned cnt ≤ array.length) (hno : ¬ Oversteps array.length cnt) :
    ∃ array' mem', mbufAllocBulk pool template tmp array len cnt mem = .ok (0, array', mem') ∧
      array'.length = array.length ∧ array'.take (unsigned cnt) = mbufs ∧
      (0 ≤ cnt.toInt → ∀ p ∈ mbufs, mem' p = RteMbuf.fresh template len) := by
  have hfills := pool.fills _ _ hpool
  have hmax := cnt.toInt_lt
  have hfront : setFront array mbufs = .ok (mbufs ++ array.drop mbufs.length) :=
    setFront_of_le (by omega)
  have hlength := length_of_setFront hfront
  have htake : (mbufs ++ array.drop mbufs.length).take (unsigned cnt) = mbufs := by
    rw [← hfills]
    exact List.take_left
  unfold mbufAllocBulk
  rw [hpool]
  dsimp only
  rw [hfront, bind_ok]
  generalize mbufs ++ array.drop mbufs.length = array₁ at hlength htake ⊢
  unfold Oversteps at hno
  by_cases hodd : cnt.toInt % 2 = 1
  · -- the slot behind the mbufs is there
    have hcnt : (unsigned cnt : Int) = cnt.toInt := unsigned_of_nonneg (by omega)
    generalize unsigned cnt = c at hcnt htake hroom hfills
    rw [setBehind_of_odd hodd hcnt (by omega), bind_ok, ← hcnt, Int.toNat_natCast]
    have htake₁ : (array₁.set c tmp).take c = mbufs := by
      rw [List.take_set_of_le (Nat.le_refl c), htake]
    obtain ⟨mem', hloop, hfresh⟩ := initLoop_of_take template len mem htake₁
      (by rw [List.length_set]; omega) (by omega)
    rw [hloop, bind_ok, setBehind_of_odd hodd hcnt (by rw [List.length_set]; omega), bind_ok]
    refine ⟨_, mem', rfl, ?_, ?_, fun _ => hfresh⟩
    · rw [List.length_set, List.length_set, hlength]
    · rw [List.take_set_of_le (Nat.le_refl c), htake₁]
  · rw [setBehind_of_even hodd, bind_ok]
    by_cases hneg : cnt.toInt < 0
    · -- no round is made
      refine ⟨array₁, mem, ?_, hlength, htake, fun h => absurd h (by omega)⟩
      rw [initLoop, if_neg (by omega), bind_ok, setBehind_of_even hodd, bind_ok]
    · have hcnt : (unsigned cnt : Int) = cnt.toInt := unsigned_of_nonneg (by omega)
      generalize unsigned cnt = c at hcnt htake hroom hfills
      rw [← hcnt, Int.toNat_natCast]
      obtain ⟨mem', hloop, hfresh⟩ := initLoop_of_take template len mem htake (by omega)
        (by omega)
      rw [hloop, bind_ok, setBehind_of_even hodd, bind_ok]
      exact ⟨array₁, mem', rfl, hlength, htake, fun _ => hfresh⟩

/-- A call that oversteps does not return once it has its mbufs. -/
theorem mbufAllocBulk_oversteps {mbufs : List Ptr}
    (hpool : pool.getBulk (unsigned cnt) = .ok mbufs) (h : Oversteps array.length cnt)
    (r : Int32 × List Ptr × Memory) :
    mbufAllocBulk pool template tmp array len cnt mem ≠ .ok r := by
  intro hcall
  obtain ⟨hodd, hwhere⟩ := h
  unfold mbufAllocBulk at hcall
  rw [hpool] at hcall
  obtain ⟨array₁, h₁, hcall⟩ := bind_eq_ok.mp hcall
  obtain ⟨array₂, h₂, hcall⟩ := bind_eq_ok.mp hcall
  obtain ⟨mem', hloop, -⟩ := bind_eq_ok.mp hcall
  rw [setBehind, if_pos hodd, setSlot] at h₂
  rw [length_of_setFront h₁] at h₂
  split at h₂
  · next hin =>
    -- so the counter would have to get beyond the largest `int`, by steps of two
    obtain ⟨j, heven, hlt, hle⟩ := le_of_initLoop _ (by decide) (by decide) hloop
    omega
  · cases h₂

/-- No call changes how many slots there are. -/
theorem length_of_mbufAllocBulk {ret : Int32} {array' : List Ptr} {mem' : Memory}
    (h : mbufAllocBulk pool template tmp array len cnt mem = .ok (ret, array', mem')) :
    array'.length = array.length := by
  unfold mbufAllocBulk at h
  split at h
  · cases h
    rfl
  · obtain ⟨array₁, h₁, h⟩ := bind_eq_ok.mp h
    obtain ⟨array₂, h₂, h⟩ := bind_eq_ok.mp h
    obtain ⟨mem₁, -, h⟩ := bind_eq_ok.mp h
    obtain ⟨array₃, h₃, h⟩ := bind_eq_ok.mp h
    cases h
    rw [length_of_setBehind h₃, length_of_setBehind h₂, length_of_setFront h₁]

/-- A call for which the pool has slots to fill returns unless it gets its mbufs and
oversteps. -/
theorem mbufAllocBulk_returns_iff (hroom : unsigned cnt ≤ array.length) :
    (∃ r, mbufAllocBulk pool template tmp array len cnt mem = .ok r) ↔
      ¬ Oversteps array.length cnt ∨ ∃ code, pool.getBulk (unsigned cnt) = .error code := by
  cases hpool : pool.getBulk (unsigned cnt) with
  | error code => exact ⟨fun _ => .inr ⟨code, rfl⟩, fun _ => ⟨_, mbufAllocBulk_of_error hpool⟩⟩
  | ok mbufs =>
    by_cases hover : Oversteps array.length cnt
    · constructor
      · intro hret
        obtain ⟨r, hr⟩ := hret
        exact absurd hr (mbufAllocBulk_oversteps hpool hover r)
      · intro hor
        rcases hor with hno | ⟨code, hcode⟩
        · exact absurd hover hno
        · cases hcode
    · obtain ⟨array', mem', hcall, -⟩ := mbufAllocBulk_of_ok template tmp len mem hpool hroom
        hover
      exact ⟨fun _ => .inl hover, fun _ => ⟨_, hcall⟩⟩

end Calls

end NetBricks.Native
