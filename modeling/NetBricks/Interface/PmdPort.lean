import NetBricks.Common

/-!
# Ports and their queues

`PmdPort` of `interface/port/phy_port.rs`: how ports are created, from BESS and OVS
rings and from DPDK devices, and how `new_queue_pair` hands out their queues.

A DPDK port is configured with the smaller of the requested and the supported
numbers of queues, but has statistics for the requested number. `new_queue_pair`
turns away a queue that is greater than the number of queues, so that it lets the
one past the last through; whether that is then a queue or a panic depends on the
statistics (`queue_pair_iff`).

Mirroring notes:

* What the native functions return is a parameter, `PmdEnv`. `digit` is `\d` of the
  `regex` crate.
* Of an error only its kind is kept, not the one that `chain_err` wraps.
-/

namespace NetBricks.Interface

open Lib Lib.Outcome

/-- `PortStats`. -/
structure PortStats where
  stats : Nat
  deriving DecidableEq, Repr

/-- `PortStats::new`. -/
def PortStats.new : PortStats := ⟨0⟩

/-- `PmdPort`. -/
structure PmdPort where
  connected : Bool
  shouldClose : Bool
  port : Int32
  rxqs : Int32
  txqs : Int32
  statsRx : List PortStats
  statsTx : List PortStats
  deriving DecidableEq, Repr

/-- `PortQueue`. -/
structure PortQueue where
  port : PmdPort
  statsRx : PortStats
  statsTx : PortStats
  portId : Int32
  txq : Int32
  rxq : Int32
  deriving DecidableEq, Repr

/-- The arguments of `init_pmd_port`. -/
structure PmdInit where
  port : Int32
  rxqs : Int32
  txqs : Int32
  rxCores : List Int32
  txCores : List Int32
  nrxd : Int32
  ntxd : Int32
  loopback : Int32
  tso : Int32
  csumoffload : Int32

/-- What the native functions return. -/
structure PmdEnv where
  maxRxqs : Int32 → Int32
  maxTxqs : Int32 → Int32
  initPmdPort : PmdInit → Int32
  initBessEthRing : String → Int32 → Int32
  initOvsEthRing : Int32 → Int32 → Int32
  attachPmdDevice : String → Int32
  digit : Char → Bool

/-- `x as usize` for an `i32`. -/
def asUsize (x : Int32) : Nat := (x.toInt % 2 ^ 64).toNat

/-- `i32_from_bool`. -/
def i32FromBool (x : Bool) : Int32 := if x then 1 else 0

namespace PmdPort

/-- `PmdPort::new_queue_pair`. -/
def newQueuePair (port : PmdPort) (rxq txq : Int32) : Outcome (Except ErrorKind PortQueue) :=
  if rxq > port.rxqs ∨ rxq < 0 then .ok (.error (.badRxQueue port.port rxq))
  else if txq > port.txqs ∨ txq < 0 then .ok (.error (.badTxQueue port.port txq))
  else do
    let statsRx ← index port.statsRx (asUsize rxq)
    let statsTx ← index port.statsTx (asUsize txq)
    .ok (.ok { port := port, portId := port.port, txq := txq, rxq := rxq, statsRx := statsRx,
               statsTx := statsTx })

section Creation

variable (env : PmdEnv)

/-- `PmdPort::init_dpdk_port`. -/
def initDpdkPort (port rxqs txqs : Int32) (rxCores txCores : List Int32) (nrxd ntxd : Int32)
    (loopback tso csumoffload : Bool) : Except ErrorKind PmdPort :=
  let loopbackv := i32FromBool loopback
  let tsov := i32FromBool tso
  let csumoffloadv := i32FromBool csumoffload
  let actualRxqs := min (env.maxRxqs port) rxqs
  let actualTxqs := min (env.maxTxqs port) txqs
  if asUsize actualTxqs ≤ txCores.length ∧ asUsize actualRxqs ≤ rxCores.length then
    let ret := env.initPmdPort
      { port := port, rxqs := actualRxqs, txqs := actualTxqs, rxCores := rxCores,
        txCores := txCores, nrxd := nrxd, ntxd := ntxd, loopback := loopbackv, tso := tsov,
        csumoffload := csumoffloadv }
    if ret = 0 then
      .ok { connected := true, port := port, rxqs := actualRxqs, txqs := actualTxqs,
            shouldClose := true
            statsRx := (List.range rxqs.toInt.toNat).map fun _ => PortStats.new
            statsTx := (List.range txqs.toInt.toNat).map fun _ => PortStats.new }
    else .error (.failedToInitializePort port)
  else .error (.failedToInitializePort port)

/-- What `new_bess_port` and `new_ovs_port` make of the ring's port number. -/
def ringPort (port : Int32) : Except ErrorKind PmdPort :=
  if port ≥ 0 then
    .ok { connected := true, port := port, rxqs := 1, txqs := 1, shouldClose := false
          statsRx := [PortStats.new], statsTx := [PortStats.new] }
  else .error (.failedToInitializePort port)

/-- `PmdPort::new_bess_port`. -/
def newBessPort (name : String) (core : Int32) : Outcome (Except ErrorKind PmdPort) := do
  let ifname ← cString name
  .ok (ringPort (env.initBessEthRing ifname core))

/-- `PmdPort::new_ovs_port`. -/
def newOvsPort (name : String) (core : Int32) : Except ErrorKind PmdPort :=
  match parseI32 name with
  | some iface => ringPort (env.initOvsEthRing iface core)
  | none => .error (.badVdev name)

end Creation

end PmdPort

/-! ## Ports that are created -/

open PmdPort

/-- Created by `init_dpdk_port`, `new_bess_port` or `new_ovs_port`, in some environment
and from some arguments. A slice has at most `isize::MAX` elements. -/
inductive Created : PmdPort → Prop where
  | dpdk {env : PmdEnv} {port rxqs txqs : Int32} {rxCores txCores : List Int32}
      {nrxd ntxd : Int32} {loopback tso csumoffload : Bool} {p : PmdPort}
      (hrx : rxCores.length < 2 ^ 63) (htx : txCores.length < 2 ^ 63)
      (h : initDpdkPort env port rxqs txqs rxCores txCores nrxd ntxd loopback tso csumoffload =
        .ok p) : Created p
  | bess {env : PmdEnv} {name : String} {core : Int32} {p : PmdPort}
      (h : newBessPort env name core = .ok (.ok p)) : Created p
  | ovs {env : PmdEnv} {name : String} {core : Int32} {p : PmdPort}
      (h : newOvsPort env name core = .ok p) : Created p

/-- The numbers of queues are not negative, and there are statistics for each queue. -/
structure HasStats (p : PmdPort) : Prop where
  rxqs : 0 ≤ p.rxqs.toInt ∧ p.rxqs.toInt ≤ p.statsRx.length
  txqs : 0 ≤ p.txqs.toInt ∧ p.txqs.toInt ≤ p.statsTx.length

/-- A negative number of queues is a huge one as `usize`, and then there are not enough
cores for it. -/
theorem nonneg_of_asUsize {x : Int32} {n : Nat} (hn : n < 2 ^ 63) (h : asUsize x ≤ n) :
    0 ≤ x.toInt := by
  have := x.le_toInt
  unfold asUsize at h
  omega

theorem toInt_min_le (x y : Int32) : (min x y).toInt ≤ y.toInt := by
  show (if x ≤ y then x else y).toInt ≤ y.toInt
  split
  · next h => exact Int32.le_iff_toInt_le.mp h
  · exact Int.le_refl _

theorem hasStats_of_ringPort {port : Int32} {p : PmdPort} (h : ringPort port = .ok p) :
    HasStats p := by
  unfold ringPort at h
  split at h
  · have hone : 0 ≤ (1 : Int32).toInt ∧ (1 : Int32).toInt ≤ 1 := by decide
    cases h
    exact ⟨hone, hone⟩
  · cases h

theorem Created.hasStats {p : PmdPort} (hp : Created p) : HasStats p := by
  cases hp with
  | @dpdk env port rxqs txqs rxCores txCores _ _ _ _ _ _ hrx htx h =>
    unfold initDpdkPort at h
    dsimp only at h
    split at h
    · next hcores =>
      split at h
      · have hrxqs := nonneg_of_asUsize hrx hcores.2
        have htxqs := nonneg_of_asUsize htx hcores.1
        have hrxle := toInt_min_le (env.maxRxqs port) rxqs
        have htxle := toInt_min_le (env.maxTxqs port) txqs
        cases h
        refine ⟨⟨hrxqs, ?_⟩, htxqs, ?_⟩
        · dsimp only
          rw [List.length_map, List.length_range]
          omega
        · dsimp only
          rw [List.length_map, List.length_range]
          omega
      · cases h
    · cases h
  | @bess env name core _ h =>
    obtain ⟨ifname, -, h⟩ := bind_eq_ok.mp h
    exact hasStats_of_ringPort (Outcome.ok.inj h)
  | @ovs env name core _ h =>
    unfold newOvsPort at h
    split at h
    · exact hasStats_of_ringPort h
    · cases h

/-! ## Queue pairs -/

/-- The queues exist. -/
def InPort (p : PmdPort) (rxq txq : Int32) : Prop :=
  (0 ≤ rxq ∧ rxq < p.rxqs) ∧ 0 ≤ txq ∧ txq < p.txqs

instance (p : PmdPort) (rxq txq : Int32) : Decidable (InPort p rxq txq) :=
  inferInstanceAs (Decidable ((_ ∧ _) ∧ _ ∧ _))

/-- Queues that exist are handed out, others turned away. -/
def HandsOut (p : PmdPort) (rxq txq : Int32) : Prop :=
  if InPort p rxq txq then ∃ q, newQueuePair p rxq txq = .ok (.ok q)
  else newQueuePair p rxq txq = .ok (.error (.badRxQueue p.port rxq)) ∨
    newQueuePair p rxq txq = .ok (.error (.badTxQueue p.port txq))

/-- One of the queues is the one past the last, and the other is none that is turned
away. -/
def PastLast (p : PmdPort) (rxq txq : Int32) : Prop :=
  (0 ≤ rxq ∧ rxq ≤ p.rxqs) ∧ (0 ≤ txq ∧ txq ≤ p.txqs) ∧ (rxq = p.rxqs ∨ txq = p.txqs)

instance (p : PmdPort) (rxq txq : Int32) : Decidable (PastLast p rxq txq) :=
  inferInstanceAs (Decidable ((_ ∧ _) ∧ (_ ∧ _) ∧ (_ ∨ _)))

/-- What is not turned away is looked up in the statistics. -/
theorem newQueuePair_of_le {p : PmdPort} {rxq txq : Int32} (hrx : 0 ≤ rxq ∧ rxq ≤ p.rxqs)
    (htx : 0 ≤ txq ∧ txq ≤ p.txqs) : newQueuePair p rxq txq = (do
      let statsRx ← index p.statsRx (asUsize rxq)
      let statsTx ← index p.statsTx (asUsize txq)
      .ok (.ok ⟨p, statsRx, statsTx, p.port, txq, rxq⟩)) := by
  simp only [Int32.le_iff_toInt_le] at hrx htx
  unfold newQueuePair
  rw [if_neg (by simp only [gt_iff_lt, Int32.lt_iff_toInt_lt]; omega),
    if_neg (by simp only [gt_iff_lt, Int32.lt_iff_toInt_lt]; omega)]

/-- What is past the last queue is not turned away. -/
theorem not_handsOut_of_pastLast {p : PmdPort} {rxq txq : Int32} (h : PastLast p rxq txq) :
    ¬ HandsOut p rxq txq := by
  obtain ⟨hrx, htx, hlast⟩ := h
  have hout : ¬ InPort p rxq txq := by
    intro hin
    simp only [InPort, Int32.lt_iff_toInt_lt] at hin
    rcases hlast with rfl | rfl
    · omega
    · omega
  have hne : ∀ e, newQueuePair p rxq txq ≠ .ok (.error e) := by
    intro e herror
    rw [newQueuePair_of_le hrx htx, bind_eq_ok] at herror
    obtain ⟨statsRx, -, herror⟩ := herror
    rw [bind_eq_ok] at herror
    obtain ⟨statsTx, -, herror⟩ := herror
    cases herror
  unfold HandsOut
  rw [if_neg hout]
  exact not_or.mpr ⟨hne _, hne _⟩

theorem handsOut_of_inPort {p : PmdPort} {rxq txq : Int32} (hp : HasStats p)
    (h : InPort p rxq txq) : HandsOut p rxq txq := by
  have hstats := hp
  obtain ⟨⟨-, hrxqs⟩, -, htxqs⟩ := hp
  have hin := h
  simp only [InPort, Int32.lt_iff_toInt_lt, Int32.le_iff_toInt_le, Int32.toInt_zero] at hin
  unfold HandsOut
  rw [if_pos h, newQueuePair_of_le ⟨h.1.1, Int32.le_of_lt h.1.2⟩ ⟨h.2.1, Int32.le_of_lt h.2.2⟩]
  have hrxlt : asUsize rxq < p.statsRx.length := by
    unfold asUsize
    omega
  have htxlt : asUsize txq < p.statsTx.length := by
    unfold asUsize
    omega
  rw [index_of_some (List.getElem?_eq_getElem hrxlt), bind_ok,
    index_of_some (List.getElem?_eq_getElem htxlt), bind_ok]
  exact ⟨_, rfl⟩

/-- A queue pair is handed out exactly as it should be, unless one of the queues
asked for is the one past the last: that one is not turned away. -/
theorem queue_pair_iff (p : PmdPort) (hp : Created p) (rxq txq : Int32) :
    HandsOut p rxq txq ↔ ¬ PastLast p rxq txq := by
  constructor
  · intro hlaw hpast
    exact not_handsOut_of_pastLast hpast hlaw
  · intro hpast
    by_cases hin : InPort p rxq txq
    · exact handsOut_of_inPort hp.hasStats hin
    · unfold HandsOut
      rw [if_neg hin]
      unfold newQueuePair
      by_cases hrx : rxq > p.rxqs ∨ rxq < 0
      · exact Or.inl (if_pos hrx)
      · by_cases htx : txq > p.txqs ∨ txq < 0
        · exact Or.inr (by rw [if_neg hrx, if_pos htx])
        · -- neither is turned away and not both exist, so one is past the last
          exfalso
          simp only [InPort, PastLast, gt_iff_lt, Int32.lt_iff_toInt_lt, Int32.le_iff_toInt_le,
            ← Int32.toInt_inj] at hin hpast hrx htx
          omega

/-- A device with one queue each way, on which everything succeeds. -/
def oneQueueEnv : PmdEnv where
  maxRxqs _ := 1
  maxTxqs _ := 1
  initPmdPort _ := 0
  initBessEthRing _ _ := 0
  initOvsEthRing _ _ := 0
  attachPmdDevice _ := 0
  digit := Char.isDigit

/-- A BESS port. -/
def bessPort : PmdPort :=
  { connected := true, port := 0, rxqs := 1, txqs := 1, shouldClose := false
    statsRx := [PortStats.new], statsTx := [PortStats.new] }

theorem created_bessPort : Created bessPort :=
  @Created.bess oneQueueEnv "vport0" 0 bessPort (by decide)

theorem queue_pair_iff_bess :
    Created bessPort ∧ ¬ PastLast bessPort 0 0 ∧ HandsOut bessPort 0 0 := by
  have hpast : ¬ PastLast bessPort 0 0 := by decide
  exact ⟨created_bessPort, hpast, (queue_pair_iff bessPort created_bessPort 0 0).mpr hpast⟩

/-- A DPDK port for which two queues each way were requested where one is supported. -/
def cappedPort : PmdPort :=
  { connected := true, port := 0, rxqs := 1, txqs := 1, shouldClose := true
    statsRx := [PortStats.new, PortStats.new], statsTx := [PortStats.new, PortStats.new] }

/-- Queue 1 of a port with the single queue 0: a panic on the statistics where there
are none for it, and a queue where there are. -/
theorem queue_one_not_turned_away :
    Created bessPort ∧ newQueuePair bessPort 1 0 = .panic .index ∧ ¬ HandsOut bessPort 1 0 ∧
    initDpdkPort oneQueueEnv 0 2 2 [0, 1] [0, 1] 128 128 false false false = .ok cappedPort ∧
    newQueuePair cappedPort 1 1 =
      .ok (.ok ⟨cappedPort, PortStats.new, PortStats.new, 0, 1, 1⟩) ∧ ¬ HandsOut cappedPort 1 1 :=
  ⟨created_bessPort, by decide, not_handsOut_of_pastLast (by decide), by decide, by decide,
    not_handsOut_of_pastLast (by decide)⟩

end NetBricks.Interface
