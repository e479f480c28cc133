import NetBricks.Lib.Cells
import NetBricks.Lib.Machine
import NetBricks.Lib.MutualMap
import NetBricks.Utils.FlowStamp

/-!
# Network address translation

The closure of `nat` in `test/nat/src/nf.rs`, which is run on the payload of every
packet's MAC header. Forward and reverse translations share one hash map; ports are
handed out from a counter.

* A key the sender of a packet chose may be the reverse key of a port that is
  not assigned yet. When the port is, its reverse entry overwrites that key, and a
  translation has lost its way back. The table stays mutual exactly as long as this
  does not happen (`nat_mutual_iff`).
* `flow_vec` has one entry per port from `MIN_PORT` on, but is indexed by the port
  itself, so that the 63488th port is out of its range (`nat_ports`).

Mirroring notes:

* `BigEndian` and `ipcsum`, which reading and stamping a flow call, are parameters.
* The closure returns nothing; `Rewritten` is what it leaves in the packet, with the
  port it assigned.
-/

namespace NetBricks.Nf

open Lib Lib.Outcome Utils

/-- `FlowUsed`. -/
structure FlowUsed where
  flow : Flow
  time : UInt64
  used : Bool
  deriving Inhabited

/-- `MIN_PORT`. -/
def minPort : UInt16 := 1024

/-- `MAX_PORT`. -/
def maxPort : UInt16 := 65535

/-- What the closure of `nat` owns. -/
structure NatState where
  portHash : FlowTable Flow
  flowVec : Cells FlowUsed
  nextPort : UInt16

/-- The closure's variables before the first packet. -/
def NatState.new : NatState where
  portHash := ∅
  flowVec := .replicate (65535 - minPort.toNat) default
  nextPort := 1024

/-- What the closure leaves in a packet, and the port it assigned for it. -/
structure Rewritten where
  payload : List UInt8
  assigned : Option UInt16

/-- The flow under which a new flow leaves. -/
def outgoing (ip : UInt32) (port : UInt16) (flow : Flow) : Flow :=
  { flow with srcIp := ip, srcPort := port }

section Closure

variable [BigEndian] (ipcsum : List UInt8 → UInt16) (ip : UInt32)

/-- The closure given to `transform`. -/
def natClosure (s : NatState) (payload : List UInt8) : Outcome (Rewritten × NatState) := do
  match ← ipv4ExtractFlow payload with
  | none => .ok (⟨payload, none⟩, s)
  | some flow =>
    match s.portHash[flow]? with
    | some out =>
      let payload ← out.ipv4StampFlow ipcsum payload
      .ok (⟨payload, none⟩, s)
    | none =>
      if s.nextPort < maxPort then
        let assignedPort := s.nextPort
        let slot ← s.flowVec.get assignedPort.toNat
        let flowVec ← s.flowVec.set assignedPort.toNat { slot with flow := flow }
        let slot ← flowVec.get assignedPort.toNat
        let flowVec ← flowVec.set assignedPort.toNat { slot with used := true }
        let outgoingFlow := outgoing ip assignedPort flow
        let revFlow := outgoingFlow.reverseFlow
        let portHash := s.portHash.insert flow outgoingFlow
        let portHash := portHash.insert revFlow flow.reverseFlow
        let payload ← outgoingFlow.ipv4StampFlow ipcsum payload
        .ok (⟨payload, some assignedPort⟩, ⟨portHash, flowVec, s.nextPort + 1⟩)
      else .ok (⟨payload, none⟩, s)

end Closure

/-! ## One packet -/

/-- The state after a flow got the next port. -/
def NatState.assign (s : NatState) (ip : UInt32) (flow : Flow) : NatState where
  portHash := (s.portHash.insert flow (outgoing ip s.nextPort flow)).insert
    (outgoing ip s.nextPort flow).reverseFlow flow.reverseFlow
  flowVec := s.flowVec.overwrite s.nextPort.toNat 1 fun _ =>
    { s.flowVec.cell s.nextPort.toNat with flow := flow, used := true }
  nextPort := s.nextPort + 1

section Steps

variable {ipcsum : List UInt8 → UInt16} {ip : UInt32} {s s' : NatState} {payload : List UInt8}
  {flow out : Flow}

theorem natClosure_known [BigEndian] (ipcsum : List UInt8 → UInt16) (ip : UInt32)
    (hflow : ipv4ExtractFlow payload = .ok (some flow))
    (hknown : s.portHash[flow]? = some out) :
    ∃ stamped, out.ipv4StampFlow ipcsum payload = .ok stamped ∧
      natClosure ipcsum ip s payload = .ok (⟨stamped, none⟩, s) := by
  refine ⟨_, stamp_eq (holdsPorts_of_extract hflow), ?_⟩
  unfold natClosure
  rw [hflow, bind_ok]
  dsimp only
  rw [hknown]
  dsimp only
  rw [stamp_eq (holdsPorts_of_extract hflow), bind_ok]

theorem natClosure_new [BigEndian] (ipcsum : List UInt8 → UInt16) (ip : UInt32)
    (hflow : ipv4ExtractFlow payload = .ok (some flow))
    (hnew : s.portHash[flow]? = none) (hmax : s.nextPort < maxPort)
    (hvec : s.nextPort.toNat < s.flowVec.size) :
    ∃ stamped, (outgoing ip s.nextPort flow).ipv4StampFlow ipcsum payload = .ok stamped ∧
      natClosure ipcsum ip s payload = .ok (⟨stamped, some s.nextPort⟩, s.assign ip flow) := by
  refine ⟨_, stamp_eq (holdsPorts_of_extract hflow), ?_⟩
  unfold natClosure
  rw [hflow, bind_ok]
  dsimp only
  rw [hnew]
  dsimp only
  rw [if_pos hmax, Cells.get_of_lt hvec, bind_ok, Cells.set_of_lt hvec, bind_ok,
    Cells.get_of_lt (by exact hvec), bind_ok, Cells.set_of_lt (by exact hvec), bind_ok,
    Cells.overwrite_overwrite, Cells.overwrite_cell, if_pos (by omega),
    stamp_eq (holdsPorts_of_extract hflow), bind_ok]
  rfl

theorem natClosure_out_of_range [BigEndian] (hflow : ipv4ExtractFlow payload = .ok (some flow))
    (hnew : s.portHash[flow]? = none) (hmax : s.nextPort < maxPort)
    (hvec : s.flowVec.size ≤ s.nextPort.toNat) :
    natClosure ipcsum ip s payload = .panic .index := by
  unfold natClosure
  rw [hflow, bind_ok]
  dsimp only
  rw [hnew]
  dsimp only
  rw [if_pos hmax, Cells.get, if_neg (by omega), bind_panic]

/-- The length of `flow_vec` and where the port counter stands: it begins at 1024 and gets no
further than the length, as every port that is assigned is an index of the vector. -/
structure Bounded (s : NatState) : Prop where
  size : s.flowVec.size = 64511
  le : s.nextPort.toNat ≤ 64511
  ge : 1024 ≤ s.nextPort.toNat

theorem bounded_new : Bounded NatState.new := ⟨rfl, by decide, by decide⟩

theorem Bounded.lt_maxPort (h : Bounded s) : s.nextPort < maxPort := by
  have := h.le
  rw [UInt16.lt_iff_toNat_lt]
  show s.nextPort.toNat < 65535
  omega

theorem Bounded.toNat_succ (h : Bounded s) : (s.nextPort + 1).toNat = s.nextPort.toNat + 1 := by
  have := h.le
  rw [UInt16.toNat_add]
  exact Nat.mod_eq_of_lt (by simp; omega)

/-- Everything a packet can do to the state. -/
theorem natClosure_cases [BigEndian] {r : Rewritten} (h : Bounded s)
    (hok : natClosure ipcsum ip s payload = .ok (r, s')) :
    ∃ flow, ipv4ExtractFlow payload = .ok (some flow) ∧
      ((s.portHash[flow]?.isSome ∧ s' = s ∧ r.assigned = none) ∨
        (s.portHash[flow]? = none ∧ s.nextPort.toNat < 64511 ∧ s' = s.assign ip flow ∧
          r.assigned = some s.nextPort)) := by
  obtain ⟨flow, hflow⟩ : ∃ flow, ipv4ExtractFlow payload = .ok (some flow) := by
    unfold natClosure at hok
    obtain ⟨r, hr, -⟩ := bind_eq_ok.mp hok
    exact extract_of_holdsPorts (holdsPorts_of_extract hr)
  refine ⟨flow, hflow, ?_⟩
  cases hlookup : s.portHash[flow]? with
  | some out =>
    obtain ⟨stamped, -, heq⟩ := natClosure_known ipcsum ip hflow hlookup
    rw [heq] at hok
    cases hok
    exact Or.inl ⟨rfl, rfl, rfl⟩
  | none =>
    by_cases hvec : s.nextPort.toNat < 64511
    · obtain ⟨stamped, -, heq⟩ := natClosure_new ipcsum ip hflow hlookup
        h.lt_maxPort (by rw [h.size]; exact hvec)
      rw [heq] at hok
      cases hok
      exact Or.inr ⟨rfl, hvec, rfl, rfl⟩
    · rw [natClosure_out_of_range hflow hlookup h.lt_maxPort (by rw [h.size]; omega)] at hok
      cases hok

theorem Bounded.assign (h : Bounded s) (hlt : s.nextPort.toNat < 64511) (ip : UInt32)
    (flow : Flow) : Bounded (s.assign ip flow) := by
  have hsucc := h.toNat_succ
  have hge := h.ge
  exact ⟨h.size, by simp only [NatState.assign]; omega, by simp only [NatState.assign]; omega⟩

theorem Bounded.step [BigEndian] {r : Rewritten} (h : Bounded s)
    (hok : natClosure ipcsum ip s payload = .ok (r, s')) : Bounded s' := by
  obtain ⟨flow, -, ⟨-, rfl, -⟩ | ⟨-, hlt, rfl, -⟩⟩ := natClosure_cases h hok
  · exact h
  · exact h.assign hlt ip flow

end Steps

/-! ## The table -/

/-- What each flow is translated to. -/
def NatState.table (s : NatState) : Flow → Option Flow := fun k => s.portHash[k]?

theorem reverseFlow_involutive : Function.Involutive Flow.reverseFlow := fun _ => rfl

/-- A new port links the flow and its outgoing flow. -/
theorem table_assign (s : NatState) (ip : UInt32) (flow : Flow) :
    (s.assign ip flow).table =
      link Flow.reverseFlow s.table flow (outgoing ip s.nextPort flow) := by
  funext k
  unfold NatState.table NatState.assign link
  dsimp only
  rw [Std.HashMap.getElem?_insert, Std.HashMap.getElem?_insert]
  simp only [beq_iff_eq]

/-- The reverse key of the port that a packet with a new flow would get is no key of
the table. -/
def Unclaimed [BigEndian] (ip : UInt32) (s : NatState) (payload : List UInt8) : Prop :=
  ∀ flow, ipv4ExtractFlow payload = .ok (some flow) → s.portHash[flow]? = none →
    s.portHash[(outgoing ip s.nextPort flow).reverseFlow]? = none

/-- A key is addressed to a port that is assigned, or was translated by assigning one. So the
reverse key of a port that is still free can only be there because a packet with that very flow
came in. -/
def Entries (ip : UInt32) (s : NatState) : Prop :=
  ∀ k v, s.table k = some v → k.dstPort.toNat < s.nextPort.toNat ∨
    ∃ port : UInt16, port.toNat < s.nextPort.toNat ∧ v = outgoing ip port k

/-- A translation that has lost its way back, between keys that no later port can touch: later
packets add keys for later ports only, so it stays broken. -/
def Broken (s : NatState) : Prop :=
  ∃ k v u, s.table k = some v ∧ s.table v.reverseFlow = some u ∧ u ≠ k.reverseFlow ∧
    k.dstPort.toNat < s.nextPort.toNat ∧ v.reverseFlow.dstPort.toNat < s.nextPort.toNat

theorem Broken.not_mutual {s : NatState} (h : Broken s) : ¬ Mutual Flow.reverseFlow s.table := by
  intro hm
  obtain ⟨k, v, u, hk, hv, hne, -⟩ := h
  rw [hm k v hk] at hv
  exact hne (Option.some.inj hv).symm

section Table

variable {ipcsum : List UInt8 → UInt16} {ip : UInt32} {s s' : NatState} {payload : List UInt8}
  {flow : Flow}

/-- Keys to other ports than the new one stay. -/
theorem table_assign_of_ne {k v : Flow} (hnew : s.table flow = none) (hk : s.table k = some v)
    (hport : k.dstPort.toNat < s.nextPort.toNat) : (s.assign ip flow).table k = some v := by
  rw [table_assign]
  unfold link
  have hrev : (outgoing ip s.nextPort flow).reverseFlow ≠ k := fun heq => by
    rw [← heq] at hport
    exact Nat.lt_irrefl _ hport
  have hflow : flow ≠ k := fun heq => by
    rw [heq, hk] at hnew
    cases hnew
  rw [if_neg hrev, if_neg hflow, hk]

theorem Entries.assign (hb : Bounded s) (h : Entries ip s) :
    Entries ip (s.assign ip flow) := by
  intro k v hk
  have hsucc : (s.assign ip flow).nextPort.toNat = s.nextPort.toNat + 1 := hb.toNat_succ
  rw [hsucc]
  rw [table_assign] at hk
  unfold link at hk
  split at hk
  · next hrev =>
    rw [← hrev]
    exact Or.inl (Nat.lt_succ_self _)
  · split at hk
    · next hflow =>
      rw [← Option.some.inj hk, hflow]
      exact Or.inr ⟨s.nextPort, Nat.lt_succ_self _, rfl⟩
    · rcases h k v hk with hlt | ⟨port, hlt, hv⟩
      · exact Or.inl (by omega)
      · exact Or.inr ⟨port, by omega, hv⟩

theorem Broken.assign (hb : Bounded s) (h : Broken s) (hnew : s.table flow = none) :
    Broken (s.assign ip flow) := by
  have hsucc : (s.assign ip flow).nextPort.toNat = s.nextPort.toNat + 1 := hb.toNat_succ
  obtain ⟨k, v, u, hk, hv, hne, hkport, hvport⟩ := h
  exact ⟨k, v, u, table_assign_of_ne hnew hk hkport, table_assign_of_ne hnew hv hvport, hne,
    by omega, by omega⟩

/-- Assigning a port whose reverse key is taken breaks the table. -/
theorem broken_of_claimed (hb : Bounded s) (he : Entries ip s)
    (hm : Mutual Flow.reverseFlow s.table) (hnew : s.table flow = none) {w : Flow}
    (hclaimed : s.table (outgoing ip s.nextPort flow).reverseFlow = some w) :
    Broken (s.assign ip flow) := by
  have hsucc : (s.assign ip flow).nextPort.toNat = s.nextPort.toNat + 1 := hb.toNat_succ
  -- the key is to a port that is not assigned, so it was translated by assigning one
  obtain ⟨port, hport, rfl⟩ : ∃ port : UInt16, port.toNat < s.nextPort.toNat ∧
      w = outgoing ip port (outgoing ip s.nextPort flow).reverseFlow :=
    (he _ w hclaimed).resolve_left (Nat.lt_irrefl _)
  have hne : (outgoing ip port (outgoing ip s.nextPort flow).reverseFlow).reverseFlow ≠
      (outgoing ip s.nextPort flow).reverseFlow := by
    intro heq
    have hports : port = s.nextPort := congrArg Flow.dstPort heq
    rw [hports] at hport
    exact Nat.lt_irrefl _ hport
  obtain ⟨hk, hv, hu⟩ := hm.link_clash reverseFlow_involutive hnew hclaimed hne
  rw [← table_assign] at hk hv
  refine ⟨_, _, _, hk, hv, hu, ?_, ?_⟩
  · rw [hsucc]
    exact Nat.lt_succ_of_lt hport
  · rw [hsucc]
    exact Nat.lt_succ_self _

theorem Broken.run [BigEndian] {payloads : List (List UInt8)} {rs : List Rewritten} (hb : Bounded s)
    (h : Broken s) (hrun : runOps (natClosure ipcsum ip) s payloads = .ok (rs, s')) :
    Broken s' := by
  refine (runOps_keeps (I := fun s => Bounded s ∧ Broken s) (fun s payload r s' hI hok => ?_)
    ⟨hb, h⟩ hrun).2
  refine ⟨hI.1.step hok, ?_⟩
  obtain ⟨flow, -, ⟨-, rfl, -⟩ | ⟨hnew, -, rfl, -⟩⟩ := natClosure_cases hI.1 hok
  · exact hI.2
  · exact hI.2.assign hI.1 hnew

theorem unclaimed_iff [BigEndian] (hflow : ipv4ExtractFlow payload = .ok (some flow)) :
    Unclaimed ip s payload ↔ (s.portHash[flow]? = none →
      s.portHash[(outgoing ip s.nextPort flow).reverseFlow]? = none) := by
  refine ⟨fun h => h flow hflow, fun h flow' hflow' => ?_⟩
  rw [hflow] at hflow'
  cases hflow'
  exact h

/-- Whole runs: the table is mutual in the end exactly if no port was assigned whose
reverse key was taken. -/
theorem mutual_iff_meets [BigEndian] :
    ∀ {payloads : List (List UInt8)} {s s' : NatState}
    {rs : List Rewritten}, Bounded s → Entries ip s → Mutual Flow.reverseFlow s.table →
    runOps (natClosure ipcsum ip) s payloads = .ok (rs, s') →
    (Mutual Flow.reverseFlow s'.table ↔
      Meets (natClosure ipcsum ip) (Unclaimed ip) s payloads) := by
  intro payloads
  induction payloads with
  | nil =>
    intro s s' rs _ _ hm hrun
    cases hrun
    exact ⟨fun _ => trivial, fun _ => hm⟩
  | cons payload payloads ih =>
    intro s s' rs hb he hm hrun
    obtain ⟨r, s₁, rest, hstep, hrest, -⟩ := runOps_cons_ok hrun
    obtain ⟨flow, hflow, ⟨hknown, rfl, -⟩ | ⟨hnew, hlt, rfl, -⟩⟩ := natClosure_cases hb hstep
    · -- a known flow: nothing changes, and nothing is asked
      have hcond : Unclaimed ip s₁ payload := by
        rw [unclaimed_iff hflow]
        intro hnone
        rw [hnone] at hknown
        cases hknown
      rw [Meets.cons_iff hcond hstep]
      exact ih hb he hm hrest
    · have hb₁ := hb.assign hlt ip flow
      cases hrev : s.portHash[(outgoing ip s.nextPort flow).reverseFlow]? with
      | none =>
        have hm₁ : Mutual Flow.reverseFlow (s.assign ip flow).table := by
          rw [table_assign]
          exact hm.link_of_new reverseFlow_involutive hnew hrev
        rw [Meets.cons_iff ((unclaimed_iff hflow).mpr fun _ => hrev) hstep]
        exact ih hb₁ (he.assign hb) hm₁ hrest
      | some w =>
        have hbroken := (broken_of_claimed hb he hm hnew hrev).run hb₁ hrest
        refine ⟨fun hm' => absurd hm' hbroken.not_mutual, fun hmeets => ?_⟩
        have hfree := (unclaimed_iff hflow).mp hmeets.1 hnew
        rw [hrev] at hfree
        cases hfree

end Table

theorem mutual_new : Mutual Flow.reverseFlow NatState.new.table := by
  intro k v hk
  simp [NatState.table, NatState.new] at hk

theorem entries_new (ip : UInt32) : Entries ip NatState.new := by
  intro k v hk
  simp [NatState.table, NatState.new] at hk

/-- After any packets the table is mutual exactly if no port was assigned whose
reverse key was in the table already. While it is, different flows have different
outside flows, and a reply to a translated packet gets the reverse of the original
flow. -/
theorem nat_mutual_iff [BigEndian] (ipcsum : List UInt8 → UInt16) (ip : UInt32)
    (payloads : List (List UInt8)) (rs : List Rewritten) (s : NatState)
    (hrun : runOps (natClosure ipcsum ip) NatState.new payloads = .ok (rs, s)) :
    (Mutual Flow.reverseFlow s.table ↔
      Meets (natClosure ipcsum ip) (Unclaimed ip) NatState.new payloads) ∧
    (Mutual Flow.reverseFlow s.table →
      (∀ k k' v, s.table k = some v → s.table k' = some v → k = k') ∧
      ∀ k v reply, s.table k = some v → ipv4ExtractFlow reply = .ok (some v.reverseFlow) →
        ∃ stamped, k.reverseFlow.ipv4StampFlow ipcsum reply = .ok stamped ∧
          natClosure ipcsum ip s reply = .ok (⟨stamped, none⟩, s)) := by
  refine ⟨mutual_iff_meets bounded_new (entries_new ip) mutual_new hrun, fun hm => ⟨?_, ?_⟩⟩
  · intro k k' v hk hk'
    exact hm.injective reverseFlow_involutive hk hk'
  · intro k v reply hk hreply
    exact natClosure_known ipcsum ip hreply (hm k v hk)

/-! ## Packets for the cases below -/

/-- A packet with the shortest header and the given flow. -/
def packetOf (flow : Flow) : List UInt8 :=
  [0x45, 0, 0, 24, 0, 0, 0, 0, 64, flow.proto, 0, 0] ++ beBytes flow.srcIp ++ beBytes flow.dstIp ++
    beBytes16 flow.srcPort ++ beBytes16 flow.dstPort

theorem extract_packetOf [BigEndian] (flow : Flow) :
    ipv4ExtractFlow (packetOf flow) = .ok (some flow) := by
  have hlen : (packetOf flow).length = 24 := rfl
  have hfirst : (packetOf flow).getD 0 0 = 0x45 := rfl
  have hstart : portStart (packetOf flow) = 20 := by
    rw [portStart, ihl, hfirst]
    decide
  have hsrc : ((packetOf flow).drop 12).take 4 = beBytes flow.srcIp := rfl
  have hdst : ((packetOf flow).drop 16).take 4 = beBytes flow.dstIp := rfl
  have hsport : ((packetOf flow).drop 20).take 2 = beBytes16 flow.srcPort := rfl
  have hdport : ((packetOf flow).drop 22).take 2 = beBytes16 flow.dstPort := rfl
  have hproto : (packetOf flow)[9]? = some flow.proto := rfl
  rw [ipv4ExtractFlow_eq hproto ⟨by omega, by omega⟩, hstart, hsrc, hdst, hsport, hdport,
    ofNat_beNat_beBytes, ofNat_beNat_beBytes, ofNat_beNat_beBytes16, ofNat_beNat_beBytes16]

/-- A packet with a new flow gets the next port. -/
theorem natClosure_packetOf [BigEndian] (ipcsum : List UInt8 → UInt16) (ip : UInt32) {s : NatState}
    {flow : Flow} (hb : Bounded s) (hlt : s.nextPort.toNat < 64511) (hnew : s.table flow = none) :
    ∃ r, natClosure ipcsum ip s (packetOf flow) = .ok (r, s.assign ip flow) := by
  obtain ⟨stamped, -, heq⟩ := natClosure_new ipcsum ip (extract_packetOf flow)
    hnew hb.lt_maxPort (by rw [hb.size]; exact hlt)
  exact ⟨_, heq⟩

/-- From outside to a port of the NAT that is not assigned. -/
def unsolicited : Flow :=
  { srcIp := 0x08080808, dstIp := 0x01020304, srcPort := 53, dstPort := 1025, proto := 17 }

/-- From inside to the sender of `unsolicited`. -/
def inside : Flow :=
  { srcIp := 0x0a000001, dstIp := 0x08080808, srcPort := 7, dstPort := 53, proto := 17 }

/-- The unsolicited packet comes first and gets port 1024; then the packet from inside
gets port 1025, and its reverse key overwrites the unsolicited flow's. -/
theorem nat_not_mutual : letI := networkOrder
    ∃ rs s, runOps (natClosure complementSum 0x01020304) NatState.new
      [packetOf unsolicited, packetOf inside] = .ok (rs, s) ∧
    ¬ Mutual Flow.reverseFlow s.table := by
  let _ := networkOrder
  have hfirst : NatState.new.table unsolicited = none := by
    simp [NatState.table, NatState.new]
  obtain ⟨r₁, h₁⟩ := natClosure_packetOf complementSum 0x01020304 bounded_new
    (by decide) hfirst
  have hb₁ := bounded_new.assign (by decide) 0x01020304 unsolicited
  have hsecond : (NatState.new.assign 0x01020304 unsolicited).table inside = none := by
    rw [table_assign, link, if_neg (by decide), if_neg (by decide)]
    simp [NatState.table, NatState.new]
  obtain ⟨r₂, h₂⟩ := natClosure_packetOf complementSum 0x01020304 hb₁
    (by decide) hsecond
  have hclaimed : (NatState.new.assign 0x01020304 unsolicited).table
      (outgoing 0x01020304 (NatState.new.assign 0x01020304 unsolicited).nextPort
        inside).reverseFlow = some (outgoing 0x01020304 1024 unsolicited) := by
    rw [table_assign, link, if_neg (by decide), if_pos (by decide)]
    rfl
  have hm₁ : Mutual Flow.reverseFlow (NatState.new.assign 0x01020304 unsolicited).table := by
    rw [table_assign]
    refine mutual_new.link_of_new reverseFlow_involutive hfirst ?_
    simp [NatState.table, NatState.new]
  refine ⟨[r₁, r₂], _, ?_, (broken_of_claimed hb₁ ((entries_new _).assign bounded_new) hm₁ hsecond
    hclaimed).not_mutual⟩
  rw [runOps, h₁, bind_ok]
  dsimp only
  rw [runOps, h₂, bind_ok]
  rfl

/-- From another host inside to the same server. -/
def neighbour : Flow := { inside with srcIp := 0x0a000002 }

/-- The server's answer to the packet of `inside`, at the port it got. -/
def answer : Flow := (outgoing 0x01020304 1024 inside).reverseFlow

/-- The state after the first packets of `inside` and `neighbour`. -/
def twoFlows : NatState :=
  (NatState.new.assign 0x01020304 inside).assign 0x01020304 neighbour

/-- Two flows leave, and the answer to the first comes back: each call in turn. -/
theorem steps_answer [BigEndian] (ipcsum : List UInt8 → UInt16) :
    ∃ r₁ r₂ r₃, natClosure ipcsum 0x01020304 NatState.new (packetOf inside) =
        .ok (r₁, NatState.new.assign 0x01020304 inside) ∧
      natClosure ipcsum 0x01020304 (NatState.new.assign 0x01020304 inside) (packetOf neighbour) =
        .ok (r₂, twoFlows) ∧
      natClosure ipcsum 0x01020304 twoFlows (packetOf answer) = .ok (r₃, twoFlows) ∧
      twoFlows.table answer = some inside.reverseFlow := by
  have hnil : ∀ k, NatState.new.table k = none := by simp [NatState.table, NatState.new]
  have hanswer : twoFlows.table answer = some inside.reverseFlow := by
    rw [twoFlows, table_assign, link, if_neg (by decide), if_neg (by decide), table_assign, link,
      if_pos (by decide)]
  obtain ⟨r₁, h₁⟩ := natClosure_packetOf ipcsum 0x01020304 bounded_new (by decide) (hnil inside)
  have hb₁ := bounded_new.assign (by decide) 0x01020304 inside
  have hnew : (NatState.new.assign 0x01020304 inside).table neighbour = none := by
    rw [table_assign, link, if_neg (by decide), if_neg (by decide), hnil]
  obtain ⟨r₂, h₂⟩ := natClosure_packetOf ipcsum 0x01020304 hb₁ (by decide) hnew
  obtain ⟨stamped, -, h₃⟩ := natClosure_known ipcsum 0x01020304 (extract_packetOf answer) hanswer
  exact ⟨r₁, r₂, _, h₁, h₂, h₃, hanswer⟩

theorem run_answer [BigEndian] (ipcsum : List UInt8 → UInt16) :
    ∃ rs, runOps (natClosure ipcsum 0x01020304) NatState.new
      [packetOf inside, packetOf neighbour, packetOf answer] = .ok (rs, twoFlows) := by
  obtain ⟨r₁, r₂, r₃, h₁, h₂, h₃, -⟩ := steps_answer ipcsum
  refine ⟨[r₁, r₂, r₃], ?_⟩
  rw [runOps, h₁, bind_ok]
  dsimp only
  rw [runOps, h₂, bind_ok]
  dsimp only
  rw [runOps, h₃, bind_ok]
  rfl

/-- The table is mutual after these packets, so the answer is given back its inside flow. -/
theorem nat_mutual_iff_answer : letI := networkOrder
    ∃ rs s, runOps (natClosure complementSum 0x01020304) NatState.new
        [packetOf inside, packetOf neighbour, packetOf answer] = .ok (rs, s) ∧
      Mutual Flow.reverseFlow s.table ∧
      ∃ stamped, inside.reverseFlow.ipv4StampFlow complementSum (packetOf answer) = .ok stamped ∧
        natClosure complementSum 0x01020304 s (packetOf answer) = .ok (⟨stamped, none⟩, s) := by
  let _ := networkOrder
  obtain ⟨rs, hrun⟩ := run_answer complementSum
  obtain ⟨r₁, r₂, r₃, h₁, h₂, h₃, hanswer⟩ := steps_answer complementSum
  have hnil : ∀ k, NatState.new.table k = none := by simp [NatState.table, NatState.new]
  have hmeets : Meets (natClosure complementSum 0x01020304) (Unclaimed 0x01020304) NatState.new
      [packetOf inside, packetOf neighbour, packetOf answer] := by
    refine Meets.cons ?_ h₁ (Meets.cons ?_ h₂ (Meets.cons ?_ h₃ trivial))
    · exact (unclaimed_iff (extract_packetOf inside)).mpr fun _ => hnil _
    · refine (unclaimed_iff (extract_packetOf neighbour)).mpr fun _ => ?_
      show (NatState.new.assign 0x01020304 inside).table _ = none
      rw [table_assign, link, if_neg (by decide), if_neg (by decide), hnil]
    · refine (unclaimed_iff (extract_packetOf answer)).mpr fun hnone => ?_
      cases hnone.symm.trans hanswer
  obtain ⟨hiff, hways⟩ := nat_mutual_iff complementSum 0x01020304 _ rs twoFlows hrun
  have hm := hiff.mpr hmeets
  have hinside : twoFlows.table inside = some (outgoing 0x01020304 1024 inside) := by
    rw [twoFlows, table_assign, link, if_neg (by decide), if_neg (by decide), table_assign, link,
      if_neg (by decide), if_pos rfl]
    rfl
  exact ⟨rs, twoFlows, hrun, hm,
    (hways hm).2 inside _ (packetOf answer) hinside (extract_packetOf answer)⟩

/-! ## Ports -/

/-- The ports that a run assigned. -/
def portsOf (rs : List Rewritten) : List UInt16 := rs.filterMap (·.assigned)

/-- The ports of a run are those from the counter's start to its end. -/
theorem portsOf_run [BigEndian] {ipcsum : List UInt8 → UInt16} {ip : UInt32} :
    ∀ {payloads : List (List UInt8)} {s s' : NatState} {rs : List Rewritten}, Bounded s →
      runOps (natClosure ipcsum ip) s payloads = .ok (rs, s') →
      s'.nextPort.toNat = s.nextPort.toNat + (portsOf rs).length ∧
      (portsOf rs).map UInt16.toNat = List.range' s.nextPort.toNat (portsOf rs).length := by
  intro payloads
  induction payloads with
  | nil =>
    intro s s' rs _ hrun
    cases hrun
    exact ⟨rfl, rfl⟩
  | cons payload payloads ih =>
    intro s s' rs hb hrun
    obtain ⟨r, s₁, rest, hstep, hrest, rfl⟩ := runOps_cons_ok hrun
    obtain ⟨flow, -, ⟨-, rfl, hr⟩ | ⟨-, hlt, rfl, hr⟩⟩ := natClosure_cases hb hstep
    · have hports : portsOf (r :: rest) = portsOf rest := by
        simp [portsOf, hr]
      rw [hports]
      exact ih hb hrest
    · obtain ⟨hend, hrange⟩ := ih (hb.assign hlt ip flow) hrest
      have hsucc : (s.assign ip flow).nextPort.toNat = s.nextPort.toNat + 1 := hb.toNat_succ
      have hports : portsOf (r :: rest) = s.nextPort :: portsOf rest := by
        simp [portsOf, hr]
      rw [hsucc] at hend hrange
      rw [hports, List.length_cons, List.map_cons, List.range'_succ, hrange]
      exact ⟨by omega, rfl⟩

/-- The ports a run assigned are distinct and in range, there are at most 63487 of
them, and the counter never gets to the end of the range. The next packet, if its
flow can be read, is translated unless its flow is new and all of the 63487 are
gone; then the closure indexes `flow_vec` out of its range. -/
theorem nat_ports [BigEndian] (ipcsum : List UInt8 → UInt16) (ip : UInt32)
    (payloads : List (List UInt8)) (rs : List Rewritten) (s : NatState)
    (hrun : runOps (natClosure ipcsum ip) NatState.new payloads = .ok (rs, s)) :
    (portsOf rs).Nodup ∧ (∀ port ∈ portsOf rs, minPort ≤ port ∧ port < maxPort) ∧
    (portsOf rs).length ≤ 63487 ∧ s.nextPort < maxPort ∧
    ∀ payload flow, ipv4ExtractFlow payload = .ok (some flow) →
      (natClosure ipcsum ip s payload = .panic .index ↔
        s.table flow = none ∧ (portsOf rs).length = 63487) ∧
      (¬ (s.table flow = none ∧ (portsOf rs).length = 63487) →
        ∃ r s', natClosure ipcsum ip s payload = .ok (r, s')) := by
  have hb : Bounded s := runOps_keeps (fun _ _ _ _ hI hok => hI.step hok) bounded_new hrun
  obtain ⟨hend, hrange⟩ := portsOf_run bounded_new hrun
  have hstart : NatState.new.nextPort.toNat = 1024 := rfl
  rw [hstart] at hend hrange
  have hle := hb.le
  refine ⟨?_, fun port hport => ?_, by omega, hb.lt_maxPort, fun payload flow hflow => ?_⟩
  · refine List.Nodup.of_map UInt16.toNat ?_
    rw [hrange]
    exact List.nodup_range'
  · have hmem : port.toNat ∈ List.range' 1024 (portsOf rs).length := by
      rw [← hrange]
      exact List.mem_map_of_mem hport
    have hbounds := List.mem_range'_1.mp hmem
    rw [UInt16.le_iff_toNat_le, UInt16.lt_iff_toNat_lt]
    exact ⟨hbounds.1, show port.toNat < 65535 by omega⟩
  · cases hlookup : s.table flow with
    | some out =>
      obtain ⟨stamped, -, heq⟩ := natClosure_known ipcsum ip hflow hlookup
      rw [heq]
      simp
    | none =>
      by_cases hlast : (portsOf rs).length = 63487
      · rw [natClosure_out_of_range hflow hlookup hb.lt_maxPort (by rw [hb.size]; omega)]
        simp [hlast]
      · obtain ⟨stamped, -, heq⟩ := natClosure_new ipcsum ip hflow hlookup
          hb.lt_maxPort (by rw [hb.size]; omega)
        rw [heq]
        simp [hlast]

/-- Two flows get two ports, and the answer none. -/
theorem nat_ports_answer : letI := networkOrder
    ∃ rs s, runOps (natClosure complementSum 0x01020304) NatState.new
        [packetOf inside, packetOf neighbour, packetOf answer] = .ok (rs, s) ∧
      (portsOf rs).Nodup ∧ s.nextPort = 1026 ∧ s.nextPort < maxPort := by
  let _ := networkOrder
  obtain ⟨rs, hrun⟩ := run_answer complementSum
  obtain ⟨hnodup, -, -, hmax, -⟩ := nat_ports _ _ _ _ _ hrun
  exact ⟨_, _, hrun, hnodup, rfl, hmax⟩

/-! ## More flows than `flow_vec` has room for -/

/-- The flows of one host to one server, by source port. -/
def numbered (i : Nat) : Flow := { inside with srcPort := .ofNat i }

/-- The state after the flows before the `i`th. -/
structure Flooded (i : Nat) (s : NatState) : Prop where
  bounded : Bounded s
  next : s.nextPort.toNat = 1024 + i
  keys : ∀ k v, s.table k = some v → k.dstIp = 0x01020304 ∨ ∃ j < i, k = numbered j

theorem Flooded.table_numbered {i : Nat} {s : NatState} (h : Flooded i s) (hi : i < 2 ^ 16) :
    s.table (numbered i) = none := by
  cases hk : s.table (numbered i) with
  | none => rfl
  | some v =>
    rcases h.keys _ v hk with hip | ⟨j, hj, heq⟩
    · exact absurd hip (by simp [numbered, inside])
    · have hport : (UInt16.ofNat i).toNat = (UInt16.ofNat j).toNat :=
        congrArg (fun f : Flow => f.srcPort.toNat) heq
      rw [UInt16.toNat_ofNat_of_lt' hi,
        UInt16.toNat_ofNat_of_lt' (show j < 2 ^ 16 by omega)] at hport
      omega

theorem Flooded.succ {i : Nat} {s : NatState} (h : Flooded i s) (hi : i < 63487) :
    Flooded (i + 1) (s.assign 0x01020304 (numbered i)) := by
  have hnext := h.next
  refine ⟨h.bounded.assign (by omega) _ _, ?_, fun k v hk => ?_⟩
  · rw [← Nat.add_assoc, ← hnext]
    exact h.bounded.toNat_succ
  · rw [table_assign] at hk
    unfold link at hk
    split at hk
    · next hrev =>
      rw [← hrev]
      exact Or.inl rfl
    · split at hk
      · next hflow => exact Or.inr ⟨i, Nat.lt_succ_self i, hflow.symm⟩
      · rcases h.keys k v hk with hip | ⟨j, hj, heq⟩
        · exact Or.inl hip
        · exact Or.inr ⟨j, by omega, heq⟩

/-- The flows from the `i`th on, up to one more than there is room for. -/
theorem Flooded.run_panics [BigEndian] :
    ∀ (todo : Nat) {i : Nat} {s : NatState}, Flooded i s →
    i + todo = 63487 → runOps (natClosure complementSum 0x01020304) s
      ((List.range' i (todo + 1)).map fun j => packetOf (numbered j)) = .panic .index := by
  intro todo
  induction todo with
  | zero =>
    intro i s h hi
    have hnext := h.next
    rw [List.range'_succ, List.map_cons, runOps,
      natClosure_out_of_range (extract_packetOf _) (h.table_numbered (by omega))
        h.bounded.lt_maxPort (by rw [h.bounded.size]; omega), bind_panic]
  | succ todo ih =>
    intro i s h hi
    have hnext := h.next
    obtain ⟨r, hr⟩ := natClosure_packetOf complementSum 0x01020304 h.bounded
      (by omega) (h.table_numbered (by omega))
    rw [List.range'_succ, List.map_cons, runOps, hr, bind_ok]
    dsimp only
    rw [ih (h.succ (by omega)) (by omega), bind_panic]

/-- 63488 flows of one host: the last one crashes the NAT. -/
theorem nat_flood_panics : letI := networkOrder
    runOps (natClosure complementSum 0x01020304) NatState.new
      ((List.range' 0 63488).map fun i => packetOf (numbered i)) = .panic .index := by
  let _ := networkOrder
  refine Flooded.run_panics 63487 ⟨bounded_new, rfl, fun k v hk => ?_⟩ rfl
  simp [NatState.table, NatState.new] at hk

end NetBricks.Nf
