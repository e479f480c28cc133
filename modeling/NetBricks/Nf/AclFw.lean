import NetBricks.Headers.IpFlow
import NetBricks.Lib.History
import NetBricks.Utils.Ipv4Prefix

/-!
# The firewall

The closure that `acl_match` of `test/acl-fw/src/nf.rs` gives to `filter`. The first rule that
matches a packet decides. The flows of packets that were let through are kept, and a rule can ask
whether a packet's connection is established, that is, whether its flow or the reverse of it is
among them.

So the verdict on a packet depends on the packets before it. `Judged` says how: there is no
cache in it, only the packets that came before and what became of them. From it alone follows
what the rules guarantee (`opened_of_judged`): of every connection that gets through, the first
packet was let through by a rule that does not ask for an established connection.

Mirroring notes:

* A packet is what lies in memory from its IP header on; the header is a view of it.
* The firewall is built with the feature `performance`, so `flow` is `flowPerformance`: the
  ports are read 20 bytes behind the start of the header.
* `flow().unwrap()` panics for a packet without a flow, such as one that is neither TCP nor UDP.
-/

namespace NetBricks.Nf

open Lib Lib.Outcome Utils
open Headers (IpHeader)

/-- `Acl`. -/
structure Acl where
  srcIp : Option Ipv4Prefix
  dstIp : Option Ipv4Prefix
  srcPort : Option UInt16
  dstPort : Option UInt16
  established : Option Bool
  drop : Bool
  deriving DecidableEq, Repr

namespace Acl

/-- The condition on addresses and ports. -/
def covers (acl : Acl) (flow : Flow) : Bool :=
  acl.srcIp.all (·.inRange flow.srcIp) && acl.dstIp.all (·.inRange flow.dstIp) &&
    acl.srcPort.all (flow.srcPort == ·) && acl.dstPort.all (flow.dstPort == ·)

/-- `matches`. -/
def «matches» (acl : Acl) (flow : Flow) (connections : Std.HashSet Flow) : Bool :=
  if acl.covers flow then
    match acl.established with
    | some established =>
      (connections.contains flow || connections.contains flow.reverseFlow) == established
    | none => true
  else false

end Acl

/-- The loop over the rules. -/
def judge (flow : Flow) (flowCache : Std.HashSet Flow) : List Acl → Bool × Std.HashSet Flow
  | [] => (false, flowCache)
  | acl :: acls =>
    if acl.matches flow flowCache then
      (!acl.drop, if !acl.drop then flowCache.insert flow else flowCache)
    else judge flow flowCache acls

/-- A connection is a flow and the reverse of it. -/
def SameConnection (f g : Flow) : Prop := f = g ∨ f = g.reverseFlow

theorem SameConnection.trans {f g k : Flow} (h : SameConnection f g) (h' : SameConnection g k) :
    SameConnection f k := by
  rcases h with rfl | rfl
  · exact h'
  · rcases h' with rfl | rfl
    · exact .inr rfl
    · exact .inl rfl

section Closure

variable [BigEndian]

/-- The closure given to `filter`. -/
def aclFilter (acls : List Acl) (flowCache : Std.HashSet Flow) (packet : List UInt8) :
    Outcome (Bool × Std.HashSet Flow) := do
  match ← (IpHeader.ofBytes packet).flowPerformance packet with
  | some flow => .ok (judge flow flowCache acls)
  | none => .panic (.explicit "called `Option::unwrap()` on a `None` value")

/-! ## What the rules say -/

/-- The flow of a packet. -/
def HasFlow (packet : List UInt8) (flow : Flow) : Prop :=
  (IpHeader.ofBytes packet).flowPerformance packet = .ok (some flow)

theorem HasFlow.unique {packet : List UInt8} {f g : Flow} (hf : HasFlow packet f)
    (hg : HasFlow packet g) : f = g :=
  Option.some.inj (Outcome.ok.inj (hf.symm.trans hg))

/-- A packet of the connection is among those let through. -/
def Established (past : List (List UInt8 × Bool)) (flow : Flow) : Prop :=
  ∃ packet, (packet, true) ∈ past ∧ ∃ g, HasFlow packet g ∧ SameConnection g flow

end Closure

/-- The rule applies to a flow of a connection that is established, or is not. A rule that does
not ask applies to both. -/
def Acl.Applies (acl : Acl) (established : Prop) (flow : Flow) : Prop :=
  acl.covers flow = true ∧ ∀ e, acl.established = some e → (established ↔ e = true)

/-- The first of the rules that applies. -/
def FirstRule (acls : List Acl) (established : Prop) (flow : Flow) (acl : Acl) : Prop :=
  ∃ before after, acls = before ++ acl :: after ∧ acl.Applies established flow ∧
    ∀ a ∈ before, ¬ a.Applies established flow

theorem firstRule_cons {acls : List Acl} {established : Prop} {flow : Flow} {a acl : Acl} :
    FirstRule (a :: acls) established flow acl ↔
      (a = acl ∧ a.Applies established flow) ∨
        (¬ a.Applies established flow ∧ FirstRule acls established flow acl) := by
  constructor
  · rintro ⟨before, after, heq, happlies, hnone⟩
    cases before with
    | nil =>
      obtain ⟨rfl, -⟩ := List.cons.inj heq
      exact .inl ⟨rfl, happlies⟩
    | cons b before =>
      obtain ⟨rfl, hrest⟩ := List.cons.inj heq
      exact .inr ⟨hnone a List.mem_cons_self, before, after, hrest, happlies,
        fun c hc => hnone c (List.mem_cons_of_mem a hc)⟩
  · rintro (⟨rfl, happlies⟩ | ⟨hnot, before, after, rfl, happlies, hnone⟩)
    · exact ⟨[], acls, rfl, happlies, by simp⟩
    · refine ⟨a :: before, after, rfl, happlies, fun c hc => ?_⟩
      rcases List.mem_cons.mp hc with rfl | hc
      · exact hnot
      · exact hnone c hc

/-- `matches`, for a cache that has the connection exactly when it is established. -/
theorem matches_iff {acl : Acl} {flow : Flow} {flowCache : Std.HashSet Flow} {established : Prop}
    (h : established ↔ flow ∈ flowCache ∨ flow.reverseFlow ∈ flowCache) :
    acl.matches flow flowCache = true ↔ acl.Applies established flow := by
  have hcontains : (flowCache.contains flow || flowCache.contains flow.reverseFlow) = true ↔
      established := by
    rw [h, Bool.or_eq_true, Std.HashSet.contains_iff_mem, Std.HashSet.contains_iff_mem]
  unfold Acl.matches Acl.Applies
  split
  next hcovers =>
    cases acl.established with
    | none => simp [hcovers]
    | some e =>
      simp only [hcovers, true_and, Option.some.injEq, forall_eq', beq_iff_eq, ← hcontains]
      cases e <;> simp
  next hcovers => simp [hcovers]

/-- The loop lets a packet through if the first rule that applies does, and keeps its flow
then. -/
theorem judge_iff {flow : Flow} {flowCache : Std.HashSet Flow} {established : Prop}
    (h : established ↔ flow ∈ flowCache ∨ flow.reverseFlow ∈ flowCache) (acls : List Acl) :
    ((judge flow flowCache acls).1 = true ↔
        ∃ acl, FirstRule acls established flow acl ∧ acl.drop = false) ∧
      (judge flow flowCache acls).2 =
        if (judge flow flowCache acls).1 then flowCache.insert flow else flowCache := by
  induction acls with
  | nil =>
    refine ⟨⟨by simp [judge], ?_⟩, rfl⟩
    rintro ⟨acl, ⟨before, after, heq, -⟩, -⟩
    simp at heq
  | cons a acls ih =>
    unfold judge
    by_cases hmatch : a.matches flow flowCache = true
    · rw [if_pos hmatch]
      refine ⟨?_, rfl⟩
      have happlies := (matches_iff h).mp hmatch
      simp only [firstRule_cons, happlies, not_true_eq_false, false_and, or_false, and_true]
      simp
    · rw [if_neg hmatch]
      have happlies : ¬ a.Applies established flow := fun hap => hmatch ((matches_iff h).mpr hap)
      simp only [firstRule_cons, happlies, not_false_eq_true, true_and, and_false, false_or]
      exact ih

/-! ## Whole runs -/

section Runs

variable [BigEndian]

/-- Every packet has been judged by the first rule that applies to it, given the packets before
it and what became of them. -/
def Judged (acls : List Acl) (past : List (List UInt8 × Bool)) : Prop :=
  ∀ before packet pass after, past = before ++ (packet, pass) :: after →
    ∃ flow, HasFlow packet flow ∧ (pass = true ↔
      ∃ acl, FirstRule acls (Established before flow) flow acl ∧ acl.drop = false)

/-- A packet let through by a rule that does not ask for an established connection. -/
def Opens (acls : List Acl) (before : List (List UInt8 × Bool)) (flow : Flow) : Prop :=
  ∃ acl, FirstRule acls (Established before flow) flow acl ∧ acl.drop = false ∧
    acl.established ≠ some true

/-- What has become of the packets of a run, and the flows that are kept: each packet was judged
in view of those before it, and the cache is exactly what this judgment needs to know of
them. -/
structure Guarded (acls : List Acl) (past : List (List UInt8 × Bool))
    (flowCache : Std.HashSet Flow) : Prop where
  judged : Judged acls past
  /-- The flows that are kept are those of the packets let through. -/
  kept : ∀ f, f ∈ flowCache ↔ ∃ packet, (packet, true) ∈ past ∧ HasFlow packet f

/-- A packet let through is of a connection that some packet opened, the packet itself or one
before it. -/
def Opened (acls : List Acl) (past : List (List UInt8 × Bool)) : Prop :=
  ∀ before packet after, past = before ++ (packet, true) :: after →
    ∃ earlier opener later, before ++ [(packet, true)] = earlier ++ (opener, true) :: later ∧
      ∃ f g, HasFlow packet f ∧ HasFlow opener g ∧ SameConnection g f ∧ Opens acls earlier g

/-- By induction on how many packets came before: a packet that a rule let through because its
connection was established has one of that connection before it. -/
theorem opened_of_judged {acls : List Acl} {past : List (List UInt8 × Bool)}
    (h : Judged acls past) : Opened acls past := by
  intro before
  induction hn : before.length using Nat.strong_induction_on generalizing before with
  | _ n ih =>
    intro packet after hpast
    obtain ⟨flow, hflow, hpass⟩ := h before packet true after hpast
    obtain ⟨acl, hfirst, hdrop⟩ := hpass.mp rfl
    by_cases hest : acl.established = some true
    · -- the rule applies, so an earlier packet of the connection was let through
      obtain ⟨-, -, -, happlies, -⟩ := hfirst
      obtain ⟨packet', hmem, g, hg, hsame⟩ := (happlies.2 true hest).mpr rfl
      obtain ⟨before', after', rfl⟩ := List.append_of_mem hmem
      have hlt : before'.length < n := by
        rw [← hn, List.length_append, List.length_cons]
        omega
      obtain ⟨earlier, opener, later, heq, g', k, hg', hk, hsame', hopens⟩ :=
        ih _ hlt before' rfl packet' (after' ++ (packet, true) :: after) (by
          rw [hpast, List.append_assoc]
          rfl)
      cases hg.unique hg'
      refine ⟨earlier, opener, later ++ (after' ++ [(packet, true)]), ?_, flow, k, hflow, hk,
        hsame'.trans hsame, hopens⟩
      have hall := congrArg (· ++ (after' ++ [(packet, true)])) heq
      simpa using hall
    · exact ⟨before, packet, [], rfl, flow, flow, hflow, hflow, .inl rfl, acl, hfirst, hdrop, hest⟩

theorem Guarded.step {acls : List Acl} {past : List (List UInt8 × Bool)}
    {flowCache : Std.HashSet Flow} (h : Guarded acls past flowCache) {packet : List UInt8}
    {flow : Flow} (hflow : HasFlow packet flow) :
    Guarded acls (past ++ [(packet, (judge flow flowCache acls).1)])
      (judge flow flowCache acls).2 := by
  have hest : Established past flow ↔ flow ∈ flowCache ∨ flow.reverseFlow ∈ flowCache := by
    rw [h.kept, h.kept]
    constructor
    · rintro ⟨p, hp, g, hg, rfl | rfl⟩
      · exact .inl ⟨p, hp, hg⟩
      · exact .inr ⟨p, hp, hg⟩
    · rintro (⟨p, hp, hg⟩ | ⟨p, hp, hg⟩)
      · exact ⟨p, hp, _, hg, .inl rfl⟩
      · exact ⟨p, hp, _, hg, .inr rfl⟩
  obtain ⟨hpass, hcache⟩ := judge_iff hest acls
  constructor
  · intro before p pass after heq
    rcases List.eq_nil_or_concat after with rfl | ⟨after, last, rfl⟩
    · -- the packet just judged
      obtain ⟨rfl, hlast⟩ := List.append_inj' heq rfl
      cases hlast
      exact ⟨flow, hflow, hpass⟩
    · rw [List.concat_eq_append, ← List.cons_append, ← List.append_assoc] at heq
      exact h.judged before p pass after (List.append_inj' heq rfl).1
  · intro f
    rw [hcache]
    cases (judge flow flowCache acls).1 with
    | false => simpa using h.kept f
    | true =>
      simp only [if_true, Std.HashSet.mem_insert, beq_iff_eq, h.kept, List.mem_append,
        List.mem_singleton, Prod.mk.injEq, and_true, or_and_right, exists_or, exists_eq_left]
      rw [or_comm]
      refine or_congr_right ⟨?_, fun hf => ?_⟩
      · rintro rfl
        exact hflow
      · exact hflow.unique hf

/-- For any rules and any packets with a flow, the closure returns a verdict for each of them.
Every verdict is that of the first rule that applies, given the packets before, the flows kept
are those of the packets let through, and every packet let through is of a connection that some
packet up to it opened. -/
theorem connections_are_opened (acls : List Acl) (packets : List (List UInt8))
    (hflow : ∀ p ∈ packets, ∃ f, HasFlow p f) :
    ∃ passes flowCache, runOps (aclFilter acls) ∅ packets = .ok (passes, flowCache) ∧
      passes.length = packets.length ∧ Guarded acls (packets.zip passes) flowCache ∧
      Opened acls (packets.zip passes) := by
  have hstep : ∀ past flowCache (p : List UInt8), Guarded acls past flowCache →
      (∃ f, HasFlow p f) → Ends (fun _ => False)
        (fun r => Guarded acls (past ++ [(p, r.1)]) r.2) (aclFilter acls flowCache p) := by
    rintro past flowCache p hg ⟨f, hf⟩
    rw [aclFilter, hf, bind_ok]
    exact hg.step hf
  have hnew : Guarded acls [] ∅ := ⟨by simp [Judged], by simp⟩
  obtain ⟨r, hr, hlen, hg⟩ := (runOps_ends hstep packets [] hnew hflow).exists_ok
  rw [List.nil_append] at hg
  exact ⟨r.1, r.2, hr, hlen, hg, opened_of_judged hg.judged⟩

end Runs

/-- Packets of established connections, and all packets of 10.0.0.1. -/
def outboundRules : List Acl :=
  [⟨none, none, none, none, some true, false⟩,
    ⟨some ⟨0x0a000001, 32, 0xffffffff⟩, none, none, none, none, false⟩]

/-- A UDP packet from 10.0.0.2, port 9, to 10.0.0.1, port 7. -/
def replyPacket : List UInt8 :=
  [0x45, 0, 0, 24, 0, 0, 0, 0, 64, 17, 0, 0, 10, 0, 0, 2, 10, 0, 0, 1, 0, 9, 0, 7]

/-- A reply that comes before the packet it answers is dropped, and the same one behind it is let
through. -/
theorem connections_are_opened_reply : letI := networkOrder
    ∃ flowCache, runOps (aclFilter outboundRules) ∅
        [replyPacket, Headers.udpPacket, replyPacket] = .ok ([false, true, true], flowCache) ∧
      Opened outboundRules [(replyPacket, false), (Headers.udpPacket, true),
        (replyPacket, true)] := by
  let _ := networkOrder
  have hreply : HasFlow replyPacket ⟨0x0a000002, 0x0a000001, 7, 9, 17⟩ := by
    unfold HasFlow
    decide
  have hudp : HasFlow Headers.udpPacket ⟨0x0a000001, 0x0a000002, 9, 7, 17⟩ := by
    unfold HasFlow
    decide
  obtain ⟨passes, flowCache, hrun, hlen, hg, hopened⟩ := connections_are_opened outboundRules
    [replyPacket, Headers.udpPacket, replyPacket] (by
      simp only [List.forall_mem_cons, List.not_mem_nil, false_imp_iff, implies_true, and_true]
      exact ⟨⟨_, hreply⟩, ⟨_, hudp⟩, ⟨_, hreply⟩⟩)
  have heval : ∃ flowCache, runOps (aclFilter outboundRules) ∅
      [replyPacket, Headers.udpPacket, replyPacket] = .ok ([false, true, true], flowCache) := by
    have hinside : Ipv4Prefix.inRange ⟨0x0a000001, 32, 0xffffffff⟩ 0x0a000001 = true := by decide
    have houtside : Ipv4Prefix.inRange ⟨0x0a000001, 32, 0xffffffff⟩ 0x0a000002 = false := by decide
    unfold HasFlow at hreply hudp
    simp [runOps, aclFilter, hreply, hudp, judge, outboundRules, Acl.matches, Acl.covers, hinside,
      houtside, Flow.reverseFlow]
  obtain ⟨_, heval⟩ := heval
  rw [heval] at hrun
  cases hrun
  exact ⟨_, heval, hopened⟩

end NetBricks.Nf
