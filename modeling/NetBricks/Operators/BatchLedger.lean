import NetBricks.Lib.Machine
import NetBricks.Operators.BatchDrops
import NetBricks.Operators.Ownership

/-!
# Every mbuf of a batch is given away once

The calls on a `PacketBatch` as a machine: `recv`, `send_q`, `drop_packets` and
`deallocate_batch`, which is also what the destructor does, in any order. What a batch
owns are the mbufs in its array and those in `scratch`. A call keeps the ledger when
what it takes from the batch is what it sends or frees (`Balanced`).

Two calls do not keep it:

* a `recv` that fails leaves the whole allocation exposed, with the pointers that the
  call itself has just freed (`recv_eq_of_error`);
* a `drop_packets` that finds some indices and not all of them leaves the last packets
  of the array in it twice, or once there and once in `scratch`
  (`dropPacketsStable_missing`).

Without these (`Clean`) every run keeps the ledger (`run_balanced`): no mbuf is sent or
freed more often than it was received.
-/

namespace NetBricks.Operators

open Lib
open Lib.Outcome
open Interface

namespace PacketBatch

variable {σ : Type}

/-! ## The calls -/

/-- A call on a batch. -/
inductive Call where
  | recv (queue : Nat)
  | send
  | drop (idxes : List Nat)
  | deallocate

/-- What it returns. -/
inductive Reply where
  | received (r : Except ErrorKind Nat)
  | sent (r : Except ErrorKind Nat)
  | dropped (r : Option Nat)
  | deallocated

/-- Make a call. -/
def call (s : PacketBatch × World σ) : Call → Outcome (Reply × PacketBatch × World σ)
  | .recv queue => do
    let (r, s) ← s.1.recv queue s.2
    .ok (.received r, s)
  | .send => do
    let (r, s) ← s.1.sendQ s.2
    .ok (.sent r, s)
  | .drop idxes => do
    let (r, s) ← s.1.dropPacketsStable idxes s.2
    .ok (.dropped r, s)
  | .deallocate => do
    let s ← s.1.freePacketBatch s.2
    .ok (.deallocated, s)

/-- The calls after which the books are right. A receive does not fail, since a failed one
leaves the length at the capacity; and the indices to drop are in order and all there, or none
of them is, since an index that is missed leaves packets both in the array and among those to be
freed. -/
def Clean (s : PacketBatch × World σ) : Call → Prop
  | .recv queue => s.1.array.capacity = 0 ∨ ∀ e rest, s.2.rx queue ≠ .error e :: rest
  | .drop idxes => idxes.Pairwise (· < ·) ∧
    ((∀ i ∈ idxes, i < s.1.available) ∨ ∀ i ∈ idxes, s.1.available ≤ i)
  | _ => True

/-! ## The ledger -/

/-- The mbufs a batch owns. -/
def owned (p : PacketBatch) : Multiset Ptr := (p.array.toList : Multiset Ptr) + p.scratch

/-- What was owned or came in between the two states is sent, freed or still owned: as
multisets, so that nothing is lost and nothing is given away twice. -/
def Balanced (s s' : PacketBatch × World σ) : Prop :=
  (s'.2.received : Multiset Ptr) + spent s.2 + owned s.1 = s.2.received + spent s'.2 + owned s'.1

/-- No mbuf is sent or freed more often than it was owned or came in. -/
def GivenOnce (s s' : PacketBatch × World σ) : Prop :=
  ∀ ptr, (spent s'.2).count ptr + s.2.received.count ptr ≤
    (spent s.2).count ptr + s'.2.received.count ptr + (owned s.1).count ptr

theorem Balanced.givenOnce {s s' : PacketBatch × World σ} (h : Balanced s s') : GivenOnce s s' := by
  intro ptr
  have hcount := congrArg (Multiset.count ptr) h
  simp only [Multiset.count_add, Multiset.coe_count] at hcount
  omega

theorem Balanced.trans {s₀ s₁ s₂ : PacketBatch × World σ} (h₁ : Balanced s₀ s₁)
    (h₂ : Balanced s₁ s₂) : Balanced s₀ s₂ := by
  unfold Balanced at h₁ h₂ ⊢
  apply add_right_cancel (b := (s₁.2.received : Multiset Ptr) + spent s₁.2 + owned s₁.1)
  calc (s₂.2.received : Multiset Ptr) + spent s₀.2 + owned s₀.1 +
        (s₁.2.received + spent s₁.2 + owned s₁.1)
      = (s₁.2.received + spent s₀.2 + owned s₀.1) +
          (s₂.2.received + spent s₁.2 + owned s₁.1) := by abel
    _ = (s₀.2.received + spent s₁.2 + owned s₁.1) +
          (s₁.2.received + spent s₂.2 + owned s₂.1) := by rw [h₁, h₂]
    _ = _ := by abel

theorem balanced_refl (s : PacketBatch × World σ) : Balanced s s := rfl

theorem balanced_free {p p' : PacketBatch} (hlist : p'.array.toList = []) (hk : Keeps p p')
    (w : World σ) : Balanced (p, w) (p', w.free p.array.toList) := by
  unfold Balanced owned spent World.free
  dsimp only
  rw [hlist, hk.scratch_eq, ← Multiset.coe_add, Multiset.coe_nil]
  abel

/-- Freeing what waits, and what is taken from the array. -/
theorem balanced_drop {p p' : PacketBatch} {gone : List Ptr}
    (hsplit : p.array.toList.Perm (gone ++ p'.array.toList)) (hscratch : p'.scratch = [])
    (w : World σ) : Balanced (p, w) (p', w.drop (p.scratch ++ gone)) := by
  unfold Balanced owned spent World.drop
  dsimp only
  rw [hscratch, Multiset.coe_eq_coe.mpr hsplit, ← Multiset.coe_add, ← Multiset.coe_add,
    ← Multiset.coe_add, Multiset.coe_nil]
  abel

/-- Nothing is freed or received, and the packets the port has taken are gone. -/
theorem balanced_send {p p' : PacketBatch} {w w' : World σ} {n : Nat}
    (hres : w.send p.array.toList = (.ok n, w')) (hlist : p'.array.toList = p.array.toList.drop n)
    (hk : Keeps p p') : Balanced (p, w) (p', w') := by
  have hsplit : (p.array.toList : Multiset Ptr) =
      p.array.toList.take n + p.array.toList.drop n := by
    rw [Multiset.coe_add, List.take_append_drop]
  unfold Balanced owned spent
  dsimp only
  rw [hlist, hk.scratch_eq, hsplit]
  unfold World.send at hres
  split at hres
  · cases hres
    rw [List.take_zero, Multiset.coe_nil, zero_add]
  · cases hres
  · cases hres
    dsimp only
    rw [← Multiset.coe_add]
    abel

theorem balanced_send_error {p : PacketBatch} {w w' : World σ} {e : ErrorKind}
    (hres : w.send p.array.toList = (.error e, w')) : Balanced (p, w) (p, w') := by
  unfold World.send at hres
  split at hres
  · cases hres
  · cases hres
    rfl
  · cases hres

/-- What was received is in the batch. -/
theorem balanced_recv {p p' : PacketBatch} {w w' : World σ} {queue room : Nat} {pkts : List Ptr}
    (hempty : p.array.toList = []) (hres : w.recv queue room = (.ok pkts, w'))
    (hlist : p'.array.toList = pkts) (hk : Keeps p p') : Balanced (p, w) (p', w') := by
  unfold Balanced owned spent
  dsimp only
  rw [hlist, hk.scratch_eq, hempty, Multiset.coe_nil]
  unfold World.recv at hres
  split at hres
  · cases hres
    rfl
  · cases hres
  · cases hres
    dsimp only
    rw [← Multiset.coe_add]
    abel

/-- A receive that fails is the answer of the queue. -/
theorem rx_of_recv_error {w w' : World σ} {queue room : Nat} {e : ErrorKind}
    (hres : w.recv queue room = (.error e, w')) :
    ∃ rest, w.rx queue = .error e :: rest ∧
      w' = { w with rx := Function.update w.rx queue rest } := by
  unfold World.recv at hres
  split at hres
  · cases hres
  · next hrx =>
    cases hres
    exact ⟨_, hrx, rfl⟩
  · cases hres

/-! ## One call -/

/-- The positions in a list and the others divide the packets. -/
theorem perm_packetsAt (idxes : List Nat) (pkts : List Ptr) :
    pkts.Perm (packetsAt (· ∈ idxes) 0 pkts ++ packetsAt (· ∉ idxes) 0 pkts) := by
  obtain ⟨hkept, hgone⟩ := select_verdictsOf idxes 0 pkts
  rw [← hkept, ← hgone]
  exact perm_select (length_verdictsOf idxes 0 pkts.length).symm

/-- When nothing is found nothing changes. -/
theorem dropPacketsStable_none {p : PacketBatch} {idxes : List Nat} (hne : idxes ≠ [])
    (hsorted : idxes.Pairwise (· < ·)) (hnone : ∀ i ∈ idxes, p.available ≤ i) (w : World σ) :
    p.dropPacketsStable idxes w = .ok (none, p, w) := by
  obtain ⟨i, hi⟩ := List.exists_mem_of_ne_nil idxes hne
  obtain ⟨⟨array, scratch⟩, hdrop, hlen, hslots, hscratch⟩ :=
    dropPacketsStable_missing hsorted ⟨i, hi, hnone i hi⟩ w
  obtain ⟨hkept, hgone⟩ := packetsAt_of_none hsorted hnone
  rw [hgone, List.append_nil] at hscratch
  rw [hkept, Compacted, p.array.length_toList, ← p.array.slots_eq] at hslots
  have harray : array = p.array := RawVec.eq_of_slots hslots hlen
  rw [hdrop, harray]
  dsimp only at hscratch
  rw [hscratch]

theorem call_recv_balanced {p : PacketBatch} {w : World σ} {queue : Nat}
    (hclean : Clean (p, w) (.recv queue)) :
    ∃ r s', p.recv queue w = .ok (r, s') ∧ Balanced (p, w) s' := by
  obtain ⟨p₁, -, hempty, hk⟩ := freePacketBatch_eq p w
  have hfree := balanced_free hempty hk w
  rcases hres : (w.free p.array.toList).recv queue p.array.capacity with ⟨e | pkts, w'⟩
  · obtain ⟨p', hrecv, hlen, hk'⟩ := recv_eq_of_error hres
    obtain ⟨rest, hrx, rfl⟩ := rx_of_recv_error hres
    rcases hclean with hcap | hno
    · have hnil : p'.array.toList = [] := RawVec.toList_eq_nil.mpr (hlen.trans hcap)
      exact ⟨_, _, hrecv, balanced_free hnil hk' w⟩
    · exact absurd hrx (hno e rest)
  · obtain ⟨p', hrecv, hlist, hk'⟩ := recv_eq_of_ok hres
    refine ⟨_, _, hrecv, hfree.trans (balanced_recv hempty hres hlist ?_)⟩
    exact ⟨hk'.capacity_eq.trans hk.capacity_eq.symm, hk'.scratch_eq.trans hk.scratch_eq.symm⟩

theorem call_send_balanced (p : PacketBatch) (w : World σ) :
    ∃ r s', p.sendQ w = .ok (r, s') ∧ Balanced (p, w) s' := by
  rcases sendQ_eq p w with ⟨-, hsend⟩ | ⟨-, e, w', hres, hsend⟩ |
    ⟨-, sent, w', p', hres, hsend, hlist, hk⟩
  · exact ⟨_, _, hsend, balanced_refl _⟩
  · exact ⟨_, _, hsend, balanced_send_error hres⟩
  · exact ⟨_, _, hsend, balanced_send hres hlist hk⟩

theorem call_drop_balanced {p : PacketBatch} {w : World σ} {idxes : List Nat}
    (hclean : Clean (p, w) (.drop idxes)) :
    ∃ r s', p.dropPacketsStable idxes w = .ok (r, s') ∧ Balanced (p, w) s' := by
  obtain ⟨hsorted, hwhere⟩ := hclean
  by_cases hne : idxes = []
  · exact ⟨_, _, if_pos hne, balanced_refl _⟩
  · rcases hwhere with hfound | hnone
    · obtain ⟨p', hdrop, hlist, hscratch⟩ := dropPacketsStable_found hne hsorted hfound w
      refine ⟨_, _, hdrop, balanced_drop ?_ hscratch w⟩
      rw [hlist]
      exact perm_packetsAt idxes p.array.toList
    · exact ⟨_, _, dropPacketsStable_none hne hsorted hnone w, balanced_refl _⟩

/-- A clean call returns and keeps the ledger. -/
theorem call_balanced {s : PacketBatch × World σ} {c : Call} (hclean : Clean s c) :
    ∃ r s', call s c = .ok (r, s') ∧ Balanced s s' := by
  obtain ⟨p, w⟩ := s
  cases c with
  | recv queue =>
    obtain ⟨r, s', hrecv, hb⟩ := call_recv_balanced hclean
    exact ⟨.received r, s', by rw [call, hrecv]; rfl, hb⟩
  | send =>
    obtain ⟨r, s', hsend, hb⟩ := call_send_balanced p w
    exact ⟨.sent r, s', by rw [call, hsend]; rfl, hb⟩
  | drop idxes =>
    obtain ⟨r, s', hdrop, hb⟩ := call_drop_balanced hclean
    exact ⟨.dropped r, s', by rw [call, hdrop]; rfl, hb⟩
  | deallocate =>
    obtain ⟨p', hfree, hempty, hk⟩ := freePacketBatch_eq p w
    exact ⟨.deallocated, _, by rw [call, hfree]; rfl, balanced_free hempty hk w⟩

/-! ## Whole runs -/

/-- A run of clean calls returns and keeps the ledger. -/
theorem run_balanced {calls : List Call} {s : PacketBatch × World σ}
    (hclean : Meets call Clean s calls) :
    ∃ rs s', runOps call s calls = .ok (rs, s') ∧ Balanced s s' := by
  have hstep : ∀ s₁ c r s₂, Balanced s s₁ → Clean s₁ c → call s₁ c = .ok (r, s₂) →
      Balanced s s₂ := by
    intro s₁ c r s₂ hs₁ hc hcall
    obtain ⟨r', s₂', hcall', hb⟩ := call_balanced hc
    rw [hcall] at hcall'
    cases hcall'
    exact hs₁.trans hb
  have hpanic : ∀ s₁ c w, Balanced s s₁ → Clean s₁ c → call s₁ c ≠ .panic w := by
    intro s₁ c w _ hc hcall
    obtain ⟨r, s₂, hcall', -⟩ := call_balanced hc
    rw [hcall'] at hcall
    cases hcall
  have htimeout : ∀ s₁ c, Balanced s s₁ → Clean s₁ c → call s₁ c ≠ .timeout := by
    intro s₁ c _ hc hcall
    obtain ⟨r, s₂, hcall', -⟩ := call_balanced hc
    rw [hcall'] at hcall
    cases hcall
  cases hrun : runOps call s calls with
  | ok r => exact ⟨r.1, r.2, rfl, runOps_invariant hstep calls (balanced_refl s) hclean hrun⟩
  | panic w => exact absurd hrun (runOps_ne_panic hstep hpanic calls (balanced_refl s) hclean)
  | timeout => exact absurd hrun (runOps_ne_timeout hstep htimeout calls (balanced_refl s) hclean)

/-! ## A drop that fails -/

/-- What the batch owns after a drop that fails: what it owned, and the last packets once
more for each index that was found. -/
theorem count_missing {p p' : PacketBatch} {idxes : List Nat} (hlen : p'.array.len = p.array.len)
    (hslots : Compacted p.array.slots (packetsAt (· ∉ idxes) 0 p.array.toList) p'.array)
    (hscratch : p'.scratch = p.scratch ++ packetsAt (· ∈ idxes) 0 p.array.toList) (ptr : Ptr) :
    (p'.array.toList ++ p'.scratch).count ptr = (p.array.toList ++ p.scratch).count ptr +
      (p.array.toList.drop (packetsAt (· ∉ idxes) 0 p.array.toList).length).count ptr := by
  have hperm := perm_packetsAt idxes p.array.toList
  have hle : (packetsAt (· ∉ idxes) 0 p.array.toList).length ≤ p.array.len := by
    have := hperm.length_eq
    rw [List.length_append, p.array.length_toList] at this
    omega
  have hcount := hperm.count_eq ptr
  rw [List.count_append] at hcount
  rw [hslots.toList hlen hle, hscratch, List.count_append, List.count_append, List.count_append,
    List.count_append]
  omega

/-- A drop that fails leaves every mbuf of the batch in it exactly once if and only if it
has found no index at all; the batch is then as it was, and clean calls later on give no
mbuf away twice. -/
theorem dropPacketsStable_missing_iff {p : PacketBatch} {idxes : List Nat}
    (hsorted : idxes.Pairwise (· < ·)) (hmissing : ∃ i ∈ idxes, p.available ≤ i)
    (hnodup : (p.array.toList ++ p.scratch).Nodup) (w : World σ) :
    ∃ p', p.dropPacketsStable idxes w = .ok (none, p', w) ∧
      ((∀ ptr ∈ p.array.toList ++ p.scratch, (p'.array.toList ++ p'.scratch).count ptr = 1) ↔
        ∀ i ∈ idxes, p.available ≤ i) ∧
      ((∀ i ∈ idxes, p.available ≤ i) → ∀ calls, Meets call Clean (p', w) calls →
        ∃ rs s, runOps call (p', w) calls = .ok (rs, s) ∧ GivenOnce (p, w) s) := by
  obtain ⟨p', hdrop, hlen, hslots, hscratch⟩ := dropPacketsStable_missing hsorted hmissing w
  have hsame : (∀ i ∈ idxes, p.available ≤ i) → p' = p := by
    intro hnone
    obtain ⟨i, hi, -⟩ := hmissing
    rw [dropPacketsStable_none (List.ne_nil_of_mem hi) hsorted hnone w] at hdrop
    cases hdrop
    rfl
  refine ⟨p', hdrop, ⟨fun hone i hi => ?_, fun hnone ptr hptr => ?_⟩, fun hnone calls hclean => ?_⟩
  · by_contra hfound
    have hlt : i < p.array.toList.length := by
      rw [p.array.length_toList]
      exact Nat.not_le.mp hfound
    -- an index was found, so the packets that stay are fewer than those there were
    have hgone : 0 < (packetsAt (· ∈ idxes) 0 p.array.toList).length := by
      rw [length_packetsAt hsorted]
      exact List.length_pos_of_mem (List.mem_filter.mpr ⟨hi, decide_eq_true hlt⟩)
    have hsplit := (perm_packetsAt idxes p.array.toList).length_eq
    rw [List.length_append] at hsplit
    obtain ⟨ptr, hlast⟩ : ∃ ptr,
        ptr ∈ p.array.toList.drop (packetsAt (· ∉ idxes) 0 p.array.toList).length := by
      refine List.exists_mem_of_length_pos ?_
      rw [List.length_drop]
      omega
    have hptr : ptr ∈ p.array.toList ++ p.scratch :=
      List.mem_append_left _ (List.mem_of_mem_drop hlast)
    have hcount := count_missing hlen hslots hscratch ptr
    have hbefore := List.count_pos_iff.mpr hptr
    have hagain := List.count_pos_iff.mpr hlast
    have := hone ptr hptr
    omega
  · rw [hsame hnone]
    exact List.count_eq_one_of_mem hnodup hptr
  · rw [hsame hnone] at hclean ⊢
    obtain ⟨rs, s, hrun, hb⟩ := run_balanced hclean
    exact ⟨rs, s, hrun, hb.givenOnce⟩

/-- Two indices that are both behind the end. -/
theorem dropPacketsStable_none_of_five :
    ∃ p', fivePackets.dropPacketsStable [7, 9] stillWorld = .ok (none, p', stillWorld) ∧
      ∀ ptr ∈ [1, 2, 3, 4, 5], (p'.array.toList ++ p'.scratch).count ptr = 1 := by
  obtain ⟨p', hdrop, hiff, -⟩ := @dropPacketsStable_missing_iff Unit fivePackets [7, 9] (by decide)
    ⟨7, by decide, by decide⟩ (by decide) stillWorld
  exact ⟨p', hdrop, hiff.mpr (by decide)⟩

/-- The first of five packets and one that is not there: the destructor frees the fifth
packet twice. -/
theorem dropPacketsStable_doubles_last :
    ∃ p', fivePackets.dropPacketsStable [0, 9] stillWorld = .ok (none, p', stillWorld) ∧
      p'.array.toList = [2, 3, 4, 5, 5] ∧ p'.scratch = [1] ∧
      ∃ p'', p'.freePacketBatch stillWorld = .ok (p'', stillWorld.free [2, 3, 4, 5, 5]) :=
  ⟨_, rfl, rfl, rfl, _, rfl⟩

/-! ## A receive that fails -/

/-- After a receive the batch holds exactly what was received, and nothing if it
failed. -/
def HoldsReceived (w : World σ) (r : Except ErrorKind Nat) (p' : PacketBatch) (w' : World σ) :
    Prop :=
  match r with
  | .ok n => p'.array.len = n ∧ w'.received = w.received ++ p'.array.toList
  | .error _ => p'.array.toList = []

theorem received_of_recv_ok {w w' : World σ} {queue room : Nat} {pkts : List Ptr}
    (hres : w.recv queue room = (.ok pkts, w')) : w'.received = w.received ++ pkts := by
  unfold World.recv at hres
  split at hres
  · cases hres
    exact (List.append_nil _).symm
  · cases hres
  · cases hres
    rfl

theorem rx_of_recv_ok {w w' : World σ} {queue room : Nat} {pkts : List Ptr}
    (hres : w.recv queue room = (.ok pkts, w')) :
    ∀ e rest, w.rx queue ≠ .error e :: rest := by
  intro e rest hanswer
  rw [World.recv, hanswer] at hres
  cases hres

/-- A receive leaves the right batch if and only if there is no room for any packet or the port's
next answer for the queue is not an error. Calls that are clean, which asks for this of every
receive, give no mbuf away twice, whatever the batch held at the start. -/
theorem recv_settles_iff :
    (∀ (p : PacketBatch) (queue : Nat) (w : World σ), ∃ r p' w', p.recv queue w = .ok (r, p', w') ∧
      (HoldsReceived w r p' w' ↔
        p.array.capacity = 0 ∨ ∀ e rest, w.rx queue ≠ .error e :: rest)) ∧
    ∀ (s : PacketBatch × World σ) (calls : List Call), Meets call Clean s calls →
      ∃ rs s', runOps call s calls = .ok (rs, s') ∧ GivenOnce s s' := by
  constructor
  · intro p queue w
    rcases hres : (w.free p.array.toList).recv queue p.array.capacity with ⟨e | pkts, w'⟩
    · obtain ⟨p', hrecv, hlen, -⟩ := recv_eq_of_error hres
      refine ⟨_, p', w', hrecv, ?_⟩
      obtain ⟨rest, hanswer, -⟩ := rx_of_recv_error hres
      show p'.array.toList = [] ↔ _
      rw [RawVec.toList_eq_nil, hlen]
      exact ⟨.inl, fun h => h.resolve_right fun hfine => hfine e rest hanswer⟩
    · obtain ⟨p', hrecv, hlist, -⟩ := recv_eq_of_ok hres
      have hfine : ∀ e rest, w.rx queue ≠ .error e :: rest :=
        rx_of_recv_ok (w := w.free p.array.toList) hres
      refine ⟨_, p', w', hrecv, fun _ => .inr hfine, fun _ => ⟨?_, ?_⟩⟩
      · rw [← hlist, p'.array.length_toList]
      · have hlog := received_of_recv_ok hres
        rw [hlist]
        exact hlog
  · intro s calls hclean
    obtain ⟨rs, s', hrun, hb⟩ := run_balanced hclean
    exact ⟨rs, s', hrun, hb.givenOnce⟩

/-- A queue that brings two packets and then fails. -/
def failingWorld : World Unit :=
  let m : MBuf := { bufAddr := 0, buf := [], dataOff := 0, dataLen := 0, slots := [] }
  { stillWorld with rx := fun _ => [.ok [(1, m), (2, m)], .error .failedAllocation] }

/-- Two packets are received, one is dropped and one is sent. -/
theorem recv_settles_two :
    ∃ rs s', runOps call (new [0, 0], failingWorld) [.recv 0, .drop [0], .send, .deallocate] =
      .ok (rs, s') ∧ GivenOnce (new [0, 0], failingWorld) s' := by
  refine recv_settles_iff.2 _ _ ?_
  refine .cons (.inr (by nofun)) rfl (.cons ?_ rfl (.cons trivial rfl (.cons trivial rfl trivial)))
  exact ⟨by decide, .inl (by decide)⟩

/-- Two packets are received; the next receive frees them and fails; they are freed again
with the batch. -/
theorem recv_error_frees_twice :
    ∃ rs s', runOps call (new [0, 0], failingWorld) [.recv 0, .recv 0, .deallocate] = .ok (rs, s') ∧
      s'.2.received = [1, 2] ∧ s'.2.freed = [1, 2, 1, 2] :=
  ⟨_, _, rfl, rfl, rfl⟩

end PacketBatch

end NetBricks.Operators
