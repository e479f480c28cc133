import Mathlib.Data.List.Sort
import NetBricks.Operators.PacketBatch

/-!
# What `drop_packets` does to a batch

`drop_packets_stable` of `src/framework/src/operators/packet_batch.rs` for every
strictly increasing list of indices. When all of them are there the packets at those
positions are freed and the others stay in order (`dropPacketsStable_found`). When one
is not there the call returns `None`, but the compaction has been done: what was to be
freed is in `scratch`, the others have moved to the front, and the array has not been
cut, so its last slots still have what was in them (`dropPacketsStable_missing`).

The loops are described by one verdict for each packet (`verdictsOf`); the index list is
what the verdicts reject.
-/

namespace NetBricks.Operators

open Lib
open Lib.Outcome
open Interface

namespace PacketBatch

variable {σ : Type}

/-! ## Positions -/

/-- The packets at the positions that satisfy `P`, in order; the first one is at
`start`. -/
def packetsAt (P : Nat → Prop) [DecidablePred P] : Nat → List Ptr → List Ptr
  | _, [] => []
  | start, pkt :: pkts =>
    if P start then pkt :: packetsAt P (start + 1) pkts else packetsAt P (start + 1) pkts

/-- One verdict for each of `n` positions from `start` on: those in the list are rejected. -/
def verdictsOf (idxes : List Nat) (start n : Nat) : List Bool :=
  (List.range' start n).map (fun i => decide (i ∉ idxes))

theorem verdictsOf_succ (idxes : List Nat) (start n : Nat) :
    verdictsOf idxes start (n + 1) = decide (start ∉ idxes) :: verdictsOf idxes (start + 1) n := by
  rw [verdictsOf, List.range'_succ, List.map_cons]
  rfl

theorem length_verdictsOf (idxes : List Nat) (start n : Nat) :
    (verdictsOf idxes start n).length = n := by
  rw [verdictsOf, List.length_map, List.length_range']

/-- The two kinds of packets by their positions. -/
theorem select_verdictsOf (idxes : List Nat) : ∀ (start : Nat) (pkts : List Ptr),
    select true (verdictsOf idxes start pkts.length) pkts = packetsAt (· ∉ idxes) start pkts ∧
      select false (verdictsOf idxes start pkts.length) pkts =
        packetsAt (· ∈ idxes) start pkts := by
  intro start pkts
  induction pkts generalizing start with
  | nil => exact ⟨rfl, rfl⟩
  | cons pkt pkts ih =>
    obtain ⟨hkept, hgone⟩ := ih (start + 1)
    rw [List.length_cons, verdictsOf_succ, packetsAt, packetsAt]
    by_cases hmem : start ∈ idxes
    · rw [if_neg (not_not_intro hmem), if_pos hmem, decide_eq_false (not_not_intro hmem),
        select_cons_self, select_cons_ne (by decide), hkept, hgone]
      exact ⟨rfl, rfl⟩
    · rw [if_pos hmem, if_neg hmem, decide_eq_true hmem, select_cons_self,
        select_cons_ne (by decide), hkept, hgone]
      exact ⟨rfl, rfl⟩

theorem rejectedFrom_verdictsOf (idxes : List Nat) : ∀ n start : Nat,
    rejectedFrom start (verdictsOf idxes start n) =
      (List.range' start n).filter (fun i => decide (i ∈ idxes)) := by
  intro n
  induction n with
  | zero => intro start; rfl
  | succ n ih =>
    intro start
    rw [verdictsOf_succ, List.range'_succ]
    by_cases hmem : start ∈ idxes
    · rw [decide_eq_false (not_not_intro hmem), rejectedFrom, ih, List.filter_cons,
        if_pos (decide_eq_true hmem)]
    · rw [decide_eq_true hmem, rejectedFrom, ih, List.filter_cons,
        if_neg (fun h => hmem (of_decide_eq_true h))]

/-- What is rejected are the indices that are there. -/
theorem rejectedFrom_eq_filter {idxes : List Nat} (hsorted : idxes.Pairwise (· < ·)) (n : Nat) :
    rejectedFrom 0 (verdictsOf idxes 0 n) = idxes.filter (· < n) := by
  rw [rejectedFrom_verdictsOf]
  refine List.Pairwise.eq_of_mem_iff (r := (· < ·)) ?_ (hsorted.filter _) ?_
  · exact (List.pairwise_lt_range' ..).filter _
  · intro i
    rw [List.mem_filter, List.mem_filter, List.mem_range'_1, decide_eq_true_iff, decide_eq_true_iff]
    exact ⟨fun ⟨hlt, hmem⟩ => ⟨hmem, by omega⟩, fun ⟨hmem, hlt⟩ => ⟨by omega, hmem⟩⟩

/-- The indices that are there come first. -/
theorem filter_lt_append_filter_le {idxes : List Nat} (hsorted : idxes.Pairwise (· < ·)) (n : Nat) :
    idxes.filter (· < n) ++ idxes.filter (n ≤ ·) = idxes := by
  induction idxes with
  | nil => rfl
  | cons i idxes ih =>
    rw [List.pairwise_cons] at hsorted
    have hrest := ih hsorted.2
    by_cases hi : i < n
    · rw [List.filter_cons, if_pos (decide_eq_true hi), List.filter_cons,
        if_neg (fun h => absurd (of_decide_eq_true h) (by omega)), List.cons_append, hrest]
    · -- the others are greater still
      have hnone : idxes.filter (· < n) = [] := by
        rw [List.filter_eq_nil_iff]
        intro j hj hlt
        have := hsorted.1 j hj
        have := of_decide_eq_true hlt
        omega
      rw [hnone, List.nil_append] at hrest
      rw [List.filter_cons, if_neg (fun h => hi (of_decide_eq_true h)), hnone, List.nil_append,
        List.filter_cons, if_pos (decide_eq_true (by omega)), hrest]

theorem length_packetsAt {idxes : List Nat} (hsorted : idxes.Pairwise (· < ·)) (pkts : List Ptr) :
    (packetsAt (· ∈ idxes) 0 pkts).length = (idxes.filter (· < pkts.length)).length := by
  rw [← (select_verdictsOf idxes 0 pkts).2, ← rejectedFrom_eq_filter hsorted]
  exact length_select_false 0 (length_verdictsOf ..).symm

theorem packetsAt_of_none {idxes : List Nat} {array : RawVec Ptr}
    (hsorted : idxes.Pairwise (· < ·)) (hnone : ∀ i ∈ idxes, array.len ≤ i) :
    packetsAt (· ∉ idxes) 0 array.toList = array.toList ∧
      packetsAt (· ∈ idxes) 0 array.toList = [] := by
  have hnil : rejectedFrom 0 (verdictsOf idxes 0 array.toList.length) = [] := by
    rw [rejectedFrom_eq_filter hsorted, List.filter_eq_nil_iff, array.length_toList]
    intro i hi hlt
    exact absurd (of_decide_eq_true hlt) (Nat.not_lt.mpr (hnone i hi))
  obtain ⟨hkept, hgone⟩ := select_verdictsOf idxes 0 array.toList
  rw [← hkept, ← hgone]
  exact select_of_rejectedFrom_nil hnil (length_verdictsOf ..).symm

/-! ## All indices are there -/

/-- Some packets are dropped, and those that were waiting with them. -/
theorem dropPacketsStable_found {p : PacketBatch} {idxes : List Nat} (hne : idxes ≠ [])
    (hsorted : idxes.Pairwise (· < ·)) (hfound : ∀ i ∈ idxes, i < p.available) (w : World σ) :
    ∃ p', p.dropPacketsStable idxes w = .ok (some (p.scratch.length + idxes.length), p',
        w.drop (p.scratch ++ packetsAt (· ∈ idxes) 0 p.array.toList)) ∧
      p'.array.toList = packetsAt (· ∉ idxes) 0 p.array.toList ∧ p'.scratch = [] := by
  have hlen := length_verdictsOf idxes 0 p.array.toList.length
  have hidx : rejectedFrom 0 (verdictsOf idxes 0 p.array.toList.length) = idxes := by
    rw [rejectedFrom_eq_filter hsorted, List.filter_eq_self]
    intro i hi
    rw [p.array.length_toList]
    exact decide_eq_true (hfound i hi)
  obtain ⟨hkept, hgone⟩ := select_verdictsOf idxes 0 p.array.toList
  obtain ⟨p', hdrop, hlist, -, hscratch⟩ :=
    dropPacketsStable_rejected (w := w) hlen.symm (hidx.symm ▸ hne)
  rw [hidx, hgone] at hdrop
  exact ⟨p', hdrop, hlist.trans hkept, hscratch⟩

/-- `drop_packets_stable` is a stable deletion. With packets in `scratch`, from a call
that failed, these are freed and counted as well. -/
theorem dropPacketsStable_deletes {p : PacketBatch} {idxes : List Nat}
    (hsorted : idxes.Pairwise (· < ·)) (hfound : ∀ i ∈ idxes, i < p.available) (w : World σ) :
    ∃ r p' gone, p.dropPacketsStable idxes w = .ok (some r, p', w.drop gone) ∧
      p'.array.toList = packetsAt (· ∉ idxes) 0 p.array.toList ∧
      (p.scratch = [] → r = idxes.length ∧ gone = packetsAt (· ∈ idxes) 0 p.array.toList ∧
        p'.scratch = []) ∧
      (idxes ≠ [] → r = p.scratch.length + idxes.length ∧
        gone = p.scratch ++ packetsAt (· ∈ idxes) 0 p.array.toList ∧ p'.scratch = []) := by
  by_cases hnil : idxes = []
  · subst hnil
    obtain ⟨hkept, hgone⟩ := @packetsAt_of_none [] p.array hsorted (by nofun)
    refine ⟨0, p, [], ?_, hkept.symm, fun hs => ⟨rfl, hgone.symm, hs⟩, fun hne => absurd rfl hne⟩
    rw [dropPacketsStable, if_pos rfl, World.drop_nil]
  · obtain ⟨p', hdrop, hlist, hscratch⟩ := dropPacketsStable_found hnil hsorted hfound w
    refine ⟨_, p', _, hdrop, hlist, fun hs => ?_, fun _ => ⟨rfl, rfl, hscratch⟩⟩
    rw [hs]
    exact ⟨Nat.zero_add _, rfl, hscratch⟩

/-- Ports that neither bring nor take anything. -/
def stillWorld : World Unit :=
  { state := ()
    mem := fun _ => { bufAddr := 0, buf := [], dataOff := 0, dataLen := 0, slots := [] }
    rx := fun _ => []
    tx := [] }

/-- Five packets in an allocation of six. -/
def fivePackets : PacketBatch := { array := ⟨[1, 2, 3, 4, 5, 6], 5, by decide⟩, scratch := [] }

/-- The first, the third and the fourth packet go. -/
theorem dropPacketsStable_deletes_three :
    ∃ p', fivePackets.dropPacketsStable [0, 2, 3] stillWorld =
        .ok (some 3, p', stillWorld.drop [1, 3, 4]) ∧
      p'.array.toList = [2, 5] ∧ p'.scratch = [] := by
  obtain ⟨r, p', gone, hdrop, hlist, hret, -⟩ :=
    @dropPacketsStable_deletes Unit fivePackets [0, 2, 3] (by decide) (by decide) stillWorld
  obtain ⟨rfl, rfl, hscratch⟩ := hret rfl
  exact ⟨p', hdrop, hlist, hscratch⟩

/-! ## An index that is not there -/

/-- The array when `front` has been moved to its start. -/
def Compacted (slots front : List Ptr) (array : RawVec Ptr) : Prop :=
  array.slots = front ++ slots.drop front.length

theorem Compacted.get {slots front : List Ptr} {array : RawVec Ptr} {k : Nat} {pkt : Ptr}
    (h : Compacted slots front array) (hle : front.length ≤ k) (hlt : k < array.len)
    (hpkt : slots[k]? = some pkt) : array.get k = .ok pkt := by
  rw [RawVec.get, if_pos hlt]
  refine index_of_some ?_
  rw [h, List.getElem?_append_right hle, List.getElem?_drop, Nat.add_sub_cancel' hle, hpkt]

theorem Compacted.set {slots front : List Ptr} {array : RawVec Ptr} (pkt : Ptr)
    (h : Compacted slots front array) (hlt : front.length < array.len) :
    ∃ array', array.set front.length pkt = .ok array' ∧ array'.len = array.len ∧
      Compacted slots (front ++ [pkt]) array' := by
  have hroom := array.fits
  refine ⟨_, if_pos hlt, rfl, ?_⟩
  rw [h, List.length_append, List.length_drop] at hroom
  unfold Compacted
  dsimp only
  rw [h, List.set_append_right _ _ (Nat.le_refl _), Nat.sub_self,
    List.drop_eq_getElem_cons (show front.length < slots.length by omega), List.set_cons_zero,
    List.length_append, List.length_singleton, List.append_assoc, List.singleton_append]

/-- The array is not cut: behind the front are the last ones of what it had. -/
theorem Compacted.toList {front : List Ptr} {array array' : RawVec Ptr}
    (h : Compacted array.slots front array') (hlen : array'.len = array.len)
    (hle : front.length ≤ array.len) :
    array'.toList = front ++ array.toList.drop front.length := by
  rw [RawVec.toList, RawVec.toList, h, hlen, List.take_append, List.take_of_length_le hle,
    List.drop_take]

/-- What the first loop of `drop_packets_stable` does with indices that are not there, from a
state in which `front` has been kept and `pkts`, from place `k` on, are still to be looked
at: it goes through the whole array. -/
def Passes (slots : List Ptr) (missing : List Nat) (verdicts : List Bool) (array : RawVec Ptr)
    (scratch front pkts : List Ptr) (k : Nat) : Prop :=
  ∃ array', dropLoop pkts.length array scratch k front.length
      (rejectedFrom k verdicts ++ missing) =
    .ok (array', scratch ++ select false verdicts pkts, array.len,
      (front ++ select true verdicts pkts).length, missing) ∧
    array'.len = array.len ∧ Compacted slots (front ++ select true verdicts pkts) array'

section Passes

variable {slots : List Ptr} {missing : List Nat} {verdicts : List Bool} {array : RawVec Ptr}
  {scratch front pkts rest : List Ptr} {k : Nat} {pkt : Ptr}

theorem passes_nil (h : Compacted slots front array) (hend : k = array.len) :
    Passes slots missing [] array scratch front [] k := by
  refine ⟨array, ?_, rfl, ?_⟩
  · show Outcome.ok (array, scratch, k, front.length, [] ++ missing) = _
    rw [show select false [] [] = [] from rfl, show select true [] [] = [] from rfl, hend,
      List.append_nil, List.append_nil, List.nil_append]
  · rwa [show select true [] [] = [] from rfl, List.append_nil]

theorem Passes.reject (hget : array.get k = .ok pkt)
    (h : Passes slots missing verdicts array (scratch ++ [pkt]) front pkts (k + 1)) :
    Passes slots missing (false :: verdicts) array scratch front (pkt :: pkts) k := by
  obtain ⟨array', hloop, hlen', h'⟩ := h
  unfold Passes
  rw [select_cons_self, select_cons_ne (by decide)]
  refine ⟨array', ?_, hlen', h'⟩
  rw [List.append_cons, ← hloop]
  exact dropLoop_found scratch hget

theorem Passes.keep {moved : RawVec Ptr} (hget : array.get k = .ok pkt)
    (hset : array.set front.length pkt = .ok moved) (hlena : moved.len = array.len)
    (hne : missing ≠ []) (hmissing : ∀ i ∈ missing, k < i)
    (h : Passes slots missing verdicts moved scratch (front ++ [pkt]) pkts (k + 1)) :
    Passes slots missing (true :: verdicts) array scratch front (pkt :: pkts) k := by
  obtain ⟨array', hloop, hlen', h'⟩ := h
  -- the indices to come are behind this packet, wherever they come from
  have hlt : ∀ i ∈ rejectedFrom (k + 1) verdicts ++ missing, k < i := by
    intro i hi
    rcases List.mem_append.mp hi with hi | hi
    · exact le_of_mem_rejectedFrom hi
    · exact hmissing i hi
  rw [hlena, List.length_append, List.length_singleton, List.append_assoc,
    List.singleton_append] at hloop
  rw [List.append_assoc, List.singleton_append] at h'
  unfold Passes
  rw [select_cons_self, select_cons_ne (by decide)]
  refine ⟨array', ?_, hlen'.trans hlena, h'⟩
  rw [← hloop]
  exact dropLoop_kept scratch hget hset (List.append_ne_nil_of_right_ne_nil _ hne) hlt

end Passes

theorem dropLoop_missing {slots : List Ptr} {missing : List Nat} (hne : missing ≠ [])
    {verdicts : List Bool} : ∀ {array : RawVec Ptr} {scratch front pkts rest : List Ptr} {k : Nat},
      Compacted slots front array → front.length ≤ k → slots.drop k = pkts ++ rest →
      pkts.length = verdicts.length → k + pkts.length = array.len →
      (∀ i ∈ missing, array.len ≤ i) →
      Passes slots missing verdicts array scratch front pkts k := by
  induction verdicts with
  | nil =>
    intro array scratch front pkts rest k h hle hpkts hlen hend hmissing
    obtain rfl := List.length_eq_zero_iff.mp hlen
    exact passes_nil h hend
  | cons v verdicts ih =>
    intro array scratch front pkts rest k h hle hpkts hlen hend hmissing
    cases pkts with
    | nil => cases hlen
    | cons pkt pkts =>
      rw [List.length_cons] at hend
      have hrest := Nat.succ.inj hlen
      have hpkt : slots[k]? = some pkt := by
        rw [← Nat.add_zero k, ← List.getElem?_drop, hpkts]
        rfl
      have hpkts' : slots.drop (k + 1) = pkts ++ rest := by
        rw [← List.drop_drop, hpkts]
        rfl
      have hget := h.get hle (by omega) hpkt
      cases v with
      | false => exact Passes.reject hget (ih h (by omega) hpkts' hrest (by omega) hmissing)
      | true =>
        obtain ⟨moved, hset, hlena, hmoved⟩ := h.set pkt (by omega)
        refine Passes.keep hget hset hlena hne
          (fun i hi => Nat.lt_of_lt_of_le (by omega) (hmissing i hi))
          (ih hmoved ?_ hpkts' hrest (by omega) (by rw [hlena]; exact hmissing))
        rw [List.length_append, List.length_singleton]
        omega

/-- The packets found are in `scratch`, the others have moved to the front, and behind
them is what was there. -/
theorem dropPacketsStable_missing {p : PacketBatch} {idxes : List Nat}
    (hsorted : idxes.Pairwise (· < ·)) (hmissing : ∃ i ∈ idxes, p.available ≤ i) (w : World σ) :
    ∃ p', p.dropPacketsStable idxes w = .ok (none, p', w) ∧ p'.array.len = p.array.len ∧
      Compacted p.array.slots (packetsAt (· ∉ idxes) 0 p.array.toList) p'.array ∧
      p'.scratch = p.scratch ++ packetsAt (· ∈ idxes) 0 p.array.toList := by
  have hcount := p.array.length_toList
  have hlen := length_verdictsOf idxes 0 p.array.toList.length
  have hidx := rejectedFrom_eq_filter hsorted p.array.toList.length
  have hall := filter_lt_append_filter_le hsorted p.array.toList.length
  obtain ⟨hkept, hgone⟩ := select_verdictsOf idxes 0 p.array.toList
  obtain ⟨i, hi, hbehind⟩ := hmissing
  have hne : idxes.filter (p.array.toList.length ≤ ·) ≠ [] := by
    refine List.ne_nil_of_mem (List.mem_filter.mpr ⟨hi, decide_eq_true ?_⟩)
    rwa [hcount]
  obtain ⟨array', hloop, hlen', h'⟩ :=
    @dropLoop_missing p.array.slots _ hne (verdictsOf idxes 0 p.array.toList.length) p.array
      p.scratch [] p.array.toList _ 0 rfl (Nat.le_refl _) p.array.slots_eq hlen.symm
      (by omega) (by
        intro j hj
        rw [← hcount]
        exact of_decide_eq_true (List.mem_filter.mp hj).2)
  rw [hidx, hall, hkept, hgone, List.length_nil, List.nil_append, hcount] at hloop
  rw [hkept, List.nil_append] at h'
  refine ⟨{ array := array', scratch := _ }, ?_, hlen', h', rfl⟩
  unfold dropPacketsStable
  rw [if_neg (List.ne_nil_of_mem hi)]
  dsimp only
  rw [hloop, bind_ok]
  dsimp only
  rw [Nat.sub_self, RawVec.copyDown, bind_ok, if_pos (hcount ▸ hne)]

end PacketBatch

end NetBricks.Operators
