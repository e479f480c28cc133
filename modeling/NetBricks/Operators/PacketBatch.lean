import NetBricks.Interface.World
import NetBricks.Lib.RawVec

/-!
# `PacketBatch`: the model

`src/framework/src/operators/packet_batch.rs`: a vector of mbuf pointers whose
length is set by hand, and a scratch vector for the pointers that are about to be
freed.

Mirroring notes:

* `mbuf_free_bulk` frees what it is given and returns 0, so the branches for
  another return value are not there.
* The two loops of `drop_packets_stable` are `dropLoop` and `RawVec.copyDown`;
  their counts are `end - idx_orig`. The index list is the part that is left of
  it, so `remove_idx` is not a variable.
* The `for` loop of `consume_batch_partial` is `RawVec.copyDown`.
* `parent_tasks` is for the scheduler and not here.

The lemmas say what each operation does to the list of packets in the batch
(`Holds`).
-/

namespace NetBricks.Operators

open Lib
open Lib.Outcome
open Interface

structure PacketBatch where
  array : RawVec Ptr
  scratch : List Ptr

namespace PacketBatch

variable {σ : Type}

/-- `new`, in an allocation of `slots`. -/
def new (slots : List Ptr) : PacketBatch := { array := RawVec.empty slots, scratch := [] }

/-- `available`. -/
def available (p : PacketBatch) : Nat := p.array.len

/-- `free_packet_batch`, which is all `deallocate_batch` and `drop` do. -/
def freePacketBatch (p : PacketBatch) (w : World σ) : Outcome (PacketBatch × World σ) :=
  if p.array.len = 0 then .ok (p, w)
  else do
    let w := w.free p.array.toList
    let array ← p.array.setLen 0
    .ok ({ p with array := array }, w)

/-- `recv_internal`. -/
def recvInternal (p : PacketBatch) (queue : Nat) (w : World σ) :
    Outcome (Except ErrorKind Nat × PacketBatch × World σ) := do
  let array ← p.array.setLen p.array.capacity
  match w.recv queue array.len with
  | (.error e, w) => .ok (.error e, { p with array := array }, w)
  | (.ok pkts, w) => do
    let array ← (array.write pkts).setLen pkts.length
    .ok (.ok pkts.length, { p with array := array }, w)

/-- `recv`. -/
def recv (p : PacketBatch) (queue : Nat) (w : World σ) :
    Outcome (Except ErrorKind Nat × PacketBatch × World σ) := do
  let (p, w) ← p.freePacketBatch w
  p.recvInternal queue w

/-- The first loop of `drop_packets_stable`: go through the indices to be removed.
Returns the array, the scratch vector, the two positions and the indices that
were not found. -/
def dropLoop : Nat → RawVec Ptr → List Ptr → Nat → Nat → List Nat →
    Outcome (RawVec Ptr × List Ptr × Nat × Nat × List Nat)
  | n + 1, array, scratch, idxOrig, idxNew, testIdx :: idxes => do
    check (idxOrig ≤ testIdx) "idx_orig <= test_idx"
    let pkt ← array.get idxOrig
    if idxOrig = testIdx then
      dropLoop n array (scratch ++ [pkt]) (idxOrig + 1) idxNew idxes
    else
      let array ← array.set idxNew pkt
      dropLoop n array scratch (idxOrig + 1) (idxNew + 1) (testIdx :: idxes)
  | _, array, scratch, idxOrig, idxNew, idxes => .ok (array, scratch, idxOrig, idxNew, idxes)

/-- `drop_packets_stable`. -/
def dropPacketsStable (p : PacketBatch) (idxes : List Nat) (w : World σ) :
    Outcome (Option Nat × PacketBatch × World σ) :=
  -- short circuit when there is nothing to do
  if idxes = [] then .ok (some 0, p, w)
  else do
    let stop := p.array.len
    let (array, scratch, idxOrig, idxNew, notFound) ← dropLoop stop p.array p.scratch 0 0 idxes
    -- then copy over any left over packets
    let array ← RawVec.copyDown (stop - idxOrig) array idxOrig idxNew
    let idxNew := idxNew + (stop - idxOrig)
    if notFound ≠ [] then .ok (none, { array := array, scratch := scratch }, w)
    else do
      let array ← array.setLen idxNew
      if scratch = [] then .ok (some 0, { array := array, scratch := scratch }, w)
      else
        let w := w.drop scratch
        .ok (some scratch.length, { array := array, scratch := [] }, w)

/-- `consume_batch_partial`. -/
def consumeBatchPartial (p : PacketBatch) (consumed : Nat) : Outcome PacketBatch := do
  let len := p.array.len
  let array ← RawVec.copyDown (len - consumed) p.array consumed 0
  let left ← checkedSub len consumed
  let array ← array.setLen left
  .ok { p with array := array }

/-- `consume_batch`, which is `clear_packets`. -/
def consumeBatch (p : PacketBatch) : Outcome PacketBatch := do
  let array ← p.array.setLen 0
  .ok { p with array := array }

/-- `send_q`: the loop breaks after its first round. -/
def sendQ (p : PacketBatch) (w : World σ) :
    Outcome (Except ErrorKind Nat × PacketBatch × World σ) :=
  if p.available > 0 then
    match w.send p.array.toList with
    | (.error e, w) => .ok (.error e, p, w)
    | (.ok sent, w) => do
      let p ← p.consumeBatchPartial sent
      .ok (.ok sent, p, w)
  else .ok (.ok 0, p, w)

/-! ## Calls on any batch -/

/-- The allocation and what waits to be freed stay. -/
structure Keeps (p p' : PacketBatch) : Prop where
  capacity_eq : p'.array.capacity = p.array.capacity
  scratch_eq : p'.scratch = p.scratch

/-- Freeing a batch frees what it holds. -/
theorem freePacketBatch_eq (p : PacketBatch) (w : World σ) :
    ∃ p', p.freePacketBatch w = .ok (p', w.free p.array.toList) ∧ p'.array.toList = [] ∧
      Keeps p p' := by
  unfold freePacketBatch
  by_cases hz : p.array.len = 0
  · have hnil : p.array.toList = [] := RawVec.toList_eq_nil.mpr hz
    rw [if_pos hz, hnil, World.free_nil]
    exact ⟨p, rfl, hnil, rfl, rfl⟩
  · obtain ⟨array, hset, hlist, hcap⟩ := RawVec.setLen_zero p.array
    rw [if_neg hz, hset]
    exact ⟨_, rfl, hlist, hcap, rfl⟩

/-- A receive that succeeds: the batch holds what was received. -/
theorem recv_eq_of_ok {p : PacketBatch} {queue : Nat} {w w' : World σ} {pkts : List Ptr}
    (hres : (w.free p.array.toList).recv queue p.array.capacity = (.ok pkts, w')) :
    ∃ p', p.recv queue w = .ok (.ok pkts.length, p', w') ∧ p'.array.toList = pkts ∧
      Keeps p p' := by
  obtain ⟨p₁, hfree, -, hk⟩ := freePacketBatch_eq p w
  obtain ⟨v₁, hset₁, hlen₁, hcap₁⟩ := RawVec.setLen_capacity p₁.array
  rw [hk.capacity_eq] at hlen₁ hcap₁
  obtain ⟨v₂, hset₂, hlist₂, hcap₂⟩ :=
    RawVec.setLen_write v₁ (hcap₁.symm ▸ World.recv_length_le hres) (Nat.le_refl pkts.length)
  rw [List.take_length] at hlist₂
  refine ⟨{ p₁ with array := v₂ }, ?_, hlist₂, hcap₂.trans hcap₁, hk.scratch_eq⟩
  unfold recv recvInternal
  rw [hfree, bind_ok]
  dsimp only
  rw [hset₁, bind_ok, hlen₁, hres]
  dsimp only
  rw [hset₂]
  rfl

/-- A receive that fails: the whole allocation counts as received. -/
theorem recv_eq_of_error {p : PacketBatch} {queue : Nat} {w w' : World σ} {e : ErrorKind}
    (hres : (w.free p.array.toList).recv queue p.array.capacity = (.error e, w')) :
    ∃ p', p.recv queue w = .ok (.error e, p', w') ∧ p'.array.len = p.array.capacity ∧
      Keeps p p' := by
  obtain ⟨p₁, hfree, -, hk⟩ := freePacketBatch_eq p w
  obtain ⟨v₁, hset₁, hlen₁, hcap₁⟩ := RawVec.setLen_capacity p₁.array
  rw [hk.capacity_eq] at hlen₁ hcap₁
  refine ⟨{ p₁ with array := v₁ }, ?_, hlen₁, hcap₁, hk.scratch_eq⟩
  unfold recv recvInternal
  rw [hfree, bind_ok]
  dsimp only
  rw [hset₁, bind_ok, hlen₁, hres]

theorem consumeBatchPartial_eq {p : PacketBatch} {consumed : Nat}
    (hle : consumed ≤ p.array.toList.length) :
    ∃ p', p.consumeBatchPartial consumed = .ok p' ∧
      p'.array.toList = p.array.toList.drop consumed ∧ Keeps p p' := by
  have hlen := p.array.length_toList
  -- the packets that stay move down over those that go
  have hstart : p.array.Split [] consumed
      (p.array.toList.drop consumed ++ p.array.slots.drop p.array.len) := by
    refine ⟨p.array.toList.take consumed, ?_, List.length_take_of_le hle⟩
    rw [List.nil_append, ← List.append_assoc, List.take_append_drop]
    exact RawVec.slots_eq _
  have hcount : (p.array.toList.drop consumed).length = p.array.len - consumed := by
    rw [List.length_drop, hlen]
  obtain ⟨v₁, hcopy, -, hcap₁, hsplit⟩ := hstart.copyDown (by simp; omega)
  obtain ⟨v₂, hset, hlist, hcap₂⟩ := hsplit.setLen
  refine ⟨{ p with array := v₂ }, ?_, hlist, hcap₂.trans hcap₁, rfl⟩
  rw [hcount, List.length_nil, Nat.zero_add] at hcopy
  rw [List.nil_append, hcount] at hset
  unfold consumeBatchPartial
  dsimp only
  rw [hcopy, bind_ok, checkedSub_of_le (by omega), bind_ok, hset]
  rfl

/-- What the batch holds is offered to the port, if there is anything, and what
the port does not take stays. -/
theorem sendQ_eq (p : PacketBatch) (w : World σ) :
    (p.array.toList = [] ∧ p.sendQ w = .ok (.ok 0, p, w)) ∨
    (p.array.toList ≠ [] ∧ ∃ e w', w.send p.array.toList = (.error e, w') ∧
      p.sendQ w = .ok (.error e, p, w')) ∨
    (p.array.toList ≠ [] ∧ ∃ sent w' p', w.send p.array.toList = (.ok sent, w') ∧
      p.sendQ w = .ok (.ok sent, p', w') ∧ p'.array.toList = p.array.toList.drop sent ∧
      Keeps p p') := by
  have hlen : p.available = p.array.toList.length := p.array.length_toList.symm
  unfold sendQ
  by_cases hnil : p.array.toList = []
  · have hzero : ¬ p.available > 0 := by
      rw [hlen, hnil]
      exact Nat.lt_irrefl 0
    rw [if_neg hzero]
    exact .inl ⟨hnil, rfl⟩
  · have hpos : p.available > 0 := by
      rw [hlen]
      exact List.length_pos_iff.mpr hnil
    rw [if_pos hpos]
    rcases hres : w.send p.array.toList with ⟨e | sent, w'⟩
    · exact .inr (.inl ⟨hnil, e, w', rfl, rfl⟩)
    · obtain ⟨p', hconsume, hlist, hk⟩ := consumeBatchPartial_eq (World.send_ok hres).1
      dsimp only
      rw [hconsume]
      exact .inr (.inr ⟨hnil, sent, w', p', rfl, rfl, hlist, hk⟩)

/-! ## The packets in a batch -/

/-- The batch holds the packets `pkts` in an allocation of `n` slots, and nothing is waiting to
be freed. Behind them the slots have what is left from before. -/
structure Holds (n : Nat) (pkts : List Ptr) (p : PacketBatch) : Prop where
  contents : p.array.toList = pkts
  room : p.array.capacity = n
  scratch : p.scratch = []

theorem holds_new (slots : List Ptr) : Holds slots.length [] (new slots) :=
  ⟨List.take_zero, rfl, rfl⟩

theorem Holds.len {n : Nat} {pkts : List Ptr} {p : PacketBatch} (h : Holds n pkts p) :
    p.array.len = pkts.length := by
  rw [← h.contents, RawVec.length_toList]

theorem Holds.le {n : Nat} {pkts : List Ptr} {p : PacketBatch} (h : Holds n pkts p) :
    pkts.length ≤ n := by
  rw [← h.len, ← h.room]
  exact p.array.fits

theorem Holds.of_keeps {n : Nat} {pkts pkts' : List Ptr} {p p' : PacketBatch} (h : Holds n pkts p)
    (hk : Keeps p p') (hlist : p'.array.toList = pkts') : Holds n pkts' p' :=
  ⟨hlist, hk.capacity_eq.trans h.room, hk.scratch_eq.trans h.scratch⟩

theorem Holds.freePacketBatch {n : Nat} {pkts : List Ptr} {p : PacketBatch} (h : Holds n pkts p)
    (w : World σ) : ∃ p', p.freePacketBatch w = .ok (p', w.free pkts) ∧ Holds n [] p' := by
  obtain ⟨p', hfree, hlist, hk⟩ := freePacketBatch_eq p w
  exact ⟨p', h.contents ▸ hfree, h.of_keeps hk hlist⟩

theorem Holds.recv_ok {n queue : Nat} {p : PacketBatch} (h : Holds n [] p) {w w' : World σ}
    {pkts : List Ptr} (hres : w.recv queue n = (.ok pkts, w')) :
    ∃ p', p.recv queue w = .ok (.ok pkts.length, p', w') ∧ Holds n pkts p' := by
  have hres' : (w.free p.array.toList).recv queue p.array.capacity = (.ok pkts, w') := by
    rw [h.contents, h.room, World.free_nil, hres]
  obtain ⟨p', hrecv, hlist, hk⟩ := recv_eq_of_ok hres'
  exact ⟨p', hrecv, h.of_keeps hk hlist⟩

theorem Holds.recv_error {n queue : Nat} {p : PacketBatch} (h : Holds n [] p) {w w' : World σ}
    {e : ErrorKind} (hres : w.recv queue n = (.error e, w')) :
    ∃ p', p.recv queue w = .ok (.error e, p', w') := by
  have hres' : (w.free p.array.toList).recv queue p.array.capacity = (.error e, w') := by
    rw [h.contents, h.room, World.free_nil, hres]
  obtain ⟨p', hrecv, -⟩ := recv_eq_of_error hres'
  exact ⟨p', hrecv⟩

theorem Holds.sendQ {n : Nat} {pkts : List Ptr} {p : PacketBatch} (h : Holds n pkts p)
    (w : World σ) :
    (pkts = [] ∧ p.sendQ w = .ok (.ok 0, p, w)) ∨
    (pkts ≠ [] ∧ ∃ e w', w.send pkts = (.error e, w') ∧ p.sendQ w = .ok (.error e, p, w')) ∨
    (pkts ≠ [] ∧ ∃ sent w' p', w.send pkts = (.ok sent, w') ∧
      p.sendQ w = .ok (.ok sent, p', w') ∧ Holds n (pkts.drop sent) p') := by
  have hsend := sendQ_eq p w
  rw [h.contents] at hsend
  rcases hsend with hnil | herror | ⟨hne, sent, w', p', hres, hret, hlist, hk⟩
  · exact .inl hnil
  · exact .inr (.inl herror)
  · exact .inr (.inr ⟨hne, sent, w', p', hres, hret, h.of_keeps hk hlist⟩)

theorem Holds.consumeBatch {n : Nat} {pkts : List Ptr} {p : PacketBatch} (h : Holds n pkts p) :
    ∃ p', p.consumeBatch = .ok p' ∧ Holds n [] p' := by
  obtain ⟨array, hset, hlist, hcap⟩ := RawVec.setLen_zero p.array
  unfold PacketBatch.consumeBatch
  rw [hset]
  exact ⟨_, rfl, hlist, hcap.trans h.room, h.scratch⟩

/-! ## Dropping packets -/

/-- The indices, from `start` on, of the packets that were rejected. -/
def rejectedFrom (start : Nat) : List Bool → List Nat
  | [] => []
  | true :: verdicts => rejectedFrom (start + 1) verdicts
  | false :: verdicts => start :: rejectedFrom (start + 1) verdicts

/-- The packets with the verdict `keep`. -/
def select (keep : Bool) : List Bool → List Ptr → List Ptr
  | v :: verdicts, pkt :: pkts =>
    if v = keep then pkt :: select keep verdicts pkts else select keep verdicts pkts
  | _, _ => []

theorem select_cons_self (keep : Bool) (verdicts : List Bool) (pkt : Ptr) (pkts : List Ptr) :
    select keep (keep :: verdicts) (pkt :: pkts) = pkt :: select keep verdicts pkts := if_pos rfl

theorem select_cons_ne {keep v : Bool} (h : v ≠ keep) (verdicts : List Bool) (pkt : Ptr)
    (pkts : List Ptr) :
    select keep (v :: verdicts) (pkt :: pkts) = select keep verdicts pkts := if_neg h

theorem le_of_mem_rejectedFrom {verdicts : List Bool} :
    ∀ {start i : Nat}, i ∈ rejectedFrom start verdicts → start ≤ i := by
  induction verdicts with
  | nil => intro start i h; cases h
  | cons v verdicts ih =>
    intro start i h
    cases v with
    | true => exact Nat.le_of_succ_le (ih h)
    | false =>
      rcases List.mem_cons.mp h with rfl | h
      · exact Nat.le_refl _
      · exact Nat.le_of_succ_le (ih h)

/-- With nothing rejected everything is kept. -/
theorem select_of_rejectedFrom_nil {verdicts : List Bool} :
    ∀ {start : Nat} {pkts : List Ptr}, rejectedFrom start verdicts = [] →
      pkts.length = verdicts.length → select true verdicts pkts = pkts ∧
        select false verdicts pkts = [] := by
  induction verdicts with
  | nil =>
    intro start pkts _ hlen
    rw [List.length_eq_zero_iff.mp hlen]
    exact ⟨rfl, rfl⟩
  | cons v verdicts ih =>
    intro start pkts h hlen
    cases pkts with
    | nil => cases hlen
    | cons pkt pkts =>
      cases v with
      | false => cases h
      | true =>
        obtain ⟨h₁, h₂⟩ := ih h (Nat.succ.inj hlen)
        exact ⟨by rw [select_cons_self, h₁], by rw [select_cons_ne (by decide), h₂]⟩

/-- What the two loops of `drop_packets_stable` do, from a state in which `front` has been
kept, `gap` slots behind it are free and `pkts` are still to be looked at: the rejected
ones go to `scratch`, the others behind `front`. -/
def Sifts (verdicts : List Bool) (array : RawVec Ptr) (scratch front : List Ptr) (gap : Nat)
    (pkts rest : List Ptr) : Prop :=
  ∃ array₁ array₂ idxOrig idxNew,
    dropLoop pkts.length array scratch (front.length + gap) front.length
        (rejectedFrom (front.length + gap) verdicts) =
      .ok (array₁, scratch ++ select false verdicts pkts, idxOrig, idxNew, []) ∧
    RawVec.copyDown (array.len - idxOrig) array₁ idxOrig idxNew = .ok array₂ ∧
    idxNew + (array.len - idxOrig) = (front ++ select true verdicts pkts).length ∧
    array₂.capacity = array.capacity ∧
    ∃ gap', array₂.Split (front ++ select true verdicts pkts) gap' rest

/-- A step of the first loop at an index of the list. -/
theorem dropLoop_found {n k new : Nat} {idxes : List Nat} {array : RawVec Ptr} {pkt : Ptr}
    (scratch : List Ptr) (hget : array.get k = .ok pkt) :
    dropLoop (n + 1) array scratch k new (k :: idxes) =
      dropLoop n array (scratch ++ [pkt]) (k + 1) new idxes := by
  rw [dropLoop, check_true (Nat.le_refl _), bind_ok, hget, bind_ok, if_pos rfl]

/-- A step of the first loop with all indices of the list still to come. -/
theorem dropLoop_kept {n k new : Nat} {idxes : List Nat} {array moved : RawVec Ptr} {pkt : Ptr}
    (scratch : List Ptr) (hget : array.get k = .ok pkt) (hset : array.set new pkt = .ok moved)
    (hne : idxes ≠ []) (hlt : ∀ i ∈ idxes, k < i) :
    dropLoop (n + 1) array scratch k new idxes =
      dropLoop n moved scratch (k + 1) (new + 1) idxes := by
  obtain ⟨testIdx, idxes, rfl⟩ := List.exists_cons_of_ne_nil hne
  have htest := hlt testIdx List.mem_cons_self
  rw [dropLoop, check_true (Nat.le_of_lt htest), bind_ok, hget, bind_ok, if_neg (by omega), hset,
    bind_ok]

section Sifts

variable {verdicts : List Bool} {array : RawVec Ptr} {scratch front pkts rest : List Ptr}
  {gap : Nat} {pkt : Ptr}

theorem sifts_nil (h : array.Split front gap rest) (hend : front.length + gap = array.len) :
    Sifts [] array scratch front gap [] rest := by
  refine ⟨array, array, front.length + gap, front.length, ?_, ?_, ?_, rfl, gap, ?_⟩
  · show Outcome.ok _ = _
    rw [show select false [] [] = [] from rfl, List.append_nil]
    rfl
  · rw [hend, Nat.sub_self]
    rfl
  · rw [show select true [] [] = [] from rfl, List.append_nil, hend, Nat.sub_self, Nat.add_zero]
  · rw [show select true [] [] = [] from rfl, List.append_nil]
    exact h

/-- A rejected packet leaves its slot to the gap. -/
theorem Sifts.reject (hget : array.get (front.length + gap) = .ok pkt)
    (h : Sifts verdicts array (scratch ++ [pkt]) front (gap + 1) pkts rest) :
    Sifts (false :: verdicts) array scratch front gap (pkt :: pkts) rest := by
  obtain ⟨a₁, a₂, o, m, hloop, hcopy, hcount, hcap, hsplit⟩ := h
  unfold Sifts
  rw [select_cons_self, select_cons_ne (by decide)]
  refine ⟨a₁, a₂, o, m, ?_, hcopy, hcount, hcap, hsplit⟩
  rw [List.append_cons, ← hloop]
  exact dropLoop_found scratch hget

/-- No index is left: the second loop moves everything. -/
theorem sifts_rest (h : array.Split front gap (pkts ++ rest))
    (hlen : pkts.length = verdicts.length) (hend : front.length + gap + pkts.length = array.len)
    (hidx : rejectedFrom (front.length + gap) verdicts = []) :
    Sifts verdicts array scratch front gap pkts rest := by
  obtain ⟨hkeep, hgone⟩ := select_of_rejectedFrom_nil hidx hlen
  unfold Sifts
  rw [hidx, hkeep, hgone, List.append_nil]
  obtain ⟨a, hcopy, -, hcap, hsplit⟩ := h.copyDown (by omega)
  rw [show pkts.length = array.len - (front.length + gap) by omega] at hcopy
  refine ⟨array, a, front.length + gap, front.length, ?_, hcopy, ?_, hcap, gap, hsplit⟩
  · cases pkts <;> rfl
  · rw [List.length_append]
    omega

/-- A packet that is kept moves to the front. -/
theorem Sifts.keep {moved : RawVec Ptr} (hget : array.get (front.length + gap) = .ok pkt)
    (hset : array.set front.length pkt = .ok moved) (hlena : moved.len = array.len)
    (hcapa : moved.capacity = array.capacity)
    (hidx : rejectedFrom (front.length + gap + 1) verdicts ≠ [])
    (h : Sifts verdicts moved scratch (front ++ [pkt]) gap pkts rest) :
    Sifts (true :: verdicts) array scratch front gap (pkt :: pkts) rest := by
  obtain ⟨a₁, a₂, o, m, hloop, hcopy, hcount, hcap, hsplit⟩ := h
  have hfront : (front ++ [pkt]).length + gap = front.length + gap + 1 := by
    rw [List.length_append, List.length_singleton]
    omega
  rw [hfront, List.length_append, List.length_singleton] at hloop
  rw [hlena] at hcopy hcount
  rw [List.append_assoc, List.singleton_append] at hcount hsplit
  unfold Sifts
  rw [select_cons_self, select_cons_ne (by decide)]
  refine ⟨a₁, a₂, o, m, ?_, hcopy, hcount, hcap.trans hcapa, hsplit⟩
  rw [← hloop]
  exact dropLoop_kept scratch hget hset hidx fun i hi => le_of_mem_rejectedFrom hi

end Sifts

/-- The two loops of `drop_packets_stable`. -/
theorem dropLoop_sifts {verdicts : List Bool} :
    ∀ {array : RawVec Ptr} {scratch front pkts rest : List Ptr} {gap : Nat},
      array.Split front gap (pkts ++ rest) → pkts.length = verdicts.length →
      front.length + gap + pkts.length = array.len →
      Sifts verdicts array scratch front gap pkts rest := by
  induction verdicts with
  | nil =>
    intro array scratch front pkts rest gap h hlen hend
    obtain rfl := List.length_eq_zero_iff.mp hlen
    exact sifts_nil h hend
  | cons v verdicts ih =>
    intro array scratch front pkts rest gap h hlen hend
    cases pkts with
    | nil => cases hlen
    | cons pkt pkts =>
      rw [List.length_cons] at hend
      have hrest := Nat.succ.inj hlen
      have hget := h.get (show front.length + gap < array.len by omega)
      cases v with
      | false => exact Sifts.reject hget (ih h.skip hrest (by omega))
      | true =>
        by_cases hidx : rejectedFrom (front.length + gap + 1) verdicts = []
        · exact sifts_rest h hlen (by rw [List.length_cons]; exact hend) hidx
        · obtain ⟨moved, hset, hlena, hcapa, hsplit⟩ := h.move (by omega)
          refine Sifts.keep hget hset hlena hcapa hidx (ih hsplit hrest ?_)
          rw [hlena, List.length_append, List.length_singleton]
          omega

theorem length_select_false {verdicts : List Bool} : ∀ {pkts : List Ptr} (start : Nat),
    pkts.length = verdicts.length →
      (select false verdicts pkts).length = (rejectedFrom start verdicts).length := by
  induction verdicts with
  | nil => intro pkts start _; rfl
  | cons v verdicts ih =>
    intro pkts start hlen
    cases pkts with
    | nil => cases hlen
    | cons pkt pkts =>
      have hrest := ih (start + 1) (Nat.succ.inj hlen)
      cases v with
      | true => rwa [select_cons_ne (by decide)]
      | false => rw [select_cons_self, rejectedFrom, List.length_cons, List.length_cons, hrest]

/-- Dropping packets that are there: the others stay, in order, and what was waiting is
freed with them. -/
theorem dropPacketsStable_rejected {p : PacketBatch} {verdicts : List Bool}
    (hlen : p.array.toList.length = verdicts.length) (hne : rejectedFrom 0 verdicts ≠ [])
    (w : World σ) :
    ∃ p', p.dropPacketsStable (rejectedFrom 0 verdicts) w =
        .ok (some (p.scratch.length + (rejectedFrom 0 verdicts).length), p',
          w.drop (p.scratch ++ select false verdicts p.array.toList)) ∧
      p'.array.toList = select true verdicts p.array.toList ∧
      p'.array.capacity = p.array.capacity ∧ p'.scratch = [] := by
  have hstart : p.array.Split [] 0 (p.array.toList ++ p.array.slots.drop p.array.len) :=
    ⟨[], p.array.slots_eq, rfl⟩
  have hcount := p.array.length_toList
  have hgone := length_select_false 0 hlen
  obtain ⟨a₁, a₂, o, m, hloop, hcopy, hend, hcap, gap, hsplit⟩ :=
    @dropLoop_sifts verdicts p.array p.scratch [] p.array.toList _ 0 hstart hlen
      (by rw [List.length_nil]; omega)
  obtain ⟨a₃, hset, hlist, hcap₃⟩ := hsplit.setLen
  rw [List.length_nil, Nat.zero_add, hcount] at hloop
  rw [List.nil_append] at hend hset hlist
  -- something is rejected, so there is something to free
  have hsome : p.scratch ++ select false verdicts p.array.toList ≠ [] := by
    have hpos := List.length_pos_iff.mpr hne
    rw [← List.length_pos_iff, List.length_append]
    omega
  refine ⟨{ array := a₃, scratch := [] }, ?_, hlist, hcap₃.trans hcap, rfl⟩
  unfold dropPacketsStable
  rw [if_neg hne]
  dsimp only
  rw [hloop, bind_ok]
  dsimp only
  rw [hcopy, bind_ok, if_neg (fun hne => hne rfl), hend, hset, bind_ok, if_neg hsome,
    List.length_append, hgone]

/-- Dropping the rejected packets keeps the others, in order. -/
theorem Holds.dropPacketsStable {n : Nat} {pkts : List Ptr} {p : PacketBatch} (h : Holds n pkts p)
    {verdicts : List Bool} (hlen : pkts.length = verdicts.length) (w : World σ) :
    ∃ r p', p.dropPacketsStable (rejectedFrom 0 verdicts) w =
        .ok (some r, p', w.drop (select false verdicts pkts)) ∧
      Holds n (select true verdicts pkts) p' := by
  by_cases hnil : rejectedFrom 0 verdicts = []
  · obtain ⟨hkeep, hgone⟩ := select_of_rejectedFrom_nil hnil hlen
    rw [PacketBatch.dropPacketsStable, if_pos hnil, hkeep, hgone, World.drop_nil]
    exact ⟨0, p, rfl, h⟩
  · obtain ⟨p', hdrop, hlist, hcap, hscratch⟩ :=
      dropPacketsStable_rejected (h.contents.symm ▸ hlen) hnil w
    rw [h.contents] at hdrop hlist
    rw [h.scratch, List.nil_append] at hdrop
    exact ⟨_, p', hdrop, hlist, hcap.trans h.room, hscratch⟩

end PacketBatch

end NetBricks.Operators
