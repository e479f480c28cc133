import NetBricks.Operators.Batch

/-!
# Iteration as a list program

`PayloadEnumerator` asks the batch for the packet at index 0, 1, 2 and so on, and
every operator passes the question to its parent and adjusts the answer. For a
batch that holds the packets `pkts` that amounts to going through the list, each
packet seen as the operators see it (`Yields`). The loops of the operators are
then recursions over the list: `sweep` for a body that is run on every packet,
`judge` for a filter.
-/

namespace NetBricks.Operators

open Lib
open Lib.Outcome
open Interface

/-- How a packet is seen: it depends on the contents of its mbuf. -/
abbrev View := Mem → Ptr → Outcome Packet

/-- A packet as it was received. -/
def rawView : View := fun _ ptr => .ok (Packet.fromMbuf ptr)

/-- A view behind an operator that adjusts packets. -/
def View.through (view : View) (g : Packet → MBuf → Outcome Packet) : View := fun mem ptr => do
  let p ← view mem ptr
  g p (mem p.mbuf)

variable {σ : Type}

/-- A body run on every packet, in order. -/
def sweep (view : View) (body : Body σ) : List Ptr → World σ → Outcome (World σ)
  | [], w => .ok w
  | ptr :: pkts, w => do
    let p ← view w.mem ptr
    let w ← applyBody body p w
    sweep view body pkts w

/-- The verdicts of a filter on every packet, in order. -/
def judge (view : View) (f : FilterFn σ) : List Ptr → World σ → Outcome (List Bool × World σ)
  | [], w => .ok ([], w)
  | ptr :: pkts, w => do
    let p ← view w.mem ptr
    let (keep, s) := f p (w.mem p.mbuf) w.state
    let (verdicts, w) ← judge view f pkts { w with state := s }
    .ok (keep :: verdicts, w)

/-- A filter gives one verdict for each packet. -/
theorem judge_length {view : View} {f : FilterFn σ} :
    ∀ {pkts : List Ptr} {w : World σ} {r : List Bool × World σ},
      judge view f pkts w = .ok r → pkts.length = r.1.length := by
  intro pkts
  induction pkts with
  | nil =>
    intro w r h
    cases h
    rfl
  | cons ptr pkts ih =>
    intro w r h
    rw [judge, bind_eq_ok] at h
    obtain ⟨p, -, h⟩ := h
    dsimp only at h
    rw [bind_eq_ok] at h
    obtain ⟨rest, hrest, h⟩ := h
    cases h
    exact congrArg (· + 1) (ih hrest)

namespace Batch

/-- Iteration over the batch gives the packets `pkts`, seen through `view`: it starts at 0, and
at each index it gives the packet there, parsed and changed by the operators on top, until there
is none. -/
structure Yields (b : Batch σ) (view : View) (pkts : List Ptr) : Prop where
  start : b.start = .ok 0
  next : ∀ mem idx, b.nextPayload mem idx = mapSome (view mem) pkts[idx]?

/-- The list program of a loop with an index. -/
def walk {β : Type} (view : View) (body : Nat → Packet → β × World σ → Outcome (β × World σ)) :
    Nat → List Ptr → β × World σ → Outcome (β × World σ)
  | _, [], acc => .ok acc
  | idx, ptr :: pkts, acc => do
    let p ← view acc.2.mem ptr
    let acc ← body idx p acc
    walk view body (idx + 1) pkts acc

theorem Yields.enumerate {β : Type} {b : Batch σ} {view : View} {pkts : List Ptr}
    (h : b.Yields view pkts) (body : Nat → Packet → β × World σ → Outcome (β × World σ)) :
    ∀ (fuel idx : Nat) (acc : β × World σ), idx ≤ pkts.length → pkts.length < idx + fuel →
      b.enumerate body fuel idx acc = walk view body idx (pkts.drop idx) acc := by
  intro fuel
  induction fuel with
  | zero =>
    intro idx acc hle hlt
    omega
  | succ fuel ih =>
    intro idx acc hle hlt
    rw [Batch.enumerate, h.next]
    by_cases hidx : idx = pkts.length
    · rw [List.getElem?_eq_none (by omega), List.drop_of_length_le (by omega)]
      rfl
    · have hsome := List.getElem?_eq_getElem (l := pkts) (i := idx) (by omega)
      rw [hsome, List.drop_eq_getElem_cons (by omega), walk]
      -- the view or the body may stop the loop; otherwise both go on at the next index
      cases hview : view acc.2.mem (pkts[idx]) with
      | panic f =>
        rw [mapSome, hview]
        rfl
      | timeout =>
        rw [mapSome, hview]
        rfl
      | ok p =>
        rw [mapSome, hview, bind_ok, bind_ok, bind_ok]
        dsimp only
        congr 1
        funext acc
        exact ih (idx + 1) acc (by omega) (by omega)

theorem Yields.forEach {β : Type} {b : Batch σ} {view : View} {pkts : List Ptr}
    (h : b.Yields view pkts) {fuel : Nat} (hfuel : pkts.length < fuel)
    (body : Nat → Packet → β × World σ → Outcome (β × World σ)) (acc : β × World σ) :
    b.forEach fuel body acc = walk view body 0 pkts acc := by
  unfold Batch.forEach
  rw [h.start, bind_ok, h.enumerate body fuel 0 acc (Nat.zero_le _) (by omega), List.drop_zero]

/-- The loop of the operators that run a body. -/
theorem Yields.forEach_each {b : Batch σ} {view : View} {pkts : List Ptr}
    (h : b.Yields view pkts) {fuel : Nat} (hfuel : pkts.length < fuel) (body : Body σ)
    (w : World σ) :
    (b.forEach fuel (fun _ p (acc : Unit × World σ) => do
      let w ← applyBody body p acc.2
      .ok ((), w)) ((), w)) = (sweep view body pkts w >>= fun w => .ok ((), w)) := by
  rw [h.forEach hfuel]
  generalize 0 = idx
  clear h hfuel
  induction pkts generalizing idx w with
  | nil => rfl
  | cons ptr pkts ih =>
    rw [walk, sweep, bind_assoc]
    congr 1
    funext p
    rw [bind_assoc, bind_assoc]
    congr 1
    funext w
    rw [bind_ok, ih]

theorem filterLoop_eq (f : FilterFn σ) (idx : Nat) (p : Packet) (remove : List Nat) (w : World σ) :
    filterLoop f idx p (remove, w) =
      .ok (if (f p (w.mem p.mbuf) w.state).1 then remove else remove ++ [idx],
        { w with state := (f p (w.mem p.mbuf) w.state).2 }) := rfl

/-- The loop of a filter collects the indices of the rejected packets. -/
theorem Yields.forEach_filter {b : Batch σ} {view : View} {pkts : List Ptr}
    (h : b.Yields view pkts) {fuel : Nat} (hfuel : pkts.length < fuel) (f : FilterFn σ)
    (remove : List Nat) (w : World σ) :
    b.forEach fuel (filterLoop f) (remove, w) =
      (judge view f pkts w >>= fun r =>
        .ok (remove ++ PacketBatch.rejectedFrom 0 r.1, r.2)) := by
  rw [h.forEach hfuel]
  generalize 0 = idx
  clear h hfuel
  induction pkts generalizing idx remove w with
  | nil =>
    rw [walk, judge, bind_ok, PacketBatch.rejectedFrom, List.append_nil]
  | cons ptr pkts ih =>
    rw [walk, judge, bind_assoc]
    congr 1
    funext p
    dsimp only
    rw [filterLoop_eq, bind_ok, ih, bind_assoc]
    congr 1
    funext r
    rw [bind_ok]
    cases (f p (w.mem p.mbuf) w.state).1 with
    | true => rfl
    | false =>
      rw [PacketBatch.rejectedFrom, if_neg (by decide), List.append_assoc]
      rfl

/-! ## What each operator yields -/

/-- The packets in the `PacketBatch` below an operator. -/
def packets : Batch σ → List Ptr
  | .receive parent _ _ => parent.array.toList
  | .through _ parent => parent.packets
  | .each _ _ parent => parent.packets
  | .filter _ _ parent => parent.packets
  | .merge count parents which => if h : which < count then (parents ⟨which, h⟩).packets else []

/-- How an operator shows its packets. -/
def view : Batch σ → View
  | .receive _ _ _ => rawView
  | .through g parent => parent.view.through g
  | .each _ _ parent => parent.view
  | .filter _ _ parent => parent.view
  | .merge count parents which =>
    if h : which < count then (parents ⟨which, h⟩).view else fun _ _ => .panic .index

theorem yields_receive {n queue received : Nat} {pkts : List Ptr} {parent : PacketBatch}
    (h : parent.Holds n pkts) : (receive parent queue received : Batch σ).Yields rawView pkts := by
  refine ⟨rfl, fun mem idx => ?_⟩
  have hlen := h.len
  rw [nextPayload]
  by_cases hidx : idx < pkts.length
  · have hget : parent.array.get idx = .ok (pkts[idx]) := by
      unfold RawVec.get
      rw [if_pos (by omega)]
      refine index_of_some ?_
      rw [← RawVec.getElem?_toList _ (by omega), h.contents]
      exact List.getElem?_eq_getElem hidx
    rw [if_pos (by omega), hget, List.getElem?_eq_getElem hidx]
    rfl
  · rw [if_neg (by omega), List.getElem?_eq_none (by omega)]
    rfl

theorem Yields.through {b : Batch σ} {view : View} {pkts : List Ptr} (h : b.Yields view pkts)
    (g : Packet → MBuf → Outcome Packet) : (b.through g).Yields (view.through g) pkts := by
  refine ⟨h.start, fun mem idx => ?_⟩
  rw [nextPayload, h.next]
  cases pkts[idx]? with
  | none => rfl
  | some ptr =>
    rw [mapSome, mapSome, bind_assoc]
    unfold View.through
    rw [bind_assoc]
    congr 1

theorem Yields.each {b : Batch σ} {view : View} {pkts : List Ptr} (h : b.Yields view pkts)
    (body : Body σ) (applied : Bool) : (b.each body applied).Yields view pkts := ⟨h.start, h.next⟩

theorem Yields.filter {b : Batch σ} {view : View} {pkts : List Ptr} (h : b.Yields view pkts)
    (keep : FilterFn σ) (remove : List Nat) : (b.filter keep remove).Yields view pkts :=
  ⟨h.start, h.next⟩

theorem Yields.merge {count which : Nat} {parents : Fin count → Batch σ} (hlt : which < count)
    {view : View} {pkts : List Ptr} (h : (parents ⟨which, hlt⟩).Yields view pkts) :
    (Batch.merge count parents which).Yields view pkts := by
  refine ⟨?_, fun mem idx => ?_⟩
  · rw [Batch.start, dif_pos hlt]
    exact h.start
  · rw [nextPayload, dif_pos hlt]
    exact h.next mem idx

end Batch

end NetBricks.Operators
