import Mathlib.Algebra.Order.Group.Multiset
import Mathlib.Data.Fin.VecNotation
import Mathlib.Tactic.Abel
import NetBricks.Lib.Judgment
import NetBricks.Operators.Iteration
import NetBricks.Operators.Pipeline

/-!
# Who owns an mbuf

An mbuf obtained from `recv` belongs to the pipeline until it is handed to the
port by `send`, freed by `drop_packets` or freed by `done`. `Accounts` is the
ledger: what was received is what was sent, dropped and freed, and what a batch
still holds, each mbuf as often as it was received. `Carries` says which packets
are in a pipeline between two calls. Every call on the way of a cycle keeps the
ledger, with the packets the pipeline carries then (`Ledger` is what is needed of it
for that), and a cycle that starts with an empty pipeline ends with one.

A cycle may panic where the source says so (`Foreseen`): on a frame that is too
short for a `parse`, on metadata larger than the slots, and on an error of a port.
-/

namespace NetBricks.Operators

open Lib
open Lib.Outcome
open Interface

variable {σ : Type}

/-- The panics a cycle may end in. They are those of the framework on frames that are too short,
metadata that is too large, and ports that fail; closures are taken to panic in no other way. -/
inductive Foreseen : Fault → Prop where
  | shortFrame : Foreseen .overflow
  | noHeader : Foreseen (.assertion "self.payload_size() > T2::size()")
  | metadata :
    Foreseen (.explicit "called `Result::unwrap()` on an `Err` value: MetadataTooLarge")
  | receive : Foreseen (.explicit "Receive failure")
  | send : Foreseen (.explicit "Send failed")

/-- Returns, or panics as foreseen. -/
def Returns {α : Type} (x : Outcome α) : Prop := Ends Foreseen (fun _ => True) x

/-- Shows the packet in a given mbuf, or panics as foreseen. -/
def Shows (ptr : Ptr) (x : Outcome Packet) : Prop := Ends Foreseen (fun p => p.mbuf = ptr) x

theorem Shows.mbuf_eq {ptr : Ptr} {x : Outcome Packet} {p : Packet} (h : Shows ptr x)
    (hp : x = .ok p) : p.mbuf = ptr := by
  rw [hp] at h
  exact h

/-! ## The ledger -/

/-- The mbufs the pipeline has given away. -/
def spent (w : World σ) : Multiset Ptr := (w.sent : Multiset Ptr) + w.dropped + w.freed

/-- Every mbuf received between `w₀` and `w` is sent, dropped, freed or still
held, exactly once. -/
def Accounts (w₀ w : World σ) (held : List Ptr) : Prop :=
  (w.received : Multiset Ptr) + spent w₀ = w₀.received + spent w + held

theorem accounts_self (w : World σ) : Accounts w w [] := (add_zero _).symm

theorem Accounts.of_logs {w₀ w w' : World σ} {held : List Ptr} (h : Accounts w₀ w held)
    (hreceived : w'.received = w.received) (hsent : w'.sent = w.sent)
    (hdropped : w'.dropped = w.dropped) (hfreed : w'.freed = w.freed) : Accounts w₀ w' held := by
  unfold Accounts spent at h ⊢
  rw [hreceived, hsent, hdropped, hfreed]
  exact h

theorem Accounts.recv {w₀ w w' : World σ} {queue room : Nat} {pkts : List Ptr}
    (h : Accounts w₀ w []) (hres : w.recv queue room = (.ok pkts, w')) : Accounts w₀ w' pkts := by
  unfold World.recv at hres
  split at hres
  · cases hres
    exact h
  · cases hres
  · cases hres
    unfold Accounts at h
    show ((w.received ++ _ : List Ptr) : Multiset Ptr) + spent w₀ = w₀.received + spent w + _
    rw [← Multiset.coe_add, add_right_comm, h, Multiset.coe_nil, add_zero]

theorem Accounts.send {w₀ w w' : World σ} {n : Nat} {pkts : List Ptr} (h : Accounts w₀ w pkts)
    (hres : w.send pkts = (.ok n, w')) : Accounts w₀ w' (pkts.drop n) := by
  unfold World.send at hres
  split at hres
  · cases hres
    exact h
  · cases hres
  · cases hres
    unfold Accounts at h
    rw [← List.take_append_drop (min _ pkts.length) pkts, ← Multiset.coe_add] at h
    refine h.trans ?_
    unfold spent
    rw [← Multiset.coe_add]
    abel

theorem Accounts.drop {w₀ w : World σ} {pkts gone kept : List Ptr} (h : Accounts w₀ w pkts)
    (hsplit : pkts.Perm (gone ++ kept)) : Accounts w₀ (w.drop gone) kept := by
  unfold Accounts at h
  rw [Multiset.coe_eq_coe.mpr hsplit, ← Multiset.coe_add] at h
  refine h.trans ?_
  unfold spent World.drop
  rw [← Multiset.coe_add]
  abel

theorem Accounts.free {w₀ w : World σ} {pkts : List Ptr} (h : Accounts w₀ w pkts) :
    Accounts w₀ (w.free pkts) [] := by
  refine Eq.trans h ?_
  unfold spent World.free
  rw [← Multiset.coe_add, Multiset.coe_nil]
  abel

/-- The verdicts of a filter divide the packets. -/
theorem perm_select : ∀ {verdicts : List Bool} {pkts : List Ptr},
    pkts.length = verdicts.length →
      pkts.Perm (PacketBatch.select false verdicts pkts ++
        PacketBatch.select true verdicts pkts) := by
  intro verdicts
  induction verdicts with
  | nil =>
    intro pkts hlen
    rw [List.length_eq_zero_iff.mp hlen]
    exact List.Perm.refl _
  | cons v verdicts ih =>
    intro pkts hlen
    cases pkts with
    | nil => cases hlen
    | cons pkt pkts =>
      have hrest := ih (Nat.succ.inj hlen)
      cases v with
      | false =>
        rw [PacketBatch.select_cons_self, PacketBatch.select_cons_ne (by decide)]
        exact hrest.cons pkt
      | true =>
        rw [PacketBatch.select_cons_self, PacketBatch.select_cons_ne (by decide)]
        exact (hrest.cons pkt).trans List.perm_middle.symm

/-- A record of what a pipeline does to the world, relative to the packets it holds: every step
of a cycle keeps it. A receive starts it with what came in, closures touch packets that are held
and their own state, and a drop leaves the packets that were not dropped. -/
structure Ledger (L : World σ → List Ptr → Prop) : Prop where
  recv : ∀ {w w' : World σ} {queue room : Nat} {pkts : List Ptr}, L w [] →
    w.recv queue room = (.ok pkts, w') → L w' pkts
  touch : ∀ {w : World σ} {held : List Ptr} {ptr : Ptr}, L w held → ptr ∈ held → ∀ m s,
    L { w with mem := Function.update w.mem ptr m, state := s } held
  state : ∀ {w : World σ} {held : List Ptr}, L w held → ∀ s, L { w with state := s } held
  drop : ∀ {w : World σ} {held : List Ptr} {verdicts : List Bool}, L w held →
    held.length = verdicts.length →
    L (w.drop (PacketBatch.select false verdicts held)) (PacketBatch.select true verdicts held)

theorem ledger_accounts (w₀ : World σ) : Ledger (Accounts w₀) where
  recv := fun h hres => h.recv hres
  touch := fun h _ _ _ => h.of_logs rfl rfl rfl rfl
  state := fun h _ => h.of_logs rfl rfl rfl rfl
  drop := fun h hlen => h.drop (perm_select hlen)

/-! ## The loops -/

section Loops

variable {L : World σ → List Ptr → Prop} (hL : Ledger L)
include hL

theorem Ledger.sweep {view : View} {body : Body σ} (hview : ∀ mem ptr, Shows ptr (view mem ptr))
    (hbody : ∀ p m s, Returns (body p m s)) {held : List Ptr} :
    ∀ (pkts : List Ptr) {w : World σ}, (∀ ptr ∈ pkts, ptr ∈ held) → L w held →
      Ends Foreseen (fun w' => L w' held) (sweep view body pkts w) := by
  intro pkts
  induction pkts with
  | nil => intro w _ h; exact h
  | cons ptr pkts ih =>
    intro w hsub h
    refine (hview w.mem ptr).bind fun p hp => ?_
    have hmem : p.mbuf ∈ held := hp ▸ hsub ptr List.mem_cons_self
    refine Ends.bind (Q := fun w' => L w' held) ?_
      fun w' hw' => ih (fun x hx => hsub x (List.mem_cons_of_mem ptr hx)) hw'
    exact (hbody p _ _).bind fun r _ => hL.touch h hmem r.1 r.2

theorem Ledger.judge {view : View} {f : FilterFn σ} (hview : ∀ mem ptr, Shows ptr (view mem ptr))
    {held : List Ptr} :
    ∀ (pkts : List Ptr) {w : World σ}, L w held →
      Ends Foreseen (fun r => L r.2 held) (judge view f pkts w) := by
  intro pkts
  induction pkts with
  | nil => intro w h; exact h
  | cons ptr pkts ih =>
    intro w h
    refine (hview w.mem ptr).bind fun p _ => ?_
    exact (ih (hL.state h (f p (w.mem p.mbuf) w.state).2)).bind fun r hr => hr

end Loops

namespace Batch

/-! ## The packets in a pipeline -/

/-- The pipeline holds the packets `pkts`, at most `n` of them, and nothing is
waiting to be freed. In a merge the packets are with the parent whose turn it
is. -/
def Carries (n : Nat) : Batch σ → List Ptr → Prop
  | .receive parent _ _, pkts => ∃ room ≤ n, parent.Holds room pkts
  | .through g parent, pkts => (∀ p m, Shows p.mbuf (g p m)) ∧ parent.Carries n pkts
  | .each body _ parent, pkts => (∀ p m s, Returns (body p m s)) ∧ parent.Carries n pkts
  | .filter _ remove parent, pkts => remove = [] ∧ parent.Carries n pkts
  | .merge count parents which, pkts =>
    ∃ h : which < count, (parents ⟨which, h⟩).Carries n pkts ∧
      ∀ i, i ≠ ⟨which, h⟩ → (parents i).Carries n []

/-- A merge whose current parent has changed. -/
theorem carries_update {n count which : Nat} {parents : Fin count → Batch σ} {parent : Batch σ}
    {pkts : List Ptr} (h : which < count) (hparent : parent.Carries n pkts)
    (hothers : ∀ i, i ≠ ⟨which, h⟩ → (parents i).Carries n []) :
    (merge count (Function.update parents ⟨which, h⟩ parent) which).Carries n pkts := by
  refine ⟨h, ?_, fun i hi => ?_⟩
  · rw [Function.update_self]
    exact hparent
  · rw [Function.update_of_ne hi]
    exact hothers i hi

/-- The packets in a pipeline are what iteration gives. -/
theorem Carries.yields {n : Nat} : ∀ {b : Batch σ} {pkts : List Ptr}, b.Carries n pkts →
    b.packets = pkts ∧ pkts.length ≤ n ∧ b.Yields b.view pkts ∧
      ∀ mem ptr, Shows ptr (b.view mem ptr) := by
  intro b
  induction b with
  | receive parent queue received =>
    intro pkts h
    obtain ⟨room, hle, h⟩ := h
    exact ⟨h.contents, h.le.trans hle, yields_receive h, fun _ _ => rfl⟩
  | through g parent ih =>
    intro pkts h
    obtain ⟨hg, h⟩ := h
    obtain ⟨hpkts, hle, hyields, hview⟩ := ih h
    refine ⟨hpkts, hle, hyields.through g, fun mem ptr => ?_⟩
    refine (hview mem ptr).bind ?_
    intro p heq
    subst heq
    exact hg p _
  | each body applied parent ih =>
    intro pkts h
    obtain ⟨-, h⟩ := h
    obtain ⟨hpkts, hle, hyields, hview⟩ := ih h
    exact ⟨hpkts, hle, hyields.each body applied, hview⟩
  | filter keep remove parent ih =>
    intro pkts h
    obtain ⟨-, h⟩ := h
    obtain ⟨hpkts, hle, hyields, hview⟩ := ih h
    exact ⟨hpkts, hle, hyields.filter keep remove, hview⟩
  | merge count parents which ih =>
    intro pkts h
    obtain ⟨hlt, h, -⟩ := h
    rw [packets, view, dif_pos hlt, dif_pos hlt]
    obtain ⟨hpkts, hle, hyields, hview⟩ := ih _ h
    exact ⟨hpkts, hle, Yields.merge hlt hyields, hview⟩

/-- What a call does to a `PacketBatch` it does to the pipeline around it. -/
theorem Carries.withPacketBatch {α : Type} {n : Nat} {pkts : List Ptr} {F : Fault → Prop}
    {f : PacketBatch → Outcome (α × PacketBatch × World σ)} {Q : α → List Ptr → World σ → Prop}
    (hf : ∀ room p, PacketBatch.Holds room pkts p → Ends F
      (fun r => ∃ pkts', PacketBatch.Holds room pkts' r.2.1 ∧ Q r.1 pkts' r.2.2) (f p)) :
    ∀ {b : Batch σ}, b.Carries n pkts → Ends F
      (fun r => ∃ pkts', r.2.1.Carries n pkts' ∧ Q r.1 pkts' r.2.2) (b.withPacketBatch f) := by
  intro b
  induction b with
  | receive parent queue received =>
    intro h
    obtain ⟨room, hle, h⟩ := h
    refine (hf room parent h).bind ?_
    intro res h'
    obtain ⟨a, parent', w'⟩ := res
    obtain ⟨pkts', h', hQ⟩ := h'
    exact ⟨pkts', ⟨room, hle, h'⟩, hQ⟩
  | through g parent ih =>
    intro h
    obtain ⟨hg, h⟩ := h
    refine (ih h).bind ?_
    intro res h'
    obtain ⟨a, parent', w'⟩ := res
    obtain ⟨pkts', h', hQ⟩ := h'
    exact ⟨pkts', ⟨hg, h'⟩, hQ⟩
  | each body applied parent ih =>
    intro h
    obtain ⟨hbody, h⟩ := h
    refine (ih h).bind ?_
    intro res h'
    obtain ⟨a, parent', w'⟩ := res
    obtain ⟨pkts', h', hQ⟩ := h'
    exact ⟨pkts', ⟨hbody, h'⟩, hQ⟩
  | filter keep remove parent ih =>
    intro h
    obtain ⟨hnil, h⟩ := h
    refine (ih h).bind ?_
    intro res h'
    obtain ⟨a, parent', w'⟩ := res
    obtain ⟨pkts', h', hQ⟩ := h'
    exact ⟨pkts', ⟨hnil, h'⟩, hQ⟩
  | merge count parents which ih =>
    intro h
    obtain ⟨hlt, h, hothers⟩ := h
    rw [Batch.withPacketBatch, dif_pos hlt]
    refine (ih _ h).bind ?_
    intro res h'
    obtain ⟨a, parent', w'⟩ := res
    obtain ⟨pkts', h', hQ⟩ := h'
    exact ⟨pkts', carries_update hlt h' hothers, hQ⟩

/-! ## Acting -/

section Acting

variable {L : World σ → List Ptr → Prop} (hL : Ledger L)
include hL

theorem Carries.receive {n room queue received : Nat} {p : PacketBatch} (hle : room ≤ n)
    (h : p.Holds room []) {w : World σ} (hw : L w []) :
    Ends Foreseen (fun r => ∃ pkts, r.1.Carries n pkts ∧ L r.2 pkts)
      (p.recv queue w >>= fun r => receiveExpect queue received r.2.1 r.2.2 r.1) := by
  rcases hres : w.recv queue room with ⟨e | pkts, w'⟩
  · obtain ⟨p', hrecv⟩ := h.recv_error hres
    rw [hrecv]
    exact Foreseen.receive
  · obtain ⟨p', hrecv, h'⟩ := h.recv_ok hres
    rw [hrecv]
    exact ⟨pkts, ⟨room, hle, h'⟩, hL.recv hw hres⟩

theorem Carries.each_loop {n fuel : Nat} (hfuel : n < fuel) {b : Batch σ} {pkts : List Ptr}
    (h : b.Carries n pkts) {body : Body σ} (hbody : ∀ p m s, Returns (body p m s)) {w : World σ}
    (hw : L w pkts) :
    Ends Foreseen (fun r => L r.2 pkts)
      (b.forEach fuel (fun _ p (acc : Unit × World σ) => do
        let w ← applyBody body p acc.2
        .ok ((), w)) ((), w)) := by
  obtain ⟨-, hle, hyields, hview⟩ := h.yields
  rw [hyields.forEach_each (by omega)]
  exact (hL.sweep hview hbody pkts (fun _ hx => hx) hw).bind fun w' hw' => hw'

theorem Carries.drop_rejected {n : Nat} {b : Batch σ} {pkts : List Ptr} (h : b.Carries n pkts)
    {f : FilterFn σ} {verdicts : List Bool} (hlen : pkts.length = verdicts.length) {w : World σ}
    (hw : L w pkts) :
    Ends Foreseen (fun r => ∃ pkts', r.1.Carries n pkts' ∧ L r.2 pkts')
      (filterDrop f b (PacketBatch.rejectedFrom 0 verdicts) w) := by
  unfold Batch.filterDrop
  by_cases hnil : PacketBatch.rejectedFrom 0 verdicts = []
  · rw [if_pos hnil]
    exact ⟨pkts, ⟨rfl, h⟩, hw⟩
  · rw [if_neg hnil]
    refine Ends.bind (h.withPacketBatch
      (Q := fun (r : Option Nat) pkts' w' => r ≠ none ∧ L w' pkts') fun room p hp => ?_) ?_
    · obtain ⟨r, p', hdrop, hp'⟩ := hp.dropPacketsStable hlen w
      rw [hdrop]
      exact ⟨_, hp', Option.some_ne_none r, hL.drop hw hlen⟩
    · intro res hb'
      obtain ⟨r, b', w'⟩ := res
      obtain ⟨pkts', hb', hr, hw'⟩ := hb'
      cases r with
      | none => exact absurd rfl hr
      | some r => exact ⟨pkts', ⟨rfl, hb'⟩, hw'⟩

theorem Carries.filter_loop {n fuel : Nat} (hfuel : n < fuel) {b : Batch σ} {pkts : List Ptr}
    (h : b.Carries n pkts) (f : FilterFn σ) {w : World σ} (hw : L w pkts) :
    Ends Foreseen (fun r => ∃ pkts', r.1.Carries n pkts' ∧ L r.2 pkts')
      (b.forEach fuel (filterLoop f) ([], w) >>= fun r => filterDrop f b r.1 r.2) := by
  obtain ⟨-, hle, hyields, hview⟩ := h.yields
  rw [hyields.forEach_filter (by omega), bind_assoc]
  refine ((hL.judge hview pkts hw).and fun _ => judge_length).bind fun r hr => ?_
  rw [bind_ok, List.nil_append]
  exact Carries.drop_rejected hL h hr.1 hr.2

/-- `act` fills an empty pipeline with the packets it has received and not
dropped. -/
theorem Carries.act {n fuel : Nat} (hfuel : n < fuel) :
    ∀ {b : Batch σ} {w : World σ}, b.Carries n [] → L w [] →
      Ends Foreseen (fun r => ∃ pkts, r.1.Carries n pkts ∧ L r.2 pkts) (b.act fuel w) := by
  intro b
  induction b with
  | receive parent queue received =>
    intro w h hw
    obtain ⟨room, hle, h⟩ := h
    exact Carries.receive hL hle h hw
  | through g parent ih =>
    intro w h hw
    obtain ⟨hg, h⟩ := h
    refine (ih h hw).bind ?_
    intro res h'
    obtain ⟨parent', w'⟩ := res
    obtain ⟨pkts, h', hw'⟩ := h'
    exact ⟨pkts, ⟨hg, h'⟩, hw'⟩
  | each body applied parent ih =>
    intro w h hw
    obtain ⟨hbody, h⟩ := h
    cases applied with
    | true => exact ⟨[], ⟨hbody, h⟩, hw⟩
    | false =>
      refine (ih h hw).bind ?_
      intro res h'
      obtain ⟨parent', w'⟩ := res
      obtain ⟨pkts, h', hw'⟩ := h'
      refine (Carries.each_loop hL hfuel h' hbody hw').bind ?_
      intro res hw''
      obtain ⟨_, w''⟩ := res
      exact ⟨pkts, ⟨hbody, h'⟩, hw''⟩
  | filter keep remove parent ih =>
    intro w h hw
    obtain ⟨rfl, h⟩ := h
    refine (ih h hw).bind ?_
    intro res h'
    obtain ⟨parent', w'⟩ := res
    obtain ⟨pkts, h', hw'⟩ := h'
    exact Carries.filter_loop hL hfuel h' keep hw'
  | merge count parents which ih =>
    intro w h hw
    obtain ⟨hlt, h, hothers⟩ := h
    rw [Batch.act, dif_pos hlt]
    refine (ih _ h hw).bind ?_
    intro res h'
    obtain ⟨parent', w'⟩ := res
    obtain ⟨pkts, h', hw'⟩ := h'
    exact ⟨pkts, carries_update hlt h' hothers, hw'⟩

end Acting

/-- `done` frees what is left, and a merge turns to its next parent. -/
theorem Carries.done {n : Nat} :
    ∀ {b : Batch σ} {pkts : List Ptr}, b.Carries n pkts → ∀ w : World σ,
      ∃ b', b.done w = .ok (b', w.free pkts) ∧ b'.Carries n [] := by
  intro b
  induction b with
  | receive parent queue received =>
    intro pkts h w
    obtain ⟨room, hle, h⟩ := h
    obtain ⟨parent', hfree, h'⟩ := h.freePacketBatch w
    refine ⟨.receive parent' queue received, ?_, room, hle, h'⟩
    rw [Batch.done, hfree]
    rfl
  | through g parent ih =>
    intro pkts h w
    obtain ⟨hg, h⟩ := h
    obtain ⟨parent', hdone, h'⟩ := ih h w
    refine ⟨.through g parent', ?_, hg, h'⟩
    rw [Batch.done, hdone]
    rfl
  | each body applied parent ih =>
    intro pkts h w
    obtain ⟨hbody, h⟩ := h
    obtain ⟨parent', hdone, h'⟩ := ih h w
    refine ⟨.each body false parent', ?_, hbody, h'⟩
    rw [Batch.done, hdone]
    rfl
  | filter keep remove parent ih =>
    intro pkts h w
    obtain ⟨hnil, h⟩ := h
    obtain ⟨parent', hdone, h'⟩ := ih h w
    refine ⟨.filter keep remove parent', ?_, hnil, h'⟩
    rw [Batch.done, hdone]
    rfl
  | merge count parents which ih =>
    intro pkts h w
    obtain ⟨hlt, h, hothers⟩ := h
    obtain ⟨parent', hdone, h'⟩ := ih _ h w
    refine ⟨_, by rw [Batch.done, dif_pos hlt, hdone]; rfl, ?_⟩
    -- every parent is empty now, whoever comes next
    have hall : ∀ i, (Function.update parents ⟨which, hlt⟩ parent' i).Carries n [] := by
      intro i
      by_cases hi : i = ⟨which, hlt⟩
      · rw [hi, Function.update_self]
        exact h'
      · rw [Function.update_of_ne hi]
        exact hothers i hi
    have hnext : (if which + 1 = count then 0 else which + 1) < count := by
      split <;> omega
    exact ⟨hnext, hall _, fun i _ => hall i⟩

/-! ## Empty pipelines -/

/-- No `PacketBatch` of the pipeline holds an mbuf, in its array or in its
scratch vector. -/
def Empty : Batch σ → Prop
  | .receive parent _ _ => parent.array.toList = [] ∧ parent.scratch = []
  | .through _ parent => parent.Empty
  | .each _ _ parent => parent.Empty
  | .filter _ _ parent => parent.Empty
  | .merge _ parents _ => ∀ i, (parents i).Empty

theorem Carries.others {n count which : Nat} {parents : Fin count → Batch σ}
    (h : (merge count parents which).Carries n []) : ∀ i, (parents i).Carries n [] := by
  obtain ⟨hlt, hcurrent, hothers⟩ := h
  intro i
  by_cases hi : i = ⟨which, hlt⟩
  · rw [hi]
    exact hcurrent
  · exact hothers i hi

theorem Carries.empty {n : Nat} : ∀ {b : Batch σ}, b.Carries n [] → b.Empty := by
  intro b
  induction b with
  | receive parent queue received =>
    intro h
    obtain ⟨room, -, h⟩ := h
    exact ⟨h.contents, h.scratch⟩
  | through g parent ih => exact fun h => ih h.2
  | each body applied parent ih => exact fun h => ih h.2
  | filter keep remove parent ih => exact fun h => ih h.2
  | merge count parents which ih => exact fun h i => ih i (h.others i)

/-- Dropping an empty pipeline frees nothing. -/
theorem Empty.drop : ∀ {b : Batch σ}, b.Empty → ∀ w : World σ, b.drop w = .ok w := by
  intro b
  induction b with
  | receive parent queue received =>
    intro h w
    have hzero : parent.array.len = 0 := by
      rw [← RawVec.length_toList, h.1]
      rfl
    rw [Batch.drop, PacketBatch.freePacketBatch, if_pos hzero]
    rfl
  | through g parent ih => exact ih
  | each body applied parent ih => exact ih
  | filter keep remove parent ih => exact ih
  | merge count parents which ih =>
    intro h w
    rw [Batch.drop]
    induction List.finRange count with
    | nil => rfl
    | cons i rest ihrest =>
      rw [List.foldlM_cons, ih i (h i) w]
      exact ihrest

end Batch

/-! ## Pipelines -/

theorem shows_parseHeader (header : EndOffset) (p : Packet) (m : MBuf) :
    Shows p.mbuf (p.parseHeader header m) := by
  have hsub : ∀ a b : Nat, Returns (checkedSub a b) := by
    intro a b
    unfold checkedSub
    split
    · exact trivial
    · exact Foreseen.shortFrame
  have hsize : Returns (p.payloadSize m) := (hsub _ _).bind fun rest _ => hsub rest _
  refine hsize.bind fun size _ => ?_
  refine Ends.bind (Q := fun _ => True) ?_ fun _ _ => rfl
  unfold check
  split
  · exact trivial
  · exact Foreseen.noHeader

theorem returns_unwrapMetadata {size : Nat} (m : MBuf) (metadata : Vector UInt8 size) (s : σ) :
    Returns (unwrapMetadata m metadata s) := by
  unfold unwrapMetadata
  split
  · exact trivial
  · exact Foreseen.metadata

theorem carries_attach {n : Nat} {b : Batch σ} {pkts : List Ptr} (h : b.Carries n pkts)
    (s : Stage σ) : (s.attach b).Carries n pkts := by
  cases s with
  | parse header => exact ⟨shows_parseHeader header, h⟩
  | map f => exact ⟨fun _ _ _ => trivial, h⟩
  | transform f => exact ⟨fun _ _ _ => trivial, h⟩
  | filter f => exact ⟨rfl, h⟩
  | metadata f => exact ⟨fun _ _ _ => returns_unwrapMetadata _ _ _, h⟩
  | metadataMut f => exact ⟨fun _ _ _ => returns_unwrapMetadata _ _ _, h⟩
  | reset => exact ⟨fun _ _ => rfl, h⟩
  | compose => exact ⟨fun _ _ => rfl, fun _ _ => rfl, h⟩

theorem le_foldl_max {x : Nat} :
    ∀ {l : List Nat} {acc : Nat}, x ≤ acc ∨ x ∈ l → x ≤ l.foldl max acc := by
  intro l
  induction l with
  | nil => intro acc h; simpa using h
  | cons y l ih =>
    intro acc h
    refine ih ?_
    rcases h with h | h
    · exact .inl (h.trans (Nat.le_max_left _ _))
    · rcases List.mem_cons.mp h with rfl | h
      · exact .inl (Nat.le_max_right _ _)
      · exact .inr h

theorem carries_build : ∀ (pipe : Pipe σ) {n : Nat}, pipe.capacity ≤ n →
    pipe.build.Carries n [] := by
  intro pipe
  induction pipe with
  | receive queue slots =>
    intro n hn
    exact ⟨slots.length, hn, PacketBatch.holds_new slots⟩
  | stage s pipe ih =>
    intro n hn
    exact carries_attach (ih hn) s
  | merge others pipes ih =>
    intro n hn
    have hle : ∀ i, (pipes i).capacity ≤ n := fun i =>
      (le_foldl_max (.inr (List.mem_ofFn.mpr ⟨i, rfl⟩))).trans hn
    exact ⟨Nat.succ_pos _, ih _ (hle _), fun i _ => ih i (hle i)⟩

/-- The ledger from `w₀` on is balanced and the pipeline empty. -/
def Settled (n : Nat) (w₀ : World σ) (r : SendBatch σ × World σ) : Prop :=
  r.1.parent.Carries n [] ∧ Accounts w₀ r.2 []

theorem settled_execute {n fuel : Nat} (hfuel : n < fuel) {s : SendBatch σ} {w₀ w : World σ}
    (h : Settled n w₀ (s, w)) : Ends Foreseen (Settled n w₀) (s.execute fuel w) := by
  unfold SendBatch.execute
  refine (Batch.Carries.act (ledger_accounts w₀) hfuel h.1 h.2).bind ?_
  intro res hb
  obtain ⟨b, w₁⟩ := res
  obtain ⟨pkts, hb, hw₁⟩ := hb
  -- what `send` leaves is still in the batch
  refine Ends.bind (hb.withPacketBatch
    (Q := fun (r : Except ErrorKind Nat) left w' => r.toBool = true → Accounts w₀ w' left)
    fun room p hp => ?_) ?_
  · rcases hp.sendQ w₁ with ⟨-, hsend⟩ | ⟨-, e, w₂, -, hsend⟩ | ⟨-, sent, w₂, p', hres, hsend, hp'⟩
    · rw [hsend]
      exact ⟨pkts, hp, fun _ => hw₁⟩
    · rw [hsend]
      exact ⟨pkts, hp, fun hr => nomatch hr⟩
    · rw [hsend]
      exact ⟨pkts.drop sent, hp', fun _ => hw₁.send hres⟩
  · intro res hb₂
    obtain ⟨r, b₂, w₂⟩ := res
    obtain ⟨left, hb₂, hw₂⟩ := hb₂
    cases r with
    | error e => exact Foreseen.send
    | ok sent =>
      obtain ⟨b₃, hdone, hb₃⟩ := hb₂.done w₂
      dsimp only [SendBatch.expect]
      rw [hdone]
      exact ⟨hb₃, (hw₂ rfl).free⟩

/-- After any number of cycles of any pipeline, whatever the ports have answered,
every mbuf received was handed to the port, freed by `drop_packets` or freed by
`done`, exactly once; no batch holds an mbuf, no scratch vector does, and dropping
the pipeline frees nothing again. -/
theorem pipeline_owns_mbufs (pipe : Pipe σ) (fuel n : Nat) (hfuel : pipe.capacity < fuel)
    (state : σ) (mem : Mem) (rx : Nat → List (Except ErrorKind (List (Ptr × MBuf))))
    (tx : List (Except ErrorKind Nat)) :
    Ends Foreseen
      (fun r => r.2.received.Perm (r.2.sent ++ r.2.dropped ++ r.2.freed) ∧
        r.1.parent.Empty ∧ r.1.parent.drop r.2 = .ok r.2)
      (SendBatch.cycles fuel n
        (SendBatch.new pipe.build, { state := state, mem := mem, rx := rx, tx := tx })) := by
  -- the ledger is kept from the first cycle on
  have hstart : Settled pipe.capacity { state := state, mem := mem, rx := rx, tx := tx }
      (SendBatch.new pipe.build, { state := state, mem := mem, rx := rx, tx := tx }) :=
    ⟨carries_build pipe (Nat.le_refl _), accounts_self _⟩
  refine (Ends.iterate (fun a ha => settled_execute hfuel ha) n hstart).mono ?_
  intro r hr
  have hempty := hr.1.empty
  refine ⟨?_, hempty, hempty.drop r.2⟩
  have hw := hr.2
  simp only [Accounts, spent, Multiset.coe_nil, add_zero, zero_add, Multiset.coe_add] at hw
  exact Multiset.coe_eq_coe.mp hw

/-- Two queues merged, packets at even addresses dropped. -/
def oddPipe : Pipe Nat :=
  .stage (.filter fun p _ s => (p.mbuf % 2 == 1, s + 1))
    (.merge 1 ![.receive 0 [0, 0, 0, 0], .receive 1 [0, 0]])

/-- Three packets come in on the first queue and two on the second; the port takes
one packet of each batch. -/
def oddWorld : World Nat :=
  let m : MBuf := { bufAddr := 0, buf := [], dataOff := 0, dataLen := 0, slots := [] }
  { state := 0
    mem := fun _ => m
    rx := fun queue =>
      if queue % 2 = 0 then [.ok [(11, m), (12, m), (13, m)]] else [.ok [(20, m), (21, m)]]
    tx := [.ok 1, .ok 1] }

theorem pipeline_owns_mbufs_merged :
    oddPipe.capacity < 5 ∧
    ∃ r, SendBatch.cycles 5 2 (SendBatch.new oddPipe.build, oddWorld) = .ok r ∧
      (r.2.sent, r.2.dropped, r.2.freed) = ([11, 21], [12, 20], [13]) ∧
      r.2.received.Perm (r.2.sent ++ r.2.dropped ++ r.2.freed) ∧
      r.1.parent.Empty ∧ r.1.parent.drop r.2 = .ok r.2 :=
  ⟨by decide, _, rfl, rfl, pipeline_owns_mbufs oddPipe 5 2 (by decide) oddWorld.state oddWorld.mem
    oddWorld.rx oddWorld.tx⟩

end NetBricks.Operators
