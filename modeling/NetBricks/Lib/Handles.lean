import Mathlib.Algebra.BigOperators.Group.Finset.Piecewise
import Mathlib.Algebra.Order.BigOperators.Group.Finset
import Mathlib.Algebra.Order.Group.Multiset
import Mathlib.Logic.Function.Basic

/-!
# Handles with a private cache over something shared

Several handles, each held under a name, act on one shared value. A handle can be
cloned under another name; the clone is a copy of all the handle owns. What is passed
to a handle may wait in it (`pending`) before it goes out to what is shared (`sent`).

A call on a handle that sends at most what was pending and what it was passed conserves
the sum (`Ledger.conserve`). A clone does not: what was pending is then pending twice.
`sentIn_le_passedIn` says when this does no harm: at each clone nothing is pending, or
of the two copies one is not used before its name is given to another handle.

The proof carries a bound on what is pending in the names still to be used (`Covered`).
A name is live in the sense of a compiler: used later, before it is assigned again.
Runs that agree on the live names agree in what is shared (`run_shared_congr`).
-/

namespace NetBricks.Lib

variable {ι H σ κ μ ς α : Type}

/-- What can be done with handles `H` over `σ`: calls `κ` on a handle, a new handle, and
calls `ς` on what is shared. -/
structure HandleSystem (H σ κ μ ς : Type) where
  act : H → σ → κ → H × σ
  make : σ → μ → H × σ
  env : σ → ς → σ

/-- The handles by name, and what they share. -/
structure Handles (ι H σ : Type) where
  handle : ι → Option H
  shared : σ

inductive HandleCall (ι κ μ ς : Type) where
  | act (name : ι) (call : κ)
  | clone (name copy : ι)
  | make (name : ι) (args : μ)
  | env (call : ς)
  deriving DecidableEq, Repr

namespace HandleCall

/-- The handle a call uses. -/
def uses : HandleCall ι κ μ ς → Option ι
  | act name _ => some name
  | clone name _ => some name
  | make _ _ => none
  | env _ => none

/-- The name a call gives to another handle. -/
def assigns : HandleCall ι κ μ ς → Option ι
  | act _ _ => none
  | clone _ copy => some copy
  | make name _ => some name
  | env _ => none

end HandleCall

/-- The handle under the name is used, before the name is given to another. -/
def Live (n : ι) : List (HandleCall ι κ μ ς) → Prop
  | [] => False
  | c :: cs => c.uses = some n ∨ (c.assigns ≠ some n ∧ Live n cs)

theorem Live.of_uses {n : ι} {c : HandleCall ι κ μ ς} (h : c.uses = some n)
    (cs : List (HandleCall ι κ μ ς)) : Live n (c :: cs) := Or.inl h

theorem Live.of_rest {n : ι} {c : HandleCall ι κ μ ς} {cs : List (HandleCall ι κ μ ς)}
    (hc : c.assigns ≠ some n) (h : Live n cs) : Live n (c :: cs) := Or.inr ⟨hc, h⟩

theorem update_congr_on [DecidableEq ι] {β : Type} {P : ι → Prop} {f f' : ι → β} {i : ι}
    (h : ∀ n, n ≠ i → P n → f' n = f n) (b : β) :
    ∀ n, P n → Function.update f' i b n = Function.update f i b n := by
  intro n hP
  by_cases hn : n = i
  · rw [hn, Function.update_self, Function.update_self]
  · rw [Function.update_of_ne hn, Function.update_of_ne hn]
    exact h n hn hP

namespace Handles

variable [DecidableEq ι]

/-- The handles after a call. A name without a handle has no calls. -/
def step (M : HandleSystem H σ κ μ ς) (s : Handles ι H σ) :
    HandleCall ι κ μ ς → Handles ι H σ
  | .act name call =>
    match s.handle name with
    | none => s
    | some h =>
      { handle := Function.update s.handle name (some (M.act h s.shared call).1)
        shared := (M.act h s.shared call).2 }
  | .clone name copy => { s with handle := Function.update s.handle copy (s.handle name) }
  | .make name args =>
    { handle := Function.update s.handle name (some (M.make s.shared args).1)
      shared := (M.make s.shared args).2 }
  | .env call => { s with shared := M.env s.shared call }

def run (M : HandleSystem H σ κ μ ς) (s : Handles ι H σ) (calls : List (HandleCall ι κ μ ς)) :
    Handles ι H σ := calls.foldl (step M) s

/-! ## Names that are not used -/

/-- The same is shared, and the same handles will be used. -/
structure AgreeOn (calls : List (HandleCall ι κ μ ς)) (s s' : Handles ι H σ) : Prop where
  shared : s'.shared = s.shared
  handle : ∀ n, Live n calls → s'.handle n = s.handle n

variable {M : HandleSystem H σ κ μ ς}

theorem AgreeOn.step {c : HandleCall ι κ μ ς} {cs : List (HandleCall ι κ μ ς)}
    {s s' : Handles ι H σ} (h : AgreeOn (c :: cs) s s') :
    AgreeOn cs (s.step M c) (s'.step M c) := by
  obtain ⟨handle', shared'⟩ := s'
  obtain ⟨rfl, hhandle⟩ := h
  have hrest : ∀ n, c.assigns ≠ some n → Live n cs → handle' n = s.handle n :=
    fun n hn hlive => hhandle n (Live.of_rest hn hlive)
  cases c with
  | act name call =>
    have hname : handle' name = s.handle name := hhandle name (Live.of_uses rfl cs)
    unfold Handles.step
    dsimp only
    rw [hname]
    cases s.handle name with
    | none => exact ⟨rfl, fun n => hrest n nofun⟩
    | some d => exact ⟨rfl, update_congr_on (fun n _ => hrest n nofun) _⟩
  | clone name copy =>
    have hname : handle' name = s.handle name := hhandle name (Live.of_uses rfl cs)
    unfold Handles.step
    dsimp only
    rw [hname]
    exact ⟨rfl, update_congr_on (fun n hn => hrest n (fun h => hn (Option.some.inj h).symm)) _⟩
  | make name args =>
    exact ⟨rfl, update_congr_on (fun n hn => hrest n (fun h => hn (Option.some.inj h).symm)) _⟩
  | env call => exact ⟨rfl, fun n => hrest n nofun⟩

theorem run_shared_congr : ∀ (calls : List (HandleCall ι κ μ ς)) {s s' : Handles ι H σ},
    AgreeOn calls s s' → (s'.run M calls).shared = (s.run M calls).shared := by
  intro calls
  induction calls with
  | nil => exact fun h => h.shared
  | cons c cs ih => exact fun h => ih h.step

/-- A clone that is not used changes nothing that is shared. -/
theorem run_clone_of_not_live {before rest : List (HandleCall ι κ μ ς)} (s : Handles ι H σ)
    (name : ι) {copy : ι} (h : ¬ Live copy rest) :
    (s.run M (before ++ .clone name copy :: rest)).shared = (s.run M (before ++ rest)).shared := by
  unfold run
  rw [List.foldl_append, List.foldl_append, List.foldl_cons]
  apply run_shared_congr rest
  refine ⟨rfl, ?_⟩
  intro n hlive
  have hn : n ≠ copy := by
    rintro rfl
    exact h hlive
  exact Function.update_of_ne hn _ _

end Handles

/-! ## What is pending and what is sent -/

/-- What waits in a handle, what a call passes to it and what a call sends. -/
structure Ledger (M : HandleSystem H σ κ μ ς) (α : Type) where
  pending : H → List α
  passed : κ → List α
  sent : H → σ → κ → List α
  conserve : ∀ h s k, (pending (M.act h s k).1 : Multiset α) + sent h s k ≤ pending h + passed k
  fresh : ∀ s m, pending (M.make s m).1 = []

namespace Ledger

variable [DecidableEq ι] {M : HandleSystem H σ κ μ ς} (L : Ledger M α)

/-- What a call passes to the handle it is made on. -/
def passedBy (s : Handles ι H σ) : HandleCall ι κ μ ς → List α
  | .act name call =>
    match s.handle name with
    | none => []
    | some _ => L.passed call
  | .clone _ _ => []
  | .make _ _ => []
  | .env _ => []

/-- What a call sends. -/
def sentBy (s : Handles ι H σ) : HandleCall ι κ μ ς → List α
  | .act name call =>
    match s.handle name with
    | none => []
    | some h => L.sent h s.shared call
  | .clone _ _ => []
  | .make _ _ => []
  | .env _ => []

/-- What the calls of a run pass to the handles. -/
def passedIn : Handles ι H σ → List (HandleCall ι κ μ ς) → List α
  | _, [] => []
  | s, c :: cs => L.passedBy s c ++ passedIn (s.step M c) cs

/-- What the calls of a run send. -/
def sentIn : Handles ι H σ → List (HandleCall ι κ μ ς) → List α
  | _, [] => []
  | s, c :: cs => L.sentBy s c ++ sentIn (s.step M c) cs

/-- A clone is of a handle in which nothing is pending, or one of the two copies is not
used. -/
def Apart (s : Handles ι H σ) (rest : List (HandleCall ι κ μ ς)) : HandleCall ι κ μ ς → Prop
  | .clone name copy =>
    (∀ h, s.handle name = some h → L.pending h = []) ∨ ¬ Live name rest ∨ ¬ Live copy rest
  | .act _ _ => True
  | .make _ _ => True
  | .env _ => True

/-- Every clone of the run, in the state it is made in. -/
def ClonesApart : Handles ι H σ → List (HandleCall ι κ μ ς) → Prop
  | _, [] => True
  | s, c :: cs => L.Apart s cs c ∧ ClonesApart (s.step M c) cs

/-- What is pending in a handle, if there is one. -/
def pendingOf : Option H → Multiset α
  | none => 0
  | some h => L.pending h

/-- What is pending in the live handles and what was sent is within what was passed. -/
def Covered (calls : List (HandleCall ι κ μ ς)) (s : Handles ι H σ) (sent passed : Multiset α) :
    Prop :=
  ∀ names : Finset ι, (∀ n ∈ names, Live n calls) →
    ∑ n ∈ names, L.pendingOf (s.handle n) + sent ≤ passed

theorem pendingOf_update (f : ι → Option H) (i : ι) (d : Option H) (n : ι) :
    L.pendingOf (Function.update f i d n) =
      Function.update (fun n => L.pendingOf (f n)) i (L.pendingOf d) n :=
  congrFun (Function.comp_update L.pendingOf f i d) n

/-- One name has another handle: the others, and what is pending in it. -/
theorem sum_pendingOf_update_le (names : Finset ι) (f : ι → Option H) (i : ι) (d : Option H) :
    ∑ n ∈ names, L.pendingOf (Function.update f i d n) ≤
      L.pendingOf d + ∑ n ∈ names.erase i, L.pendingOf (f n) := by
  simp only [L.pendingOf_update]
  by_cases hi : i ∈ names
  · rw [Finset.sum_update_of_mem hi, Finset.sdiff_singleton_eq_erase]
  · rw [Finset.sum_update_of_notMem hi, Finset.erase_eq_of_notMem hi]
    exact Multiset.le_add_left _ _

section Step

variable {L} {s : Handles ι H σ} {cs : List (HandleCall ι κ μ ς)} {sent passed : Multiset α}

theorem Covered.act {name : ι} {call : κ} {h : H}
    (hs : L.Covered (.act name call :: cs) s sent passed) (hname : s.handle name = some h) :
    L.Covered cs { handle := Function.update s.handle name (some (M.act h s.shared call).1)
                   shared := (M.act h s.shared call).2 }
      (sent + L.sent h s.shared call) (passed + L.passed call) := by
  intro names hnames
  have hcovered := hs (insert name (names.erase name)) (by
    intro n hn
    rcases Finset.mem_insert.mp hn with rfl | hn
    · exact Live.of_uses rfl cs
    · exact Live.of_rest nofun (hnames n (Finset.mem_of_mem_erase hn)))
  rw [Finset.sum_insert (Finset.notMem_erase name names), hname] at hcovered
  calc ∑ n ∈ names, L.pendingOf (Function.update s.handle name (some (M.act h s.shared call).1) n)
        + (sent + L.sent h s.shared call)
      ≤ (L.pending (M.act h s.shared call).1 + ∑ n ∈ names.erase name, L.pendingOf (s.handle n))
          + (sent + L.sent h s.shared call) :=
        add_le_add_left (L.sum_pendingOf_update_le names s.handle name _) _
    _ = (L.pending (M.act h s.shared call).1 + L.sent h s.shared call)
          + (∑ n ∈ names.erase name, L.pendingOf (s.handle n) + sent) := by
        ac_rfl
    _ ≤ (L.pending h + L.passed call)
          + (∑ n ∈ names.erase name, L.pendingOf (s.handle n) + sent) :=
        add_le_add_left (L.conserve h s.shared call) _
    _ = L.pending h + ∑ n ∈ names.erase name, L.pendingOf (s.handle n) + sent + L.passed call := by
        ac_rfl
    _ ≤ passed + L.passed call := add_le_add_left hcovered _

/-- A name is given to a handle in which nothing is pending. -/
theorem Covered.assign_empty {c : HandleCall ι κ μ ς} {name : ι} {d : Option H} {shared : σ}
    (hs : L.Covered (c :: cs) s sent passed) (hc : c.assigns = some name)
    (hd : L.pendingOf d = 0) :
    L.Covered cs { handle := Function.update s.handle name d, shared := shared } sent passed := by
  intro names hnames
  have hcovered := hs (names.erase name) (by
    intro n hn
    obtain ⟨hne, hn⟩ := Finset.mem_erase.mp hn
    exact Live.of_rest (fun h => hne (Option.some.inj (hc.symm.trans h)).symm) (hnames n hn))
  have hsum := L.sum_pendingOf_update_le names s.handle name d
  rw [hd, zero_add] at hsum
  exact le_trans (add_le_add_left hsum sent) hcovered

theorem Covered.clone {name copy : ι} (hs : L.Covered (.clone name copy :: cs) s sent passed)
    (hapart : L.Apart s cs (.clone name copy)) :
    L.Covered cs { s with handle := Function.update s.handle copy (s.handle name) } sent
      passed := by
  rcases hapart with hempty | hname | hcopy
  · apply hs.assign_empty rfl
    cases h : s.handle name with
    | none => rfl
    | some d => rw [pendingOf, hempty d h, Multiset.coe_nil]
  · -- the clone takes the place of the handle
    intro names hnames
    have hnot : name ∉ names.erase copy := fun h => hname (hnames name (Finset.mem_of_mem_erase h))
    have hcovered := hs (insert name (names.erase copy)) (by
      intro n hn
      rcases Finset.mem_insert.mp hn with rfl | hn
      · exact Live.of_uses rfl cs
      · obtain ⟨hne, hn⟩ := Finset.mem_erase.mp hn
        exact Live.of_rest (fun h => hne (Option.some.inj h).symm) (hnames n hn))
    rw [Finset.sum_insert hnot] at hcovered
    exact le_trans (add_le_add_left (L.sum_pendingOf_update_le names s.handle copy _) sent) hcovered
  · -- the clone is not among the names
    intro names hnames
    have hnot : copy ∉ names := fun h => hcopy (hnames copy h)
    have hcovered := hs names (by
      intro n hn
      apply Live.of_rest _ (hnames n hn)
      rintro ⟨⟩
      exact hnot hn)
    simp only [L.pendingOf_update]
    rw [Finset.sum_update_of_notMem hnot]
    exact hcovered

theorem Covered.step {c : HandleCall ι κ μ ς} (hs : L.Covered (c :: cs) s sent passed)
    (hapart : L.Apart s cs c) :
    L.Covered cs (s.step M c) (sent + L.sentBy s c) (passed + L.passedBy s c) := by
  have hsame : c.assigns = none → L.Covered cs s sent passed := fun hc names hnames =>
    hs names (fun n hn => Live.of_rest (by rw [hc]; nofun) (hnames n hn))
  cases c with
  | act name call =>
    cases h : s.handle name with
    | none =>
      simp only [Handles.step, sentBy, passedBy, h, Multiset.coe_nil, add_zero]
      exact hsame rfl
    | some d =>
      simp only [Handles.step, sentBy, passedBy, h]
      exact hs.act h
  | clone name copy =>
    simp only [sentBy, passedBy, Multiset.coe_nil, add_zero]
    exact hs.clone hapart
  | make name args =>
    simp only [sentBy, passedBy, Multiset.coe_nil, add_zero]
    exact hs.assign_empty rfl (by rw [pendingOf, L.fresh, Multiset.coe_nil])
  | env call =>
    simp only [sentBy, passedBy, Multiset.coe_nil, add_zero]
    exact hsame rfl

end Step

theorem Covered.run : ∀ (calls : List (HandleCall ι κ μ ς)) {s : Handles ι H σ}
    {sent passed : Multiset α}, L.Covered calls s sent passed → L.ClonesApart s calls →
    sent + L.sentIn s calls ≤ passed + L.passedIn s calls := by
  intro calls
  induction calls with
  | nil =>
    intro s sent passed hs _
    have hempty := hs ∅ nofun
    rw [Finset.sum_empty, zero_add] at hempty
    exact add_le_add_left hempty _
  | cons c cs ih =>
    intro s sent passed hs hapart
    have hrest := ih (hs.step hapart.1) hapart.2
    rw [sentIn, passedIn, ← Multiset.coe_add, ← Multiset.coe_add, ← add_assoc, ← add_assoc]
    exact hrest

/-- Starting with nothing pending, a run whose clones do no harm sends each thing that
was passed to a handle at most once. -/
theorem sentIn_le_passedIn {s : Handles ι H σ} {calls : List (HandleCall ι κ μ ς)}
    (hempty : ∀ n h, s.handle n = some h → L.pending h = []) (hapart : L.ClonesApart s calls) :
    (L.sentIn s calls : Multiset α) ≤ L.passedIn s calls := by
  have hstart : L.Covered calls s 0 0 := by
    intro names _
    rw [add_zero]
    apply le_of_eq
    apply Finset.sum_eq_zero
    intro n _
    cases h : s.handle n with
    | none => rfl
    | some d => rw [pendingOf, hempty n d h, Multiset.coe_nil]
  have hrun := Covered.run L calls hstart hapart
  rwa [zero_add, zero_add] at hrun

end Ledger

end NetBricks.Lib
