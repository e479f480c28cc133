import NetBricks.Lib.Judgment

/-!
# Runs of a sequential machine

A machine is a step function from a state and an operation to a result and the
next state. `runOps` performs a list of operations and collects the results.

These rules carry every whole-run statement of the clients, each by one
induction that is done here and not again:

* `runOps_invariant` — what every step keeps, the run keeps. The steps may be
  asked to meet a condition on the state they start from (`Meets`).
  `invariant_iff_meets` is the converse for a condition that is also necessary.
* `runOps_simulates` — a machine that follows an abstract one step by step
  returns the abstract machine's results; `runOps_follows_iff` is the same for steps
  that meet a condition on the machine's own states, with the converse for a condition
  whose failure shows in the result.
* `runOps_ne_timeout`, `runOps_ne_panic` — what no step does, no run does.

Two machines that simulate each other step by step return the same results, and
panic and hang together (`results_eq`). A machine inside another, of which it is
all that the operations touch, is run by running the other (`runOps_within`).
-/

namespace NetBricks.Lib

variable {σ ι ρ α : Type}

/-- Perform the operations in order, collecting their results. -/
def runOps (step : σ → ι → Outcome (ρ × σ)) : σ → List ι → Outcome (List ρ × σ)
  | s, [] => .ok ([], s)
  | s, i :: is => do
    let (r, s₁) ← step s i
    let (rs, s₂) ← runOps step s₁ is
    .ok (r :: rs, s₂)

/-- Every step of the run starts from a state and with an operation that meet
`cond`; what follows a step that does not return is not constrained. -/
def Meets (step : σ → ι → Outcome (ρ × σ)) (cond : σ → ι → Prop) : σ → List ι → Prop
  | _, [] => True
  | s, i :: is => cond s i ∧ ∀ r s', step s i = .ok (r, s') → Meets step cond s' is

theorem Meets.cons {step : σ → ι → Outcome (ρ × σ)} {cond : σ → ι → Prop} {s s' : σ} {i : ι}
    {is : List ι} {r : ρ} (hc : cond s i) (h : step s i = .ok (r, s'))
    (hm : Meets step cond s' is) : Meets step cond s (i :: is) := by
  refine ⟨hc, fun r₁ s₁ h₁ => ?_⟩
  rw [h] at h₁
  cases h₁
  exact hm

theorem Meets.cons_iff {step : σ → ι → Outcome (ρ × σ)} {cond : σ → ι → Prop} {s s' : σ} {i : ι}
    {is : List ι} {r : ρ} (hc : cond s i) (h : step s i = .ok (r, s')) :
    Meets step cond s (i :: is) ↔ Meets step cond s' is :=
  ⟨fun hm => hm.2 r s' h, fun hm => hm.cons hc h⟩

theorem meets_of_forall {step : σ → ι → Outcome (ρ × σ)} {cond : σ → ι → Prop}
    (h : ∀ s i, cond s i) : ∀ (is : List ι) (s : σ), Meets step cond s is
  | [], _ => trivial
  | i :: is, s => ⟨h s i, fun _ s' _ => meets_of_forall h is s'⟩

theorem runOps_cons_ok {step : σ → ι → Outcome (ρ × σ)} {s s₂ : σ} {i : ι} {is : List ι}
    {rs : List ρ} (h : runOps step s (i :: is) = .ok (rs, s₂)) :
    ∃ r s₁ rest, step s i = .ok (r, s₁) ∧ runOps step s₁ is = .ok (rest, s₂) ∧
      rs = r :: rest := by
  rw [runOps, Outcome.bind_eq_ok] at h
  obtain ⟨⟨r, s₁⟩, hstep, h⟩ := h
  rw [Outcome.bind_eq_ok] at h
  obtain ⟨⟨rest, s'⟩, hrest, h⟩ := h
  injection h with h
  injection h with hrs hs
  subst hrs hs
  exact ⟨r, s₁, rest, hstep, hrest, rfl⟩

/-- What every step that meets the condition keeps, a run of such steps keeps. -/
theorem runOps_invariant {step : σ → ι → Outcome (ρ × σ)} {cond : σ → ι → Prop}
    {I : σ → Prop}
    (hstep : ∀ s i r s', I s → cond s i → step s i = .ok (r, s') → I s') :
    ∀ (is : List ι) {s s' : σ} {rs : List ρ}, I s → Meets step cond s is →
      runOps step s is = .ok (rs, s') → I s' := by
  intro is
  induction is with
  | nil =>
    intro s s' rs hs _ h
    injection h with h
    injection h with _ hs'
    exact hs' ▸ hs
  | cons i is ih =>
    intro s s' rs hs hm h
    obtain ⟨r, s₁, rest, h₁, h₂, -⟩ := runOps_cons_ok h
    exact ih (hstep s i r s₁ hs hm.1 h₁) (hm.2 r s₁ h₁) h₂

/-- What every step keeps, a run keeps. -/
theorem runOps_keeps {step : σ → ι → Outcome (ρ × σ)} {I : σ → Prop}
    (hstep : ∀ s i r s', I s → step s i = .ok (r, s') → I s') {is : List ι} {s s' : σ}
    {rs : List ρ} (hs : I s) (h : runOps step s is = .ok (rs, s')) : I s' := by
  have hmeets : Meets step (fun _ _ => True) s is := meets_of_forall (fun _ _ => trivial) is s
  exact runOps_invariant (fun s i r s' hs _ => hstep s i r s' hs) is hs hmeets h

/-- What a step that returns keeps exactly when it spares the state holds in every state of a run
exactly when every step that returns spares the state it finds. -/
theorem invariant_iff_meets {step : σ → ι → Outcome (ρ × σ)} {spares : σ → ι → Prop}
    {I : σ → Prop}
    (hstep : ∀ s i r s', I s → step s i = .ok (r, s') → (I s' ↔ spares s i)) :
    ∀ (is : List ι) {s : σ}, I s →
      ((∀ pre, pre <+: is → ∀ rs s', runOps step s pre = .ok (rs, s') → I s') ↔
        Meets step (fun s i => ∀ r s', step s i = .ok (r, s') → spares s i) s is) := by
  intro is
  induction is with
  | nil =>
    intro s hs
    refine ⟨fun _ => trivial, fun _ pre hpre rs s' hrun => ?_⟩
    cases List.prefix_nil.mp hpre
    cases hrun
    exact hs
  | cons i is ih =>
    intro s hs
    constructor
    · intro h
      have hone : ∀ r s', step s i = .ok (r, s') → I s' := by
        intro r s' hcall
        refine h [i] ⟨is, rfl⟩ [r] s' ?_
        rw [runOps, hcall]
        rfl
      refine ⟨fun r s' hcall => (hstep s i r s' hs hcall).mp (hone r s' hcall), ?_⟩
      intro r s' hcall
      refine (ih (hone r s' hcall)).mp (fun pre hpre rs s'' hrun => ?_)
      refine h (i :: pre) (List.cons_prefix_cons.mpr ⟨rfl, hpre⟩) (r :: rs) s'' ?_
      rw [runOps, hcall, Outcome.bind_ok]
      dsimp only
      rw [hrun]
      rfl
    · intro hm pre hpre rs s' hrun
      cases pre with
      | nil =>
        cases hrun
        exact hs
      | cons j pre =>
        obtain ⟨rfl, hrest'⟩ := List.cons_prefix_cons.mp hpre
        obtain ⟨r, s₁, rest, hcall, hrest, -⟩ := runOps_cons_ok hrun
        have hs₁ : I s₁ := (hstep s j r s₁ hs hcall).mpr (hm.1 r s₁ hcall)
        exact (ih hs₁).mpr (hm.2 r s₁ hcall) pre hrest' rest s' hrest

/-- When no step that meets the condition runs out of fuel, no run of such
steps does. -/
theorem runOps_ne_timeout {step : σ → ι → Outcome (ρ × σ)} {cond : σ → ι → Prop}
    {I : σ → Prop}
    (hstep : ∀ s i r s', I s → cond s i → step s i = .ok (r, s') → I s')
    (hok : ∀ s i, I s → cond s i → step s i ≠ .timeout) :
    ∀ (is : List ι) {s : σ}, I s → Meets step cond s is → runOps step s is ≠ .timeout := by
  intro is
  induction is with
  | nil => intro s _ _ h; cases h
  | cons i is ih =>
    intro s hs hm h
    rw [runOps, Outcome.bind_eq_timeout] at h
    rcases h with h | ⟨⟨r, s₁⟩, h₁, h⟩
    · exact hok s i hs hm.1 h
    · rw [Outcome.bind_eq_timeout] at h
      rcases h with h | ⟨a, _, h⟩
      · exact ih (hstep s i r s₁ hs hm.1 h₁) (hm.2 r s₁ h₁) h
      · cases h

/-- When no step that meets the condition panics, no run of such steps does. -/
theorem runOps_ne_panic {step : σ → ι → Outcome (ρ × σ)} {cond : σ → ι → Prop}
    {I : σ → Prop}
    (hstep : ∀ s i r s', I s → cond s i → step s i = .ok (r, s') → I s')
    (hok : ∀ s i w, I s → cond s i → step s i ≠ .panic w) :
    ∀ (is : List ι) {s : σ} {w : Fault}, I s → Meets step cond s is →
      runOps step s is ≠ .panic w := by
  intro is
  induction is with
  | nil => intro s w _ _ h; cases h
  | cons i is ih =>
    intro s w hs hm h
    rw [runOps, Outcome.bind_eq_panic] at h
    rcases h with h | ⟨⟨r, s₁⟩, h₁, h⟩
    · exact hok s i w hs hm.1 h
    · rw [Outcome.bind_eq_panic] at h
      rcases h with h | ⟨a, _, h⟩
      · exact ih (hstep s i r s₁ hs hm.1 h₁) (hm.2 r s₁ h₁) h
      · cases h

/-- The abstract counterpart of `runOps` for a total step function. -/
def runSpec (spec : α → ι → ρ × α) : α → List ι → List ρ × α
  | a, [] => ([], a)
  | a, i :: is =>
    ((spec a i).1 :: (runSpec spec (spec a i).2 is).1, (runSpec spec (spec a i).2 is).2)

/-- Every operation of the abstract run is one the caller is allowed to make. -/
def LegalRun (spec : α → ι → ρ × α) (legal : α → ι → Prop) : α → List ι → Prop
  | _, [] => True
  | a, i :: is => legal a i ∧ LegalRun spec legal (spec a i).2 is

/-- Operations that are allowed in every state may come in any order. -/
theorem legalRun_of_forall {spec : α → ι → ρ × α} {legal : ι → Prop} :
    ∀ (is : List ι) (a : α), (∀ i ∈ is, legal i) → LegalRun spec (fun _ => legal) a is := by
  intro is
  induction is with
  | nil => intro a _; trivial
  | cons i is ih =>
    intro a h
    exact ⟨h i List.mem_cons_self, ih _ fun j hj => h j (List.mem_cons_of_mem i hj)⟩

/-- What relates the two machines and the operations to come, from one step to the
next, relates them at the end. -/
theorem runOps_simulation {step : σ → ι → Outcome (ρ × σ)} {spec : α → ι → ρ × α}
    {P : σ → α → List ι → Prop}
    (hsim : ∀ s a i is, P s a (i :: is) →
      ∃ s', step s i = .ok ((spec a i).1, s') ∧ P s' (spec a i).2 is) :
    ∀ (is : List ι) {s : σ} {a : α}, P s a is →
      ∃ s', runOps step s is = .ok ((runSpec spec a is).1, s') ∧ P s' (runSpec spec a is).2 [] := by
  intro is
  induction is with
  | nil => intro s a hP; exact ⟨s, rfl, hP⟩
  | cons i is ih =>
    intro s a hP
    obtain ⟨s₁, h₁, hP₁⟩ := hsim s a i is hP
    obtain ⟨s₂, h₂, hP₂⟩ := ih hP₁
    refine ⟨s₂, ?_, hP₂⟩
    rw [runOps, h₁, Outcome.bind_ok]
    show (runOps step s₁ is >>= _) = _
    rw [h₂]
    rfl

/-- A machine that follows an abstract one step by step returns its results. -/
theorem runOps_simulates {step : σ → ι → Outcome (ρ × σ)} {spec : α → ι → ρ × α}
    {legal : α → ι → Prop} {R : σ → α → Prop}
    (hsim : ∀ s a i, R s a → legal a i →
      ∃ s', step s i = .ok ((spec a i).1, s') ∧ R s' (spec a i).2) (is : List ι) {s : σ} {a : α}
    (hR : R s a) (hl : LegalRun spec legal a is) :
    ∃ s', runOps step s is = .ok ((runSpec spec a is).1, s') ∧ R s' (runSpec spec a is).2 := by
  obtain ⟨s', hrun, hR', -⟩ := runOps_simulation
    (P := fun s a is => R s a ∧ LegalRun spec legal a is)
    (fun s a i is h => by
      obtain ⟨s₁, h₁, hR₁⟩ := hsim s a i h.1 h.2.1
      exact ⟨s₁, h₁, hR₁, h.2.2⟩) is ⟨hR, hl⟩
  exact ⟨s', hrun, hR'⟩

/-- A machine whose steps follow the abstract one where they meet the condition, and return
something else where they do not: a run follows the abstract run exactly when every step of
it meets the condition. `dom` is the part of the operations that the comparison is about. -/
theorem runOps_follows_iff {step : σ → ι → Outcome (ρ × σ)} {spec : α → ι → ρ × α}
    {dom cond : σ → ι → Prop} {R : σ → α → Prop}
    (hsim : ∀ s a i, R s a → dom s i → cond s i →
      ∃ s', step s i = .ok ((spec a i).1, s') ∧ R s' (spec a i).2)
    (hfail : ∀ s a i, R s a → dom s i → ¬ cond s i → ∀ s', step s i ≠ .ok ((spec a i).1, s')) :
    ∀ (is : List ι) {s : σ} {a : α}, R s a → Meets step dom s is →
      ((∃ s', runOps step s is = .ok ((runSpec spec a is).1, s') ∧ R s' (runSpec spec a is).2) ↔
        Meets step cond s is) := by
  intro is
  induction is with
  | nil => exact fun hR _ => ⟨fun _ => trivial, fun _ => ⟨_, rfl, hR⟩⟩
  | cons i is ih =>
    intro s a hR hdom
    constructor
    · rintro ⟨s₂, hrun, hR₂⟩
      obtain ⟨r, s₁, rest, hstep, hrest, heq⟩ := runOps_cons_ok hrun
      obtain ⟨rfl, rfl⟩ := List.cons.inj heq
      have hc : cond s i :=
        Classical.byContradiction fun hc => hfail s a i hR hdom.1 hc s₁ hstep
      obtain ⟨s₁', hstep', hR₁⟩ := hsim s a i hR hdom.1 hc
      cases hstep.symm.trans hstep'
      exact Meets.cons hc hstep ((ih hR₁ (hdom.2 _ _ hstep)).mp ⟨s₂, hrest, hR₂⟩)
    · intro hm
      obtain ⟨s₁, hstep, hR₁⟩ := hsim s a i hR hdom.1 hm.1
      obtain ⟨s₂, hrest, hR₂⟩ := (ih hR₁ (hdom.2 _ _ hstep)).mpr (hm.2 _ _ hstep)
      refine ⟨s₂, ?_, hR₂⟩
      rw [runOps, hstep, Outcome.bind_ok]
      dsimp only
      rw [hrest]
      rfl

/-- An invariant of the abstract machine, for every result it returns. -/
theorem runSpec_forall {spec : α → ι → ρ × α} {legal : α → ι → Prop} {I : α → Prop}
    {P : ρ → Prop} (hstep : ∀ a i, I a → legal a i → P (spec a i).1 ∧ I (spec a i).2) :
    ∀ (is : List ι) {a : α}, I a → LegalRun spec legal a is →
      (∀ r ∈ (runSpec spec a is).1, P r) ∧ I (runSpec spec a is).2 := by
  intro is
  induction is with
  | nil => intro a ha _; exact ⟨fun _ hr => absurd hr List.not_mem_nil, ha⟩
  | cons i is ih =>
    intro a ha hl
    obtain ⟨hP, hI⟩ := hstep a i ha hl.1
    obtain ⟨hrest, hend⟩ := ih hI hl.2
    refine ⟨fun r hr => ?_, hend⟩
    rcases List.mem_cons.mp hr with rfl | hr
    · exact hP
    · exact hrest r hr

/-! ## Two machines -/

/-- The results of a run. -/
def results (step : σ → ι → Outcome (ρ × σ)) (s : σ) (is : List ι) : Outcome (List ρ) := do
  let (rs, _) ← runOps step s is
  .ok rs

/-- Machines whose steps simulate each other, as long as those of the first meet a
condition. -/
theorem runOps_sim {τ κ : Type} {step : σ → ι → Outcome (ρ × σ)} {step' : τ → κ → Outcome (ρ × τ)}
    {f : ι → κ} {cond : σ → ι → Prop} {R : σ → τ → Prop}
    (hsim : ∀ s t i, R s t → cond s i →
      Outcome.Sim (fun x y => x.1 = y.1 ∧ R x.2 y.2) (step s i) (step' t (f i))) :
    ∀ (is : List ι) {s : σ} {t : τ}, R s t → Meets step cond s is →
      Outcome.Sim (fun x y => x.1 = y.1 ∧ R x.2 y.2) (runOps step s is)
        (runOps step' t (is.map f)) := by
  intro is
  induction is with
  | nil =>
    intro s t hR _
    exact ⟨rfl, hR⟩
  | cons i is ih =>
    intro s t hR hm
    refine (hsim s t i hR hm.1).bind_ok ?_
    rintro ⟨r, s₁⟩ ⟨_, t₁⟩ hs - ⟨rfl, hR₁⟩
    refine (ih hR₁ (hm.2 r s₁ hs)).bind ?_
    rintro ⟨rs, s₂⟩ ⟨_, t₂⟩ ⟨rfl, hR₂⟩
    exact ⟨rfl, hR₂⟩

/-- Such machines return the same results. -/
theorem results_eq {τ κ : Type} {step : σ → ι → Outcome (ρ × σ)} {step' : τ → κ → Outcome (ρ × τ)}
    {f : ι → κ} {cond : σ → ι → Prop} {R : σ → τ → Prop}
    (hsim : ∀ s t i, R s t → cond s i →
      Outcome.Sim (fun x y => x.1 = y.1 ∧ R x.2 y.2) (step s i) (step' t (f i))) (is : List ι)
    {s : σ} {t : τ} (hR : R s t) (hm : Meets step cond s is) :
    results step s is = results step' t (is.map f) :=
  (runOps_sim hsim is hR hm).eq (fun _ _ h => h.1)

/-! ## A machine inside another -/

/-- What a step returns, with the state it leaves inside a larger one. -/
def within {τ : Type} (f : σ → τ) (x : Outcome (ρ × σ)) : Outcome (ρ × τ) := do
  let (r, s) ← x
  .ok (r, f s)

/-- A machine whose steps are those of a machine inside it runs like that one. -/
theorem runOps_within {τ : Type} {step : σ → ι → Outcome (ρ × σ)}
    {step' : τ → ι → Outcome (ρ × τ)} {f : σ → τ}
    (h : ∀ s i, step' (f s) i = within f (step s i)) :
    ∀ (is : List ι) (s : σ), runOps step' (f s) is = within f (runOps step s is) := by
  intro is
  induction is with
  | nil =>
    intro s
    rfl
  | cons i is ih =>
    intro s
    rw [runOps, runOps, h]
    unfold within
    rw [bind_assoc, bind_assoc]
    congr 1
    funext ⟨r, s₁⟩
    rw [Outcome.bind_ok]
    dsimp only
    rw [ih, within, bind_assoc, bind_assoc]
    rfl

end NetBricks.Lib
