import Mathlib.Algebra.BigOperators.Group.List.Basic
import Mathlib.Algebra.GroupWithZero.Nat

/-!
# Flows and tables keyed by flows

`Flow` is the five-tuple of `src/framework/src/utils/flow.rs`. The stores keep
their counters in `HashMap<Flow, T>`; Lean's `Std.HashMap` stands for it, since
both replace the value when a present key is inserted and neither promises an
order of iteration.

`extend` is `HashMap::extend`: insert the pairs one after another. What it does
to a key is that the key's last value wins (`getElem?_extend`), and that is the
only fact about tables the stores need besides lookup after insert and erase.
-/

namespace NetBricks.Utils

/-- The five-tuple that identifies a flow. -/
structure Flow where
  srcIp : UInt32
  dstIp : UInt32
  srcPort : UInt16
  dstPort : UInt16
  proto : UInt8
  deriving DecidableEq, Hashable, Repr, Inhabited

/-- `Flow::reverse_flow`. -/
def Flow.reverseFlow (f : Flow) : Flow where
  srcIp := f.dstIp
  dstIp := f.srcIp
  srcPort := f.dstPort
  dstPort := f.srcPort
  proto := f.proto

@[simp] theorem Flow.reverseFlow_reverseFlow (f : Flow) : f.reverseFlow.reverseFlow = f := rfl

variable {T : Type}

/-- `HashMap<Flow, T>`. -/
abbrev FlowTable (T : Type) := Std.HashMap Flow T

/-- `HashMap::extend` with a list of pairs. -/
def FlowTable.extend (m : FlowTable T) (l : List (Flow × T)) : FlowTable T := m.insertMany l

/-- The values a list of pairs holds for one flow, in order. -/
def valuesFor (f : Flow) (l : List (Flow × T)) : List T :=
  (l.filter (fun p => p.1 == f)).map Prod.snd

theorem valuesFor_nil (f : Flow) : valuesFor f ([] : List (Flow × T)) = [] := rfl

theorem valuesFor_cons (f : Flow) (p : Flow × T) (l : List (Flow × T)) :
    valuesFor f (p :: l) = if p.1 = f then p.2 :: valuesFor f l else valuesFor f l := by
  unfold valuesFor
  by_cases h : p.1 = f
  · simp [h]
  · simp [h]

theorem valuesFor_append (f : Flow) (l₁ l₂ : List (Flow × T)) :
    valuesFor f (l₁ ++ l₂) = valuesFor f l₁ ++ valuesFor f l₂ := by
  unfold valuesFor
  rw [List.filter_append, List.map_append]

/-- After `extend` a flow maps to the last value listed for it, or to what it
mapped to before when none is listed. -/
theorem getElem?_extend (f : Flow) :
    ∀ (l : List (Flow × T)) (m : FlowTable T),
      (m.extend l)[f]? = (valuesFor f l).getLast?.or m[f]? := by
  intro l
  induction l with
  | nil => intro m; rfl
  | cons p l ih =>
    intro m
    obtain ⟨g, x⟩ := p
    have hstep : m.extend ((g, x) :: l) = FlowTable.extend (m.insert g x) l :=
      Std.HashMap.insertMany_cons
    rw [hstep, ih, Std.HashMap.getElem?_insert, valuesFor_cons]
    by_cases h : g = f
    · rw [if_pos (by simpa using h), if_pos h, List.getLast?_cons]
      cases (valuesFor f l).getLast? <;> rfl
    · rw [if_neg (by simpa using h), if_neg h]

/-- The pairs of a table, for one flow. -/
theorem valuesFor_toList (f : Flow) (m : FlowTable T) :
    (valuesFor f m.toList).getLast? = m[f]? := by
  cases hm : m[f]? with
  | none =>
    have hnil : valuesFor f m.toList = [] := by
      unfold valuesFor
      rw [List.map_eq_nil_iff, List.filter_eq_nil_iff]
      rintro ⟨g, x⟩ hmem hg
      have hg' : g = f := by simpa using hg
      rw [Std.HashMap.mem_toList_iff_getElem?_eq_some, hg', hm] at hmem
      cases hmem
    rw [hnil]
    rfl
  | some v =>
    have hall : ∀ x ∈ valuesFor f m.toList, x = v := by
      intro x hx
      obtain ⟨⟨g, y⟩, hy, rfl⟩ := List.mem_map.mp hx
      obtain ⟨hmem, hg⟩ := List.mem_filter.mp hy
      have hg' : g = f := by simpa using hg
      rw [Std.HashMap.mem_toList_iff_getElem?_eq_some, hg', hm] at hmem
      exact (Option.some.inj hmem).symm
    have hne : valuesFor f m.toList ≠ [] := by
      have hmem : (f, v) ∈ m.toList := Std.HashMap.mem_toList_iff_getElem?_eq_some.mpr hm
      intro hnil
      have : v ∈ valuesFor f m.toList :=
        List.mem_map.mpr ⟨(f, v), List.mem_filter.mpr ⟨hmem, by simp⟩, rfl⟩
      rw [hnil] at this
      cases this
    rw [List.getLast?_eq_some_getLast hne]
    exact congrArg some (hall _ (List.getLast_mem hne))

end NetBricks.Utils
