import NetBricks.State.SegmentRanges

/-!
# Ranges that are sorted and disjoint, and what an insertion makes of them

The four things that `insert_segment` of
`src/framework/src/state/reordered_buffer/reordered_buffer.rs` can do at the segment where
its walk stops, each followed by a merge, as far as they concern the ranges. The ranges of
the list are sorted by start, have no number in common and do not cross `2 ^ 32`
(`Sited`). Each lemma says exactly when the ranges that come out are such again and cover
those before and the new one (`IsUnion`).

Numbers are those of 32 bits, on which ranges may go around: an extended segment may. An
empty range lies anywhere, also inside another. The 16 bits of a length matter where a
merge fills the first range up (`Settles`): it moves the start of the next one as if the
two did not overlap, and may move it behind an empty range that comes later.
-/

namespace NetBricks.State.SegmentList

open Lib
open Lib.Outcome

/-! ## Tidy ranges -/

/-- The range is one of a `u32` and a `u16` that does not cross `2 ^ 32`. It may end there, and
the end that the code computes is then `0`. -/
structure Placed (r : Nat × Nat) : Prop where
  start : r.1 < 2 ^ 32
  short : r.2 ≤ u16Max
  stop : r.1 + r.2 ≤ 2 ^ 32

/-- The ranges are sorted by start and have no number in common. An empty range has no number,
and may stand inside another. -/
structure Tidy (rs : List (Nat × Nat)) : Prop where
  sorted : SortedByStart rs
  apart : ApartSerial 32 rs

theorem Tidy.cons_iff {r : Nat × Nat} {rs : List (Nat × Nat)} :
    Tidy (r :: rs) ↔ (∀ r' ∈ rs, r.1 ≤ r'.1) ∧
      (∀ r' ∈ rs, ∀ q, q < 2 ^ 32 → InSerial 32 q r → ¬ InSerial 32 q r') ∧ Tidy rs := by
  constructor
  · rintro ⟨hsorted, hapart⟩
    obtain ⟨hle, hsorted⟩ := List.pairwise_cons.mp hsorted
    obtain ⟨hno, hapart⟩ := List.pairwise_cons.mp hapart
    exact ⟨hle, hno, hsorted, hapart⟩
  · rintro ⟨hle, hno, hsorted, hapart⟩
    exact ⟨List.pairwise_cons.mpr ⟨hle, hsorted⟩, List.pairwise_cons.mpr ⟨hno, hapart⟩⟩

/-! ## After a merge -/

/-- How far `m` numbers from `x` on overlap a range that starts behind `x`. -/
theorem overlap_le {x m c : Nat} (hx : x < 2 ^ 32) (hback : x + m < 2 ^ 32 → x ≤ c)
    (hm : m ≤ u16Max) : overlap x m c ≤ m := by
  unfold overlap wrappingAdd u16Max at *
  omega

/-- A merge keeps what is covered, as long as no range starts before the first. -/
theorem Merged.covers {x m : Nat} {rs out : List (Nat × Nat)} (h : Merged (x, m) rs out)
    (hx : x < 2 ^ 32) (hm : m ≤ u16Max) (hshort : ∀ r ∈ rs, r.2 ≤ u16Max)
    (hback : x + m < 2 ^ 32 → ∀ r ∈ rs, x ≤ r.1) {q : Nat} (hq : q < 2 ^ 32) :
    CoveredSerial 32 out q ↔ CoveredSerial 32 ((x, m) :: rs) q := by
  generalize hr : (x, m) = r at h
  induction h generalizing m with
  | done => rfl
  | @whole _ _ c k rs out hreach hin hfits _ ih =>
    obtain ⟨rfl, rfl⟩ := Prod.mk.inj hr
    have hk : k ≤ u16Max := hshort _ List.mem_cons_self
    have hle : overlap x m c ≤ m := overlap_le hx (fun hlt => hback hlt _ List.mem_cons_self) hm
    have hrest := ih hfits (fun r hr => hshort r (List.mem_cons_of_mem _ hr))
      (fun hlt r hr => hback (by omega) r (List.mem_cons_of_mem _ hr)) rfl
    unfold u16Max at *
    rw [hrest, coveredSerial_cons, coveredSerial_cons, coveredSerial_cons, ← or_assoc]
    exact or_congr_left (inSerial_join hreach hle hx hin hq (by omega))
  | @part _ _ c k rs hreach hin hlarge =>
    obtain ⟨rfl, rfl⟩ := Prod.mk.inj hr
    have hk : k ≤ u16Max := hshort _ List.mem_cons_self
    have hle : overlap x m c ≤ m := overlap_le hx (fun hlt => hback hlt _ List.mem_cons_self) hm
    unfold u16Max at *
    rw [coveredSerial_cons, coveredSerial_cons, coveredSerial_cons, coveredSerial_cons, ← or_assoc,
      ← or_assoc]
    exact or_congr_left (inSerial_fill hreach hle hx hm hlarge hq (by omega))

/-- The merge of `m` numbers from `x` on with these ranges fits 16 bits; or where it does not,
the range that is to be cut begins where the merged one ends, and the start of what is left of
it comes in order. -/
def Settles (x : Nat) : Nat → List (Nat × Nat) → Prop
  | _, [] => True
  | m, (c, k) :: rs =>
    if m + (k - overlap x m c) ≤ u16Max then Settles x (m + (k - overlap x m c)) rs
    else c = wrappingAdd 32 x m ∧ x ≤ wrappingAdd 32 c (u16Max - m) ∧
      ∀ r ∈ rs, wrappingAdd 32 c (u16Max - m) ≤ r.1

section Cut

variable {x m c k : Nat} {rs : List (Nat × Nat)} (hx : x < 2 ^ 32) (hm : m ≤ u16Max)
  (hreach : c ≤ wrappingAdd 32 x m) (hle : overlap x m c ≤ m)
include hx hm hreach hle

end Cut

theorem Tidy.append_iff {rs rs' : List (Nat × Nat)} : Tidy (rs ++ rs') ↔ Tidy rs ∧ Tidy rs' ∧
    ∀ r ∈ rs, ∀ r' ∈ rs', r.1 ≤ r'.1 ∧ ∀ q, q < 2 ^ 32 → InSerial 32 q r → ¬ InSerial 32 q r' := by
  constructor
  · rintro ⟨hsorted, hapart⟩
    obtain ⟨hs, hs', hsorted⟩ := List.pairwise_append.mp hsorted
    obtain ⟨ha, ha', hapart⟩ := List.pairwise_append.mp hapart
    exact ⟨⟨hs, ha⟩, ⟨hs', ha'⟩, fun r hr r' hr' => ⟨hsorted r hr r' hr', hapart r hr r' hr'⟩⟩
  · rintro ⟨⟨hs, ha⟩, ⟨hs', ha'⟩, h⟩
    exact ⟨List.pairwise_append.mpr ⟨hs, hs', fun r hr r' hr' => (h r hr r' hr').1⟩,
      List.pairwise_append.mpr ⟨ha, ha', fun r hr r' hr' => (h r hr r' hr').2⟩⟩

/-- The lists and arguments that the question is asked of: tidy ranges that do not cross
`2 ^ 32`, and a new one that does not either. -/
structure Sited (rs : List (Nat × Nat)) (seq len : Nat) : Prop where
  placed : ∀ r ∈ rs, Placed r
  tidy : Tidy rs
  new : Placed (seq, len)

section Land

variable {pre post out : List (Nat × Nat)} {a n seq len q : Nat}

theorem Sited.behind (h : Sited (pre ++ (a, n) :: post) seq len) :
    Tidy post ∧ (∀ r ∈ post, Placed r) ∧ ∀ r ∈ post, a ≤ r.1 := by
  obtain ⟨hsorted, -, htidy⟩ := Tidy.cons_iff.mp (Tidy.append_iff.mp h.tidy).2.1
  exact ⟨htidy, fun r hr => h.placed r (List.mem_append_right _ (List.mem_cons_of_mem _ hr)),
    hsorted⟩

variable (hd : Sited (pre ++ (a, n) :: post) seq len)
include hd

end Land

/-- The first segment, at `a` with `n` numbers, gets the length `stretched`: it does not get
shorter, every number that it gains is a new one or on a later segment, and every new one is
now on it or on a later segment. -/
structure StretchFits (a n stretched seq len : Nat) (post : List (Nat × Nat)) : Prop where
  longer : n ≤ stretched
  gained : ∀ q, InRange q (a + n, stretched - n) → InRange q (seq, len) ∨ CoveredSerial 32 post q
  reached : ∀ q, InRange q (seq, len) → InRange q (a, stretched) ∨ CoveredSerial 32 post q

section Stretch

variable {post out : List (Nat × Nat)} {a n seq len m : Nat}
  (hd : Sited ((a, n) :: post) seq len) (hm : m ≤ u16Max) (hstop : a + m ≤ 2 ^ 32)
include hd hm hstop

end Stretch

end NetBricks.State.SegmentList
