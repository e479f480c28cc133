import NetBricks.Common

/-!
# Shared memory in whole pages

`round_to_pages` of `utils/mod.rs`, `open_shared` of `shared_state/mod.rs` and
`SharedVec::new_with_capacity` of `shared_state/shared_vec.rs`. The rounding clears
the bits below the page size; the assertion in `open_shared` that is meant to check
its result clears the one bit of the page size instead. What it accepts is therefore
nothing and one page (`openAccepts_iff`).

Mirroring notes:

* What the system calls return is a parameter, `SharedOs`.
* The mapped memory is not part of `SharedMemory`; its owner keeps the contents.
* `Vec::with_capacity` panics when the elements would take more than `isize::MAX`
  bytes. That memory runs out is not modelled.
-/

namespace NetBricks.SharedState

open Lib Lib.Outcome

/-- `PAGE_SIZE`. -/
def pageSize : Nat := 4096

/-- `round_to_pages`. -/
def roundToPages (bufferSize : Nat) : Outcome Nat := do
  let sum ← checkedAdd 64 bufferSize (pageSize - 1)
  .ok (sum &&& complement 64 (pageSize - 1))

/-- What the calls of `open_shared` return: the two calls of `shm_open` and the error
after the first, `ftruncate`, and whether `mmap` failed. -/
structure SharedOs where
  shmOpen : Int
  alreadyExists : Bool
  shmOpenAgain : Int
  ftruncate : Int
  mmapFailed : Bool

/-- `SharedMemory`, without the mapping. -/
structure SharedMemory where
  name : String
  size : Nat
  deriving DecidableEq, Repr

/-- The condition of the assertion in `open_shared`. -/
def OpenAccepts (size : Nat) : Prop := size &&& complement 64 pageSize = 0

instance (size : Nat) : Decidable (OpenAccepts size) := inferInstanceAs (Decidable (_ = _))

/-- `open_shared`. -/
def openShared (os : SharedOs) (name : String) (size : Nat) : Outcome SharedMemory := do
  check (OpenAccepts size) "assertion failed: size & !PAGE_SIZE == 0"
  let name ← cString name
  let fd := if os.shmOpen = -1 ∧ os.alreadyExists = true then os.shmOpenAgain else os.shmOpen
  check (0 ≤ fd) "Could not create shared memory segment"
  check (os.ftruncate = 0) "Could not truncate"
  if os.mmapFailed then .panic (.explicit "Could not mmap shared region")
  else .ok ⟨name, size⟩

/-- `SharedVec`, with the length of its vector in place of the vector. -/
structure SharedVec where
  len : Nat
  shared : SharedMemory
  modified : Bool
  deriving DecidableEq, Repr

/-- `SharedVec::new_with_capacity`, for elements of `elem` bytes. -/
def newWithCapacity (os : SharedOs) (elem : Nat) (name : String) (capacity : Nat) :
    Outcome SharedVec := do
  let capacityPages ← roundToPages capacity
  if 2 ^ 63 ≤ capacity * elem then .panic (.explicit "capacity overflow")
  else
    let shared ← openShared os name capacityPages
    .ok ⟨0, shared, false⟩

/-! ## The two masks -/

theorem roundToPages_eq {capacity : Nat} (h : capacity ≤ 2 ^ 64 - 4096) :
    roundToPages capacity = .ok ((capacity + 4095) / 4096 * 4096) := by
  have hmask := and_complement_low (w := 64) (k := 12) (x := capacity + 4095) (by decide) (by omega)
  unfold roundToPages
  rw [show pageSize - 1 = 4095 from rfl, checkedAdd_of_lt (by omega), bind_ok]
  exact congrArg Outcome.ok hmask

/-- Only nothing and a single page pass the assertion. -/
theorem openAccepts_iff {size : Nat} (h : size < 2 ^ 64) :
    OpenAccepts size ↔ size = 0 ∨ size = 4096 :=
  and_complement_two_pow (w := 64) (k := 12) (by decide) h

theorem openShared_of_not_accepts {size : Nat} (h : ¬ OpenAccepts size) (os : SharedOs)
    (name : String) :
    openShared os name size = .panic (.assertion "assertion failed: size & !PAGE_SIZE == 0") := by
  unfold openShared
  rw [check_false h, bind_panic]

/-- The rounding gives the least multiple of the page size that is not below the
capacity. The assertion rejects what is no multiple, but of the multiples it accepts
only 0 and 4096: rounded capacities pass it exactly up to one page, and no shared
vector of more is ever made. -/
theorem page_assertion_iff (capacity : Nat) (h : capacity ≤ 2 ^ 64 - 4096) :
    ∃ pages, roundToPages capacity = .ok pages ∧ pageSize ∣ pages ∧ capacity ≤ pages ∧
      (∀ m, pageSize ∣ m → capacity ≤ m → pages ≤ m) ∧
      (OpenAccepts pages ↔ capacity ≤ pageSize) ∧
      (∀ size < 2 ^ 64, ¬ pageSize ∣ size → ¬ OpenAccepts size) ∧
      (∀ size < 2 ^ 64, pageSize ∣ size → (OpenAccepts size ↔ size ≤ pageSize)) ∧
      (pageSize < capacity →
        ∀ os elem name vec, newWithCapacity os elem name capacity ≠ .ok vec) := by
  unfold pageSize
  refine ⟨_, roundToPages_eq h, Nat.dvd_mul_left _ _, by omega, fun m hm hle => ?_, ?_,
    fun size hsize hdvd haccepts => ?_, fun size hsize hdvd => ?_, fun hlt os elem name vec => ?_⟩
  · obtain ⟨k, rfl⟩ := hm
    omega
  · rw [openAccepts_iff (by omega)]
    omega
  · rw [openAccepts_iff hsize] at haccepts
    omega
  · rw [openAccepts_iff hsize]
    omega
  · have hreject : ¬ OpenAccepts ((capacity + 4095) / 4096 * 4096) := by
      rw [openAccepts_iff (by omega)]
      omega
    unfold newWithCapacity
    rw [roundToPages_eq h, bind_ok, openShared_of_not_accepts hreject]
    split
    · simp
    · simp

theorem page_assertion_iff_one_page :
    ∃ pages, roundToPages 100 = .ok pages ∧ OpenAccepts pages := by
  obtain ⟨pages, hround, -, -, -, haccepts, -⟩ := page_assertion_iff 100 (by decide)
  exact ⟨pages, hround, haccepts.mpr (by decide)⟩

/-- One byte more than a page is rounded to two pages, which `open_shared` rejects. -/
theorem two_pages_rejected :
    roundToPages 4097 = .ok 8192 ∧ ∀ os elem name,
      elem ≤ 8 → newWithCapacity os elem name 4097 =
        .panic (.assertion "assertion failed: size & !PAGE_SIZE == 0") := by
  have hround : roundToPages 4097 = .ok 8192 := by decide
  refine ⟨hround, fun os elem name helem => ?_⟩
  unfold newWithCapacity
  rw [hround, bind_ok, if_neg (by omega), openShared_of_not_accepts (by decide), bind_panic]

end NetBricks.SharedState
