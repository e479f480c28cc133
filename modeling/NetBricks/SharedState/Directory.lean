import NetBricks.Lib.Machine
import NetBricks.SharedState.Pages

/-!
# The directory of shared structures

`Directory` of `shared_state/directory.rs`: a header and a table of 256-byte names in
two shared pages. `registerSpec` is what registering is for: names that fit go into
the next entry, padded with zeros, until the table is full.

`register_new_entry` copies the name over the whole array of 256 bytes with
`copy_from_slice`, which panics unless the lengths are equal, and names of 256
bytes and more were turned away before. So no name is ever registered
(`register_lawful_iff`); nor is there a directory to register it in, since
`open_shared` rejects its two pages (`new_panics`).

Mirroring notes:

* A name is the bytes of the `&str`.
* The pages are fresh, so the names are zero. The headers of `begin_snapshot` and
  `end_snapshot` are not used here.
-/

namespace NetBricks.SharedState

open Lib Lib.Outcome

/-- `MAX_LEN`. -/
def maxLen : Nat := 256

/-- `DIRECTORY_PAGES`. -/
def directoryPages : Nat := 2

/-- `BYTE_SIZE`. -/
def byteSize : Nat := directoryPages * pageSize

/-- `DirectoryHeader`. -/
structure DirectoryHeader where
  entries : Nat
  currentVersion : Nat
  committedVersion : Nat
  length : Nat
  deriving DecidableEq, Repr

/-- `Directory`; `data` are the names. -/
structure Directory where
  head : DirectoryHeader
  data : List (List UInt8)
  entry : Nat
  len : Nat
  deriving DecidableEq, Repr

namespace Directory

/-- `size_of::<DirectoryHeader>()`: four words. -/
def headerSize : Nat := 32

/-- `size_of::<DirectoryEntry>()`. -/
def entrySize : Nat := maxLen

/-- The part of `Directory::new` behind `open_shared`. -/
def init : Directory :=
  let entries := (byteSize - headerSize) / entrySize
  { head := { entries := 0, currentVersion := 1, committedVersion := 1, length := entries }
    data := List.replicate entries (List.replicate maxLen 0)
    entry := 0
    len := entries }

/-- `Directory::new`. -/
def new (os : SharedOs) (name : String) : Outcome Directory := do
  let _ ← openShared os name byteSize
  .ok init

/-- `dst.copy_from_slice(src)`. -/
def copyFromSlice (dst src : List UInt8) : Outcome (List UInt8) := do
  check (dst.length = src.length) "destination and source slices have different lengths"
  .ok src

/-- `Directory::register_new_entry`. -/
def registerNewEntry (d : Directory) (name : List UInt8) : Outcome (Option Nat × Directory) :=
  let entry := d.entry
  if entry ≥ d.len ∨ name.length ≥ maxLen then .ok (none, d)
  else do
    let old ← index d.data entry
    let stored ← copyFromSlice old name
    .ok (some entry,
      { d with
        data := d.data.set entry stored
        head := { d.head with entries := entry }
        entry := entry + 1 })

end Directory

open Directory

/-! ## What registering is for -/

/-- The name with zeros up to its full length. -/
def padded (name : List UInt8) : List UInt8 := name ++ List.replicate (maxLen - name.length) 0

/-- The names that are registered, and one more. -/
def registerSpec (names : List (List UInt8)) (name : List UInt8) :
    Option Nat × List (List UInt8) :=
  if names.length < init.len ∧ name.length < maxLen then (some names.length, names ++ [name])
  else (none, names)

/-- The directory has the names in its first entries, padded to their full length, and zeroes in
the others; `entry` is the next one to fill, and `published` is what a reader of the shared
memory sees. -/
structure Stores (d : Directory) (names : List (List UInt8)) : Prop where
  entry : d.entry = names.length
  published : d.head.entries = names.length
  data : d.data = names.map padded ++
    List.replicate (init.len - names.length) (List.replicate maxLen 0)

/-- After each of the calls everything is as it should be. -/
def Lawful (names : List (List UInt8)) : Prop :=
  ∀ calls, calls <+: names → ∃ d,
    runOps registerNewEntry init calls = .ok ((runSpec registerSpec [] calls).1, d) ∧
      Stores d (runSpec registerSpec [] calls).2

/-! ## What it does -/

theorem stores_init : Stores init [] := ⟨rfl, rfl, rfl⟩

/-- Names that are too long are turned away by both. -/
theorem run_long : ∀ {calls : List (List UInt8)} (d : Directory) (names : List (List UInt8)),
    (∀ name ∈ calls, maxLen ≤ name.length) → ∃ results,
      runOps registerNewEntry d calls = .ok (results, d) ∧
        runSpec registerSpec names calls = (results, names) := by
  intro calls
  induction calls with
  | nil =>
    intro d names _
    exact ⟨[], rfl, rfl⟩
  | cons name calls ih =>
    intro d names hlong
    have hname := hlong name List.mem_cons_self
    obtain ⟨results, hrun, hspec⟩ := ih d names
      fun n hn => hlong n (List.mem_cons_of_mem name hn)
    have hstep : registerNewEntry d name = .ok (none, d) := if_pos (Or.inr hname)
    have hspecStep : registerSpec names name = (none, names) := if_neg (by omega)
    refine ⟨none :: results, ?_, ?_⟩
    · rw [runOps, hstep, bind_ok]
      dsimp only
      rw [hrun, bind_ok]
    · rw [runSpec, hspecStep, hspec]

/-- A name that fits, in a new directory. -/
theorem register_short {name : List UInt8} (h : name.length < maxLen) :
    registerNewEntry init name =
      .panic (.assertion "destination and source slices have different lengths") := by
  have hfirst : init.data[init.entry]? = some (List.replicate maxLen 0) := rfl
  have hroom : ¬ init.len ≤ init.entry := by decide
  unfold registerNewEntry copyFromSlice
  rw [if_neg (by omega), index_of_some hfirst, bind_ok, List.length_replicate,
    check_false (by omega), bind_panic, bind_panic]

/-- The first name that fits ends the run. -/
theorem run_short {name : List UInt8} (h : name.length < maxLen) :
    ∀ {before : List (List UInt8)}, (∀ n ∈ before, maxLen ≤ n.length) →
      runOps registerNewEntry init (before ++ [name]) =
        .panic (.assertion "destination and source slices have different lengths") := by
  intro before
  induction before with
  | nil =>
    intro _
    rw [List.nil_append, runOps, register_short h, bind_panic]
  | cons n before ih =>
    intro hlong
    have hstep : registerNewEntry init n = .ok (none, init) :=
      if_pos (Or.inr (hlong n List.mem_cons_self))
    rw [List.cons_append, runOps, hstep, bind_ok]
    dsimp only
    rw [ih fun m hm => hlong m (List.mem_cons_of_mem n hm), bind_panic]

/-- There is no directory: `new` panics whatever the system calls return. -/
theorem new_panics (os : SharedOs) (name : String) :
    Directory.new os name = .panic (.assertion "assertion failed: size & !PAGE_SIZE == 0") := by
  unfold Directory.new
  rw [openShared_of_not_accepts (by decide), bind_panic]

theorem long_of_lawful {names : List (List UInt8)} (hlawful : Lawful names) :
    ∀ name ∈ names, maxLen ≤ name.length := by
  by_contra hshort
  have hfits : ∃ name ∈ names, decide (name.length < maxLen) = true := by simpa using hshort
  obtain ⟨name, hfind⟩ := Option.isSome_iff_exists.mp (List.find?_isSome.mpr hfits)
  obtain ⟨hname, before, after, rfl, hbefore⟩ := List.find?_eq_some_iff_append.mp hfind
  have hlong : ∀ n ∈ before, maxLen ≤ n.length := fun n hn => by simpa using hbefore n hn
  -- up to the first name that fits the calls end in a panic
  obtain ⟨d, hrun, -⟩ := hlawful (before ++ [name]) ⟨after, by simp⟩
  rw [run_short (of_decide_eq_true hname) hlong] at hrun
  cases hrun

/-- Registering does what it is for exactly as long as no name that fits is
registered, in the directory that `new` would make if `open_shared` let it. -/
theorem register_lawful_iff (names : List (List UInt8)) :
    (Lawful names ↔ ∀ name ∈ names, maxLen ≤ name.length) ∧
      ∀ os name, Directory.new os name =
        .panic (.assertion "assertion failed: size & !PAGE_SIZE == 0") := by
  refine ⟨⟨long_of_lawful, fun hlong calls hcalls => ?_⟩, new_panics⟩
  obtain ⟨results, hrun, hspec⟩ := run_long init []
    fun name hname => hlong name (hcalls.subset hname)
  rw [hspec]
  exact ⟨init, hrun, stores_init⟩

/-- The name `"a"`, which should get entry 0. -/
theorem register_a_panics :
    registerNewEntry init [97] =
      .panic (.assertion "destination and source slices have different lengths") ∧
    registerSpec [] [97] = (some 0, [[97]]) ∧ ¬ Lawful [[97]] := by
  refine ⟨register_short (by decide), by decide, fun hlawful => ?_⟩
  exact absurd (long_of_lawful hlawful [97] List.mem_cons_self) (by decide)

end NetBricks.SharedState
