import Mathlib.Data.List.Basic

/-!
# The poll scheduler

`PollScheduler` of `src/framework/src/control/linux/epoll.rs`. `get_token_noblock` hands out
one event per call. It asks `epoll_wait` for a list of events when it has none left, and keeps
the list in `ready_tokens` and its length in `events`.

The two branches disagree about what `events` counts. The branch that pops an event of an old
list lowers the counter first; the one that has just got a list sets the counter to the whole
length and pops as well. So from then on the counter is one ahead of the events that are left
(`Backlog`), and after the last event of a list there is one more call that finds the counter
positive and nothing to pop: it returns `None` without asking.

No event is lost or handed out twice by that: `events_delivered` says that when `epoll_wait`
is asked again all events of the lists before have been handed out, that every list with an
event in it costs one such call, and that counter and events agree only as long as there was
no event at all.

Mirroring notes:

* What `epoll_wait` finds ready is up to the kernel, so calls carry it. It writes no more
  events than the buffer has room for. Its errors end the program.
* `Vec::pop` takes the last element, so a list is handed out from its end.
-/

namespace NetBricks.Control

abbrev Token := UInt64

abbrev Available := UInt64

/-- `NONE`. -/
def availableNone : Available := 0x0

/-- `READ`. -/
def availableRead : Available := 0x1

/-- `WRITE`. -/
def availableWrite : Available := 0x2

/-- `HUP`. -/
def availableHup : Available := 0x4

/-- `EpollFlags`. -/
abbrev EpollFlags := UInt32

namespace EpollFlags

/-- `EPOLLIN`. -/
def epollIn : EpollFlags := 0x001

/-- `EPOLLOUT`. -/
def epollOut : EpollFlags := 0x004

/-- `EPOLLERR`. -/
def epollErr : EpollFlags := 0x008

/-- `EPOLLHUP`. -/
def epollHup : EpollFlags := 0x010

/-- `contains`. -/
def contains (kind flag : EpollFlags) : Bool := kind &&& flag == flag

end EpollFlags

structure EpollEvent where
  events : EpollFlags
  data : Token
  deriving DecidableEq, Repr

/-- `epoll_wait`, with what is ready and the room in the buffer. -/
def epollWait (ready : List EpollEvent) (room : Nat) : List EpollEvent := ready.take room

structure PollScheduler where
  readyTokens : List EpollEvent
  /-- The capacity of `ready_tokens`. -/
  capacity : Nat
  events : Nat
  deriving DecidableEq, Repr

namespace PollScheduler

def new : PollScheduler := { readyTokens := [], capacity := 32, events := 0 }

def epollKindToAvailable (kind : EpollFlags) : Available :=
  let available := availableNone
  let available :=
    if EpollFlags.contains kind EpollFlags.epollIn then available ||| availableRead else available
  let available :=
    if EpollFlags.contains kind EpollFlags.epollOut then available ||| availableWrite else available
  if EpollFlags.contains kind EpollFlags.epollHup ||
      EpollFlags.contains kind EpollFlags.epollErr then
    available ||| availableHup
  else available

/-- What is handed out for an event. -/
def toToken (t : EpollEvent) : Token × Available := (t.data, epollKindToAvailable t.events)

/-- `Vec::pop` on `ready_tokens`. -/
def pop (s : PollScheduler) : Option EpollEvent × PollScheduler :=
  (s.readyTokens.getLast?, { s with readyTokens := s.readyTokens.dropLast })

/-- `get_token_noblock`, with what `epoll_wait` would find ready. -/
def getTokenNoblock (s : PollScheduler) (ready : List EpollEvent) :
    Option (Token × Available) × PollScheduler :=
  let (t, s) :=
    if s.events > 0 then { s with events := s.events - 1 }.pop
    else
      let dest := epollWait ready s.capacity
      -- `set_len` makes the vector what `epoll_wait` has written
      { s with events := dest.length, readyTokens := dest }.pop
  (t.map toToken, s)

/-! ## Runs -/

/-- One call: what `epoll_wait` returned, if it was asked, what the call returned, and the
scheduler after it. -/
structure Served where
  polled : Option (List EpollEvent)
  token : Option (Token × Available)
  after : PollScheduler
  deriving DecidableEq, Repr

def serve (s : PollScheduler) (ready : List EpollEvent) : Served :=
  { polled := if s.events > 0 then none else some (epollWait ready s.capacity)
    token := (s.getTokenNoblock ready).1
    after := (s.getTokenNoblock ready).2 }

/-- Calls one after another, each with what is ready then. -/
def calls : PollScheduler → List (List EpollEvent) → List Served
  | _, [] => []
  | s, ready :: later => s.serve ready :: (s.serve ready).after.calls later

/-- The scheduler after these calls. -/
def afterCalls : PollScheduler → List (List EpollEvent) → PollScheduler
  | s, [] => s
  | s, ready :: later => (s.serve ready).after.afterCalls later

/-- The lists that `epoll_wait` returned. -/
def polls (cs : List Served) : List (List EpollEvent) := cs.filterMap (·.polled)

/-- What the calls returned. -/
def tokens (cs : List Served) : List (Token × Available) := cs.filterMap (·.token)

/-- All events of the lists, each list from its end. -/
def allEvents (lists : List (List EpollEvent)) : List (Token × Available) :=
  lists.flatMap fun l => l.reverse.map toToken

/-- A call that returned `None` although it was not told by `epoll_wait` that nothing is
ready. -/
def Gap (c : Served) : Prop := c.token = none ∧ c.polled ≠ some []

instance (c : Served) : Decidable (Gap c) := inferInstanceAs (Decidable (_ ∧ _))

/-! ## One call -/

/-- The events that are left, in the order they will be handed out. -/
def left (s : PollScheduler) : List (Token × Available) := s.readyTokens.reverse.map toToken

/-- The two states of the counter: nothing is left and it is 0, or it is one ahead. -/
def Backlog (s : PollScheduler) : Prop :=
  s.events = 0 ∧ s.readyTokens = [] ∨ s.events = s.readyTokens.length + 1

theorem Backlog.one_ahead {s : PollScheduler} (hs : s.Backlog) (h : s.events > 0) :
    s.events = s.readyTokens.length + 1 := by
  rcases hs with hs | hs
  · omega
  · exact hs

theorem Backlog.left_eq_nil {s : PollScheduler} (hs : s.Backlog) (h : s.events = 0) :
    s.left = [] := by
  rcases hs with hs | hs
  · simp [left, hs.2]
  · omega

/-- The list splits into what is popped and what stays. -/
theorem map_reverse_pop (l : List EpollEvent) :
    l.reverse.map toToken =
      (l.getLast?.map toToken).toList ++ l.dropLast.reverse.map toToken := by
  rcases List.eq_nil_or_concat l with hnil | ⟨front, a, hlast⟩
  · rw [hnil]
    rfl
  · rw [hlast]
    simp

theorem serve_of_pos {s : PollScheduler} (h : s.events > 0) (ready : List EpollEvent) :
    s.serve ready =
      { polled := none, token := s.readyTokens.getLast?.map toToken
        after := { s with events := s.events - 1, readyTokens := s.readyTokens.dropLast } } := by
  unfold serve getTokenNoblock
  rw [if_pos h, if_pos h]
  rfl

theorem serve_of_zero {s : PollScheduler} (h : s.events = 0) (ready : List EpollEvent) :
    s.serve ready =
      { polled := some (epollWait ready s.capacity)
        token := (epollWait ready s.capacity).getLast?.map toToken
        after := { s with
          events := (epollWait ready s.capacity).length
          readyTokens := (epollWait ready s.capacity).dropLast } } := by
  unfold serve getTokenNoblock
  rw [if_neg (by omega), if_neg (by omega)]
  rfl

/-- What one call hands out and leaves is what was left and what it was told. -/
theorem serve_left {s : PollScheduler} (hs : s.Backlog) (ready : List EpollEvent) :
    (s.serve ready).token.toList ++ (s.serve ready).after.left =
      s.left ++ allEvents (s.serve ready).polled.toList := by
  by_cases h : s.events > 0
  · rw [serve_of_pos h]
    show _ = s.left ++ []
    rw [List.append_nil]
    exact (map_reverse_pop s.readyTokens).symm
  · have hzero : s.events = 0 := by omega
    rw [serve_of_zero hzero, hs.left_eq_nil hzero, List.nil_append]
    show _ = allEvents [epollWait ready s.capacity]
    rw [allEvents, List.flatMap_singleton]
    exact (map_reverse_pop (epollWait ready s.capacity)).symm

/-- A call keeps the relation between the counter and what is left. -/
theorem serve_backlog {s : PollScheduler} (hs : s.Backlog) (ready : List EpollEvent) :
    (s.serve ready).after.Backlog := by
  by_cases h : s.events > 0
  · have hone := hs.one_ahead h
    rw [serve_of_pos h]
    unfold Backlog
    dsimp only
    by_cases hnil : s.readyTokens = []
    · exact Or.inl ⟨by rw [hone, hnil]; rfl, by rw [hnil]; rfl⟩
    · have hpos := List.length_pos_iff.mpr hnil
      right
      rw [hone, List.length_dropLast]
      omega
  · rw [serve_of_zero (by omega)]
    unfold Backlog
    dsimp only
    by_cases hnil : epollWait ready s.capacity = []
    · exact Or.inl ⟨by rw [hnil]; rfl, by rw [hnil]; rfl⟩
    · have hpos := List.length_pos_iff.mpr hnil
      right
      rw [List.length_dropLast]
      omega

/-! ## All calls -/

/-- What a call adds to a record of the calls. -/
theorem record_cons {β : Type} (entry : Served → Option β) (c : Served) (cs : List Served) :
    (c :: cs).filterMap entry = (entry c).toList ++ cs.filterMap entry := by
  rw [List.filterMap_cons]
  split
  next hnone => simp [hnone]
  next b hsome => simp [hsome]

theorem polls_cons (c : Served) (cs : List Served) :
    polls (c :: cs) = c.polled.toList ++ polls cs := record_cons (·.polled) c cs

theorem tokens_cons (c : Served) (cs : List Served) :
    tokens (c :: cs) = c.token.toList ++ tokens cs := record_cons (·.token) c cs

theorem allEvents_append (l₁ l₂ : List (List EpollEvent)) :
    allEvents (l₁ ++ l₂) = allEvents l₁ ++ allEvents l₂ := List.flatMap_append

theorem afterCalls_backlog (waits : List (List EpollEvent)) :
    ∀ {s : PollScheduler}, s.Backlog → (s.afterCalls waits).Backlog := by
  induction waits with
  | nil => intro s hs; exact hs
  | cons ready later ih => intro s hs; exact ih (serve_backlog hs ready)

/-- What the calls hand out and leave is what was left and what they were told. -/
theorem calls_left (waits : List (List EpollEvent)) :
    ∀ {s : PollScheduler}, s.Backlog →
      tokens (s.calls waits) ++ (s.afterCalls waits).left =
        s.left ++ allEvents (polls (s.calls waits)) := by
  induction waits with
  | nil =>
    intro s _
    simp [calls, afterCalls, tokens, polls, allEvents]
  | cons ready later ih =>
    intro s hs
    rw [calls, afterCalls, tokens_cons, polls_cons, allEvents_append, List.append_assoc,
      ih (serve_backlog hs ready), ← List.append_assoc, serve_left hs, List.append_assoc]

/-! ## The calls in between -/

/-- 1 while the call that pops nothing from the current list is still to come. -/
def owed (s : PollScheduler) : Nat := if s.events = 0 then 0 else 1

/-- How many of the lists have an event in them. -/
def busy (lists : List (List EpollEvent)) : Nat := lists.countP (· ≠ [])

/-- A list with an event in it makes the scheduler owe a gap, and the gap settles it. -/
theorem serve_gap {s : PollScheduler} (hs : s.Backlog) (ready : List EpollEvent) :
    (if Gap (s.serve ready) then 1 else 0) + (s.serve ready).after.owed =
      s.owed + busy (s.serve ready).polled.toList := by
  by_cases h : s.events > 0
  · have hone := hs.one_ahead h
    rw [serve_of_pos h]
    by_cases hnil : s.readyTokens = []
    · simp [Gap, owed, busy, hone, hnil]
    · simp [Gap, owed, busy, hone, hnil]
  · have hzero : s.events = 0 := by omega
    rw [serve_of_zero hzero]
    by_cases hnil : epollWait ready s.capacity = []
    · simp [Gap, owed, busy, hzero, hnil]
    · simp [Gap, owed, busy, hzero, hnil]

theorem calls_gaps (waits : List (List EpollEvent)) :
    ∀ {s : PollScheduler}, s.Backlog →
      (s.calls waits).countP (Gap ·) + (s.afterCalls waits).owed =
        s.owed + busy (polls (s.calls waits)) := by
  induction waits with
  | nil =>
    intro s _
    simp [calls, afterCalls, polls, busy]
  | cons ready later ih =>
    intro s hs
    have hstep := serve_gap hs ready
    have hrest := ih (serve_backlog hs ready)
    rw [calls, afterCalls, List.countP_cons, polls_cons, busy, List.countP_append]
    simp only [decide_eq_true_eq]
    unfold busy at hstep hrest
    omega

/-- From a scheduler with nothing left, counter and events agree after every call exactly when
no list has an event in it. -/
theorem calls_agree_iff (waits : List (List EpollEvent)) :
    ∀ {s : PollScheduler}, s.events = 0 → s.readyTokens = [] →
      ((∀ c ∈ s.calls waits, c.after.events = c.after.readyTokens.length) ↔
        ∀ l ∈ polls (s.calls waits), l = []) := by
  induction waits with
  | nil =>
    intro s _ _
    simp [calls, polls]
  | cons ready later ih =>
    intro s hzero hnil
    rw [calls, polls_cons, serve_of_zero hzero, List.forall_mem_cons]
    show _ ↔ ∀ l ∈ epollWait ready s.capacity :: polls _, l = []
    rw [List.forall_mem_cons]
    dsimp only
    by_cases hlist : epollWait ready s.capacity = []
    · rw [hlist]
      exact and_congr (by simp) (ih rfl rfl)
    · have hpos := List.length_pos_iff.mpr hlist
      constructor
      · intro h
        have hlen := h.1
        rw [List.length_dropLast] at hlen
        omega
      · intro h
        exact absurd h.1 hlist

theorem new_backlog : new.Backlog := Or.inl ⟨rfl, rfl⟩

/-- **Events are handed out once, and each list costs a call.** For all calls and whatever is
ready at each of them: when `epoll_wait` is asked again, what has been handed out is all events
of the lists so far; a list with events in it is followed by one call that returns `None`
without asking; and the calls are free of that, and the counter is the number of events left,
exactly when no list has had an event. -/
theorem events_delivered (waits : List (List EpollEvent)) (next : List EpollEvent) :
    (((new.afterCalls waits).serve next).polled ≠ none →
      tokens (new.calls waits) = allEvents (polls (new.calls waits))) ∧
    ((new.calls waits).countP (Gap ·) + (new.afterCalls waits).owed =
      busy (polls (new.calls waits))) ∧
    (((∀ c ∈ new.calls waits, c.token = none → c.polled = some []) ∧
        ∀ c ∈ new.calls waits, c.after.events = c.after.readyTokens.length) ↔
      ∀ l ∈ polls (new.calls waits), l = []) := by
  have hgaps := calls_gaps waits new_backlog
  have hagree := calls_agree_iff waits (s := new) rfl rfl
  rw [show new.owed = 0 from rfl, Nat.zero_add] at hgaps
  refine ⟨fun hpoll => ?_, hgaps, fun h => hagree.mp h.2, fun hempty => ⟨?_, hagree.mpr hempty⟩⟩
  · -- a scheduler that asks has nothing left
    have hzero : (new.afterCalls waits).events = 0 := by
      by_contra hne
      rw [serve_of_pos (Nat.pos_of_ne_zero hne)] at hpoll
      exact hpoll rfl
    have hcalls := calls_left waits new_backlog
    rw [(afterCalls_backlog waits new_backlog).left_eq_nil hzero, List.append_nil] at hcalls
    exact hcalls
  · -- without an event in any list no gap is owed
    have hbusy : busy (polls (new.calls waits)) = 0 := by
      rw [busy, List.countP_eq_zero]
      simpa using hempty
    have hnone : (new.calls waits).countP (Gap ·) = 0 := by omega
    intro c hc htoken
    by_contra hpolled
    have hgap := List.countP_eq_zero.mp hnone c hc
    exact hgap (decide_eq_true (show Gap c from ⟨htoken, hpolled⟩))

/-- An event of the listener: something to read. -/
def readable (token : Token) : EpollEvent := { events := EpollFlags.epollIn, data := token }

/-- With nothing ready the calls return `None` and the counter stays 0. -/
theorem events_delivered_idle :
    (∀ c ∈ new.calls [[], []], c.token = none → c.polled = some []) ∧
      ∀ c ∈ new.calls [[], []], c.after.events = c.after.readyTokens.length :=
  (events_delivered [[], []] []).2.2.mpr (by decide)

/-- One event is ready, and then another: the second call returns `None` without asking, with
the counter at 1 and nothing left before it. -/
theorem get_token_skips_call :
    (new.calls [[readable 1], [readable 2], [readable 2]]).map (·.token) =
        [some (1, 1), none, some (2, 1)] ∧
      (new.calls [[readable 1], [readable 2], [readable 2]]).map (·.polled) =
        [some [readable 1], none, some [readable 2]] ∧
      (new.afterCalls [[readable 1]]).events = 1 ∧
      (new.afterCalls [[readable 1]]).readyTokens = [] := by
  decide

end PollScheduler

end NetBricks.Control
