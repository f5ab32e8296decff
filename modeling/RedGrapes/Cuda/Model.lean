/-
RedGrapes/Cuda/Model.lean

The worker of a `CudaThreadScheduler` (`dispatch/cuda/cuda_worker.hpp`) and the device it
drives.

One thread submits CUDA tasks into the root space, one worker initialises and executes them.
The body of a task takes a stream through `getCudaStream`, launches device work on it, and then
returns or yields on an event.  `execute_task` records an event behind the work and makes an
external event of the task, which `poll` notifies when the recorded event is complete.  A task
that yields is paused (`sg_pause`); when the event it waits for is reached, by whatever thread, it
is activated again, and its body launches more work, on the stream it has or on one that it
takes anew.  The device works through each stream in the order of the launches and knows no
order across streams.

The stream index of a task is set when its body first runs.  From then on
`task_dependency_type` lets successors depend on its pre-event.

The worker notifies events one at a time: `todo` holds the calls of `notify` that are still to
be made, in the order of the source, where an event that is reached notifies its followers
before the next call.  The calls of the threads that reach the events of paused tasks are in
`others` and come in any order.  Queues are bags: a pop may give any element, or none.
-/
import RedGrapes.Runtime.Model

namespace RedGrapes.Cuda

open Function RedGrapes.Runtime

/-! ### State -/

/-- Where the worker goes on when it has nothing to notify: at the beginning of `gather_task`,
in its second stage, at `execute_task`, and at `poll`.  The steps of a pause of `t` on the event
`x` are those of `sg_pause`, which stores 1 into the counter of the pre-event and then checks
the event, pushes the pre-event to its followers and increments the counter, and `up`. -/
inductive Place
  | gather
  | init
  | execute (t : Nat)
  | poll
  | store (t x : Nat)
  | check (t x : Nat)
  | push (t x : Nat)
  | count (t : Nat)
  | up (t : Nat)
deriving DecidableEq

/-- What the body of a task has done: nothing yet, it has yielded, `sg_pause` has made the task
wait for its next execution, or the body has returned. -/
inductive Progress
  | fresh
  | yielded
  | paused
  | returned
deriving DecidableEq

/-- The task is still to be executed. -/
def Progress.isWaiting : Progress → Bool
  | .fresh => true
  | .paused => true
  | _ => false

/-- An event on which tasks yield: not reached, reached, or its followers are notified. -/
inductive Outside
  | unreached
  | reached
  | walked
deriving DecidableEq

/-- The type of `stream_idx` is `atomic_uint`. -/
def streamCounterSize : Nat := 4294967296

/-- The runtime and the device.  Tasks are named by their place in the order of submission and
device work by the order of the launches; `external n` is the event that `execute_task` makes for
the launch `n`. -/
structure State where
  numStreams : ℕ+
  /-- Submitted tasks and the user lists of the resources. -/
  graph : Graph
  /-- Tasks whose entries are removed from the user lists. -/
  removed : Nat → Bool
  emplaced : List Nat
  ready : List Nat
  place : Place
  todo : List EventPtr
  /-- Calls of `notify` that other threads have still to make. -/
  others : List EventPtr
  counter : EventPtr → Nat
  /-- The entries of all follower lists, newest first: an event and its follower. -/
  followers : List (EventPtr × EventPtr)
  progress : Nat → Progress
  /-- The events on which tasks yield. -/
  outside : Nat → Outside
  /-- The entries of their follower lists: the event, and the task whose pre-event follows. -/
  waiting : List (Nat × Nat)
  /-- `m_cuda_stream_idx`. -/
  streamIdx : Nat → Option Nat
  nextStream : Nat
  /-- The number of launches. -/
  launches : Nat
  /-- The task that launched a piece of work, and the stream it is on. -/
  owner : Nat → Nat
  stream : Nat → Nat
  /-- The work launched on each stream, newest first. -/
  streams : Nat → List Nat
  /-- Launches that the device has completed. -/
  complete : Nat → Bool
  /-- The queue `events` of recorded events, each with the launch before it. -/
  events : List Nat
  /-- Recorded by `init_graph`: the predecessors of a task of which the dependency was on the
  pre-event. -/
  weak : Nat → List Nat

namespace State

def initial (numStreams : ℕ+) : State where
  numStreams := numStreams
  graph := .empty
  removed := fun _ => false
  emplaced := []
  ready := []
  place := .gather
  todo := []
  others := []
  counter := fun _ => 1
  followers := []
  progress := fun _ => .fresh
  outside := fun _ => .unreached
  waiting := []
  streamIdx := fun _ => none
  nextStream := 0
  launches := 0
  owner := fun _ => 0
  stream := fun _ => 0
  streams := fun _ => []
  complete := fun _ => false
  events := []
  weak := fun _ => []

/-! ### The device -/

/-- What was launched before `n` on a stream. -/
def before (launched : List Nat) (n : Nat) : List Nat := (launched.dropWhile (· ≠ n)).tail

/-- The work launched before `n` on the same stream. -/
def ahead (s : State) (n : Nat) : List Nat := before (s.streams (s.stream n)) n

/-- The work `n` may start: it is launched, and all earlier work on its stream is complete. -/
def MayStart (s : State) (n : Nat) : Prop :=
  n < s.launches ∧ ∀ k ∈ s.ahead n, s.complete k = true

instance (s : State) (n : Nat) : Decidable (s.MayStart n) :=
  inferInstanceAs (Decidable (_ ∧ _))

/-- The device completes the work `n`. -/
def finish (s : State) (n : Nat) : Option State :=
  if s.MayStart n then some { s with complete := update s.complete n true } else none

/-- The device work of the task `t` is complete, and there will be no more. -/
def WorkComplete (s : State) (t : Nat) : Prop :=
  s.progress t = .returned ∧ ∀ n < s.launches, s.owner n = t → s.complete n = true

instance (s : State) (t : Nat) : Decidable (s.WorkComplete t) :=
  inferInstanceAs (Decidable (_ ∧ _))

/-! ### Events -/

/-- `Event::up`. -/
def up (s : State) (e : EventPtr) : State :=
  { s with counter := update s.counter e ((s.counter e + 1) % counterSize) }

/-- The `fetch_sub` of `notify`. -/
def down (s : State) (e : EventPtr) : State :=
  { s with counter := update s.counter e ((s.counter e + (counterSize - 1)) % counterSize) }

/-- The follower list of an event, as `notify_followers` walks it. -/
def followersOf (s : State) (e : EventPtr) : List EventPtr :=
  (s.followers.filter fun d => d.1 = e).map Prod.snd

/-- `activate_task`, when the event is a pre-event. -/
def activate (s : State) : EventPtr → State
  | .pre t => { s with ready := s.ready ++ [t] }
  | _ => s

/-- `delete_from_resources`, when the event is a post-event. -/
def delete (s : State) : EventPtr → State
  | .post t => { s with removed := update s.removed t true }
  | _ => s

/-- `EventPtr::notify` up to `notify_followers`. -/
def notify (s : State) (e : EventPtr) : State :=
  let s := s.down e
  if s.counter e = 1 then s.activate e
  else if s.counter e = 0 then s.delete e
  else s

/-- The calls that `notify_followers` makes after a call of `notify`. -/
def cascade (s : State) (e : EventPtr) : List EventPtr :=
  if (s.down e).counter e = 0 then s.followersOf e else []

/-! ### The scheduling graph -/

/-- The tasks on which `init_graph` of `t` calls `add_dependency`; the loop does not see
removed entries. -/
def predecessors (s : State) (t : Nat) : List Nat :=
  (s.graph.entries t).flatMap fun e =>
    scan s.graph.info t e.1 (((s.graph.users e.1).take e.2).reverse.filter fun p => !s.removed p)

/-- `task_dependency_type`: whether successors depend on the pre-event of `p`. -/
def taskDependencyType (s : State) (p : Nat) : Bool := (s.streamIdx p).isSome

/-- The event of the preceding task `p` on which `add_dependency` lets a task depend. -/
def precedingEvent (s : State) (p : Nat) : EventPtr :=
  if s.taskDependencyType p then .pre p else .post p

/-- `Event::add_follower`, where no other thread can reach the event. -/
def addFollower (s : State) (e f : EventPtr) : State :=
  if s.counter e = 0 then s else { s with followers := (e, f) :: s.followers }.up f

/-- `add_dependency` of `t` on the preceding task `p`. -/
def addDependency (t : Nat) (s : State) (p : Nat) : State :=
  { s.addFollower (s.precedingEvent p) (.pre t) with
    weak := if s.taskDependencyType p then update s.weak t (p :: s.weak t) else s.weak }

/-- `init_graph`. -/
def initGraph (s : State) (t : Nat) : State := (s.predecessors t).foldl (addDependency t) s

/-! ### The worker -/

/-- `init_dependencies` of `t` up to its `notify(claimed)`, which does not activate `t`. -/
def initDependencies (s : State) (t : Nat) : State :=
  let s := ((s.up (.pre t)).initGraph t).down (.pre t)
  if s.counter (.pre t) = 1 then { s with place := .execute t }
  else if s.counter (.pre t) = 0 then { s with todo := s.followersOf (.pre t) }
  else s

/-- Whether the body of `t` calls `getCudaStream`, which a body that is resumed need not do. -/
def takesStream (s : State) (t : Nat) (again : Bool) : Bool := again || (s.streamIdx t).isNone

/-- The stream on which the body of `t` launches its work. -/
def launchStream (s : State) (t : Nat) (again : Bool) : Nat :=
  if s.takesStream t again then s.nextStream % s.numStreams else (s.streamIdx t).getD 0

/-- The body of `t` up to its end or the next event on which it yields: `getCudaStream` and the
launch. -/
def launch (s : State) (t : Nat) (again : Bool) : State :=
  let i := s.launchStream t again
  { s with
    nextStream :=
      if s.takesStream t again then (s.nextStream + 1) % streamCounterSize else s.nextStream
    streamIdx := update s.streamIdx t (some i)
    launches := s.launches + 1
    owner := update s.owner s.launches t
    stream := update s.stream s.launches i
    streams := update s.streams i (s.launches :: s.streams i) }

/-- `execute_task` up to the calls of `notify`.  `make_event` lets the post-event follow the
new external event.  The body gives back the event on which it yields, if it does. -/
def executeTask (s : State) (t : Nat) (again : Bool) (event : Option Nat) : State :=
  let n := s.launches
  let s := (s.launch t again).addFollower (.external n) (.post t)
  let s := { s with events := s.events ++ [n] }
  match event with
  | none => { s with
      progress := update s.progress t .returned
      todo := [.pre t, .post t]
      place := .poll }
  | some x => { s with
      progress := update s.progress t .yielded
      todo := [.pre t]
      place := .store t x }

/-- `poll`; a recorded event is complete when the device work before it is. -/
def poll (s : State) : State :=
  match s.events with
  | [] => { s with place := .gather }
  | n :: rest =>
      if s.complete n then
        { s with events := rest, todo := [.external n], place := .gather }
      else { s with place := .gather }

/-- One step of `work_loop`.  `pick` says what a pop of a queue gives, `again` and `event` what a
body does that is run. -/
def work (s : State) (pick : Nat) (again : Bool) (event : Option Nat) : State :=
  match s.todo with
  | e :: rest => { s.notify e with todo := s.cascade e ++ rest }
  | [] =>
      match s.place with
      | .gather =>
          match s.ready[pick]? with
          | some t => { s with ready := s.ready.eraseIdx pick, place := .execute t }
          | none => { s with place := .init }
      | .init =>
          match s.emplaced[pick]? with
          | some t => { s with emplaced := s.emplaced.eraseIdx pick }.initDependencies t
          | none => { s with place := .poll }
      | .execute t => s.executeTask t again event
      | .poll => s.poll
      -- `sg_pause`
      | .store t x => { s with
          counter := update s.counter (.pre t) 1
          progress := update s.progress t .paused
          place := .check t x }
      | .check t x => { s with place := if s.outside x = .unreached then .push t x else .up t }
      | .push t x => { s with waiting := (x, t) :: s.waiting, place := .count t }
      | .count t => { s.up (.pre t) with place := .up t }
      -- `pre_event.up()` and `notify()`
      | .up t => { s.up (.pre t) with todo := [.pre t], place := .poll }

/-! ### Other threads -/

/-- A task is submitted: its entries go into the user lists, and it is pushed to the
emplacement queue. -/
def submit (s : State) (calls : List BuilderCall) : State :=
  { s with
    graph := s.graph.submit none calls
    emplaced := s.emplaced ++ [s.graph.next] }

/-- An event on which tasks yield is reached. -/
def reach (s : State) (x : Nat) : Option State :=
  if s.outside x = .unreached then some { s with outside := update s.outside x .reached } else none

/-- The thread that has reached the event walks its follower list. -/
def walk (s : State) (x : Nat) : Option State :=
  if s.outside x = .reached then some { s with
    outside := update s.outside x .walked
    others := ((s.waiting.filter fun d => d.1 = x).map fun d => .pre d.2) ++ s.others }
  else none

/-- One of the calls of `notify` of other threads. -/
def notifyOther (s : State) (k : Nat) : Option State :=
  (s.others[k]?).map fun e => { s.notify e with others := s.cascade e ++ s.others.eraseIdx k }

end State

/-- A task is submitted, the worker makes a step, the device completes work, an event on which
tasks yield is reached and its followers are listed, or another thread notifies one. -/
inductive Action
  | submit (calls : List BuilderCall)
  | work (pick : Nat) (again : Bool) (event : Option Nat)
  | finish (n : Nat)
  | reach (x : Nat)
  | walk (x : Nat)
  | other (k : Nat)

def step (s : State) : Action → Option State
  | .submit calls => some (s.submit calls)
  | .work pick again event => some (s.work pick again event)
  | .finish n => s.finish n
  | .reach x => s.reach x
  | .walk x => s.walk x
  | .other k => s.notifyOther k

/-! ### Conditions on steps -/

/-- The task which a step of the worker takes from the emplacement queue. -/
def State.initNext (s : State) (pick : Nat) : Option Nat :=
  if s.todo = [] ∧ s.place = .init then s.emplaced[pick]? else none

/-- The task which a step of the worker executes. -/
def State.executeNext (s : State) : Option Nat :=
  match s.todo, s.place with
  | [], .execute t => some t
  | _, _ => none

/-- The dependencies of which `init_graph` of `t` adds an edge: the predecessors whose event is
not reached. -/
def State.edgesNext (s : State) (t : Nat) : Nat :=
  (s.predecessors t).countP fun p => s.counter (s.precedingEvent p) ≠ 0

/-- No counter overflows: that of the pre-event has room for the dependencies when a task is
initialised, that of the post-event for one more external event when it is executed. -/
def Room (s : State) : Action → Prop
  | .work pick _ _ => (∀ t ∈ s.initNext pick, 2 + s.edgesNext t < counterSize) ∧
      ∀ t ∈ s.executeNext, s.counter (.post t) + 1 < counterSize
  | _ => True

/-- When a task is executed, the device work of every predecessor on whose pre-event it depended
is complete, or on the stream on which the task launches its work. -/
def KeepsStream (s : State) : Action → Prop
  | .work _ again _ => ∀ t ∈ s.executeNext, ∀ k ∈ s.weak t, ∀ n < s.launches, s.owner n = k →
      s.complete n = true ∨ s.stream n = s.launchStream t again
  | _ => True

/-- The next step of a pause: the task has no followers on its pre-event when it is paused, and
the event has not walked its follower list before the task is pushed to it. -/
def Place.PauseOk (s : State) : Place → Prop
  | .store t _ => s.followersOf (.pre t) = []
  | .push _ x => s.outside x ≠ .walked
  | _ => True

/-- The event is a pre-event that has been pushed to a follower list, and `up` is still to
come. -/
def Place.IsBeforeUp (e : EventPtr) : Place → Prop
  | .count t => e = .pre t
  | .up t => e = .pre t
  | _ => False

/-- Pauses do their work: the conditions above, and no other thread notifies the pre-event of a
task between the push and `up`. -/
def PausesOnce (s : State) : Action → Prop
  | .work _ _ _ => s.todo = [] → s.place.PauseOk s
  | .other k => ∀ e ∈ s.others[k]?, ¬ s.place.IsBeforeUp e
  | _ => True

/-- The condition on the steps under which the device keeps the order of serial tasks. -/
def Careful (s : State) (a : Action) : Prop := Room s a ∧ PausesOnce s a ∧ KeepsStream s a

section Decidable

instance : ∀ (s : State) (a : Action), Decidable (Room s a)
  | s, .work pick _ _ => inferInstanceAs (Decidable
      ((∀ t ∈ s.initNext pick, 2 + s.edgesNext t < counterSize) ∧
        ∀ t ∈ s.executeNext, s.counter (.post t) + 1 < counterSize))
  | _, .submit _ | _, .finish _ | _, .reach _ | _, .walk _ | _, .other _ => isTrue trivial

instance : ∀ (s : State) (a : Action), Decidable (KeepsStream s a)
  | s, .work _ again _ => inferInstanceAs (Decidable
      (∀ t ∈ s.executeNext, ∀ k ∈ s.weak t, ∀ n < s.launches, s.owner n = k →
        s.complete n = true ∨ s.stream n = s.launchStream t again))
  | _, .submit _ | _, .finish _ | _, .reach _ | _, .walk _ | _, .other _ => isTrue trivial

instance (s : State) : ∀ p : Place, Decidable (p.PauseOk s)
  | .store t _ => inferInstanceAs (Decidable (s.followersOf (.pre t) = []))
  | .push _ x => inferInstanceAs (Decidable (s.outside x ≠ .walked))
  | .gather | .init | .execute _ | .poll | .check _ _ | .count _ | .up _ => isTrue trivial

instance (e : EventPtr) : ∀ p : Place, Decidable (p.IsBeforeUp e)
  | .count t | .up t => inferInstanceAs (Decidable (e = .pre t))
  | .gather | .init | .execute _ | .poll | .store _ _ | .check _ _ | .push _ _ => isFalse id

instance : ∀ (s : State) (a : Action), Decidable (PausesOnce s a)
  | s, .work _ _ _ => inferInstanceAs (Decidable (s.todo = [] → s.place.PauseOk s))
  | s, .other k => inferInstanceAs (Decidable (∀ e ∈ s.others[k]?, ¬ s.place.IsBeforeUp e))
  | _, .submit _ | _, .finish _ | _, .reach _ | _, .walk _ => isTrue trivial

instance (s : State) (a : Action) : Decidable (Careful s a) :=
  inferInstanceAs (Decidable (_ ∧ _))

end Decidable

end RedGrapes.Cuda
