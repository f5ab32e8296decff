/-
RedGrapes/Runtime/Model.lean

The runtime as an interleaving machine: any number of threads submit tasks,
initialise them, execute them and complete them, one atomic step at a time.

A thread is a stack of frames.  A frame is a place in the code of the source:
`TaskBuilder::submit` and `TaskSpace::submit`, `make_event`,
`init_dependencies` with `init_graph`, `execute_task`, `EventPtr::notify` with
`delete_from_resources` and `notify_followers`, `Future`.  One step runs the
code of the top frame up to its next access of shared memory, so every
interleaving of these accesses is a run.

What is left open on purpose:

* queues are bags, so a worker may take any emplaced or ready task; this
  covers every order in which workers pop and steal;
* a thread outside of the runtime's code may at any time notify an external
  event, and move, read or destroy a `Future`;
* user lists are lists: a push, a removal and the read of an entry are one step
  each, and a scan misses no entry; `ChunkedList.Walk` says when the chunked
  lists of the code keep to this.

User code is a `Body`, the tree of calls a thread of control makes next:
reads and writes of resources, `emplace_task`, `create_event`.  No task
yields or calls `update_properties`, and successors depend on post-events
(`task_dependency_type` is `false`).
-/
import RedGrapes.DependencyGraph
import RedGrapes.Lib.Machine

namespace RedGrapes.Runtime

open Function

/-! ### Events -/

/-- `EventPtr`: an event of a task, or an external event. -/
inductive EventPtr
  | pre (t : Nat)
  | post (t : Nat)
  | resultSet (t : Nat)
  | resultGet (t : Nat)
  | external (x : Nat)
deriving DecidableEq

/-- An entry of a follower list.  The lists of all events are kept as one
list; `src` is the event whose list the entry is in, `dst` the follower.
`counted` and `notified` record whether the follower's counter has been
incremented for the entry, and how often it was decremented for it. -/
structure Follower where
  src : EventPtr
  dst : EventPtr
  counted : Bool
  notified : Nat
deriving DecidableEq

/-- An entry of a resource's user list; `remove` leaves a tombstone. -/
structure UserEntry where
  task : Nat
  removed : Bool
deriving DecidableEq

/-- `Event::state` is a `uint16_t`. -/
def counterSize : Nat := 65536

/-- `TaskID`, the type of `task_count`, is an `unsigned int`. -/
def taskCountSize : Nat := 4294967296

/-! ### User code -/

/-- The calls a thread of control makes next.  `emplace` submits a child with
the given builder calls and body, and goes on. -/
inductive Body (V : Type)
  | done
  | read (r : Resource) (k : V → Body V)
  | write (r : Resource) (v : V) (k : Body V)
  | emplace (calls : List BuilderCall) (child : Body V) (k : Body V)
  | createEvent (k : Body V)

/-! ### Frames -/

/-- Places in `TaskSpace::submit` and `TaskBuilder::submit`. -/
inductive SubmitPc
  | follower
  | count (i : Nat)
  | users (rs : List Resource)
  | future

/-- Places in `init_dependencies` and `init_graph`.  `es` are the usage
entries still to be scanned, `k` the position of the scan in the user list of
`r`, `p` the preceding task found there, `i` the follower entry just pushed. -/
inductive InitPc
  | up
  | resources (es : List (Resource × Nat))
  | scan (r : Resource) (k : Nat) (es : List (Resource × Nat))
  | check (r : Resource) (k p : Nat) (es : List (Resource × Nat))
  | follow (r : Resource) (k p : Nat) (es : List (Resource × Nat))
  | push (r : Resource) (k p : Nat) (es : List (Resource × Nat))
  | count (r : Resource) (k p : Nat) (es : List (Resource × Nat)) (i : Nat)
  | next (r : Resource) (k p : Nat) (es : List (Resource × Nat))
  | unlock (r : Resource) (es : List (Resource × Nat))

/-- Places in `delete_from_resources`. -/
inductive DeletePc
  | resources (es : List (Resource × Nat))
  | remove (r : Resource) (k : Nat) (es : List (Resource × Nat))
  | unlock (r : Resource) (es : List (Resource × Nat))

/-- A frame.  `cur` is the task whose body runs, `none` for the thread that
fills the root space.  From `waker` on they are places in `EventPtr::notify`
after its `fetch_sub` returned `old`: reading `waker_id`, `activate_task`,
`delete_from_resources`, `notify_followers`, the countdown to the removal of
the task, `free_task`. -/
inductive Frame
  | body (cur : Option Nat)
  | submit (pc : SubmitPc) (t : Nat) (cur : Option Nat)
  | makeEvent (i x t : Nat)
  | init (pc : InitPc) (t : Nat)
  | exec (t : Nat)
  | setResult (t : Nat)
  | finish (t : Nat)
  | get (h : Nat)
  | notifyGet (t : Nat)
  | waker (e : EventPtr) (old : Nat) (claimed : Bool)
  | activate (t : Nat)
  | delete (pc : DeletePc) (t : Nat)
  | loop (e : EventPtr)
  | followers (e : EventPtr) (todo : List Nat)
  | removal (e : EventPtr) (t : Nat)
  | free (t : Nat)

/-! ### Shared state -/

/-- How far a task has come.  `blocked` means initialised and waiting for
predecessors, `active` means activated but not yet taken by a worker. -/
inductive Stage
  | unborn
  | submit
  | emplaced
  | popped
  | init
  | blocked
  | active
  | exec
  | run
  | result
  | finish
  | done
deriving DecidableEq

/-- How far an external event has come. -/
inductive ExtStage
  | unborn
  | creating
  | live
  | fired
deriving DecidableEq

/-- How far the notification that reaches an event has come: `reached` with
its counter at zero, `drained` when no follower can be added any more,
`looping` over the follower entries `todo`, `looped` when all of them are
notified, `gone` when the event has also left the removal countdown. -/
inductive Phase
  | open
  | reached
  | drained
  | looping (todo : List Nat)
  | looped
  | gone
deriving DecidableEq

inductive HandleStatus
  | live
  | taken
  | inGet
  | destroyed
deriving DecidableEq

/-- A `Future` object. -/
structure Handle where
  task : Nat
  status : HandleStatus
deriving DecidableEq

/-- The shared state.  The fields after `store` are history: steps set them,
no step looks at them. -/
structure Core (V : Type) where
  next : Nat
  info : Nat → TaskInfo
  /-- What is left of the body of a task, and of the main program. -/
  code : Option Nat → Body V
  counter : EventPtr → Nat
  followers : List Follower
  users : Resource → List UserEntry
  /-- The usage entries of a task with their positions, in the order in which
  `unique_resources` is iterated. -/
  entries : Nat → List (Resource × Nat)
  locked : Resource → Bool
  removalCountdown : Nat → Nat
  taskCount : Option Nat → Nat
  emplaced : List Nat
  ready : List Nat
  handles : List Handle
  nextEvent : Nat
  extTask : Nat → Nat
  extStage : Nat → ExtStage
  store : Resource → V
  stage : Nat → Stage
  handed : Nat → Nat
  getSpent : Nat → Bool
  phase : EventPtr → Phase
  freed : Nat → Nat

namespace Core

variable {V : Type}

/-- The state before the main program `main` starts.  Every event is
constructed with counter 1, every task with removal countdown 2. -/
def initial (main : Body V) (store : Resource → V) : Core V where
  next := 0
  info := fun _ => default
  code := fun cur => if cur = none then main else .done
  counter := fun _ => 1
  followers := []
  users := fun _ => []
  entries := fun _ => []
  locked := fun _ => false
  removalCountdown := fun _ => 2
  taskCount := fun _ => 0
  emplaced := []
  ready := []
  handles := []
  nextEvent := 0
  extTask := fun _ => 0
  extStage := fun _ => .unborn
  store := store
  stage := fun _ => .unborn
  handed := fun _ => 0
  getSpent := fun _ => false
  phase := fun _ => .open
  freed := fun _ => 0

def setStage (c : Core V) (t : Nat) (σ : Stage) : Core V :=
  { c with stage := update c.stage t σ }

def setPhase (c : Core V) (e : EventPtr) (ph : Phase) : Core V :=
  { c with phase := update c.phase e ph }

/-- The task that a notification of `e` makes `active` by leaving one unit. -/
def activated (c : Core V) (e : EventPtr) : Nat → Stage :=
  match e with
  | .pre t => if c.counter e = 2 then update c.stage t .active else c.stage
  | _ => c.stage

/-- `state.fetch_sub(1)`. -/
def fetchSub (c : Core V) (e : EventPtr) : Core V :=
  { c with
    counter := update c.counter e ((c.counter e + (counterSize - 1)) % counterSize)
    stage := c.activated e
    phase := if c.counter e = 1 then update c.phase e .reached else c.phase }

/-- `state++`. -/
def up (c : Core V) (e : EventPtr) : Core V :=
  { c with counter := update c.counter e ((c.counter e + 1) % counterSize) }

/-- `followers.push(dst)` on the list of `src`. -/
def pushFollower (c : Core V) (src dst : EventPtr) : Core V :=
  { c with followers := c.followers ++ [⟨src, dst, false, 0⟩] }

/-- `follower->state++` for the entry `i`. -/
def count (c : Core V) (i : Nat) (e : EventPtr) : Core V :=
  { c.up e with followers := c.followers.modify i fun d => { d with counted := true } }

/-- The resources of the usage entries of `t`, in iteration order. -/
def resourcesOf (c : Core V) (t : Nat) : List Resource :=
  (c.info t).user.uniqueResources.reverse

/-- `r->user_entry = r->resource->users.push(task)`. -/
def pushUser (c : Core V) (t : Nat) (r : Resource) : Core V :=
  { c with
    users := update c.users r (c.users r ++ [⟨t, false⟩])
    entries := update c.entries t (c.entries t ++ [(r, (c.users r).length)]) }

/-- `r->resource->users.remove(r->user_entry)`. -/
def removeUser (c : Core V) (r : Resource) (k : Nat) : Core V :=
  { c with users := update c.users r ((c.users r).modify k fun u => { u with removed := true }) }

/-- A new task of the space of `cur`, up to `++task_count`. -/
def create (c : Core V) (cur : Option Nat) (calls : List BuilderCall) (child k : Body V) : Core V :=
  { c with
    next := c.next + 1
    info := update c.info c.next ⟨calls, cur, Graph.depthOf c.info cur⟩
    code := update (update c.code cur k) (some c.next) child
    taskCount := update c.taskCount cur ((c.taskCount cur + 1) % taskCountSize)
    stage := update c.stage c.next .submit }

/-- The entries of the follower list of `e`, newest first. -/
def followersOf (c : Core V) (e : EventPtr) : List Nat :=
  ((List.range c.followers.length).filter fun i => (c.followers[i]?).any fun d => d.src = e).reverse

/-- `free_task`. -/
def freeTask (c : Core V) (t : Nat) : Core V :=
  { c with
    taskCount := update c.taskCount (c.info t).space
      ((c.taskCount (c.info t).space + (taskCountSize - 1)) % taskCountSize)
    freed := update c.freed t (c.freed t + 1) }

/-- What `EventPtr::notify` goes on with after its `fetch_sub` on `e`: nothing
while more than one unit is left. -/
def notifyTail (c : Core V) (e : EventPtr) (claimed : Bool) : List Frame :=
  if c.counter e > 2 then [] else [.waker e (c.counter e) claimed]

/-! ### Steps of a frame -/

/-- One step of user code. -/
def transBody (c : Core V) (cur : Option Nat) : Option (Core V × List Frame) :=
  match c.code cur with
  | .done =>
      match cur with
      | none => none
      | some t => some (c.setStage t .result, [.setResult t])
  | .read r k => some ({ c with code := update c.code cur (k (c.store r)) }, [.body cur])
  | .write r v k =>
      some ({ c with code := update c.code cur k, store := update c.store r v }, [.body cur])
  | .emplace calls child k =>
      let c' := c.create cur calls child k
      match cur with
      | none => some (c', [.submit (.users (c'.resourcesOf c.next)) c.next none])
      | some u => some (c', [.submit .follower c.next (some u)])
  | .createEvent k =>
      match cur with
      | none => some ({ c with code := update c.code none k }, [.body none])
      | some t =>
          some ({ c.pushFollower (.external c.nextEvent) (.post t) with
            code := update c.code (some t) k
            nextEvent := c.nextEvent + 1
            extTask := update c.extTask c.nextEvent t
            extStage := update c.extStage c.nextEvent .creating },
            [.makeEvent c.followers.length c.nextEvent t])

/-- One step of `TaskBuilder::submit`. -/
def transSubmit (c : Core V) (t : Nat) (cur : Option Nat) :
    SubmitPc → Option (Core V × List Frame)
  | .follower =>
      match cur with
      | none => none
      | some u =>
          if c.counter (.post t) = 0 then some (c, [.submit (.users (c.resourcesOf t)) t cur])
          else some (c.pushFollower (.post t) (.post u), [.submit (.count c.followers.length) t cur])
  | .count i =>
      match cur with
      | none => none
      | some u => some (c.count i (.post u), [.submit (.users (c.resourcesOf t)) t cur])
  | .users (r :: rs) => some (c.pushUser t r, [.submit (.users rs) t cur])
  | .users [] =>
      some ({ c.setStage t .emplaced with emplaced := c.emplaced ++ [t] }, [.submit .future t cur])
  | .future => some ({ c with handles := c.handles ++ [⟨t, .live⟩] }, [.body cur])

/-- One step of `init_dependencies`. -/
def transInit (c : Core V) (t : Nat) : InitPc → Option (Core V × List Frame)
  | .up => some ((c.up (.pre t)).setStage t .init, [.init (.resources (c.entries t)) t])
  | .resources [] =>
      let old := c.counter (.pre t)
      let c' := c.fetchSub (.pre t)
      if old = 2 then
        some ({ c'.setStage t .exec with handed := update c.handed t (c.handed t + 1) },
          c.notifyTail (.pre t) true ++ [.exec t])
      else some (c'.setStage t .blocked, c.notifyTail (.pre t) true)
  | .resources ((r, k) :: es) =>
      if c.locked r then none
      else some ({ c with locked := update c.locked r true }, [.init (.scan r k es) t])
  | .scan r 0 es => some (c, [.init (.unlock r es) t])
  | .scan r (k + 1) es =>
      match (c.users r)[k]? with
      | none => none
      | some ⟨_, true⟩ => some (c, [.init (.scan r k es) t])
      | some ⟨p, false⟩ =>
          match verdict c.info t p with
          | .stop => some (c, [.init (.unlock r es) t])
          | .skip => some (c, [.init (.scan r k es) t])
          | .depend => some (c, [.init (.check r k p es) t])
  | .check r k p es =>
      if c.counter (.post p) = 0 then some (c, [.init (.next r k p es) t])
      else some (c, [.init (.follow r k p es) t])
  | .follow r k p es =>
      if c.counter (.post p) = 0 then some (c, [.init (.next r k p es) t])
      else some (c, [.init (.push r k p es) t])
  | .push r k p es =>
      some (c.pushFollower (.post p) (.pre t), [.init (.count r k p es c.followers.length) t])
  | .count r k p es i => some (c.count i (.pre t), [.init (.next r k p es) t])
  | .next r k p es =>
      if (c.info p).user.hasSyncAccess r then some (c, [.init (.unlock r es) t])
      else some (c, [.init (.scan r k es) t])
  | .unlock r es =>
      some ({ c with locked := update c.locked r false }, [.init (.resources es) t])

/-- One step of `delete_from_resources`. -/
def transDelete (c : Core V) (t : Nat) : DeletePc → Option (Core V × List Frame)
  | .resources [] => some (c.setPhase (.post t) .drained, [.loop (.post t)])
  | .resources ((r, k) :: es) =>
      if c.locked r then none
      else some ({ c with locked := update c.locked r true }, [.delete (.remove r k es) t])
  | .remove r k es => some (c.removeUser r k, [.delete (.unlock r es) t])
  | .unlock r es =>
      some ({ c with locked := update c.locked r false }, [.delete (.resources es) t])

/-- One step after `waker_id` was read: at one unit left a pre-event activates
its task unless the caller claimed it; at zero a post-event leaves the user
lists before the followers are notified. -/
def transWaker (c : Core V) (e : EventPtr) (old : Nat) (claimed : Bool) : Core V × List Frame :=
  if old = 1 then
    match e with
    | .post t => (c, [.delete (.resources (c.entries t)) t])
    | e => (c.setPhase e .drained, [.loop e])
  else if old = 2 then
    match e with
    | .pre t => (c, if claimed then [] else [.activate t])
    | _ => (c, [])
  else (c, [])

/-- The end of `notify_followers`: post- and result-get-event count down to
the removal of the task. -/
def transLooped (c : Core V) : EventPtr → Core V × List Frame
  | .post t => (c.setPhase (.post t) .looped, [.removal (.post t) t])
  | .resultGet t => (c.setPhase (.resultGet t) .looped, [.removal (.resultGet t) t])
  | e => (c.setPhase e .gone, [])

/-- One step of a frame: the new shared state and the frames that replace it. -/
def trans (c : Core V) : Frame → Option (Core V × List Frame)
  | .body cur => c.transBody cur
  | .submit pc t cur => c.transSubmit t cur pc
  | .makeEvent i x t =>
      some ({ c.count i (.post t) with extStage := update c.extStage x .live }, [.body (some t)])
  | .init pc t => c.transInit t pc
  | .exec t =>
      some ((c.fetchSub (.pre t)).setStage t .run,
        c.notifyTail (.pre t) false ++ [.body (some t)])
  | .setResult t =>
      some ((c.fetchSub (.resultSet t)).setStage t .finish,
        c.notifyTail (.resultSet t) false ++ [.finish t])
  | .finish t =>
      some ((c.fetchSub (.post t)).setStage t .done,
        c.notifyTail (.post t) false)
  | .get h =>
      match c.handles[h]? with
      | none => none
      | some ⟨t, _⟩ =>
          if c.counter (.resultSet t) = 0 then
            some ({ c with handles := c.handles.set h ⟨t, .taken⟩ }, [.notifyGet t])
          else none
  | .notifyGet t =>
      some ({ c.fetchSub (.resultGet t) with getSpent := update c.getSpent t true },
        c.notifyTail (.resultGet t) false)
  | .waker e old claimed => some (c.transWaker e old claimed)
  | .activate t =>
      some ({ c with ready := c.ready ++ [t], handed := update c.handed t (c.handed t + 1) }, [])
  | .delete pc t => c.transDelete t pc
  | .loop e =>
      some (c.setPhase e (.looping (c.followersOf e)), [.followers e (c.followersOf e)])
  | .followers e [] => some (c.transLooped e)
  | .followers e (i :: todo) =>
      match c.followers[i]? with
      | none => none
      | some d =>
          some ({ (c.fetchSub d.dst).setPhase e (.looping todo) with
            followers := c.followers.set i { d with notified := d.notified + 1 } },
            c.notifyTail d.dst false ++ [.followers e todo])
  | .removal e t =>
      some ({ c.setPhase e .gone with
        removalCountdown := update c.removalCountdown t ((c.removalCountdown t + 255) % 256) },
        if c.removalCountdown t = 1 then [.free t] else [])
  | .free t => some (c.freeTask t, [])

end Core

/-! ### Calls from outside -/

/-- What a thread can start: a worker takes a task from a queue; user code
notifies an external event, or moves, destroys or reads a `Future`. -/
inductive Call
  | popEmplaced (t : Nat)
  | popReady (t : Nat)
  | fire (x : Nat)
  | moveFuture (h : Nat)
  | destroyFuture (h : Nat)
  | getFuture (h : Nat)

namespace Call

/-- Workers take tasks with an empty stack; the other calls are made by user
code, inside a body or on a thread without a task. -/
def allowed : Call → List Frame → Bool
  | _, [] => true
  | popEmplaced _, _ => false
  | popReady _, _ => false
  | _, .body _ :: _ => true
  | _, _ => false

end Call

namespace Core

variable {V : Type}

/-- The first step of a call. -/
def call (c : Core V) : Call → Option (Core V × List Frame)
  | .popEmplaced t =>
      if t ∈ c.emplaced then
        some ({ c.setStage t .popped with emplaced := c.emplaced.erase t }, [.init .up t])
      else none
  | .popReady t =>
      if t ∈ c.ready then
        some ({ c.setStage t .exec with ready := c.ready.erase t }, [.exec t])
      else none
  | .fire x =>
      if c.extStage x = .live then
        some ({ c.fetchSub (.external x) with extStage := update c.extStage x .fired },
          c.notifyTail (.external x) false)
      else none
  | .moveFuture h =>
      match c.handles[h]? with
      | some ⟨t, .live⟩ =>
          some ({ c with handles := c.handles.set h ⟨t, .taken⟩ ++ [⟨t, .live⟩] }, [])
      | some ⟨t, .taken⟩ => some ({ c with handles := c.handles ++ [⟨t, .taken⟩] }, [])
      | _ => none
  | .destroyFuture h =>
      match c.handles[h]? with
      | some ⟨t, .live⟩ =>
          some ({ c with handles := c.handles.set h ⟨t, .destroyed⟩ }, [.notifyGet t])
      | some ⟨t, .taken⟩ =>
          some ({ c with handles := c.handles.set h ⟨t, .destroyed⟩ }, [])
      | _ => none
  | .getFuture h =>
      match c.handles[h]? with
      | some ⟨t, .live⟩ =>
          some ({ c with handles := c.handles.set h ⟨t, .inGet⟩ }, [.get h])
      | _ => none

end Core

/-! ### The machine -/

/-- Shared state and the stacks of the threads. -/
structure State (Tid V : Type) where
  core : Core V
  threads : Tid → List Frame

inductive Action (Tid : Type)
  | run (i : Tid)
  | call (i : Tid) (a : Call)

variable {Tid V : Type} [DecidableEq Tid]

/-- One atomic step of one thread. -/
def step (s : State Tid V) : Action Tid → Option (State Tid V)
  | .run i =>
      match s.threads i with
      | [] => none
      | f :: rest =>
          (s.core.trans f).map fun p => ⟨p.1, update s.threads i (p.2 ++ rest)⟩
  | .call i a =>
      if a.allowed (s.threads i) then
        (s.core.call a).map fun p => ⟨p.1, update s.threads i (p.2 ++ s.threads i)⟩
      else none

/-- The start: the thread `main` is about to run the main program, all others
are idle. -/
def State.initial (main : Tid) (prog : Body V) (store : Resource → V) : State Tid V where
  core := Core.initial prog store
  threads := fun i => if i = main then [.body none] else []

/-- The event whose counter the next step of a frame increments. -/
def Frame.upsOn : Frame → Option EventPtr
  | .submit (.count _) _ (some u) => some (.post u)
  | .makeEvent _ _ t => some (.post t)
  | .init .up t => some (.pre t)
  | .init (.count _ _ _ _ _) t => some (.pre t)
  | _ => none

/-- The step does not take a counter past `2^16 - 1`. -/
def NoWrap (s : State Tid V) : Action Tid → Prop
  | .run i => ∀ f ∈ (s.threads i).head?, ∀ e ∈ f.upsOn, s.core.counter e + 1 < counterSize
  | .call _ _ => True

instance (s : State Tid V) : ∀ a : Action Tid, Decidable (NoWrap s a)
  | .run i => inferInstanceAs (Decidable
      (∀ f ∈ (s.threads i).head?, ∀ e ∈ f.upsOn, s.core.counter e + 1 < counterSize))
  | .call _ _ => inferInstanceAs (Decidable True)

end RedGrapes.Runtime
