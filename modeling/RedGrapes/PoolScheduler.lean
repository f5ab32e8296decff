/-
RedGrapes/PoolScheduler.lean

The workers of a `PoolScheduler` (`scheduler/pool_scheduler.tpp`,
`dispatch/thread/DefaultWorker.tpp`, `dispatch/thread/worker_pool.hpp`) and the calls that give
them tasks, one atomic step at a time.

A worker that finds no task blocks in `CondVar::wait` until its `should_wait` is false.
`dispatch_task` pushes a task to an emplacement queue and wakes the worker.  `activate_task`
looks for an available worker, pushes the task to its ready queue and wakes it; when it finds
none, it pushes the task to the ready queue of some worker and wakes nobody.

A wake-up is never lost: the flag stays false until the worker has seen it, and the worker
looks at its queues after that.  But in the last case the worker may have looked at its ready
queue already when the task is pushed, and block before the next time; it is marked available
then, so that no other worker looks at its queue.  When all workers are blocked the task is
stranded (`task_stranded`).

* `no_stranded_work`: this does not happen in the runs in which `activate_task` pushes a task
  without waking the worker only when the worker will look at its ready queue again before it
  blocks.

Queues are bags, given by the number of their tasks.  A worker may find that a task it has
initialised is ready or not, and a worker that runs a task, or another thread, may begin a call
at any time.

A search goes through parts of the words of `worker_state`, as `probe_by_value` does: each round
reads the word again and takes the first bit of the part that fits and was not tried yet, so that
it may go back to a worker that did not fit before.  Which parts these are, and in which order,
is a parameter; see `Bitfield`.
-/
import RedGrapes.Lib.Machine

namespace RedGrapes.PoolScheduler

open Function Machine

/-! ### The machine -/

/-- The two queues of a worker. -/
inductive Kind
  | ready
  | emplaced
deriving DecidableEq

/-- Places of a worker in `work_loop`: setting the state `AVAILABLE`, `CondVar::wait` with its
final store, then `gather_task`: the pops of its own queues, the initialisation of a task
(whether `stolen` or not), setting the state `AVAILABLE`, the search of `steal_ready_task` and
`steal_new_task` through the workers of the parts `todo` with the pops of the victim's queue and
of its own; setting the state `BUSY`, and running a task. -/
inductive Place (W : Type)
  | top
  | wait
  | reset
  | popReady
  | popNew
  | init (stolen : Bool)
  | offer
  | probe (q : Kind) (todo : List (List W))
  | popVictim (q : Kind) (v : W) (todo : List (List W))
  | popOwn (q : Kind) (todo : List (List W))
  | claim
  | run
deriving DecidableEq

/-- Places of a thread in a scheduler call: the push of `dispatch_task`; in `activate_task` the
search of `find_free_worker` through the workers of the parts `todo`, the attempt to set the state
of a worker that was available, the push to the worker found, the push to the worker `next` when
none is found; and `wake`. -/
inductive Call (W : Type)
  | idle
  | dispatch (w : W)
  | find (todo : List (List W)) (next : W)
  | claim (v : W) (todo : List (List W)) (next : W)
  | give (w : W)
  | leave (w : W)
  | wake (w : W)
deriving DecidableEq

/-- The shared state, the workers, and the calls in progress: those of workers and those of
other threads. -/
structure Pool (W Tid : Type) where
  /-- The bits of `worker_state`. -/
  available : W → Bool
  queue : Kind → W → Nat
  shouldWait : W → Bool
  places : W → Place W
  calls : W ⊕ Tid → Call W

/-- A thread begins a call of `emplace_task`, `activate_task` or `wake`, or makes a step of it; a
worker makes a step; the task a worker has initialised is found to be ready or not. -/
inductive Action (W Tid : Type)
  | emplace (c : W ⊕ Tid) (w : W)
  | activate (c : W ⊕ Tid) (start next : W)
  | wake (c : W ⊕ Tid) (w : W)
  | call (c : W ⊕ Tid)
  | work (w : W)
  | initialised (w : W) (isReady : Bool)

namespace Pool

variable {W Tid : Type}

/-- No bit of a new bitfield is set. -/
def initial : Pool W Tid where
  available := fun _ => false
  queue := fun _ _ => 0
  shouldWait := fun _ => true
  places := fun _ => .top
  calls := fun _ => .idle

/-- A worker calls the scheduler while it runs a task. -/
def mayCall (s : Pool W Tid) : W ⊕ Tid → Prop
  | .inl w => s.places w = .run
  | .inr _ => True

variable [DecidableEq W] [DecidableEq Tid]

def goto (s : Pool W Tid) (w : W) (p : Place W) : Pool W Tid :=
  { s with places := update s.places w p }

def callGoto (s : Pool W Tid) (c : W ⊕ Tid) (p : Call W) : Pool W Tid :=
  { s with calls := update s.calls c p }

def push (s : Pool W Tid) (q : Kind) (w : W) : Pool W Tid :=
  { s with queue := update s.queue q (update (s.queue q) w (s.queue q w + 1)) }

def pop (s : Pool W Tid) (q : Kind) (w : W) : Pool W Tid :=
  { s with queue := update s.queue q (update (s.queue q) w (s.queue q w - 1)) }

def setAvailable (s : Pool W Tid) (w : W) (b : Bool) : Pool W Tid :=
  { s with available := update s.available w b }

def setShouldWait (s : Pool W Tid) (w : W) (b : Bool) : Pool W Tid :=
  { s with shouldWait := update s.shouldWait w b }

/-- Where a thief goes on with a task from a queue of that kind. -/
def found : Kind → Place W
  | .ready => .claim
  | .emplaced => .init true

/-- One step of a worker. -/
def stepWorker (order : W → List (List W)) (s : Pool W Tid) (w : W) : Option (Pool W Tid) :=
  match s.places w with
  | .top => some ((s.setAvailable w true).goto w .wait)
  | .wait => if s.shouldWait w then none else some (s.goto w .reset)
  | .reset => some ((s.setShouldWait w true).goto w .popReady)
  | .popReady =>
      if 0 < s.queue .ready w then some ((s.pop .ready w).goto w .claim)
      else some (s.goto w .popNew)
  | .popNew =>
      if 0 < s.queue .emplaced w then some ((s.pop .emplaced w).goto w (.init false))
      else some (s.goto w .offer)
  | .init _ => none
  | .offer => some ((s.setAvailable w true).goto w (.probe .ready (order w)))
  | .probe .ready [] => some (s.goto w (.probe .emplaced (order w)))
  | .probe .emplaced [] => some (s.goto w .top)
  | .probe q (part :: todo) =>
      match part.find? fun v => !s.available v with
      | none => some (s.goto w (.probe q todo))
      | some v => some (s.goto w (.popVictim q v (part.erase v :: todo)))
  | .popVictim q v todo =>
      if 0 < s.queue q v then some ((s.pop q v).goto w (found q))
      else some (s.goto w (.popOwn q todo))
  | .popOwn q todo =>
      if 0 < s.queue q w then some ((s.pop q w).goto w (found q))
      else some (s.goto w (.probe q todo))
  | .claim => some ((s.setAvailable w false).goto w .run)
  | .run => if s.calls (.inl w) = .idle then some (s.goto w .popReady) else none

/-- One step of a call.  The attempt is one `fetch_and`, whose answer is the old state. -/
def stepCall (s : Pool W Tid) (c : W ⊕ Tid) : Option (Pool W Tid) :=
  match s.calls c with
  | .idle => none
  | .dispatch w => some ((s.push .emplaced w).callGoto c (.wake w))
  | .find [] next => some (s.callGoto c (.leave next))
  | .find (part :: todo) next =>
      match part.find? s.available with
      | none => some (s.callGoto c (.find todo next))
      | some v => some (s.callGoto c (.claim v (part.erase v :: todo) next))
  | .claim v todo next =>
      if s.available v then some ((s.setAvailable v false).callGoto c (.give v))
      else some (s.callGoto c (.find todo next))
  | .give w => some ((s.push .ready w).callGoto c (.wake w))
  | .leave w => some ((s.push .ready w).callGoto c .idle)
  | .wake w => some ((s.setShouldWait w false).callGoto c .idle)

instance (s : Pool W Tid) : ∀ c, Decidable (s.mayCall c)
  | .inl w => inferInstanceAs (Decidable (s.places w = .run))
  | .inr _ => isTrue trivial

/-- A thread begins a call. -/
def begin (s : Pool W Tid) (c : W ⊕ Tid) (p : Call W) : Option (Pool W Tid) :=
  if s.calls c = .idle ∧ s.mayCall c then some (s.callGoto c p) else none

/-- The machine; `order w` are the parts of the words through which a search from `w` goes, each
with its workers in the order of their bits. -/
def step (order : W → List (List W)) (s : Pool W Tid) : Action W Tid → Option (Pool W Tid)
  | .emplace c w => s.begin c (.dispatch w)
  | .activate c start next => s.begin c (.find (order start) next)
  | .wake c w => s.begin c (.wake w)
  | .call c => s.stepCall c
  | .work w => s.stepWorker order w
  | .initialised w isReady =>
      match s.places w with
      | .init stolen => some (s.goto w (if isReady then .claim else if stolen then .top else .popNew))
      | _ => none

/-! ### Searches -/

section

variable {s s' : Pool W Tid}

omit [DecidableEq Tid] in
/-- The next round of a search for a victim. -/
theorem stepWorker_probe {order : W → List (List W)} {w : W} {q : Kind} {todo : List (List W)}
    (hp : s.places w = .probe q todo) (hs : s.stepWorker order w = some s') :
    ∃ p, s' = s.goto w p := by
  cases todo with
  | nil =>
      cases q with
      | ready =>
          simp only [stepWorker, hp] at hs
          cases hs
          exact ⟨_, rfl⟩
      | emplaced =>
          simp only [stepWorker, hp] at hs
          cases hs
          exact ⟨_, rfl⟩
  | cons part todo =>
      cases hv : part.find? fun v => !s.available v with
      | none =>
          simp only [stepWorker, hp, hv] at hs
          cases hs
          exact ⟨_, rfl⟩
      | some v =>
          simp only [stepWorker, hp, hv] at hs
          cases hs
          exact ⟨_, rfl⟩

/-- The next round of a search for a free worker. -/
theorem stepCall_find {c : W ⊕ Tid} {todo : List (List W)} {next : W}
    (hc : s.calls c = .find todo next) (hs : s.stepCall c = some s') :
    ∃ p, s' = s.callGoto c p := by
  cases todo with
  | nil =>
      simp only [stepCall, hc] at hs
      cases hs
      exact ⟨_, rfl⟩
  | cons part todo =>
      cases hv : part.find? s.available with
      | none =>
          simp only [stepCall, hc, hv] at hs
          cases hs
          exact ⟨_, rfl⟩
      | some v =>
          simp only [stepCall, hc, hv] at hs
          cases hs
          exact ⟨_, rfl⟩

/-- Where a worker goes on after it has initialised a task. -/
theorem step_initialised {order : W → List (List W)} {w : W} {isReady : Bool}
    (hs : s.step order (.initialised w isReady) = some s') :
    ∃ stolen, s.places w = .init stolen ∧
      s' = s.goto w (if isReady then .claim else if stolen then .top else .popNew) := by
  unfold step at hs
  cases hp : s.places w with
  | init stolen =>
      simp only [hp, Option.some.injEq] at hs
      exact ⟨stolen, rfl, hs.symm⟩
  | _ => simp [hp] at hs

end

/-! ### Stranded work -/

/-- All workers are blocked, nobody is in a call, and a queue is not empty. -/
def Stranded (s : Pool W Tid) : Prop :=
  (∀ w, s.places w = .wait ∧ s.shouldWait w = true) ∧ (∀ c, s.calls c = .idle) ∧
    ∃ q w, 0 < s.queue q w

/-- Places from which a worker looks at its queue before it blocks. -/
def looks : Kind → Place W → Bool
  | _, .reset => true
  | _, .popReady => true
  | _, .claim => true
  | _, .run => true
  | .emplaced, .popNew => true
  | .emplaced, .init false => true
  | _, _ => false

/-- The worker will look at its ready queue before it blocks. -/
def LooksAgain (s : Pool W Tid) (w : W) : Prop :=
  s.shouldWait w = false ∨ looks .ready (s.places w) = true

/-- The condition on the steps: a task is pushed without a wake-up only to a worker that will
look at its ready queue before it blocks. -/
def Careful (s : Pool W Tid) : Action W Tid → Prop
  | .call c => ∀ w, s.calls c = .leave w → s.LooksAgain w
  | _ => True

instance [Fintype W] : ∀ (s : Pool W Tid) (a : Action W Tid), Decidable (s.Careful a)
  | s, .call c => inferInstanceAs (Decidable (∀ w, s.calls c = .leave w →
      s.shouldWait w = false ∨ looks .ready (s.places w) = true))
  | _, .emplace _ _ => isTrue trivial
  | _, .activate _ _ _ => isTrue trivial
  | _, .wake _ _ => isTrue trivial
  | _, .work _ => isTrue trivial
  | _, .initialised _ _ => isTrue trivial

/-! ### The invariant -/

omit [DecidableEq W] [DecidableEq Tid] in
/-- Whoever has a task in a queue is awake or being woken. -/
def Attended (s : Pool W Tid) : Prop :=
  ∀ q w, 0 < s.queue q w →
    s.shouldWait w = false ∨ (∃ c, s.calls c = .wake w) ∨ looks q (s.places w) = true

namespace Attended

variable {s s' : Pool W Tid}

omit [DecidableEq Tid] in
/-- A step of a worker that adds no task: it may stop looking only at an empty queue. -/
theorem goWorker (h : Attended s) {w : W} {p : Place W}
    (hqueue : ∀ q v, s'.queue q v ≤ s.queue q v) (hwait : s'.shouldWait = s.shouldWait)
    (hcalls : s'.calls = s.calls) (hplaces : s'.places = update s.places w p)
    (hlooks : ∀ q, looks q (s.places w) = true → 0 < s'.queue q w → looks q p = true) :
    Attended s' := by
  intro q v hv
  rw [hwait, hcalls, hplaces]
  rcases h q v (hv.trans_le (hqueue q v)) with hw | hc | hl
  · exact Or.inl hw
  · exact Or.inr (Or.inl hc)
  · right; right
    rw [update_apply]
    split_ifs with hvw
    · subst hvw
      exact hlooks q hl hv
    · exact hl

omit [DecidableEq Tid] in
/-- A step of a worker that would not look at its queues anyway. -/
theorem goBlind (h : Attended s) {w : W} {p : Place W}
    (hqueue : ∀ q v, s'.queue q v ≤ s.queue q v) (hwait : s'.shouldWait = s.shouldWait)
    (hcalls : s'.calls = s.calls) (hplaces : s'.places = update s.places w p)
    (hblind : ∀ q, looks q (s.places w) = false) : Attended s' := by
  refine h.goWorker hqueue hwait hcalls hplaces fun q hq => ?_
  rw [hblind q] at hq
  cases hq

/-- A step of a call: a task it adds is attended to, and a wake-up is delivered. -/
theorem goCall (h : Attended s) {c : W ⊕ Tid} {p : Call W} (hplaces : s'.places = s.places)
    (hcalls : s'.calls = update s.calls c p)
    (hwait : ∀ w, s.shouldWait w = false → s'.shouldWait w = false)
    (hwake : ∀ w, s.calls c = .wake w → s'.shouldWait w = false)
    (hnew : ∀ q w, s.queue q w < s'.queue q w →
      p = .wake w ∨ s.shouldWait w = false ∨ looks q (s.places w) = true) : Attended s' := by
  intro q w hw
  rw [hcalls, hplaces]
  by_cases hadd : s.queue q w < s'.queue q w
  · rcases hnew q w hadd with rfl | hs | hl
    · exact Or.inr (Or.inl ⟨c, update_self _ _ _⟩)
    · exact Or.inl (hwait w hs)
    · exact Or.inr (Or.inr hl)
  · rcases h q w (hw.trans_le (not_lt.mp hadd)) with hs | ⟨c', hc'⟩ | hl
    · exact Or.inl (hwait w hs)
    · by_cases hcc : c' = c
      · exact Or.inl (hwake w (hcc ▸ hc'))
      · exact Or.inr (Or.inl ⟨c', (update_of_ne hcc _ _).trans hc'⟩)
    · exact Or.inr (Or.inr hl)

omit [DecidableEq Tid] in
theorem pop_le (s : Pool W Tid) (q : Kind) (w : W) (q' : Kind) (v : W) :
    (s.pop q w).queue q' v ≤ s.queue q' v := by
  show update s.queue q (update (s.queue q) w (s.queue q w - 1)) q' v ≤ _
  by_cases hq : q' = q
  · subst hq
    rw [update_self, update_apply]
    split_ifs with hv
    · rw [hv]
      exact Nat.sub_le _ _
    · exact le_rfl
  · rw [update_of_ne hq]

omit [DecidableEq Tid] in
/-- Only the queue pushed to grows. -/
theorem eq_of_push {q : Kind} {w : W} {q' : Kind} {v : W}
    (h : s.queue q' v < (s.push q w).queue q' v) : q' = q ∧ v = w := by
  change s.queue q' v < update s.queue q (update (s.queue q) w (s.queue q w + 1)) q' v at h
  by_cases hq : q' = q
  · subst hq
    rw [update_self, update_apply] at h
    split_ifs at h with hv
    · exact ⟨rfl, hv⟩
    · exact absurd h (lt_irrefl _)
  · rw [update_of_ne hq] at h
    exact absurd h (lt_irrefl _)

omit [DecidableEq Tid] in
/-- The worker ends `CondVar::wait`. -/
theorem reset (h : Attended s) (w : W) :
    Attended ((s.setShouldWait w true).goto w .popReady) := by
  intro q v hv
  show update s.shouldWait w true v = false ∨ (∃ c, s.calls c = .wake v) ∨
    looks q (update s.places w .popReady v) = true
  by_cases hvw : v = w
  · right; right
    rw [hvw, update_self]
    cases q <;> rfl
  · rw [update_of_ne hvw, update_of_ne hvw]
    exact h q v hv

omit [DecidableEq Tid] in
/-- A step of a worker. -/
theorem stepWorker {order : W → List (List W)} {w : W} (h : Attended s)
    (hs : s.stepWorker order w = some s') : Attended s' := by
  have hsame : ∀ q v, s.queue q v ≤ s.queue q v := fun q v => le_rfl
  cases hp : s.places w with
  | top =>
      simp only [Pool.stepWorker, hp] at hs
      cases hs
      exact h.goBlind hsame rfl rfl rfl fun q => by rw [hp]; cases q <;> rfl
  | wait =>
      simp only [Pool.stepWorker, hp] at hs
      split_ifs at hs
      cases hs
      exact h.goBlind hsame rfl rfl rfl fun q => by rw [hp]; cases q <;> rfl
  | reset =>
      simp only [Pool.stepWorker, hp] at hs
      cases hs
      exact h.reset w
  | popReady =>
      simp only [Pool.stepWorker, hp] at hs
      split_ifs at hs with h0
      · cases hs
        exact h.goWorker (pop_le s _ _) rfl rfl rfl fun q _ _ => by cases q <;> rfl
      · cases hs
        -- the ready queue is empty, and there is nothing in it to attend to
        refine h.goWorker hsame rfl rfl rfl fun q _ hq => ?_
        cases q with
        | ready => exact absurd hq h0
        | emplaced => rfl
  | popNew =>
      simp only [Pool.stepWorker, hp] at hs
      split_ifs at hs with h0
      · cases hs
        refine h.goWorker (pop_le s _ _) rfl rfl rfl fun q hl _ => ?_
        cases q with
        | ready => rw [hp] at hl; cases hl
        | emplaced => rfl
      · cases hs
        refine h.goWorker hsame rfl rfl rfl fun q hl hq => ?_
        cases q with
        | ready => rw [hp] at hl; cases hl
        | emplaced => exact absurd hq h0
  | init stolen =>
      simp only [Pool.stepWorker, hp] at hs
      cases hs
  | offer =>
      simp only [Pool.stepWorker, hp] at hs
      cases hs
      exact h.goBlind hsame rfl rfl rfl fun q => by rw [hp]; cases q <;> rfl
  | probe q todo =>
      -- a search only reads the states of the workers
      have hblind : ∀ q', looks q' (s.places w) = false := fun q' => by rw [hp]; cases q' <;> rfl
      obtain ⟨p, rfl⟩ := stepWorker_probe hp hs
      exact h.goBlind hsame rfl rfl rfl hblind
  | popVictim q v todo =>
      have hblind : ∀ q', looks q' (s.places w) = false := fun q' => by rw [hp]; cases q' <;> rfl
      simp only [Pool.stepWorker, hp] at hs
      split_ifs at hs
      · cases hs
        exact h.goBlind (pop_le s _ _) rfl rfl rfl hblind
      · cases hs
        exact h.goBlind hsame rfl rfl rfl hblind
  | popOwn q todo =>
      have hblind : ∀ q', looks q' (s.places w) = false := fun q' => by rw [hp]; cases q' <;> rfl
      simp only [Pool.stepWorker, hp] at hs
      split_ifs at hs
      · cases hs
        exact h.goBlind (pop_le s _ _) rfl rfl rfl hblind
      · cases hs
        exact h.goBlind hsame rfl rfl rfl hblind
  | claim =>
      simp only [Pool.stepWorker, hp] at hs
      cases hs
      exact h.goWorker hsame rfl rfl rfl fun q _ _ => by cases q <;> rfl
  | run =>
      simp only [Pool.stepWorker, hp] at hs
      split_ifs at hs
      cases hs
      exact h.goWorker hsame rfl rfl rfl fun q _ _ => by cases q <;> rfl

/-- A step of a call. -/
theorem stepCall {c : W ⊕ Tid} (h : Attended s) (hok : s.Careful (.call c))
    (hs : s.stepCall c = some s') : Attended s' := by
  have hsame : ∀ q w, ¬ s.queue q w < s.queue q w := fun q w => lt_irrefl _
  cases hc : s.calls c with
  | idle =>
      simp only [Pool.stepCall, hc] at hs
      cases hs
  | dispatch w =>
      simp only [Pool.stepCall, hc] at hs
      cases hs
      refine h.goCall rfl rfl (fun _ => id) (fun v hv => by rw [hc] at hv; cases hv) ?_
      intro q v hv
      obtain ⟨-, rfl⟩ := eq_of_push hv
      exact Or.inl rfl
  | find todo next =>
      obtain ⟨p, rfl⟩ := stepCall_find hc hs
      exact h.goCall rfl rfl (fun _ => id) (fun v hv => by rw [hc] at hv; cases hv)
        fun q v hv => absurd hv (hsame q v)
  | claim v todo next =>
      simp only [Pool.stepCall, hc] at hs
      split_ifs at hs
      · cases hs
        exact h.goCall rfl rfl (fun _ => id) (fun v hv => by rw [hc] at hv; cases hv)
          fun q v hv => absurd hv (hsame q v)
      · cases hs
        exact h.goCall rfl rfl (fun _ => id) (fun v hv => by rw [hc] at hv; cases hv)
          fun q v hv => absurd hv (hsame q v)
  | give w =>
      simp only [Pool.stepCall, hc] at hs
      cases hs
      refine h.goCall rfl rfl (fun _ => id) (fun v hv => by rw [hc] at hv; cases hv) ?_
      intro q v hv
      obtain ⟨-, rfl⟩ := eq_of_push hv
      exact Or.inl rfl
  | leave w =>
      -- the worker is not woken, but it will look at the queue
      simp only [Pool.stepCall, hc] at hs
      cases hs
      refine h.goCall rfl rfl (fun _ => id) (fun v hv => by rw [hc] at hv; cases hv) ?_
      intro q v hv
      obtain ⟨rfl, rfl⟩ := eq_of_push hv
      exact Or.inr (hok v hc)
  | wake w =>
      simp only [Pool.stepCall, hc] at hs
      cases hs
      refine h.goCall rfl rfl ?_ ?_ fun q v hv => absurd hv (hsame q v)
      · intro v hv
        show update s.shouldWait w false v = false
        rw [update_apply]
        split_ifs
        · rfl
        · exact hv
      · intro v hv
        rw [hc] at hv
        cases hv
        exact update_self _ _ _

theorem begin {c : W ⊕ Tid} {p : Call W} (h : Attended s) (hs : s.begin c p = some s') :
    Attended s' := by
  unfold Pool.begin at hs
  split at hs
  · next hc =>
      cases hs
      refine h.goCall rfl rfl (fun _ => id) (fun v hv => ?_) fun q v hv => absurd hv (lt_irrefl _)
      rw [hc.1] at hv
      cases hv
  · cases hs

theorem step {order : W → List (List W)} {a : Action W Tid} (h : Attended s) (hok : s.Careful a)
    (hs : s.step order a = some s') : Attended s' := by
  cases a with
  | emplace c w | activate c start next | wake c w => exact h.begin hs
  | call c => exact h.stepCall hok hs
  | work w => exact h.stepWorker hs
  | initialised w isReady =>
      obtain ⟨stolen, hp, rfl⟩ := step_initialised hs
      refine h.goWorker (fun q v => le_rfl) rfl rfl rfl fun q hq _ => ?_
      rw [hp] at hq
      -- only a worker that did not steal the task looks at a queue again
      cases q with
      | ready => cases stolen <;> cases hq
      | emplaced =>
          cases stolen with
          | true => cases hq
          | false => cases isReady <;> rfl

end Attended

/-- **No stranded work.**  In every run in which `activate_task` pushes a task without waking
the worker only when the worker will look at its ready queue before it blocks, there is no
state in which all workers are blocked, no call is in progress and a queue is not empty. -/
theorem no_stranded_work {order : W → List (List W)} {s : Pool W Tid}
    (hs : Reaches (step order) Careful initial s) : ¬ s.Stranded := by
  have h₀ : Attended (initial : Pool W Tid) := fun q w hw => absurd hw (lt_irrefl _)
  have h : Attended s := hs.invariant h₀ fun _ _ _ hi hok hstep => hi.step hok hstep
  rintro ⟨hworkers, hcalls, q, w, hw⟩
  obtain ⟨hplace, hwait⟩ := hworkers w
  rcases h q w hw with hs | ⟨c, hc⟩ | hl
  · rw [hwait] at hs
    cases hs
  · rw [hcalls c] at hc
    cases hc
  · rw [hplace] at hl
    cases q <;> cases hl

/-! ### Two workers -/

/-- The parts of a word of two bits in the order of `probe_by_value`: the bits before the start,
then the others. -/
def twoParts (start : Fin 2) : List (List (Fin 2)) :=
  [(List.finRange 2).filter (· < start), (List.finRange 2).filter (start ≤ ·)]

/-- The workers `w` and `v` get a task each from the thread `i`. -/
def twoTasks (i : Fin 1) (w v : Fin 2) : List (Action (Fin 2) (Fin 1)) :=
  [.emplace (.inr i) w, .call (.inr i), .call (.inr i), .emplace (.inr i) v, .call (.inr i),
    .call (.inr i)]

/-- The worker `w` initialises its task and runs it. -/
def startRun (w : Fin 2) : List (Action (Fin 2) (Fin 1)) :=
  List.flatten [.replicate 5 (.work w), [.initialised w true, .work w]]

/-- The task of the worker `w` activates another task; both workers are busy. -/
def activateBusy (i : Fin 1) (w v : Fin 2) : List (Action (Fin 2) (Fin 1)) :=
  List.flatten [twoTasks i w v, startRun w, startRun v,
    .activate (.inl w) w v :: .replicate 3 (.call (.inl w))]

/-- Worker 1 still runs its task when the new one is pushed to its queue. -/
theorem no_stranded_work_running :
    ∃ s : Pool (Fin 2) (Fin 1),
      Reaches (step twoParts) Careful initial s ∧ s.queue .ready 1 = 1 ∧ ¬ s.Stranded := by
  have hrun : ((exec (step twoParts) Careful
      (List.flatten [activateBusy 0 0 1, [.call (.inl 0)]])
        (initial : Pool (Fin 2) (Fin 1))).map fun s => s.queue .ready 1) = some 1 := by
    decide +kernel
  obtain ⟨s, hs, h⟩ := Option.map_eq_some_iff.mp hrun
  have hreach : Reaches (step twoParts) Careful initial s := Reaches.refl.of_exec hs
  exact ⟨s, hreach, h, no_stranded_work hreach⟩

/-- Worker 1 blocks before the push, and nobody wakes it. -/
theorem task_stranded :
    ¬ ∀ (n : Nat) (order : Fin n → List (List (Fin n))) (s : Pool (Fin n) (Fin 1)),
      Reaches (step order) (fun _ _ => True) initial s → ¬ s.Stranded := by
  intro hclaim
  have hrun : ((exec (step twoParts) (fun _ _ => True)
      (List.flatten [activateBusy 0 0 1, .replicate 17 (.work 1), [.call (.inl 0)],
        .replicate 11 (.work 0)])
        (initial : Pool (Fin 2) (Fin 1))).map fun s =>
          (decide (∀ w, s.places w = .wait ∧ s.shouldWait w = true),
            decide (∀ c, s.calls c = .idle), s.queue .ready 1)) = some (true, true, 1) := by
    decide +kernel
  obtain ⟨s, hs, h⟩ := Option.map_eq_some_iff.mp hrun
  simp only [Prod.mk.injEq, decide_eq_true_eq] at h
  obtain ⟨hworkers, hcalls, hqueue⟩ := h
  refine hclaim 2 _ s (Reaches.refl.of_exec hs) ⟨hworkers, hcalls, .ready, 1, ?_⟩
  rw [hqueue]
  exact Nat.zero_lt_one

end Pool

end RedGrapes.PoolScheduler
