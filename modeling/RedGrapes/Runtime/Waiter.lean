/-
RedGrapes/Runtime/Waiter.lean

A thread without a current task waits for an event: `yield_impl` (`globalSpace.hpp`) with
`TaskFreeCtx::idle` and `CondVar::wait` (`sync/cv.hpp`), against the threads that call
`EventPtr::notify`.

The waiter stores `parserID` into the `waker_id` of the event and sleeps while the event is not
reached.  `notify` reads `waker_id` after its `fetch_sub`, so it reads `parserID` unless the
event was reached before the waiter looked at it.  But it then calls
`TaskFreeCtx::cv.notify` for result-set-events only, and a task that pauses on the same
event overwrites `waker_id`:

* `waiter_woken` — a waiter for a result-set-event on which no task pauses meanwhile is
  never left asleep;
* `waiter_left_asleep` — a waiter for an external event is;
* `waiter_overwritten` — a waiter for a result-set-event on which a task pauses is.
-/
import RedGrapes.Lib.Machine
import RedGrapes.Runtime.Cascade

namespace RedGrapes.Runtime

open Function Machine

/-! ### The machine -/

/-- Events a thread can wait for. -/
inductive EventKind
  | resultSet
  | post
  | external
deriving DecidableEq

/-- Places of the waiter.  `store` and `check` are in `yield_impl`, `outer` to `reset` in
`CondVar::wait`: the two loads of `should_wait`, taking the mutex, the predicate with the
mutex held, asleep in the condition variable, giving the mutex back, and the final store. -/
inductive WaitPc
  | store
  | check
  | outer
  | inner
  | lock
  | pred
  | asleep
  | unlock
  | reset
  | done
deriving DecidableEq

/-- Places of a thread in `notify` on the event, after its `fetch_sub` returned `old`:
reading `waker_id`, `scheduler_p->wake(id)`, then in `CondVar::notify` the exchange of
`should_wait`, taking the mutex and `notify_all`; `rest` is `notify_followers` and what comes
after it. -/
inductive NotifyPc
  | idle
  | waker (old : Nat)
  | wake (old : Nat) (id : Int)
  | exchange
  | lock
  | notifyAll
  | rest
deriving DecidableEq

/-- The event, `TaskFreeCtx::cv`, and the threads.  `baseId` and `nWorkers` are the fields
`m_base_id` and `n_workers` of the scheduler, `woken` the workers it has woken. -/
structure Waiting (Tid : Type) where
  kind : EventKind
  counter : Nat
  wakerId : Int
  shouldWait : Bool
  /-- Who holds the mutex: the waiter or a notifying thread. -/
  mutex : Option (Option Tid)
  waiter : WaitPc
  notifiers : Tid → NotifyPc
  baseId : Int
  nWorkers : Int
  woken : List Int

/-- What can happen: a step of the waiter, a spurious wake-up, the start of `notify` on the
event, a step of a notifying thread, a call of `TaskFreeCtx::cv.notify` from elsewhere (`free_task`
of the last root task, another result-set-event), a new edge to the event, and a task that
pauses on the event on worker `id`. -/
inductive WaitAction (Tid : Type)
  | wait
  | spurious
  | notify (i : Tid)
  | run (i : Tid)
  | notifyParser (i : Tid)
  | addEdge
  | pause (id : Nat)

namespace Waiting

variable {Tid : Type} [DecidableEq Tid]

/-- One step of the waiter; `TaskFreeCtx::cv` has timeout zero. -/
def stepWaiter (s : Waiting Tid) : Option (Waiting Tid) :=
  match s.waiter with
  | .store => some { s with wakerId := parserID, waiter := .check }
  | .check => some { s with waiter := if s.counter = 0 then .done else .outer }
  | .outer => some { s with waiter := if s.shouldWait then .inner else .reset }
  | .inner => some { s with waiter := if s.shouldWait then .lock else .outer }
  | .lock =>
      if s.mutex = none then some { s with mutex := some none, waiter := .pred } else none
  | .pred =>
      if s.shouldWait then some { s with mutex := none, waiter := .asleep }
      else some { s with waiter := .unlock }
  | .asleep => none
  | .unlock => some { s with mutex := none, waiter := .outer }
  | .reset => some { s with shouldWait := true, waiter := .check }
  | .done => none

/-- `PoolScheduler::wake`: the worker with that id, if there is one. -/
def wake (s : Waiting Tid) (id : Int) : Waiting Tid :=
  let localId := id - s.baseId
  if 0 < localId ∧ localId ≤ s.nWorkers then { s with woken := localId :: s.woken } else s

/-- Where `notify` goes on after waking. -/
def afterWake (s : Waiting Tid) (old : Nat) (id : Int) : NotifyPc :=
  if old = 1 then
    if s.kind = .resultSet ∧ id = parserID then .exchange else .rest
  else .idle

def setNotifier (s : Waiting Tid) (i : Tid) (pc : NotifyPc) : Waiting Tid :=
  { s with notifiers := update s.notifiers i pc }

/-- One step of a notifying thread. -/
def stepNotifier (s : Waiting Tid) (i : Tid) : Option (Waiting Tid) :=
  match s.notifiers i with
  | .idle => none
  | .waker old => some (s.setNotifier i (.wake old s.wakerId))
  | .wake old id =>
      some ((if 0 ≤ id then s.wake id else s).setNotifier i (s.afterWake old id))
  | .exchange =>
      if s.shouldWait then some ({ s with shouldWait := false }.setNotifier i .lock)
      else some (s.setNotifier i .rest)
  | .lock =>
      if s.mutex = none then some ({ s with mutex := some (some i) }.setNotifier i .notifyAll)
      else none
  | .notifyAll =>
      some ({ s with
        mutex := none
        waiter := if s.waiter = WaitPc.asleep then .lock else s.waiter }.setNotifier i .rest)
  | .rest => some (s.setNotifier i .idle)

/-- One step.  A thread calls `notify` once for every unit of the event.  Edges are added to
post-events only. -/
def step (s : Waiting Tid) : WaitAction Tid → Option (Waiting Tid)
  | .wait => s.stepWaiter
  | .spurious => if s.waiter = .asleep then some { s with waiter := .lock } else none
  | .notify i =>
      if s.notifiers i = .idle ∧ 0 < s.counter then
        some ({ s with counter := s.counter - 1 }.setNotifier i
          (if 2 < s.counter then .idle else .waker s.counter))
      else none
  | .run i => s.stepNotifier i
  | .notifyParser i =>
      if s.notifiers i = .idle then some (s.setNotifier i .exchange) else none
  | .addEdge =>
      if s.kind = .post ∧ 0 < s.counter then
        some { s with counter := (s.counter + 1) % counterSize }
      else none
  | .pause id => some { s with wakerId := id }

/-- Before `yield_impl`: an event with some units, and `should_wait` as it was left. -/
def initial (kind : EventKind) (units : Nat) (shouldWait : Bool) (baseId nWorkers : Int) :
    Waiting Tid where
  kind := kind
  counter := units
  wakerId := -1
  shouldWait := shouldWait
  mutex := none
  waiter := .store
  notifiers := fun _ => .idle
  baseId := baseId
  nWorkers := nWorkers
  woken := []

end Waiting

/-- Inside the loop of `CondVar::wait`. -/
def WaitPc.waits : WaitPc → Bool
  | .outer | .inner | .lock | .pred | .asleep | .unlock => true
  | _ => false

/-- `parserID` is stored, and `yield_impl` has not returned. -/
def WaitPc.stored : WaitPc → Bool
  | .store | .done => false
  | _ => true

namespace Waiting

variable {Tid : Type} [DecidableEq Tid]

/-- The waiter is in `CondVar::wait` with `should_wait` set, although the event is reached and
nobody is in `notify`. -/
def LeftAsleep (s : Waiting Tid) : Prop :=
  s.waiter.waits = true ∧ s.shouldWait = true ∧ s.counter = 0 ∧ ∀ i, s.notifiers i = .idle

/-- No task pauses on the event while the waiter waits for it. -/
def Undisturbed (s : Waiting Tid) : WaitAction Tid → Prop
  | .pause _ => s.waiter.stored = false
  | _ => True

instance (s : Waiting Tid) : ∀ a : WaitAction Tid, Decidable (s.Undisturbed a)
  | .pause _ => inferInstanceAs (Decidable (s.waiter.stored = false))
  | .wait | .spurious | .notify _ | .run _ | .notifyParser _ | .addEdge =>
      inferInstanceAs (Decidable True)

/-! ### The invariant -/

/-- The thread will still exchange `should_wait` for the waiter. -/
def pending (s : Waiting Tid) (i : Tid) : Bool :=
  match s.notifiers i with
  | .waker 1 => true
  | .wake 1 id => id == parserID
  | .exchange => true
  | _ => false

/-- While the waiter waits for a reached event, `should_wait` is cleared or will be. -/
structure Heard (s : Waiting Tid) : Prop where
  kind : s.kind = .resultSet
  stored : s.waiter.stored = true → s.wakerId = parserID
  heard : s.counter = 0 → s.waiter.waits = true →
    s.shouldWait = false ∨ ∃ i, s.pending i = true

variable {s s' : Waiting Tid} {i : Tid}

theorem WaitPc.stored_of_waits {pc : WaitPc} (h : pc.waits = true) : pc.stored = true := by
  cases pc <;> simp_all [WaitPc.waits, WaitPc.stored]

omit [DecidableEq Tid] in
/-- The waiter goes from place to place while it waits. -/
theorem Heard.move (h : Heard s) (pc : WaitPc) (mutex : Option (Option Tid))
    (hstored : s.waiter.stored = true) (hwaits : pc.waits = true → s.waiter.waits = true) :
    Heard { s with waiter := pc, mutex := mutex } where
  kind := h.kind
  stored _ := h.stored hstored
  heard hzero hpc := h.heard hzero (hwaits hpc)

omit [DecidableEq Tid] in
/-- A step of the waiter: it enters the loop of `CondVar::wait` only while the event is not
reached. -/
theorem Heard.wait (h : Heard s) (hs : s.stepWaiter = some s') : Heard s' := by
  unfold stepWaiter at hs
  cases hpc : s.waiter with
  | store =>
      simp only [hpc, Option.some.injEq] at hs
      subst hs
      exact ⟨h.kind, fun _ => rfl, fun _ hw => by cases hw⟩
  | check =>
      simp only [hpc, Option.some.injEq] at hs
      subst hs
      have hid := h.stored (by rw [hpc]; rfl)
      refine ⟨h.kind, fun _ => hid, fun hzero hw => ?_⟩
      have hzero : s.counter = 0 := hzero
      simp only [hzero, if_true] at hw
      cases hw
  | outer | inner =>
      simp only [hpc, Option.some.injEq] at hs
      subst hs
      exact h.move _ s.mutex (by rw [hpc]; rfl) fun _ => by rw [hpc]; rfl
  | lock =>
      simp only [hpc] at hs
      split_ifs at hs
      cases hs
      exact h.move .pred (some none) (by rw [hpc]; rfl) fun _ => by rw [hpc]; rfl
  | pred =>
      simp only [hpc] at hs
      split_ifs at hs
      · cases hs
        exact h.move .asleep none (by rw [hpc]; rfl) fun _ => by rw [hpc]; rfl
      · cases hs
        exact h.move .unlock s.mutex (by rw [hpc]; rfl) fun _ => by rw [hpc]; rfl
  | asleep =>
      simp only [hpc] at hs
      cases hs
  | unlock =>
      simp only [hpc, Option.some.injEq] at hs
      subst hs
      exact h.move .outer none (by rw [hpc]; rfl) fun _ => by rw [hpc]; rfl
  | reset =>
      simp only [hpc, Option.some.injEq] at hs
      subst hs
      have hid := h.stored (by rw [hpc]; rfl)
      exact ⟨h.kind, fun _ => hid, fun _ hw => by cases hw⟩
  | done =>
      simp only [hpc] at hs
      cases hs

/-- A thread goes on in `notify` without leaving its task to clear `should_wait`. -/
theorem Heard.notifier (h : Heard s) {pc : NotifyPc}
    (hpc : s.pending i = true → s.waiter.stored = true → (s.setNotifier i pc).pending i = true) :
    Heard (s.setNotifier i pc) where
  kind := h.kind
  stored := h.stored
  heard hzero hw := by
    refine (h.heard hzero hw).imp_right fun ⟨j, hj⟩ => ?_
    by_cases e : j = i
    · subst e
      exact ⟨j, hpc hj (WaitPc.stored_of_waits hw)⟩
    · refine ⟨j, ?_⟩
      simp only [pending, setNotifier, update_of_ne e]
      exact hj

omit [DecidableEq Tid] in
/-- Once `should_wait` is cleared, the waiter leaves its loop. -/
theorem Heard.clear (h : Heard s) (hkind : s'.kind = s.kind) (hwaiter : s'.waiter = s.waiter)
    (hid : s'.wakerId = s.wakerId) (hclear : s'.shouldWait = false) : Heard s' where
  kind := hkind.trans h.kind
  stored hst := by
    rw [hid]
    exact h.stored (hwaiter ▸ hst)
  heard _ _ := .inl hclear

omit [DecidableEq Tid] in
/-- The workers that are woken and the mutex do not matter. -/
theorem Heard.congr (h : Heard s) (woken : List Int) (mutex : Option (Option Tid)) :
    Heard { s with woken := woken, mutex := mutex } :=
  ⟨h.kind, h.stored, h.heard⟩

omit [DecidableEq Tid] in
theorem wake_eq (s : Waiting Tid) (id : Int) : ∃ woken, s.wake id = { s with woken := woken } := by
  simp only [wake]
  split_ifs
  · exact ⟨_, rfl⟩
  · exact ⟨s.woken, rfl⟩

/-- A step of a notifying thread: it reads the `parserID` that the waiter has stored. -/
theorem Heard.run (h : Heard s) (hs : s.stepNotifier i = some s') : Heard s' := by
  unfold stepNotifier at hs
  cases hpc : s.notifiers i with
  | idle =>
      simp only [hpc] at hs
      cases hs
  | waker old =>
      simp only [hpc, Option.some.injEq] at hs
      subst hs
      refine h.notifier fun hpend hst => ?_
      have hid := h.stored hst
      simp only [pending, hpc] at hpend
      simp only [pending, setNotifier, update_self, hid]
      split at hpend <;> simp_all
  | wake old id =>
      simp only [hpc, Option.some.injEq] at hs
      subst hs
      obtain ⟨woken, hwake⟩ : ∃ woken, (if 0 ≤ id then s.wake id else s) =
          { s with woken := woken } := by
        split_ifs
        · exact s.wake_eq id
        · exact ⟨s.woken, rfl⟩
      rw [hwake]
      refine (h.congr woken s.mutex).notifier fun hpend _ => ?_
      simp only [pending, hpc] at hpend
      simp only [pending, setNotifier, update_self, afterWake, h.kind]
      split at hpend <;> simp_all
  | exchange =>
      simp only [hpc] at hs
      split_ifs at hs with hflag
      · cases hs
        exact h.clear rfl rfl rfl rfl
      · cases hs
        have hclear : s.shouldWait = false := by simpa using hflag
        exact h.clear rfl rfl rfl hclear
  | lock =>
      simp only [hpc] at hs
      split_ifs at hs
      cases hs
      refine (h.congr s.woken (some (some i))).notifier fun hpend _ => ?_
      simp [pending, hpc] at hpend
  | notifyAll =>
      simp only [hpc, Option.some.injEq] at hs
      subst hs
      have hmove : Heard { s with
          mutex := none
          waiter := if s.waiter = WaitPc.asleep then .lock else s.waiter } := by
        split_ifs with hasleep
        · exact h.move .lock none (by rw [hasleep]; rfl) fun _ => by rw [hasleep]; rfl
        · exact h.congr s.woken none
      refine hmove.notifier fun hpend _ => ?_
      simp [pending, hpc] at hpend
  | rest =>
      simp only [hpc, Option.some.injEq] at hs
      subst hs
      refine h.notifier fun hpend _ => ?_
      simp [pending, hpc] at hpend

theorem Heard.step {a : WaitAction Tid} (h : Heard s) (hok : s.Undisturbed a)
    (hs : s.step a = some s') : Heard s' := by
  cases a with
  | wait => exact h.wait hs
  | spurious =>
      simp only [Waiting.step] at hs
      split_ifs at hs with hasleep
      cases hs
      exact h.move .lock s.mutex (by rw [hasleep]; rfl) fun _ => by rw [hasleep]; rfl
  | notify i =>
      simp only [Waiting.step] at hs
      split_ifs at hs with hstart hmore
      · cases hs
        refine ⟨h.kind, h.stored, fun hzero => ?_⟩
        have hzero : s.counter - 1 = 0 := hzero
        omega
      · cases hs
        refine ⟨h.kind, h.stored, fun hzero _ => .inr ⟨i, ?_⟩⟩
        have hzero : s.counter - 1 = 0 := hzero
        have hone : s.counter = 1 := by omega
        simp [pending, setNotifier, hone]
  | run i => exact h.run hs
  | notifyParser i =>
      simp only [Waiting.step] at hs
      split_ifs at hs with hidle
      cases hs
      refine h.notifier fun hpend _ => ?_
      simp [pending, hidle] at hpend
  | addEdge =>
      simp only [Waiting.step, h.kind] at hs
      simp at hs
  | pause id =>
      simp only [Waiting.step, Option.some.injEq] at hs
      subst hs
      have hout : s.waiter.stored = false := hok
      refine ⟨h.kind, fun hst => ?_, fun _ hw => ?_⟩
      · rw [hout] at hst
        cases hst
      · have := WaitPc.stored_of_waits hw
        rw [hout] at this
        cases this

/-- A waiter for a result-set-event is woken: in every run in which no task pauses on the
event meanwhile, the waiter is never left asleep. -/
theorem waiter_woken {units : Nat} {flag : Bool} {baseId nWorkers : Int}
    (hs : Reaches Waiting.step Undisturbed
      (initial .resultSet units flag baseId nWorkers : Waiting Tid) s) : ¬ s.LeftAsleep := by
  have h : Heard s := by
    refine Reaches.invariant (I := Heard) ⟨rfl, ?_, ?_⟩ (fun _ _ _ h hok hs => h.step hok hs) hs
    · intro hst
      cases hst
    · intro _ hw
      cases hw
  rintro ⟨hwaits, hflag, hzero, hidle⟩
  rcases h.heard hzero hwaits with hclear | ⟨i, hpend⟩
  · rw [hflag] at hclear
    cases hclear
  · simp [pending, hidle i] at hpend

/-- The waiter falls asleep, and the thread `i` notifies the event. -/
def sleepThenNotify (i : Fin 1) : List (WaitAction (Fin 1)) :=
  List.flatten [.replicate 6 .wait, .notify i :: .replicate 3 (.run i)]

theorem waiter_woken_asleep :
    ∃ s : Waiting (Fin 1), s.waiter = .asleep ∧ s.counter = 0 ∧ ¬ s.LeftAsleep := by
  have hrun : ((exec Waiting.step Undisturbed (sleepThenNotify 0)
      (initial .resultSet 1 true 0 4)).map fun s => (s.waiter, s.counter)) =
        some (.asleep, 0) := by
    decide +kernel
  obtain ⟨s, hs, h⟩ := Option.map_eq_some_iff.mp hrun
  simp only [Prod.mk.injEq] at h
  exact ⟨s, h.1, h.2, waiter_woken (Reaches.refl.of_exec hs)⟩

/-- A run that ends with the waiter asleep and nobody in `notify`. -/
theorem exists_leftAsleep (acts : List (WaitAction (Fin 1))) (s₀ : Waiting (Fin 1))
    (hrun : ((exec Waiting.step (fun _ _ => True) acts s₀).map fun s =>
      (s.waiter, s.shouldWait, s.counter, s.notifiers 0)) = some (.asleep, true, 0, .idle)) :
    ∃ s, Reaches Waiting.step (fun _ _ => True) s₀ s ∧ s.waiter = .asleep ∧ s.LeftAsleep := by
  obtain ⟨s, hs, h⟩ := Option.map_eq_some_iff.mp hrun
  simp only [Prod.mk.injEq] at h
  obtain ⟨hpc, hflag, hzero, hidle⟩ := h
  refine ⟨s, Reaches.refl.of_exec hs, hpc, by rw [hpc]; rfl, hflag, hzero, fun i => ?_⟩
  rw [Subsingleton.elim i 0]
  exact hidle

/-- A waiter for an external event sleeps on: `notify` only calls `wake(254)`, and there are
four workers. -/
theorem waiter_left_asleep :
    ∃ s : Waiting (Fin 1), Reaches Waiting.step (fun _ _ => True) (initial .external 1 true 0 4) s ∧
      s.waiter = .asleep ∧ s.LeftAsleep :=
  exists_leftAsleep (sleepThenNotify 0) _ (by decide +kernel)

/-- So does a waiter for a result-set-event when a task on worker 3 pauses on the same
event. -/
theorem waiter_overwritten :
    ∃ s : Waiting (Fin 1), Reaches Waiting.step (fun _ _ => True) (initial .resultSet 1 true 0 4) s ∧
      s.waiter = .asleep ∧ s.LeftAsleep :=
  exists_leftAsleep (List.flatten [.replicate 6 .wait, .pause 3 :: .notify 0 :: .replicate 3 (.run 0)]) _
    (by decide +kernel)

end Waiting

end RedGrapes.Runtime
