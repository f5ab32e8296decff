/-
RedGrapes/CondVar.lean

Waiting on a `CondVar` (`sync/cv.hpp`): one thread runs `while(!C) cv.wait();`, as `barrier`
does, and others set the condition and call `cv.notify()`.

`wait` spins on `should_wait`, sleeps in the condition variable when its count exceeds the
timeout, and sets `should_wait` again with a plain store when it has seen it false.  `notify`
does nothing if it finds `should_wait` false already, and the store may come after that.  No
wake-up is lost all the same, for two reasons, which are the fields of `Inv`:

* the waiter has found the condition false when it called `wait`.  Who sets the condition later
  finds `should_wait` false or makes it false during that call, and it stays false until the
  call ends (`set`); the store is followed by a look at the condition;
* between the predicate and `notify_all` there is the mutex: who makes `should_wait` false while
  the waiter goes to sleep has `notify_all` still before it (`asleep`).

The threads may call `notify` at any time and as often as they like, and the condition variable
may wake the waiter without reason.
-/
import RedGrapes.Lib.Machine

namespace RedGrapes.CondVar

open Function Machine

/-! ### The machine -/

/-- Places of the waiter: looking at the condition; in `wait` the two loads of `should_wait` with
the count, taking the mutex, and in `cv.wait` the predicate, going to sleep, asleep, and taking
the mutex again; giving the mutex back, and the final store. -/
inductive WaitPc
  | check
  | load (count : Nat)
  | reload (count : Nat)
  | lock (count : Nat)
  | pred (count : Nat)
  | sleep (count : Nat)
  | asleep (count : Nat)
  | relock (count : Nat)
  | unlock (count : Nat)
  | store
  | done
deriving DecidableEq

namespace WaitPc

/-- In `wait`, before the final store. -/
def inLoop : WaitPc → Bool
  | check | store | done => false
  | _ => true

/-- Where the waiter holds the mutex. -/
def locks : WaitPc → Bool
  | pred _ | sleep _ | unlock _ => true
  | _ => false

/-- The predicate has found `should_wait` true. -/
def sleeps : WaitPc → Bool
  | sleep _ | asleep _ => true
  | _ => false

def isAsleep : WaitPc → Bool
  | asleep _ => true
  | _ => false

end WaitPc

/-- Places of a notifying thread after it has set the condition: the exchange of `should_wait`,
taking the mutex, `notify_all`, and giving the mutex back. -/
inductive NotifyPc
  | idle
  | exchange
  | lock
  | notifyAll
  | unlock
deriving DecidableEq

namespace NotifyPc

def locks : NotifyPc → Bool
  | notifyAll | unlock => true
  | _ => false

/-- `notify_all` is still to come. -/
def willNotify : NotifyPc → Bool
  | lock | notifyAll => true
  | _ => false

end NotifyPc

/-- The `CondVar`, the condition and the threads. -/
structure Waiting (Tid : Type) where
  timeout : Nat
  shouldWait : Bool
  condition : Bool
  /-- Who holds the mutex: the waiter or a notifying thread. -/
  mutex : Option (Option Tid)
  waiter : WaitPc
  notifiers : Tid → NotifyPc

/-- A step of the waiter, a wake-up without reason, a thread that sets the condition and begins
`notify`, and a step of such a thread. -/
inductive Action (Tid : Type)
  | wait
  | spurious
  | notify (i : Tid)
  | run (i : Tid)

namespace Waiting

variable {Tid : Type}

def goto (s : Waiting Tid) (pc : WaitPc) : Waiting Tid := { s with waiter := pc }

def gotoNotifier [DecidableEq Tid] (s : Waiting Tid) (i : Tid) (pc : NotifyPc) : Waiting Tid :=
  { s with notifiers := update s.notifiers i pc }

theorem notifiers_self [DecidableEq Tid] (s : Waiting Tid) (i : Tid) (pc : NotifyPc) :
    (s.gotoNotifier i pc).notifiers i = pc := update_self ..

theorem notifiers_of_ne [DecidableEq Tid] (s : Waiting Tid) {i j : Tid} (h : j ≠ i) (pc : NotifyPc) :
    (s.gotoNotifier i pc).notifiers j = s.notifiers j := update_of_ne h ..

/-- Whoever is asleep in the condition variable goes on to take the mutex. -/
def wakeWaiter : WaitPc → WaitPc
  | .asleep count => .relock count
  | pc => pc

/-- One step of the waiter; the count is an `unsigned`. -/
def stepWaiter (s : Waiting Tid) : Option (Waiting Tid) :=
  match s.waiter with
  | .check => some (s.goto (if s.condition then .done else .load 0))
  | .load count =>
      let next := (count + 1) % 2 ^ 32
      some (s.goto (if s.shouldWait then if s.timeout < next then .reload next else .load next
        else .store))
  | .reload count => some (s.goto (if s.shouldWait then .lock count else .load count))
  | .lock count =>
      if s.mutex = none then some ({ s with mutex := some none }.goto (.pred count)) else none
  | .pred count => some (s.goto (if s.shouldWait then .sleep count else .unlock count))
  | .sleep count => some ({ s with mutex := none }.goto (.asleep count))
  | .asleep _ => none
  | .relock count =>
      if s.mutex = none then some ({ s with mutex := some none }.goto (.pred count)) else none
  | .unlock count => some ({ s with mutex := none }.goto (.load count))
  | .store => some ({ s with shouldWait := true }.goto .check)
  | .done => none

/-- One step of a notifying thread. -/
def stepNotifier [DecidableEq Tid] (s : Waiting Tid) (i : Tid) : Option (Waiting Tid) :=
  match s.notifiers i with
  | .idle => none
  | .exchange =>
      if s.shouldWait then some ({ s with shouldWait := false }.gotoNotifier i .lock)
      else some (s.gotoNotifier i .idle)
  | .lock =>
      if s.mutex = none then some ({ s with mutex := some (some i) }.gotoNotifier i .notifyAll)
      else none
  | .notifyAll => some ((s.goto (wakeWaiter s.waiter)).gotoNotifier i .unlock)
  | .unlock => some ({ s with mutex := none }.gotoNotifier i .idle)

def step [DecidableEq Tid] (s : Waiting Tid) : Action Tid → Option (Waiting Tid)
  | .wait => s.stepWaiter
  | .spurious => if s.waiter.isAsleep then some (s.goto (wakeWaiter s.waiter)) else none
  | .notify i =>
      if s.notifiers i = .idle then some ({ s with condition := true }.gotoNotifier i .exchange)
      else none
  | .run i => s.stepNotifier i

/-- Before the waiter looks at the condition for the first time. -/
def initial (timeout : Nat) (shouldWait : Bool) : Waiting Tid where
  timeout := timeout
  shouldWait := shouldWait
  condition := false
  mutex := none
  waiter := .check
  notifiers := fun _ => .idle

/-- The condition holds, nobody is between setting it and the end of `notify`, and the waiter is
asleep, or on its way in `wait` with `should_wait` true. -/
def LostWakeup (s : Waiting Tid) : Prop :=
  s.condition = true ∧ (∀ i, s.notifiers i = .idle) ∧
    (s.waiter.isAsleep = true ∨ (s.waiter.inLoop = true ∧ s.shouldWait = true))

/-! ### The invariant -/

structure Inv (s : Waiting Tid) : Prop where
  /-- The mutex is held by the waiter at its places with the mutex, … -/
  waiterLocks : s.waiter.locks = true → s.mutex = some none
  /-- … and by a notifying thread at its own. -/
  notifierLocks : ∀ i, (s.notifiers i).locks = true → s.mutex = some (some i)
  /-- The condition was set after the waiter looked at it, and `should_wait` is false or will be
  made false. -/
  set : s.waiter.inLoop = true → s.condition = true → s.shouldWait = true →
    ∃ i, s.notifiers i = .exchange
  /-- `should_wait` was made false after the predicate. -/
  asleep : s.waiter.sleeps = true → s.shouldWait = false →
    ∃ i, (s.notifiers i).willNotify = true

namespace Inv

variable {s s' : Waiting Tid}

theorem init (timeout : Nat) (shouldWait : Bool) : Inv (initial timeout shouldWait : Waiting Tid) where
  waiterLocks := fun h => by cases h
  notifierLocks := fun i h => by cases h
  set := fun h => by cases h
  asleep := fun h => by cases h

/-- The waiter holds the mutex at no place of a notifying thread with the mutex. -/
theorem not_locks (h : Inv s) (hw : s.waiter.locks = true) (i : Tid) :
    (s.notifiers i).locks = false := by
  by_contra hi
  have := h.notifierLocks i (Bool.eq_true_of_not_eq_false hi)
  rw [h.waiterLocks hw] at this
  cases this

/-- A step of the waiter that leaves the mutex and `should_wait` alone. -/
theorem goto {pc : WaitPc} (h : Inv s) (hlocks : pc.locks = s.waiter.locks)
    (hloop : pc.inLoop = true → s.waiter.inLoop = true ∨ s.condition = false)
    (hsleeps : pc.sleeps = true → s.waiter.sleeps = true ∨ s.shouldWait = true) :
    Inv (s.goto pc) where
  waiterLocks := fun hpc => h.waiterLocks (hlocks ▸ hpc)
  notifierLocks := h.notifierLocks
  set := by
    intro hpc hcond hflag
    rcases hloop hpc with hin | hno
    · exact h.set hin hcond hflag
    · have hcond' : s.condition = true := hcond
      rw [hno] at hcond'
      cases hcond'
  asleep := by
    intro hpc hflag
    rcases hsleeps hpc with hin | hno
    · exact h.asleep hin hflag
    · have hflag' : s.shouldWait = false := hflag
      rw [hno] at hflag'
      cases hflag'

/-- The waiter takes the mutex to look at the predicate. -/
theorem take {count : Nat} (h : Inv s) (hmutex : s.mutex = none) (hin : s.waiter.inLoop = true) :
    Inv ({ s with mutex := some none }.goto (.pred count)) where
  waiterLocks := fun _ => rfl
  notifierLocks := by
    intro i hi
    have := h.notifierLocks i hi
    rw [hmutex] at this
    cases this
  set := fun _ => h.set hin
  asleep := fun hpc => by cases hpc

/-- The waiter gives the mutex back. -/
theorem give {pc : WaitPc} (h : Inv s) (hwaiter : s.waiter.locks = true) (hpc : pc.locks = false)
    (hin : s.waiter.inLoop = true) (hsleeps : pc.sleeps = true → s.waiter.sleeps = true) :
    Inv ({ s with mutex := none }.goto pc) where
  waiterLocks := fun hl => by
    rw [show pc.locks = true from hl] at hpc
    cases hpc
  notifierLocks := by
    intro i hi
    have : (s.notifiers i).locks = true := hi
    rw [h.not_locks hwaiter i] at this
    cases this
  set := fun _ => h.set hin
  asleep := fun hl => h.asleep (hsleeps hl)

theorem stepWaiter (h : Inv s) (hs : s.stepWaiter = some s') : Inv s' := by
  unfold Waiting.stepWaiter at hs
  split at hs
  · next hpc =>
      -- `wait` is called only when the condition is false
      cases hs
      split_ifs with hc
      · exact h.goto (by rw [hpc]; rfl) (fun hl => by cases hl) fun hl => by cases hl
      · exact h.goto (by rw [hpc]; rfl) (fun _ => Or.inr (Bool.eq_false_of_not_eq_true hc))
          fun hl => by cases hl
  · next count hpc =>
      -- the loop of `wait` ends when `should_wait` is false
      cases hs
      split_ifs
      · exact h.goto (by rw [hpc]; rfl) (fun _ => Or.inl (by rw [hpc]; rfl)) fun hl => by cases hl
      · exact h.goto (by rw [hpc]; rfl) (fun _ => Or.inl (by rw [hpc]; rfl)) fun hl => by cases hl
      · exact h.goto (by rw [hpc]; rfl) (fun hl => by cases hl) fun hl => by cases hl
  · next count hpc =>
      cases hs
      split_ifs
      · exact h.goto (by rw [hpc]; rfl) (fun _ => Or.inl (by rw [hpc]; rfl)) fun hl => by cases hl
      · exact h.goto (by rw [hpc]; rfl) (fun _ => Or.inl (by rw [hpc]; rfl)) fun hl => by cases hl
  · next count hpc =>
      split_ifs at hs with hm
      cases hs
      exact h.take hm (by rw [hpc]; rfl)
  · next count hpc =>
      cases hs
      split_ifs with hflag
      · -- the predicate finds `should_wait` true
        exact h.goto (by rw [hpc]; rfl) (fun _ => Or.inl (by rw [hpc]; rfl)) fun _ => Or.inr hflag
      · exact h.goto (by rw [hpc]; rfl) (fun _ => Or.inl (by rw [hpc]; rfl)) fun hl => by cases hl
  · next count hpc =>
      -- the waiter falls asleep and gives the mutex back in one step
      cases hs
      exact h.give (by rw [hpc]; rfl) rfl (by rw [hpc]; rfl) fun _ => by rw [hpc]; rfl
  · cases hs
  · next count hpc =>
      split_ifs at hs with hm
      cases hs
      exact h.take hm (by rw [hpc]; rfl)
  · next count hpc =>
      cases hs
      exact h.give (by rw [hpc]; rfl) rfl (by rw [hpc]; rfl) fun hl => by cases hl
  · next hpc =>
      -- the final store comes after the loop, where nothing is claimed of `should_wait`
      cases hs
      exact {
        waiterLocks := fun hl => by cases hl
        notifierLocks := h.notifierLocks
        set := fun hl => by cases hl
        asleep := fun hl => by cases hl }
  · cases hs

/-- The waiter leaves the condition variable. -/
theorem wake (h : Inv s) : Inv (s.goto (wakeWaiter s.waiter)) := by
  cases hpc : s.waiter with
  | asleep count =>
      exact h.goto (by rw [hpc]; rfl) (fun _ => Or.inl (by rw [hpc]; rfl)) fun hl => by cases hl
  | _ =>
      refine h.goto (by rw [hpc]; rfl) (fun hl => Or.inl ?_) fun hl => Or.inl ?_
      · rw [hpc]
        exact hl
      · rw [hpc]
        exact hl

variable [DecidableEq Tid]

/-- A notifying thread that is not at the exchange, and has not `notify_all` before it while
somebody sleeps, goes on. -/
theorem gotoNotifier {i : Tid} {pc : NotifyPc} (h : Inv s)
    (hlocks : pc.locks = true → s.mutex = some (some i))
    (hset : pc = .exchange ∨ s.notifiers i ≠ .exchange ∨ s.shouldWait = false)
    (hnotify : pc.willNotify = true ∨ (s.notifiers i).willNotify = false ∨
      s.waiter.sleeps = false) :
    Inv (s.gotoNotifier i pc) where
  waiterLocks := h.waiterLocks
  notifierLocks := by
    intro j hj
    by_cases e : j = i
    · subst e
      rw [notifiers_self] at hj
      exact hlocks hj
    · rw [notifiers_of_ne _ e] at hj
      exact h.notifierLocks j hj
  set := by
    intro hin hcond hflag
    obtain ⟨j, hj⟩ := h.set hin hcond hflag
    by_cases e : j = i
    · subst e
      rcases hset with rfl | hne | hno
      · exact ⟨j, notifiers_self ..⟩
      · exact absurd hj hne
      · have hflag' : s.shouldWait = true := hflag
        rw [hno] at hflag'
        cases hflag'
    · exact ⟨j, (notifiers_of_ne _ e _).trans hj⟩
  asleep := by
    intro hsleeps hflag
    obtain ⟨j, hj⟩ := h.asleep hsleeps hflag
    by_cases e : j = i
    · subst e
      rcases hnotify with hpc | hno | hno
      · exact ⟨j, by rw [notifiers_self]; exact hpc⟩
      · rw [hno] at hj
        cases hj
      · have hsleeps' : s.waiter.sleeps = true := hsleeps
        rw [hno] at hsleeps'
        cases hsleeps'
    · refine ⟨j, ?_⟩
      rw [notifiers_of_ne _ e]
      exact hj

/-- A notifying thread makes `should_wait` false. -/
theorem exchange {i : Tid} (h : Inv s) :
    Inv ({ s with shouldWait := false }.gotoNotifier i .lock) where
  waiterLocks := h.waiterLocks
  notifierLocks := by
    intro j hj
    by_cases e : j = i
    · subst e
      rw [notifiers_self] at hj
      cases hj
    · rw [notifiers_of_ne _ e] at hj
      exact h.notifierLocks j hj
  set := fun _ _ hflag => by cases hflag
  asleep := by
    intro _ _
    refine ⟨i, ?_⟩
    rw [notifiers_self]
    rfl

/-- A notifying thread takes the mutex. -/
theorem lock {i : Tid} (h : Inv s) (hmutex : s.mutex = none) (hi : s.notifiers i = .lock) :
    Inv ({ s with mutex := some (some i) }.gotoNotifier i .notifyAll) := by
  have hfree : Inv { s with mutex := some (some i) } := {
    waiterLocks := by
      intro hl
      have := h.waiterLocks hl
      rw [hmutex] at this
      cases this
    notifierLocks := by
      intro j hj
      have := h.notifierLocks j hj
      rw [hmutex] at this
      cases this
    set := h.set
    asleep := h.asleep }
  refine hfree.gotoNotifier (fun _ => rfl) (Or.inr (Or.inl ?_)) (Or.inl rfl)
  rw [show s.notifiers i = .lock from hi]
  decide

/-- `notify_all`: the waiter is not between the predicate and its sleep, because the mutex is
taken. -/
theorem notifyAll {i : Tid} (h : Inv s) (hi : s.notifiers i = .notifyAll) :
    Inv ((s.goto (wakeWaiter s.waiter)).gotoNotifier i .unlock) := by
  have hlocks : (s.notifiers i).locks = true := by rw [hi]; rfl
  refine h.wake.gotoNotifier (fun _ => h.notifierLocks i hlocks) (Or.inr (Or.inl ?_))
    (Or.inr (Or.inr ?_))
  · show s.notifiers i ≠ .exchange
    rw [hi]
    decide
  · show (wakeWaiter s.waiter).sleeps = false
    cases hpc : s.waiter with
    | sleep count =>
        have := h.not_locks (by rw [hpc]; rfl) i
        rw [hlocks] at this
        cases this
    | _ => rfl

/-- A notifying thread gives the mutex back. -/
theorem unlock {i : Tid} (h : Inv s) (hi : s.notifiers i = .unlock) :
    Inv ({ s with mutex := none }.gotoNotifier i .idle) := by
  have hmutex : s.mutex = some (some i) := h.notifierLocks i (by rw [hi]; rfl)
  have hgone : Inv (s.gotoNotifier i .idle) := h.gotoNotifier (fun hl => by cases hl)
    (Or.inr (Or.inl (by rw [hi]; decide))) (Or.inr (Or.inl (by rw [hi]; rfl)))
  exact {
    waiterLocks := by
      intro hl
      have : s.mutex = some none := hgone.waiterLocks hl
      rw [hmutex] at this
      cases this
    notifierLocks := by
      intro j hj
      have hlocks : ((s.gotoNotifier i .idle).notifiers j).locks = true := hj
      have : s.mutex = some (some j) := hgone.notifierLocks j hlocks
      rw [hmutex] at this
      obtain rfl : i = j := Option.some.inj (Option.some.inj this)
      rw [notifiers_self] at hlocks
      cases hlocks
    set := hgone.set
    asleep := hgone.asleep }

theorem stepNotifier {i : Tid} (h : Inv s) (hs : s.stepNotifier i = some s') : Inv s' := by
  unfold Waiting.stepNotifier at hs
  split at hs
  · cases hs
  · next hi =>
      split_ifs at hs with hflag
      · cases hs
        exact h.exchange
      · -- somebody else has made `should_wait` false
        cases hs
        exact h.gotoNotifier (fun hl => by cases hl)
          (Or.inr (Or.inr (Bool.eq_false_of_not_eq_true hflag))) (Or.inr (Or.inl (by rw [hi]; rfl)))
  · next hi =>
      split_ifs at hs with hm
      cases hs
      exact h.lock hm hi
  · next hi =>
      cases hs
      exact h.notifyAll hi
  · next hi =>
      cases hs
      exact h.unlock hi

/-- A thread sets the condition and begins `notify`. -/
theorem notify {i : Tid} (h : Inv s) (hi : s.notifiers i = .idle) :
    Inv ({ s with condition := true }.gotoNotifier i .exchange) := by
  have hnext : Inv (s.gotoNotifier i .exchange) := h.gotoNotifier (fun hl => by cases hl)
    (Or.inl rfl) (Or.inr (Or.inl (by rw [hi]; rfl)))
  exact {
    waiterLocks := hnext.waiterLocks
    notifierLocks := hnext.notifierLocks
    set := fun _ _ _ => ⟨i, notifiers_self ..⟩
    asleep := hnext.asleep }

theorem step {a : Action Tid} (h : Inv s) (hs : s.step a = some s') : Inv s' := by
  cases a with
  | wait => exact h.stepWaiter hs
  | spurious =>
      simp only [Waiting.step] at hs
      split_ifs at hs
      cases hs
      exact h.wake
  | notify i =>
      simp only [Waiting.step] at hs
      split_ifs at hs with hidle
      cases hs
      exact h.notify hidle
  | run i => exact h.stepNotifier hs

end Inv

/-! ### No wake-up is lost -/

variable [DecidableEq Tid]

/-- **`CondVar` loses no wake-up.**  For every timeout and every interleaving, no state is reached
in which the condition holds, every `notify` has ended, and the waiter is asleep or about to sleep
with `should_wait` true. -/
theorem no_lost_wakeup {timeout : Nat} {shouldWait : Bool} {s : Waiting Tid}
    (hs : Reaches step (fun _ _ => True) (initial timeout shouldWait) s) : ¬ s.LostWakeup := by
  have h : Inv s := hs.invariant (Inv.init timeout shouldWait) fun _ _ _ hi _ hstep => hi.step hstep
  rintro ⟨hcond, hidle, hwaiter⟩
  have hset : s.waiter.inLoop = true → s.shouldWait = false := by
    intro hin
    by_contra hflag
    obtain ⟨i, hi⟩ := h.set hin hcond (Bool.eq_true_of_not_eq_false hflag)
    rw [hidle i] at hi
    cases hi
  rcases hwaiter with hasleep | ⟨hin, hflag⟩
  · have hpc : s.waiter.inLoop = true ∧ s.waiter.sleeps = true := by
      cases hw : s.waiter with
      | asleep count => exact ⟨rfl, rfl⟩
      | _ =>
          rw [hw] at hasleep
          cases hasleep
    obtain ⟨i, hi⟩ := h.asleep hpc.2 (hset hpc.1)
    rw [hidle i] at hi
    cases hi
  · rw [hset hin] at hflag
    cases hflag

/-- The waiter is asleep when a thread sets the condition and calls `notify`; after that it is
awake. -/
theorem no_lost_wakeup_asleep :
    ∃ s : Waiting (Fin 1), s.condition = true ∧ s.notifiers 0 = .idle ∧ s.waiter = .relock 1 ∧
      ¬ s.LostWakeup := by
  have hrun : ((exec step (fun _ _ => True)
      (List.flatten [.replicate 6 .wait, .notify 0 :: .replicate 4 (.run 0)])
      (initial 0 true : Waiting (Fin 1))).map fun s =>
        (s.condition, s.notifiers 0, s.waiter)) = some (true, .idle, .relock 1) := by
    decide +kernel
  obtain ⟨s, hs, h⟩ := Option.map_eq_some_iff.mp hrun
  simp only [Prod.mk.injEq] at h
  exact ⟨s, h.1, h.2.1, h.2.2, no_lost_wakeup (Reaches.refl.of_exec hs)⟩

end Waiting

end RedGrapes.CondVar
