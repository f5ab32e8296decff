/-
RedGrapes/Runtime/PauseOnce.lean

A task that pauses is activated exactly once for the pause, and not before the event is
reached (`activated_once`), in every run in which

* the thread of the event does not begin to walk its follower list between the check and the
  push of `add_follower`: it would not find the entry, and nobody would activate the task
  (`wakeup_lost`);
* it does not notify the pre-event between the increment of `add_follower` and `up`: both this
  call and the worker's own would leave the counter at one and activate the task
  (`activated_twice`).
-/
import RedGrapes.Runtime.PauseHolder

namespace RedGrapes.Runtime

open Function Machine

namespace Pausing

variable {Tid : Type} [DecidableEq Tid]

/-- The condition on the steps. -/
def Orderly (s : Pausing Tid) (a : PauseAction Tid) : Prop := s.ListNotMissed a ∧ s.NotBeforeUp a

/-- Both sides of the pause on `x` have made all their steps: no worker is in a pause, and the
thread of `x` has notified all it found. -/
def PauseOver (s : Pausing Tid) (x : Nat) : Prop :=
  (∀ i, (s.workers i).pausing = none) ∧ s.events x = .walk 0

section Decidable

variable [Fintype Tid]

instance : ∀ (s : Pausing Tid) (a : PauseAction Tid), Decidable (s.ListNotMissed a)
  | s, .event x => inferInstanceAs (Decidable (s.events x = .reached → ∀ i, s.workers i ≠ .push x))
  | _, .take _ => isTrue trivial
  | _, .run _ => isTrue trivial
  | _, .yield _ _ => isTrue trivial
  | _, .finish _ => isTrue trivial
  | _, .reach _ => isTrue trivial
  | _, .depend _ => isTrue trivial

instance : ∀ (s : Pausing Tid) (a : PauseAction Tid), Decidable (s.NotBeforeUp a)
  | s, .event x =>
      inferInstanceAs (Decidable ((s.events x).isFetching = true → ∀ i, s.workers i ≠ .up x))
  | _, .take _ => isTrue trivial
  | _, .run _ => isTrue trivial
  | _, .yield _ _ => isTrue trivial
  | _, .finish _ => isTrue trivial
  | _, .reach _ => isTrue trivial
  | _, .depend _ => isTrue trivial

instance (s : Pausing Tid) (a : PauseAction Tid) : Decidable (s.Orderly a) :=
  inferInstanceAs (Decidable (_ ∧ _))

instance (s : Pausing Tid) (x : Nat) : Decidable (s.PauseOver x) :=
  inferInstanceAs (Decidable (_ ∧ _))

end Decidable

/-! ### No entry is missed -/

/-- A worker that is about to push an entry finds a list that is not walked yet. -/
structure NoneMissed (s : Pausing Tid) : Prop where
  missed : s.missed = 0
  push : ∀ i x, s.workers i = .push x → (s.events x).isWalked = false

namespace NoneMissed

variable {s s' : Pausing Tid}

/-- A step that brings no worker to a push. -/
theorem of_goto (h : NoneMissed s) {i : Tid} {pc : WorkerPc} (hmissed : s'.missed = s.missed)
    (hevents : s'.events = s.events) (hworkers : s'.workers = update s.workers i pc)
    (hpc : ∀ x, pc = .push x → (s.events x).isWalked = false) : NoneMissed s' where
  missed := hmissed.trans h.missed
  push := by
    intro j x hj
    rw [hworkers, update_apply] at hj
    rw [hevents]
    split_ifs at hj
    · exact hpc x hj
    · exact h.push j x hj

omit [DecidableEq Tid] in
/-- A step of the thread of an event that does not begin to walk the list. -/
theorem of_eventGoto (h : NoneMissed s) {x : Nat} {pc : EventPc} (hmissed : s'.missed = s.missed)
    (hworkers : s'.workers = s.workers) (hevents : s'.events = update s.events x pc)
    (hpc : pc.isWalked = true → (s.events x).isWalked = true ∨ ∀ i, s.workers i ≠ .push x) :
    NoneMissed s' where
  missed := hmissed.trans h.missed
  push := by
    intro i y hi
    rw [hworkers] at hi
    rw [hevents, update_apply]
    split_ifs with hy
    · subst hy
      by_contra hw
      rcases hpc (Bool.eq_true_of_not_eq_false hw) with hold | hno
      · rw [h.push i y hi] at hold
        cases hold
      · exact hno i hi
    · exact h.push i y hi

theorem resume_ne_push (k : After) (x : Nat) : resume k ≠ .push x := by
  cases k <;> simp [resume]

/-- A `fetch_sub` of a worker, whatever it leaves in the counter. -/
theorem fetch {i : Tid} (h : NoneMissed s) (k : After) (n : Nat) :
    NoneMissed (({ s with counter := n } : Pausing Tid).goto i
      (if n = 1 then .activate k else if n = 0 then .snapshot k else resume k)) := by
  refine h.of_goto rfl rfl rfl fun x hx => ?_
  split_ifs at hx
  exact absurd hx (resume_ne_push k x)

theorem stepWorker {i : Tid} (h : NoneMissed s) (hs : s.stepWorker i = some s') :
    NoneMissed s' := by
  unfold Pausing.stepWorker at hs
  split at hs
  · cases hs
  · cases hs
  · next k _ =>
      cases hs
      exact h.fetch k s.fetched
  · next k _ =>
      cases hs
      exact h.of_goto rfl rfl rfl fun x hx => absurd hx (resume_ne_push k x)
  · cases hs
    exact h.of_goto rfl rfl rfl fun x hx => by cases hx
  · next k _ =>
      cases hs
      exact h.of_goto rfl rfl rfl fun x hx => absurd hx (resume_ne_push k x)
  · cases hs
    exact h.of_goto rfl rfl rfl fun x hx => by cases hx
  · cases hs
    exact h.of_goto rfl rfl rfl fun x hx => by cases hx
  · next x _ =>
      -- a worker comes to the push only if the event is not reached
      cases hs
      refine h.of_goto rfl rfl rfl fun y hy => ?_
      split_ifs at hy with hr
      cases hy
      cases he : s.events x with
      | unreached | reached => rfl
      | walk n | activate n | snapshot n | loop todo n => rw [he] at hr; exact absurd rfl hr
  · next x hx =>
      cases hs
      refine h.of_goto ?_ rfl rfl fun y hy => by cases hy
      show (if (s.events x).isWalked then s.missed + 1 else s.missed) = s.missed
      rw [h.push i x hx]
      rfl
  · cases hs
    exact h.of_goto rfl rfl rfl fun x hx => by cases hx
  · cases hs
    exact h.of_goto rfl rfl rfl fun x hx => by cases hx

omit [DecidableEq Tid] in
/-- A `fetch_sub` of the thread of an event. -/
theorem eventFetch {x m : Nat} (h : NoneMissed s) (he : s.events x = .walk (m + 1)) (n : Nat) :
    NoneMissed (({ s with counter := n } : Pausing Tid).eventGoto x
      (if n = 1 then .activate m else if n = 0 then .snapshot m else .walk m)) := by
  refine h.of_eventGoto rfl rfl rfl fun _ => Or.inl ?_
  rw [he]
  rfl

omit [DecidableEq Tid] in
theorem stepEvent {x : Nat} (h : NoneMissed s) (hok : s.ListNotMissed (.event x))
    (hs : s.stepEvent x = some s') : NoneMissed s' := by
  unfold Pausing.stepEvent at hs
  split at hs
  · cases hs
  · next he =>
      cases hs
      exact h.of_eventGoto rfl rfl rfl fun _ => Or.inr (hok he)
  · cases hs
  · next he =>
      cases hs
      exact h.eventFetch he s.fetched
  · next he =>
      cases hs
      exact h.of_eventGoto rfl rfl rfl fun _ => Or.inl (by rw [he]; rfl)
  · next he =>
      cases hs
      exact h.of_eventGoto rfl rfl rfl fun _ => Or.inl (by rw [he]; rfl)
  · next he =>
      cases hs
      exact h.of_eventGoto rfl rfl rfl fun _ => Or.inl (by rw [he]; rfl)
  · next he =>
      cases hs
      exact h.of_eventGoto rfl rfl rfl fun _ => Or.inl (by rw [he]; rfl)

theorem step {a : PauseAction Tid} (h : NoneMissed s) (hok : s.ListNotMissed a)
    (hs : s.step a = some s') : NoneMissed s' := by
  cases a with
  | run i => exact h.stepWorker hs
  | event x => exact h.stepEvent hok hs
  | take i | yield i x | finish i =>
      simp only [Pausing.step] at hs
      split at hs
      · cases hs
        refine h.of_goto rfl rfl rfl fun x hx => ?_
        split_ifs at hx
      · cases hs
  | reach x =>
      simp only [Pausing.step] at hs
      split at hs
      · cases hs
        exact h.of_eventGoto rfl rfl rfl fun hw => by cases hw
      · cases hs
  | depend j =>
      cases hs
      unfold Pausing.stepDepend
      split_ifs
      · exact ⟨h.missed, h.push⟩
      · exact h
      · exact ⟨h.missed, h.push⟩

end NoneMissed

/-! ### Exactly one activation -/

theorem holds_of_reaches {bodyFirst : Bool} {s : Pausing Tid}
    (hs : Reaches step NotBeforeUp (initial bodyFirst) s) : ∃ p, Holds s p := by
  refine hs.invariant (I := fun s => ∃ p, Holds s p) ⟨_, holds_initial bodyFirst⟩ ?_
  rintro s a s' ⟨p, h⟩ hok hstep
  exact h.step hok hstep

theorem noneMissed_of_reaches {bodyFirst : Bool} {s : Pausing Tid}
    (hs : Reaches step ListNotMissed (initial bodyFirst) s) : NoneMissed s := by
  have h₀ : NoneMissed (initial bodyFirst : Pausing Tid) := ⟨rfl, fun i x hi => by cases hi⟩
  refine hs.invariant h₀ ?_
  intro s a s' h hok hstep
  exact h.step hok hstep

/-- **Exactly one activation.**  In every run in which the thread of an event neither begins
to walk the follower list between the check and the push nor notifies the pre-event between the
increment and `up`, the task is activated at most once since it began to pause on `x`, only
when `x` is reached, and once when the worker and the thread of `x` have made all their
steps. -/
theorem activated_once {bodyFirst : Bool} {s : Pausing Tid}
    (hs : Reaches step Orderly (initial bodyFirst) s) {x : Nat} (hx : s.pausedOn = some x) :
    s.activated ≤ 1 ∧ (0 < s.activated → (s.events x).isReached = true) ∧
      (s.PauseOver x → s.activated = 1) := by
  obtain ⟨p, h⟩ := holds_of_reaches (hs.mono fun _ _ hok => hok.2)
  have hmissed := (noneMissed_of_reaches (hs.mono fun _ _ hok => hok.1)).missed
  cases hp : s.pausing p with
  | none =>
      obtain ⟨hone, hreached⟩ := h.resumed hp x hx
      exact ⟨hone.le, fun _ => hreached, fun _ => hone⟩
  | some y =>
      obtain ⟨hy, hzero⟩ := h.paused y hp
      obtain rfl : y = x := Option.some.inj (hy.symm.trans hx)
      refine ⟨by omega, fun hpos => by omega, ?_⟩
      -- the pause is not over
      rintro ⟨hworkers, hwalk⟩
      cases p with
      | queued | done => cases hp
      | worker i =>
          rw [show s.pausing (.worker i) = none from hworkers i] at hp
          cases hp
      | waiting z =>
          obtain rfl : z = y := Option.some.inj hp
          have howed : s.owes z + s.missed = 1 := h.waiting z rfl
          have hnone : s.owes z = 0 := by simp only [owes, hwalk]
          omega
      | waking z =>
          obtain rfl : z = y := Option.some.inj hp
          have hact := (h.waking z).mpr rfl
          rw [hwalk] at hact
          cases hact

/-! ### Runs of one worker -/

/-- The worker `i` takes the task, notifies the pre-event, and the body yields on the
event 0. -/
def untilPause (i : Fin 1) : List (PauseAction (Fin 1)) :=
  [.take i, .run i, .run i, .run i, .yield i 0]

/-- The worker `i` makes `n` steps. -/
def steps (i : Fin 1) (n : Nat) : List (PauseAction (Fin 1)) := .replicate n (.run i)

/-- The event 0 is reached, and its thread makes `n` steps. -/
def reachZero (n : Nat) : List (PauseAction (Fin 1)) := .reach 0 :: .replicate n (.event 0)

/-- The event is reached when the task waits for it. -/
theorem activated_once_waiting :
    ∃ s : Pausing (Fin 1), Reaches step Orderly (initial false) s ∧ s.pausedOn = some 0 ∧
      s.PauseOver 0 ∧ s.activated = 1 := by
  have hrun : ((exec step Orderly (untilPause 0 ++ steps 0 6 ++ reachZero 3) (initial false)).map
      fun s => (s.pausedOn, decide (s.PauseOver 0))) = some (some 0, true) := by
    decide +kernel
  obtain ⟨s, hs, h⟩ := Option.map_eq_some_iff.mp hrun
  simp only [Prod.mk.injEq, decide_eq_true_eq] at h
  have hreach : Reaches step Orderly (initial false) s := Reaches.refl.of_exec hs
  exact ⟨s, hreach, h.1, h.2, (activated_once hreach h.1).2.2 h.2⟩

/-- The thread of the event notifies the pre-event before `up`: it activates the task, and so
does the worker. -/
theorem activated_twice :
    ¬ ∀ (bodyFirst : Bool) (s : Pausing (Fin 1)),
      Reaches step (fun _ _ => True) (initial bodyFirst) s → ∀ x, s.pausedOn = some x →
        s.activated ≤ 1 ∧ (0 < s.activated → (s.events x).isReached = true) ∧
          (s.PauseOver x → s.activated = 1) := by
  intro hclaim
  have hrun : ((exec step (fun _ _ => True) (untilPause 0 ++ steps 0 4 ++ reachZero 3 ++ steps 0 3)
      (initial false)).map fun s => (s.pausedOn, s.activated)) = some (some 0, 2) := by
    decide +kernel
  obtain ⟨s, hs, h⟩ := Option.map_eq_some_iff.mp hrun
  simp only [Prod.mk.injEq] at h
  have := (hclaim false s (Reaches.refl.of_exec hs) 0 h.1).1
  omega

/-- The thread of the event walks the list before the push: nobody activates the task. -/
theorem wakeup_lost :
    ∃ s : Pausing (Fin 1), Reaches step (fun _ _ => True) (initial false) s ∧
      s.pausedOn = some 0 ∧ s.PauseOver 0 ∧ s.activated = 0 ∧ s.ready = 0 := by
  have hrun : ((exec step (fun _ _ => True) (untilPause 0 ++ steps 0 2 ++ reachZero 1 ++ steps 0 4)
      (initial false)).map fun s => (s.pausedOn, decide (s.PauseOver 0), s.activated, s.ready)) =
        some (some 0, true, 0, 0) := by
    decide +kernel
  obtain ⟨s, hs, h⟩ := Option.map_eq_some_iff.mp hrun
  simp only [Prod.mk.injEq, decide_eq_true_eq] at h
  exact ⟨s, Reaches.refl.of_exec hs, h⟩

end Pausing

end RedGrapes.Runtime
