/-
RedGrapes/Runtime/PauseHolder.lean

A task that pauses has one holder: a ready queue, a worker, the event it waits for, or the
thread of that event, about to activate it (`Pausing.Holds`).

The counter of the pre-event follows from the holder and from what the thread of the event
still owes, which is at most one call of `notify`.  A worker that ends a pause leaves the
counter at one more than that: at one if nothing is owed any more, and then it activates the
task, at two otherwise, and then the task waits.  Every step keeps this, but for a call of
`notify` between the increment of `add_follower` and `up` (`Holds.step`).
-/
import RedGrapes.Runtime.Pause

namespace RedGrapes.Runtime

open Function Machine

/-! ### Who has the task -/

/-- Where a task that is not finished stands: in a ready queue, with a worker, waiting for the
event `x`, or in the hand of the thread of `x`, which is about to activate it. -/
inductive Holder (Tid : Type)
  | queued
  | worker (i : Tid)
  | waiting (x : Nat)
  | waking (x : Nat)
  | done
deriving DecidableEq

namespace WorkerPc

/-- The event in whose follower list the worker may have pushed an entry that is not
notified yet. -/
def owedBy : WorkerPc → Option Nat
  | .count x => some x
  | .up x => some x
  | .fetch (.leave x) => some x
  | _ => none

/-- The event of the pause the worker is in, after the store of `sg_pause`. -/
def pausing : WorkerPc → Option Nat
  | .check x => some x
  | .push x => some x
  | .count x => some x
  | .up x => some x
  | .fetch (.leave x) => some x
  | .activate (.leave x) => some x
  | _ => none

/-- The counter of the pre-event, with the entries not notified yet. -/
def value (bodyFirst : Bool) (owed : Nat) : WorkerPc → Nat
  | .body => bodyFirst.toNat
  | .fetch (.leave _) => 2 + owed
  | .fetch _ => 1
  | .activate _ => 1
  | .check _ => 1
  | .push _ => 1
  | .count _ => owed
  | .up _ => 1 + owed
  | _ => 0

/-- Places at which a worker with the task can be: `notify` at the end of a pause finds no
followers to notify, only there the task is activated, and only where the body comes second it
follows a call of `notify`. -/
def Sound (bodyFirst : Bool) : WorkerPc → Prop
  | .idle => False
  | .activate (.leave _) => True
  | .activate _ => False
  | .snapshot (.leave _) => False
  | .loop _ (.leave _) => False
  | .fetch .body => bodyFirst = false
  | .snapshot .body => bodyFirst = false
  | .loop _ .body => bodyFirst = false
  | _ => True

theorem owedBy_eq_some {pc : WorkerPc} {x : Nat} (h : pc.owedBy = some x) :
    pc = .count x ∨ pc = .up x ∨ pc = .fetch (.leave x) := by
  unfold owedBy at h
  split at h <;> simp_all

end WorkerPc

namespace Pausing

variable {Tid : Type}

/-- The entries of the pre-event which the thread of `x` will notify. -/
def owes (s : Pausing Tid) (x : Nat) : Nat :=
  match s.events x with
  | .unreached => s.entries x
  | .reached => s.entries x
  | .walk n => n
  | .activate n => n
  | .snapshot n => n
  | .loop _ n => n

/-- The entries counted at the pre-event that are not notified yet, when `x` is the event of
the pause. -/
def owed (s : Pausing Tid) : Option Nat → Nat
  | none => 0
  | some x => s.owes x + s.missed

/-- The event that may have an entry of the pre-event to notify. -/
def owedBy (s : Pausing Tid) : Holder Tid → Option Nat
  | .worker i => (s.workers i).owedBy
  | .waiting x => some x
  | _ => none

/-- The event of the pause the task is in. -/
def pausing (s : Pausing Tid) : Holder Tid → Option Nat
  | .worker i => (s.workers i).pausing
  | .waiting x => some x
  | .waking x => some x
  | _ => none

/-- The counter of the pre-event. -/
def value (s : Pausing Tid) : Holder Tid → Nat
  | .queued => 1
  | .worker i => (s.workers i).value s.bodyFirst (s.owed (s.workers i).owedBy)
  | .waiting x => 1 + s.owed (some x)
  | .waking _ => 1
  | .done => 0

/-- The task is held by `p`, and by nobody else. -/
structure Holds (s : Pausing Tid) (p : Holder Tid) : Prop where
  ready : s.ready = if p matches .queued then 1 else 0
  idle : ∀ i, p ≠ .worker i → s.workers i = .idle
  sound : ∀ i, p = .worker i → (s.workers i).Sound s.bodyFirst
  waking : ∀ x, (s.events x).isActivating = true ↔ p = .waking x
  /-- Nobody but the event of the pause owes anything, and that at most once. -/
  owes : ∀ x, s.owedBy p ≠ some x → s.owes x = 0
  missed : s.owedBy p = none → s.missed = 0
  owed : s.owed (s.owedBy p) ≤ 1
  waiting : ∀ x, p = .waiting x → s.owed (some x) = 1
  counter : s.counter = s.value p
  /-- What is not owed any more was notified by the thread of the event. -/
  reached : ∀ x, s.pausing p = some x → s.owed (some x) = 0 → (s.events x).isReached = true ∨
    ∃ i, p = .worker i ∧ (s.workers i = .check x ∨ s.workers i = .push x)
  paused : ∀ x, s.pausing p = some x → s.pausedOn = some x ∧ s.activated = 0
  resumed : s.pausing p = none → ∀ x, s.pausedOn = some x →
    s.activated = 1 ∧ (s.events x).isReached = true

theorem holds_initial (bodyFirst : Bool) : Holds (initial bodyFirst : Pausing Tid) .queued where
  ready := rfl
  idle := fun _ _ => rfl
  sound := fun i hi => by cases hi
  waking := fun x => iff_of_false (by simp [initial, EventPc.isActivating]) (by simp)
  owes := fun _ _ => rfl
  missed := fun _ => rfl
  owed := Nat.zero_le _
  waiting := fun x hx => by cases hx
  counter := rfl
  reached := fun x hx => by cases hx
  paused := fun x hx => by cases hx
  resumed := fun _ x hx => by cases hx

/-! ### Steps of a worker -/

namespace Holds

variable {s : Pausing Tid} {i : Tid} {p : Holder Tid}

/-- Nothing is owed. -/
theorem owed_eq_zero (h : Holds s p) (h0 : s.owed (s.owedBy p) = 0) :
    (∀ x, s.owes x = 0) ∧ s.missed = 0 := by
  cases hp : s.owedBy p with
  | none =>
      refine ⟨fun x => h.owes x ?_, h.missed hp⟩
      rw [hp]
      simp
  | some y =>
      rw [hp] at h0
      have hsum : s.owes y + s.missed = 0 := h0
      refine ⟨fun x => ?_, by omega⟩
      by_cases hx : x = y
      · rw [hx]
        omega
      · apply h.owes x
        rw [hp]
        simpa using Ne.symm hx

/-- Nothing is owed when no event may owe anything. -/
theorem owed_of_none (h : Holds s p) (hby : s.owedBy p = none) (x : Nat) :
    s.owed (some x) = 0 := by
  show s.owes x + s.missed = 0
  rw [h.owes x (by rw [hby]; simp), h.missed hby]

/-- The facts about a task with the worker `i` at the place `pc`. -/
theorem of_worker {pc : WorkerPc} (hpc : s.workers i = pc) (hready : s.ready = 0)
    (hidle : ∀ j, j ≠ i → s.workers j = .idle) (hsound : pc.Sound s.bodyFirst)
    (hwaking : ∀ x, (s.events x).isActivating = false)
    (howes : ∀ x, pc.owedBy ≠ some x → s.owes x = 0)
    (hmissed : pc.owedBy = none → s.missed = 0) (howed : s.owed pc.owedBy ≤ 1)
    (hcounter : s.counter = pc.value s.bodyFirst (s.owed pc.owedBy))
    (hreached : ∀ x, pc.pausing = some x → s.owed (some x) = 0 →
      (s.events x).isReached = true ∨ pc = .check x ∨ pc = .push x)
    (hpaused : ∀ x, pc.pausing = some x → s.pausedOn = some x ∧ s.activated = 0)
    (hresumed : pc.pausing = none → ∀ x, s.pausedOn = some x →
      s.activated = 1 ∧ (s.events x).isReached = true) :
    Holds s (.worker i) := by
  subst hpc
  exact {
    ready := hready
    idle := fun j hj => hidle j fun e => hj (e ▸ rfl)
    sound := by
      rintro j ⟨⟩
      exact hsound
    waking := fun x => iff_of_false (by simp [hwaking x]) (by simp)
    owes := howes
    missed := hmissed
    owed := howed
    waiting := fun x hx => by cases hx
    counter := hcounter
    reached := by
      intro x hx h0
      exact (hreached x hx h0).imp_right fun hr => ⟨i, rfl, hr⟩
    paused := hpaused
    resumed := hresumed }

theorem not_activating (h : Holds s p) (hp : ∀ x, p ≠ .waking x) (x : Nat) :
    (s.events x).isActivating = false := by
  rw [← Bool.not_eq_true, h.waking x]
  exact hp x

theorem idle_of_ne (h : Holds s (.worker i)) {j : Tid} (hj : j ≠ i) : s.workers j = .idle := by
  apply h.idle j
  rintro ⟨⟩
  exact hj rfl

variable [DecidableEq Tid]

/-- A step of the worker that has the task, to another place of the same pause or outside of a
pause. -/
theorem go (h : Holds s (.worker i)) {pc : WorkerPc} {c : Nat} {nt : Nat → Nat}
    (hsound : pc.Sound s.bodyFirst)
    (howed : pc.owedBy = (s.workers i).owedBy ∨ s.owed (s.workers i).owedBy = 0)
    (hcounter : c = pc.value s.bodyFirst (s.owed pc.owedBy))
    (hpausing : pc.pausing = (s.workers i).pausing)
    (hreached : ∀ x, pc.pausing = some x → s.owed (some x) = 0 →
      (s.events x).isReached = true ∨ pc = .check x ∨ pc = .push x) :
    Holds { s with counter := c, notified := nt, workers := update s.workers i pc }
      (.worker i) := by
  refine of_worker (update_self _ _ _) h.ready ?_ hsound (h.not_activating (by simp)) ?_ ?_ ?_
    hcounter hreached ?_ ?_
  · intro j hj
    exact (update_of_ne hj _ _).trans (h.idle_of_ne hj)
  · intro x hx
    rcases howed with he | h0
    · rw [he] at hx
      exact h.owes x hx
    · exact (h.owed_eq_zero h0).1 x
  · intro hn
    rcases howed with he | h0
    · rw [he] at hn
      exact h.missed hn
    · exact (h.owed_eq_zero h0).2
  · show s.owed pc.owedBy ≤ 1
    rcases howed with he | h0
    · rw [he]
      exact h.owed
    · obtain ⟨hzero, hm⟩ := h.owed_eq_zero h0
      cases pc.owedBy with
      | none => exact Nat.zero_le _
      | some x => simp [Pausing.owed, hzero x, hm]
  · intro x hx
    rw [hpausing] at hx
    exact h.paused x hx
  · intro hn
    rw [hpausing] at hn
    exact h.resumed hn

/-- All workers are idle after the worker that has the task leaves. -/
theorem idle_leave (h : Holds s (.worker i)) (j : Tid) : update s.workers i .idle j = .idle := by
  rw [update_apply]
  split_ifs with hj
  · rfl
  · apply h.idle j
    rintro ⟨⟩
    exact hj rfl

/-- The worker finishes the task. -/
theorem finish (h : Holds s (.worker i)) (howed : (s.workers i).owedBy = none)
    (hpausing : (s.workers i).pausing = none) (hcounter : s.counter = 0) :
    Holds (s.goto i .idle) .done where
  __ := h
  ready := h.ready
  idle := fun j _ => h.idle_leave j
  sound := fun j hj => by cases hj
  waking := fun x => (h.waking x).trans (iff_of_false (by simp) (by simp))
  owes := fun x _ => h.owes x (by show (s.workers i).owedBy ≠ some x; simp [howed])
  missed := fun _ => h.missed howed
  owed := Nat.zero_le _
  waiting := fun x hx => by cases hx
  counter := hcounter
  reached := fun x hx => by cases hx
  paused := fun x hx => by cases hx
  resumed := fun _ => h.resumed hpausing

/-- The worker leaves `execute_task` while an entry is not notified yet. -/
theorem leave {x : Nat} (h : Holds s (.worker i)) (hpc : s.workers i = .fetch (.leave x))
    (howed : s.owed (some x) = 1) :
    Holds (({ s with counter := 2 } : Pausing Tid).goto i .idle) (.waiting x) := by
  have hby : s.owedBy (.worker i) = some x := by
    show (s.workers i).owedBy = some x
    rw [hpc]
    rfl
  have hpausing : s.pausing (.worker i) = some x := by
    show (s.workers i).pausing = some x
    rw [hpc]
    rfl
  exact {
    ready := h.ready
    idle := fun j _ => h.idle_leave j
    sound := fun j hj => by cases hj
    waking := fun y => (h.waking y).trans (iff_of_false (by simp) (by simp))
    owes := by
      intro y hy
      apply h.owes y
      rw [hby]
      exact hy
    missed := fun hn => by cases hn
    owed := howed.le
    waiting := by
      rintro y ⟨⟩
      exact howed
    counter := by
      show 2 = 1 + s.owed (some x)
      rw [howed]
    reached := by
      rintro y ⟨⟩ h0
      have h0 : s.owed (some x) = 0 := h0
      omega
    paused := by
      rintro y ⟨⟩
      exact h.paused x hpausing
    resumed := fun hn => by cases hn }

/-- The worker activates the task. -/
theorem activate {x : Nat} (h : Holds s (.worker i)) (hpc : s.workers i = .activate (.leave x)) :
    Holds (s.activateTask.goto i .idle) .queued := by
  have hby : s.owedBy (.worker i) = none := by
    show (s.workers i).owedBy = none
    rw [hpc]
    rfl
  have hpausing : s.pausing (.worker i) = some x := by
    show (s.workers i).pausing = some x
    rw [hpc]
    rfl
  have hzero : s.owed (some x) = 0 := h.owed_of_none hby x
  obtain ⟨hcur, hact⟩ := h.paused x hpausing
  exact {
    ready := by
      show s.ready + 1 = 1
      rw [h.ready]
      rfl
    idle := fun j _ => h.idle_leave j
    sound := fun j hj => by cases hj
    waking := fun y => (h.waking y).trans (iff_of_false (by simp) (by simp))
    owes := fun y _ => h.owes y (by rw [hby]; simp)
    missed := fun _ => h.missed hby
    owed := Nat.zero_le _
    waiting := fun y hy => by cases hy
    counter := by
      have hc := h.counter
      simp only [value, hpc] at hc
      exact hc
    reached := fun y hy => by cases hy
    paused := fun y hy => by cases hy
    resumed := by
      intro _ y hy
      have hy : some x = some y := hcur.symm.trans hy
      cases hy
      refine ⟨?_, ?_⟩
      · show s.activated + 1 = 1
        rw [hact]
      · rcases h.reached x hpausing hzero with hr | ⟨j, ⟨⟩, hr⟩
        · exact hr
        · rw [hpc] at hr
          simp at hr }

/-- A worker takes the task from a ready queue. -/
theorem take (h : Holds s .queued) :
    Holds (({ s with ready := s.ready - 1 } : Pausing Tid).goto i
      (if s.bodyFirst then .body else .fetch .body)) (.worker i) := by
  refine of_worker (update_self _ _ _) ?_ ?_ ?_ (h.not_activating (by simp))
    (fun y _ => h.owes y (by simp [Pausing.owedBy])) (fun _ => h.missed rfl) ?_ ?_ ?_ ?_
    fun _ => h.resumed rfl
  · show s.ready - 1 = 0
    rw [h.ready]
    rfl
  · intro j hj
    exact (update_of_ne hj _ _).trans (h.idle j (by simp))
  · split_ifs with hb
    · trivial
    · exact Bool.eq_false_of_not_eq_true hb
  · split_ifs <;> exact Nat.zero_le _
  · show s.counter = _
    rw [h.counter]
    split_ifs with hb
    · show 1 = s.bodyFirst.toNat
      rw [hb]
      rfl
    · rfl
  · intro y hy
    split_ifs at hy <;> cases hy
  · intro y hy
    split_ifs at hy <;> cases hy

/-- `sg_pause` stores 1 into the counter of the pre-event. -/
theorem store {x : Nat} (h : Holds s (.worker i)) (hpc : s.workers i = .store x) :
    Holds (({ s with counter := 1, pausedOn := some x, activated := 0 } : Pausing Tid).goto i
      (.check x)) (.worker i) := by
  have hby : s.owedBy (.worker i) = none := by
    show (s.workers i).owedBy = none
    rw [hpc]
    rfl
  refine of_worker (update_self _ _ _) h.ready ?_ trivial (h.not_activating (by simp))
    (fun y _ => h.owes y (by rw [hby]; simp)) (fun _ => h.missed hby) (Nat.zero_le _) rfl ?_ ?_
    fun hn => by cases hn
  · intro j hj
    exact (update_of_ne hj _ _).trans (h.idle_of_ne hj)
  · rintro y ⟨⟩ _
    exact Or.inr (Or.inl rfl)
  · rintro y ⟨⟩
    exact ⟨rfl, rfl⟩

omit [DecidableEq Tid] in
/-- The new entry is owed by the thread of the event, or missed. -/
theorem owed_push (s : Pausing Tid) (x : Nat) :
    Pausing.owed { s with
      entries := update s.entries x (s.entries x + 1)
      missed := if (s.events x).isWalked then s.missed + 1 else s.missed } (some x) =
        s.owed (some x) + 1 := by
  simp only [Pausing.owed, Pausing.owes]
  cases s.events x <;> simp [EventPc.isWalked] <;> omega

omit [DecidableEq Tid] in
theorem owes_push_of_ne (s : Pausing Tid) {x y : Nat} (hy : y ≠ x) (m : Nat) :
    Pausing.owes { s with entries := update s.entries x (s.entries x + 1), missed := m } y =
      s.owes y := by
  simp only [Pausing.owes, update_of_ne hy]

/-- The push of `add_follower`. -/
theorem push {x : Nat} (h : Holds s (.worker i)) (hpc : s.workers i = .push x) :
    Holds (({ s with
      entries := update s.entries x (s.entries x + 1)
      missed := if (s.events x).isWalked then s.missed + 1 else s.missed } : Pausing Tid).goto i
        (.count x)) (.worker i) := by
  have hby : s.owedBy (.worker i) = none := by
    show (s.workers i).owedBy = none
    rw [hpc]
    rfl
  have hpausing : s.pausing (.worker i) = some x := by
    show (s.workers i).pausing = some x
    rw [hpc]
    rfl
  have hzero : s.owed (some x) = 0 := h.owed_of_none hby x
  have hone := owed_push s x
  rw [hzero] at hone
  refine of_worker (update_self _ _ _) h.ready ?_ trivial (h.not_activating (by simp)) ?_
    (fun hn => by cases hn) hone.le ?_ ?_ ?_ fun hn => by cases hn
  · intro j hj
    exact (update_of_ne hj _ _).trans (h.idle_of_ne hj)
  · intro y hy
    have hne : y ≠ x := fun e => hy (e ▸ rfl)
    refine (owes_push_of_ne s hne s.missed).trans (h.owes y ?_)
    rw [hby]
    simp
  · refine Eq.trans ?_ hone.symm
    have hc := h.counter
    simp only [value, hpc] at hc
    exact hc
  · rintro y ⟨⟩ h0
    exact absurd (hone.symm.trans h0) (by simp)
  · rintro y ⟨⟩
    exact h.paused x hpausing

omit [DecidableEq Tid] in
theorem fetched_eq {n : Nat} (hc : s.counter = n + 1) (hn : n ≤ 3) : s.fetched = n := by
  unfold Pausing.fetched counterSize
  rw [hc]
  omega

omit [DecidableEq Tid] in
theorem raised_eq (hc : s.counter ≤ 3) : s.raised = s.counter + 1 := by
  unfold Pausing.raised counterSize
  omega

/-- The `fetch_sub` of a worker that has the task. -/
theorem fetch {k : After} (h : Holds s (.worker i)) (hpc : s.workers i = .fetch k) :
    ∃ p', Holds (({ s with counter := s.fetched } : Pausing Tid).goto i
      (if s.fetched = 1 then .activate k else if s.fetched = 0 then .snapshot k else resume k))
        p' := by
  have hcounter := h.counter
  simp only [value, hpc] at hcounter
  -- a worker that does not end a pause takes the last unit
  have hlast : (∀ x, k ≠ .leave x) → s.fetched = 0 ∧ (WorkerPc.fetch k).owedBy = none ∧
      (WorkerPc.fetch k).pausing = none ∧ (WorkerPc.snapshot k).Sound s.bodyFirst := by
    intro hk
    have hsound := h.sound i rfl
    rw [hpc] at hsound
    cases k with
    | leave x => exact absurd rfl (hk x)
    | body => exact ⟨fetched_eq hcounter (by omega), rfl, rfl, hsound⟩
    | pause x | finish => exact ⟨fetched_eq hcounter (by omega), rfl, rfl, trivial⟩
  by_cases hk : ∀ x, k ≠ .leave x
  · obtain ⟨hzero, hby, hpausing, hsound⟩ := hlast hk
    rw [hzero]
    refine ⟨.worker i, h.go hsound (Or.inl ?_) rfl ?_ (fun x hx => by cases hx)⟩
    · rw [hpc, hby]
      rfl
    · rw [hpc, hpausing]
      rfl
  · push Not at hk
    obtain ⟨x, rfl⟩ := hk
    have howed : s.owed (some x) ≤ 1 := by
      have := h.owed
      simp only [Pausing.owedBy, hpc] at this
      exact this
    have hval : s.counter = (1 + s.owed (some x)) + 1 := by
      rw [hcounter]
      show 2 + s.owed (some x) = _
      omega
    have hfetched := fetched_eq hval (by omega)
    rw [hfetched]
    have hcases : s.owed (some x) = 0 ∨ s.owed (some x) = 1 := by omega
    rcases hcases with h0 | h1
    · rw [h0]
      refine ⟨.worker i, h.go trivial (Or.inr ?_) rfl ?_ ?_⟩
      · rw [hpc]
        exact h0
      · rw [hpc]
        rfl
      · rintro y ⟨⟩ _
        left
        have hpausing : s.pausing (.worker i) = some x := by
          show (s.workers i).pausing = some x
          rw [hpc]
          rfl
        rcases h.reached x hpausing h0 with hr | ⟨j, ⟨⟩, hr⟩
        · exact hr
        · rw [hpc] at hr
          simp at hr
    · rw [h1]
      exact ⟨_, h.leave hpc h1⟩

omit [DecidableEq Tid] in
theorem queued_of_ready (h : Holds s p) (hr : 0 < s.ready) : p = .queued := by
  by_contra hne
  have hready := h.ready
  have hzero : s.ready = 0 := by
    cases p with
    | queued => exact absurd rfl hne
    | worker j | waiting y | waking y | done => exact hready
  omega

omit [DecidableEq Tid] in
/-- A worker that runs the body has the task. -/
theorem worker_of_body (h : Holds s p) (hpc : s.workers i = .body) :
    p = .worker i ∧ s.counter = s.bodyFirst.toNat := by
  have hp : p = .worker i := by
    by_contra hne
    rw [h.idle i hne] at hpc
    cases hpc
  subst hp
  have hcounter := h.counter
  simp only [value, hpc] at hcounter
  exact ⟨rfl, hcounter⟩

/-- The body yields on an event. -/
theorem yield {x : Nat} (h : Holds s p) (hpc : s.workers i = .body) :
    Holds (s.goto i (if s.bodyFirst then .fetch (.pause x) else .store x)) (.worker i) := by
  obtain ⟨rfl, hcounter⟩ := h.worker_of_body hpc
  split_ifs with hb
  · refine h.go trivial (Or.inl (by rw [hpc]; rfl)) ?_ (by rw [hpc]; rfl) fun y hy => by cases hy
    rw [hcounter, hb]
    rfl
  · refine h.go trivial (Or.inl (by rw [hpc]; rfl)) ?_ (by rw [hpc]; rfl) fun y hy => by cases hy
    rw [hcounter, Bool.eq_false_of_not_eq_true hb]
    rfl

/-- The body ends. -/
theorem finishBody (h : Holds s p) (hpc : s.workers i = .body) :
    ∃ p', Holds (s.goto i (if s.bodyFirst then .fetch .finish else .idle)) p' := by
  obtain ⟨rfl, hcounter⟩ := h.worker_of_body hpc
  split_ifs with hb
  · refine ⟨.worker i, h.go trivial (Or.inl (by rw [hpc]; rfl)) ?_ (by rw [hpc]; rfl) ?_⟩
    · rw [hcounter, hb]
      rfl
    · intro y hy
      cases hy
  · refine ⟨.done, h.finish (by rw [hpc]; rfl) (by rw [hpc]; rfl) ?_⟩
    rw [hcounter, Bool.eq_false_of_not_eq_true hb]
    rfl

/-- The end of `notify_followers`. -/
theorem endLoop {k : After} (h : Holds s (.worker i)) (hpc : s.workers i = .loop [] k) :
    ∃ p', Holds (s.goto i (resume k)) p' := by
  have hcounter := h.counter
  simp only [value, hpc] at hcounter
  have hsound := h.sound i rfl
  rw [hpc] at hsound
  cases k with
  | leave x => exact hsound.elim
  | finish =>
      refine ⟨.done, h.finish ?_ ?_ hcounter⟩
      · rw [hpc]
        rfl
      · rw [hpc]
        rfl
  | body =>
      refine ⟨.worker i, h.go trivial (Or.inl ?_) ?_ ?_ (fun x hx => by cases hx)⟩
      · rw [hpc]
        rfl
      · show s.counter = s.bodyFirst.toNat
        rw [hcounter, show s.bodyFirst = false from hsound]
        rfl
      · rw [hpc]
        rfl
  | pause x =>
      refine ⟨.worker i, h.go trivial (Or.inl ?_) hcounter ?_ (fun x hx => by cases hx)⟩
      · rw [hpc]
        rfl
      · rw [hpc]
        rfl

/-- The check of `add_follower`. -/
theorem check {x : Nat} (h : Holds s (.worker i)) (hpc : s.workers i = .check x) :
    Holds (s.goto i (if (s.events x).isReached then .up x else .push x)) (.worker i) := by
  have hcounter := h.counter
  simp only [value, hpc] at hcounter
  have hby : s.owedBy (.worker i) = none := by
    show (s.workers i).owedBy = none
    rw [hpc]
    rfl
  have hzero : s.owed (some x) = 0 := h.owed_of_none hby x
  have hnone : s.owed (s.workers i).owedBy = 0 := by
    rw [hpc]
    rfl
  split_ifs with hr
  · refine h.go trivial (Or.inr hnone) ?_ ?_ ?_
    · show s.counter = 1 + s.owed (some x)
      rw [hzero]
      exact hcounter
    · rw [hpc]
      rfl
    · rintro y ⟨⟩ _
      exact Or.inl hr
  · refine h.go trivial (Or.inr hnone) hcounter ?_ ?_
    · rw [hpc]
      rfl
    · rintro y ⟨⟩ _
      exact Or.inr (Or.inr rfl)

/-- The increments of `add_follower` and of `up`, from the place `pc` to `pc'`. -/
theorem raise {x : Nat} {pc pc' : WorkerPc} (h : Holds s (.worker i)) (hpc : s.workers i = pc)
    (hby : pc.owedBy = some x ∧ pc.pausing = some x) (hby' : pc'.owedBy = some x ∧ pc'.pausing = some x)
    (hsound : pc'.Sound s.bodyFirst)
    (hvalue : ∀ n, pc'.value s.bodyFirst n = pc.value s.bodyFirst n + 1)
    (hlt : ∀ n ≤ 1, pc.value s.bodyFirst n ≤ 3) (hne : pc ≠ .check x ∧ pc ≠ .push x) :
    Holds (({ s with counter := s.raised } : Pausing Tid).goto i pc') (.worker i) := by
  have hcounter := h.counter
  simp only [value, hpc, hby.1] at hcounter
  have howed := h.owed
  simp only [Pausing.owedBy, hpc, hby.1] at howed
  refine h.go hsound (Or.inl ?_) ?_ ?_ ?_
  · rw [hpc, hby.1, hby'.1]
  · rw [raised_eq (hcounter ▸ hlt _ howed), hby'.1, hvalue, hcounter]
  · rw [hpc, hby.2, hby'.2]
  · intro y hy h0
    rw [hby'.2] at hy
    cases hy
    left
    have hpausing : s.pausing (.worker i) = some x := by
      show (s.workers i).pausing = some x
      rw [hpc, hby.2]
    rcases h.reached x hpausing h0 with hr | ⟨j, ⟨⟩, hr⟩
    · exact hr
    · rw [hpc] at hr
      exact (hr.elim hne.1 hne.2).elim

/-- Steps of a worker hand the task on. -/
theorem stepWorker {s' : Pausing Tid} (h : Holds s p) (hs : s.stepWorker i = some s') :
    ∃ p', Holds s' p' := by
  have hp : p = .worker i := by
    by_contra hne
    have hidle := h.idle i hne
    simp [Pausing.stepWorker, hidle] at hs
  subst hp
  have hsound := h.sound i rfl
  have hcounter := h.counter
  have howed := h.owed
  simp only [value] at hcounter
  unfold Pausing.stepWorker at hs
  cases hpc : s.workers i with
  | idle | body => simp [hpc] at hs
  | fetch k =>
      simp only [hpc, Option.some.injEq] at hs
      subst hs
      exact h.fetch hpc
  | activate k =>
      simp only [hpc, Option.some.injEq] at hs
      subst hs
      rw [hpc] at hsound
      cases k with
      | leave x => exact ⟨_, h.activate hpc⟩
      | body | pause x | finish => exact hsound.elim
  | snapshot k =>
      simp only [hpc, Option.some.injEq] at hs
      subst hs
      rw [hpc] at hsound hcounter
      refine ⟨.worker i, h.go ?_ (Or.inl ?_) hcounter ?_ (fun x hx => by cases hx)⟩
      · cases k <;> exact hsound
      · rw [hpc]
        rfl
      · rw [hpc]
        rfl
  | loop todo k =>
      cases todo with
      | nil =>
          simp only [hpc, Option.some.injEq] at hs
          subst hs
          exact h.endLoop hpc
      | cons f todo =>
          simp only [hpc, Option.some.injEq] at hs
          subst hs
          rw [hpc] at hsound hcounter
          refine ⟨.worker i, h.go ?_ (Or.inl ?_) hcounter ?_ (fun x hx => by cases hx)⟩
          · cases k <;> exact hsound
          · rw [hpc]
            rfl
          · rw [hpc]
            rfl
  | store x =>
      simp only [hpc, Option.some.injEq] at hs
      subst hs
      exact ⟨_, h.store hpc⟩
  | check x =>
      simp only [hpc, Option.some.injEq] at hs
      subst hs
      exact ⟨_, h.check hpc⟩
  | push x =>
      simp only [hpc, Option.some.injEq] at hs
      subst hs
      exact ⟨_, h.push hpc⟩
  | count x =>
      simp only [hpc, Option.some.injEq] at hs
      subst hs
      refine ⟨_, h.raise (x := x) hpc ⟨rfl, rfl⟩ ⟨rfl, rfl⟩ trivial ?_ ?_ (by simp)⟩
      · exact fun n => Nat.add_comm 1 n
      · intro n hn
        show n ≤ 3
        omega
  | up x =>
      simp only [hpc, Option.some.injEq] at hs
      subst hs
      refine ⟨_, h.raise (x := x) hpc ⟨rfl, rfl⟩ ⟨rfl, rfl⟩ trivial ?_ ?_ (by simp)⟩
      · intro n
        show 2 + n = 1 + n + 1
        omega
      · intro n hn
        show 1 + n ≤ 3
        omega

/-! ### Steps of the thread of an event -/

omit [DecidableEq Tid] in
theorem owes_event_of_ne {x y : Nat} {pc : EventPc} {c : Nat} (hy : y ≠ x) :
    Pausing.owes { s with counter := c, events := update s.events x pc } y = s.owes y := by
  simp only [Pausing.owes, update_of_ne hy]

omit [DecidableEq Tid] in
/-- A step of the thread of an event that does not touch the counter. -/
theorem eventKeep {x : Nat} {pc : EventPc} {nt : Nat → Nat} (h : Holds s p)
    (howes : Pausing.owes { s with notified := nt, events := update s.events x pc } x = s.owes x)
    (hact : pc.isActivating = (s.events x).isActivating)
    (hreached : (s.events x).isReached = true → pc.isReached = true) :
    Holds { s with notified := nt, events := update s.events x pc } p := by
  have hevents : ∀ y, (update s.events x pc y).isActivating = (s.events y).isActivating ∧
      ((s.events y).isReached = true → (update s.events x pc y).isReached = true) := by
    intro y
    rw [update_apply]
    split_ifs with hy
    · rw [hy]
      exact ⟨hact, hreached⟩
    · exact ⟨rfl, id⟩
  have howes' : ∀ y, Pausing.owes { s with notified := nt, events := update s.events x pc } y =
      s.owes y := by
    intro y
    by_cases hy : y = x
    · rw [hy]
      exact howes
    · simp only [Pausing.owes, update_of_ne hy]
  have howed : ∀ o, Pausing.owed { s with notified := nt, events := update s.events x pc } o =
      s.owed o := by
    intro o
    cases o with
    | none => rfl
    | some y => exact congrArg (· + s.missed) (howes' y)
  exact {
    ready := h.ready
    idle := h.idle
    sound := h.sound
    waking := fun y => (by rw [(hevents y).1] : _ ↔ _).trans (h.waking y)
    owes := fun y hy => (howes' y).trans (h.owes y hy)
    missed := h.missed
    owed := (howed _).trans_le h.owed
    waiting := fun y hy => (howed _).trans (h.waiting y hy)
    counter := by
      have hc := h.counter
      cases p with
      | queued | waking y | done => exact hc
      | waiting y =>
          show s.counter = 1 + Pausing.owed _ (some y)
          rw [howed]
          exact hc
      | worker i =>
          show s.counter = (s.workers i).value s.bodyFirst (Pausing.owed _ (s.workers i).owedBy)
          rw [howed]
          exact hc
    reached := by
      intro y hy h0
      rw [howed] at h0
      exact (h.reached y hy h0).imp_left (hevents y).2
    paused := h.paused
    resumed := by
      intro hn y hy
      obtain ⟨hone, hr⟩ := h.resumed hn y hy
      exact ⟨hone, (hevents y).2 hr⟩ }

omit [DecidableEq Tid] in
/-- Only the event of the pause has an entry to notify, and only one. -/
theorem owedBy_of_walk {x n : Nat} (h : Holds s p) (hx : s.events x = .walk (n + 1)) :
    s.owedBy p = some x ∧ n = 0 ∧ s.missed = 0 ∧ s.owed (some x) = 1 := by
  have howes : s.owes x = n + 1 := by simp only [Pausing.owes, hx]
  have hby : s.owedBy p = some x := by
    by_contra hne
    have := h.owes x hne
    omega
  have howed := h.owed
  rw [hby] at howed
  have hsum : s.owed (some x) = s.owes x + s.missed := rfl
  exact ⟨hby, by omega, by omega, by omega⟩

omit [DecidableEq Tid] in
/-- The thread of the event takes what it owes off the counter, while a worker has the task. -/
theorem eventTake {x c : Nat} {pc : EventPc} (h : Holds s (.worker i))
    (hx : s.events x = .walk 1)
    (hpc : pc = .walk 0 ∨ pc = .snapshot 0)
    (hcounter : c = (s.workers i).value s.bodyFirst 0) :
    Holds { s with counter := c, events := update s.events x pc } (.worker i) := by
  obtain ⟨hby, -, hmissed, -⟩ := h.owedBy_of_walk hx
  have hby : (s.workers i).owedBy = some x := hby
  have hevents : ∀ y, (update s.events x pc y).isActivating = false := by
    intro y
    rw [update_apply]
    split_ifs
    · rcases hpc with rfl | rfl <;> rfl
    · exact h.not_activating (by simp) y
  have hreached : ∀ y, (s.events y).isReached = true →
      (update s.events x pc y).isReached = true := by
    intro y hy
    rw [update_apply]
    split_ifs
    · rcases hpc with rfl | rfl <;> rfl
    · exact hy
  have hnow : (update s.events x pc x).isReached = true := by
    rw [update_self]
    rcases hpc with rfl | rfl <;> rfl
  have hzero : Pausing.owes { s with counter := c, events := update s.events x pc } x = 0 := by
    simp only [Pausing.owes, update_self]
    rcases hpc with rfl | rfl <;> rfl
  have howed : Pausing.owed { s with counter := c, events := update s.events x pc }
      (s.workers i).owedBy = 0 := by
    rw [hby]
    show Pausing.owes _ x + s.missed = 0
    rw [hzero, hmissed]
  refine of_worker rfl h.ready (fun j hj => h.idle_of_ne hj) (h.sound i rfl) hevents ?_ ?_
    (howed.trans_le (Nat.zero_le _)) ?_ ?_ h.paused ?_
  · intro y hy
    have hne : y ≠ x := fun e => hy (e ▸ hby)
    exact (owes_event_of_ne hne).trans (h.owes y hy)
  · intro hn
    rw [hby] at hn
    cases hn
  · rw [howed]
    exact hcounter
  · intro y hy _
    by_cases hyx : y = x
    · exact Or.inl (hyx ▸ hnow)
    · -- the worker is in the pause on `x`
      have hpausing : (s.workers i).pausing = some x := by
        rcases WorkerPc.owedBy_eq_some hby with hw | hw | hw <;> rw [hw] <;> rfl
      exact absurd (Option.some.inj (hy.symm.trans hpausing)) hyx
  · intro hn y hy
    obtain ⟨hone, hr⟩ := h.resumed hn y hy
    exact ⟨hone, hreached y hr⟩

omit [DecidableEq Tid] in
/-- The thread of the event takes the last unit but one, while the task waits. -/
theorem eventWake {x : Nat} (h : Holds s (.waiting x)) (hx : s.events x = .walk 1) :
    Holds { s with counter := 1, events := update s.events x (.activate 0) } (.waking x) := by
  obtain ⟨-, -, hmissed, -⟩ := h.owedBy_of_walk hx
  exact {
    ready := h.ready
    idle := fun j _ => h.idle j (by simp)
    sound := fun j hj => by cases hj
    waking := by
      intro y
      show (update s.events x (.activate 0) y).isActivating = true ↔ _
      rw [update_apply]
      split_ifs with hy
      · exact iff_of_true rfl (by rw [hy])
      · refine iff_of_false ?_ ?_
        · rw [h.not_activating (by simp) y]
          simp
        · rintro ⟨⟩
          exact hy rfl
    owes := by
      intro y _
      by_cases hy : y = x
      · simp only [Pausing.owes, hy, update_self]
      · exact (owes_event_of_ne hy).trans (h.owes y fun e => hy (Option.some.inj e).symm)
    missed := fun _ => hmissed
    owed := Nat.zero_le _
    waiting := fun y hy => by cases hy
    counter := rfl
    reached := by
      rintro y ⟨⟩ _
      left
      show (update s.events x (.activate 0) x).isReached = true
      rw [update_self]
      rfl
    paused := by
      rintro y ⟨⟩
      exact h.paused x rfl
    resumed := fun hn => by cases hn }

omit [DecidableEq Tid] in
/-- The thread of the event activates the task. -/
theorem eventActivate {x n : Nat} (h : Holds s (.waking x)) (hx : s.events x = .activate n) :
    Holds (s.activateTask.eventGoto x (.walk n)) .queued := by
  have hn : n = 0 := by
    have := h.owes x (by simp [Pausing.owedBy])
    simp only [Pausing.owes, hx] at this
    exact this
  obtain ⟨hcur, hact⟩ := h.paused x rfl
  exact {
    ready := by
      show s.ready + 1 = 1
      rw [h.ready]
      rfl
    idle := fun j _ => h.idle j (by simp)
    sound := fun j hj => by cases hj
    waking := by
      intro y
      refine iff_of_false ?_ (by simp)
      show ¬ (update s.events x (.walk n) y).isActivating = true
      rw [update_apply]
      split_ifs with hy
      · simp [EventPc.isActivating]
      · rw [h.waking y]
        rintro ⟨⟩
        exact hy rfl
    owes := by
      intro y _
      by_cases hy : y = x
      · subst hy
        show Pausing.owes _ y = 0
        simp only [Pausing.owes, eventGoto, update_self]
        exact hn
      · show Pausing.owes _ y = 0
        simp only [Pausing.owes, eventGoto, update_of_ne hy]
        exact h.owes y (by simp [Pausing.owedBy])
    missed := fun _ => h.missed rfl
    owed := Nat.zero_le _
    waiting := fun y hy => by cases hy
    counter := h.counter
    reached := fun y hy => by cases hy
    paused := fun y hy => by cases hy
    resumed := by
      intro _ y hy
      have hy : some x = some y := hcur.symm.trans hy
      cases hy
      refine ⟨?_, ?_⟩
      · show s.activated + 1 = 1
        rw [hact]
      · show (update s.events x (.walk n) x).isReached = true
        rw [update_self]
        rfl }

omit [DecidableEq Tid] in
/-- The `fetch_sub` of the thread of an event. -/
theorem eventFetch {x n : Nat} (h : Holds s p) (hx : s.events x = .walk (n + 1))
    (hup : ∀ i, s.workers i ≠ .up x) :
    ∃ p', Holds (({ s with counter := s.fetched } : Pausing Tid).eventGoto x
      (if s.fetched = 1 then .activate n else if s.fetched = 0 then .snapshot n else .walk n))
        p' := by
  obtain ⟨hby, rfl, -, hone⟩ := h.owedBy_of_walk hx
  have hcounter := h.counter
  cases p with
  | queued | waking y | done => cases hby
  | waiting y =>
      cases hby
      have hc : s.counter = 1 + 1 := by
        rw [hcounter]
        show 1 + s.owed (some x) = _
        rw [hone]
      rw [fetched_eq hc (by omega)]
      exact ⟨_, h.eventWake hx⟩
  | worker i =>
      simp only [value] at hcounter
      rw [show (s.workers i).owedBy = some x from hby, hone] at hcounter
      rcases WorkerPc.owedBy_eq_some hby with hw | hw | hw
      · -- the counter is not incremented for the entry yet, and the pre-event is reached
        rw [hw] at hcounter
        rw [fetched_eq (s := s) (n := 0) hcounter (by omega)]
        refine ⟨_, h.eventTake hx (Or.inr rfl) ?_⟩
        rw [hw]
        rfl
      · exact absurd hw (hup i)
      · rw [hw] at hcounter
        rw [fetched_eq (s := s) (n := 2) hcounter (by omega)]
        refine ⟨_, h.eventTake hx (Or.inl rfl) ?_⟩
        rw [hw]
        rfl

omit [DecidableEq Tid] in
/-- Steps of the thread of an event hand the task on. -/
theorem stepEvent {x : Nat} {s' : Pausing Tid} (h : Holds s p)
    (hup : s.NotBeforeUp (.event x)) (hs : s.stepEvent x = some s') : ∃ p', Holds s' p' := by
  unfold Pausing.stepEvent at hs
  split at hs
  · cases hs
  · next hx =>
      cases hs
      refine ⟨p, h.eventKeep ?_ ?_ fun _ => rfl⟩
      · simp [Pausing.owes, hx]
      · rw [hx]
        rfl
  · cases hs
  · next n hx =>
      cases hs
      exact h.eventFetch hx (hup (by rw [hx]; rfl))
  · next n hx =>
      cases hs
      have hp : p = .waking x := by
        rw [← h.waking x, hx]
        rfl
      subst hp
      exact ⟨_, h.eventActivate hx⟩
  · next n hx =>
      cases hs
      refine ⟨p, h.eventKeep ?_ ?_ fun _ => rfl⟩
      · simp [Pausing.owes, hx]
      · rw [hx]
        rfl
  · next n hx =>
      cases hs
      refine ⟨p, h.eventKeep ?_ ?_ fun _ => rfl⟩
      · simp [Pausing.owes, hx]
      · rw [hx]
        rfl
  · next f todo n hx =>
      cases hs
      refine ⟨p, h.eventKeep ?_ ?_ fun _ => rfl⟩
      · simp [Pausing.owes, hx]
      · rw [hx]
        rfl

/-! ### Runs -/

/-- Whatever happens, one and only one holder has the task. -/
theorem step {a : PauseAction Tid} {s' : Pausing Tid} (h : Holds s p) (hup : s.NotBeforeUp a)
    (hs : s.step a = some s') : ∃ p', Holds s' p' := by
  cases a with
  | run i => exact h.stepWorker hs
  | event x => exact h.stepEvent hup hs
  | take i =>
      simp only [Pausing.step] at hs
      split at hs
      · next hc =>
          cases hs
          obtain rfl := h.queued_of_ready hc.2
          exact ⟨_, h.take⟩
      · cases hs
  | yield i x =>
      simp only [Pausing.step] at hs
      split at hs
      · next hc =>
          cases hs
          exact ⟨_, h.yield hc.1⟩
      · cases hs
  | finish i =>
      simp only [Pausing.step] at hs
      split at hs
      · next hc =>
          cases hs
          exact h.finishBody hc
      · cases hs
  | reach x =>
      simp only [Pausing.step] at hs
      split_ifs at hs with hx
      cases hs
      refine ⟨p, h.eventKeep ?_ ?_ fun _ => rfl⟩
      · simp [Pausing.owes, hx]
      · rw [hx]
        rfl
  | depend j =>
      cases hs
      refine ⟨p, ?_⟩
      unfold Pausing.stepDepend
      split_ifs
      · exact { h with }
      · exact h
      · exact { h with }

end Holds

end Pausing

end RedGrapes.Runtime
