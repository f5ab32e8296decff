/-
RedGrapes/Runtime/Counters.lean

`Event::is_reached` (`scheduler/event.tpp`) tests the counter of an event for zero.
The counter stands for the event's own unit and one unit for every follower entry
that points to it; in every run that takes no counter past `2^16 - 1` it is zero
exactly when all of them have been notified (`is_reached_iff`).

The counter is a `uint16_t`.  A task that submits `2^16 - 1` children finds the
counter of its post-event at zero while it is still running (`reached_while_running`).
-/
import RedGrapes.Runtime.Barrier

namespace RedGrapes.Runtime

open Function Machine

variable {V : Type}

namespace Core

/-- `is_reached`. -/
def isReached (c : Core V) (e : EventPtr) : Bool := c.counter e == 0

/-- The unit of the event itself and all follower entries counted at it are
notified, each entry once. -/
def AllNotified (c : Core V) (e : EventPtr) : Prop :=
  c.units e = 0 ∧ ∀ d ∈ c.followers, d.dst = e → d.counted = true → d.notified = 1

end Core

/-- An entry is notified at most once. -/
theorem Core.EdgeOk.notified_le {c : Core V} {i : Nat} {d : Follower} (h : c.EdgeOk i d) :
    d.notified ≤ 1 := by
  rw [h.notified]
  exact Bool.toNat_le _

theorem Events.pending_eq_zero_iff {c : Core V} (hE : Events c) (e : EventPtr) :
    c.pending e = 0 ↔ ∀ d ∈ c.followers, d.dst = e → d.counted = true → d.notified = 1 := by
  unfold Core.pending
  rw [List.countP_eq_zero]
  refine forall₂_congr fun d hd => ?_
  obtain ⟨i, hi⟩ := List.mem_iff_getElem?.mp hd
  have hle := (hE.edge i d hi).notified_le
  simp only [Follower.waits, Bool.and_eq_true, beq_iff_eq, not_and]
  constructor
  · intro h hdst hcounted
    have := h ⟨hdst, hcounted⟩
    omega
  · rintro h ⟨hdst, hcounted⟩ hzero
    have := h hdst hcounted
    omega

section Reached

variable {Tid : Type} [DecidableEq Tid]

/-- Counters do not lie: as long as no counter goes past its range, an event is
reached if and only if its own unit and all its incoming edges are notified. -/
theorem is_reached_iff [Fintype Tid] {main : Tid} {prog : Body V} {store : Resource → V}
    {s : State Tid V} (hs : Reaches step NoWrap (State.initial main prog store) s) (e : EventPtr) :
    s.core.isReached e = true ↔ s.core.AllNotified e := by
  have hE := (Inv.of_reaches hs).events
  unfold Core.isReached Core.AllNotified
  rw [← hE.pending_eq_zero_iff e, beq_iff_eq, hE.counter e]
  exact Nat.add_eq_zero_iff

end Reached

/-- In the run of `parentWithEvent` the parent's post-event waits for its own unit,
its child and its event. -/
theorem is_reached_iff_parent_with_event :
    ∃ s : State (Fin 3) Nat, s.core.followers.length = 2 ∧
      ∀ e, s.core.isReached e = true ↔ s.core.AllNotified e := by
  have hrun : ((exec step NoWrap (parentWithEventRun 0 1 2)
      (State.initial 0 parentWithEvent fun _ => 0)).map fun s => s.core.followers.length) =
        some 2 := by
    decide +kernel
  obtain ⟨s, hs, h⟩ := Option.map_eq_some_iff.mp hrun
  exact ⟨s, h, is_reached_iff (Reaches.refl.of_exec hs)⟩

/-! ### A counter that wraps -/

/-- Any step. -/
abbrev anyStep (_ : State (Fin 2) Nat) (_ : Action (Fin 2)) : Prop := True

/-- The root task `0` is being executed by thread 1, and the events of tasks to
come are untouched. -/
structure Submitting (s : State (Fin 2) Nat) (n : Nat) (k : Body Nat) : Prop where
  threads : s.threads 1 = [.body (some 0)]
  code : s.core.code (some 0) = k
  next : s.core.next = n + 1
  counter : s.core.counter (.post 0) = (n + 1) % counterSize
  fresh : ∀ t, n + 1 ≤ t → s.core.counter (.post t) = 1
  stage : s.core.stage 0 = .run

/-- A worker begins to execute the root task with body `b`. -/
theorem submitting_start (b : Body Nat) :
    ∃ s, Reaches step anyStep (State.initial 0 (.emplace [] b .done) fun _ => 0) s ∧
      Submitting s 0 b := by
  have hrun : ((exec step anyStep (.replicate 3 (.run 0) ++ .call 1 (.popEmplaced 0) ::
      .replicate 7 (.run 1)) (State.initial 0 (.emplace [] b .done) fun _ => 0)).map fun s =>
        (s.threads 1, s.core.code (some 0), s.core.next, s.core.stage 0)) =
          some ([.body (some 0)], b, 1, .run) := by
    cbv
  have hcounter : ∀ t, ((exec step anyStep (.replicate 3 (.run 0) ++ .call 1 (.popEmplaced 0) ::
      .replicate 7 (.run 1)) (State.initial 0 (.emplace [] b .done) fun _ => 0)).map fun s =>
        s.core.counter (.post t)) = some 1 := by
    intro t
    cbv
  obtain ⟨s, hs, h⟩ := Option.map_eq_some_iff.mp hrun
  simp only [hs, Option.map_some, Option.some.injEq] at hcounter
  simp only [Prod.mk.injEq] at h
  obtain ⟨hth, hcode, hnext, hstage⟩ := h
  exact ⟨s, Reaches.refl.of_exec hs, hth, hcode, hnext, hcounter 0, fun t _ => hcounter t, hstage⟩

/-- Submitting a child takes five steps and counts one unit at the parent's
post-event. -/
theorem submitting_child {s : State (Fin 2) Nat} {n : Nat} {k : Body Nat}
    (h : Submitting s n (.emplace [] .done k)) :
    ∃ s', Reaches step anyStep s s' ∧ Submitting s' (n + 1) k := by
  have hres : (s.core.create (some 0) [] .done k).resourcesOf s.core.next = [] := by
    simp [Core.resourcesOf, Core.create, TaskInfo.user, ResourceUser.build_nil, ResourceUser.empty]
  have hfresh : s.core.counter (.post s.core.next) = 1 := h.fresh _ h.next.ge
  obtain ⟨c₁, hc₁⟩ : ∃ c, c = s.core.create (some 0) [] .done k := ⟨_, rfl⟩
  obtain ⟨c₂, hc₂⟩ : ∃ c, c = c₁.pushFollower (.post s.core.next) (.post 0) := ⟨_, rfl⟩
  obtain ⟨c₃, hc₃⟩ : ∃ c, c = c₂.count c₁.followers.length (.post 0) := ⟨_, rfl⟩
  obtain ⟨c₄, hc₄⟩ : ∃ c, c = { c₃.setStage s.core.next .emplaced with
    emplaced := c₃.emplaced ++ [s.core.next] } := ⟨_, rfl⟩
  obtain ⟨c₅, hc₅⟩ : ∃ c, c = { c₄ with handles := c₄.handles ++ [Handle.mk s.core.next .live] } :=
    ⟨_, rfl⟩
  have h1 : step s (.run 1) = some ⟨c₁, update s.threads 1
      [.submit .follower s.core.next (some 0)]⟩ := by
    simp [step, h.threads, Core.trans, Core.transBody, h.code, hc₁]
  have h2 : step ⟨c₁, update s.threads 1 [.submit .follower s.core.next (some 0)]⟩ (.run 1) =
      some ⟨c₂, update s.threads 1 [.submit (.count c₁.followers.length) s.core.next (some 0)]⟩ := by
    simp [step, Core.trans, Core.transSubmit, hc₂, hc₁, Core.create, hfresh]
  have h3 : step ⟨c₂, update s.threads 1
        [.submit (.count c₁.followers.length) s.core.next (some 0)]⟩ (.run 1) =
      some ⟨c₃, update s.threads 1 [.submit (.users []) s.core.next (some 0)]⟩ := by
    have hres₂ : c₂.resourcesOf s.core.next = [] := by
      rw [hc₂, hc₁]
      exact hres
    simp [step, Core.trans, Core.transSubmit, hc₃, hres₂]
  have h4 : step ⟨c₃, update s.threads 1 [.submit (.users []) s.core.next (some 0)]⟩ (.run 1) =
      some ⟨c₄, update s.threads 1 [.submit .future s.core.next (some 0)]⟩ := by
    simp [step, Core.trans, Core.transSubmit, hc₄]
  have h5 : step ⟨c₄, update s.threads 1 [.submit .future s.core.next (some 0)]⟩ (.run 1) =
      some ⟨c₅, update s.threads 1 [.body (some 0)]⟩ := by
    simp [step, Core.trans, Core.transSubmit, hc₅]
  have hcounter : c₅.counter =
      update s.core.counter (.post 0) ((s.core.counter (.post 0) + 1) % counterSize) := by
    simp [hc₅, hc₄, hc₃, hc₂, hc₁, Core.setStage, Core.count, Core.up, Core.pushFollower, Core.create]
  have hne : (0 : Nat) ≠ s.core.next := by
    rw [h.next]
    omega
  refine ⟨_, ((((Reaches.refl.tail trivial h1).tail trivial h2).tail trivial h3).tail
    trivial h4).tail trivial h5, ?_, ?_, ?_, ?_, ?_, ?_⟩
  · simp
  · simp [hc₅, hc₄, hc₃, hc₂, hc₁, Core.setStage, Core.count, Core.up, Core.pushFollower, Core.create,
      hne]
  · simp [hc₅, hc₄, hc₃, hc₂, hc₁, Core.setStage, Core.count, Core.up, Core.pushFollower, Core.create,
      h.next]
  · show c₅.counter (.post 0) = _
    rw [hcounter, update_self, h.counter, Nat.mod_add_mod]
  · intro t ht
    show c₅.counter (.post t) = 1
    have hpost : EventPtr.post t ≠ .post 0 := by
      intro e
      injection e with e
      omega
    rw [hcounter, update_of_ne hpost]
    exact h.fresh t (by omega)
  · simp [hc₅, hc₄, hc₃, hc₂, hc₁, Core.setStage, Core.count, Core.up, Core.pushFollower, Core.create,
      hne, h.stage]

theorem submitting_children (m : Nat) {s : State (Fin 2) Nat} {n : Nat}
    (h : Submitting s n (manyTasks m)) :
    ∃ s', Reaches step anyStep s s' ∧ Submitting s' (n + m) .done := by
  induction m generalizing s n with
  | zero => exact ⟨s, .refl, h⟩
  | succ m ih =>
      obtain ⟨s₁, hs₁, h₁⟩ := submitting_child h
      obtain ⟨s₂, hs₂, h₂⟩ := ih h₁
      rw [Nat.add_right_comm, Nat.add_assoc] at h₂
      exact ⟨s₂, hs₁.trans hs₂, h₂⟩

/-- A root task that has submitted `2^16 - 1` children, none of which has run, is
still running; its post-event looks reached. -/
theorem reached_while_running :
    ∃ s, Reaches step anyStep
        (State.initial 0 (.emplace [] (manyTasks (counterSize - 1)) .done) fun _ => 0) s ∧
      s.core.stage 0 = .run ∧ s.core.isReached (.post 0) = true ∧ ¬ s.core.AllNotified (.post 0) := by
  obtain ⟨s₁, hs₁, h₁⟩ := submitting_start (manyTasks (counterSize - 1))
  obtain ⟨s, hs, h⟩ := submitting_children _ h₁
  refine ⟨s, hs₁.trans hs, h.stage, ?_, ?_⟩
  · unfold Core.isReached
    rw [h.counter, Nat.zero_add, show counterSize - 1 + 1 = counterSize from rfl, Nat.mod_self]
    rfl
  · rintro ⟨hunits, -⟩
    simp [Core.units, h.stage, Stage.postUnits] at hunits

end RedGrapes.Runtime
