/-
RedGrapes/Runtime/Barrier.lean

`RedGrapes::barrier` waits until `root_space->empty()`, that is, until
`task_count` of the root space is zero.  A root task leaves this count when it
is freed, hence after its post-event, which comes after those of all its
descendants and after all external events made below it.

`task_count` is an `unsigned int`: as long as it does not wrap it is the number
of root tasks that are not freed, and an empty root space means that everything
is done (`barrier_complete`).  With `2^32` root tasks in flight it is zero
again (`barrier_after_wrap`).
-/
import RedGrapes.Runtime.Removal
import RedGrapes.Runtime.Nesting

namespace RedGrapes.Runtime

open Function Machine

variable {V : Type}

/-! ### Counting root tasks -/

namespace Core

/-- A root task that is not freed. -/
def inRoot (c : Core V) (t : Nat) : Bool := (c.info t).space == none && c.freed t == 0

/-- The root task that the frame is about to submit can be counted. -/
def rootFits (c : Core V) : Frame → Bool
  | .body none =>
      match c.code none with
      | .emplace _ _ _ => decide (c.taskCount none + 1 < taskCountSize)
      | _ => true
  | _ => true

end Core

/-- `task_count` of the root space, and the tasks that make external events. -/
structure RootCount (c : Core V) : Prop where
  count : c.taskCount none = (List.range c.next).countP c.inRoot
  small : c.taskCount none < taskCountSize
  event : ∀ x, x < c.nextEvent → c.extTask x < c.next

section Step

variable {c c' : Core V} {old new : List Frame} {M : Multiset Frame} {t : Nat}

/-- Submitting a task counts it if it is a root task. -/
theorem countP_create (hI : Inv c M) (hR : Removal c M) (cur : Option Nat) (calls : List BuilderCall)
    (child k : Body V) :
    (List.range (c.next + 1)).countP (c.create cur calls child k).inRoot =
      (List.range c.next).countP c.inRoot + (cur == none).toNat := by
  have hold : (List.range c.next).countP (c.create cur calls child k).inRoot =
      (List.range c.next).countP c.inRoot := by
    refine List.countP_congr fun t ht => ?_
    have hne : t ≠ c.next := (List.mem_range.mp ht).ne
    simp [Core.inRoot, Core.create, hne]
  have hfree : c.freed c.next = 0 := by
    refine hR.alive_of_stage hI.events ?_
    rw [(hI.events.born c.next).mpr le_rfl]
    simp
  have hnew : (c.create cur calls child k).inRoot c.next = (cur == none) := by
    simp [Core.inRoot, Core.create, hfree]
  rw [List.range_succ, List.countP_append, hold, List.countP_singleton, hnew]
  cases cur <;> rfl

/-- Freeing a root task takes it off the count. -/
theorem countP_freeTask (hlt : t < c.next) (hfree : c.freed t = 0) :
    (List.range c.next).countP (c.freeTask t).inRoot + ((c.info t).space == none).toNat =
      (List.range c.next).countP c.inRoot := by
  have h := countP_range_congr (p := (c.freeTask t).inRoot) (q := c.inRoot) hlt fun i hi => by
    simp [Core.inRoot, Core.freeTask, hi]
  have h1 : c.inRoot t = ((c.info t).space == none) := by
    simp [Core.inRoot, hfree]
  have h2 : (c.freeTask t).inRoot t = false := by
    simp [Core.inRoot, Core.freeTask]
  rw [h1, h2] at h
  simpa using h

theorem RootCount.step (h : RootCount c) (hI : Inv c (↑old + M)) (hR : Removal c (↑old + M))
    (hm : Move c old c' new) (hfit : ∀ f ∈ old, c.rootFits f = true) : RootCount c' := by
  cases hm
  case emplaceRoot calls child k hcode =>
    have hf := hfit (.body none) (by simp)
    simp only [Core.rootFits, hcode, decide_eq_true_eq] at hf
    refine ⟨?_, ?_, fun x hx => Nat.lt_succ_of_lt (h.event x hx)⟩
    · show update c.taskCount none ((c.taskCount none + 1) % taskCountSize) none = _
      rw [update_self, Nat.mod_eq_of_lt hf, h.count]
      exact (countP_create hI hR none calls child k).symm
    · show update c.taskCount none ((c.taskCount none + 1) % taskCountSize) none < _
      rw [update_self]
      exact Nat.mod_lt _ (by decide)
  case emplaceChild u calls child k hcode =>
    have htc : (c.create (some u) calls child k).taskCount none = c.taskCount none := by
      simp [Core.create]
    refine ⟨?_, htc ▸ h.small, fun x hx => Nat.lt_succ_of_lt (h.event x hx)⟩
    rw [htc, h.count]
    exact (countP_create hI hR (some u) calls child k).symm
  case createEvent t k hcode =>
    have hst : c.stage t = .run := hI.ledger.stage_head List.mem_cons_self
    have ht : t < c.next := hI.events.lt_next (by rw [hst]; simp)
    refine ⟨h.count, h.small, fun x hx => ?_⟩
    show update c.extTask c.nextEvent t x < c.next
    by_cases e : x = c.nextEvent
    · rw [e, update_self]
      exact ht
    · rw [update_of_ne e]
      have : x < c.nextEvent + 1 := hx
      exact h.event x (by omega)
  case free t =>
    obtain ⟨hgone, hfree⟩ := hR.gone_of_free (t := t) (by simp)
    have hdone : c.stage t = .done := hI.events.done_of_reached (by rw [hgone]; simp)
    have hcount := countP_freeTask (hI.events.lt_next (by rw [hdone]; simp)) hfree
    have hsmall := h.small
    have htc : ∀ k, (c.freeTask t).taskCount none = k → k ≤ c.taskCount none →
        k = (List.range c.next).countP (c.freeTask t).inRoot → RootCount (c.freeTask t) :=
      fun k hk hle heq => ⟨hk.trans heq, hk ▸ hle.trans_lt h.small, h.event⟩
    cases hsp : (c.info t).space with
    | none =>
        rw [hsp, ← h.count] at hcount
        simp only [beq_self_eq_true, Bool.toNat_true] at hcount
        refine htc (c.taskCount none - 1) ?_ (Nat.sub_le _ _) (by omega)
        show update c.taskCount (c.info t).space _ none = _
        rw [hsp, update_self, show c.taskCount none + (taskCountSize - 1) =
          c.taskCount none - 1 + taskCountSize by simp only [taskCountSize]; omega,
          Nat.add_mod_right, Nat.mod_eq_of_lt (by omega)]
    | some u =>
        rw [hsp, ← h.count] at hcount
        refine htc (c.taskCount none) ?_ le_rfl (by simpa using hcount.symm)
        show update c.taskCount (c.info t).space _ none = _
        rw [hsp, update_of_ne (by simp)]
  all_goals exact ⟨h.count, h.small, h.event⟩

/-- Every task is below a root task. -/
theorem Inv.exists_root (hI : Inv c M) (ht : t < c.next) :
    ∃ a, a < c.next ∧ (c.info a).space = none ∧ c.AncestorOrSelf a t := by
  induction t using Nat.strong_induction_on with
  | _ t ih =>
      rcases hsp : (c.info t).space with - | u
      · exact ⟨t, ht, hsp, .refl⟩
      · have hu := (hI.lists.parent t u ht hsp).1
        obtain ⟨a, ha, hroot, hanc⟩ := ih u hu (hu.trans ht)
        exact ⟨a, ha, hroot, hanc.tail ⟨ht, hsp⟩⟩

/-- An empty root space means that all post-events are reached. -/
theorem RootCount.reached (h : RootCount c) (hI : Inv c M) (hR : Removal c M)
    (hempty : c.taskCount none = 0) (ht : t < c.next) : c.phase (.post t) ≠ .open := by
  obtain ⟨a, ha, hroot, hanc⟩ := hI.exists_root ht
  refine hI.reached_of_ancestor hanc ?_
  have hnone := List.countP_eq_zero.mp (h.count.symm.trans hempty) a (List.mem_range.mpr ha)
  have hfreed : 0 < c.freed a := by
    simp only [Core.inRoot, hroot] at hnone
    simp at hnone
    omega
  rw [(hR.gone_of_freed hfreed).1]
  simp

end Step

theorem RootCount.initial (prog : Body V) (store : Resource → V) :
    RootCount (Core.initial prog store) :=
  ⟨rfl, by simp [Core.initial, taskCountSize], by simp [Core.initial]⟩

/-! ### The barrier -/

variable {Tid : Type} [DecidableEq Tid]

/-- No event counter and not `task_count` of the root space goes past its
range. -/
def RootFits (s : State Tid V) (a : Action Tid) : Prop :=
  NoWrap s a ∧ match a with
    | .run i => (s.threads i).head?.all s.core.rootFits = true
    | .call _ _ => True

instance (s : State Tid V) : ∀ a : Action Tid, Decidable (RootFits s a)
  | .run i => inferInstanceAs (Decidable
      (NoWrap s (.run i) ∧ (s.threads i).head?.all s.core.rootFits = true))
  | .call i a => inferInstanceAs (Decidable (NoWrap s (.call i a) ∧ True))

/-- The barrier is complete: when the root space is empty, every task has run
and reached its post-event, and every external event has been notified. -/
theorem barrier_complete [Fintype Tid] {main : Tid} {prog : Body V} {store : Resource → V}
    {s : State Tid V} (hs : Reaches step RootFits (State.initial main prog store) s)
    (hempty : s.core.taskCount none = 0) :
    (∀ t, t < s.core.next → s.core.stage t = .done ∧ s.core.counter (.post t) = 0) ∧
    ∀ x, x < s.core.nextEvent → s.core.extStage x = .fired ∧ s.core.counter (.external x) = 0 := by
  have h : Inv s.core (frames s.threads) ∧ Removal s.core (frames s.threads) ∧
      RootCount s.core := by
    refine Reaches.invariant (I := fun s : State Tid V => Inv s.core (frames s.threads) ∧
      Removal s.core (frames s.threads) ∧ RootCount s.core) ?_ ?_ hs
    · rw [frames_initial]
      exact ⟨Inv.initial prog store, Removal.initial prog store, RootCount.initial prog store⟩
    · rintro s a s' ⟨hI, hR, hC⟩ ⟨hw, hfit⟩ hstep
      obtain ⟨old, new, M, h1, h2, hm, htop⟩ := step_pool hstep
      rw [h1] at hI hR
      rw [h2]
      refine ⟨hI.step (fun f hf e he => hw.upsOn_lt (htop f hf) he) hm, hR.step hI hm,
        hC.step hI hR hm fun f hf => ?_⟩
      obtain ⟨i, rfl, hi⟩ := htop f hf
      simp only [Option.mem_def.mp hi, Option.all_some] at hfit
      exact hfit
  obtain ⟨hI, hR, hC⟩ := h
  have hzero : ∀ e, s.core.phase e ≠ .open → s.core.counter e = 0 := by
    intro e he
    have := (hI.events.open_iff e).not.mp he
    omega
  refine ⟨fun t ht => ?_, fun x hx => ?_⟩
  · have hopen := hC.reached hI hR hempty ht
    exact ⟨hI.events.done_of_reached hopen, hzero _ hopen⟩
  · -- the event precedes the post-event of the task that made it
    have hpost := hC.reached hI hR hempty (hC.event x hx)
    have hext := hzero _ (hI.reached_of_edge hpost (hI.lists.event x hx))
    have hcount := hI.events.counter (.external x)
    rw [hext, Core.units] at hcount
    refine ⟨?_, hext⟩
    by_contra hne
    rw [if_neg hne] at hcount
    omega

/-- A task that makes an external event and submits a child. -/
def parentWithEvent : Body Nat := .emplace [] (.createEvent (.emplace [] .done .done)) .done

def parentWithEventRun (m i j : Fin 3) : List (Action (Fin 3)) :=
  List.flatten [.replicate 3 (.run m), .call m (.destroyFuture 0) :: .replicate 5 (.run m),
    .call i (.popEmplaced 0) :: .replicate 20 (.run i),
    .call j (.popEmplaced 1) :: .replicate 20 (.run j), .call i (.fire 0) :: .replicate 10 (.run i)]

theorem barrier_complete_parent_with_event :
    ∃ s : State (Fin 3) Nat, s.core.next = 2 ∧ s.core.nextEvent = 1 ∧
      (∀ t, t < s.core.next → s.core.stage t = .done ∧ s.core.counter (.post t) = 0) ∧
      ∀ x, x < s.core.nextEvent → s.core.extStage x = .fired ∧ s.core.counter (.external x) = 0 := by
  have hrun : ((exec step RootFits (parentWithEventRun 0 1 2)
      (State.initial 0 parentWithEvent fun _ => 0)).map fun s =>
        (s.core.next, s.core.nextEvent, s.core.taskCount none)) = some (2, 1, 0) := by
    decide +kernel
  obtain ⟨s, hs, h⟩ := Option.map_eq_some_iff.mp hrun
  simp only [Prod.mk.injEq] at h
  exact ⟨s, h.1, h.2.1, barrier_complete (Reaches.refl.of_exec hs) h.2.2⟩

/-! ### A barrier that is left early -/

/-- `n` root tasks without accesses and with empty bodies. -/
def manyTasks : Nat → Body Nat
  | 0 => .done
  | n + 1 => .emplace [] .done (manyTasks n)

/-- Submitting one of them takes three steps of the main thread. -/
theorem submit_one {s : State (Fin 1) Nat} {k : Body Nat} (hth : s.threads 0 = [.body none])
    (hcode : s.core.code none = .emplace [] .done k) :
    ∃ s' : State (Fin 1) Nat, Reaches step NoWrap s s' ∧ s'.threads 0 = [.body none] ∧
      s'.core.code none = k ∧ s'.core.next = s.core.next + 1 ∧
      s'.core.taskCount none = (s.core.taskCount none + 1) % taskCountSize ∧
      ∀ t, s'.core.stage t = if t = s.core.next then .emplaced else s.core.stage t := by
  have hres : (s.core.create none [] .done k).resourcesOf s.core.next = [] := by
    simp [Core.resourcesOf, Core.create, TaskInfo.user, ResourceUser.build_nil, ResourceUser.empty]
  -- the states after each of the steps
  obtain ⟨c₁, hc₁⟩ : ∃ c, c = s.core.create none [] .done k := ⟨_, rfl⟩
  obtain ⟨c₂, hc₂⟩ : ∃ c, c = { c₁.setStage s.core.next .emplaced with
    emplaced := c₁.emplaced ++ [s.core.next] } := ⟨_, rfl⟩
  obtain ⟨c₃, hc₃⟩ : ∃ c, c = { c₂ with handles := c₂.handles ++ [Handle.mk s.core.next .live] } :=
    ⟨_, rfl⟩
  have h1 : step s (.run 0) = some ⟨c₁, update s.threads 0
      [.submit (.users []) s.core.next none]⟩ := by
    simp [step, hth, Core.trans, Core.transBody, hcode, hres, hc₁]
  have h2 : step ⟨c₁, update s.threads 0 [.submit (.users []) s.core.next none]⟩ (.run 0) =
      some ⟨c₂, update s.threads 0 [.submit .future s.core.next none]⟩ := by
    simp [step, Core.trans, Core.transSubmit, hc₂]
  have h3 : step ⟨c₂, update s.threads 0 [.submit .future s.core.next none]⟩ (.run 0) =
      some ⟨c₃, update s.threads 0 [.body none]⟩ := by
    simp [step, Core.trans, Core.transSubmit, hc₃]
  refine ⟨_, ((Reaches.refl.tail ?_ h1).tail ?_ h2).tail ?_ h3, ?_, ?_, ?_, ?_, fun t => ?_⟩
  · simp [NoWrap, hth, Frame.upsOn]
  · simp [NoWrap, Frame.upsOn]
  · simp [NoWrap, Frame.upsOn]
  · simp
  · simp [hc₃, hc₂, hc₁, Core.setStage, Core.create]
  · simp [hc₃, hc₂, hc₁, Core.setStage, Core.create]
  · simp [hc₃, hc₂, hc₁, Core.setStage, Core.create]
  · by_cases e : t = s.core.next <;> simp [hc₃, hc₂, hc₁, Core.setStage, Core.create, e]

theorem submit_many (n : Nat) {s₀ s : State (Fin 1) Nat} (hs : Reaches step NoWrap s₀ s)
    (hth : s.threads 0 = [.body none]) (hcode : s.core.code none = manyTasks n)
    (hsmall : s.core.taskCount none < taskCountSize) :
    ∃ s' : State (Fin 1) Nat, Reaches step NoWrap s₀ s' ∧ s'.core.code none = .done ∧
      s'.core.next = s.core.next + n ∧
      s'.core.taskCount none = (s.core.taskCount none + n) % taskCountSize ∧
      ∀ t, s'.core.stage t = if s.core.next ≤ t ∧ t < s.core.next + n then .emplaced
        else s.core.stage t := by
  induction n generalizing s with
  | zero =>
      refine ⟨s, hs, hcode, rfl, ?_, fun t => ?_⟩
      · rw [add_zero, Nat.mod_eq_of_lt hsmall]
      · rw [if_neg (by omega)]
  | succ n ih =>
      obtain ⟨s₁, hs₁, hth₁, hcode₁, hnext₁, hcount₁, hstage₁⟩ := submit_one hth hcode
      obtain ⟨s', hs', hdone, hnext', hcount', hstage'⟩ := ih (hs.trans hs₁) hth₁ hcode₁
        (hcount₁ ▸ Nat.mod_lt _ (by decide))
      refine ⟨s', hs', hdone, by omega, ?_, fun t => ?_⟩
      · rw [hcount', hcount₁, Nat.mod_add_mod, add_assoc, add_comm 1 n]
      · rw [hstage', hstage₁, hnext₁]
        split_ifs <;> first | rfl | omega

/-- After `2^32` root tasks, none of which has run, the root space looks
empty. -/
theorem barrier_after_wrap :
    ∃ s : State (Fin 1) Nat,
      Reaches step NoWrap (State.initial 0 (manyTasks taskCountSize) fun _ => 0) s ∧
      s.core.code none = .done ∧ s.core.taskCount none = 0 ∧
      0 < s.core.next ∧ s.core.stage 0 = .emplaced ∧ s.core.counter (.post 0) ≠ 0 := by
  have hrefl : Reaches step NoWrap (State.initial 0 (manyTasks taskCountSize) fun _ => 0)
    (State.initial (0 : Fin 1) (manyTasks taskCountSize) fun _ => 0) := .refl
  obtain ⟨s, hs, hcode, hnext, hcount, hstage⟩ :=
    submit_many taskCountSize hrefl rfl rfl (by simp [State.initial, Core.initial, taskCountSize])
  have hpos : 0 < 0 + taskCountSize := by decide
  have hst : s.core.stage 0 = .emplaced := by
    rw [hstage]
    exact if_pos ⟨Nat.zero_le _, hpos⟩
  refine ⟨s, hs, hcode, ?_, ?_, hst, ?_⟩
  · rw [hcount]
    show (0 + taskCountSize) % taskCountSize = 0
    rw [zero_add, Nat.mod_self]
  · rw [hnext]
    exact hpos
  · have hI := Inv.of_reaches hs
    have := hI.events.counter_pos (e := .post 0) (by simp [Core.units, hst, Stage.postUnits])
    omega

end RedGrapes.Runtime
