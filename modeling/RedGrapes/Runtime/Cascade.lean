/-
RedGrapes/Runtime/Cascade.lean

`EventPtr::notify` and `Event::notify_followers` (`scheduler/event.tpp`) as one thread
runs them, with all that they set off: the notification of an event whose counter
falls to zero notifies its followers, through post-events, the post-events of parents and
external events.

The counters and lists of the events form a network as in `Lib.Drain`, so that the
cascade ends, and what it does to the counters does not depend on the order in which
the follower lists are run through.  The calls made on the way can be read off the
counters: `activate_task` is called for the tasks whose pre-event falls to one, and a
task is freed when the second of its post- and result-get-event is done
(`Ran`, `cascade_confluent`).

The memory of a freed task is not modelled here.
-/
import RedGrapes.Lib.Drain
import RedGrapes.Runtime.UpdateGraph

namespace RedGrapes.Runtime

open Function Drain

/-! ### The graph and the state -/

/-- The events and what does not change while they are notified.  `followers` are the
entries of the follower list in push order, `wakerId` the field `waker_id`, `creator` the
task of an external event, `space` the task of whose child space a task is, `none` for
the root space. -/
structure EventGraph where
  followers : EventPtr → List EventPtr
  wakerId : EventPtr → Int
  creator : Nat → Nat
  space : Nat → Option Nat
  events : Finset EventPtr
  finite : ∀ e, e ∉ events → followers e = []

/-- What is done on the way: `state.fetch_sub(1)` with the value it returned,
`scheduler_p->wake`, `activate_task`, `delete_from_resources`, `TaskFreeCtx::cv.notify`,
`notify_followers`, `free_task`. -/
inductive Effect
  | fetchSub (e : EventPtr) (old : Nat)
  | wake (t : Nat) (id : Int)
  | activate (t : Nat)
  | delete (t : Nat)
  | notifyParser
  | loop (e : EventPtr)
  | free (t : Nat)
deriving DecidableEq

/-- What `notify` changes, and a log, the latest effect first. -/
structure Cascade where
  counter : EventPtr → UInt16
  removalCountdown : Nat → UInt8
  taskCount : Option Nat → UInt32
  log : List Effect

/-- `parserID`, `-2` as a `uint8_t`. -/
def parserID : Int := 254

namespace Cascade

/-- The counters as numbers. -/
def units (s : Cascade) (e : EventPtr) : Nat := (s.counter e).toNat

def record (s : Cascade) (x : Effect) : Cascade := { s with log := x :: s.log }

/-- `state.fetch_sub(1)`. -/
def fetchSub (s : Cascade) (e : EventPtr) : Cascade :=
  { s with
    counter := update s.counter e (s.counter e - 1)
    log := .fetchSub e (s.units e) :: s.log }

/-- A ready pre-event activates its task unless the caller has claimed it. -/
def activate (s : Cascade) (claimed : Bool) : EventPtr → Cascade
  | .pre t => if claimed then s else s.record (.activate t)
  | _ => s

end Cascade

namespace EventGraph

variable (g : EventGraph)

/-- The order in which `notify_followers` runs through the list. -/
def order (e : EventPtr) : List EventPtr := (g.followers e).reverse

/-- `if(waker_id >= 0) task->scheduler_p->wake(waker_id)`. -/
def wake (e : EventPtr) (s : Cascade) : Cascade :=
  if 0 ≤ g.wakerId e then s.record (.wake (e.task g.creator) (g.wakerId e)) else s

/-- What is done for a reached event before its followers are notified. -/
def beforeLoop (e : EventPtr) (s : Cascade) : Cascade :=
  match e with
  | .post t => s.record (.delete t)
  | .resultSet _ => if g.wakerId e = parserID then s.record .notifyParser else s
  | _ => s

/-- `free_task`; only the root space has depth zero. -/
def freeTask (t : Nat) (s : Cascade) : Cascade :=
  let count := s.taskCount (g.space t) - 1
  let s := { s with taskCount := update s.taskCount (g.space t) count, log := .free t :: s.log }
  if count = 0 ∧ g.space t = none then s.record .notifyParser else s

/-- The second one of post-event and result-get-event destroys the task. -/
def countDown (t : Nat) (s : Cascade) : Cascade :=
  let old := s.removalCountdown t
  let s := { s with removalCountdown := update s.removalCountdown t (old - 1) }
  if old = 1 then g.freeTask t s else s

/-- What is done for a reached event after its followers are notified. -/
def afterLoop (e : EventPtr) (s : Cascade) : Cascade :=
  match e with
  | .post t => g.countDown t s
  | .resultGet t => g.countDown t s
  | _ => s

/-- `EventPtr::notify` with its result.  `fuel` bounds the depth of the recursion;
`none` means that it was not enough. -/
def notify : Nat → EventPtr → Bool → Cascade → Option (Bool × Cascade)
  | 0, _, _, _ => none
  | fuel + 1, e, claimed, s =>
      let old := s.units e
      let s := s.fetchSub e
      if 2 < old then some (false, s)
      else
        let s := g.wake e s
        if old = 2 then some (true, s.activate claimed e)
        else if old = 1 then
          let s := (g.beforeLoop e s).record (.loop e)
          match (g.order e).foldlM (fun s f => (notify fuel f false s).map Prod.snd) s with
          | none => none
          | some s => some (false, g.afterLoop e s)
        else some (false, s)

end EventGraph

/-! ### What a cascade has done -/

/-- The event whose followers are notified. -/
def Effect.loop? : Effect → Option EventPtr
  | .loop e => some e
  | _ => none

/-- The task whose removal countdown an event counts down. -/
def EventPtr.removes : EventPtr → Option Nat
  | .post t => some t
  | .resultGet t => some t
  | _ => none

/-- How often the events `l` count down the removal of `t`. -/
def leaves (l : List EventPtr) (t : Nat) : Nat := l.countP fun e => e.removes == some t

theorem leaves_append (l l' : List EventPtr) (t : Nat) :
    leaves (l ++ l') t = leaves l t + leaves l' t :=
  List.countP_append

/-- Of `n` countdowns that start at `k`, those that take the last unit. -/
def lastUnits (k : UInt8) (n : Nat) : Nat :=
  (List.range n).countP fun j => k - UInt8.ofNat j == 1

theorem lastUnits_add (k : UInt8) (m n : Nat) :
    lastUnits k (m + n) = lastUnits k m + lastUnits (k - UInt8.ofNat m) n := by
  unfold lastUnits
  rw [List.range_add, List.countP_append, List.countP_map]
  congr 1
  refine List.countP_congr fun j _ => ?_
  rw [Function.comp_apply, UInt8.ofNat_add, sub_add_eq_sub_sub]

/-- The notifications of `todo` have led from `s` to `s'`; on the way the events `fired`
were reached, in this order, and `new` was logged. -/
structure Ran (g : EventGraph) (s : Cascade) (todo : List EventPtr) (s' : Cascade)
    (fired : List EventPtr) (new : List Effect) : Prop where
  drained : Drained g.order s.units todo s'.units fired
  log : s'.log = new ++ s.log
  positive : ∀ e old, .fetchSub e old ∈ new → old ≠ 0
  loops : new.filterMap Effect.loop? = fired.reverse
  activates : ∀ t, new.count (.activate t) =
    if 2 ≤ s.units (.pre t) ∧ s'.units (.pre t) ≤ 1 then 1 else 0
  countdown : ∀ t, s'.removalCountdown t = s.removalCountdown t - UInt8.ofNat (leaves fired t)
  frees : ∀ t, new.count (.free t) = lastUnits (s.removalCountdown t) (leaves fired t)

namespace Ran

variable {g : EventGraph} {s s₁ s₂ : Cascade} {todo todo₁ todo₂ fired fired₁ fired₂ : List EventPtr}
  {new new₁ new₂ : List Effect} {e : EventPtr}

theorem nil : Ran g s [] s [] [] where
  drained := .nil
  log := rfl
  positive := by simp
  loops := rfl
  activates t := by
    rw [if_neg (by omega)]
    rfl
  countdown t := by simp [leaves]
  frees t := rfl

theorem append (h₁ : Ran g s todo₁ s₁ fired₁ new₁) (h₂ : Ran g s₁ todo₂ s₂ fired₂ new₂) :
    Ran g s (todo₁ ++ todo₂) s₂ (fired₁ ++ fired₂) (new₂ ++ new₁) where
  drained := h₁.drained.append h₂.drained
  log := by rw [h₂.log, h₁.log, List.append_assoc]
  positive e old hmem := by
    rcases List.mem_append.mp hmem with hmem | hmem
    · exact h₂.positive e old hmem
    · exact h₁.positive e old hmem
  loops := by rw [List.filterMap_append, h₂.loops, h₁.loops, List.reverse_append]
  activates t := by
    -- the counter falls below two in one of the parts only
    have hb₁ := h₁.drained.balance (.pre t)
    have hb₂ := h₂.drained.balance (.pre t)
    rw [List.count_append, h₁.activates, h₂.activates]
    split_ifs <;> omega
  countdown t := by
    rw [h₂.countdown, h₁.countdown, leaves_append, UInt8.ofNat_add, sub_add_eq_sub_sub]
  frees t := by
    rw [List.count_append, h₂.frees, h₁.frees, h₁.countdown, Nat.add_comm, ← lastUnits_add,
      leaves_append]

end Ran

/-! ### The parts of a notification -/

/-- Effects that leave no trace in what `Ran` says. -/
def Effect.quiet : Effect → Bool
  | .wake _ _ => true
  | .delete _ => true
  | .notifyParser => true
  | _ => false

/-- Only quiet effects were logged. -/
def Noted (s s' : Cascade) : Prop :=
  ∃ q : List Effect, (∀ x ∈ q, x.quiet = true) ∧ s' = { s with log := q ++ s.log }

section Parts

variable {g : EventGraph} {s s₁ s₂ s₃ : Cascade} {e : EventPtr} {fired : List EventPtr}
  {new : List Effect}

theorem Noted.refl : Noted s s := ⟨[], by simp, rfl⟩

theorem Noted.record {x : Effect} (hx : x.quiet = true) : Noted s (s.record x) :=
  ⟨[x], by simpa using hx, rfl⟩

theorem Noted.trans (h₁ : Noted s s₁) (h₂ : Noted s₁ s₂) : Noted s s₂ := by
  obtain ⟨q₁, hq₁, rfl⟩ := h₁
  obtain ⟨q₂, hq₂, rfl⟩ := h₂
  refine ⟨q₂ ++ q₁, fun x hx => ?_, by rw [List.append_assoc]⟩
  rcases List.mem_append.mp hx with hx | hx
  · exact hq₂ x hx
  · exact hq₁ x hx

theorem noted_wake : Noted s (g.wake e s) := by
  unfold EventGraph.wake
  split_ifs
  · exact .record rfl
  · exact .refl

theorem noted_beforeLoop : Noted s (g.beforeLoop e s) := by
  unfold EventGraph.beforeLoop
  split
  · exact .record rfl
  · split_ifs
    · exact .record rfl
    · exact .refl
  · exact .refl

theorem quiet_count {q : List Effect} (hq : ∀ x ∈ q, x.quiet = true) {x : Effect}
    (hx : x.quiet = false) : q.count x = 0 := by
  rw [List.count_eq_zero]
  intro hmem
  rw [hq x hmem] at hx
  cases hx

/-- What quiet effects are not. -/
theorem quiet_facts {q : List Effect} (hq : ∀ x ∈ q, x.quiet = true) :
    (∀ x old, Effect.fetchSub x old ∉ q) ∧ q.filterMap Effect.loop? = [] ∧
      (∀ t, q.count (.activate t) = 0) ∧ ∀ t, q.count (.free t) = 0 := by
  refine ⟨fun x old hmem => ?_, ?_, fun t => quiet_count hq rfl, fun t => quiet_count hq rfl⟩
  · cases hq _ hmem
  · rw [List.filterMap_eq_nil_iff]
    intro x hx
    have := hq x hx
    cases x <;> simp_all [Effect.quiet, Effect.loop?]

/-- The counters after `fetch_sub`. -/
theorem units_fetchSub (h : 0 < s.units e) :
    (s.fetchSub e).units = update s.units e (s.units e - 1) := by
  funext x
  have hle : (1 : UInt16) ≤ s.counter e := by
    rw [UInt16.le_iff_toNat_le]
    exact h
  by_cases hx : x = e
  · subst hx
    rw [update_self]
    show (update s.counter x (s.counter x - 1) x).toNat = _
    rw [update_self, UInt16.toNat_sub_of_le _ _ hle]
    rfl
  · rw [update_of_ne hx]
    show (update s.counter e (s.counter e - 1) x).toNat = _
    rw [update_of_ne hx]
    rfl

/-- A notification that leaves a unit. -/
theorem Ran.take (h : 2 ≤ s.units e) (hcounter : s₁.counter = (s.fetchSub e).counter)
    (hremoval : s₁.removalCountdown = s.removalCountdown) (hlog : s₁.log = new ++ s.log)
    (hpos : ∀ x old, .fetchSub x old ∈ new → old ≠ 0) (hloops : new.filterMap Effect.loop? = [])
    (hact : ∀ t, new.count (.activate t) = if e = .pre t ∧ s.units e = 2 then 1 else 0)
    (hfree : ∀ t, new.count (.free t) = 0) : Ran g s [e] s₁ [] new := by
  have hunits : s₁.units = update s.units e (s.units e - 1) := by
    rw [← units_fetchSub (by omega)]
    funext x
    unfold Cascade.units
    rw [hcounter]
  exact {
    drained := by
      rw [hunits]
      exact .keep h
    log := hlog
    positive := hpos
    loops := hloops
    activates := by
      intro t
      rw [hact, hunits]
      refine if_congr ?_ rfl rfl
      by_cases he : EventPtr.pre t = e
      · rw [← he, update_self]
        simp only [true_and]
        rw [he]
        omega
      · rw [update_of_ne he]
        constructor
        · rintro ⟨heq, -⟩
          exact absurd heq.symm he
        · omega
    countdown := by
      intro t
      rw [hremoval]
      simp [leaves]
    frees := by
      intro t
      rw [hfree]
      rfl }

/-- More than one unit is left. -/
theorem Ran.keep (h : 2 < s.units e) : ∃ new, Ran g s [e] (s.fetchSub e) [] new := by
  refine ⟨[.fetchSub e (s.units e)], .take (by omega) rfl rfl rfl ?_ rfl ?_ (by simp)⟩
  · simp
    omega
  · intro t
    rw [if_neg (by omega)]
    simp

/-- One unit is left; a pre-event activates its task. -/
theorem Ran.ready (h : s.units e = 2) :
    ∃ new, Ran g s [e] ((g.wake e (s.fetchSub e)).activate false e) [] new := by
  obtain ⟨q, hq, hwake⟩ : Noted (s.fetchSub e) (g.wake e (s.fetchSub e)) := noted_wake
  obtain ⟨hsub, hloop, hact, hfree⟩ := quiet_facts hq
  rw [hwake]
  by_cases hpre : ∃ t, e = .pre t
  · obtain ⟨t, rfl⟩ := hpre
    refine ⟨.activate t :: (q ++ [.fetchSub (.pre t) 2]), .take h.ge rfl rfl ?_ ?_ ?_ ?_ ?_⟩
    · simp [Cascade.activate, Cascade.record, Cascade.fetchSub, h]
    · intro x old hmem
      simp [hsub] at hmem
      omega
    · rw [List.filterMap_cons_none rfl, List.filterMap_append, hloop]
      rfl
    · intro t'
      by_cases ht : t = t'
      · subst ht
        simp [hact, h]
      · simp [ht, hact]
    · intro t'
      simp [hfree]
  · have hsame : ∀ s : Cascade, s.activate false e = s := by
      intro s
      cases e <;> simp_all [Cascade.activate]
    rw [hsame]
    refine ⟨q ++ [.fetchSub e 2], .take h.ge rfl rfl ?_ ?_ ?_ ?_ ?_⟩
    · simp [Cascade.fetchSub, h]
    · intro x old hmem
      simp [hsub] at hmem
      omega
    · rw [List.filterMap_append, hloop]
      rfl
    · intro t'
      rw [if_neg fun heq => hpre ⟨t', heq.1⟩]
      simp [hact]
    · intro t'
      simp [hfree]

theorem freeTask_spec (u : Nat) :
    ∃ q, (∀ x ∈ q, x.quiet = true) ∧ (g.freeTask u s).log = q ++ .free u :: s.log ∧
      (g.freeTask u s).counter = s.counter ∧
      (g.freeTask u s).removalCountdown = s.removalCountdown := by
  simp only [EventGraph.freeTask]
  split_ifs
  · exact ⟨[.notifyParser], by simp [Effect.quiet], rfl, rfl, rfl⟩
  · exact ⟨[], by simp, rfl, rfl, rfl⟩

/-- One countdown; the last unit frees the task. -/
theorem countDown_spec (u : Nat) :
    ∃ new, (g.countDown u s).log = new ++ s.log ∧ (g.countDown u s).counter = s.counter ∧
      (∀ x old, Effect.fetchSub x old ∉ new) ∧ new.filterMap Effect.loop? = [] ∧
      (∀ t, new.count (.activate t) = 0) ∧
      (g.countDown u s).removalCountdown =
        update s.removalCountdown u (s.removalCountdown u - 1) ∧
      ∀ t, new.count (.free t) = if u = t ∧ s.removalCountdown u = 1 then 1 else 0 := by
  simp only [EventGraph.countDown]
  split_ifs with hone
  · obtain ⟨q, hq, hlog, hcounter, hremoval⟩ := freeTask_spec (g := g) (u := u)
      (s := { s with removalCountdown := update s.removalCountdown u (s.removalCountdown u - 1) })
    obtain ⟨hsub, hloop, hact, hfree⟩ := quiet_facts hq
    refine ⟨q ++ [.free u], ?_, hcounter, ?_, ?_, ?_, hremoval, ?_⟩
    · rw [hlog, List.append_assoc]
      rfl
    · simp [hsub]
    · rw [List.filterMap_append, hloop]
      rfl
    · intro t
      simp [hact]
    · intro t
      by_cases ht : u = t
      · subst ht
        simp [hone, hfree]
      · simp [ht, hfree]
  · exact ⟨[], rfl, rfl, by simp, rfl, by simp, rfl, by simp [hone]⟩

/-- The countdown of the event's task, if it has one. -/
theorem afterLoop_spec :
    ∃ new, (g.afterLoop e s).log = new ++ s.log ∧ (g.afterLoop e s).counter = s.counter ∧
      (∀ x old, Effect.fetchSub x old ∉ new) ∧ new.filterMap Effect.loop? = [] ∧
      (∀ t, new.count (.activate t) = 0) ∧
      (∀ t, (g.afterLoop e s).removalCountdown t =
        s.removalCountdown t - UInt8.ofNat (leaves [e] t)) ∧
      ∀ t, new.count (.free t) = lastUnits (s.removalCountdown t) (leaves [e] t) := by
  cases hu : e.removes with
  | none =>
      have hsame : g.afterLoop e s = s := by
        cases e <;> simp_all [EventPtr.removes, EventGraph.afterLoop]
      rw [hsame]
      exact ⟨[], rfl, rfl, by simp, rfl, by simp, by simp [leaves, hu],
        by simp [leaves, hu, lastUnits]⟩
  | some u =>
      have hdown : g.afterLoop e s = g.countDown u s := by
        cases e <;> simp_all [EventPtr.removes, EventGraph.afterLoop]
      have hleaves : ∀ t, leaves [e] t = if u = t then 1 else 0 := by
        intro t
        simp [leaves, hu, List.countP_singleton]
      obtain ⟨new, hlog, hcounter, hsub, hloop, hact, hremoval, hfree⟩ :=
        countDown_spec (g := g) (s := s) u
      rw [hdown]
      refine ⟨new, hlog, hcounter, hsub, hloop, hact, fun t => ?_, fun t => ?_⟩
      · rw [hremoval, hleaves]
        by_cases ht : u = t
        · subst ht
          simp
        · rw [update_of_ne (Ne.symm ht), if_neg ht]
          simp
      · rw [hfree, hleaves]
        by_cases ht : u = t
        · subst ht
          simp [lastUnits, List.countP_singleton]
        · simp [ht, lastUnits]

theorem units_afterLoop : (g.afterLoop e s).units = s.units := by
  obtain ⟨_, -, hcounter, -⟩ := afterLoop_spec (g := g) (s := s) (e := e)
  unfold Cascade.units
  rw [hcounter]

/-- The state in which the followers of a reached event are notified. -/
theorem beforeLoop_spec (h : s.units e = 1)
    (hs₁ : s₁ = (g.beforeLoop e (g.wake e (s.fetchSub e))).record (.loop e)) :
    ∃ q, (∀ x ∈ q, x.quiet = true) ∧ s₁.log = (.loop e :: (q ++ [.fetchSub e 1])) ++ s.log ∧
      s₁.units = update s.units e 0 ∧ s₁.removalCountdown = s.removalCountdown := by
  obtain ⟨q, hq, hnoted⟩ : Noted (s.fetchSub e) (g.beforeLoop e (g.wake e (s.fetchSub e))) :=
    noted_wake.trans noted_beforeLoop
  rw [hnoted] at hs₁
  refine ⟨q, hq, ?_, ?_, ?_⟩
  · rw [hs₁]
    simp [Cascade.record, Cascade.fetchSub, h]
  · have hunits : s₁.units = (s.fetchSub e).units := by
      rw [hs₁]
      rfl
    rw [hunits, units_fetchSub (by omega), h]
  · rw [hs₁]
    rfl

/-- A reached event: its followers are notified, then its task may be freed. -/
theorem Ran.fire (h : s.units e = 1)
    (hs₁ : s₁ = (g.beforeLoop e (g.wake e (s.fetchSub e))).record (.loop e))
    (hrun : Ran g s₁ (g.order e) s₂ fired new) :
    ∃ new', Ran g s [e] (g.afterLoop e s₂) (e :: fired) new' := by
  obtain ⟨q, hq, hlog₁, hunits₁, hremoval₁⟩ := beforeLoop_spec h hs₁
  obtain ⟨hsub, hloop, hact, hfree⟩ := quiet_facts hq
  obtain ⟨last, hlog, -, hsub', hloop', hact', hremoval', hfree'⟩ :=
    afterLoop_spec (g := g) (s := s₂) (e := e)
  have hleaves : ∀ t, leaves (e :: fired) t = leaves fired t + leaves [e] t := by
    intro t
    rw [← leaves_append]
    exact (List.perm_append_singleton e fired).symm.countP_eq _
  refine ⟨last ++ (new ++ .loop e :: (q ++ [.fetchSub e 1])), ?_⟩
  exact {
    drained := by
      rw [units_afterLoop]
      exact .fire h (hunits₁ ▸ hrun.drained)
    log := by rw [hlog, hrun.log, hlog₁, List.append_assoc, List.append_assoc]
    positive := by
      intro x old hmem
      simp only [List.mem_append, List.mem_cons, List.not_mem_nil, or_false, hsub, hsub', false_or,
        reduceCtorEq, Effect.fetchSub.injEq] at hmem
      rcases hmem with hmem | ⟨-, rfl⟩
      · exact hrun.positive x old hmem
      · decide
    loops := by
      have hhead : (Effect.loop e :: (q ++ [.fetchSub e 1])).filterMap Effect.loop? = [e] := by
        show e :: (q ++ [Effect.fetchSub e 1]).filterMap Effect.loop? = [e]
        rw [List.filterMap_append, hloop]
        rfl
      rw [List.filterMap_append, List.filterMap_append, hhead, hloop', hrun.loops,
        List.reverse_cons]
      rfl
    activates := by
      intro t
      have hcount : (last ++ (new ++ Effect.loop e :: (q ++ [.fetchSub e 1]))).count (.activate t) =
          new.count (.activate t) := by
        simp [hact, hact']
      rw [hcount, hrun.activates, units_afterLoop, hunits₁]
      by_cases he : EventPtr.pre t = e
      · rw [he, update_self, h, if_neg (by omega), if_neg (by omega)]
      · rw [update_of_ne he]
    countdown := by
      intro t
      rw [hremoval', hrun.countdown, hremoval₁, hleaves, UInt8.ofNat_add, sub_add_eq_sub_sub]
    frees := by
      intro t
      have hcount : (last ++ (new ++ Effect.loop e :: (q ++ [.fetchSub e 1]))).count (.free t) =
          new.count (.free t) + last.count (.free t) := by
        simp [hfree, Nat.add_comm]
      rw [hcount, hfree', hrun.frees, hrun.countdown, hremoval₁, hleaves, lastUnits_add] }

end Parts

/-! ### The cascade ends -/

section Cascade

variable {g : EventGraph} {s : Cascade} {e : EventPtr} {fuel : Nat} {todo : List EventPtr}

/-- The number of events that may still be reached. -/
def openEvents (g : EventGraph) (s : Cascade) : Nat := openNodes g.events s.units

theorem EventGraph.order_finite (g : EventGraph) (h : e ∉ g.events) : g.order e = [] := by
  rw [EventGraph.order, g.finite e h]
  rfl

/-- A notification ends, and it leaves units for all other debts `todo`. -/
def Ends (g : EventGraph) (fuel : Nat) : Prop :=
  ∀ (s : Cascade) (e : EventPtr) (todo : List EventPtr), openEvents g s < fuel →
    Covered g.order g.events s.units (e :: todo) →
      ∃ b s' fired new, g.notify fuel e false s = some (b, s') ∧ Ran g s [e] s' fired new ∧
        Covered g.order g.events s'.units todo

/-- Then so do the notifications of a list. -/
theorem Ends.all (h : Ends g fuel) (l : List EventPtr) (hfuel : openEvents g s < fuel)
    (hcov : Covered g.order g.events s.units (l ++ todo)) :
    ∃ s' fired new, l.foldlM (fun s f => (g.notify fuel f false s).map Prod.snd) s = some s' ∧
      Ran g s l s' fired new ∧ Covered g.order g.events s'.units todo := by
  induction l generalizing s with
  | nil => exact ⟨s, [], [], rfl, .nil, hcov⟩
  | cons f l ih =>
      obtain ⟨b, s₁, fired₁, new₁, hnotify, hran₁, hcov₁⟩ := h s f (l ++ todo) hfuel hcov
      have hfuel₁ : openEvents g s₁ < fuel := hran₁.drained.openNodes_le.trans_lt hfuel
      obtain ⟨s₂, fired₂, new₂, hfold, hran₂, hcov₂⟩ := ih hfuel₁ hcov₁
      refine ⟨s₂, _, _, ?_, hran₁.append hran₂, hcov₂⟩
      rw [List.foldlM_cons, hnotify]
      exact hfold

/-- The depth of the recursion is bounded by the number of events that may still be
reached: every nested call belongs to an event that has just been reached. -/
theorem ends (g : EventGraph) (fuel : Nat) : Ends g fuel := by
  induction fuel with
  | zero =>
      intro s e todo hfuel
      omega
  | succ fuel ih =>
      intro s e todo hfuel hcov
      have hpos := hcov.pos
      rcases Nat.lt_or_ge 2 (s.units e) with hthree | hle
      · obtain ⟨new, hran⟩ := Ran.keep (g := g) hthree
        refine ⟨false, _, [], new, ?_, hran, ?_⟩
        · simp only [EventGraph.notify]
          rw [if_pos hthree]
        · rw [hran.drained.eq_update]
          exact hcov.keep (by omega)
      rcases Nat.lt_or_ge 1 (s.units e) with htwo | hle
      · have htwo : s.units e = 2 := by omega
        obtain ⟨new, hran⟩ := Ran.ready (g := g) htwo
        refine ⟨true, _, [], new, ?_, hran, ?_⟩
        · simp only [EventGraph.notify]
          rw [if_neg (by omega), if_pos htwo]
        · rw [hran.drained.eq_update]
          exact hcov.keep (by omega)
      · have hone : s.units e = 1 := by omega
        obtain ⟨s₁, hs₁⟩ : ∃ s₁, s₁ = (g.beforeLoop e (g.wake e (s.fetchSub e))).record (.loop e) :=
          ⟨_, rfl⟩
        obtain ⟨q, -, -, hunits₁, -⟩ := beforeLoop_spec hone hs₁
        have hcov₁ : Covered g.order g.events s₁.units (g.order e ++ todo) := by
          rw [hunits₁]
          exact hcov.fire hone g.order_finite
        obtain ⟨s₂, fired, new, hfold, hran, hcov₂⟩ : ∃ s₂ fired new,
            (g.order e).foldlM (fun s f => (g.notify fuel f false s).map Prod.snd) s₁ = some s₂ ∧
              Ran g s₁ (g.order e) s₂ fired new ∧ Covered g.order g.events s₂.units todo := by
          by_cases hmem : e ∈ g.events
          · refine ih.all _ ?_ hcov₁
            have hfire := openNodes_fire (c := s.units) (x := e) (by omega) hmem
            unfold openEvents at hfuel ⊢
            rw [hunits₁]
            omega
          · -- an event outside the graph has no followers
            rw [g.order_finite hmem] at hcov₁ ⊢
            exact ⟨s₁, [], [], rfl, .nil, hcov₁⟩
        obtain ⟨new', hran'⟩ := hran.fire hone hs₁
        refine ⟨false, _, _, new', ?_, hran', ?_⟩
        · simp only [EventGraph.notify]
          rw [if_neg (by omega), if_neg (by omega), if_pos hone, ← hs₁, hfold]
        · rw [units_afterLoop]
          exact hcov₂

end Cascade

/-! ### The order does not matter -/

/-- The task passed to `activate_task`. -/
def Effect.activate? : Effect → Option Nat
  | .activate t => some t
  | _ => none

theorem count_activate? (l : List Effect) (t : Nat) :
    (l.filterMap Effect.activate?).count t = l.count (.activate t) := by
  induction l with
  | nil => rfl
  | cons x l ih =>
      cases x with
      | activate u =>
          show (u :: l.filterMap Effect.activate?).count t = _
          rw [List.count_cons, List.count_cons, ih]
          simp
      | _ =>
          rw [List.filterMap_cons_none rfl, ih]
          simp

/-- What is left of a cascade when the order is forgotten. -/
structure Outcome where
  counter : EventPtr → UInt16
  activated : Multiset Nat
  freed : Set Nat

namespace EventGraph

/-- The entries of lists of unreached events that point to `x`. -/
def incoming (g : EventGraph) (s : Cascade) (x : EventPtr) : Nat :=
  ∑ e ∈ g.events with s.units e ≠ 0, (g.followers e).count x

/-- The same graph with the follower lists in another order. -/
structure Reordered (g h : EventGraph) : Prop where
  followers : ∀ e, (g.followers e).Perm (h.followers e)
  wakerId : h.wakerId = g.wakerId
  creator : h.creator = g.creator
  space : h.space = g.space
  events : h.events = g.events

theorem Reordered.order {g h : EventGraph} (hr : g.Reordered h) (e : EventPtr) :
    (g.order e).Perm (h.order e) :=
  (List.reverse_perm _).trans ((hr.followers e).trans (List.reverse_perm _).symm)

theorem Reordered.covered {g h : EventGraph} (hr : g.Reordered h) {c : EventPtr → Nat}
    {todo : List EventPtr} (hcov : Covered g.order g.events c todo) :
    Covered h.order h.events c todo := by
  intro x
  refine le_trans (le_of_eq ?_) (hcov x)
  unfold owed
  rw [hr.events]
  congr 1
  exact Finset.sum_congr rfl fun e _ => ((hr.order e).count_eq x).symm

end EventGraph

/-- From `s` to `s'` the log has grown by `new`: no counter that was zero is
decremented, the followers of no event are notified twice, and forgetting the order
leaves `o`. -/
structure Settled (s s' : Cascade) (new : List Effect) (o : Outcome) : Prop where
  log : s'.log = new ++ s.log
  positive : ∀ x old, .fetchSub x old ∈ new → old ≠ 0
  once : (new.filterMap Effect.loop?).Nodup
  counter : s'.counter = o.counter
  activated : (new.filterMap Effect.activate? : Multiset Nat) = o.activated
  freed : {t | .free t ∈ new} = o.freed

section Confluent

variable {g h : EventGraph} {s s₁ s₂ : Cascade} {e : EventPtr} {fired₁ fired₂ : List EventPtr}
  {new₁ new₂ : List Effect}

/-- Two runs of one cascade in different orders have the same outcome. -/
theorem Ran.settled (h₁ : Ran g s [e] s₁ fired₁ new₁) (hr : g.Reordered h)
    (h₂ : Ran h s [e] s₂ fired₂ new₂) :
    Settled s s₂ new₂ ⟨s₁.counter, (new₁.filterMap Effect.activate? : List Nat),
      {t | .free t ∈ new₁}⟩ := by
  have hperm : fired₁.Perm fired₂ := h₁.drained.perm h₂.drained hr.order (.refl _)
  have hunits : s₁.units = s₂.units := h₁.drained.counter_eq h₂.drained hr.order (.refl _)
  exact {
    log := h₂.log
    positive := h₂.positive
    once := by
      rw [h₂.loops]
      exact List.nodup_reverse.mpr h₂.drained.nodup
    counter := by
      funext x
      exact UInt16.toNat_inj.mp (congrFun hunits x).symm
    activated := by
      refine Multiset.coe_eq_coe.mpr (List.perm_iff_count.mpr fun t => ?_)
      rw [count_activate?, count_activate?, h₁.activates, h₂.activates, hunits]
    freed := by
      ext t
      have hcount : new₁.count (.free t) = new₂.count (.free t) := by
        rw [h₁.frees, h₂.frees]
        exact congrArg _ (hperm.countP_eq _)
      show .free t ∈ new₂ ↔ .free t ∈ new₁
      rw [← List.count_pos_iff, ← List.count_pos_iff, hcount] }

/-- A claimed notification that leaves one unit only wakes. -/
theorem notify_claimed_ready (fuel : Nat) (htwo : s.units e = 2) :
    g.notify (fuel + 1) e true s = some (true, g.wake e (s.fetchSub e)) := by
  have hsame : ∀ s : Cascade, s.activate true e = s := by
    intro s
    cases e <;> rfl
  simp only [EventGraph.notify]
  rw [if_neg (by omega), if_pos htwo, hsame]

theorem notify_claimed (fuel : Nat) (htwo : s.units e ≠ 2) :
    g.notify fuel e true s = g.notify fuel e false s := by
  cases fuel with
  | zero => rfl
  | succ fuel =>
      simp only [EventGraph.notify]
      rw [if_neg htwo, if_neg htwo]

theorem settled_wake (h : 0 < s.units e) :
    ∃ new, Settled s (g.wake e (s.fetchSub e)) new ⟨(s.fetchSub e).counter, 0, ∅⟩ := by
  obtain ⟨q, hq, hwake⟩ : Noted (s.fetchSub e) (g.wake e (s.fetchSub e)) := noted_wake
  obtain ⟨hsub, hloop, hact, hfree⟩ := quiet_facts hq
  rw [hwake]
  refine ⟨q ++ [.fetchSub e (s.units e)], ?_, ?_, ?_, rfl, ?_, ?_⟩
  · simp [Cascade.fetchSub]
  · intro x old hmem
    simp [hsub] at hmem
    omega
  · rw [List.filterMap_append, hloop]
    exact List.nodup_nil
  · refine (Multiset.coe_eq_zero _).mpr (List.eq_nil_iff_forall_not_mem.mpr fun t ht => ?_)
    have hcount := List.count_pos_iff.mpr ht
    rw [count_activate?] at hcount
    simp [hact] at hcount
  · ext t
    have hcount : (q ++ [Effect.fetchSub e (s.units e)]).count (.free t) = 0 := by
      simp [hfree]
    exact iff_of_false (List.count_eq_zero.mp hcount) (Set.notMem_empty t)

/-- The notification cascade ends, and its outcome does not depend on the order in
which the follower lists are run through: if every counter covers the entries of
unreached events that point to the event, and `e` has one unit more, then there is one
outcome that `notify` on `e` has in every order. -/
theorem cascade_confluent (g : EventGraph) (s : Cascade) (e : EventPtr) (claimed : Bool)
    (hcounter : ∀ x, g.incoming s x ≤ s.units x) (hown : g.incoming s e < s.units e) :
    ∃ o : Outcome, ∀ h, g.Reordered h → ∀ fuel, openEvents g s < fuel →
      ∃ b s' new, h.notify fuel e claimed s = some (b, s') ∧ Settled s s' new o := by
  have hcov : Covered g.order g.events s.units [e] := by
    intro x
    have howed : owed g.order g.events s.units x = g.incoming s x :=
      Finset.sum_congr rfl fun y _ => (List.reverse_perm _).count_eq x
    rw [howed]
    by_cases hx : x = e
    · subst hx
      rw [List.count_singleton_self]
      omega
    · rw [List.count_singleton, if_neg (by simpa using Ne.symm hx), Nat.zero_add]
      exact hcounter x
  by_cases hclaimed : claimed = true ∧ s.units e = 2
  · obtain ⟨rfl, htwo⟩ := hclaimed
    refine ⟨⟨(s.fetchSub e).counter, 0, ∅⟩, fun h _ fuel hfuel => ?_⟩
    obtain ⟨fuel, rfl⟩ := Nat.exists_eq_add_of_lt hfuel
    obtain ⟨new, hset⟩ := settled_wake (g := h) (s := s) (e := e) (by omega)
    exact ⟨true, _, new, notify_claimed_ready _ htwo, hset⟩
  · have hsame : ∀ (h : EventGraph) fuel, h.notify fuel e claimed s = h.notify fuel e false s := by
      intro h fuel
      cases claimed with
      | false => rfl
      | true => exact notify_claimed fuel fun htwo => hclaimed ⟨rfl, htwo⟩
    obtain ⟨_, s₁, fired₁, new₁, -, hran₁, -⟩ := ends g _ s e [] (Nat.lt_succ_self _) hcov
    refine ⟨⟨s₁.counter, (new₁.filterMap Effect.activate? : List Nat), {t | .free t ∈ new₁}⟩,
      fun h hr fuel hfuel => ?_⟩
    have hfuel' : openEvents h s < fuel := by
      unfold openEvents
      rw [hr.events]
      exact hfuel
    obtain ⟨b, s₂, fired₂, new₂, hnotify, hran₂, -⟩ := ends h fuel s e [] hfuel' (hr.covered hcov)
    exact ⟨b, s₂, new₂, (hsame h fuel).trans hnotify, hran₁.settled hr hran₂⟩

end Confluent

/-- A child `1` of a root task `0`, which the tasks `2` and `3` wait for. -/
def family : EventGraph where
  followers e := if e = .post 1 then [.post 0] else if e = .post 0 then [.pre 2, .pre 3] else []
  wakerId := fun _ => -1
  creator := fun _ => 0
  space := fun t => if t = 1 then some 0 else none
  events := {.post 0, .post 1}
  finite := by
    intro e he
    simp only [Finset.mem_insert, Finset.mem_singleton, not_or] at he
    rw [if_neg he.2, if_neg he.1]

/-- The parent has run; the child's post-event has its own unit left. -/
def familyBefore : Cascade where
  counter e := if e = .pre 2 ∨ e = .pre 3 then 2 else 1
  removalCountdown := fun _ => 1
  taskCount := fun _ => 1
  log := []

theorem incoming_family (x : EventPtr) : family.incoming familyBefore x =
    [EventPtr.pre 2, .pre 3].count x + [EventPtr.post 0].count x := by
  have hopen : (family.events.filter fun e => familyBefore.units e ≠ 0) = {.post 0, .post 1} := by
    decide
  unfold EventGraph.incoming
  rw [hopen, Finset.sum_pair (by decide)]
  rfl

theorem cascade_confluent_family :
    ∃ o : Outcome, ∀ h, family.Reordered h → ∀ fuel, openEvents family familyBefore < fuel →
      ∃ b s' new, h.notify fuel (.post 1) false familyBefore = some (b, s') ∧
        Settled familyBefore s' new o := by
  refine cascade_confluent family familyBefore (.post 1) false (fun x => ?_) ?_
  · rw [incoming_family]
    by_cases hpre : x = .pre 2 ∨ x = .pre 3
    · rcases hpre with rfl | rfl <;> decide
    · have hnone : [EventPtr.pre 2, .pre 3].count x = 0 := by
        simp only [not_or] at hpre
        simp [Ne.symm hpre.1, Ne.symm hpre.2]
      have hone : familyBefore.units x = 1 := by
        simp [Cascade.units, familyBefore, hpre]
      rw [hnone, hone, Nat.zero_add]
      exact List.count_le_length
  · rw [incoming_family]
    decide

example : ((family.notify 3 (.post 1) false familyBefore).map fun p =>
    (p.2.log.filterMap Effect.activate?, p.2.units (.pre 2))) = some ([2, 3], 1) := by
  decide +kernel

end RedGrapes.Runtime
