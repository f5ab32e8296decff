/-
RedGrapes/Runtime/Spaces.lean

`TaskSpace::free_task` (`task/task_space.hpp`) in its parts, and who owns a child space.

`free_task` is a method of the space of the task it destroys.  It takes the task off
`task_count`, destroys the task, and if no task is left in the space it reads `depth`.
Owners of a child space are the pointer `children` of the parent, the pointers `space` of the
tasks in it, and task builders.  Destroying the task drops its pointers: when the
parent is destroyed before, the last task of a space takes the space with it.

The runtime of `Runtime.Model` does `free_task` in one step; here this step is
the `fetch_sub`, and the thread has two more to do.  As long as no parent is destroyed
before all its children have left `free_task`, the parent owns the space whenever
`depth` is read (`space_outlives_use`).  With one worker and one child it already
happens otherwise (`depth_read_without_owner`).
-/
import RedGrapes.Runtime.Removal

namespace RedGrapes.Runtime

open Function Machine

variable {Tid V : Type} [DecidableEq Tid]

/-! ### The machine -/

/-- Places in `free_task` after `task_count.fetch_sub`: the destructor of the task, with
`count` tasks left in its space, and the read of `depth`. -/
inductive FreePc
  | destroy (t count : Nat)
  | depth (t : Nat)
deriving DecidableEq

/-- The task that is freed. -/
def FreePc.task : FreePc → Nat
  | .destroy t _ => t
  | .depth t => t

/-- The runtime with the threads that are in `free_task`.  `destroyed` and `released` are
the tasks whose destructor has run and whose `free_task` has returned. -/
structure Spaces (Tid V : Type) where
  base : State Tid V
  freeing : Tid → Option FreePc
  destroyed : Nat → Bool
  released : Nat → Bool

namespace Spaces

/-- `task_count` of the space of `t` after its `fetch_sub`. -/
def countLeft (b : State Tid V) (t : Nat) : Nat := b.core.taskCount (b.core.info t).space

/-- The place in `free_task` that a frame goes on to. -/
def enters (b : State Tid V) : Option Frame → Option FreePc
  | some (.free t) => some (.destroy t (countLeft b t))
  | _ => none

/-- One step of one thread.  `count == 0 && depth == 0` reads `depth` only if the count
is zero. -/
def step (s : Spaces Tid V) : Action Tid → Option (Spaces Tid V)
  | .run i =>
      match s.freeing i with
      | some (.destroy t count) =>
          if count = 0 then
            some { s with
              destroyed := update s.destroyed t true
              freeing := update s.freeing i (some (.depth t)) }
          else
            some { s with
              destroyed := update s.destroyed t true
              freeing := update s.freeing i none
              released := update s.released t true }
      | some (.depth t) =>
          some { s with
            freeing := update s.freeing i none
            released := update s.released t true }
      | none =>
          (Runtime.step s.base (.run i)).map fun b =>
            { s with base := b, freeing := update s.freeing i (enters b (s.base.threads i).head?) }
  | .call i a =>
      if (s.freeing i).isSome then none
      else (Runtime.step s.base (.call i a)).map fun b => { s with base := b }

def initial (main : Tid) (prog : Body V) (store : Resource → V) : Spaces Tid V where
  base := State.initial main prog store
  freeing := fun _ => none
  destroyed := fun _ => false
  released := fun _ => false

/-- The task is submitted by a builder of the child space of `u`. -/
def builds (u : Nat) : Frame → Bool
  | .submit _ _ (some u') => u' == u
  | _ => false

/-- The child space of `u` has an owner: the pointer `children` of `u`, the pointer
`space` of a task in it, or a builder. -/
def HasOwner (s : Spaces Tid V) (u : Nat) : Prop :=
  s.destroyed u = false ∨
    (∃ t < s.base.core.next, (s.base.core.info t).space = some u ∧ s.destroyed t = false) ∨
    ∃ i, (s.base.threads i).any (builds u) = true

instance [Fintype Tid] (s : Spaces Tid V) (u : Nat) : Decidable (s.HasOwner u) :=
  inferInstanceAs (Decidable (s.destroyed u = false ∨
    (∃ t < s.base.core.next, (s.base.core.info t).space = some u ∧ s.destroyed t = false) ∨
    ∃ i, (s.base.threads i).any (builds u) = true))

/-- All children of `u` have left `free_task`. -/
def ChildrenReleased (s : Spaces Tid V) (u : Nat) : Prop :=
  ∀ t < s.base.core.next, (s.base.core.info t).space = some u → s.released t = true

instance (s : Spaces Tid V) (u : Nat) : Decidable (s.ChildrenReleased u) :=
  inferInstanceAs (Decidable
    (∀ t < s.base.core.next, (s.base.core.info t).space = some u → s.released t = true))

/-- What the condition below asks of a thread at its place in `free_task`. -/
def lastAt (s : Spaces Tid V) (i : Tid) : Option FreePc → Prop
  | some (.destroy u _) => s.ChildrenReleased u
  | some (.depth _) => True
  | none => NoWrap s.base (.run i)

instance (s : Spaces Tid V) (i : Tid) : ∀ pc, Decidable (s.lastAt i pc)
  | some (.destroy u _) => inferInstanceAs (Decidable (s.ChildrenReleased u))
  | some (.depth _) => inferInstanceAs (Decidable True)
  | none => inferInstanceAs (Decidable (NoWrap s.base (.run i)))

/-- No event counter goes past its range, and no parent is destroyed before its
children have left `free_task`. -/
def ParentsLast (s : Spaces Tid V) : Action Tid → Prop
  | .run i => s.lastAt i (s.freeing i)
  | .call _ _ => True

instance (s : Spaces Tid V) : ∀ a : Action Tid, Decidable (s.ParentsLast a)
  | .run i => inferInstanceAs (Decidable (s.lastAt i (s.freeing i)))
  | .call _ _ => inferInstanceAs (Decidable True)

/-! ### What a step can do -/

variable {s s' : Spaces Tid V} {a : Action Tid} {i : Tid} {t u : Nat}

omit [DecidableEq Tid] in
theorem enters_cases (b : State Tid V) (f : Option Frame) :
    enters b f = none ∨ ∃ t, f = some (.free t) ∧ enters b f = some (.destroy t (countLeft b t)) := by
  unfold enters
  split
  next t => exact .inr ⟨t, rfl, rfl⟩
  next => exact .inl rfl

/-- A thread runs a destructor or reads `depth`, or the runtime makes a step. -/
theorem step_cases (h : s.step a = some s') :
    (∃ i t count, a = .run i ∧ s.freeing i = some (.destroy t count) ∧ s'.base = s.base ∧
      s'.destroyed = update s.destroyed t true ∧
      ((s'.freeing = update s.freeing i (some (.depth t)) ∧ s'.released = s.released) ∨
        (s'.freeing = update s.freeing i none ∧ s'.released = update s.released t true))) ∨
    (∃ i t, a = .run i ∧ s.freeing i = some (.depth t) ∧ s'.base = s.base ∧
      s'.destroyed = s.destroyed ∧ s'.freeing = update s.freeing i none ∧
      s'.released = update s.released t true) ∨
    (Runtime.step s.base a = some s'.base ∧ (∀ i, a = .run i → s.freeing i = none) ∧
      s'.destroyed = s.destroyed ∧ s'.released = s.released ∧
      (s'.freeing = s.freeing ∨ ∃ i t count, a = .run i ∧ .free t ∈ (s.base.threads i).head? ∧
        s'.freeing = update s.freeing i (some (.destroy t count)))) := by
  cases a with
  | run i =>
      simp only [step] at h
      split at h
      next t count hpc =>
        refine .inl ⟨i, t, count, rfl, hpc, ?_⟩
        split_ifs at h
        · cases h
          exact ⟨rfl, rfl, .inl ⟨rfl, rfl⟩⟩
        · cases h
          exact ⟨rfl, rfl, .inr ⟨rfl, rfl⟩⟩
      next t hpc =>
        cases h
        exact .inr (.inl ⟨i, t, rfl, hpc, rfl, rfl, rfl, rfl⟩)
      next hpc =>
        obtain ⟨b, hb, rfl⟩ := Option.map_eq_some_iff.mp h
        refine .inr (.inr ⟨hb, ?_, rfl, rfl, ?_⟩)
        · rintro j ⟨⟩
          exact hpc
        · rcases enters_cases b (s.base.threads i).head? with hnone | ⟨t, htop, henter⟩
          · refine .inl ?_
            show update s.freeing i _ = s.freeing
            rw [hnone, ← hpc, update_eq_self]
          · refine .inr ⟨i, t, countLeft b t, rfl, htop, ?_⟩
            show update s.freeing i _ = _
            rw [henter]
  | call i a =>
      simp only [step] at h
      split_ifs at h
      obtain ⟨b, hb, rfl⟩ := Option.map_eq_some_iff.mp h
      refine .inr (.inr ⟨hb, ?_, rfl, rfl, .inl rfl⟩)
      rintro j ⟨⟩

/-! ### The invariant -/

/-- Every task is freed once, and a parent is destroyed after its children have left
`free_task`. -/
structure Owned [Fintype Tid] (s : Spaces Tid V) : Prop where
  inv : Inv s.base.core (frames s.base.threads)
  removal : Removal s.base.core (frames s.base.threads)
  freeing : ∀ i pc, s.freeing i = some pc →
    0 < s.base.core.freed pc.task ∧ s.released pc.task = false
  alone : ∀ i j pc pc', s.freeing i = some pc → s.freeing j = some pc' → pc.task = pc'.task → i = j
  destroyed : ∀ t, s.destroyed t = true → 0 < s.base.core.freed t
  released : ∀ t, s.released t = true → 0 < s.base.core.freed t
  children : ∀ u, s.destroyed u = true → s.ChildrenReleased u

section Step

variable [Fintype Tid]

omit [Fintype Tid] [DecidableEq Tid] in
theorem ChildrenReleased.mono (h : s.ChildrenReleased u) (hbase : s'.base = s.base)
    (hreleased : ∀ t, s.released t = true → s'.released t = true) : s'.ChildrenReleased u := by
  intro t ht hsp
  rw [hbase] at ht hsp
  exact hreleased t (h t ht hsp)

/-- The destructor of a task whose children have left `free_task`. -/
theorem Owned.destroy (h : Owned s) {count : Nat} (hpc : s.freeing i = some (.destroy t count))
    (hchildren : s.ChildrenReleased t) (hbase : s'.base = s.base)
    (hdestroyed : s'.destroyed = update s.destroyed t true)
    (hfreeing : s'.freeing = update s.freeing i (some (.depth t)))
    (hreleased : s'.released = s.released) : Owned s' := by
  have hme := h.freeing i _ hpc
  -- every place is of a task that was being freed by the same thread
  have hold : ∀ j pc, s'.freeing j = some pc → ∃ pc₀, s.freeing j = some pc₀ ∧ pc₀.task = pc.task := by
    intro j pc hj
    rw [hfreeing] at hj
    by_cases e : j = i
    · subst e
      rw [update_self] at hj
      cases hj
      exact ⟨_, hpc, rfl⟩
    · rw [update_of_ne e] at hj
      exact ⟨pc, hj, rfl⟩
  exact {
    inv := hbase ▸ h.inv
    removal := hbase ▸ h.removal
    freeing := by
      intro j pc hj
      obtain ⟨pc₀, hj₀, htask⟩ := hold j pc hj
      rw [hbase, hreleased, ← htask]
      exact h.freeing j pc₀ hj₀
    alone := by
      intro j k pc pc' hj hk htask
      obtain ⟨pc₀, hj₀, h₀⟩ := hold j pc hj
      obtain ⟨pc₁, hk₁, h₁⟩ := hold k pc' hk
      exact h.alone j k pc₀ pc₁ hj₀ hk₁ (by rw [h₀, h₁, htask])
    destroyed := by
      intro u hu
      rw [hbase]
      rw [hdestroyed] at hu
      by_cases e : u = t
      · rw [e]
        exact hme.1
      · rw [update_of_ne e] at hu
        exact h.destroyed u hu
    released := by
      intro u hu
      rw [hbase]
      rw [hreleased] at hu
      exact h.released u hu
    children := by
      intro u hu
      rw [hdestroyed] at hu
      refine ChildrenReleased.mono ?_ hbase fun t ht => by rw [hreleased]; exact ht
      by_cases e : u = t
      · rw [e]
        exact hchildren
      · rw [update_of_ne e] at hu
        exact h.children u hu }

/-- A thread leaves `free_task`. -/
theorem Owned.leave (h : Owned s) {pc : FreePc} (hpc : s.freeing i = some pc)
    (hbase : s'.base = s.base) (hdestroyed : s'.destroyed = s.destroyed)
    (hfreeing : s'.freeing = update s.freeing i none)
    (hreleased : s'.released = update s.released pc.task true) : Owned s' := by
  have hme := h.freeing i pc hpc
  have hold : ∀ j pc', s'.freeing j = some pc' → j ≠ i ∧ s.freeing j = some pc' := by
    intro j pc' hj
    rw [hfreeing] at hj
    by_cases e : j = i
    · subst e
      rw [update_self] at hj
      cases hj
    · rw [update_of_ne e] at hj
      exact ⟨e, hj⟩
  have hmono : ∀ t, s.released t = true → s'.released t = true := by
    intro t ht
    rw [hreleased]
    by_cases e : t = pc.task
    · rw [e, update_self]
    · rw [update_of_ne e]
      exact ht
  exact {
    inv := hbase ▸ h.inv
    removal := hbase ▸ h.removal
    freeing := by
      intro j pc' hj
      obtain ⟨hne, hj₀⟩ := hold j pc' hj
      have htask : pc'.task ≠ pc.task := fun e => hne (h.alone j i pc' pc hj₀ hpc e)
      rw [hbase, hreleased, update_of_ne htask]
      exact h.freeing j pc' hj₀
    alone := by
      intro j k pc' pc'' hj hk htask
      exact h.alone j k pc' pc'' (hold j pc' hj).2 (hold k pc'' hk).2 htask
    destroyed := by
      intro u hu
      rw [hbase]
      rw [hdestroyed] at hu
      exact h.destroyed u hu
    released := by
      intro u hu
      rw [hbase]
      rw [hreleased] at hu
      by_cases e : u = pc.task
      · rw [e]
        exact hme.1
      · rw [update_of_ne e] at hu
        exact h.released u hu
    children := by
      intro u hu
      rw [hdestroyed] at hu
      exact (h.children u hu).mono hbase hmono }

omit [DecidableEq Tid] [Fintype Tid] in
/-- A new task is submitted by user code. -/
theorem exists_body_of_new {c c' : Core V} {old new : List Frame} (hm : Move c old c' new)
    (ht : t < c'.next) (hnew : ¬ t < c.next) : ∃ cur, old = [.body cur] ∧ (c'.info t).space = cur := by
  cases hm
  case emplaceRoot | emplaceChild =>
    have hlt : t < c.next + 1 := ht
    obtain rfl : t = c.next := by omega
    exact ⟨_, rfl, by simp [Core.create]⟩
  all_goals exact absurd ht hnew

omit [Fintype Tid] in
theorem core_of_free {b b' : State Tid V} (h : Runtime.step b (.run i) = some b')
    (htop : .free t ∈ (b.threads i).head?) : b'.core = b.core.freeTask t := by
  cases hth : b.threads i with
  | nil =>
      rw [hth] at htop
      simp at htop
  | cons f rest =>
      rw [hth] at htop
      obtain rfl : f = .free t := by simpa using htop
      simp only [Runtime.step, hth, Core.trans] at h
      obtain ⟨p, hp, rfl⟩ := Option.map_eq_some_iff.mp h
      cases hp
      rfl

/-- A step of the runtime. -/
theorem Owned.base (h : Owned s) (hstep : Runtime.step s.base a = some s'.base)
    (hwrap : NoWrap s.base a) (hdestroyed : s'.destroyed = s.destroyed)
    (hreleased : s'.released = s.released)
    (hfreeing : s'.freeing = s.freeing ∨ ∃ i t count, a = .run i ∧
      .free t ∈ (s.base.threads i).head? ∧
        s'.freeing = update s.freeing i (some (.destroy t count))) : Owned s' := by
  obtain ⟨old, new, M, h1, h2, hm, htop⟩ := step_pool hstep
  have hI := h.inv
  have hR := h.removal
  rw [h1] at hI hR
  have hI' : Inv s'.base.core (frames s'.base.threads) := by
    rw [h2]
    exact hI.step (fun f hf e he => hwrap.upsOn_lt (htop f hf) he) hm
  have hR' : Removal s'.base.core (frames s'.base.threads) := by
    rw [h2]
    exact hR.step hI hm
  have hfreed : ∀ t, 0 < s.base.core.freed t → 0 < s'.base.core.freed t := by
    intro t ht
    rcases freed_cases hm with hsame | ⟨u, -, -, hupd⟩
    · rw [hsame]
      exact ht
    · rw [hupd]
      by_cases e : t = u
      · rw [e, update_self]
        omega
      · rw [update_of_ne e]
        exact ht
  have hchildren : ∀ u, s'.destroyed u = true → s'.ChildrenReleased u := by
    intro u hu t ht hsp
    rw [hdestroyed] at hu
    rw [hreleased]
    by_cases hlt : t < s.base.core.next
    · rw [hm.info_eq hlt] at hsp
      exact h.children u hu t hlt hsp
    · -- the parent of a new task is running, hence not destroyed
      obtain ⟨cur, rfl, hcur⟩ := exists_body_of_new hm ht hlt
      rw [hcur] at hsp
      subst hsp
      have halive := hR.alive_of_mem hI (f := .body (some u)) (t := u) (σ := .run) (by simp)
        (by simp [Frame.tasks]) (by simp)
      have := h.destroyed u hu
      omega
  rcases hfreeing with hsame | ⟨i, t, count, rfl, hhead, hupd⟩
  · refine ⟨hI', hR', fun j pc hj => ?_, ?_, fun u hu => ?_, fun u hu => ?_, hchildren⟩
    · rw [hsame] at hj
      rw [hreleased]
      exact ⟨hfreed _ (h.freeing j pc hj).1, (h.freeing j pc hj).2⟩
    · rw [hsame]
      exact h.alone
    · exact hfreed u (h.destroyed u (hdestroyed ▸ hu))
    · exact hfreed u (h.released u (hreleased ▸ hu))
  · have hmem : Frame.free t ∈ frames s.base.threads :=
      mem_frames.mpr ⟨i, List.mem_of_mem_head? hhead⟩
    have hzero := (h.removal.gone_of_free hmem).2
    have hone : 0 < s'.base.core.freed t := by
      rw [core_of_free hstep hhead]
      simp [Core.freeTask]
    -- the task was not being freed before
    have hnot : ∀ j pc, s.freeing j = some pc → pc.task ≠ t := by
      rintro j pc hj rfl
      have := (h.freeing j pc hj).1
      omega
    have hold : ∀ j pc, s'.freeing j = some pc →
        (j = i ∧ pc = .destroy t count) ∨ s.freeing j = some pc := by
      intro j pc hj
      rw [hupd] at hj
      by_cases e : j = i
      · subst e
        rw [update_self] at hj
        cases hj
        exact .inl ⟨rfl, rfl⟩
      · rw [update_of_ne e] at hj
        exact .inr hj
    refine ⟨hI', hR', fun j pc hj => ?_, fun j k pc pc' hj hk htask => ?_, fun u hu => ?_,
      fun u hu => ?_, hchildren⟩
    · rw [hreleased]
      rcases hold j pc hj with ⟨-, rfl⟩ | hj
      · refine ⟨hone, Bool.eq_false_iff.mpr fun hrel => ?_⟩
        have := h.released _ hrel
        simp only [FreePc.task] at this
        omega
      · exact ⟨hfreed _ (h.freeing j pc hj).1, (h.freeing j pc hj).2⟩
    · rcases hold j pc hj with ⟨rfl, rfl⟩ | hj <;> rcases hold k pc' hk with ⟨rfl, rfl⟩ | hk
      · rfl
      · exact absurd htask.symm (hnot k pc' hk)
      · exact absurd htask (hnot j pc hj)
      · exact h.alone j k pc pc' hj hk htask
    · exact hfreed u (h.destroyed u (hdestroyed ▸ hu))
    · exact hfreed u (h.released u (hreleased ▸ hu))

theorem Owned.step (h : Owned s) (hok : s.ParentsLast a) (hs : s.step a = some s') : Owned s' := by
  rcases step_cases hs with ⟨i, t, count, rfl, hpc, hbase, hdestroyed, hnext⟩ |
    ⟨i, t, rfl, hpc, hbase, hdestroyed, hfreeing, hreleased⟩ |
    ⟨hstep, hnone, hdestroyed, hreleased, hfreeing⟩
  · have hchildren : s.ChildrenReleased t := by
      have hlast : s.lastAt i (s.freeing i) := hok
      rw [hpc] at hlast
      exact hlast
    rcases hnext with ⟨hfreeing, hreleased⟩ | ⟨hfreeing, hreleased⟩
    · exact h.destroy hpc hchildren hbase hdestroyed hfreeing hreleased
    · -- destroyed and left in one step
      have hmid : Owned { s with
          destroyed := update s.destroyed t true
          freeing := update s.freeing i (some (.depth t)) } :=
        h.destroy hpc hchildren rfl rfl rfl rfl
      have hleaving : update s.freeing i (some (.depth t)) i = some (FreePc.depth t) :=
        update_self ..
      refine hmid.leave hleaving hbase hdestroyed ?_ hreleased
      rw [hfreeing, update_idem]
  · exact h.leave hpc hbase hdestroyed hfreeing hreleased
  · refine h.base hstep ?_ hdestroyed hreleased hfreeing
    cases a with
    | run i =>
        have hlast : s.lastAt i (s.freeing i) := hok
        rw [hnone i rfl] at hlast
        exact hlast
    | call i a => trivial

theorem Owned.initial (main : Tid) (prog : Body V) (store : Resource → V) :
    Owned (initial main prog store) where
  inv := by
    show Inv (Core.initial prog store) (frames (State.initial main prog store).threads)
    rw [frames_initial]
    exact Inv.initial prog store
  removal := by
    show Removal (Core.initial prog store) (frames (State.initial main prog store).threads)
    rw [frames_initial]
    exact Removal.initial prog store
  freeing i pc h := by cases h
  alone i j pc pc' h := by cases h
  destroyed t h := by cases h
  released t h := by cases h
  children u h := by cases h

/-- A child space outlives its last use: in every run in which no parent is destroyed
before its children have left `free_task`, a space has an owner whenever `free_task` is
about to read its `depth`. -/
theorem space_outlives_use {main : Tid} {prog : Body V} {store : Resource → V}
    (hs : Reaches Spaces.step ParentsLast (initial main prog store) s)
    (hpc : s.freeing i = some (.depth t)) (hsp : (s.base.core.info t).space = some u) :
    s.HasOwner u := by
  have h : Owned s :=
    Reaches.invariant (Owned.initial main prog store) (fun _ _ _ h hok hs => h.step hok hs) hs
  refine .inl (Bool.eq_false_iff.mpr fun hu => ?_)
  obtain ⟨hfreed, hnot⟩ := h.freeing i _ hpc
  have hlt : t < s.base.core.next := by
    refine h.inv.events.lt_next fun hst => ?_
    have halive := h.removal.alive_of_stage (t := t) h.inv.events (by rw [hst]; simp)
    simp only [FreePc.task] at hfreed
    omega
  have hrel := h.children u hu t hlt hsp
  simp only [FreePc.task] at hnot
  rw [hrel] at hnot
  cases hnot

end Step

/-! ### One parent, one child, one worker -/

/-- The worker `i` executes the parent, which submits the child and drops its `Future`, and
then the child, up to the `n`-th step. -/
def familyWork (i : Fin 2) (n : Nat) : List (Action (Fin 2)) :=
  List.flatten [.call i (.popEmplaced 0) :: .replicate 12 (.run i),
    .call i (.destroyFuture 1) :: .replicate 12 (.run i),
    .call i (.popEmplaced 1) :: .replicate n (.run i)]

/-- The `Future` of the parent is kept: the parent is still there when the child is freed. -/
theorem space_outlives_use_parent_kept :
    ∃ s : Spaces (Fin 2) Nat, s.freeing 1 = some (.depth 1) ∧ s.HasOwner 0 := by
  have hrun : ((exec Spaces.step ParentsLast (List.flatten [.replicate 3 (.run 0), familyWork 1 26])
      (initial 0 parentAndChild fun _ => 0)).map fun s =>
        (s.freeing 1, (s.base.core.info 1).space)) = some (some (.depth 1), some 0) := by
    decide +kernel
  obtain ⟨s, hs, h⟩ := Option.map_eq_some_iff.mp hrun
  simp only [Prod.mk.injEq] at h
  exact ⟨s, h.1, space_outlives_use (Reaches.refl.of_exec hs) h.1 h.2⟩

/-- The `Future` of the parent is dropped: the post-event of the child frees the parent before
the child, and the child takes the space with it. -/
theorem depth_read_without_owner :
    ∃ s : Spaces (Fin 2) Nat,
      Reaches Spaces.step (fun _ _ => True) (initial 0 parentAndChild fun _ => 0) s ∧
      s.freeing 1 = some (.depth 1) ∧ (s.base.core.info 1).space = some 0 ∧ ¬ s.HasOwner 0 := by
  have hrun : ((exec Spaces.step (fun _ _ => True) (List.flatten [.replicate 3 (.run 0),
      .call 0 (.destroyFuture 0) :: .replicate 5 (.run 0), familyWork 1 29])
      (initial 0 parentAndChild fun _ => 0)).map fun s =>
        (s.freeing 1, (s.base.core.info 1).space, decide (s.HasOwner 0))) =
          some (some (.depth 1), some 0, false) := by
    decide +kernel
  obtain ⟨s, hs, h⟩ := Option.map_eq_some_iff.mp hrun
  simp only [Prod.mk.injEq, decide_eq_false_iff_not] at h
  exact ⟨s, Reaches.refl.of_exec hs, h⟩

end Spaces

end RedGrapes.Runtime
