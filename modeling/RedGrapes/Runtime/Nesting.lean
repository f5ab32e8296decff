/-
RedGrapes/Runtime/Nesting.lean

Nested tasks.  No edge ever connects tasks of different spaces; their order
rests on the edge from the post-event of a child to that of its parent, and on
the assertion in `TaskSpace::submit` that a parent's accesses are a superset of
its child's.

* `Inv.reached_of_ancestor` — a post-event is reached after those of all
  descendants.
* `hierarchical_order` — tasks that conflict on a resource of the space where
  their ancestries meet keep the order of their ancestors there.
-/
import RedGrapes.Runtime.Order

namespace RedGrapes.Runtime

open Function Machine ResourceUser

variable {V : Type}

/-! ### The tree of tasks -/

namespace Core

/-- `t` was submitted by the body of `u`. -/
def Child (c : Core V) (u t : Nat) : Prop := t < c.next ∧ (c.info t).space = some u

/-- `a` is `t` or one of its ancestors. -/
def AncestorOrSelf (c : Core V) : Nat → Nat → Prop := Relation.ReflTransGen c.Child

end Core

section Tree

variable {c : Core V} {M : Multiset Frame} {a t u : Nat}

/-- A post-event is reached after every event it was made to wait for. -/
theorem Inv.reached_of_edge (hI : Inv c M) {src : EventPtr} (hu : c.phase (.post u) ≠ .open)
    (he : c.Edge src (.post u)) : c.phase src ≠ .open := by
  obtain ⟨d, hd, rfl, hdst⟩ := he
  obtain ⟨i, hi⟩ := List.mem_iff_getElem?.mp hd
  have hdone := hI.events.done_of_reached hu
  have hrun : c.stage u ≠ .run := by
    rw [hdone]
    simp
  -- an entry is counted before the body of `u` goes on
  have hcounted : d.counted = true := by
    by_contra hc
    obtain ⟨f, hf, hmem⟩ := hI.ledger.exists_edge hi (by simpa using hc)
    rcases hI.edge_cases hf hmem hi with ⟨s, v, rfl, rfl⟩ | ⟨x, v, rfl, rfl⟩ | ⟨_, _, _, _, s, rfl, rfl, _⟩
    · obtain rfl := EventPtr.post.inj hdst
      exact hrun (hI.ledger.stage_eq hf (by simp [Frame.tasks]))
    · obtain rfl := EventPtr.post.inj hdst
      exact hrun (hI.ledger.stage_eq hf (by simp [Frame.tasks]))
    · simp at hdst
  have hz : c.counter (.post u) = 0 := by
    have := (hI.events.open_iff (.post u)).not.mp hu
    omega
  have hok := hI.events.edge i d hi
  intro ho
  have hn : d.notified = 0 := by
    rw [hok.notified, ho]
    rfl
  have hpos := pending_pos hi hcounted hn
  rw [hdst] at hpos
  have := hI.events.counter (.post u)
  omega

/-- A child of a task that is done is submitted completely. -/
theorem Inv.emplaced_of_child (hI : Inv c M) (ht : c.Child u t) (hu : c.stage u = .done) :
    .emplaced ≤ c.stage t := by
  have hborn : c.stage t ≠ .unborn := fun h => by
    have := (hI.events.born t).mp h
    have := ht.1
    omega
  have hsub : c.stage t ≠ .submit := fun h => by
    obtain ⟨f, hf, hmem⟩ := hI.ledger.exists_task h rfl (by simp) (by simp)
    obtain ⟨pc, rfl, hrun⟩ := hI.submit_frame hf hmem
    rw [ht.2] at hrun hf
    have := hI.ledger.stage_eq hf hrun
    rw [hu] at this
    simp at this
  cases hs : c.stage t <;> simp_all <;> decide

/-- A post-event is reached after those of all descendants. -/
theorem Inv.reached_of_ancestor (hI : Inv c M) (h : c.AncestorOrSelf a t)
    (ha : c.phase (.post a) ≠ .open) : c.phase (.post t) ≠ .open := by
  induction h with
  | refl => exact ha
  | tail _ hchild ih =>
      have hemp := hI.emplaced_of_child hchild (hI.events.done_of_reached ih)
      exact hI.reached_of_edge ih (hI.lists.child _ _ hemp hchild.2)

/-- A task runs while its descendants do. -/
theorem Inv.run_of_ancestor (hI : Inv c M) (h : c.AncestorOrSelf a t) (ht : .run ≤ c.stage t) :
    .run ≤ c.stage a := by
  induction h using Relation.ReflTransGen.head_induction_on with
  | refl => exact ht
  | head hchild _ _ => exact (hI.lists.parent _ _ hchild.1 hchild.2).2

end Tree

/-! ### Accesses of parents and children -/

/-- The assertion of `TaskSpace::submit` for the child that the frame is about
to submit, and the bound on the depth of nesting. -/
def Core.asserts (c : Core V) : Frame → Bool
  | .body (some u) =>
      match c.code (some u) with
      | .emplace calls _ _ =>
          let i : TaskInfo := ⟨calls, some u, Graph.depthOf c.info (some u)⟩
          (c.userOf u).isSupersetOf i.user && decide (i.depth < 256)
      | _ => true
  | _ => true

/-- Depths and accesses along the tree. -/
structure Nested (c : Core V) : Prop where
  depth : ∀ t, t < c.next → (c.info t).depth = Graph.depthOf c.info (c.info t).space
  bound : ∀ t, t < c.next → (c.info t).depth < 256
  superset : ∀ u t, c.Child u t → (c.userOf u).isSupersetOf (c.userOf t) = true

section Step

variable {c c' : Core V} {old new : List Frame} {M : Multiset Frame} {a t u : Nat}

theorem depthOf_eq (hI : Inv c M) (hm : Move c old c' new) (ht : t < c.next) :
    Graph.depthOf c'.info (c'.info t).space = Graph.depthOf c.info (c.info t).space := by
  rw [hm.info_eq ht]
  cases hsp : (c.info t).space with
  | none => rfl
  | some u =>
      have hu := (hI.lists.parent t u ht hsp).1.trans ht
      rw [Graph.depthOf, Graph.depthOf, hm.info_eq hu]

theorem Nested.step (hN : Nested c) (hI : Inv c (↑old + M)) (hm : Move c old c' new)
    (ha : ∀ f ∈ old, c.asserts f = true) : Nested c' := by
  -- tasks that exist keep what they have
  have hold : ∀ t, t < c.next → (c'.info t).depth = Graph.depthOf c'.info (c'.info t).space ∧
      (c'.info t).depth < 256 ∧
      ∀ u, c'.Child u t → (c'.userOf u).isSupersetOf (c'.userOf t) = true := by
    intro t ht
    refine ⟨?_, ?_, fun u hu => ?_⟩
    · rw [depthOf_eq hI hm ht, hm.info_eq ht]
      exact hN.depth t ht
    · rw [hm.info_eq ht]
      exact hN.bound t ht
    · have hsp : (c.info t).space = some u := hm.info_eq ht ▸ hu.2
      have hlt := (hI.lists.parent t u ht hsp).1.trans ht
      rw [userOf_eq hm ht, userOf_eq hm hlt]
      exact hN.superset u t ⟨ht, hsp⟩
  -- the new one
  have hnew : ∀ t, t < c'.next → ¬ t < c.next →
      (c'.info t).depth = Graph.depthOf c'.info (c'.info t).space ∧ (c'.info t).depth < 256 ∧
      ∀ u, c'.Child u t → (c'.userOf u).isSupersetOf (c'.userOf t) = true := by
    intro t ht htc
    cases hm
    case emplaceRoot calls child k hcode =>
      obtain rfl : t = c.next := by
        have : t < c.next + 1 := ht
        omega
      have hinfo : (c.create none calls child k).info c.next = ⟨calls, none, 0⟩ := by
        simp [Core.create, Graph.depthOf]
      rw [hinfo]
      refine ⟨rfl, by simp, fun u hu => ?_⟩
      have := hu.2
      rw [hinfo] at this
      simp at this
    case emplaceChild v calls child k hcode =>
      obtain rfl : t = c.next := by
        have : t < c.next + 1 := ht
        omega
      have hv : v < c.next := by
        refine hI.events.lt_next ?_
        rw [hI.ledger.stage_head (σ := .run) List.mem_cons_self]
        simp
      have hinfo : (c.create (some v) calls child k).info c.next =
          ⟨calls, some v, Graph.depthOf c.info (some v)⟩ := by
        simp [Core.create]
      have hvinfo : (c.create (some v) calls child k).info v = c.info v := by
        simp [Core.create, hv.ne]
      have hassert := ha (.body (some v)) (by simp)
      simp only [Core.asserts, hcode, Bool.and_eq_true, decide_eq_true_eq] at hassert
      rw [hinfo]
      refine ⟨?_, hassert.2, fun u hu => ?_⟩
      · rw [Graph.depthOf, Graph.depthOf, hvinfo]
      · obtain rfl : v = u := by
          have := hu.2
          rw [hinfo] at this
          exact Option.some.inj this
        rw [Core.userOf, Core.userOf, hinfo, hvinfo]
        exact hassert.1
    all_goals exact absurd ht htc
  have hall : ∀ t, t < c'.next → _ := fun t ht =>
    (em (t < c.next)).elim (hold t) (hnew t ht)
  exact ⟨fun t ht => (hall t ht).1, fun t ht => (hall t ht).2.1, fun u t h => (hall t h.1).2.2 u h⟩

/-! ### Conflicts of ancestors -/

theorem Nested.depth_le (hN : Nested c) (h : c.AncestorOrSelf a t) :
    (c.info a).depth ≤ (c.info t).depth := by
  induction h with
  | refl => exact le_rfl
  | tail _ hchild ih =>
      rw [hN.depth _ hchild.1, hchild.2, Graph.depthOf]
      omega

/-- An ancestor inherits the conflicts on the resources of its scope. -/
theorem Nested.conflictOn (hN : Nested c) (hI : Inv c M) (h : c.AncestorOrSelf a t) {r : Resource}
    {v : ResourceUser} (hr : r.scopeLevel.toNat ≤ (c.info a).depth)
    (hconf : ConflictOn r (c.userOf t) v) : ConflictOn r (c.userOf a) v := by
  induction h with
  | refl => exact hconf
  | @tail b t hab hchild ih =>
      refine ih (hconf.of_isSupersetOf (hN.superset b t hchild) ?_)
      have hb : b < c.next := (hI.lists.parent t b hchild.1 hchild.2).1.trans hchild.1
      have hle := hN.depth_le hab
      have hlt := hN.bound b hb
      have hlevel : (c.userOf b).scopeLevel.toNat = (c.info b).depth := by
        rw [Core.userOf, TaskInfo.user, build_scopeLevel, UInt8.toNat_ofNat_of_lt' hlt]
      rw [UInt8.le_iff_toNat_le, hlevel]
      exact hr.trans hle

end Step

theorem Nested.initial (prog : Body V) (store : Resource → V) :
    Nested (Core.initial prog store) :=
  ⟨by simp [Core.initial], by simp [Core.initial], by simp [Core.Child, Core.initial]⟩

/-! ### Runs -/

variable {Tid : Type} [DecidableEq Tid]

/-- The steps of a program in which the assertion of `TaskSpace::submit` holds
at every submission of a child, with less than 256 levels of nesting and no
counter going past its range. -/
def AssertsNested (s : State Tid V) (a : Action Tid) : Prop :=
  NoWrap s a ∧ match a with
    | .run i => (s.threads i).head?.all s.core.asserts = true
    | .call _ _ => True

instance (s : State Tid V) : ∀ a : Action Tid, Decidable (AssertsNested s a)
  | .run i => inferInstanceAs (Decidable
      (NoWrap s (.run i) ∧ (s.threads i).head?.all s.core.asserts = true))
  | .call i a => inferInstanceAs (Decidable (NoWrap s (.call i a) ∧ True))

variable [Fintype Tid]

theorem Nested.of_reaches {main : Tid} {prog : Body V} {store : Resource → V} {s : State Tid V}
    (hs : Reaches Runtime.step AssertsNested (State.initial main prog store) s) : Nested s.core := by
  refine (Reaches.invariant (I := fun s : State Tid V =>
    Inv s.core (frames s.threads) ∧ Nested s.core) ⟨?_, Nested.initial prog store⟩ ?_ hs).2
  · rw [frames_initial]
    exact Inv.initial prog store
  · rintro s a s' ⟨hI, hN⟩ ⟨hw, hassert⟩ hstep
    obtain ⟨old, new, M, h1, h2, hm, htop⟩ := step_pool hstep
    rw [h1] at hI
    rw [h2]
    refine ⟨hI.step (fun f hf e he => hw.upsOn_lt (htop f hf) he) hm, hN.step hI hm fun f hf => ?_⟩
    obtain ⟨i, rfl, hi⟩ := htop f hf
    simp only [Option.mem_def.mp hi, Option.all_some] at hassert
    exact hassert

/-- Hierarchical ordering: let `X` and `Y` be tasks of one space, `X` submitted
before `Y`, and let `x` under `X` and `y` under `Y` conflict on a resource whose
scope level is at most the depth of that space.  When the pre-event of `y` is
reached, the post-event of `x` is. -/
theorem hierarchical_order {main : Tid} {prog : Body V} {store : Resource → V}
    {s : State Tid V} (hs : Reaches step AssertsNested (State.initial main prog store) s)
    {x y X Y : Nat} {r : Resource} (hx : s.core.AncestorOrSelf X x)
    (hy : s.core.AncestorOrSelf Y y) (hXY : X < Y)
    (hspace : (s.core.info X).space = (s.core.info Y).space)
    (hconf : ConflictOn r (s.core.userOf x) (s.core.userOf y))
    (hr : r.scopeLevel.toNat ≤ Graph.depthOf s.core.info (s.core.info X).space)
    (hpre : s.core.counter (.pre y) = 0) : s.core.counter (.post x) = 0 := by
  obtain ⟨hI, hO⟩ := Order.of_reaches (hs.mono fun _ _ h => h.1)
  have hN := Nested.of_reaches hs
  -- `y` runs, so `Y` does
  have hrun : .run ≤ s.core.stage y := by
    have hc := hI.events.counter (.pre y)
    have hu : s.core.units (.pre y) = 0 := by omega
    rw [Core.units] at hu
    cases hst : s.core.stage y <;> rw [hst] at hu <;> first | exact absurd hu (by decide) | decide
  have hY := hI.run_of_ancestor hy hrun
  have hYn : Y < s.core.next := hI.events.lt_next fun h => by
    rw [h] at hY
    exact absurd hY (by decide)
  -- the conflict goes up to `X` and `Y`
  have hdepth := hN.depth X (hXY.trans hYn)
  have hdepth' := hN.depth Y hYn
  rw [← hspace] at hdepth'
  have h1 := hN.conflictOn hI hx (hdepth ▸ hr) hconf
  have h2 := hN.conflictOn hI hy (hdepth' ▸ hr) h1.symm
  have hX := hO.finished_of_serial hI ⟨hXY, hspace⟩ h2.symm.isSerial (Stage.le_trans (by decide) hY)
  -- and the end of `X` down to `x`
  have hopen := (hI.events.open_iff _).not.mp (hI.reached_of_ancestor hx hX)
  omega

/-- Two tasks on the same resource; the first leaves the work to a child. -/
def writerWithChild : Body Nat :=
  .emplace [.resources [Graph.ioAccess 0 .write]]
    (.emplace [.resources [Graph.ioAccess 0 .write]] (.write (Graph.ioResource 0) 1 .done) .done)
    (.emplace [.resources [Graph.ioAccess 0 .write]] (.write (Graph.ioResource 0) 2 .done) .done)

/-- The second task is initialised between the end of the first task's body and
the start of its child.  The thread `m` submits, `i` and `j` are workers. -/
def writerWithChildRun (m i j : Fin 3) : List (Action (Fin 3)) :=
  List.flatten [.replicate 8 (.run m), .call i (.popEmplaced 0) :: .replicate 23 (.run i),
    .call j (.popEmplaced 1) :: .replicate 10 (.run j),
    .call i (.popEmplaced 2) :: .replicate 38 (.run i), [.call j (.popReady 1), .run j]]

theorem hierarchical_order_writer_with_child :
    ∃ s : State (Fin 3) Nat, s.core.AncestorOrSelf 0 2 ∧ s.core.counter (.pre 1) = 0 ∧
      s.core.counter (.post 2) = 0 := by
  have hrun : ((exec step AssertsNested (writerWithChildRun 0 1 2)
      (State.initial 0 writerWithChild fun _ => 0)).map fun s => (s.core.counter (.pre 1),
        s.core.next, [0, 1, 2].map fun t => (s.core.info t).space,
        (s.core.userOf 2).isSerial (s.core.userOf 1),
        (s.core.userOf 2).accessList.map fun ra => ra.resource)) =
      some (0, 3, [none, none, some 0], true, [Graph.ioResource 0]) := by
    decide +kernel
  obtain ⟨s, hs, h⟩ := Option.map_eq_some_iff.mp hrun
  simp only [List.map_cons, List.map_nil, Prod.mk.injEq, List.cons.injEq] at h
  obtain ⟨hpre, hnext, ⟨h0, h1, h2, -⟩, hser, hres⟩ := h
  have hanc : s.core.AncestorOrSelf 0 2 := .single ⟨by omega, h2⟩
  obtain ⟨r, hconf⟩ := ResourceUser.isSerial_iff.mp hser
  have hr : r = Graph.ioResource 0 := by
    obtain ⟨x, y, hx, -⟩ := hconf
    simpa [hres] using List.mem_map_of_mem (f := fun ra => ra.resource) hx
  refine ⟨s, hanc, hpre, hierarchical_order (Reaches.refl.of_exec hs) hanc .refl Nat.zero_lt_one
    (h0.trans h1.symm) hconf ?_ hpre⟩
  rw [hr]
  exact Nat.zero_le _

end RedGrapes.Runtime
