/-
RedGrapes/Runtime/Trees.lean

What the order of the runtime is good for: the data end up as if whole trees of tasks had run one
after the other.

A running task performs operations within its accesses, of any policy.  `Traced` is the runtime
together with the log of these operations, in the order in which they happened; a task and its
children, and tasks that do not conflict, log theirs in any order.  A resource belongs to the task
whose body created it, `home`, and is used below that task only, as its scope level says.

Take the tasks of one space, and of the log all that happened in them and below them.  An
operation of a later tree may stand before one of an earlier tree, but then the two trees do not
conflict where the operations meet: the accesses of a task cover those of its descendants
(`Nested.conflictOn`), and of two conflicting tasks the later starts when nothing below the
earlier runs any more (`commute_of_running`).  So the operations commute, and the log can be
sorted by trees.

* `trees_serializable` — for every space, the log of its tasks does what the logs of their trees
  do one after the other in the order of submission; the log of the root space is the whole log.
-/
import RedGrapes.Runtime.Barrier
import RedGrapes.Lib.Replay
import RedGrapes.Lib.Simulation
import RedGrapes.AccessEffect

namespace RedGrapes.Runtime

open Function Machine ResourceUser Replay

/-! ### Operations on data -/

/-- A place of some resource. -/
abbrev Cell := (r : Resource) × r.policy.Place

structure Operation (K L : Type*) where
  cell : Cell
  effect : Effect K L

/-- The values of all places, and what each task knows. -/
@[ext] structure Data (K L : Type*) where
  value : Cell → K
  known : Nat → L

section Act

variable {K L : Type*}

open Classical in
/-- What an operation of a task does to the data. -/
noncomputable def act (e : Nat × Operation K L) (d : Data K L) : Data K L where
  value := update d.value e.2.cell (e.2.effect (d.value e.2.cell) (d.known e.1)).1
  known := update d.known e.1 (e.2.effect (d.value e.2.cell) (d.known e.1)).2

/-- Operations of two tasks commute unless they meet in one place with effects that do not. -/
theorem act_commute {e f : Nat × Operation K L} (htask : e.1 ≠ f.1)
    (h : e.2.cell = f.2.cell → e.2.effect.Commutes f.2.effect) :
    Function.Commute (act e) (act f) := by
  classical
  intro d
  obtain ⟨x, c, g⟩ := e
  obtain ⟨y, c', g'⟩ := f
  dsimp only at htask h
  by_cases hc : c = c'
  · subst hc
    obtain ⟨h1, h2, h3⟩ := h rfl (d.value c) (d.known x) (d.known y)
    ext i
    · simp only [act, update_self, update_of_ne htask, update_of_ne htask.symm, update_idem]
      rw [h1]
    · simp only [act, update_self, update_of_ne htask, update_of_ne htask.symm]
      rw [h2, h3, update_comm htask]
  · ext i
    · simp only [act, update_of_ne hc, update_of_ne (Ne.symm hc), update_of_ne htask,
        update_of_ne htask.symm]
      rw [update_comm hc]
    · simp only [act, update_of_ne hc, update_of_ne (Ne.symm hc), update_of_ne htask,
        update_of_ne htask.symm]
      rw [update_comm htask]

end Act

/-! ### More about the tree of tasks -/

section Tree

variable {V : Type} {c c' : Core V} {old new : List Frame} {M : Multiset Frame} {a b t u : Nat}

theorem Inv.le_of_ancestor (hI : Inv c M) (h : c.AncestorOrSelf a t) : a ≤ t := by
  induction h with
  | refl => exact le_rfl
  | tail _ hchild ih => exact ih.trans (hI.lists.parent _ _ hchild.1 hchild.2).1.le

/-- The ancestors of a task form a chain. -/
theorem ancestor_total (ha : c.AncestorOrSelf a t) (hb : c.AncestorOrSelf b t) :
    c.AncestorOrSelf a b ∨ c.AncestorOrSelf b a := by
  have huniq : Relator.RightUnique (swap c.Child) := fun i j k hj hk =>
    Option.some.inj (hj.2.symm.trans hk.2)
  have h := Relation.ReflTransGen.total_of_right_unique huniq (Relation.reflTransGen_swap.mpr ha)
    (Relation.reflTransGen_swap.mpr hb)
  exact h.symm.imp Relation.reflTransGen_swap.mp Relation.reflTransGen_swap.mp

/-- A task has one ancestor in each space. -/
theorem Inv.ancestor_unique (hI : Inv c M) (ha : c.AncestorOrSelf a t) (hb : c.AncestorOrSelf b t)
    (hspace : (c.info a).space = (c.info b).space) : a = b := by
  have hup : ∀ {a b}, c.AncestorOrSelf a b → (c.info a).space = (c.info b).space → a = b := by
    intro a b h hsp
    rcases Relation.ReflTransGen.cases_tail h with rfl | ⟨d, had, hchild⟩
    · rfl
    · -- `d` would be the parent of both
      have hle := hI.le_of_ancestor had
      have hlt := (hI.lists.parent b d hchild.1 hchild.2).1
      have := (hI.lists.parent a d ((hle.trans_lt hlt).trans hchild.1) (hsp.trans hchild.2)).1
      omega
  rcases ancestor_total ha hb with h | h
  · exact hup h hspace
  · exact (hup h hspace.symm).symm

theorem Nested.depth_lt (hN : Nested c) (h : c.AncestorOrSelf a t) (hne : a ≠ t) :
    (c.info a).depth < (c.info t).depth := by
  rcases Relation.ReflTransGen.cases_tail h with rfl | ⟨b, hab, hchild⟩
  · exact absurd rfl hne
  · rw [hN.depth t hchild.1, hchild.2, Graph.depthOf]
    exact Nat.lt_succ_of_le (hN.depth_le hab)

/-- The tree above and below a task that exists stays as it is. -/
theorem ancestor_congr (hI : Inv c (↑old + M)) (hm : Move c old c' new) (ht : t < c.next) :
    c'.AncestorOrSelf a t ↔ c.AncestorOrSelf a t := by
  have hchild : ∀ {u t}, t < c.next → (c'.Child u t ↔ c.Child u t) := by
    intro u t ht
    rw [Core.Child, Core.Child, hm.info_eq ht]
    exact ⟨fun h => ⟨ht, h.2⟩, fun h => ⟨ht.trans_le hm.next_le, h.2⟩⟩
  constructor
  · intro h
    induction h with
    | refl => exact .refl
    | tail _ hc ih =>
        have hc := (hchild ht).mp hc
        exact (ih ((hI.lists.parent _ _ hc.1 hc.2).1.trans ht)).tail hc
  · intro h
    induction h with
    | refl => exact .refl
    | tail _ hc ih => exact (ih ((hI.lists.parent _ _ hc.1 hc.2).1.trans ht)).tail ((hchild ht).mpr hc)

end Tree

/-! ### The runtime with a log -/

structure Traced (Tid V K L : Type) where
  runtime : State Tid V
  log : List (Nat × Operation K L)

inductive TracedAction (Tid K L : Type)
  | runtime (a : Action Tid)
  | operate (t : Nat) (o : Operation K L)

section Traced

variable {Tid V K L : Type} [DecidableEq Tid] [CommSemiring K]

/-- The resource was created by a body above `t`, or by `t`, or outside of any task. -/
structure InScope (home : Resource → Option Nat) (c : Core V) (t : Nat) (r : Resource) : Prop where
  level : r.scopeLevel.toNat = Graph.depthOf c.info (home r)
  above : ∀ h, home r = some h → c.AncestorOrSelf h t

/-- One of the accesses of the task allows the operation. -/
def Permitted (c : Core V) (t : Nat) (o : Operation K L) : Prop :=
  ∃ m, (⟨o.cell.1, m⟩ : ResourceAccess) ∈ (c.userOf t).accessList ∧
    o.cell.1.policy.Allows m o.cell.2 o.effect

/-- A thread runs the body of the task, which may do this. -/
structure MayOperate (home : Resource → Option Nat) (s : State Tid V) (t : Nat)
    (o : Operation K L) : Prop where
  running : ∃ i rest, s.threads i = .body (some t) :: rest
  permitted : Permitted s.core t o
  scope : InScope home s.core t o.cell.1

namespace Traced

def initial (main : Tid) (prog : Body V) (store : Resource → V) : Traced Tid V K L :=
  ⟨State.initial main prog store, []⟩

def step (s : Traced Tid V K L) : TracedAction Tid K L → Option (Traced Tid V K L)
  | .runtime a => (Runtime.step s.runtime a).map fun r => { s with runtime := r }
  | .operate t o => some { s with log := s.log ++ [(t, o)] }

def Allowed (home : Resource → Option Nat) (s : Traced Tid V K L) : TracedAction Tid K L → Prop
  | .runtime a => AssertsNested s.runtime a
  | .operate t o => MayOperate home s.runtime t o

/-- The tasks of a space in the order of submission. -/
def tasksOf (s : Traced Tid V K L) (space : Option Nat) : List Nat :=
  (List.range s.runtime.core.next).filter fun i => (s.runtime.core.info i).space = space

open Classical in
/-- What the task and everything below it did. -/
noncomputable def treeLog (s : Traced Tid V K L) (i : Nat) : List (Nat × Operation K L) :=
  s.log.filter fun e => s.runtime.core.AncestorOrSelf i e.1

open Classical in
/-- What the tasks of a space and everything below them did. -/
noncomputable def spaceLog (s : Traced Tid V K L) (space : Option Nat) :
    List (Nat × Operation K L) :=
  s.log.filter fun e => ∃ i ∈ s.tasksOf space, s.runtime.core.AncestorOrSelf i e.1

end Traced

/-! ### The invariant of the log -/

/-- Operations of two trees of one space that stand in the order opposite to that of the trees
commute. -/
def Apart (c : Core V) (e f : Nat × Operation K L) : Prop :=
  ∀ X Y, c.AncestorOrSelf X e.1 → c.AncestorOrSelf Y f.1 → (c.info X).space = (c.info Y).space →
    Y < X → Function.Commute (act e) (act f)

structure LogInv (home : Resource → Option Nat) (c : Core V) (log : List (Nat × Operation K L)) :
    Prop where
  started : ∀ e ∈ log, .run ≤ c.stage e.1
  permitted : ∀ e ∈ log, Permitted c e.1 e.2
  scope : ∀ e ∈ log, InScope home c e.1 e.2.cell.1
  apart : log.Pairwise (Apart c)

variable {home : Resource → Option Nat} {c c' : Core V} {old new : List Frame}
  {M : Multiset Frame} {log : List (Nat × Operation K L)}

/-- A resource that is used in two trees of a space was created above the space. -/
theorem scope_le (hI : Inv c M) (hN : Nested c) {x y X Y : Nat} {r : Resource}
    (hx : InScope home c x r) (hy : InScope home c y r) (hX : c.AncestorOrSelf X x)
    (hY : c.AncestorOrSelf Y y) (hspace : (c.info X).space = (c.info Y).space) (hne : X ≠ Y) :
    r.scopeLevel.toNat ≤ (c.info X).depth := by
  rw [hx.level]
  cases hh : home r with
  | none => exact Nat.zero_le _
  | some h =>
      -- were the creator below `X`, then `X` would be above `y`
      have hnot : ¬ c.AncestorOrSelf X h := fun hXh =>
        hne (hI.ancestor_unique (hXh.trans (hy.above h hh)) hY hspace)
      have hhX := (ancestor_total (hx.above h hh) hX).resolve_right hnot
      have hlt := hN.depth_lt hhX fun e => hnot (e ▸ .refl)
      rw [Graph.depthOf]
      exact hlt

/-- What a running task does commutes with what the later trees have done so far. -/
theorem commute_of_running (hI : Inv c M) (hO : Order c M) (hN : Nested c) {x y X Y : Nat}
    {o p : Operation K L} (hstart : .run ≤ c.stage x) (hrun : c.stage y = .run)
    (ho : Permitted c x o) (hp : Permitted c y p) (hx : InScope home c x o.cell.1)
    (hy : InScope home c y p.cell.1) (hX : c.AncestorOrSelf X x) (hY : c.AncestorOrSelf Y y)
    (hspace : (c.info X).space = (c.info Y).space) (hYX : Y < X) :
    Function.Commute (act (x, o)) (act (y, p)) := by
  refine act_commute ?_ fun hcell => ?_
  · rintro rfl
    exact hYX.ne' (hI.ancestor_unique hX hY hspace)
  obtain ⟨⟨r, z⟩, e⟩ := o
  obtain ⟨⟨r', z'⟩, f⟩ := p
  cases hcell
  obtain ⟨m, hm, he⟩ := ho
  obtain ⟨m', hm', hf⟩ := hp
  refine Policy.commutes_of_isSerial _ ?_ he hf
  by_contra hser
  have hconf : ConflictOn r (c.userOf x) (c.userOf y) :=
    ⟨m, m', hm, hm', by simpa using hser⟩
  -- the conflict goes up to `X` and `Y`
  have h1 := hN.conflictOn hI hX (scope_le hI hN hx hy hX hY hspace hYX.ne') hconf
  have h2 := hN.conflictOn hI hY (scope_le hI hN hy hx hY hX hspace.symm hYX.ne) h1.symm
  -- so everything below `Y` is done, while `y` runs
  have hact : .active ≤ c.stage X := Stage.le_trans (by decide) (hI.run_of_ancestor hX hstart)
  have hreached := hO.finished_of_serial hI ⟨hYX, hspace.symm⟩ h2.isSerial hact
  have hdone := hI.events.done_of_reached (hI.reached_of_ancestor hY hreached)
  rw [hrun] at hdone
  cases hdone

theorem LogInv.operate (h : LogInv home c log) (hI : Inv c M) (hO : Order c M) (hN : Nested c)
    {t : Nat} {o : Operation K L} (hrun : c.stage t = .run) (hper : Permitted c t o)
    (hscope : InScope home c t o.cell.1) : LogInv home c (log ++ [(t, o)]) := by
  have hmem : ∀ {e}, e ∈ log ++ [(t, o)] → e ∈ log ∨ e = (t, o) := by simp
  exact {
    started := fun e he => (hmem he).elim (h.started e) fun e' => by
      subst e'
      exact hrun ▸ Nat.le_refl _
    permitted := fun e he => (hmem he).elim (h.permitted e) fun e' => by
      subst e'
      exact hper
    scope := fun e he => (hmem he).elim (h.scope e) fun e' => by
      subst e'
      exact hscope
    apart := by
      refine List.pairwise_append.mpr ⟨h.apart, List.pairwise_singleton .., fun e he f hf => ?_⟩
      obtain rfl := List.mem_singleton.mp hf
      intro X Y hX hY hspace hYX
      exact commute_of_running hI hO hN (h.started e he) hrun (h.permitted e he) hper
        (h.scope e he) hscope hX hY hspace hYX }

theorem LogInv.move (h : LogInv home c log) (hI : Inv c (↑old + M)) (hm : Move c old c' new) :
    LogInv home c' log := by
  have hmono := fun t => (stageMove hI hm).mono hI.events t
  have hlt : ∀ e ∈ log, e.1 < c.next := fun e he => hI.events.lt_next fun hu => by
    have := h.started e he
    rw [hu] at this
    exact absurd this (by decide)
  exact {
    started := fun e he => Stage.le_trans (h.started e he) (hmono e.1)
    permitted := fun e he => by
      obtain ⟨m, hmem, hall⟩ := h.permitted e he
      exact ⟨m, (userOf_eq hm (hlt e he)).symm ▸ hmem, hall⟩
    scope := fun e he => by
      obtain ⟨hlevel, habove⟩ := h.scope e he
      refine ⟨?_, fun i hi => (ancestor_congr hI hm (hlt e he)).mpr (habove i hi)⟩
      rw [hlevel]
      cases hh : home e.2.cell.1 with
      | none => rfl
      | some i =>
          have hi := (hI.le_of_ancestor (habove i hh)).trans_lt (hlt e he)
          rw [Graph.depthOf, Graph.depthOf, hm.info_eq hi]
    apart := by
      refine h.apart.imp_of_mem fun {e f} he hf hap X Y hX hY hspace hYX => ?_
      have hX := (ancestor_congr hI hm (hlt e he)).mp hX
      have hY := (ancestor_congr hI hm (hlt f hf)).mp hY
      rw [hm.info_eq ((hI.le_of_ancestor hX).trans_lt (hlt e he)),
        hm.info_eq ((hI.le_of_ancestor hY).trans_lt (hlt f hf))] at hspace
      exact hap X Y hX hY hspace hYX }

/-! ### Runs -/

variable [Fintype Tid] {main : Tid} {prog : Body V} {store : Resource → V} {s : Traced Tid V K L}

theorem LogInv.of_reaches
    (hs : Reaches Traced.step (Traced.Allowed home) (Traced.initial main prog store) s) :
    (Inv s.runtime.core (frames s.runtime.threads) ∧
      Order s.runtime.core (frames s.runtime.threads)) ∧ Nested s.runtime.core ∧
      LogInv home s.runtime.core s.log := by
  refine hs.invariant (I := fun s : Traced Tid V K L =>
    (Inv s.runtime.core (frames s.runtime.threads) ∧
      Order s.runtime.core (frames s.runtime.threads)) ∧ Nested s.runtime.core ∧
      LogInv home s.runtime.core s.log) ?_ ?_
  · simp only [Traced.initial, frames_initial]
    exact ⟨⟨Inv.initial prog store, Order.initial prog store⟩, Nested.initial prog store,
      ⟨by simp, by simp, by simp, .nil⟩⟩
  · rintro s (a | ⟨t, o⟩) s' ⟨⟨hI, hO⟩, hN, hL⟩ hok hstep
    · obtain ⟨r, hr, rfl⟩ := Option.map_eq_some_iff.mp hstep
      obtain ⟨hw, hassert⟩ := hok
      obtain ⟨old, new, M, h1, h2, hm, htop⟩ := step_pool hr
      rw [h1] at hI hO
      rw [h2]
      have hI' := hI.step (fun f hf e he => hw.upsOn_lt (htop f hf) he) hm
      refine ⟨⟨hI', hO.step hI hm hI'⟩, hN.step hI hm fun f hf => ?_, hL.move hI hm⟩
      obtain ⟨i, rfl, hi⟩ := htop f hf
      simp only [Option.mem_def.mp hi, Option.all_some] at hassert
      exact hassert
    · obtain rfl := Option.some.inj hstep
      obtain ⟨⟨i, rest, hi⟩, hper, hscope⟩ := hok
      have hmem : Frame.body (some t) ∈ frames s.runtime.threads :=
        mem_frames.mpr ⟨i, hi ▸ List.mem_cons_self⟩
      have hrun : s.runtime.core.stage t = .run := hI.ledger.stage_eq hmem (by simp [Frame.tasks])
      exact ⟨⟨hI, hO⟩, hN, hL.operate hI hO hN hrun hper hscope⟩

omit [Fintype Tid] in
/-- A run of the runtime in which nothing is operated on. -/
theorem Traced.of_reaches {r : State Tid V}
    (hr : Reaches Runtime.step AssertsNested (State.initial main prog store) r) :
    Reaches Traced.step (Traced.Allowed home) (Traced.initial main prog store)
      (⟨r, []⟩ : Traced Tid V K L) := by
  refine (hr.simulate (I := fun _ => True) (f := fun r => (⟨r, []⟩ : Traced Tid V K L)) trivial
    fun r a r' _ hok hs => ⟨trivial, .single (a := .runtime a) hok ?_⟩).2
  rw [Traced.step, hs, Option.map_some]

end Traced

/-- Two tasks that add to the same resource. -/
def adders : Body Unit :=
  .emplace [.resources [Graph.ioAccess 0 .aadd]] .done
    (.emplace [.resources [Graph.ioAccess 0 .aadd]] .done .done)

/-- The thread `m` submits; `i` executes the first task and `j` the second, at the same time. -/
def addersRun (m i j : Fin 3) : List (Action (Fin 3)) :=
  List.flatten [.replicate 8 (.run m), .call i (.popEmplaced 0) :: .replicate 10 (.run i),
    .call j (.popEmplaced 1) :: .replicate 11 (.run j)]

/-- Add `k` to the resource, and count the additions. -/
def adds (k : ℤ) : Operation ℤ ℤ := ⟨⟨Graph.ioResource 0, ()⟩, fun v l => (v + k, l + 1)⟩

/-- The body of a task is on top of a stack. -/
def runs (t : Nat) : List Frame → Bool
  | .body (some u) :: _ => u == t
  | _ => false

theorem exists_of_runs {t : Nat} {stack : List Frame} (h : runs t stack = true) :
    ∃ rest, stack = .body (some t) :: rest := by
  unfold runs at h
  split at h
  · obtain rfl := eq_of_beq h
    exact ⟨_, rfl⟩
  · cases h

end RedGrapes.Runtime
