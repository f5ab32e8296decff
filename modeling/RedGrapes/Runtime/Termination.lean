/-
RedGrapes/Runtime/Termination.lean

Every run ends.

A run can only go on for ever if user code moves `Future` objects for ever.  Every other step
lowers a measure in layers.  The first layer is what is left of the bodies: a body is followed by a
part of itself, or by two of them when it submits a task.  The layers below count what the
runtime has still to do for the tasks there are, in the order in which one thing brings about
another: stages that tasks have not reached, places of `submit`, positions of the scans, external
events and `Future` objects, follower entries that are not notified, and at the end the places in
`EventPtr::notify`.

* `runs_end` — no run is infinite, once no more `Future`s are moved.
-/
import RedGrapes.Runtime.Progress
import RedGrapes.Lib.Layers
import Mathlib.Logic.Hydra

namespace RedGrapes.Runtime

open Function Machine Relation

variable {V : Type}

/-! ### Bodies -/

namespace Body

/-- The body goes on as `b`, or submits `b`. -/
inductive Part : Body V → Body V → Prop
  | read (r : Resource) (k : V → Body V) (v : V) : Part (k v) (.read r k)
  | write (r : Resource) (v : V) (k : Body V) : Part k (.write r v k)
  | child (calls : List BuilderCall) (child k : Body V) : Part child (.emplace calls child k)
  | emplace (calls : List BuilderCall) (child k : Body V) : Part k (.emplace calls child k)
  | createEvent (k : Body V) : Part k (.createEvent k)

theorem part_wf : WellFounded (Part (V := V)) := by
  refine ⟨fun b => ?_⟩
  induction b with
  | done => exact ⟨_, fun _ h => by cases h⟩
  | read r k ih =>
      refine ⟨_, fun b h => ?_⟩
      cases h
      exact ih _
  | write r v k ih =>
      refine ⟨_, fun b h => ?_⟩
      cases h
      exact ih
  | emplace calls child k ih₁ ih₂ =>
      refine ⟨_, fun b h => ?_⟩
      cases h
      · exact ih₁
      · exact ih₂
  | createEvent k ih =>
      refine ⟨_, fun b h => ?_⟩
      cases h
      exact ih

instance : Std.Irrefl (Part (V := V)) := ⟨fun b => part_wf.irrefl.irrefl b⟩

end Body

/-- What is left of the main program and of the bodies of the tasks. -/
def Core.codes (c : Core V) : Multiset (Body V) :=
  c.code none ::ₘ (Multiset.range c.next).map fun t => c.code (some t)

section Codes

variable {c c' : Core V} {cur : Option Nat} {k child : Body V} {calls : List BuilderCall}

/-- The code of one thread of control among the others. -/
theorem codes_update (hcur : ∀ t, cur = some t → t < c.next) :
    ∃ R : Multiset (Body V), c.codes = c.code cur ::ₘ R ∧ ∀ k : Body V,
      update c.code cur k none ::ₘ
        (Multiset.range c.next).map (fun t => update c.code cur k (some t)) = k ::ₘ R := by
  cases cur with
  | none =>
      refine ⟨_, rfl, fun k => ?_⟩
      simp
  | some u =>
      have hu := hcur u rfl
      obtain ⟨N, hN⟩ := Multiset.exists_cons_of_mem (Multiset.mem_range.mpr hu)
      have hnot : u ∉ N := by
        have hnodup := Multiset.nodup_range c.next
        rw [hN, Multiset.nodup_cons] at hnodup
        exact hnodup.1
      refine ⟨c.code none ::ₘ N.map fun t => c.code (some t), ?_, fun k => ?_⟩
      · rw [Core.codes, hN, Multiset.map_cons, Multiset.cons_swap]
      · rw [hN, Multiset.map_cons, update_self, Multiset.cons_swap, update_of_ne (by simp)]
        congr 2
        refine Multiset.map_congr rfl fun t ht => ?_
        rw [update_of_ne]
        rintro ⟨⟩
        exact hnot ht

/-- A body goes on. -/
theorem codes_continue (hcur : ∀ t, cur = some t → t < c.next) (hk : k.Part (c.code cur))
    (hcode : c'.code = update c.code cur k) (hn : c'.next = c.next) :
    CutExpand Body.Part c'.codes c.codes := by
  obtain ⟨R, hc, hk'⟩ := codes_update hcur
  rw [hc, Core.codes, hcode, hn, hk' k]
  refine ⟨{k}, c.code cur, by simpa using hk, ?_⟩
  rw [← Multiset.singleton_add, ← Multiset.singleton_add]
  abel

/-- A body submits a task. -/
theorem codes_create (hcur : ∀ t, cur = some t → t < c.next)
    (hcode : c.code cur = .emplace calls child k) :
    CutExpand Body.Part (c.create cur calls child k).codes c.codes := by
  obtain ⟨R, hc, hk'⟩ := codes_update hcur
  have hne : cur ≠ some c.next := fun h => lt_irrefl _ (hcur _ h)
  have hnew : (c.create cur calls child k).codes = child ::ₘ k ::ₘ R := by
    rw [← hk' k, Core.codes]
    simp only [Core.create, Multiset.range_succ, Multiset.map_cons, update_self]
    rw [update_of_ne (by simp), Multiset.cons_swap]
    congr 2
    refine Multiset.map_congr rfl fun t ht => ?_
    rw [update_of_ne]
    rintro ⟨⟩
    exact lt_irrefl _ (Multiset.mem_range.mp ht)
  rw [hnew, hc, hcode]
  refine ⟨{child, k}, .emplace calls child k, fun b hb => ?_, ?_⟩
  · simp only [Multiset.insert_eq_cons, Multiset.mem_cons, Multiset.mem_singleton] at hb
    rcases hb with rfl | rfl
    · exact .child ..
    · exact .emplace ..
  · simp only [Multiset.insert_eq_cons, ← Multiset.singleton_add]
    abel

end Codes

/-! ### The layers below the bodies -/

namespace Core

/-- The stages that the tasks have still to reach. -/
def ahead (c : Core V) : Nat := ∑ t ∈ Finset.range c.next, (11 - (c.stage t).rank)

/-- The follower entries that are not notified. -/
def unnotified (c : Core V) : Nat := c.followers.countP (·.notified == 0)

end Core

/-- What can still be done with an external event. -/
def ExtStage.ahead : ExtStage → Nat
  | .creating => 2
  | .live => 1
  | _ => 0

/-- What can still be done with a `Future` that is not moved. -/
def Handle.ahead (h : Handle) : Nat :=
  match h.status with
  | .live => 3
  | .inGet => 2
  | .taken => 1
  | .destroyed => 0

/-- External events to be notified, and `Future`s to be read or destroyed. -/
def Core.outside (c : Core V) : Nat :=
  ∑ x ∈ Finset.range c.nextEvent, (c.extStage x).ahead + (c.handles.map Handle.ahead).sum

namespace Frame

/-- Places of `submit` before the user lists. -/
def submits : Frame → Nat
  | .submit .follower _ _ => 2
  | .submit (.count _) _ _ => 1
  | _ => 0

/-- Places of `submit` in the user lists and after them. -/
def enters : Frame → Nat
  | .submit (.users rs) _ _ => rs.length + 2
  | .submit .future _ _ => 1
  | _ => 0

/-- The steps that the scans of the usage entries may take. -/
def scanCost : List (Resource × Nat) → Nat
  | [] => 0
  | (_, k) :: es => scanCost es + 6 * k + 3

/-- Places of `init_dependencies`. -/
def scans : Frame → Nat
  | .init (.resources es) _ => scanCost es
  | .init (.unlock _ es) _ => scanCost es + 1
  | .init (.scan _ k es) _ => scanCost es + 6 * k + 2
  | .init (.next _ k _ es) _ => scanCost es + 6 * k + 3
  | .init (.count _ k _ es _) _ => scanCost es + 6 * k + 4
  | .init (.push _ k _ es) _ => scanCost es + 6 * k + 5
  | .init (.follow _ k _ es) _ => scanCost es + 6 * k + 6
  | .init (.check _ k _ es) _ => scanCost es + 6 * k + 7
  | _ => 0

/-- No place of `submit` or `init_dependencies`. -/
def late (f : Frame) : Bool := f.submits == 0 && f.enters == 0 && f.scans == 0

/-- Notifications that are about to begin. -/
def wakes : Frame → Nat
  | .notifyGet _ => 2
  | .waker .. => 1
  | _ => 0

/-- Places of a notification that reaches its event. -/
def releases : Frame → Nat
  | .delete (.resources es) _ => 3 * es.length + 5
  | .delete (.unlock _ es) _ => 3 * es.length + 6
  | .delete (.remove _ _ es) _ => 3 * es.length + 7
  | .loop _ => 4
  | .followers .. => 3
  | .removal .. => 2
  | .free _ => 1
  | .activate _ => 1
  | _ => 0

end Frame

/-- The layers below the bodies. -/
def layers (c : Core V) (M : Multiset Frame) : ℕ ×ₗ ℕ ×ₗ ℕ ×ₗ ℕ ×ₗ ℕ ×ₗ ℕ ×ₗ ℕ ×ₗ ℕ :=
  toLex (c.ahead, toLex (load Frame.submits M, toLex (load Frame.enters M,
    toLex (load Frame.scans M, toLex (c.outside, toLex (c.unnotified,
      toLex (load Frame.wakes M, load Frame.releases M)))))))

section Layers

variable {c c' : Core V} {old new : List Frame} {M M' : Multiset Frame} {t : Nat} {f : Frame}

/-- A task that goes on to its next stage lowers the first of them. -/
theorem StageMove.ahead_lt (h : StageMove c c') (hE : Events c) (hn : c'.next = c.next)
    (hne : c'.stage t ≠ c.stage t) : c'.ahead < c.ahead := by
  cases h with
  | same hst => exact absurd (congrFun hst t) hne
  | create _ hn' =>
      rw [hn] at hn'
      exact absurd hn' (by omega)
  | go s σ σ' hs hnext hst _ _ =>
      have hlt : s < c.next := hE.lt_next (by rw [hs]; cases hnext <;> simp)
      have hrank : σ'.rank ≤ 11 := by cases σ' <;> decide
      have := hnext.rank_lt
      rw [Core.ahead, Core.ahead, hn]
      refine Finset.sum_lt_sum (fun i _ => ?_) ⟨s, Finset.mem_range.mpr hlt, ?_⟩
      · rw [hst]
        by_cases e : i = s
        · rw [e, update_self, hs]
          omega
        · rw [update_of_ne e]
      · rw [hst, update_self, hs]
        omega

/-- A step that goes on with one external event, … -/
theorem outside_lt_of_event (hE : Events c) {x : Nat} {σ : ExtStage} (hx : c.extStage x ≠ .unborn)
    (hlt : σ.ahead < (c.extStage x).ahead) (hst : c'.extStage = update c.extStage x σ)
    (hn : c'.nextEvent = c.nextEvent) (hh : c'.handles = c.handles) : c'.outside < c.outside := by
  have hborn : x < c.nextEvent := by
    by_contra hge
    exact hx ((hE.event x).mpr (by omega))
  have := sum_range_update ExtStage.ahead c.extStage hborn σ
  rw [Core.outside, Core.outside, hst, hn, hh]
  omega

/-- … or with one `Future`. -/
theorem outside_lt_of_handle {h : Nat} {a b : Handle} (ha : c.handles[h]? = some a)
    (hlt : b.ahead < a.ahead) (hst : c'.extStage = c.extStage) (hn : c'.nextEvent = c.nextEvent)
    (hh : c'.handles = c.handles.set h b) : c'.outside < c.outside := by
  have := sum_map_set Handle.ahead b ha
  rw [Core.outside, Core.outside, hst, hn, hh]
  omega

/-- A notification begins with at most one frame. -/
theorem sum_notifyTail (w : Frame → Nat) {e : EventPtr} {b : Bool}
    (hw : ∀ old, w (.waker e old b) ≤ t) : ((c.notifyTail e b).map w).sum ≤ t := by
  unfold Core.notifyTail
  split_ifs
  · exact Nat.zero_le _
  · simpa using hw _

theorem late_of_mem_notifyTail {e : EventPtr} {b : Bool} (hf : f ∈ c.notifyTail e b) :
    f.late = true := by
  unfold Core.notifyTail at hf
  split_ifs at hf
  · simp at hf
  · obtain rfl := List.mem_singleton.mp hf
    rfl

theorem load_le (w : Frame → Nat) (h : (new.map w).sum ≤ (old.map w).sum) :
    load w (↑new + M) ≤ load w (↑old + M) := by
  rw [load_coe_add, load_coe_add]
  omega

theorem load_lt (w : Frame → Nat) (h : (new.map w).sum < (old.map w).sum) :
    load w (↑new + M) < load w (↑old + M) := by
  rw [load_coe_add, load_coe_add]
  omega

/-- The step of a body, or a step that lowers the layers below. -/
inductive Lowers (c c' : Core V) (old new : List Frame) (M : Multiset Frame) : Prop
  | code (h : CutExpand Body.Part c'.codes c.codes)
  | layers (h : c'.codes = c.codes) (hlt : layers c' (↑new + M) < layers c (↑old + M))

/-- Frames that are no places of `submit` or `init_dependencies` leave the first layers as they
are. -/
theorem Lowers.of_late (hcodes : c'.codes = c.codes) (hahead : c'.ahead ≤ c.ahead)
    (hnew : ∀ f ∈ new, f.late = true)
    (h : toLex (c'.outside, toLex (c'.unnotified,
        toLex (load Frame.wakes (↑new + M), load Frame.releases (↑new + M)))) <
      toLex (c.outside, toLex (c.unnotified,
        toLex (load Frame.wakes (↑old + M), load Frame.releases (↑old + M))))) :
    Lowers c c' old new M := by
  have hzero : ∀ w : Frame → Nat, (∀ f ∈ new, w f = 0) → (new.map w).sum ≤ (old.map w).sum := by
    intro w hw
    rw [List.sum_eq_zero (by simpa using hw)]
    exact Nat.zero_le _
  have hlate : ∀ f ∈ new, (f.submits = 0 ∧ f.enters = 0) ∧ f.scans = 0 := by
    simpa [Frame.late] using hnew
  exact .layers hcodes (layer_after hahead
    (layer_after (load_le _ (hzero _ fun f hf => (hlate f hf).1.1))
      (layer_after (load_le _ (hzero _ fun f hf => (hlate f hf).1.2))
        (layer_after (load_le _ (hzero _ fun f hf => (hlate f hf).2)) h))))

/-- Every move but that of a `Future` lowers the measure. -/
theorem Move.lowers (hI : Inv c (↑old + M)) (hm : Move c old c' new)
    (hh : old = [] → c'.handles.length = c.handles.length) : Lowers c c' old new M := by
  have hL := hI.ledger
  have hE := hI.events
  have hS := stageMove hI hm
  have hcur : ∀ cur rest, old = .body cur :: rest → ∀ t, cur = some t → t < c.next := by
    rintro _ rest rfl t rfl
    have ht : c.stage t = .run := hL.stage_head List.mem_cons_self
    exact hE.lt_next (by rw [ht]; simp)
  cases hm
  -- the bodies
  case read cur r k hcode =>
    exact .code (codes_continue (hcur _ _ rfl) (hcode ▸ .read r k _) rfl rfl)
  case write cur r v k hcode =>
    exact .code (codes_continue (hcur _ _ rfl) (hcode ▸ .write r v k) rfl rfl)
  case emplaceRoot calls child k hcode => exact .code (codes_create (hcur _ _ rfl) hcode)
  case emplaceChild u calls child k hcode => exact .code (codes_create (hcur _ _ rfl) hcode)
  case noEvent k hcode =>
    exact .code (codes_continue (hcur _ _ rfl) (hcode ▸ .createEvent k) rfl rfl)
  case createEvent t k hcode =>
    exact .code (codes_continue (hcur _ _ rfl) (hcode ▸ .createEvent k) rfl rfl)
  -- the stages
  case bodyDone t _ | emplaced t _ | claim t _ | block t _ =>
    have ht := hL.stage_head (t := t) List.mem_cons_self
    exact .layers rfl (layer_here (hS.ahead_lt hE rfl (t := t) (by simp [Core.setStage, ht])))
  case initUp t | exec t | setResult t | finish t =>
    have ht := hL.stage_head (t := t) List.mem_cons_self
    exact .layers rfl (layer_here (hS.ahead_lt hE rfl (t := t) (by simp [Core.setStage, ht])))
  case popEmplaced t hmem =>
    have ht := hL.stage_of_mem_emplaced hmem
    exact .layers rfl (layer_here (hS.ahead_lt hE rfl (t := t) (by simp [Core.setStage, ht])))
  case popReady t hmem =>
    have ht := hL.stage_of_mem_ready hmem
    exact .layers rfl (layer_here (hS.ahead_lt hE rfl (t := t) (by simp [Core.setStage, ht])))
  -- `submit`
  case parentReached | parentFollower | parentCount =>
    exact .layers rfl (layer_after le_rfl (layer_here (load_lt _ (by simp [Frame.submits]))))
  case pushUser | future =>
    exact .layers rfl (layer_after le_rfl (layer_after (load_le _ (by simp [Frame.submits]))
      (layer_here (load_lt _ (by simp [Frame.enters])))))
  -- `init_dependencies`
  case initLock | scanEnd | scanRemoved | scanParent | scanSkip | scanDepend | checkReached |
      checkOpen | followReached | followOpen | push | count | nextSync | nextScan | initUnlock =>
    refine .layers rfl (layer_after le_rfl (layer_after (load_le _ ?_) (layer_after (load_le _ ?_)
      (layer_here (load_lt _ ?_)))))
    · simp [Frame.submits]
    · simp [Frame.enters]
    · simp only [List.map_cons, List.map_nil, List.sum_cons, List.sum_nil, Frame.scans,
        Frame.scanCost]
      omega
  -- external events and `Future`s
  case makeEvent i x t =>
    have hx : c.extStage x = .creating := hL.extStage_of_mem mem_head (by simp [Frame.events])
    exact .of_late rfl le_rfl (by simp [Frame.late, Frame.submits, Frame.enters, Frame.scans])
      (layer_here (outside_lt_of_event hE (by rw [hx]; simp) (by rw [hx]; decide) rfl rfl rfl))
  case fire x hx =>
    exact .of_late rfl le_rfl (fun _ => late_of_mem_notifyTail)
      (layer_here (outside_lt_of_event hE (by rw [hx]; simp) (by rw [hx]; decide) rfl rfl rfl))
  case destroyLive h t ha | destroyTaken h t ha | getFuture h t ha =>
    exact .of_late rfl le_rfl (by simp [Frame.late, Frame.submits, Frame.enters, Frame.scans])
      (layer_here (outside_lt_of_handle ha (by simp [Handle.ahead]) rfl rfl rfl))
  case get h t σ ha hset =>
    obtain rfl := hL.status_eq mem_head ha
    exact .of_late rfl le_rfl (by simp [Frame.late, Frame.submits, Frame.enters, Frame.scans])
      (layer_here (outside_lt_of_handle ha (by simp [Handle.ahead]) rfl rfl rfl))
  case moveLive | moveTaken =>
    have := hh rfl
    simp at this
  -- the loop over the followers
  case notifyFollower e i todo d hd =>
    have hph : c.phase e = .looping (i :: todo) := hL.phase_head List.mem_cons_self
    have hzero : d.notified = 0 := (hE.next_entry hph hd).2.2
    have hlt : (c.followers.set i { d with notified := d.notified + 1 }).countP (·.notified == 0) <
        c.followers.countP (·.notified == 0) := by
      have hcount := countP_set_add (p := (·.notified == 0))
        (b := { d with notified := d.notified + 1 }) hd
      simp only [hzero] at hcount ⊢
      change _ + 1 = _ + 0 at hcount
      omega
    have hahead : ∀ c' : Core V, StageMove c c' → c'.next = c.next → c'.ahead ≤ c.ahead := by
      intro c' hS hn
      by_cases hst : c'.stage = c.stage
      · rw [Core.ahead, Core.ahead, hst, hn]
      · obtain ⟨t, ht⟩ := Function.ne_iff.mp hst
        exact (hS.ahead_lt hE hn ht).le
    refine .of_late rfl (hahead _ hS rfl) (fun f hf => ?_) (layer_after le_rfl (layer_here hlt))
    rcases List.mem_append.mp hf with hf | hf
    · exact late_of_mem_notifyTail hf
    · obtain rfl := List.mem_singleton.mp hf
      rfl
  -- the beginning of a notification
  case notifyGet t =>
    refine .of_late rfl le_rfl (fun _ => late_of_mem_notifyTail) (layer_after le_rfl
      (layer_after le_rfl (layer_here (load_lt _ ?_))))
    exact Nat.lt_of_le_of_lt (sum_notifyTail (t := 1) _ fun _ => le_rfl) (by simp [Frame.wakes])
  case wakerPost | wakerReached | wakerReady | wakerEnd =>
    exact .of_late rfl le_rfl (by simp [Frame.late, Frame.submits, Frame.enters, Frame.scans])
      (layer_after le_rfl (layer_after le_rfl (layer_here (load_lt _ (by simp [Frame.wakes])))))
  -- the places of a notification
  case activate | deleteEnd | deleteLock | deleteRemove | deleteUnlock | loop | loopedRemoval |
      loopedEnd | free =>
    refine .of_late rfl le_rfl (by simp [Frame.late, Frame.submits, Frame.enters, Frame.scans])
      (layer_after le_rfl (layer_after le_rfl (layer_after (load_le _ (by simp [Frame.wakes]))
        (load_lt _ ?_))))
    simp only [List.map_cons, List.map_nil, List.sum_cons, List.sum_nil, Frame.releases,
      List.length_cons, List.length_nil]
    omega
  case removal e t =>
    refine .of_late rfl le_rfl (fun f hf => ?_) (layer_after le_rfl (layer_after le_rfl
      (layer_after (load_le _ ?_) (load_lt _ ?_))))
    · split_ifs at hf
      · obtain rfl := List.mem_singleton.mp hf
        rfl
      · simp at hf
    · split_ifs <;> simp [Frame.wakes]
    · split_ifs <;> simp [Frame.releases]

end Layers

/-! ### Runs -/

variable {Tid : Type} [DecidableEq Tid]

/-- The action moves a `Future`. -/
def Action.movesFuture : Action Tid → Bool
  | .call _ (.moveFuture _) => true
  | _ => false

/-- No other call makes a `Future`. -/
theorem length_handles_call {c c' : Core V} {b : Call} {new : List Frame}
    (hb : ∀ h, b ≠ .moveFuture h) (h : c.call b = some (c', new)) :
    c'.handles.length = c.handles.length := by
  cases b with
  | moveFuture x => exact absurd rfl (hb x)
  | popEmplaced t | popReady t | fire t =>
      simp only [Core.call] at h
      split_ifs at h
      obtain ⟨rfl, -⟩ := Prod.mk.inj (Option.some.inj h)
      rfl
  | destroyFuture x | getFuture x =>
      simp only [Core.call] at h
      split at h <;> simp only [Option.some.injEq, Prod.mk.injEq, reduceCtorEq] at h
      all_goals
        obtain ⟨rfl, -⟩ := h
        simp

/-- The measure of a state: the bodies, and the layers below. -/
def State.measure [Fintype Tid] (s : State Tid V) :
    Multiset (Body V) × (ℕ ×ₗ ℕ ×ₗ ℕ ×ₗ ℕ ×ₗ ℕ ×ₗ ℕ ×ₗ ℕ ×ₗ ℕ) :=
  (s.core.codes, layers s.core (frames s.threads))

theorem step_lowers [Fintype Tid] {s s' : State Tid V} {a : Action Tid}
    (hI : Inv s.core (frames s.threads)) (ha : a.movesFuture = false) (h : step s a = some s') :
    Prod.Lex (CutExpand Body.Part) (· < ·) s'.measure s.measure := by
  have hlow : ∀ (old : List Frame) {new rest : List Frame} {c' : Core V} {i : Tid},
      s.threads i = old ++ rest → Move s.core old c' new →
      (old = [] → c'.handles.length = s.core.handles.length) →
      Prod.Lex (CutExpand Body.Part) (· < ·)
        (State.mk c' (update s.threads i (new ++ rest))).measure s.measure := by
    intro old new rest c' i hold hm hh
    obtain ⟨M, h1, h2⟩ := frames_update hold
    rw [h1] at hI
    rw [State.measure, State.measure, h1, h2]
    cases hm.lowers hI hh with
    | code h => exact .left _ _ h
    | layers h hlt =>
        rw [h]
        exact .right _ hlt
  cases a with
  | run i =>
      rcases hth : s.threads i with - | ⟨f, rest⟩
      · simp [step, hth] at h
      · simp only [step, hth] at h
        obtain ⟨⟨c', new⟩, ht, rfl⟩ := Option.map_eq_some_iff.mp h
        exact hlow [f] hth (move_of_trans ht) (by simp)
  | call i b =>
      simp only [step] at h
      split_ifs at h
      obtain ⟨⟨c', new⟩, hc, rfl⟩ := Option.map_eq_some_iff.mp h
      refine hlow [] rfl (move_of_call hc) fun _ => length_handles_call ?_ hc
      rintro x rfl
      cases ha

/-- The steps that do not move a `Future`. -/
def Unmoved (s : State Tid V) (a : Action Tid) : Prop := NoWrap s a ∧ a.movesFuture = false

theorem inv_step [Fintype Tid] {s s' : State Tid V} {a : Action Tid}
    (hI : Inv s.core (frames s.threads)) (hok : NoWrap s a) (h : step s a = some s') :
    Inv s'.core (frames s'.threads) := by
  obtain ⟨old, new, M, h1, h2, hm, htop⟩ := step_pool h
  rw [h1] at hI
  rw [h2]
  exact hI.step (fun f hf e he => hok.upsOn_lt (htop f hf) he) hm

theorem descends [Fintype Tid] :
    Descends step Unmoved (fun s : State Tid V => Inv s.core (frames s.threads))
      (Prod.Lex (CutExpand Body.Part) (· < ·)) State.measure where
  wf := WellFounded.prod_lex Body.part_wf.cutExpand wellFounded_lt
  keep := fun _ _ _ hI hok h => inv_step hI hok.1 h
  lower := fun _ _ _ hI hok h => step_lowers hI hok.2 h

end RedGrapes.Runtime
