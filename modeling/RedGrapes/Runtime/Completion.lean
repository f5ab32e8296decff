/-
RedGrapes/Runtime/Completion.lean

A program of root tasks comes to its end, however its threads are scheduled.

The main program emplaces a list of tasks.  Their bodies read and write within their accesses, and
no task names a resource twice.  An event counter could still wrap, but a pre-event gets at most
one follower entry for each place of a user list before the task's own (`Budget`), and all these
places belong to earlier tasks (`Planned.lt_of_place`).  So there is a bound on the counters that
depends on the program only (`Fits`).

* `program_completes` — no counter wraps; every state leads to a quiet one; and in a quiet state
  everything is done and put away, and the resources are as if the bodies had run one after the
  other.
-/
import RedGrapes.Runtime.Serial
import RedGrapes.Runtime.Termination

namespace RedGrapes.Runtime

open Function Machine ResourceUser

variable {V : Type}

/-! ### How many entries a scan makes -/

/-- The follower entries for the pre-event of `t`. -/
def Core.incoming (c : Core V) (t : Nat) : Nat := (c.followers.map Follower.dst).count (.pre t)

/-- The places that come before the usage entries in their user lists. -/
def placesBefore (es : List (Resource × Nat)) : Nat := (es.map Prod.snd).sum

/-- The places that `init_dependencies` has still to look at. -/
def Frame.toLookAt : Frame → Option (Nat × Nat)
  | .init (.resources es) t => some (t, placesBefore es)
  | .init (.unlock _ es) t => some (t, placesBefore es)
  | .init (.scan _ k es) t => some (t, placesBefore es + k)
  | .init (.next _ k _ es) t => some (t, placesBefore es + k)
  | .init (.count _ k _ es _) t => some (t, placesBefore es + k)
  | .init (.check _ k _ es) t => some (t, placesBefore es + k + 1)
  | .init (.follow _ k _ es) t => some (t, placesBefore es + k + 1)
  | .init (.push _ k _ es) t => some (t, placesBefore es + k + 1)
  | _ => none

/-- A place makes at most one entry. -/
structure Budget (c : Core V) (M : Multiset Frame) : Prop where
  frame : ∀ f ∈ M, ∀ t n, f.toLookAt = some (t, n) →
    c.incoming t + n ≤ placesBefore (c.entries t)
  all : ∀ t, c.incoming t ≤ placesBefore (c.entries t)

section Budget

variable {c c' : Core V} {old new : List Frame} {M : Multiset Frame} {t n : Nat} {f : Frame}

theorem pending_le_incoming (c : Core V) (t : Nat) : c.pending (.pre t) ≤ c.incoming t := by
  rw [Core.pending, Core.incoming, List.count, List.countP_map]
  refine List.countP_mono_left fun d _ hd => ?_
  simp only [Follower.waits, Bool.and_eq_true] at hd
  exact hd.1.1

theorem map_dst_set {fs : List Follower} {i : Nat} {d d' : Follower} (hd : fs[i]? = some d)
    (hdst : d'.dst = d.dst) : (fs.set i d').map Follower.dst = fs.map Follower.dst := by
  obtain ⟨hi, hget⟩ := List.getElem?_eq_some_iff.mp hd
  refine List.ext_getElem (by simp) fun j h1 h2 => ?_
  simp only [List.getElem_map, List.getElem_set]
  split_ifs with e
  · subst e
    rw [hdst, hget]
  · rfl

/-- Only the scan of `t` makes entries for its pre-event. -/
theorem incoming_step (hI : Inv c (↑old + M)) (hm : Move c old c' new) (t : Nat) :
    c'.incoming t = c.incoming t ∨
      (∃ r k p es, old = [.init (.push r k p es) t]) ∧ c'.incoming t = c.incoming t + 1 := by
  by_cases hpush : ∃ r k p es s, old = [.init (.push r k p es) s]
  · obtain ⟨r, k, p, es, s, rfl⟩ := hpush
    cases hm
    by_cases e : s = t
    · subst e
      exact .inr ⟨⟨r, k, p, es, rfl⟩, by simp [Core.incoming, Core.pushFollower]⟩
    · exact .inl (by simp [Core.incoming, Core.pushFollower, e])
  refine .inl ?_
  rcases eventMove hI hm with ⟨hf, -⟩ | ⟨_, _, _, hf, -⟩ | ⟨src, dst, hf, -⟩ | ⟨i, d, hd, hf, -⟩ |
    ⟨i, _, d, hd, hf, -⟩
  · rw [Core.incoming, hf, Core.incoming]
  · rw [Core.incoming, hf, Core.incoming]
  · -- the other entries are for post-events
    have hdst : dst ≠ .pre t := by
      rintro rfl
      cases hm
      case push => exact hpush ⟨_, _, _, _, _, rfl⟩
      case createEvent | parentFollower =>
        have := List.append_cancel_left hf
        simp at this
      all_goals
        have := congrArg List.length hf
        simp [Core.create, Core.setStage, Core.fetchSub, Core.up, Core.count, Core.pushUser,
          Core.removeUser, Core.setPhase, Core.freeTask] at this
    rw [Core.incoming, hf, Core.incoming, List.map_append, List.count_append]
    simp [hdst]
  · rw [Core.incoming, hf, map_dst_set hd (by rfl), Core.incoming]
  · rw [Core.incoming, hf, map_dst_set hd (by rfl), Core.incoming]

theorem placesBefore_mono (h : ListMove c c' M) (t : Nat) :
    placesBefore (c.entries t) ≤ placesBefore (c'.entries t) := by
  cases h with
  | same hu he => rw [he]
  | remove s r k hmem hph hfree hu he => rw [he]
  | push s r ht hst hfree hu he =>
      rw [he]
      by_cases e : t = s
      · subst e
        simp [placesBefore]
      · rw [update_of_ne e]

theorem task_of_toLookAt (h : f.toLookAt = some (t, n)) : (some t, Stage.init) ∈ f.tasks := by
  unfold Frame.toLookAt at h
  split at h <;> simp_all [Frame.tasks]

theorem toLookAt_of_mem_notifyTail {e : EventPtr} {b : Bool} (hf : f ∈ c.notifyTail e b) :
    f.toLookAt = none := by
  unfold Core.notifyTail at hf
  split_ifs at hf
  · simp at hf
  · obtain rfl := List.mem_singleton.mp hf
    rfl

theorem Budget.step (h : Budget c (↑old + M)) (hI : Inv c (↑old + M)) (hm : Move c old c' new) :
    Budget c' (↑new + M) := by
  have hlist := listMove hI hm
  have hinc := incoming_step hI hm
  refine ⟨fun f hf t n hn => ?_, fun t => ?_⟩
  · rcases Multiset.mem_add.mp hf with hf | hf
    · -- the scan goes on
      refine le_trans ?_ (placesBefore_mono hlist t)
      have hf := Multiset.mem_coe.mp hf
      have hinc := hinc t
      have hnone : c.stage t = .popped → c.incoming t = 0 := by
        intro hst
        rw [Core.incoming, List.count_eq_zero, List.mem_map]
        rintro ⟨d, hd, hdst⟩
        obtain ⟨i, hi⟩ := List.mem_iff_getElem?.mp hd
        have := (hI.events.edge i d hi).initialised t hdst
        rw [hst] at this
        exact absurd this (by decide)
      cases hm
      case initUp =>
        obtain rfl := List.mem_singleton.mp hf
        simp only [Frame.toLookAt, Option.some.injEq, Prod.mk.injEq] at hn
        obtain ⟨rfl, rfl⟩ := hn
        have hzero := hnone (hI.ledger.stage_head List.mem_cons_self)
        rcases hinc with h' | ⟨⟨_, _, _, _, e⟩, -⟩
        · rw [h', hzero, Nat.zero_add]
        · cases e
      case initLock | scanEnd | scanRemoved | scanParent | scanSkip | scanDepend | checkReached |
          checkOpen | followReached | followOpen | push | count | nextSync | nextScan |
          initUnlock =>
        obtain rfl := List.mem_singleton.mp hf
        simp only [Frame.toLookAt, Option.some.injEq, Prod.mk.injEq] at hn
        obtain ⟨rfl, rfl⟩ := hn
        have hold := h.frame _ mem_head _ _ rfl
        simp only [placesBefore, List.map_cons, List.sum_cons] at hold ⊢
        rcases hinc with h' | ⟨⟨_, _, _, _, e⟩, h'⟩
        · omega
        · cases e <;> omega
      case claim | exec | setResult | notifyFollower =>
        rcases List.mem_append.mp hf with hf | hf
        · rw [toLookAt_of_mem_notifyTail hf] at hn
          cases hn
        · obtain rfl := List.mem_singleton.mp hf
          simp [Frame.toLookAt] at hn
      case block | finish | fire | notifyGet =>
        rw [toLookAt_of_mem_notifyTail hf] at hn
        cases hn
      case removal =>
        split_ifs at hf
        · obtain rfl := List.mem_singleton.mp hf
          simp [Frame.toLookAt] at hn
        · simp at hf
      case wakerEnd | activate | loopedEnd | free | moveLive | moveTaken | destroyTaken =>
        simp at hf
      all_goals
        obtain rfl := List.mem_singleton.mp hf
        simp [Frame.toLookAt] at hn
    · have htok := task_of_toLookAt hn
      have hmem : f ∈ (↑old + M : Multiset Frame) := Multiset.mem_add.mpr (.inr hf)
      have hst : c.stage t = .init := hI.ledger.stage_eq hmem htok
      rw [hlist.entries_eq (by rw [hst]; simp)]
      rcases hinc t with h' | ⟨⟨r, k, p, es, rfl⟩, -⟩
      · rw [h']
        exact h.frame f hmem t n hn
      · exact absurd htok (hI.ledger.not_mem_tasks hf (by simp [Frame.tasks]))
  · refine le_trans ?_ (placesBefore_mono hlist t)
    rcases hinc t with h' | ⟨⟨r, k, p, es, rfl⟩, h'⟩
    · rw [h']
      exact h.all t
    · have := h.frame (.init (.push r k p es) t) mem_head t _ rfl
      omega

end Budget

/-! ### The program -/

/-- How far the main program has come. -/
structure Planned (ps : List (TaskSpec V)) (c : Core V) : Prop where
  info : ∀ t, t < c.next → ∃ p ∈ ps, c.info t = ⟨p.calls, none, 0⟩
  next : c.next ≤ ps.length
  event : c.nextEvent = 0

/-- A task has so few resources that the entries for its pre-event, at most one for each of the
other tasks and each of its resources, can be counted. -/
def Fits (ps : List (TaskSpec V)) : Prop :=
  ∀ p ∈ ps, (build 0 p.calls).uniqueResources.length * ps.length + 3 < counterSize

section Planned

variable {c c' : Core V} {old new : List Frame} {M : Multiset Frame} {t k : Nat} {r : Resource}
  {ps : List (TaskSpec V)} {store : Resource → V}

theorem Planned.step (hP : Planned ps c) (hS : Serial ps store c) (hI : Inv c (↑old + M))
    (hm : Move c old c' new) : Planned ps c' := by
  have hbody : ∀ t, old = [.body (some t)] → (c.code (some t)).Within (c.userOf t) := by
    rintro t rfl
    have hst : c.stage t = .run := hI.ledger.stage_head List.mem_cons_self
    exact hS.within t (hI.events.lt_next (by rw [hst]; simp))
  cases hm
  case emplaceRoot calls child k hcode =>
    have hmain := hS.main
    rw [hcode] at hmain
    rcases hd : ps.drop c.next with - | ⟨p, ps'⟩ <;> rw [hd] at hmain
    · simp [emplaceAll] at hmain
    · obtain ⟨rfl, -, -⟩ := Body.emplace.inj hmain
      have hp : p ∈ ps := List.mem_of_mem_drop (hd ▸ List.mem_cons_self)
      have hlt : c.next < ps.length := by
        by_contra hge
        rw [List.drop_eq_nil_of_le (by omega)] at hd
        cases hd
      refine ⟨fun t ht => ?_, hlt, hP.event⟩
      by_cases e : t = c.next
      · subst e
        exact ⟨p, hp, by simp [Core.create, Graph.depthOf]⟩
      · have ht : t < c.next := by
          have : t < c.next + 1 := ht
          omega
        obtain ⟨q, hq, hinfo⟩ := hP.info t ht
        exact ⟨q, hq, by simpa [Core.create, e] using hinfo⟩
  case emplaceChild t calls child k hcode | createEvent t k hcode =>
    have hw := hbody t rfl
    rw [hcode] at hw
    cases hw
  all_goals exact ⟨hP.info, hP.next, hP.event⟩

/-- No task names a resource twice. -/
theorem Planned.not_namesTwice (hP : Planned ps c)
    (hnames : ∀ p ∈ ps, ¬ BuilderCall.NamesTwice p.calls) (ht : t < c.next) :
    ¬ BuilderCall.NamesTwice (c.info t).calls := by
  obtain ⟨p, hp, hinfo⟩ := hP.info t ht
  rw [hinfo]
  exact hnames p hp

/-- The places up to that of `t` belong to different tasks, and none of these is later. -/
theorem Planned.place_le (hP : Planned ps c) (hI : Inv c M) (hO : Order c M)
    (hnames : ∀ p ∈ ps, ¬ BuilderCall.NamesTwice p.calls) (ht : .emplaced ≤ c.stage t)
    (h : (r, k) ∈ c.entries t) : k ≤ t := by
  have hborn : ∀ p j, (r, j) ∈ c.entries p → p < c.next := by
    intro p j hj
    refine hI.events.lt_next fun hu => ?_
    rw [hI.lists.unborn p hu] at hj
    simp at hj
  have htn := hborn t k h
  have hroot : ∀ p, p < c.next → (c.info p).space = none := by
    intro p hp
    obtain ⟨q, -, hinfo⟩ := hP.info p hp
    rw [hinfo]
  obtain ⟨b, hb⟩ := (hI.lists.mem_iff t r k).mp h
  have hlen := (List.getElem?_eq_some_iff.mp hb).1
  -- the task at a place up to `k`
  have htask : ∀ j, j ≤ k → ∃ p, (r, j) ∈ c.entries p ∧ p ≤ t ∧ .emplaced ≤ c.stage p := by
    intro j hj
    obtain ⟨⟨p, b'⟩, hp⟩ : ∃ u, (c.users r)[j]? = some u :=
      ⟨_, List.getElem?_eq_getElem (by omega)⟩
    have hmem : (r, j) ∈ c.entries p := (hI.lists.mem_iff p r j).mpr ⟨b', hp⟩
    have hpn := hborn p j hmem
    rcases Nat.lt_trichotomy p t with hlt | heq | hgt
    · exact ⟨p, hmem, hlt.le,
        hO.emplaced_of_earlier hI ⟨hlt, (hroot p hpn).trans (hroot t htn).symm⟩ htn⟩
    · exact ⟨p, hmem, heq.le, heq ▸ ht⟩
    · have := hO.before t p r k j ⟨hgt, (hroot t htn).trans (hroot p hpn).symm⟩ h hmem
      omega
  choose! task hmem hle hst using htask
  have hinj : Set.InjOn task (Finset.range (k + 1)) := by
    intro i hi j hj hij
    have hi' : i ≤ k := Nat.lt_succ_iff.mp (Finset.mem_range.mp hi)
    have hj' : j ≤ k := Nat.lt_succ_iff.mp (Finset.mem_range.mp hj)
    have hnot := hP.not_namesTwice hnames (hborn _ _ (hmem i hi'))
    rcases Nat.lt_trichotomy i j with hlt | heq | hgt
    · exact absurd (hI.lists.namesTwice (hst i hi') hlt (hmem i hi') (hij ▸ hmem j hj')) hnot
    · exact heq
    · exact absurd (hI.lists.namesTwice (hst i hi') hgt (hij ▸ hmem j hj') (hmem i hi')) hnot
  have hcard := Finset.card_le_card_of_injOn (t := Finset.range (t + 1)) task (fun j hj => by
    have := hle j (Nat.lt_succ_iff.mp (Finset.mem_range.mp hj))
    exact Finset.mem_range.mpr (by omega)) hinj
  simp only [Finset.card_range] at hcard
  omega

/-- The entries for a pre-event can be counted. -/
theorem Planned.incoming_lt (hP : Planned ps c) (hI : Inv c M) (hO : Order c M) (hB : Budget c M)
    (hnames : ∀ p ∈ ps, ¬ BuilderCall.NamesTwice p.calls) (hfits : Fits ps)
    (ht : .emplaced ≤ c.stage t) : c.incoming t + 3 < counterSize := by
  have hborn : t < c.next := hI.events.lt_next fun h => by
    rw [h] at ht
    exact absurd ht (by decide)
  obtain ⟨p, hp, hinfo⟩ := hP.info t hborn
  have hlen : (c.entries t).length = (build 0 p.calls).uniqueResources.length := by
    have := congrArg List.length (hI.lists.complete t ht)
    rw [List.length_map, Core.resourcesOf, List.length_reverse, hinfo] at this
    exact this
  have hsum : placesBefore (c.entries t) ≤ (c.entries t).length * ps.length := by
    have := List.sum_le_card_nsmul ((c.entries t).map Prod.snd) ps.length fun k hk => by
      obtain ⟨⟨r, k⟩, hmem, rfl⟩ := List.mem_map.mp hk
      have := hP.place_le hI hO hnames ht hmem
      have := hP.next
      show k ≤ _
      omega
    simpa [placesBefore] using this
  have := hB.all t
  have := hfits p hp
  rw [hlen] at hsum
  omega

end Planned

/-! ### Runs of the program -/

variable {Tid : Type} [DecidableEq Tid] [Fintype Tid]

/-- What holds in every state of a run. -/
structure Going (worker : Tid → Bool) (ps : List (TaskSpec V)) (store : Resource → V)
    (s : State Tid V) : Prop where
  inv : Inv s.core (frames s.threads)
  order : Order s.core (frames s.threads)
  forward : Forward s.core
  removal : Removal s.core (frames s.threads)
  shape : Shape worker s
  serial : Serial ps store s.core
  planned : Planned ps s.core
  budget : Budget s.core (frames s.threads)

namespace Going

variable {worker : Tid → Bool} {ps : List (TaskSpec V)} {store : Resource → V}
  {s s' : State Tid V} {a : Action Tid}

theorem initial {main : Tid} (hmain : worker main = false) :
    Going worker ps store (State.initial main (emplaceAll ps) store) := by
  have hf := frames_initial (V := V) main (emplaceAll ps) store
  exact {
    inv := hf ▸ Inv.initial _ store
    order := hf ▸ Order.initial _ store
    forward := Forward.initial _ store
    removal := hf ▸ Removal.initial _ store
    shape := Shape.initial hmain
    serial := Serial.initial ps store
    planned := ⟨by simp [State.initial, Core.initial], by simp [State.initial, Core.initial], rfl⟩
    budget := by
      rw [hf]
      refine ⟨fun f hmem t n hn => ?_, fun t => by simp [State.initial, Core.initial, Core.incoming]⟩
      obtain rfl := Multiset.mem_singleton.mp hmem
      simp [Frame.toLookAt] at hn }

omit [DecidableEq Tid] in
/-- No step takes a counter past its range. -/
theorem noWrap (h : Going worker ps store s) (hnames : ∀ p ∈ ps, ¬ BuilderCall.NamesTwice p.calls)
    (hfits : Fits ps) (a : Action Tid) : NoWrap s a := by
  cases a with
  | call i b => trivial
  | run i =>
      intro f hf e he
      have hmem : f ∈ frames s.threads :=
        mem_frames.mpr ⟨i, List.mem_of_mem_head? hf⟩
      -- a scan counts an entry, or takes the unit for its own time
      have hscan : ∀ pc t, f = .init pc t → (s.core.stage t = .popped ∨ s.core.stage t = .init) →
          s.core.counter (.pre t) + 1 < counterSize := by
        rintro pc t rfl hst
        have hlt := h.planned.incoming_lt h.inv h.order h.budget hnames hfits (t := t)
          (by rcases hst with hst | hst <;> rw [hst] <;> decide)
        have hcount := h.inv.events.counter (.pre t)
        have hle := pending_le_incoming s.core t
        have hunits : s.core.units (.pre t) ≤ 2 := by
          rcases hst with hst | hst <;> simp [Core.units, hst, Stage.preUnits]
        omega
      unfold Frame.upsOn at he
      split at he
      · rename_i i t u
        -- there are no children
        obtain ⟨hspace, -⟩ := h.inv.frames _ hmem
        have hst : s.core.stage t = .submit := h.inv.ledger.stage_eq hmem (by simp [Frame.tasks])
        have hroot := h.serial.root t (h.inv.events.lt_next (by rw [hst]; simp))
        rw [hspace] at hroot
        cases hroot
      · rename_i i x t
        -- there are no external events
        have hx := h.inv.ledger.extStage_of_mem hmem (x := x) (by simp [Frame.events])
        have hborn := (h.inv.events.event x).mpr (by rw [h.planned.event]; exact Nat.zero_le x)
        rw [hborn] at hx
        cases hx
      · rename_i t
        obtain rfl := Option.mem_some.mp he
        exact hscan _ t rfl (.inl (h.inv.ledger.stage_eq hmem (by simp [Frame.tasks])))
      · rename_i r k p es i t
        obtain rfl := Option.mem_some.mp he
        exact hscan _ t rfl (.inr (h.inv.ledger.stage_eq hmem (by simp [Frame.tasks])))
      · cases he

theorem step (h : Going worker ps store s) (hw : NoWrap s a) (ha : Plays worker a)
    (hs : step s a = some s') : Going worker ps store s' := by
  have hshape := h.shape.step ⟨hw, ha⟩ hs
  obtain ⟨hI, hO, hF, hR, -, hS, hP, hB⟩ := h
  obtain ⟨old, new, M, h1, h2, hm, htop⟩ := step_pool hs
  rw [h1] at hI hO hR hB
  have hI' := hI.step (fun f hf e he => hw.upsOn_lt (htop f hf) he) hm
  have hO' := hO.step hI hm hI'
  exact {
    inv := h2 ▸ hI'
    order := h2 ▸ hO'
    forward := hF.step hI hm hI' hO'
    removal := h2 ▸ hR.step hI hm
    shape := hshape
    serial := hS.step hI hO hm hI'
    planned := hP.step hS hI hm
    budget := h2 ▸ hB.step hI hm }

/-- In a quiet state the whole program is done. -/
theorem atRest (h : Going worker ps store s) (hw : ∃ w, worker w = true)
    (hnames : ∀ p ∈ ps, ¬ BuilderCall.NamesTwice p.calls) (hQ : Quiet worker s) : AtRest s := by
  refine hQ.atRest h.shape h.inv h.order h.forward h.removal hw (fun x hx => ?_) fun t hst he => ?_
  · have hborn := (h.inv.events.event x).mpr (by rw [h.planned.event]; exact Nat.zero_le x)
    rw [hx] at hborn
    cases hborn
  · have ht : t < s.core.next := h.inv.events.lt_next (by rw [hst]; simp)
    rcases h.forward t t he with ⟨-, hn⟩ | hn
    · exact h.planned.not_namesTwice hnames ht hn
    · exact lt_irrefl t hn.1

omit [DecidableEq Tid] in
/-- Nothing is left to submit and nothing is left to run. -/
theorem result (h : Going worker ps store s) (hrest : AtRest s) :
    s.core.next = ps.length ∧ s.core.store = runAll ps store := by
  have hdrop : ps.drop s.core.next = [] := by
    have hmain := h.serial.main
    rw [hrest.main] at hmain
    cases hd : ps.drop s.core.next with
    | nil => rfl
    | cons p ps' =>
        rw [hd] at hmain
        simp [emplaceAll] at hmain
  have hfold : (List.range s.core.next).foldl (fun σ t => s.core.residual t σ) s.core.store =
      s.core.store := by
    refine List.foldlRecOn (motive := fun σ => σ = s.core.store) _ _ rfl fun σ hσ t ht => ?_
    have hst := (hrest.tasks t (List.mem_range.mp ht)).1
    rw [Core.residual, h.serial.ended t (by rw [hst]; decide)]
    exact hσ
  have hres := h.serial.result
  rw [hdrop, hfold] at hres
  exact ⟨le_antisymm h.planned.next (List.drop_eq_nil_iff.mp hdrop), hres⟩

/-- The steps that keep to the roles and move no `Future`. -/
theorem descends (hnames : ∀ p ∈ ps, ¬ BuilderCall.NamesTwice p.calls) (hfits : Fits ps) :
    Descends Runtime.step (fun _ a => Plays worker a ∧ a.movesFuture = false)
      (Going (V := V) worker ps store)
      (Prod.Lex (Relation.CutExpand Body.Part) (· < ·)) State.measure where
  wf := WellFounded.prod_lex Body.part_wf.cutExpand wellFounded_lt
  keep := fun _ a _ h hok hs => h.step (h.noWrap hnames hfits a) hok.1 hs
  lower := fun _ _ _ h hok hs => step_lowers h.inv hok.2 hs

end Going

end RedGrapes.Runtime
