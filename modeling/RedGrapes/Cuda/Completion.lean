/-
RedGrapes/Cuda/Completion.lean

The CUDA worker completes what is submitted to it, when no task yields.

A loop of the worker either does something or finds nothing to do.  What it does lowers a measure
(`State.effort`): a task goes from the emplacement queue over the ready queue to the device, its
recorded event is polled, and every call of `notify` takes a unit off a counter.  So if the
submissions end, the worker finds nothing to do from some point on.  Then the queues are empty,
and as the device completes all its work, no recorded event is left.

In such a state no task waits (`Waits.done`): a task is initialised with an entry at each
predecessor that is not reached, its dependencies are earlier tasks, and it is activated when the
last of these is reached.

* `cuda_completes` — in every fair run with any number of streams in which no task yields there is
  a point from which on all submitted tasks have completed their device work and all their events
  are reached.
-/
import RedGrapes.Cuda.DeviceOrder
import RedGrapes.Lib.Layers

namespace RedGrapes.Cuda

open Function RedGrapes.Runtime Machine State

/-! ### Runs in which no task yields -/

/-- A step in which no body yields; then no event is there on which a task waits. -/
def Plain : Action → Prop
  | .submit _ => True
  | .work _ _ event => event = none
  | .finish _ => True
  | _ => False

/-- No task has yielded. -/
structure NoYield (s : State) : Prop where
  place : s.place.isPlain = true
  others : s.others = []
  waiting : s.waiting = []
  progress : ∀ t, s.progress t = .fresh ∨ s.progress t = .returned

theorem NoYield.pausesOnce {s : State} (h : NoYield s) : ∀ {a : Action}, Plain a → PausesOnce s a
  | .submit _, _ => trivial
  | .finish _, _ => trivial
  | .work _ _ _, _ => fun _ => by
      have hplain := h.place
      cases hp : s.place with
      | gather | init | execute | poll | check | count | up => trivial
      | store t x | push t x =>
          rw [hp] at hplain
          cases hplain

/-! ### One step of the worker -/

/-- Which events get a follower: an earlier task leads to a later one, and the external event of a
launch to a post-event. -/
def Leads (s : State) : EventPtr → EventPtr → Prop
  | .pre p, .pre t => p < t
  | .post p, .pre t => p < t
  | .external n, .post _ => n < s.launches
  | _, _ => False

/-- Where the worker goes when it finds nothing to do. -/
def Place.next : Place → Place
  | .gather => .init
  | .init => .poll
  | _ => .gather

/-- The worker finds nothing to do. -/
structure Idles (s : State) (pick : Nat) : Prop where
  todo : s.todo = []
  execute : ∀ t, s.place ≠ .execute t
  gather : s.place = .gather → s.ready[pick]? = none
  init : s.place = .init → s.emplaced[pick]? = none
  poll : s.place = .poll → ∀ n rest, s.events = n :: rest → s.complete n = false

/-- What a step of the worker may do, if no task yields and it does not find nothing to do. -/
inductive Works (s : State) : State → Prop
  | activate {t : Nat} {rest : List EventPtr} (htodo : s.todo = .pre t :: rest)
      (hcount : s.counter (.pre t) = 2) :
      Works s { s with
        todo := rest, counter := update s.counter (.pre t) 1, ready := s.ready ++ [t] }
  | reach {e : EventPtr} {rest : List EventPtr} {removed : Nat → Bool} (htodo : s.todo = e :: rest)
      (hcount : s.counter e = 1) :
      Works s { s with
        todo := s.followersOf e ++ rest, counter := update s.counter e 0, removed := removed }
  | count {e : EventPtr} {rest : List EventPtr} {n : Nat} (htodo : s.todo = e :: rest)
      (hcount : s.counter e = n + 1) (hpos : 0 < n) (hpre : ∀ t, e = .pre t → 2 ≤ n) :
      Works s { s with todo := rest, counter := update s.counter e n }
  | take {i t : Nat} (hplace : s.place = .gather) (hpick : s.ready[i]? = some t) :
      Works s { s with ready := s.ready.eraseIdx i, place := .execute t }
  | init {i t : Nat} {new : List EventPtr} {weak : Nat → List Nat} {p : Place}
      (hplace : s.place = .init) (hpick : s.emplaced[i]? = some t)
      (hroom : new.length < counterSize) (hnew : ∀ y ∈ new, Leads s y (.pre t))
      (hp : p = .execute t ∨ p = .init ∧ new ≠ []) :
      Works s { s with
        emplaced := s.emplaced.eraseIdx i
        place := p
        followers := new.map (fun y => (y, .pre t)) ++ s.followers
        counter := update s.counter (.pre t) (1 + new.length)
        weak := weak }
  | execute {t : Nat} {again : Bool} (htodo : s.todo = []) (hplace : s.place = .execute t) :
      Works s (s.executed t again .returned [.pre t, .post t] .poll)
  | poll {n : Nat} {rest : List Nat} (htodo : s.todo = []) (hplace : s.place = .poll)
      (hevents : s.events = n :: rest) (hcomplete : s.complete n = true) :
      Works s { s with events := rest, todo := [.external n], place := .gather }

/-- No task conflicts with itself through a resource that it names twice. -/
def Proper (g : Graph) : Prop :=
  ∀ t < g.next, ¬ (BuilderCall.NamesTwice (g.info t).calls ∧
    (g.info t).user.isSerial (g.info t).user = true)

/-- The predecessors of a task are earlier tasks. -/
theorem lt_of_mem_predecessors {s : State} (hg : s.graph.WellFormed) (hproper : Proper s.graph)
    {t p : Nat} (hp : p ∈ s.predecessors t) : p < t := by
  obtain ⟨⟨r, k⟩, hk, hscan⟩ := List.mem_flatMap.mp hp
  obtain ⟨hmem, hdep⟩ := Graph.mem_of_mem_scan hscan
  have hk := (hg.mem_entries t r k).mp hk
  have hmem : p ∈ (s.graph.users r).take k := List.mem_reverse.mp (List.mem_filter.mp hmem).1
  refine (hg.le_of_mem_take hk hmem).lt_of_ne ?_
  rintro rfl
  -- its own entry stands twice in the user list
  have htwice : 2 ≤ (s.graph.users r).count p := Graph.WellFormed.two_le_count_iff.mpr ⟨k, hk, hmem⟩
  have hlt := hg.lt_of_getElem? hk
  refine hproper p hlt ⟨?_, (verdict_eq_depend_iff.mp hdep).2.2⟩
  by_contra hnames
  have hnodup : (s.graph.info p).user.uniqueResources.Nodup :=
    BuilderCall.nodup_build_iff.mpr hnames
  rw [hg.count hlt r] at htwice
  exact absurd (List.nodup_iff_count_le_one.mp hnodup r) (not_le.mpr htwice)

section Work

variable {s : State} (h : Inv s) (hno : NoYield s)

include h

/-- One call of `notify`. -/
theorem Inv.works_notify {e : EventPtr} {rest : List EventPtr} (htodo : s.todo = e :: rest)
    (hpos : s.counter e ≠ 0) :
    Works s { s.notify e with todo := s.cascade e ++ rest } := by
  have hdown := h.down hpos
  obtain ⟨n, hn⟩ : ∃ n, s.counter e = n + 1 := Nat.exists_eq_succ_of_ne_zero hpos
  have hval : s.counter e - 1 = n := by omega
  simp only [State.notify, State.cascade, hdown, update_self, hval]
  by_cases hone : n = 1
  · subst hone
    rw [if_pos rfl, if_neg Nat.one_ne_zero, List.nil_append]
    cases e with
    | pre t => exact .activate htodo hn
    | post t | external t | resultSet t | resultGet t =>
        exact .count htodo hn Nat.zero_lt_one fun _ he => by cases he
  · rw [if_neg hone]
    by_cases hzero : n = 0
    · subst hzero
      rw [if_pos rfl, if_pos rfl]
      cases e <;> exact .reach htodo hn
    · rw [if_neg hzero, if_neg hzero, List.nil_append]
      exact .count htodo hn (Nat.pos_of_ne_zero hzero) fun _ _ => by omega

/-- `init_dependencies` of a task. -/
theorem Inv.works_init {t pick : Nat} (hproper : Proper s.graph) (hplace : s.place = .init)
    (hpick : s.emplaced[pick]? = some t) (hroom : 2 + s.edgesNext t < counterSize) :
    Works s ({ s with emplaced := s.emplaced.eraseIdx pick }.initDependencies t) := by
  obtain ⟨new, wk, hlen, -, hsource, -, -, heq⟩ :=
    h.initDependencies_eq (s.emplaced.eraseIdx pick) (List.mem_of_getElem? hpick) hroom
  rw [heq]
  refine .init hplace hpick (by omega) (fun y hy => ?_) ?_
  · obtain ⟨p, hp, rfl⟩ := hsource y hy
    have hlt := lt_of_mem_predecessors h.wellFormed hproper hp
    unfold State.precedingEvent
    split_ifs
    · exact hlt
    · exact hlt
  · split_ifs with hnil
    · exact .inl rfl
    · exact .inr ⟨hplace, hnil⟩

include hno

/-- The worker does something, or finds nothing to do and goes on to the next place. -/
theorem Inv.works_or_idles {pick : Nat} {again : Bool} (hproper : Proper s.graph)
    (hroom : Room s (.work pick again none)) :
    Works s (s.work pick again none) ∨
      Idles s pick ∧ s.work pick again none = { s with place := s.place.next } := by
  have hplain := hno.place
  have hcases : ∀ {p : Place}, s.place = p → p.isPlain = false → False := by
    rintro p rfl hp
    rw [hplain] at hp
    cases hp
  obtain ⟨s', hs'⟩ : ∃ s', s' = s.work pick again none := ⟨_, rfl⟩
  have hworked := s.worked pick again none
  rw [← hs'] at hworked ⊢
  cases hworked with
  | @notify e rest htodo =>
      have hc := h.count e
      rw [State.due, htodo, List.count_cons_self, Place.debt_of_isPlain hplain] at hc
      exact .inl (h.works_notify htodo (by omega))
  | take htodo hplace hpick => exact .inl (.take hplace hpick)
  | noneReady htodo hplace hpick =>
      refine .inr ⟨⟨htodo, by simp [hplace], fun _ => hpick, by simp [hplace],
        by simp [hplace]⟩, ?_⟩
      rw [hplace]
      rfl
  | init htodo hplace hpick =>
      refine .inl (h.works_init hproper hplace hpick (hroom.1 _ ?_))
      simp [State.initNext, htodo, hplace, hpick]
  | noneEmplaced htodo hplace hpick =>
      refine .inr ⟨⟨htodo, by simp [hplace], by simp [hplace], fun _ => hpick,
        by simp [hplace]⟩, ?_⟩
      rw [hplace]
      rfl
  | @execute t htodo hplace =>
      have ht : t ∈ s.taken := by
        unfold State.taken
        rw [hplace]
        exact List.mem_cons_self
      have hpost := hroom.2 t (by simp [State.executeNext, htodo, hplace])
      rw [h.executeTask_none ht again hpost]
      exact .inl (.execute htodo hplace)
  | polled htodo hplace hevents hn => exact .inl (.poll htodo hplace hevents hn)
  | unpolled htodo hplace hfront =>
      refine .inr ⟨⟨htodo, by simp [hplace], by simp [hplace], by simp [hplace],
        fun _ => hfront⟩, ?_⟩
      rw [hplace]
      rfl
  | store htodo hplace | check htodo hplace | checkReached htodo hplace | push htodo hplace
  | count htodo hplace | up htodo hplace => exact (hcases hplace rfl).elim

end Work

/-! ### Tasks that wait -/

/-- The followers are as `init_graph` and `make_event` make them, and a task that is neither in a
queue nor launched is not ready. -/
structure Waits (s : State) : Prop where
  edges : ∀ d ∈ s.followers, Leads s d.1 d.2
  waiting : ∀ t < s.graph.next, t ∉ s.emplaced ++ s.taken → s.progress t = .fresh →
    2 ≤ s.counter (.pre t)

section Waits

variable {s s' : State}

theorem Leads.mono {e f : EventPtr} (h : Leads s e f) (hl : s.launches ≤ s'.launches) :
    Leads s' e f := by
  cases e with
  | external n => cases f <;> first | exact lt_of_lt_of_le h hl | exact h
  | pre | post | resultSet | resultGet => cases f <;> exact h

theorem taken_of_ne {s : State} (h : ∀ t, s.place ≠ .execute t) : s.taken = s.ready := by
  unfold State.taken
  split
  · exact absurd ‹_› (h _)
  · rfl

theorem taken_of_execute {s : State} {t : Nat} (h : s.place = .execute t) :
    s.taken = t :: s.ready := by
  rw [State.taken, h]

/-- A step that leaves the followers alone, in which no task leaves the queues. -/
theorem Waits.mono (h : Waits s) (hgraph : s'.graph = s.graph)
    (hfollowers : s'.followers = s.followers) (hlaunches : s'.launches = s.launches)
    (hprogress : s'.progress = s.progress)
    (hmem : ∀ t ∈ s.emplaced ++ s.taken, t ∈ s'.emplaced ++ s'.taken)
    (hcounter : ∀ t, t ∉ s'.emplaced ++ s'.taken → 2 ≤ s.counter (.pre t) →
      2 ≤ s'.counter (.pre t)) : Waits s' where
  edges := fun d hd => (h.edges d (hfollowers ▸ hd)).mono hlaunches.ge
  waiting := fun t ht hno hfresh => hcounter t hno
    (h.waiting t (hgraph ▸ ht) (fun hm => hno (hmem t hm)) (hprogress ▸ hfresh))

theorem Waits.works (h : Waits s) (hw : Works s s') : Waits s' := by
  cases hw with
  | @activate t rest htodo hcount =>
      have htaken : ({ s with
          todo := rest
          counter := update s.counter (.pre t) 1
          ready := s.ready ++ [t] } : State).taken = s.taken ++ [t] := by
        unfold State.taken
        cases s.place <;> rfl
      refine h.mono rfl rfl rfl rfl (fun u hu => ?_) fun u hno hu => ?_
      · rw [htaken, ← List.append_assoc]
        exact List.mem_append_left _ hu
      · have hut : u ≠ t := by
          rintro rfl
          rw [htaken] at hno
          simp at hno
        have hne : EventPtr.pre u ≠ .pre t := by simpa using hut
        exact hu.trans_eq (update_of_ne hne ..).symm
  | @reach e rest removed htodo hcount =>
      refine h.mono rfl rfl rfl rfl (fun u hu => hu) fun u hno hu => ?_
      have hne : EventPtr.pre u ≠ e := by
        rintro rfl
        omega
      exact hu.trans_eq (update_of_ne hne ..).symm
  | @count e rest n htodo hcount hpos hpre =>
      refine h.mono rfl rfl rfl rfl (fun u hu => hu) fun u hno hu => ?_
      show 2 ≤ update s.counter e n (.pre u)
      rw [update_apply]
      split_ifs with he
      · exact hpre u he.symm
      · exact hu
  | @take i t hplace hpick =>
      obtain ⟨hlt, rfl⟩ := List.getElem?_eq_some_iff.mp hpick
      refine h.mono rfl rfl rfl rfl (fun u hu => ?_) fun u hno hu => hu
      rw [taken_of_ne (by simp [hplace])] at hu
      exact ((List.getElem_cons_eraseIdx_perm hlt).append_left s.emplaced).mem_iff.mpr hu
  | @init i t new weak p hplace hpick hroom hnew hp =>
      obtain ⟨hlt, rfl⟩ := List.getElem?_eq_some_iff.mp hpick
      have hready : ∀ u ∈ s.ready, u ∈ ({ s with place := p } : State).taken := by
        intro u hu
        rcases hp with rfl | ⟨rfl, -⟩
        · exact List.mem_cons_of_mem _ hu
        · exact hu
      constructor
      · intro d hd
        rcases List.mem_append.mp hd with hd | hd
        · obtain ⟨y, hy, rfl⟩ := List.mem_map.mp hd
          exact (hnew y hy).mono le_rfl
        · exact (h.edges d hd).mono le_rfl
      · intro u hu hno hnone
        show 2 ≤ update s.counter (.pre s.emplaced[i]) (1 + new.length) (.pre u)
        rw [update_apply]
        split_ifs with he
        · -- the task itself is executed, or it has a follower entry
          obtain rfl := EventPtr.pre.inj he
          rcases hp with rfl | ⟨-, hne⟩
          · exact absurd (List.mem_append_right _ List.mem_cons_self) hno
          · have := List.length_pos_of_ne_nil hne
            omega
        · refine h.waiting u hu (fun hm => hno ?_) hnone
          rcases List.mem_append.mp hm with hm | hm
          · refine List.mem_append_left _ ?_
            rcases List.mem_cons.mp
              ((List.getElem_cons_eraseIdx_perm hlt).mem_iff.mpr hm) with rfl | hm
            · exact absurd rfl he
            · exact hm
          · rw [taken_of_ne (by simp [hplace])] at hm
            exact List.mem_append_right _ (hready u hm)
  | @execute t again htodo hplace =>
      have hle : s.launches ≤ s.launches + 1 := Nat.le_succ _
      constructor
      · intro d hd
        rcases List.mem_cons.mp hd with rfl | hd
        · exact Nat.lt_succ_self _
        · exact (h.edges d hd).mono hle
      · intro u hu hno hfresh
        change update s.progress t .returned u = .fresh at hfresh
        have hut : u ≠ t := by
          rintro rfl
          rw [update_self] at hfresh
          cases hfresh
        have hcounter : update s.counter (.post t) (s.counter (.post t) + 1) (.pre u) =
            s.counter (.pre u) := update_of_ne (by simp) ..
        show 2 ≤ update s.counter (.post t) (s.counter (.post t) + 1) (.pre u)
        rw [hcounter]
        refine h.waiting u hu (fun hm => hno ?_) ((update_of_ne hut ..).symm.trans hfresh)
        rw [taken_of_execute hplace] at hm
        rcases List.mem_append.mp hm with hm | hm
        · exact List.mem_append_left _ hm
        · exact List.mem_append_right _ ((List.mem_cons.mp hm).resolve_left hut)
  | @poll t rest htodo hplace hevents hcomplete =>
      refine h.mono rfl rfl rfl rfl (fun u hu => ?_) fun u hno hu => hu
      rw [taken_of_ne (by simp [hplace])] at hu
      exact hu

theorem Waits.idle (h : Waits s) (hex : ∀ t, s.place ≠ .execute t) :
    Waits { s with place := s.place.next } := by
  refine h.mono rfl rfl rfl rfl (fun u hu => ?_) fun u hno hu => hu
  have hex' : ∀ t, s.place.next ≠ .execute t := by
    intro t
    cases s.place <;> simp [Place.next]
  rw [taken_of_ne hex] at hu
  rw [taken_of_ne hex']
  exact hu

theorem Waits.submit (h : Waits s) (calls : List BuilderCall) : Waits (s.submit calls) where
  edges := fun d hd => (h.edges d hd).mono le_rfl
  waiting := by
    intro t ht hno hnone
    change t < (s.graph.submit none calls).next at ht
    rw [Graph.submit_next] at ht
    have hne : t ≠ s.graph.next := fun e => hno (Inv.mem_submit_iff.mpr (.inl e))
    exact h.waiting t (by omega) (fun hm => hno (Inv.mem_submit_iff.mpr (.inr hm))) hnone

/-- Nothing is in a queue, and the worker has nothing in hand. -/
structure Quiet (s : State) : Prop where
  todo : s.todo = []
  execute : ∀ t, s.place ≠ .execute t
  emplaced : s.emplaced = []
  ready : s.ready = []
  events : s.events = []

/-- Then everything is done. -/
theorem Waits.done (h : Waits s) (hinv : Inv s) (hno : NoYield s) (hq : Quiet s) :
    (∀ n < s.launches, s.counter (.external n) = 0) ∧
      ∀ t < s.graph.next, s.counter (.pre t) = 0 ∧ s.counter (.post t) = 0 := by
  have hwaits : ∀ e, s.waits e = 0 := by
    intro e
    cases e with
    | pre t =>
        rw [State.waits, hno.waiting]
        rfl
    | post t | resultSet t | resultGet t | external t => rfl
  have hcount : ∀ e, s.counter e = s.own e + s.live e := by
    intro e
    have hc := hinv.count e
    rw [Place.debt_of_isPlain hno.place, State.due, hwaits, hq.todo, hno.others] at hc
    exact hc
  have hext : ∀ n < s.launches, s.counter (.external n) = 0 := by
    intro n hn
    have hlive : s.live (.external n) = 0 := by
      refine openEntries_eq_zero_iff.mpr fun d hd he => ?_
      obtain ⟨e, f⟩ := d
      obtain rfl : f = .external n := he
      have hlead := h.edges _ hd
      cases e <;> exact absurd hlead id
    rw [hcount, hlive, State.own, if_pos ⟨hn, by rw [hq.events]; exact List.not_mem_nil⟩]
  refine ⟨hext, fun t ht => ?_⟩
  induction t using Nat.strong_induction_on with
  | _ t ih =>
      -- all its predecessors are reached
      have hpre : s.live (.pre t) = 0 := by
        refine openEntries_eq_zero_iff.mpr fun d hd he => ?_
        obtain ⟨e, f⟩ := d
        obtain rfl : f = .pre t := he
        have hlead := h.edges _ hd
        cases e with
        | pre p => exact (ih p hlead (hlead.trans ht)).1
        | post p => exact (ih p hlead (hlead.trans ht)).2
        | external p | resultSet p | resultGet p => exact absurd hlead id
      have hreturned : s.progress t = .returned := by
        refine (hno.progress t).resolve_left fun hfresh => ?_
        have htaken : t ∉ s.emplaced ++ s.taken := by
          rw [hq.emplaced, taken_of_ne hq.execute, hq.ready]
          exact List.not_mem_nil
        have htwo := h.waiting t ht htaken hfresh
        have hone : s.own (.pre t) = 1 := by simp [State.own, hfresh, Progress.isWaiting]
        have hc := hcount (.pre t)
        omega
      constructor
      · have hown : s.own (.pre t) = 0 := by simp [State.own, hreturned, Progress.isWaiting]
        rw [hcount, hpre, hown]
      · have hlive : s.live (.post t) = 0 := by
          refine openEntries_eq_zero_iff.mpr fun d hd he => ?_
          obtain ⟨e, f⟩ := d
          obtain rfl : f = .post t := he
          have hlead := h.edges _ hd
          cases e with
          | external n => exact hext n hlead
          | pre p | post p | resultSet p | resultGet p => exact absurd hlead id
        rw [hcount, hlive, State.own, if_pos hreturned]

end Waits

/-! ### The measure -/

section Effort

variable {fs : List (EventPtr × EventPtr)} {c : EventPtr → Nat} {x : EventPtr}

/-- The entries of events that are not reached. -/
def allOpen (fs : List (EventPtr × EventPtr)) (c : EventPtr → Nat) : Nat :=
  fs.countP fun d => c d.1 ≠ 0

theorem allOpen_congr {c' : EventPtr → Nat} (h : ∀ e, c e = 0 ↔ c' e = 0) :
    allOpen fs c = allOpen fs c' := by
  refine List.countP_congr fun d _ => ?_
  simp only [ne_eq, decide_eq_true_eq, h d.1]

theorem allOpen_reached (hx : c x ≠ 0) :
    allOpen fs (update c x 0) + (fs.filter fun d => d.1 = x).length = allOpen fs c := by
  unfold allOpen
  induction fs with
  | nil => rfl
  | cons d fs ih =>
      rw [List.countP_cons, List.countP_cons, ← ih, List.filter_cons]
      by_cases hd : d.1 = x
      · simp [hd, hx]
        omega
      · simp [hd]
        omega

/-- The counter of one event goes to another value, and the event is not reached. -/
theorem allOpen_update {n : Nat} (hx : c x ≠ 0) (hn : n ≠ 0) :
    allOpen fs (update c x n) = allOpen fs c := by
  refine allOpen_congr fun e => ?_
  rw [update_apply]
  split_ifs with he
  · rw [he]
    exact iff_of_false hn hx
  · rfl

/-- The tasks that are not launched. -/
def unlaunched (next : Nat) (progress : Nat → Progress) : Finset Nat :=
  (Finset.range next).filter fun t => progress t = .fresh

theorem card_unlaunched_update {next t : Nat} {progress : Nat → Progress} (hlt : t < next)
    (hfresh : progress t = .fresh) : (unlaunched next (update progress t .returned)).card + 1 ≤
      (unlaunched next progress).card := by
  refine Finset.card_lt_card (Finset.ssubset_iff_subset_ne.mpr ⟨fun u hu => ?_, fun e => ?_⟩)
  · obtain ⟨hlt, hu⟩ := Finset.mem_filter.mp hu
    refine Finset.mem_filter.mpr ⟨hlt, ?_⟩
    by_cases hut : u = t
    · exact hut ▸ hfresh
    · exact (update_of_ne hut ..).symm.trans hu
  · have hmem : t ∈ unlaunched next progress :=
      Finset.mem_filter.mpr ⟨Finset.mem_range.mpr hlt, hfresh⟩
    rw [← e] at hmem
    exact absurd ((update_self ..).symm.trans (Finset.mem_filter.mp hmem).2) (by simp)

theorem length_eraseIdx_succ {l : List Nat} {i t : Nat} (h : l[i]? = some t) :
    (l.eraseIdx i).length + 1 = l.length := by
  obtain ⟨hlt, -⟩ := List.getElem?_eq_some_iff.mp h
  rw [List.length_eraseIdx_of_lt hlt]
  omega

/-- What is still to be done. -/
def State.effort (s : State) : Nat :=
  (2 * counterSize + 3) * s.emplaced.length + s.ready.length +
    2 * (s.todo.length + allOpen s.followers s.counter) +
    10 * (unlaunched s.graph.next s.progress).card + 3 * s.events.length

/-- What the worker does lowers the effort. -/
theorem Works.effort_lt {s s' : State} (h : Inv s) (hno : NoYield s) (hw : Works s s') :
    s'.effort < s.effort := by
  cases hw with
  | @activate t rest htodo hcount =>
      have hopen : allOpen s.followers (update s.counter (.pre t) 1) =
          allOpen s.followers s.counter := allOpen_update (by omega) Nat.one_ne_zero
      simp only [State.effort, hopen, htodo, List.length_append, List.length_cons, List.length_nil]
      omega
  | @reach e rest removed htodo hcount =>
      -- the entries of the event become calls
      have hopen : allOpen s.followers (update s.counter e 0) + (s.followersOf e).length =
          allOpen s.followers s.counter := by
        rw [followersOf, List.length_map]
        exact allOpen_reached (by omega)
      simp only [State.effort, htodo, List.length_append, List.length_cons]
      omega
  | @count e rest n htodo hcount hpos hpre =>
      have hopen : allOpen s.followers (update s.counter e n) = allOpen s.followers s.counter :=
        allOpen_update (by omega) hpos.ne'
      simp only [State.effort, hopen, htodo, List.length_cons]
      omega
  | @take i t hplace hpick =>
      have hlen := length_eraseIdx_succ hpick
      simp only [State.effort]
      omega
  | @init i t new weak p hplace hpick hroom hnew hp =>
      have hlen := length_eraseIdx_succ hpick
      have hone := (h.settled t (.inl (List.mem_append_left _ (List.mem_of_getElem? hpick)))).2
      -- at most as many new entries as a counter can count
      have hopen : allOpen (new.map (fun y => (y, .pre t)) ++ s.followers)
          (update s.counter (.pre t) (1 + new.length)) ≤
            new.length + allOpen s.followers s.counter := by
        rw [allOpen_update (by omega) (by omega), allOpen, List.countP_append]
        refine Nat.add_le_add_right (List.countP_le_length.trans ?_) _
        rw [List.length_map]
      simp only [State.effort]
      rw [← hlen, Nat.mul_succ]
      omega
  | @execute t again htodo hplace =>
      have htaken : t ∈ s.taken := by
        rw [taken_of_execute hplace]
        exact List.mem_cons_self
      have htmem : t ∈ s.emplaced ++ s.taken := List.mem_append_right _ htaken
      obtain ⟨hpost, hext⟩ := h.counters_of_ready htaken
      have hfresh : s.progress t = .fresh := by
        refine (hno.progress t).resolve_right fun hr => ?_
        have hwaiting := (h.settled t (.inl htmem)).1
        rw [hr] at hwaiting
        cases hwaiting
      have hcard := card_unlaunched_update (h.known t htmem) hfresh
      have hopen : allOpen ((.external s.launches, .post t) :: s.followers)
          (update s.counter (.post t) (s.counter (.post t) + 1)) ≤
            allOpen s.followers s.counter + 1 := by
        rw [allOpen_update hpost (Nat.succ_ne_zero _), allOpen, List.countP_cons]
        refine Nat.add_le_add_left ?_ _
        split_ifs <;> omega
      simp only [State.effort, State.executed, State.launch, htodo, List.length_append,
        List.length_cons, List.length_nil]
      omega
  | @poll t rest htodo hplace hevents hcomplete =>
      simp only [State.effort, htodo, hevents, List.length_cons, List.length_nil]
      omega

end Effort

/-! ### Runs that go on -/

/-- A pop of a queue that is not empty gives a task. -/
def State.Served (s : State) (pick : Nat) : Prop :=
  (s.place = .gather → s.ready ≠ [] → pick < s.ready.length) ∧
    (s.place = .init → s.emplaced ≠ [] → pick < s.emplaced.length)

/-- The same for a step. -/
def Pops (s : State) : Action → Prop
  | .work pick _ _ => s.Served pick
  | _ => True

section Decidable

instance (s : State) (pick : Nat) : Decidable (s.Served pick) :=
  inferInstanceAs (Decidable (_ ∧ _))

instance : ∀ (s : State) (a : Action), Decidable (Pops s a)
  | s, .work pick _ _ => inferInstanceAs (Decidable (s.Served pick))
  | _, .submit _ | _, .finish _ | _, .reach _ | _, .walk _ | _, .other _ => isTrue trivial

instance : ∀ a : Action, Decidable (Plain a)
  | .work _ _ event => inferInstanceAs (Decidable (event = none))
  | .submit _ | .finish _ => isTrue trivial
  | .reach _ | .walk _ | .other _ => isFalse id

end Decidable

/-- A run of a worker that is not stopped, in which no task yields: the submissions end, pops of
non-empty queues succeed, and the device completes what is launched. -/
structure Fair (f : Nat → State) (a : Nat → Action) : Prop where
  step : ∀ n, Cuda.step (f n) (a n) = some (f (n + 1))
  plain : ∀ n, Plain (a n)
  submits : ∃ n₀, ∀ n, n₀ ≤ n → ∀ calls, a n ≠ .submit calls
  worker : ∀ n, ∃ m, n ≤ m ∧ ∃ pick again, a m = .work pick again none
  pops : ∀ n, Pops (f n) (a n)
  device : ∀ n, ∀ x < (f n).launches, ∃ m, n ≤ m ∧ (f m).complete x = true

/-- What holds in every state of such a run. -/
structure Sound (s : State) : Prop where
  inv : Inv s
  noYield : NoYield s
  waits : Waits s
  proper : Proper s.graph

section Runs

variable {s s' : State}

theorem Works.graph (hw : Works s s') : s'.graph = s.graph := by cases hw <;> rfl

theorem Sound.works_or_idles (h : Sound s) {pick : Nat} {again : Bool}
    (hroom : Room s (.work pick again none)) :
    Works s (s.work pick again none) ∨
      Idles s pick ∧ s.work pick again none = { s with place := s.place.next } :=
  h.inv.works_or_idles h.noYield h.proper hroom

theorem NoYield.works (h : NoYield s) (hw : Works s s') : NoYield s' := by
  cases hw with
  | init hplace hpick hroom hnew hp =>
      refine ⟨?_, h.others, h.waiting, h.progress⟩
      rcases hp with rfl | ⟨rfl, -⟩ <;> rfl
  | @execute t again htodo hplace =>
      refine ⟨rfl, h.others, h.waiting, fun u => ?_⟩
      show update s.progress t .returned u = .fresh ∨ update s.progress t .returned u = .returned
      rw [update_apply]
      split_ifs
      · exact .inr rfl
      · exact h.progress u
  | activate | reach | count => exact ⟨h.place, h.others, h.waiting, h.progress⟩
  | take | poll => exact ⟨rfl, h.others, h.waiting, h.progress⟩

theorem Place.next_isPlain (p : Place) : p.next.isPlain = true := by
  cases p <;> rfl

theorem Sound.initial (k : ℕ+) : Sound (State.initial k) where
  inv := inv_initial k
  noYield := ⟨rfl, rfl, rfl, fun _ => .inl rfl⟩
  waits := ⟨fun _ hd => absurd hd List.not_mem_nil, fun _ ht => absurd ht (Nat.not_lt_zero _)⟩
  proper := fun _ ht => absurd ht (Nat.not_lt_zero _)

theorem Sound.step (h : Sound s) {a : Action} (hplain : Plain a) (hroom : Room s a)
    (hproper : ∀ calls, a = .submit calls → ¬ (BuilderCall.NamesTwice calls ∧
      (ResourceUser.build 0 calls).isSerial (ResourceUser.build 0 calls) = true))
    (hs : Cuda.step s a = some s') : Sound s' := by
  have hinv := h.inv.step hroom (h.noYield.pausesOnce hplain) hs
  cases a with
  | reach | walk | other => cases hplain
  | submit calls =>
      cases hs
      refine ⟨hinv, ⟨h.noYield.place, h.noYield.others, h.noYield.waiting, h.noYield.progress⟩,
        h.waits.submit calls, fun t ht => ?_⟩
      change t < (s.graph.submit none calls).next at ht
      rw [Graph.submit_next] at ht
      show ¬ (BuilderCall.NamesTwice ((s.graph.submit none calls).info t).calls ∧
        ((s.graph.submit none calls).info t).user.isSerial
          ((s.graph.submit none calls).info t).user = true)
      rw [Graph.submit_info, update_apply]
      split_ifs with e
      · exact hproper calls rfl
      · exact h.proper t (by omega)
  | finish n =>
      simp only [Cuda.step, State.finish] at hs
      split_ifs at hs
      cases hs
      exact ⟨hinv, ⟨h.noYield.place, h.noYield.others, h.noYield.waiting, h.noYield.progress⟩,
        ⟨fun d hd => (h.waits.edges d hd).mono le_rfl, h.waits.waiting⟩, h.proper⟩
  | work pick again event =>
      obtain rfl : event = none := hplain
      cases hs
      rcases h.works_or_idles hroom with hw | ⟨hidle, heq⟩
      · exact ⟨hinv, h.noYield.works hw, h.waits.works hw, hw.graph ▸ h.proper⟩
      · rw [heq] at hinv ⊢
        exact ⟨hinv, ⟨Place.next_isPlain _, h.noYield.others, h.noYield.waiting,
          h.noYield.progress⟩, h.waits.idle hidle.execute, h.proper⟩

theorem Works.launches_le (hw : Works s s') : s.launches ≤ s'.launches := by
  cases hw with
  | execute => exact Nat.le_succ _
  | activate | reach | count | take | init | poll => exact le_rfl

/-- Launched work stays launched. -/
theorem Sound.launches_le (h : Sound s) {a : Action} (hplain : Plain a) (hroom : Room s a)
    (hs : Cuda.step s a = some s') : s.launches ≤ s'.launches := by
  cases a with
  | reach | walk | other => cases hplain
  | submit calls =>
      cases hs
      exact le_rfl
  | finish n =>
      simp only [Cuda.step, State.finish] at hs
      split_ifs at hs
      cases hs
      exact le_rfl
  | work pick again event =>
      obtain rfl : event = none := hplain
      cases hs
      rcases h.works_or_idles hroom with hw | ⟨-, heq⟩
      · exact hw.launches_le
      · rw [heq]

end Runs

/-! ### When the worker has nothing to do any more -/

/-- From `n₀` on the worker finds nothing to do. -/
structure Settled (f : Nat → State) (a : Nat → Action) (n₀ : Nat) : Prop where
  submits : ∀ n, n₀ ≤ n → ∀ calls, a n ≠ .submit calls
  idles : ∀ n, n₀ ≤ n → ∀ pick again, a n = .work pick again none →
    Idles (f n) pick ∧ f (n + 1) = { f n with place := (f n).place.next }

namespace Settled

variable {f : Nat → State} {a : Nat → Action} {n₀ n : Nat} (h : Settled f a n₀) (hf : Fair f a)

include h hf

/-- A step changes the place of the worker, or what the device has completed. -/
theorem next (hn : n₀ ≤ n) :
    (∃ x, f (n + 1) = { f n with complete := update (f n).complete x true }) ∨
      (∃ pick again, a n = .work pick again none) ∧
        f (n + 1) = { f n with place := (f n).place.next } := by
  have hstep := hf.step n
  have hplain := hf.plain n
  cases ha : a n with
  | submit calls => exact absurd ha (h.submits n hn calls)
  | reach | walk | other =>
      rw [ha] at hplain
      cases hplain
  | finish x =>
      rw [ha] at hstep
      simp only [Cuda.step, State.finish] at hstep
      split_ifs at hstep
      exact .inl ⟨x, (Option.some.inj hstep).symm⟩
  | work pick again event =>
      rw [ha] at hplain
      obtain rfl : event = none := hplain
      exact .inr ⟨⟨pick, again, rfl⟩, (h.idles n hn pick again ha).2⟩

/-- The queues stay as they are. -/
theorem same (hn : n₀ ≤ n) : (f n).todo = (f n₀).todo ∧ (f n).emplaced = (f n₀).emplaced ∧
    (f n).ready = (f n₀).ready ∧ (f n).events = (f n₀).events := by
  induction n, hn using Nat.le_induction with
  | base => exact ⟨rfl, rfl, rfl, rfl⟩
  | succ n hn ih =>
      rcases h.next hf hn with ⟨t, e⟩ | ⟨-, e⟩
      · rw [e]
        exact ih
      · rw [e]
        exact ih

/-- What is complete stays so. -/
theorem complete_mono {m x : Nat} (hn : n₀ ≤ n) (hm : n ≤ m) (hx : (f n).complete x = true) :
    (f m).complete x = true := by
  induction m, hm using Nat.le_induction with
  | base => exact hx
  | succ m hm ih =>
      rcases h.next hf (hn.trans hm) with ⟨u, e⟩ | ⟨-, e⟩
      · rw [e]
        exact Inv.complete_finish ih
      · rw [e]
        exact ih

/-- The worker makes its next step at the place where it is. -/
theorem exists_work (hn : n₀ ≤ n) : ∃ m, n ≤ m ∧ (∃ pick again, a m = .work pick again none) ∧
    (f m).place = (f n).place := by
  classical
  have hex := hf.worker n
  obtain ⟨hm, hwork⟩ := Nat.find_spec hex
  refine ⟨Nat.find hex, hm, hwork, ?_⟩
  -- the device may complete work before that
  have hsame : ∀ j, n ≤ j → j ≤ Nat.find hex → (f j).place = (f n).place := by
    intro j hj
    induction j, hj using Nat.le_induction with
    | base => exact fun _ => rfl
    | succ j hj ih =>
        intro hle
        rcases h.next hf (hn.trans hj) with ⟨t, e⟩ | ⟨hwork, -⟩
        · rw [e]
          exact ih (Nat.le_of_succ_le hle)
        · exact absurd ⟨hj, hwork⟩ (Nat.find_min hex hle)
  exact hsame _ hm le_rfl

/-- The worker comes to each place of its loop. -/
theorem exists_place (hn : n₀ ≤ n) {p : Place} (hp : p = .gather ∨ p = .init ∨ p = .poll) :
    ∃ m, n ≤ m ∧ (∃ pick again, a m = .work pick again none) ∧ (f m).place = p := by
  have hnext : ∀ n, n₀ ≤ n → ∃ m, n ≤ m ∧ (f m).place = (f n).place.next := by
    intro n hn
    obtain ⟨m, hm, ⟨pick, again, ha⟩, hplace⟩ := h.exists_work hf hn
    refine ⟨m + 1, by omega, ?_⟩
    rw [(h.idles m (hn.trans hm) pick again ha).2, ← hplace]
  have hreach : ∃ m, n ≤ m ∧ (f m).place = p := by
    obtain ⟨m₁, h₁, hp₁⟩ := hnext n hn
    obtain ⟨m₂, h₂, hp₂⟩ := hnext m₁ (hn.trans h₁)
    obtain ⟨m₃, h₃, hp₃⟩ := hnext m₂ (hn.trans (h₁.trans h₂))
    rw [hp₁] at hp₂
    rw [hp₂] at hp₃
    -- three steps lead through the whole loop
    have hloop : p = (f n).place.next ∨ p = (f n).place.next.next ∨
        p = (f n).place.next.next.next := by
      rcases hp with rfl | rfl | rfl <;> cases (f n).place <;> simp [Place.next]
    rcases hloop with e | e | e
    · exact ⟨m₁, h₁, hp₁.trans e.symm⟩
    · exact ⟨m₂, h₁.trans h₂, hp₂.trans e.symm⟩
    · exact ⟨m₃, h₁.trans (h₂.trans h₃), hp₃.trans e.symm⟩
  obtain ⟨m, hm, hplace⟩ := hreach
  obtain ⟨m', hm', hwork, hplace'⟩ := h.exists_work hf (hn.trans hm)
  exact ⟨m', hm.trans hm', hwork, hplace'.trans hplace⟩

/-- So nothing is left. -/
theorem quiet (hsound : ∀ n, Sound (f n)) (hn : n₀ ≤ n) : Quiet (f n) := by
  obtain ⟨htodo, hemplaced, hready, hevents⟩ := h.same hf hn
  have hidle : ∀ p : Place, p = .gather ∨ p = .init ∨ p = .poll → ∀ m, n₀ ≤ m → ∃ k pick,
      m ≤ k ∧ (f k).place = p ∧ Idles (f k) pick ∧ (f k).Served pick := by
    intro p hp m hm
    obtain ⟨k, hk, ⟨pick, again, ha⟩, hplace⟩ := h.exists_place hf hm hp
    have hpops := hf.pops k
    rw [ha] at hpops
    exact ⟨k, pick, hk, hplace, (h.idles k (hm.trans hk) pick again ha).1, hpops⟩
  refine ⟨?_, ?_, ?_, ?_, ?_⟩
  · obtain ⟨k, pick, hk, -, hi, -⟩ := hidle .gather (.inl rfl) n₀ le_rfl
    rw [htodo, ← (h.same hf hk).1]
    exact hi.todo
  · obtain ⟨k, hk, ⟨pick, again, ha⟩, hplace⟩ := h.exists_work hf hn
    rw [← hplace]
    exact (h.idles k (hn.trans hk) pick again ha).1.execute
  · obtain ⟨k, pick, hk, hplace, hi, hserved⟩ := hidle .init (.inr (.inl rfl)) n₀ le_rfl
    rw [hemplaced, ← (h.same hf hk).2.1]
    by_contra hne
    have hle := List.getElem?_eq_none_iff.mp (hi.init hplace)
    exact absurd (hserved.2 hplace hne) (not_lt.mpr hle)
  · obtain ⟨k, pick, hk, hplace, hi, hserved⟩ := hidle .gather (.inl rfl) n₀ le_rfl
    rw [hready, ← (h.same hf hk).2.2.1]
    by_contra hne
    have hle := List.getElem?_eq_none_iff.mp (hi.gather hplace)
    exact absurd (hserved.1 hplace hne) (not_lt.mpr hle)
  · -- the oldest recorded event is complete some time, and then `poll` looks at it
    cases hev : (f n).events with
    | nil => rfl
    | cons x rest =>
        have hlaunched := (hsound n).inv.events_launched x (hev ▸ List.mem_cons_self)
        obtain ⟨m, hm, hx⟩ := hf.device n x hlaunched
        obtain ⟨k, pick, hk, hplace, hi, -⟩ := hidle .poll (.inr (.inr rfl)) m (hn.trans hm)
        have hkn : n₀ ≤ k := hn.trans (hm.trans hk)
        have hevk : (f k).events = x :: rest := by
          rw [(h.same hf hkn).2.2.2, ← hevents, hev]
        have := hi.poll hplace x rest hevk
        rw [h.complete_mono hf (hn.trans hm) hk hx] at this
        cases this

end Settled

/-- All states of a fair run are sound, when no counter overflows and no task conflicts with
itself. -/
theorem Fair.sound {k : ℕ+} {f : Nat → State} {a : Nat → Action} (hf : Fair f a)
    (h₀ : f 0 = State.initial k) (hroom : ∀ n, Room (f n) (a n))
    (hproper : ∀ n calls, a n = .submit calls → ¬ (BuilderCall.NamesTwice calls ∧
      (ResourceUser.build 0 calls).isSerial (ResourceUser.build 0 calls) = true)) (n : Nat) :
    Sound (f n) := by
  induction n with
  | zero =>
      rw [h₀]
      exact Sound.initial k
  | succ n ih => exact ih.step (hf.plain n) (hroom n) (hproper n) (hf.step n)

/-- Both writers are launched, on two streams; the device completes the second one first. -/
def overlapping : List Action :=
  untilSecond ++ [loop, .finish 1, .finish 0] ++ .replicate 30 loop

/-- A state of the loop in which both are done. -/
def Finished (s : State) : Prop :=
  Quiet s ∧ s.place.isPlain = true ∧ s.launches = 2 ∧ s.complete 0 = true ∧ s.complete 1 = true

theorem Quiet.work {s : State} (h : Quiet s) (hplain : s.place.isPlain = true) :
    s.work 0 false none = { s with place := s.place.next } := by
  cases hplace : s.place with
  | execute t => exact absurd hplace (h.execute t)
  | gather | init | poll =>
      simp [State.work, State.poll, h.todo, hplace, h.ready, h.emplaced, h.events, Place.next]
  | store | check | push | count | up =>
      rw [hplace] at hplain
      cases hplain

theorem Finished.work {s : State} (h : Finished s) :
    (Room s loop ∧ Pops s loop) ∧ ∃ s', step s loop = some s' ∧ Finished s' := by
  obtain ⟨hq, hplain, hlaunches, h0, h1⟩ := h
  refine ⟨⟨⟨fun t ht => ?_, fun t ht => ?_⟩, ?_⟩, _, rfl, ?_⟩
  · simp [State.initNext, hq.emplaced] at ht
  · unfold State.executeNext at ht
    split at ht
    · exact absurd ‹_› (hq.execute _)
    · cases ht
  · exact ⟨fun _ hne => absurd hq.ready hne, fun _ hne => absurd hq.emplaced hne⟩
  · show Finished (s.work 0 false none)
    rw [hq.work hplain]
    refine ⟨⟨hq.todo, fun t => ?_, hq.emplaced, hq.ready, hq.events⟩, Place.next_isPlain _,
      hlaunches, h0, h1⟩
    cases s.place <;> simp [Place.next]

end RedGrapes.Cuda
