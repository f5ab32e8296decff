/-
RedGrapes/Cuda/Execute.lean

The steps of the CUDA worker that execute and pause tasks keep the invariant, and so do all
steps in which no counter overflows and pauses do their work (`Inv.step`).

`execute_task` passes the unit of the pre-event to a call of `notify`; the unit of the post-event
goes with it when the body returns, and stays when it yields.  Then `sg_pause` puts the unit of
the pre-event back, which is right as long as no follower of the pre-event is left to be
notified a second time.  The entry in the follower list of the event is counted by the
increment after the push, and becomes a call when this list is walked.
-/
import RedGrapes.Cuda.Initialise

namespace RedGrapes.Cuda

open Function RedGrapes.Runtime Machine State

/-! ### Executing -/

section Launch

variable {s : State}

/-- A launch leaves the work ahead of earlier launches as it is. -/
theorem State.ahead_launch {t n : Nat} {again : Bool} (hn : n < s.launches) :
    (s.launch t again).ahead n = s.ahead n := by
  have hstream : (s.launch t again).stream n = s.stream n := update_of_ne hn.ne ..
  unfold State.ahead
  rw [hstream]
  show State.before (update s.streams _ _ (s.stream n)) n = _
  rw [update_apply]
  split_ifs with hi
  · rw [State.before_cons_of_ne hn.ne', hi]
  · rfl

/-- The work launched is behind all work on its stream. -/
theorem State.ahead_launch_self {t : Nat} {again : Bool} :
    (s.launch t again).ahead s.launches = s.streams (s.launchStream t again) := by
  have hstream : (s.launch t again).stream s.launches = s.launchStream t again := update_self ..
  unfold State.ahead
  rw [hstream]
  show State.before (update s.streams _ _ _) s.launches = _
  rw [update_self, State.before_cons_self]

end Launch

/-- How a body of `t` ends: it returns, or yields on an event. -/
inductive Ends (t : Nat) : Progress → List EventPtr → Place → Prop
  | returns : Ends t .returned [.pre t, .post t] .poll
  | yields (x : Nat) : Ends t .yielded [.pre t] (.store t x)

/-- The state after `execute_task` up to the calls of `notify`. -/
def State.executed (s : State) (t : Nat) (again : Bool) (p : Progress) (todo : List EventPtr)
    (pl : Place) : State :=
  { s.launch t again with
    followers := (.external s.launches, .post t) :: s.followers
    counter := update s.counter (.post t) (s.counter (.post t) + 1)
    events := s.events ++ [s.launches]
    progress := update s.progress t p
    todo := todo
    place := pl }

namespace Inv

variable {s : State} (h : Inv s)

include h

/-- The events of a task that is about to be executed. -/
theorem counters_of_ready {t : Nat} (ht : t ∈ s.taken) :
    s.counter (.post t) ≠ 0 ∧ s.counter (.external s.launches) ≠ 0 := by
  have hwaiting := (h.settled t (Or.inl (List.mem_append_right _ ht))).1
  have hpost := h.count (.post t)
  have hext := h.count (.external s.launches)
  rw [Place.debt_of_ne (by simp), State.due] at hpost hext
  have hownPost : s.own (.post t) = 1 := by
    refine if_neg fun hr => ?_
    rw [hr] at hwaiting
    cases hwaiting
  have hownExt : s.own (.external s.launches) = 1 := if_neg fun hc => hc.1.false
  omega

/-- `make_event` of the task. -/
theorem addFollower_launch {t : Nat} (ht : t ∈ s.taken) (again : Bool)
    (hroom : s.counter (.post t) + 1 < counterSize) :
    (s.launch t again).addFollower (.external s.launches) (.post t) =
      { s.launch t again with
        followers := (.external s.launches, .post t) :: s.followers
        counter := update s.counter (.post t) (s.counter (.post t) + 1) } := by
  have hext : (s.launch t again).counter (.external s.launches) ≠ 0 := (h.counters_of_ready ht).2
  unfold State.addFollower
  rw [if_neg hext]
  simp only [State.up, State.launch, Nat.mod_eq_of_lt hroom]

theorem executeTask_none {t : Nat} (ht : t ∈ s.taken) (again : Bool)
    (hroom : s.counter (.post t) + 1 < counterSize) :
    s.executeTask t again none = s.executed t again .returned [.pre t, .post t] .poll := by
  unfold State.executeTask
  simp only [h.addFollower_launch ht again hroom]
  rfl

theorem executeTask_eq {t : Nat} (ht : t ∈ s.taken) (again : Bool) (event : Option Nat)
    (hroom : s.counter (.post t) + 1 < counterSize) :
    ∃ p todo pl, Ends t p todo pl ∧
      s.executeTask t again event = s.executed t again p todo pl := by
  cases event with
  | none => exact ⟨_, _, _, .returns, h.executeTask_none ht again hroom⟩
  | some x =>
      refine ⟨_, _, _, .yields x, ?_⟩
      unfold State.executeTask
      simp only [h.addFollower_launch ht again hroom]
      rfl

variable {t : Nat} {again : Bool} {p : Progress} {todo : List EventPtr} {pl : Place}

/-- `execute_task` reaches no event before it notifies. -/
theorem reached_executed (ht : t ∈ s.taken) (e : EventPtr) :
    s.counter e = 0 ↔ (s.executed t again p todo pl).counter e = 0 := by
  show _ ↔ update s.counter (.post t) (s.counter (.post t) + 1) e = 0
  rw [update_apply]
  split_ifs with he
  · rw [he]
    simpa using (h.counters_of_ready ht).1
  · rfl

theorem live_executed (ht : t ∈ s.taken) (e : EventPtr) :
    (s.executed t again p todo pl).live e = (if EventPtr.post t = e then 1 else 0) + s.live e := by
  have hiff : ∀ e, s.counter e = 0 ↔ (s.executed t again p todo pl).counter e = 0 :=
    h.reached_executed ht
  have hnew : ∀ y ∈ [EventPtr.external s.launches], s.counter y ≠ 0 := by
    intro y hy
    rw [List.mem_singleton.mp hy]
    exact (h.counters_of_ready ht).2
  have hmap := openEntries_map (e := e) hnew (EventPtr.post t)
  unfold State.live
  rw [← openEntries_congr hiff]
  show openEntries ([EventPtr.external s.launches].map (fun y => (y, EventPtr.post t)) ++
    s.followers) s.counter e = _
  rw [openEntries_append, hmap]
  rfl

/-- The unit of the pre-event, and that of the post-event when the body returns, pass to the calls
of `notify`; the new entry adds one to the post-event. -/
theorem count_executed (hends : Ends t p todo pl) (ht : t ∈ s.taken)
    (hplace : s.place.isPlain = true) (htodo : s.todo = []) (e : EventPtr) :
    (s.executed t again p todo pl).counter e + pl.debt e =
      (s.executed t again p todo pl).due e := by
  have hwaiting := (h.settled t (Or.inl (List.mem_append_right _ ht))).1
  have hc := h.count e
  rw [Place.debt_of_isPlain hplace, State.due, htodo, List.count_nil] at hc
  have hdebt : pl.debt e = 0 := by cases hends <;> rfl
  have hwaits : (s.executed t again p todo pl).waits e = s.waits e := by
    cases e <;> rfl
  rw [State.due, h.live_executed ht, hdebt, hwaits]
  show update s.counter (.post t) (s.counter (.post t) + 1) e + 0 = _ + _ + _ + todo.count e +
    s.others.count e
  -- an event of no concern to the step
  have hother : e ≠ .pre t → e ≠ .post t →
      (s.executed t again p todo pl).own e = s.own e →
      update s.counter (.post t) (s.counter (.post t) + 1) e + 0 =
        (s.executed t again p todo pl).own e + ((if EventPtr.post t = e then 1 else 0) + s.live e) +
          s.waits e + todo.count e + s.others.count e := by
    intro hpre hpost hown
    have hcall : todo.count e = 0 := by cases hends <;> simp [Ne.symm hpre, Ne.symm hpost]
    rw [update_of_ne hpost, if_neg (Ne.symm hpost), hown]
    omega
  cases e with
  | pre u =>
      by_cases hu : u = t
      · subst hu
        have hown : s.own (.pre u) = 1 := if_pos hwaiting
        have hnew : (s.executed u again p todo pl).own (.pre u) = 0 := by
          show (if (update s.progress u p u).isWaiting then 1 else 0) = 0
          rw [update_self]
          cases hends <;> rfl
        have hcall : todo.count (.pre u) = 1 := by cases hends <;> simp
        have hne : EventPtr.pre u ≠ .post u := by simp
        rw [update_of_ne hne, if_neg (Ne.symm hne)]
        omega
      · refine hother (by simpa using hu) (by simp) ?_
        show (if (update s.progress t p u).isWaiting then 1 else 0) = _
        rw [update_of_ne hu]
        rfl
  | post u =>
      by_cases hu : u = t
      · subst hu
        have hown : s.own (.post u) = 1 := by
          refine if_neg fun hr => ?_
          rw [hr] at hwaiting
          cases hwaiting
        have hnew : (s.executed u again p todo pl).own (.post u) + todo.count (.post u) = 1 := by
          show (if update s.progress u p u = .returned then 0 else 1) + _ = 1
          rw [update_self]
          cases hends <;> simp
        rw [update_self, if_pos rfl]
        omega
      · refine hother (by simp) (by simpa using hu) ?_
        show (if update s.progress t p u = .returned then 0 else 1) = _
        rw [update_of_ne hu]
        rfl
  | external n =>
      refine hother (by simp) (by simp) ?_
      show (if n < s.launches + 1 ∧ n ∉ s.events ++ [s.launches] then 0 else 1) = _
      refine if_congr ?_ rfl rfl
      rw [List.mem_append, List.mem_singleton, not_or, Nat.lt_succ_iff_lt_or_eq]
      constructor
      · rintro ⟨hlt, hmem, hne⟩
        exact ⟨hlt.resolve_right hne, hmem⟩
      · rintro ⟨hlt, hmem⟩
        exact ⟨.inl hlt, hmem, hlt.ne⟩
  | resultSet u | resultGet u => exact hother (by simp) (by simp) rfl

omit h in
theorem lt_launches_succ {n : Nat} : n < s.launches + 1 ↔ n = s.launches ∨ n < s.launches := by
  omega

/-- Every launch has its entry. -/
theorem made_launch (t : Nat) : ∀ n < s.launches + 1,
    (.external n, .post (update s.owner s.launches t n)) ∈
      (EventPtr.external s.launches, EventPtr.post t) :: s.followers := by
  intro n hn
  rcases lt_launches_succ.mp hn with rfl | hn
  · rw [update_self]
    exact List.mem_cons_self
  · rw [update_of_ne hn.ne]
    exact List.mem_cons_of_mem _ (h.made n hn)

/-- The queue of recorded events. -/
theorem events_launch : (s.events ++ [s.launches]).Nodup ∧
    ∀ n ∈ s.events ++ [s.launches], n < s.launches + 1 := by
  constructor
  · have hnew : s.launches ∉ s.events := fun hc => (h.events_launched _ hc).false
    exact List.nodup_append_comm.mp (List.nodup_cons.mpr ⟨hnew, h.events_nodup⟩)
  · intro n hn
    rcases List.mem_append.mp hn with hn | hn
    · exact (h.events_launched n hn).trans (Nat.lt_succ_self _)
    · rw [List.mem_singleton.mp hn]
      exact Nat.lt_succ_self _

theorem polled_launch : ∀ n < s.launches + 1, n ∉ s.events ++ [s.launches] →
    s.complete n = true := by
  intro n hn hnot
  rcases lt_launches_succ.mp hn with rfl | hn
  · exact absurd (List.mem_append_right _ (List.mem_singleton_self _)) hnot
  · exact h.polled n hn fun hc => hnot (List.mem_append_left _ hc)

/-- The tasks that have started are those that have launched work. -/
theorem started_launch (hp : p ≠ .fresh) (u : Nat) : update s.progress t p u ≠ .fresh ↔
    ∃ n < s.launches + 1, update s.owner s.launches t n = u := by
  by_cases hut : u = t
  · rw [hut, update_self]
    exact iff_of_true hp ⟨s.launches, Nat.lt_succ_self _, update_self ..⟩
  · rw [update_of_ne hut, h.started u]
    constructor
    · rintro ⟨n, hn, hu⟩
      exact ⟨n, hn.trans (Nat.lt_succ_self _), (update_of_ne hn.ne ..).trans hu⟩
    · rintro ⟨n, hn, hu⟩
      rcases lt_launches_succ.mp hn with rfl | hn
      · rw [update_self] at hu
        exact absurd hu.symm hut
      · exact ⟨n, hn, (update_of_ne hn.ne ..).symm.trans hu⟩

/-- Every launch is on its stream. -/
theorem on_stream_launch : ∀ n < s.launches + 1,
    n ∈ (s.launch t again).streams ((s.launch t again).stream n) := by
  intro n hn
  show n ∈ update s.streams (s.launchStream t again) _
    (update s.stream s.launches (s.launchStream t again) n)
  rcases lt_launches_succ.mp hn with rfl | hn
  · rw [update_self, update_self]
    exact List.mem_cons_self
  · rw [update_of_ne hn.ne, update_apply]
    split_ifs with hi
    · exact List.mem_cons_of_mem _ (hi ▸ h.on_stream n hn)
    · exact h.on_stream n hn

theorem complete_mayStart_launch : ∀ n, s.complete n = true → (s.launch t again).MayStart n := by
  intro n hn
  obtain ⟨hlt, hahead⟩ := h.complete_mayStart n hn
  refine ⟨hlt.trans (Nat.lt_succ_self _), fun k hk => hahead k ?_⟩
  rw [← ahead_launch hlt]
  exact hk

/-- The tasks that are still in a queue. -/
theorem queued_executed (htaken : s.taken = t :: s.ready) : (s.emplaced ++ s.ready).Nodup ∧
    ∀ u ∈ s.emplaced ++ s.ready, u ∈ s.emplaced ++ s.taken ∧ u ≠ t := by
  have hnodup := h.nodup
  rw [htaken, List.nodup_middle, List.nodup_cons] at hnodup
  refine ⟨hnodup.2, fun u hu => ⟨?_, fun hut => hnodup.1 (hut ▸ hu)⟩⟩
  rw [htaken]
  exact List.perm_middle.mem_iff.mpr (List.mem_cons_of_mem _ hu)

/-- Nothing is left to be counted of a pre-event that the step takes, or that was taken before. -/
theorem idle_executed (ht : t ∈ s.taken) {u : Nat}
    (hu : (update s.progress t p u).isWaiting = false) : s.live (.pre u) = 0 ∧
      s.waits (.pre u) = 0 ∧ s.others.count (.pre u) = 0 ∧ s.counter (.pre u) ≤ 1 := by
  by_cases hut : u = t
  · have htmem : t ∈ s.emplaced ++ s.taken ∨ s.graph.next ≤ t := .inl (List.mem_append_right _ ht)
    have hc := h.calls_of_settled htmem
    rw [hut]
    exact ⟨hc.1, hc.2.1, hc.2.2.2, (h.settled t htmem).2.le⟩
  · rw [update_of_ne hut] at hu
    exact h.idle u hu

theorem yields_executed (hends : Ends t p todo pl) (hs : s.place.isPlain = true) (u : Nat) :
    update s.progress t p u = .yielded ↔ ∃ x, pl = .store u x := by
  have hnone : ∀ x, s.place ≠ .store u x := Place.ne_store_of_isPlain hs u
  by_cases hut : u = t
  · rw [hut, update_self]
    cases hends with
    | returns => simp
    | yields x => simp
  · rw [update_of_ne hut, h.yields u]
    refine iff_of_false (fun ⟨x, hx⟩ => hnone x hx) fun ⟨x, hx⟩ => ?_
    cases hends with
    | returns => cases hx
    | yields y =>
        cases hx
        exact hut rfl

/-- `execute_task`. -/
theorem executed (hends : Ends t p todo pl) (htodo : s.todo = []) (hplace : s.place = .execute t)
    (hroom : s.counter (.post t) + 1 < counterSize) : Inv (s.executed t again p todo pl) := by
  have htaken : s.taken = t :: s.ready := by
    unfold State.taken
    rw [hplace]
  have ht : t ∈ s.taken := by
    rw [htaken]
    exact List.mem_cons_self
  have htmem : t ∈ s.emplaced ++ s.taken := List.mem_append_right _ ht
  have hs : s.place.isPlain = true := by
    rw [hplace]
    rfl
  have hq : (s.executed t again p todo pl).taken = s.ready := by
    unfold State.taken
    cases hends <;> rfl
  have hwaiting := (h.settled t (Or.inl htmem)).1
  obtain ⟨hnodup, hmem⟩ := h.queued_executed htaken
  -- the task has started now, and the others are where they were
  have hother : ∀ u, u ≠ t → update s.progress t p u = s.progress u :=
    fun u hu => update_of_ne hu ..
  have hne : ∀ u, s.graph.next ≤ u → u ≠ t := by
    rintro u hu rfl
    exact absurd (h.known u htmem) (not_lt.mpr hu)
  have hp : p ≠ .fresh := by cases hends <;> simp
  have hpre : ∀ u, update s.counter (.post t) (s.counter (.post t) + 1) (.pre u) =
      s.counter (.pre u) := fun u => update_of_ne (by simp) ..
  exact { h with
    bound := by
      intro x
      have hb := h.bound x
      show update s.counter (.post t) (s.counter (.post t) + 1) x < counterSize
      rw [update_apply]
      split_ifs
      · exact hroom
      · exact hb
    count := h.count_executed hends ht hs htodo
    nodup := by
      rw [hq]
      exact hnodup
    known := fun u hu => by
      rw [hq] at hu
      exact h.known u (hmem u hu).1
    settled := by
      intro u hu
      rw [hq] at hu
      have hset := h.settled u (hu.imp_left fun hu => (hmem u hu).1)
      have hut : u ≠ t := hu.elim (fun hu => (hmem u hu).2) (hne u)
      constructor
      · show (update s.progress t p u).isWaiting = true
        rw [hother u hut]
        exact hset.1
      · exact (hpre u).trans hset.2
    unstarted := by
      intro u hu
      have hut : u ≠ t := hu.elim (fun hu => (hmem u (List.mem_append_left _ hu)).2) (hne u)
      exact (hother u hut).trans (h.unstarted u hu)
    idle := by
      intro u hu
      have hpost : EventPtr.post t ≠ .pre u := by simp
      obtain ⟨hlive, hwaits, hothers, hle⟩ := h.idle_executed ht hu
      refine ⟨?_, hwaits, hothers, (hpre u).trans_le hle⟩
      rw [h.live_executed ht, if_neg hpost, hlive]
    yields := h.yields_executed hends hs
    pauses := by
      intro u hu
      change pl.pausing = some u at hu
      cases hends <;> cases hu
    made := h.made_launch t
    events_nodup := h.events_launch.1
    events_launched := h.events_launch.2
    polled := h.polled_launch
    removed_iff := fun u => (h.removed_iff u).trans (h.reached_executed ht _)
    started := h.started_launch hp
    stream_iff := by
      intro u
      show (update s.streamIdx t (some _) u).isSome = true ↔ update s.progress t p u ≠ .fresh
      by_cases hut : u = t
      · rw [hut, update_self, update_self]
        exact iff_of_true rfl hp
      · rw [hother u hut, update_of_ne hut]
        exact h.stream_iff u
    on_stream := h.on_stream_launch
    complete_mayStart := h.complete_mayStart_launch
    weak_started := by
      intro u k hk
      show update s.progress t p k ≠ .fresh
      rw [update_apply]
      split_ifs
      · exact hp
      · exact h.weak_started u k hk
    weak_edge := by
      intro u k hk
      refine (h.weak_edge u k hk).imp (fun hr => ?_) (List.mem_cons_of_mem _)
      have hkt : k ≠ t := by
        rintro rfl
        rw [hr] at hwaiting
        cases hwaiting
      exact (hother k hkt).trans hr
    covered := by
      intro i j hij hj hjem hserial
      rcases h.covered i j hij hj hjem hserial with hr | ⟨k, hik, hkj, hk, he⟩
      · exact Or.inl hr
      · exact Or.inr ⟨k, hik, hkj, hk, he.imp_left (List.mem_cons_of_mem _)⟩ }

/-! ### Pausing -/

omit h in
/-- A store to the counter of an event without followers opens no entry. -/
theorem openEntries_store {y : EventPtr} {v : Nat} (hnone : s.followersOf y = []) (e : EventPtr) :
    openEntries s.followers (update s.counter y v) e = s.live e := by
  refine List.countP_congr fun d hd => ?_
  have hne : d.1 ≠ y := by
    intro he
    have hmem : d.2 ∈ s.followersOf y :=
      List.mem_map.mpr ⟨d, List.mem_filter.mpr ⟨hd, decide_eq_true he⟩, rfl⟩
    rw [hnone] at hmem
    exact absurd hmem List.not_mem_nil
  simp only [update_of_ne hne]

omit h in
/-- A task that is paused has its unit of the pre-event back, and no other event gets one. -/
theorem own_store (hyields : s.progress t = .yielded) (e : EventPtr) :
    State.own { s with progress := update s.progress t .paused } e =
      if e = .pre t then 1 else s.own e := by
  cases e with
  | pre u =>
      by_cases hut : u = t
      · simp [State.own, hut, Progress.isWaiting]
      · simp [State.own, hut]
  | post u =>
      by_cases hut : u = t
      · simp [State.own, hut, hyields]
      · simp [State.own, update_of_ne hut]
  | resultSet u | resultGet u | external u => simp [State.own]

/-- The body of `t` has yielded: its pre-event is reached, and nobody counts on it. -/
theorem counter_of_yielded (htodo : s.todo = []) (hyields : s.progress t = .yielded) :
    s.live (.pre t) = 0 ∧ s.waits (.pre t) = 0 ∧ s.others.count (.pre t) = 0 ∧
      s.counter (.pre t) = 0 := by
  have hidle : (s.progress t).isWaiting = false := by
    rw [hyields]
    rfl
  obtain ⟨hlive, hwaits, hothers, -⟩ := h.idle t hidle
  obtain ⟨x, hplace⟩ := (h.yields t).mp hyields
  have hdebt : s.place.debt (.pre t) = 0 := by
    rw [hplace]
    rfl
  have hown : s.own (.pre t) = 0 := by simp [State.own, hidle]
  have hc := h.count (.pre t)
  rw [hdebt, State.due, hown, hlive, hwaits, hothers, htodo, List.count_nil] at hc
  exact ⟨hlive, hwaits, hothers, hc⟩

omit p todo pl again in
/-- `sg_pause` stores 1 into the counter of the pre-event, which has no followers. -/
theorem store {x : Nat} (htodo : s.todo = []) (hplace : s.place = .store t x)
    (hnone : s.followersOf (.pre t) = []) : Inv { s with
      counter := update s.counter (.pre t) 1
      progress := update s.progress t .paused
      place := .check t x } := by
  have hyields : s.progress t = .yielded := (h.yields t).mpr ⟨x, hplace⟩
  obtain ⟨hlive, hwaits, hothers, -⟩ := h.counter_of_yielded htodo hyields
  have htaken : State.taken { s with place := .check t x } = s.taken := by
    unfold State.taken
    rw [hplace]
  have hqueued : ∀ u, u ∈ s.emplaced ++ s.taken ∨ s.graph.next ≤ u → u ≠ t := by
    rintro u hu rfl
    have hwaiting := (h.settled u hu).1
    rw [hyields] at hwaiting
    cases hwaiting
  have hother : ∀ u, u ≠ t → update s.progress t .paused u = s.progress u :=
    fun u hu => update_of_ne hu ..
  have hpre : ∀ e, e ≠ .pre t → update s.counter (.pre t) 1 e = s.counter e :=
    fun e he => update_of_ne he ..
  have hstarted : ∀ u, update s.progress t .paused u ≠ .fresh ↔ s.progress u ≠ .fresh := by
    intro u
    by_cases hut : u = t
    · rw [hut, update_self, hyields]
      simp
    · rw [hother u hut]
  exact { h with
    bound := by
      intro e
      have hb := h.bound e
      show update s.counter (.pre t) 1 e < counterSize
      rw [update_apply]
      split_ifs
      · decide
      · exact hb
    count := by
      intro e
      have hc := h.count e
      have hdebt : s.place.debt e = 0 := by
        rw [hplace]
        rfl
      have hcall : s.todo.count e = 0 := by
        rw [htodo]
        rfl
      rw [hdebt, State.due] at hc
      show update s.counter (.pre t) 1 e + 0 = State.own
        { s with progress := update s.progress t .paused } e + openEntries _ _ e + s.waits e +
          s.todo.count e + s.others.count e
      rw [openEntries_store hnone, own_store hyields, hcall]
      by_cases he : e = .pre t
      · rw [he, update_self, if_pos rfl, hlive, hwaits, hothers]
      · rw [hpre e he, if_neg he]
        omega
    nodup := htaken ▸ h.nodup
    known := fun u hu => h.known u (htaken ▸ hu)
    settled := by
      intro u hu
      have hut := hqueued u (htaken ▸ hu)
      have hset := h.settled u (htaken ▸ hu)
      constructor
      · show (update s.progress t .paused u).isWaiting = true
        rw [hother u hut]
        exact hset.1
      · exact (hpre _ (by simpa using hut)).trans hset.2
    unstarted := by
      intro u hu
      have hut := hqueued u (hu.imp_left (List.mem_append_left _))
      exact (hother u hut).trans (h.unstarted u hu)
    idle := by
      intro u hu
      have hut : u ≠ t := by
        rintro rfl
        change (update s.progress u .paused u).isWaiting = false at hu
        rw [update_self] at hu
        cases hu
      change (update s.progress t .paused u).isWaiting = false at hu
      rw [hother u hut] at hu
      obtain ⟨hlive, hwaits, hothers, hone⟩ := h.idle u hu
      exact ⟨(openEntries_store hnone _).trans hlive, hwaits, hothers,
        (hpre _ (by simpa using hut)).trans_le hone⟩
    yields := by
      intro u
      refine iff_of_false (fun hu => ?_) (by simp)
      change update s.progress t .paused u = .yielded at hu
      by_cases hut : u = t
      · rw [hut, update_self] at hu
        cases hu
      · rw [hother u hut] at hu
        obtain ⟨y, hy⟩ := (h.yields u).mp hu
        rw [hplace] at hy
        cases hy
        exact hut rfl
    pauses := by
      intro u hu
      cases hu
      refine ⟨htodo, update_self .., fun hm => ?_, .inl (update_self ..)⟩
      exact hqueued t (.inl (htaken ▸ hm)) rfl
    removed_iff := fun u => (h.removed_iff u).trans (iff_of_eq (congrArg (· = 0)
      (hpre (.post u) (by simp)).symm))
    started := fun u => (hstarted u).trans (h.started u)
    stream_iff := fun u => (h.stream_iff u).trans (hstarted u).symm
    weak_started := fun u k hk => (hstarted k).mpr (h.weak_started u k hk)
    weak_edge := by
      intro u k hk
      refine (h.weak_edge u k hk).imp_left fun hr => ?_
      have hkt : k ≠ t := by
        rintro rfl
        rw [hyields] at hr
        cases hr
      exact (hother k hkt).trans hr }

omit p todo pl again in
/-- Steps of a pause that touch at most the entries of the pre-event: afterwards the counter and
the entries agree. -/
theorem pauseStep {pl' : Place} {w : List (Nat × Nat)} (hpausing : s.place.pausing = some t)
    (hup : ∀ u, s.place ≠ .up u) (hpausing' : pl'.pausing = some t)
    (hwaits : ∀ u, openEntries w (Outside.left ∘ s.outside) u + s.place.debt (.pre u) =
      s.waits (.pre u) + pl'.debt (.pre u)) :
    Inv { s with waiting := w, place := pl' } := by
  obtain ⟨htodo, hpaused, hnot, hcounter⟩ := h.pauses t hpausing
  have hone : s.counter (.pre t) = 1 := hcounter.resolve_right fun hu => hup t hu.1
  have htaken : State.taken { s with place := pl' } = s.taken := by
    unfold State.taken
    cases hp : s.place with
    | execute u =>
        rw [hp] at hpausing
        cases hpausing
    | gather | init | poll | store | check | push | count | up =>
        cases pl' with
        | execute u => cases hpausing'
        | gather | init | poll | store | check | push | count | up => rfl
  have hdebt : ∀ pl : Place, pl.pausing = some t → ∀ u, u ≠ t → pl.debt (.pre u) = 0 := by
    intro pl hpl u hu
    refine Place.debt_of_pausing fun hc => hu ?_
    exact Option.some.inj (hc.symm.trans hpl)
  exact { h with
    count := by
      intro e
      have hc := h.count e
      rw [State.due] at hc
      show s.counter e + pl'.debt e = s.own e + s.live e +
        State.waits { s with waiting := w } e + s.todo.count e + s.others.count e
      cases e with
      | pre u =>
          have hw := hwaits u
          show _ = s.own (.pre u) + s.live (.pre u) +
            openEntries w (Outside.left ∘ s.outside) u + _ + _
          omega
      | post u | resultSet u | resultGet u | external u =>
          rw [Place.debt_of_ne (by simp)] at hc ⊢
          exact hc
    nodup := htaken ▸ h.nodup
    known := fun u hu => h.known u (htaken ▸ hu)
    settled := fun u hu => h.settled u (htaken ▸ hu)
    idle := by
      intro u hu
      obtain ⟨hlive, hzero, hothers, hle⟩ := h.idle u hu
      have hut : u ≠ t := by
        rintro rfl
        rw [hpaused] at hu
        cases hu
      refine ⟨hlive, ?_, hothers, hle⟩
      have hw := hwaits u
      rw [hdebt _ hpausing u hut, hdebt _ hpausing' u hut, hzero] at hw
      exact hw
    yields := by
      intro u
      refine (h.yields u).trans (iff_of_false ?_ ?_)
      · rintro ⟨x, hx⟩
        rw [hx] at hpausing
        cases hpausing
      · rintro ⟨x, hx⟩
        change pl' = .store u x at hx
        rw [hx] at hpausing'
        cases hpausing'
    pauses := by
      intro u hu
      obtain rfl : u = t := Option.some.inj (Eq.trans (Eq.symm hu) hpausing')
      exact ⟨htodo, hpaused, fun hm => hnot (htaken ▸ hm), .inl hone⟩ }

omit p todo pl again in
/-- Steps of a pause that increment the counter of the pre-event: for the entry that was pushed,
or for the call of `notify` that comes next. -/
theorem pauseUp {pl' : Place} {todo' : List EventPtr} (hpausing : s.place.pausing = some t)
    (hcalls : ∀ e, s.place.debt e + todo'.count e = pl'.debt e + if e = .pre t then 1 else 0)
    (hnot : ∀ u x, pl' ≠ .execute u ∧ pl' ≠ .store u x)
    (hpausing' : ∀ u, pl'.pausing = some u →
      todo' = [] ∧ pl' = .up t ∧ u = t ∧ s.counter (.pre t) = 1) :
    Inv { s.up (.pre t) with place := pl', todo := todo' } := by
  obtain ⟨htodo, hpaused, hnotIn, hcounter⟩ := h.pauses t hpausing
  have hval : (s.counter (.pre t) + 1) % counterSize = s.counter (.pre t) + 1 :=
    Nat.mod_eq_of_lt (by have : 3 < counterSize := by decide
                         omega)
  have heq : { s.up (.pre t) with place := pl', todo := todo' } = { s with
      counter := update s.counter (.pre t) (s.counter (.pre t) + 1)
      place := pl'
      todo := todo' } := by
    rw [← hval]
    rfl
  have htaken : State.taken { s with place := pl' } = s.taken := by
    unfold State.taken
    cases hp : s.place with
    | execute u =>
        rw [hp] at hpausing
        cases hpausing
    | gather | init | poll | store | check | push | count | up =>
        cases pl' with
        | execute u => exact absurd rfl (hnot u 0).1
        | gather | init | poll | store | check | push | count | up => rfl
  have hiff : ∀ e, s.counter e = 0 ↔
      update s.counter (.pre t) (s.counter (.pre t) + 1) e = 0 := by
    intro e
    by_cases he : e = .pre t
    · rw [he, update_self]
      omega
    · rw [update_of_ne he]
  have hne : ∀ u, (s.progress u).isWaiting = false ∨ u ∈ s.emplaced ++ s.taken ∨
      s.graph.next ≤ u → EventPtr.pre u ≠ .pre t := by
    rintro u hu ⟨⟩
    rcases hu with hu | hu | hu
    · rw [hpaused] at hu
      cases hu
    · exact hnotIn hu
    · rw [h.unstarted t (.inr hu)] at hpaused
      cases hpaused
  rw [heq]
  exact { h with
    bound := by
      intro e
      have hb := h.bound e
      have hthree : 3 < counterSize := by decide
      show update s.counter (.pre t) (s.counter (.pre t) + 1) e < counterSize
      rw [update_apply]
      split_ifs
      · omega
      · exact hb
    count := by
      intro e
      have hc := h.count e
      have hcall := hcalls e
      rw [State.due, htodo, List.count_nil] at hc
      show update s.counter (.pre t) (s.counter (.pre t) + 1) e + pl'.debt e = s.own e +
        openEntries _ _ e + s.waits e + todo'.count e + s.others.count e
      rw [← openEntries_congr hiff, update_apply]
      change _ = _ + s.live e + _ + _ + _
      split_ifs at hcall ⊢ with he
      · rw [he] at hc hcall ⊢
        omega
      · omega
    nodup := htaken ▸ h.nodup
    known := fun u hu => h.known u (htaken ▸ hu)
    settled := by
      intro u hu
      have hset := h.settled u (htaken ▸ hu)
      exact ⟨hset.1, (update_of_ne (hne u (.inr (htaken ▸ hu))) _ s.counter).trans hset.2⟩
    idle := by
      intro u hu
      obtain ⟨hlive, hzero, hothers, hle⟩ := h.idle u hu
      refine ⟨?_, hzero, hothers, (update_of_ne (hne u (.inl hu)) _ s.counter).trans_le hle⟩
      exact (openEntries_congr hiff).symm.trans hlive
    yields := by
      intro u
      refine (h.yields u).trans (iff_of_false ?_ ?_)
      · rintro ⟨x, hx⟩
        rw [hx] at hpausing
        cases hpausing
      · rintro ⟨x, hx⟩
        exact (hnot u x).2 hx
    pauses := by
      intro u hu
      obtain ⟨hnil, hup, rfl, hone⟩ := hpausing' u hu
      refine ⟨hnil, hpaused, fun hm => hnotIn (htaken ▸ hm), .inr ⟨hup, ?_⟩⟩
      show update s.counter (.pre u) (s.counter (.pre u) + 1) (.pre u) = 2
      rw [update_self, hone]
    removed_iff := fun u => (h.removed_iff u).trans (hiff _) }

/-! ### Runs -/

omit h in
/-- A step of the worker. -/
theorem work {pick : Nat} {again : Bool} {event : Option Nat} (h : Inv s)
    (hroom : Room s (.work pick again event)) (honce : PausesOnce s (.work pick again event)) :
    Inv (s.work pick again event) := by
  have hplain : ∀ {p p' : Place}, s.place = p → p.isPlain = true → p'.isPlain = true →
      State.taken { s with place := p' } = s.taken → Inv { s with place := p' } := by
    rintro p p' rfl hs hp htaken
    exact h.requeue hs hp (htaken ▸ List.Perm.refl _)
  obtain ⟨s', hs'⟩ : ∃ s', s' = s.work pick again event := ⟨_, rfl⟩
  have hworked := s.worked pick again event
  rw [← hs'] at hworked ⊢
  cases hworked with
  | notify htodo => exact h.notify_todo htodo
  | take htodo hplace hpick =>
      obtain ⟨hlt, rfl⟩ := List.getElem?_eq_some_iff.mp hpick
      refine h.requeue (by rw [hplace]; rfl) rfl ?_
      rw [State.taken, State.taken, hplace]
      exact List.getElem_cons_eraseIdx_perm hlt
  | noneReady htodo hplace => exact hplain hplace rfl rfl (by rw [State.taken, State.taken, hplace])
  | @init t htodo hplace hpick =>
      apply h.initDependencies hplace hpick
      apply hroom.1 t
      simp [State.initNext, htodo, hplace, hpick]
  | noneEmplaced htodo hplace =>
      exact hplain hplace rfl rfl (by rw [State.taken, State.taken, hplace])
  | @execute t htodo hplace =>
      have hpost := hroom.2 t (by simp [State.executeNext, htodo, hplace])
      have ht : t ∈ s.taken := by
        unfold State.taken
        rw [hplace]
        exact List.mem_cons_self
      obtain ⟨p, todo, pl, hends, heq⟩ := h.executeTask_eq ht again event hpost
      rw [heq]
      exact h.executed hends htodo hplace hpost
  | polled htodo hplace hevents hn =>
      have hpolled := h.poll_complete htodo (by rw [hplace]; rfl) hevents hn
      refine hpolled.requeue (by rw [hplace]; rfl) rfl ?_
      rw [State.taken, State.taken, hplace]
  | unpolled htodo hplace => exact hplain hplace rfl rfl (by rw [State.taken, State.taken, hplace])
  | store htodo hplace =>
      have hok := honce htodo
      rw [hplace] at hok
      exact h.store htodo hplace hok
  | check htodo hplace =>
      refine h.pauseStep (by rw [hplace]; rfl) (by simp [hplace]) rfl fun u => ?_
      rw [hplace]
      rfl
  | checkReached htodo hplace =>
      refine h.pauseStep (by rw [hplace]; rfl) (by simp [hplace]) rfl fun u => ?_
      rw [hplace]
      rfl
  | @push t x htodo hplace =>
      have hok := honce htodo
      rw [hplace] at hok
      refine h.pauseStep (by rw [hplace]; rfl) (by simp [hplace]) rfl fun u => ?_
      have hleft : (s.outside x).left ≠ 0 := by
        cases hx : s.outside x with
        | walked => exact absurd hx hok
        | unreached | reached => simp [Outside.left]
      have hcons : openEntries ((x, t) :: s.waiting) (Outside.left ∘ s.outside) u =
          s.waits (.pre u) + if t = u then 1 else 0 := by
        unfold openEntries
        rw [List.countP_cons]
        congr 1
        refine if_congr ?_ rfl rfl
        simp [hleft]
      rw [hcons, hplace]
      simp [Place.debt, eq_comm]
  | @count t htodo hplace =>
      have hpausing : s.place.pausing = some t := by
        rw [hplace]
        rfl
      have hone := (h.pauses t hpausing).2.2.2.resolve_right (by simp [hplace])
      have hstep : Inv { s.up (.pre t) with place := .up t, todo := [] } := by
        refine h.pauseUp hpausing (fun e => ?_) (fun u x => by simp)
          fun u hu => ⟨rfl, rfl, (Option.some.inj hu).symm, hone⟩
        rw [hplace]
        show (if e = .pre t then 1 else 0) + 0 = 0 + _
        split_ifs <;> rfl
      rw [← htodo] at hstep
      exact hstep
  | @up t htodo hplace =>
      refine h.pauseUp (by rw [hplace]; rfl) (fun e => ?_) (fun u x => by simp)
        (fun u hu => by cases hu)
      rw [hplace]
      show 0 + [EventPtr.pre t].count e = 0 + _
      by_cases he : e = .pre t
      · rw [he, if_pos rfl, List.count_singleton_self]
      · rw [if_neg he, List.count_eq_zero_of_not_mem (by simpa using he)]

omit h in
theorem step {a : Action} {s' : State} (h : Inv s) (hroom : Room s a) (honce : PausesOnce s a)
    (hs : step s a = some s') : Inv s' := by
  cases a with
  | submit calls =>
      cases hs
      exact h.submit calls
  | finish n =>
      simp only [Cuda.step, State.finish] at hs
      split_ifs at hs with hmay
      cases hs
      exact h.finish hmay
  | work pick again event =>
      cases hs
      exact h.work hroom honce
  | reach x =>
      simp only [Cuda.step, State.reach] at hs
      split_ifs at hs with hx
      cases hs
      exact h.reach hx
  | walk x =>
      simp only [Cuda.step, State.walk] at hs
      split_ifs at hs with hx
      cases hs
      exact h.walk hx
  | other k =>
      obtain ⟨e, hk, rfl⟩ := Option.map_eq_some_iff.mp hs
      exact h.notify_other hk (honce e hk)

end Inv

end RedGrapes.Cuda
