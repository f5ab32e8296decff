/-
RedGrapes/Cuda/DeviceOrder.lean

Is the device work of serial tasks done in the order of submission?

A dependency on a task that has no stream index yet is an edge from its post-event, which is
reached only after `poll` has found its device work complete.  A dependency on a task that has
one is on its pre-event.  This event is reached when the body of the task has been run again
after its last pause, so nothing waits for the device work then, and only the order within a
stream can help: the successor has to be launched on the same stream.

`getCudaStream` hands out the streams in turn, whatever a task depends on.  With two streams
the work of a task may start while that of a serial predecessor is running
(`serial_work_overlaps`).  A task that pauses again when a successor already follows its
pre-event notifies the successor too early, and then one stream is no help either
(`resumed_work_overlaps`).

The device keeps the order in the runs in which pauses do their work and every task that
depended on a pre-event is launched behind that predecessor on the same stream, or after the
predecessor's work is complete (`device_order`).  With one stream the second condition always
holds (`device_order_one_stream`).
-/
import RedGrapes.Cuda.Execute

namespace RedGrapes.Cuda

open Function RedGrapes.Runtime Machine State

/-! ### The order of launched work -/

namespace State

/-- What orders the device work of `i` before the launch `y` of `j`: the body of `i`, or of a
serial task between them, has returned, and each launch of it is complete or ahead on the
same stream. -/
def Ordered (s : State) (i j y : Nat) : Prop :=
  ∃ k, k < j ∧ (k = i ∨ i < k ∧ s.Serial i k) ∧ s.progress k = .returned ∧
    ∀ x < s.launches, s.owner x = k → s.complete x = true ∨ x ∈ s.ahead y

/-- All device work is launched behind that of earlier serial tasks. -/
def InOrder (s : State) : Prop :=
  ∀ i j y, i < j → s.Serial i j → y < s.launches → s.owner y = j → s.Ordered i j y

end State

theorem inOrder_initial (n : ℕ+) : (State.initial n).InOrder :=
  fun _ _ _ _ _ hy => absurd hy (Nat.not_lt_zero _)

/-- The work of a task may start only when that of every earlier serial task is complete. -/
theorem State.InOrder.workComplete_of_mayStart {s : State} (ho : s.InOrder) (h : Inv s)
    {i j y : Nat} (hij : i < j) (hserial : s.Serial i j) (hy : s.owner y = j)
    (hmay : s.MayStart y) : s.WorkComplete i := by
  induction j using Nat.strong_induction_on generalizing y with
  | _ j ih =>
      obtain ⟨k, hkj, hk, hreturned, hlaunches⟩ := ho i j y hij hserial hmay.1 hy
      have hcomplete : s.WorkComplete k := by
        refine ⟨hreturned, fun x hx hxk => ?_⟩
        rcases hlaunches x hx hxk with hc | hahead
        · exact hc
        · exact hmay.2 x hahead
      rcases hk with rfl | ⟨hik, hserialk⟩
      · exact hcomplete
      · -- the work of the task between them has started
        obtain ⟨x, hx, hxk⟩ := (h.started k).mp (by rw [hreturned]; simp)
        exact ih k hkj hik hserialk hxk (h.complete_mayStart x (hcomplete.2 x hx hxk))

/-! ### Steps that launch nothing -/

/-- What a step does not change that launches nothing. -/
structure SameLaunches (s s' : State) : Prop where
  launches : s'.launches = s.launches
  owner : s'.owner = s.owner
  ahead : ∀ y, s'.ahead y = s.ahead y
  serial : ∀ i j, j < s.graph.next → i < j → (s'.Serial i j ↔ s.Serial i j)
  complete : ∀ n, s.complete n = true → s'.complete n = true
  returned : ∀ k, s.progress k = .returned → s'.progress k = .returned

/-- The order of the launched work stays as it is. -/
theorem SameLaunches.inOrder {s s' : State} (hs : SameLaunches s s') (h : Inv s)
    (ho : s.InOrder) : s'.InOrder := by
  intro i j y hij hserial hy hyj
  rw [hs.launches] at hy
  rw [hs.owner] at hyj
  have hj : j < s.graph.next := h.lt_next ((h.started j).mpr ⟨y, hy, hyj⟩)
  obtain ⟨k, hkj, hk, hreturned, hlaunches⟩ :=
    ho i j y hij ((hs.serial i j hj hij).mp hserial) hy hyj
  refine ⟨k, hkj, ?_, hs.returned k hreturned, fun x hx hxk => ?_⟩
  · exact hk.imp_right fun hk => ⟨hk.1, (hs.serial i k (hkj.trans hj) hk.1).mpr hk.2⟩
  · rw [hs.launches] at hx
    rw [hs.owner] at hxk
    rw [hs.ahead]
    exact (hlaunches x hx hxk).imp_left (hs.complete x)

namespace Inv

variable {s : State} (h : Inv s)

include h

theorem sameLaunches_work {pick : Nat} {again : Bool} {event : Option Nat}
    (hroom : Room s (.work pick again event)) (hno : s.executeNext = none) :
    SameLaunches s (s.work pick again event) := by
  obtain ⟨s', hs'⟩ : ∃ s', s' = s.work pick again event := ⟨_, rfl⟩
  have hworked := s.worked pick again event
  rw [← hs'] at hworked ⊢
  cases hworked with
  | @notify e rest htodo =>
      unfold State.notify
      cases e <;> (dsimp only; split_ifs <;> exact ⟨rfl, rfl, fun _ => rfl, fun _ _ _ _ => Iff.rfl,
        fun _ => id, fun _ => id⟩)
  | @init t htodo hplace hpick =>
      obtain ⟨new, wk, -, -, -, -, -, heq⟩ := h.initDependencies_eq (s.emplaced.eraseIdx pick)
        (List.mem_of_getElem? hpick)
        (hroom.1 t (by simp [State.initNext, htodo, hplace, hpick]))
      rw [heq]
      exact ⟨rfl, rfl, fun _ => rfl, fun _ _ _ _ => Iff.rfl, fun _ => id, fun _ => id⟩
  | execute htodo hplace =>
      simp [State.executeNext, htodo, hplace] at hno
  | @store t x htodo hplace =>
      refine ⟨rfl, rfl, fun _ => rfl, fun _ _ _ _ => Iff.rfl, fun _ => id, fun k hk => ?_⟩
      have hkt : k ≠ t := by
        rintro rfl
        rw [(h.yields k).mpr ⟨x, hplace⟩] at hk
        cases hk
      exact (update_of_ne hkt ..).trans hk
  | take | noneReady | noneEmplaced | polled | unpolled | check | checkReached | push | count |
      up =>
      exact ⟨rfl, rfl, fun _ => rfl, fun _ _ _ _ => Iff.rfl, fun _ => id, fun _ => id⟩

/-! ### Launches -/

/-- The work of a task that is executed is launched behind that of the earlier serial tasks. -/
theorem ordered_launch {i t : Nat} {again : Bool} {p : Progress} {todo : List EventPtr}
    {pl : Place} (hit : i < t) (hserial : s.Serial i t) (hplace : s.place = .execute t)
    (hweak : ∀ k ∈ s.weak t, ∀ n < s.launches, s.owner n = k →
      s.complete n = true ∨ s.stream n = s.launchStream t again) :
    (s.executed t again p todo pl).Ordered i t s.launches := by
  have ht : t ∈ s.taken := by
    unfold State.taken
    rw [hplace]
    exact List.mem_cons_self
  have htmem : t ∈ s.emplaced ++ s.taken := List.mem_append_right _ ht
  have hwaiting := (h.settled t (Or.inl htmem)).1
  have hlive := (h.calls_of_settled (.inl htmem)).1
  have hem : t ∉ s.emplaced := fun hc => (List.nodup_append.mp h.nodup).2.2 t hc t ht rfl
  have hne : ∀ k, s.progress k = .returned → k ≠ t := by
    rintro k hk rfl
    rw [hk] at hwaiting
    cases hwaiting
  -- a task whose body has returned, and what orders its launches
  have hordered : ∀ k, k ≤ t → (k = i ∨ i < k ∧ s.Serial i k) → s.progress k = .returned →
      (∀ n < s.launches, s.owner n = k →
        s.complete n = true ∨ s.stream n = s.launchStream t again) →
        (s.executed t again p todo pl).Ordered i t s.launches := by
    intro k hkt hk hreturned hlaunches
    have hkne := hne k hreturned
    refine ⟨k, lt_of_le_of_ne hkt hkne, hk, (update_of_ne hkne ..).trans hreturned,
      fun x hx hxk => ?_⟩
    change update s.owner s.launches t x = k at hxk
    have hxne : x ≠ s.launches := by
      rintro rfl
      rw [update_self] at hxk
      exact hkne hxk.symm
    have hlt : x < s.launches := lt_of_le_of_ne (Nat.lt_succ_iff.mp hx) hxne
    rw [update_of_ne hxne] at hxk
    refine (hlaunches x hlt hxk).imp_right fun hstream => ?_
    show x ∈ (s.launch t again).ahead s.launches
    rw [ahead_launch_self, ← hstream]
    exact h.on_stream x hlt
  rcases h.covered i t hit (h.known t htmem) hem hserial with hr | ⟨k, hik, hkt, hk, hdep⟩
  · have hcomplete := h.workComplete_of_post ((h.removed_iff i).mp hr)
    exact hordered i hit.le (.inl rfl) hcomplete.1 fun n hn hni => .inl (hcomplete.2 n hn hni)
  -- the task on which `t` depends
  have hki : k = i ∨ i < k ∧ s.Serial i k := by
    rcases hik.eq_or_lt with rfl | hlt
    · exact Or.inl rfl
    · exact hk.imp_right fun hs => ⟨hlt, hs⟩
  rcases hdep with hedge | hwk
  · -- all edges of a task that is ready come from events that are reached
    have hcomplete := h.workComplete_of_post (openEntries_eq_zero_iff.mp hlive _ hedge rfl)
    exact hordered k hkt hki hcomplete.1 fun n hn hni => .inl (hcomplete.2 n hn hni)
  · have hreturned : s.progress k = .returned := by
      rcases h.weak_edge t k hwk with hr | hedge
      · exact hr
      · exact h.returned_of_reached (by rw [hplace]; rfl) (h.weak_started t k hwk)
          (openEntries_eq_zero_iff.mp hlive _ hedge rfl)
    exact hordered k hkt hki hreturned (hweak k hwk)

/-- `execute_task` keeps the order, if the task gets the right stream. -/
theorem inOrder_executed {t : Nat} {again : Bool} {p : Progress} {todo : List EventPtr}
    {pl : Place} (ho : s.InOrder) (hplace : s.place = .execute t)
    (hweak : ∀ k ∈ s.weak t, ∀ n < s.launches, s.owner n = k →
      s.complete n = true ∨ s.stream n = s.launchStream t again) :
    (s.executed t again p todo pl).InOrder := by
  have htmem : t ∈ s.emplaced ++ s.taken := by
    unfold State.taken
    rw [hplace]
    exact List.mem_append_right _ List.mem_cons_self
  have hwaiting := (h.settled t (Or.inl htmem)).1
  intro i j y hij hserial hy hyj
  change update s.owner s.launches t y = j at hyj
  rcases Nat.lt_succ_iff_lt_or_eq.mp hy with hlt | rfl
  · rw [update_of_ne hlt.ne] at hyj
    obtain ⟨k, hkj, hk, hreturned, hlaunches⟩ := ho i j y hij hserial hlt hyj
    have hkt : k ≠ t := by
      rintro rfl
      rw [hreturned] at hwaiting
      cases hwaiting
    refine ⟨k, hkj, hk, (update_of_ne hkt ..).trans hreturned, fun x hx hxk => ?_⟩
    change update s.owner s.launches t x = k at hxk
    have hxne : x ≠ s.launches := by
      rintro rfl
      rw [update_self] at hxk
      exact hkt hxk.symm
    rw [update_of_ne hxne] at hxk
    refine (hlaunches x (lt_of_le_of_ne (Nat.lt_succ_iff.mp hx) hxne) hxk).imp_right fun hm => ?_
    show x ∈ (s.launch t again).ahead y
    rw [ahead_launch hlt]
    exact hm
  · rw [update_self] at hyj
    subst hyj
    exact h.ordered_launch hij hserial hplace hweak

/-- A step. -/
theorem inOrder_step {a : Action} {s' : State} (ho : s.InOrder) (hok : Careful s a)
    (hs : Cuda.step s a = some s') : s'.InOrder := by
  obtain ⟨hroom, -, hkeeps⟩ := hok
  have hsame : ∀ {s' : State}, SameLaunches s s' → s'.InOrder := fun hs => hs.inOrder h ho
  cases a with
  | submit calls =>
      cases hs
      exact hsame ⟨rfl, rfl, fun _ => rfl,
        fun i j hj hij => serial_submit (hij.trans hj) hj, fun _ => id, fun _ => id⟩
  | finish n =>
      simp only [Cuda.step, State.finish] at hs
      split_ifs at hs
      cases hs
      exact hsame ⟨rfl, rfl, fun _ => rfl, fun _ _ _ _ => Iff.rfl, fun _ => complete_finish,
        fun _ => id⟩
  | reach x =>
      simp only [Cuda.step, State.reach] at hs
      split_ifs at hs
      cases hs
      exact hsame ⟨rfl, rfl, fun _ => rfl, fun _ _ _ _ => Iff.rfl, fun _ => id, fun _ => id⟩
  | walk x =>
      simp only [Cuda.step, State.walk] at hs
      split_ifs at hs
      cases hs
      exact hsame ⟨rfl, rfl, fun _ => rfl, fun _ _ _ _ => Iff.rfl, fun _ => id, fun _ => id⟩
  | other k =>
      obtain ⟨e, -, rfl⟩ := Option.map_eq_some_iff.mp hs
      apply hsame
      unfold State.notify
      cases e <;> (dsimp only; split_ifs <;> exact ⟨rfl, rfl, fun _ => rfl, fun _ _ _ _ => Iff.rfl,
        fun _ => id, fun _ => id⟩)
  | work pick again event =>
      cases hs
      cases hnext : s.executeNext with
      | none => exact hsame (h.sameLaunches_work hroom hnext)
      | some t =>
          obtain ⟨htodo, hplace⟩ : s.todo = [] ∧ s.place = .execute t := by
            unfold State.executeNext at hnext
            split at hnext
            · exact ⟨‹_›, (Option.some.inj hnext) ▸ ‹_›⟩
            · cases hnext
          have ht : t ∈ s.taken := by
            unfold State.taken
            rw [hplace]
            exact List.mem_cons_self
          obtain ⟨p, todo, pl, -, heq⟩ :=
            h.executeTask_eq ht again event (hroom.2 t hnext)
          have hwork : s.work pick again event = s.executeTask t again event := by
            simp only [State.work, htodo, hplace]
          rw [hwork, heq]
          exact h.inOrder_executed ho hplace (hkeeps t hnext)

end Inv

/-- What every careful run keeps. -/
theorem inv_of_reaches {n : ℕ+} {s : State} (hs : Reaches step Careful (State.initial n) s) :
    Inv s ∧ s.InOrder :=
  hs.invariant (I := fun s => Inv s ∧ s.InOrder) ⟨inv_initial n, inOrder_initial n⟩
    fun _ _ _ h hok hstep => ⟨h.1.step hok.1 hok.2.1 hstep, h.1.inOrder_step h.2 hok hstep⟩

/-- **Device order.**  In every run in which no counter overflows, pauses do their work, and a
task that depended on the pre-event of another is launched behind it on the same stream or
after its work is complete, device work of a task may start only when the body of every earlier
serial task has returned and its device work is complete. -/
theorem device_order {n : ℕ+} {s : State} (hs : Reaches step Careful (State.initial n) s)
    {i j y : Nat} (hij : i < j) (hserial : s.Serial i j) (hy : s.owner y = j)
    (hmay : s.MayStart y) : s.WorkComplete i :=
  (inv_of_reaches hs).2.workComplete_of_mayStart (inv_of_reaches hs).1 hij hserial hy hmay

/-! ### One stream -/

/-- The condition on steps that does not speak about streams. -/
def Steady (s : State) (a : Action) : Prop := Room s a ∧ PausesOnce s a

instance (s : State) (a : Action) : Decidable (Steady s a) :=
  inferInstanceAs (Decidable (_ ∧ _))

/-- There is one stream. -/
structure OneStream (s : State) : Prop where
  numStreams : s.numStreams = 1
  streamIdx : ∀ t, (s.streamIdx t).getD 0 = 0
  stream : ∀ n, s.stream n = 0

namespace OneStream

variable {s s' : State}

theorem initial : OneStream (State.initial 1) := ⟨rfl, fun _ => rfl, fun _ => rfl⟩

/-- All work goes to it. -/
theorem launchStream (h : OneStream s) (t : Nat) (again : Bool) : s.launchStream t again = 0 := by
  unfold State.launchStream
  split_ifs
  · rw [h.numStreams]
    exact Nat.mod_one _
  · exact h.streamIdx t

theorem keepsStream (h : OneStream s) : ∀ a, KeepsStream s a
  | .work _ again _ => fun t _ _ _ n _ _ =>
      .inr ((h.stream n).trans (h.launchStream t again).symm)
  | .submit _ | .finish _ | .reach _ | .walk _ | .other _ => trivial

/-- A step that launches nothing. -/
theorem same (h : OneStream s) (hn : s'.numStreams = s.numStreams)
    (hi : s'.streamIdx = s.streamIdx) (hs : s'.stream = s.stream) : OneStream s' where
  numStreams := hn.trans h.numStreams
  streamIdx := fun t => (congrArg (Option.getD · 0) (congrFun hi t)).trans (h.streamIdx t)
  stream := fun n => (congrFun hs n).trans (h.stream n)

theorem notify (h : OneStream s) (e : EventPtr) : OneStream (s.notify e) := by
  unfold State.notify
  cases e <;> (dsimp only; split_ifs <;> exact h.same rfl rfl rfl)

theorem executed (h : OneStream s) {t : Nat} {again : Bool} {p : Progress}
    {todo : List EventPtr} {pl : Place} : OneStream (s.executed t again p todo pl) where
  numStreams := h.numStreams
  streamIdx := fun u => by
    show (update s.streamIdx t (some (s.launchStream t again)) u).getD 0 = 0
    rw [update_apply]
    split_ifs
    · exact h.launchStream t again
    · exact h.streamIdx u
  stream := fun n => by
    show update s.stream s.launches (s.launchStream t again) n = 0
    rw [update_apply]
    split_ifs
    · exact h.launchStream t again
    · exact h.stream n

theorem work (h : OneStream s) (hinv : Inv s) {pick : Nat} {again : Bool} {event : Option Nat}
    (hroom : Room s (.work pick again event)) : OneStream (s.work pick again event) := by
  obtain ⟨s', hs'⟩ : ∃ s', s' = s.work pick again event := ⟨_, rfl⟩
  have hworked := s.worked pick again event
  rw [← hs'] at hworked ⊢
  cases hworked with
  | notify htodo => exact (h.notify _).same rfl rfl rfl
  | @init t htodo hplace hpick =>
      obtain ⟨new, wk, -, -, -, -, -, heq⟩ := hinv.initDependencies_eq (s.emplaced.eraseIdx pick)
        (List.mem_of_getElem? hpick)
        (hroom.1 t (by simp [State.initNext, htodo, hplace, hpick]))
      rw [heq]
      exact h.same rfl rfl rfl
  | @execute t htodo hplace =>
      have ht : t ∈ s.taken := by
        unfold State.taken
        rw [hplace]
        exact List.mem_cons_self
      obtain ⟨p, todo, pl, -, heq⟩ := hinv.executeTask_eq ht again event
        (hroom.2 t (by simp [State.executeNext, htodo, hplace]))
      rw [heq]
      exact h.executed
  | take | noneReady | noneEmplaced | polled | unpolled | store | check | checkReached | push |
      count | up =>
      exact h.same rfl rfl rfl

theorem step (h : OneStream s) (hinv : Inv s) {a : Action} (hroom : Room s a)
    (hs : Cuda.step s a = some s') : OneStream s' := by
  cases a with
  | submit calls =>
      cases hs
      exact h.same rfl rfl rfl
  | finish n =>
      simp only [Cuda.step, State.finish] at hs
      split_ifs at hs
      cases hs
      exact h.same rfl rfl rfl
  | reach x =>
      simp only [Cuda.step, State.reach] at hs
      split_ifs at hs
      cases hs
      exact h.same rfl rfl rfl
  | walk x =>
      simp only [Cuda.step, State.walk] at hs
      split_ifs at hs
      cases hs
      exact h.same rfl rfl rfl
  | other k =>
      obtain ⟨e, -, rfl⟩ := Option.map_eq_some_iff.mp hs
      exact (h.notify e).same rfl rfl rfl
  | work pick again event =>
      cases hs
      exact h.work hinv hroom

/-- With one stream no task gets the wrong one. -/
theorem careful_of_reaches (hs : Reaches Cuda.step Steady (State.initial 1) s) :
    Reaches Cuda.step Careful (State.initial 1) s ∧ OneStream s := by
  induction hs with
  | refl => exact ⟨Reaches.refl, initial⟩
  | tail _ hok hstep ih =>
      obtain ⟨hreach, hone⟩ := ih
      exact ⟨hreach.tail ⟨hok.1, hok.2, hone.keepsStream _⟩ hstep,
        hone.step (inv_of_reaches hreach).1 hok.1 hstep⟩

end OneStream

/-- With one stream, which is the default, the device keeps the order of serial tasks as long
as no counter overflows and pauses do their work. -/
theorem device_order_one_stream {s : State} (hs : Reaches step Steady (State.initial 1) s)
    {i j y : Nat} (hij : i < j) (hserial : s.Serial i j) (hy : s.owner y = j)
    (hmay : s.MayStart y) : s.WorkComplete i :=
  device_order (OneStream.careful_of_reaches hs).1 hij hserial hy hmay

/-! ### Two writers -/

/-- A task that writes a resource. -/
def writer : Action := .submit [.resources [Graph.ioAccess 0 .write]]

/-- A step of the worker in which a body that is run returns. -/
def loop : Action := .work 0 false none

/-- The worker executes the first of two writers, initialises the second one and takes it for
execution. -/
def untilSecond : List Action := [writer, writer] ++ .replicate 8 loop

/-- With two streams the second writer goes to the other stream and may start while the work
of the first one is not complete. -/
theorem serial_work_overlaps :
    ¬ ∀ (n : ℕ+) (s : State), Reaches step (fun _ _ => True) (State.initial n) s →
      ∀ i j y, i < j → s.Serial i j → s.owner y = j → s.MayStart y → s.WorkComplete i := by
  intro hclaim
  have hrun : ((exec step (fun _ _ => True) (untilSecond ++ [loop]) (State.initial 2)).map
      fun s => (decide (s.MayStart 1), s.owner 1, decide (s.WorkComplete 0),
        (s.graph.info 0).user.isSerial (s.graph.info 1).user)) = some (true, 1, false, true) := by
    decide +kernel
  obtain ⟨s, hs, h⟩ := Option.map_eq_some_iff.mp hrun
  simp only [Prod.mk.injEq, decide_eq_true_eq, decide_eq_false_iff_not] at h
  obtain ⟨hmay, howner, hcomplete, hserial⟩ := h
  exact hcomplete
    (hclaim 2 s (Reaches.refl.of_exec hs) 0 1 1 Nat.zero_lt_one hserial howner hmay)

/-- The first writer launches work, yields and is resumed; the second one is initialised in
between and follows its pre-event.  The first one launches more work and yields again, which
activates the second one. -/
def resumed : List Action :=
  [writer, loop, loop, .work 0 false (some 0)] ++ .replicate 7 loop ++ [writer] ++
    .replicate 4 loop ++ [.reach 0, .walk 0, .other 0] ++ .replicate 2 loop ++
      [.work 0 false (some 1)] ++ .replicate 12 loop

/-- With one stream the work of the second writer may start before the first one has launched all
of its work, when it pauses with the second one following its pre-event. -/
theorem resumed_work_overlaps :
    ¬ ∀ s : State, Reaches step (fun _ _ => True) (State.initial 1) s →
      ∀ i j y, i < j → s.Serial i j → s.owner y = j → s.MayStart y → s.WorkComplete i := by
  intro hclaim
  have hrun : ((exec step (fun _ _ => True) (resumed ++ [.finish 0, .finish 1])
      (State.initial 1)).map fun s => (decide (s.MayStart 2), s.owner 2, s.progress 0,
        (s.graph.info 0).user.isSerial (s.graph.info 1).user)) = some (true, 1, .paused, true) := by
    decide +kernel
  obtain ⟨s, hs, h⟩ := Option.map_eq_some_iff.mp hrun
  simp only [Prod.mk.injEq, decide_eq_true_eq] at h
  obtain ⟨hmay, howner, hprogress, hserial⟩ := h
  have hcomplete :=
    hclaim s (Reaches.refl.of_exec hs) 0 1 2 Nat.zero_lt_one hserial howner hmay
  rw [WorkComplete, hprogress] at hcomplete
  cases hcomplete.1

/-- When the work of the first writer is complete before the second one is executed, that of the
second one may start on the other stream. -/
theorem device_order_writers :
    ∃ s : State, Reaches step Careful (State.initial 2) s ∧ s.Serial 0 1 ∧ s.owner 1 = 1 ∧
      s.MayStart 1 ∧ s.WorkComplete 0 := by
  have hrun : ((exec step Careful (untilSecond ++ [.finish 0, loop]) (State.initial 2)).map
      fun s => (decide (s.MayStart 1), s.owner 1,
        (s.graph.info 0).user.isSerial (s.graph.info 1).user)) = some (true, 1, true) := by
    decide +kernel
  obtain ⟨s, hs, h⟩ := Option.map_eq_some_iff.mp hrun
  simp only [Prod.mk.injEq, decide_eq_true_eq] at h
  obtain ⟨hmay, howner, hserial⟩ := h
  have hreach : Reaches step Careful (State.initial 2) s := Reaches.refl.of_exec hs
  exact ⟨s, hreach, hserial, howner, hmay,
    device_order hreach Nat.zero_lt_one hserial howner hmay⟩

end RedGrapes.Cuda
