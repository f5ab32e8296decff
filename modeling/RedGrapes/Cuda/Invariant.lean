/-
RedGrapes/Cuda/Invariant.lean

The invariant of the CUDA worker, and the steps that initialise and execute nothing.

The argument counts: a counter has a unit for the event itself, one for each open entry of a
follower list that names it, and one for each call of `notify` still to be made (`Inv.count`).
`execute_task` and `poll` turn the unit of an event into a call, an event that is reached turns
its open entries into calls, and a call takes its unit off the counter.  `sg_pause` gives the
unit of the pre-event back.  So the post-event of a task is reached only after the body has
returned and `poll` has found all its device work complete (`Inv.workComplete_of_post`).

`State.Covered` says what `init_graph` of a task has done about an earlier serial task.
-/
import RedGrapes.Cuda.Model
import RedGrapes.Lib.Machine

namespace RedGrapes.Cuda

open Function RedGrapes.Runtime Machine

/-! ### Open entries of the follower lists -/

/-- The entries that name `e` as a follower of something that is still to come. -/
def openEntries {α β : Type} [DecidableEq β] (fs : List (α × β)) (c : α → Nat) (e : β) : Nat :=
  fs.countP fun d => d.2 = e ∧ c d.1 ≠ 0

section OpenEntries

variable {α β : Type} [DecidableEq α] [DecidableEq β]
variable {fs : List (α × β)} {c c' : α → Nat} {x : α} {e : β}

omit [DecidableEq α] in
theorem openEntries_congr (h : ∀ e, c e = 0 ↔ c' e = 0) :
    openEntries fs c e = openEntries fs c' e := by
  apply List.countP_congr
  intro d _
  simp only [ne_eq, h d.1]

/-- When an event is reached, its entries are closed. -/
theorem openEntries_reached (hx : c x ≠ 0) :
    openEntries fs (update c x 0) e + ((fs.filter fun d => d.1 = x).map Prod.snd).count e =
      openEntries fs c e := by
  unfold openEntries
  induction fs with
  | nil => rfl
  | cons d fs ih =>
      rw [List.countP_cons, List.countP_cons, ← ih, List.filter_cons]
      by_cases hd : d.1 = x
      · by_cases he : d.2 = e
        · simp [hd, he, hx]
          omega
        · simp [hd, he]
      · by_cases he : d.2 = e
        · simp [hd, he]
          omega
        · simp [hd, he]

omit [DecidableEq α] in
theorem openEntries_eq_zero_iff :
    openEntries fs c e = 0 ↔ ∀ d ∈ fs, d.2 = e → c d.1 = 0 := by
  unfold openEntries
  rw [List.countP_eq_zero]
  simp

omit [DecidableEq α] in
theorem openEntries_append (fs' : List (α × β)) :
    openEntries (fs' ++ fs) c e = openEntries fs' c e + openEntries fs c e :=
  List.countP_append

omit [DecidableEq α] in
/-- New entries for one follower. -/
theorem openEntries_map {new : List α} (h : ∀ y ∈ new, c y ≠ 0) (f : β) :
    openEntries (new.map fun y => (y, f)) c e = if f = e then new.length else 0 := by
  unfold openEntries
  rw [List.countP_map]
  split_ifs with hf
  · rw [List.countP_eq_length]
    intro y hy
    simp [hf, h y hy]
  · rw [List.countP_eq_zero]
    intro y _
    simp [hf]

end OpenEntries

/-! ### The device -/

section Before

variable {l : List Nat} {n m : Nat}

@[simp] theorem State.before_cons_self : State.before (n :: l) n = l := by
  simp [State.before]

theorem State.before_cons_of_ne (h : m ≠ n) : State.before (m :: l) n = State.before l n := by
  simp [State.before, h]

end Before

/-! ### The invariant -/

/-- What is still to come of an event on which tasks yield: its follower list is walked once. -/
def Outside.left : Outside → Nat
  | .walked => 0
  | _ => 1

/-- An entry that is pushed but not yet counted. -/
def Place.debt : Place → EventPtr → Nat
  | .count t, e => if e = .pre t then 1 else 0
  | _, _ => 0

/-- The task that is being paused, once `sg_pause` has stored its counter. -/
def Place.pausing : Place → Option Nat
  | .check t _ => some t
  | .push t _ => some t
  | .count t => some t
  | .up t => some t
  | _ => none

namespace State

/-- The unit which the counter of an event has for the event itself: `execute_task` takes that of
the pre-event, and that of the post-event when the body has returned; `poll` takes that of an
external event. -/
def own (s : State) : EventPtr → Nat
  | .pre t => if (s.progress t).isWaiting then 1 else 0
  | .post t => if s.progress t = .returned then 0 else 1
  | .external n => if n < s.launches ∧ n ∉ s.events then 0 else 1
  | _ => 1

def live (s : State) (e : EventPtr) : Nat := openEntries s.followers s.counter e

/-- The entries of a pre-event in the follower lists of events on which tasks yield. -/
def waits (s : State) : EventPtr → Nat
  | .pre t => openEntries s.waiting (Outside.left ∘ s.outside) t
  | _ => 0

/-- What the counter of an event has to count. -/
def due (s : State) (e : EventPtr) : Nat :=
  s.own e + s.live e + s.waits e + s.todo.count e + s.others.count e

/-- The tasks in the ready queue and the one at `execute_task`. -/
def taken (s : State) : List Nat :=
  match s.place with
  | .execute t => t :: s.ready
  | _ => s.ready

/-- The tasks `i` and `j` are serial. -/
def Serial (s : State) (i j : Nat) : Prop :=
  (s.graph.info i).user.isSerial (s.graph.info j).user = true

/-- What `init_graph` of `j` has done about the serial task `i`: there was nothing to do any
more, or `j` depends on `i` or on a task between them that depends on `i` itself. -/
def Covered (s : State) (i j : Nat) : Prop :=
  s.removed i = true ∨ ∃ k, i ≤ k ∧ k ≤ j ∧ (k = i ∨ s.Serial i k) ∧
    ((.post k, .pre j) ∈ s.followers ∨ k ∈ s.weak j)

end State

open State

/-- What every run keeps in which no counter overflows and pauses do their work. -/
structure Inv (s : State) : Prop where
  wellFormed : s.graph.WellFormed
  root : ∀ t, (s.graph.info t).space = none
  bound : ∀ e, s.counter e < counterSize
  count : ∀ e, s.counter e + s.place.debt e = s.due e
  nodup : (s.emplaced ++ s.taken).Nodup
  known : ∀ t ∈ s.emplaced ++ s.taken, t < s.graph.next
  /-- Tasks not yet initialised, and tasks that are ready. -/
  settled : ∀ t, t ∈ s.emplaced ++ s.taken ∨ s.graph.next ≤ t →
    (s.progress t).isWaiting = true ∧ s.counter (.pre t) = 1
  unstarted : ∀ t, t ∈ s.emplaced ∨ s.graph.next ≤ t → s.progress t = .fresh
  /-- Tasks whose body has run and that are not paused. -/
  idle : ∀ t, (s.progress t).isWaiting = false → s.live (.pre t) = 0 ∧ s.waits (.pre t) = 0 ∧
    s.others.count (.pre t) = 0 ∧ s.counter (.pre t) ≤ 1
  yields : ∀ t, s.progress t = .yielded ↔ ∃ x, s.place = .store t x
  pauses : ∀ t, s.place.pausing = some t → s.todo = [] ∧ s.progress t = .paused ∧
    t ∉ s.emplaced ++ s.taken ∧
      (s.counter (.pre t) = 1 ∨ s.place = .up t ∧ s.counter (.pre t) = 2)
  made : ∀ n < s.launches, (.external n, .post (s.owner n)) ∈ s.followers
  events_nodup : s.events.Nodup
  events_launched : ∀ n ∈ s.events, n < s.launches
  polled : ∀ n < s.launches, n ∉ s.events → s.complete n = true
  removed_iff : ∀ t, s.removed t = true ↔ s.counter (.post t) = 0
  started : ∀ t, s.progress t ≠ .fresh ↔ ∃ n < s.launches, s.owner n = t
  stream_iff : ∀ t, (s.streamIdx t).isSome = true ↔ s.progress t ≠ .fresh
  on_stream : ∀ n < s.launches, n ∈ s.streams (s.stream n)
  complete_mayStart : ∀ n, s.complete n = true → s.MayStart n
  weak_started : ∀ t, ∀ k ∈ s.weak t, s.progress k ≠ .fresh
  /-- A dependency on a pre-event is an edge, or the body of the predecessor has returned. -/
  weak_edge : ∀ t, ∀ k ∈ s.weak t, s.progress k = .returned ∨ (.pre k, .pre t) ∈ s.followers
  covered : ∀ i j, i < j → j < s.graph.next → j ∉ s.emplaced → s.Serial i j → s.Covered i j

theorem inv_initial (n : ℕ+) : Inv (State.initial n) where
  wellFormed := Graph.wellFormed_empty
  root := fun _ => rfl
  bound := fun _ => show 1 < counterSize by decide
  count := by
    rintro (t | t | t | t | x) <;> rfl
  nodup := List.nodup_nil
  known := fun t ht => absurd ht List.not_mem_nil
  settled := fun _ _ => ⟨rfl, rfl⟩
  unstarted := fun _ _ => rfl
  idle := fun _ ht => by cases ht
  yields := by simp [State.initial]
  pauses := fun _ ht => by cases ht
  made := fun n hn => absurd hn (Nat.not_lt_zero n)
  events_nodup := List.nodup_nil
  events_launched := fun t ht => absurd ht List.not_mem_nil
  polled := fun n hn => absurd hn (Nat.not_lt_zero n)
  removed_iff := by simp [State.initial]
  started := by simp [State.initial]
  stream_iff := by simp [State.initial]
  on_stream := fun n hn => absurd hn (Nat.not_lt_zero n)
  complete_mayStart := by simp [State.initial]
  weak_started := by simp [State.initial]
  weak_edge := by simp [State.initial]
  covered := fun i j _ hj => absurd hj (Nat.not_lt_zero _)

/-! ### Places -/

namespace Place

/-- The places of the loop; the others are those of a pause. -/
def isPlain : Place → Bool
  | .gather => true
  | .init => true
  | .execute _ => true
  | .poll => true
  | _ => false

variable {p : Place} {t : Nat}

theorem debt_of_pausing (h : p.pausing ≠ some t) : p.debt (.pre t) = 0 := by
  cases p with
  | count u =>
      refine if_neg ?_
      rintro ⟨⟩
      exact h rfl
  | gather | init | execute | poll | store | check | push | up => rfl

theorem debt_of_ne {e : EventPtr} (h : ∀ t, e ≠ .pre t) : p.debt e = 0 := by
  cases p with
  | count u => exact if_neg (h u)
  | gather | init | execute | poll | store | check | push | up => rfl

theorem debt_of_isPlain (h : p.isPlain = true) (e : EventPtr) : p.debt e = 0 := by
  cases p <;> first | rfl | cases h

theorem pausing_of_isPlain (h : p.isPlain = true) : p.pausing = none := by
  cases p <;> first | rfl | cases h

theorem ne_store_of_isPlain (h : p.isPlain = true) (t x : Nat) : p ≠ .store t x := by
  rintro rfl
  cases h

end Place

namespace Inv

variable {s : State} (h : Inv s)

include h

/-! ### What the counters say -/

/-- The events of a task that is in a queue count nothing but their own unit. -/
theorem calls_of_settled {t : Nat} (ht : t ∈ s.emplaced ++ s.taken ∨ s.graph.next ≤ t) :
    s.live (.pre t) = 0 ∧ s.waits (.pre t) = 0 ∧ s.todo.count (.pre t) = 0 ∧
      s.others.count (.pre t) = 0 := by
  obtain ⟨hwaiting, hone⟩ := h.settled t ht
  have hdebt : s.place.debt (.pre t) = 0 := by
    apply Place.debt_of_pausing
    intro hp
    obtain ⟨-, hpaused, hnot, -⟩ := h.pauses t hp
    rcases ht with ht | ht
    · exact hnot ht
    · rw [h.unstarted t (.inr ht)] at hpaused
      cases hpaused
  have hc := h.count (.pre t)
  have hown : s.own (.pre t) = 1 := if_pos hwaiting
  rw [State.due] at hc
  omega

theorem lt_next {t : Nat} (ht : s.progress t ≠ .fresh) : t < s.graph.next := by
  by_contra hn
  exact ht (h.unstarted t (.inr (not_lt.mp hn)))

/-- The post-event of a task is reached only after its device work is complete. -/
theorem workComplete_of_post {t : Nat} (ht : s.counter (.post t) = 0) : s.WorkComplete t := by
  have hcount := h.count (.post t)
  rw [Place.debt_of_ne (by simp), State.due] at hcount
  have hown : s.own (.post t) = 0 := by omega
  have hlive : s.live (.post t) = 0 := by omega
  constructor
  · by_contra hn
    rw [State.own, if_neg hn] at hown
    cases hown
  · intro n hn hnt
    -- the external event is reached, and so its unit is taken by `poll`
    have hext : s.counter (.external n) = 0 :=
      openEntries_eq_zero_iff.mp hlive _ (h.made n hn) (by rw [hnt])
    have hcountExt := h.count (.external n)
    rw [Place.debt_of_ne (by simp), State.due] at hcountExt
    apply h.polled n hn
    intro hmem
    have hown : s.own (.external n) = 1 := if_neg fun hc => hc.2 hmem
    omega

/-! ### Steps without an event -/

/-- A step that only takes a task from the ready queue or goes on to another place. -/
theorem requeue {p : Place} {r : List Nat} (hs : s.place.isPlain = true)
    (hp : p.isPlain = true)
    (hperm : ({ s with place := p, ready := r } : State).taken.Perm s.taken) :
    Inv { s with place := p, ready := r } where
  __ := h
  count := fun e => by
    have hc := h.count e
    rw [Place.debt_of_isPlain hs] at hc
    exact (congrArg _ (Place.debt_of_isPlain hp e)).trans hc
  nodup := ((hperm.append_left s.emplaced).nodup_iff).mpr h.nodup
  known := fun t ht => h.known t ((hperm.append_left s.emplaced).mem_iff.mp ht)
  settled := fun t ht => h.settled t (ht.imp_left (hperm.append_left s.emplaced).mem_iff.mp)
  yields := fun t => (h.yields t).trans (iff_of_false
    (fun ⟨x, hx⟩ => Place.ne_store_of_isPlain hs t x hx)
    (fun ⟨x, hx⟩ => Place.ne_store_of_isPlain hp t x hx))
  pauses := fun t ht => by
    rw [Place.pausing_of_isPlain hp] at ht
    cases ht

omit h in
theorem mem_submit_iff {calls : List BuilderCall} {t : Nat} :
    t ∈ (s.submit calls).emplaced ++ (s.submit calls).taken ↔
      t = s.graph.next ∨ t ∈ s.emplaced ++ s.taken := by
  show t ∈ s.emplaced ++ [s.graph.next] ++ s.taken ↔ _
  simp only [List.mem_append, List.mem_singleton]
  tauto

omit h in
/-- A submission does not touch the properties of the tasks before. -/
theorem serial_submit {calls : List BuilderCall} {i j : Nat} (hi : i < s.graph.next)
    (hj : j < s.graph.next) : (s.submit calls).Serial i j ↔ s.Serial i j := by
  unfold Serial
  show ((s.graph.submit none calls).info i).user.isSerial
    ((s.graph.submit none calls).info j).user = true ↔ _
  rw [Graph.submit_info, update_of_ne hi.ne, update_of_ne hj.ne]

theorem submit (calls : List BuilderCall) : Inv (s.submit calls) where
  __ := h
  wellFormed := h.wellFormed.submit (fun u hu => by cases hu) calls
  root := by
    intro t
    show ((s.graph.submit none calls).info t).space = none
    rw [Graph.submit_info, update_apply]
    split_ifs
    · rfl
    · exact h.root t
  nodup := by
    have hnew : s.graph.next ∉ s.emplaced ++ s.taken := fun hm => (h.known _ hm).false
    show (s.emplaced ++ [s.graph.next] ++ s.taken).Nodup
    rw [List.append_assoc, List.singleton_append]
    exact List.nodup_middle.mpr (List.nodup_cons.mpr ⟨hnew, h.nodup⟩)
  known := by
    intro t ht
    show t < (s.graph.submit none calls).next
    rw [Graph.submit_next]
    rcases mem_submit_iff.mp ht with rfl | ht
    · exact Nat.lt_succ_self _
    · exact (h.known t ht).trans (Nat.lt_succ_self _)
  settled := by
    intro t ht
    apply h.settled t
    rcases ht with ht | ht
    · rcases mem_submit_iff.mp ht with rfl | ht
      · exact Or.inr le_rfl
      · exact Or.inl ht
    · change (s.graph.submit none calls).next ≤ t at ht
      rw [Graph.submit_next] at ht
      exact Or.inr (Nat.le_of_succ_le ht)
  unstarted := by
    intro t ht
    apply h.unstarted t
    rcases ht with ht | ht
    · rcases List.mem_append.mp ht with ht | ht
      · exact Or.inl ht
      · exact Or.inr (List.mem_singleton.mp ht).ge
    · change (s.graph.submit none calls).next ≤ t at ht
      rw [Graph.submit_next] at ht
      exact Or.inr (Nat.le_of_succ_le ht)
  pauses := by
    intro t ht
    obtain ⟨htodo, hpaused, hnot, hcounter⟩ := h.pauses t ht
    refine ⟨htodo, hpaused, fun hm => ?_, hcounter⟩
    rcases mem_submit_iff.mp hm with rfl | hm
    · rw [h.unstarted _ (.inr le_rfl)] at hpaused
      cases hpaused
    · exact hnot hm
  covered := by
    intro i j hij hj hmem hserial
    have hmem : j ∉ s.emplaced ∧ j ≠ s.graph.next := by
      simpa [State.submit] using hmem
    change j < (s.graph.submit none calls).next at hj
    rw [Graph.submit_next] at hj
    have hj : j < s.graph.next := by omega
    have hi : i < s.graph.next := hij.trans hj
    have hold := (serial_submit hi hj).mp hserial
    rcases h.covered i j hij hj hmem.1 hold with hr | ⟨k, hik, hkj, hk, he⟩
    · exact Or.inl hr
    · refine Or.inr ⟨k, hik, hkj, ?_, he⟩
      exact hk.imp_right (serial_submit hi (hkj.trans_lt hj)).mpr

omit h in
theorem complete_finish {n k : Nat} (hk : s.complete k = true) :
    update s.complete n true k = true := by
  rw [update_apply]
  split_ifs
  · rfl
  · exact hk

/-- The device completes the work of a task. -/
theorem finish {n : Nat} (hn : s.MayStart n) :
    Inv { s with complete := update s.complete n true } where
  __ := h
  polled := fun m hm hmem => complete_finish (h.polled m hm hmem)
  complete_mayStart := by
    intro m hm
    have hmay : s.MayStart m := by
      by_cases e : m = n
      · exact e ▸ hn
      · apply h.complete_mayStart m
        exact (update_of_ne e true s.complete).symm.trans hm
    exact ⟨hmay.1, fun k hk => complete_finish (hmay.2 k hk)⟩

/-- An event on which tasks yield is reached. -/
theorem reach {x : Nat} (hx : s.outside x = .unreached) :
    Inv { s with outside := update s.outside x .reached } := by
  have hwaits : ∀ e, State.waits { s with outside := update s.outside x .reached } e =
      s.waits e := by
    intro e
    cases e with
    | pre t =>
        refine openEntries_congr fun y => ?_
        simp only [comp_apply, update_apply]
        split_ifs with hy
        · rw [hy, hx]
          rfl
        · rfl
    | post t | resultSet t | resultGet t | external t => rfl
  exact { h with
    count := by
      intro e
      have hc := h.count e
      rw [State.due, ← hwaits] at hc
      exact hc
    idle := by
      intro t ht
      rw [hwaits]
      exact h.idle t ht }

/-- Its follower list is walked: the entries become calls. -/
theorem walk {x : Nat} (hx : s.outside x = .reached) :
    Inv { s with
      outside := update s.outside x .walked
      others := ((s.waiting.filter fun d => d.1 = x).map fun d => .pre d.2) ++ s.others } := by
  obtain ⟨new, hnew⟩ : ∃ new : List EventPtr,
    new = (s.waiting.filter fun d => d.1 = x).map fun d => .pre d.2 := ⟨_, rfl⟩
  rw [← hnew]
  have hwaits : ∀ e, State.waits { s with outside := update s.outside x .walked } e +
      new.count e = s.waits e := by
    intro e
    cases e with
    | pre t =>
        have hreached : openEntries s.waiting (update (Outside.left ∘ s.outside) x 0) t +
            ((s.waiting.filter fun d => d.1 = x).map Prod.snd).count t =
              openEntries s.waiting (Outside.left ∘ s.outside) t :=
          openEntries_reached (by simp [hx, Outside.left])
        have hcount : new.count (.pre t) =
            ((s.waiting.filter fun d => d.1 = x).map Prod.snd).count t := by
          have hmap : new =
              ((s.waiting.filter fun d => d.1 = x).map Prod.snd).map EventPtr.pre := by
            rw [hnew, List.map_map]
            rfl
          rw [hmap, List.count_map_of_injective _ _ fun _ _ he => EventPtr.pre.inj he]
        show openEntries s.waiting (Outside.left ∘ update s.outside x .walked) t +
          new.count (.pre t) = openEntries s.waiting (Outside.left ∘ s.outside) t
        rw [← hreached, ← hcount, Function.comp_update]
        rfl
    | post t | resultSet t | resultGet t | external t =>
        rw [hnew, List.count_eq_zero_of_not_mem (by simp)]
        rfl
  exact { h with
    count := by
      intro e
      have hc := h.count e
      have hw := hwaits e
      rw [State.due] at hc
      show s.counter e + s.place.debt e = s.own e + s.live e +
        State.waits { s with outside := update s.outside x .walked } e + s.todo.count e +
          (new ++ s.others).count e
      rw [List.count_append]
      omega
    idle := by
      intro t ht
      obtain ⟨hlive, hzero, hothers, hone⟩ := h.idle t ht
      have hw := hwaits (.pre t)
      refine ⟨hlive, ?_, ?_, hone⟩
      · show State.waits { s with outside := update s.outside x .walked } (.pre t) = 0
        omega
      · show (new ++ s.others).count (.pre t) = 0
        rw [List.count_append]
        omega }

/-! ### Polling -/

/-- `poll` finds the oldest recorded event complete. -/
theorem poll_complete {n : Nat} {rest : List Nat} (htodo : s.todo = [])
    (hplace : s.place.isPlain = true) (hevents : s.events = n :: rest)
    (hn : s.complete n = true) :
    Inv { s with events := rest, todo := [.external n] } where
  __ := h
  count := by
    have hlaunched : n < s.launches := by
      apply h.events_launched n
      rw [hevents]
      exact List.mem_cons_self
    have hnodup := h.events_nodup
    rw [hevents, List.nodup_cons] at hnodup
    intro e
    have hc := h.count e
    show s.counter e + s.place.debt e =
      State.own { s with events := rest, todo := [.external n] } e + s.live e + s.waits e +
        [EventPtr.external n].count e + s.others.count e
    rw [State.due, htodo] at hc
    cases e with
    | external m =>
        by_cases e : m = n
        · -- the unit of the event is now that of the call
          subst e
          simp [State.own, hevents, hlaunched, hnodup.1] at hc ⊢
          omega
        · have hne : (EventPtr.external n == EventPtr.external m) = false := by simp [Ne.symm e]
          simp [State.own, hevents, e, List.count_cons, hne] at hc ⊢
          omega
    | pre u | post u | resultSet u | resultGet u => simpa [State.own, List.count_cons] using hc
  pauses := by
    intro t ht
    rw [Place.pausing_of_isPlain hplace] at ht
    cases ht
  events_nodup := (List.nodup_cons.mp (hevents ▸ h.events_nodup)).2
  events_launched := fun m hm => h.events_launched m (hevents ▸ List.mem_cons_of_mem _ hm)
  polled := by
    intro m hm hmem
    by_cases e : m = n
    · exact e ▸ hn
    · apply h.polled m hm
      rw [hevents]
      exact fun hc => (List.mem_cons.mp hc).elim e hmem

/-! ### Notifying -/

/-- The `fetch_sub` of a call of `notify` that is due. -/
theorem down {e : EventPtr} (hpos : s.counter e ≠ 0) :
    s.down e = { s with counter := update s.counter e (s.counter e - 1) } := by
  have hb := h.bound e
  have hval : (s.counter e + (counterSize - 1)) % counterSize = s.counter e - 1 := by
    have hpos : s.counter e + (counterSize - 1) = (s.counter e - 1) + counterSize := by omega
    rw [hpos, Nat.add_mod_right, Nat.mod_eq_of_lt (by omega)]
  rw [← hval]
  rfl

omit h in
theorem counter_reached {e x : EventPtr} (hx : s.counter x = 0) :
    update s.counter e (s.counter e - 1) x = 0 := by
  rw [update_apply]
  split_ifs with he
  · rw [← he, hx]
  · exact hx

/-- What a call of `notify` keeps, whether or not the event is ready or reached now: the calls and
the counters still add up, and `removed'` says which post-events are reached. -/
theorem notified {e : EventPtr} {todo' others' : List EventPtr} {removed' : Nat → Bool}
    (hpos : s.counter e ≠ 0)
    (hcalls : ∀ x, openEntries s.followers (update s.counter e (s.counter e - 1)) x +
      todo'.count x + others'.count x + (if x = e then 1 else 0) =
        s.live x + s.todo.count x + s.others.count x)
    (hothers : ∀ t, (s.progress t).isWaiting = false → others'.count (.pre t) = 0)
    (hpauses : ∀ t, s.place.pausing = some t → todo' = [] ∧ e ≠ .pre t)
    (hremoved : ∀ t, removed' t = true ↔ update s.counter e (s.counter e - 1) (.post t) = 0) :
    Inv { s with
      counter := update s.counter e (s.counter e - 1)
      todo := todo'
      others := others'
      removed := removed' } where
  __ := h
  bound := by
    intro x
    have hb := h.bound x
    show update s.counter e (s.counter e - 1) x < counterSize
    rw [update_apply]
    split_ifs with hx
    · subst hx
      omega
    · exact hb
  count := by
    intro x
    have hc := h.count x
    have hl := hcalls x
    rw [State.due] at hc
    show update s.counter e (s.counter e - 1) x + s.place.debt x = s.own x +
      openEntries s.followers (update s.counter e (s.counter e - 1)) x + s.waits x +
        todo'.count x + others'.count x
    rw [update_apply]
    split_ifs at hl ⊢ with hx
    · subst hx
      omega
    · omega
  settled := by
    intro t ht
    obtain ⟨hwaiting, hone⟩ := h.settled t ht
    refine ⟨hwaiting, ?_⟩
    -- nothing is to be called but for another event
    have hne : EventPtr.pre t ≠ e := by
      intro he
      have hl := hcalls (.pre t)
      have hc := h.calls_of_settled ht
      rw [if_pos he] at hl
      omega
    exact (update_of_ne hne _ _).trans hone
  idle := by
    intro t ht
    obtain ⟨hlive, hwaits, -, hone⟩ := h.idle t ht
    refine ⟨?_, hwaits, hothers t ht, ?_⟩
    · apply openEntries_eq_zero_iff.mpr
      intro d hd hdst
      exact counter_reached (openEntries_eq_zero_iff.mp hlive d hd hdst)
    · show update s.counter e (s.counter e - 1) (.pre t) ≤ 1
      rw [update_apply]
      split_ifs with he
      · rw [← he]
        omega
      · exact hone
  pauses := by
    intro t ht
    obtain ⟨-, hpaused, hnot, hcounter⟩ := h.pauses t ht
    obtain ⟨htodo, hne⟩ := hpauses t ht
    refine ⟨htodo, hpaused, hnot, ?_⟩
    have hsame : update s.counter e (s.counter e - 1) (.pre t) = s.counter (.pre t) :=
      update_of_ne (Ne.symm hne) _ _
    exact hcounter.imp hsame.trans fun hu => ⟨hu.1, hsame.trans hu.2⟩
  removed_iff := hremoved
  covered := by
    intro i j hij hj hmem hserial
    rcases h.covered i j hij hj hmem hserial with hr | hk
    · exact Or.inl ((hremoved i).mpr (counter_reached ((h.removed_iff i).mp hr)))
    · exact Or.inr hk

/-- `activate_task` of a task that waited. -/
theorem activate {t : Nat} (hnew : t ∉ s.emplaced ++ s.taken) (hlt : t < s.graph.next)
    (hwaiting : (s.progress t).isWaiting = true) (hone : s.counter (.pre t) = 1)
    (hpauses : s.place.pausing ≠ some t) :
    Inv { s with ready := s.ready ++ [t] } := by
  have htaken : ({ s with ready := s.ready ++ [t] } : State).taken = s.taken ++ [t] := by
    unfold State.taken
    cases s.place <;> rfl
  have hmem : ∀ u, u ∈ s.emplaced ++ ({ s with ready := s.ready ++ [t] } : State).taken ↔
      u ∈ s.emplaced ++ s.taken ∨ u = t := by
    intro u
    rw [htaken, ← List.append_assoc, List.mem_append, List.mem_singleton]
  exact { h with
    nodup := by
      show (s.emplaced ++ ({ s with ready := s.ready ++ [t] } : State).taken).Nodup
      rw [htaken, ← List.append_assoc]
      exact List.nodup_append_comm.mp (List.nodup_cons.mpr ⟨hnew, h.nodup⟩)
    known := by
      intro u hu
      rcases (hmem u).mp hu with hu | rfl
      · exact h.known u hu
      · exact hlt
    settled := by
      rintro u (hu | hu)
      · rcases (hmem u).mp hu with hu | rfl
        · exact h.settled u (Or.inl hu)
        · exact ⟨hwaiting, hone⟩
      · exact h.settled u (Or.inr hu)
    pauses := by
      intro u hu
      obtain ⟨htodo, hpaused, hnot, hcounter⟩ := h.pauses u hu
      refine ⟨htodo, hpaused, fun hm => ?_, hcounter⟩
      rcases (hmem u).mp hm with hm | rfl
      · exact hnot hm
      · exact hpauses hu }

/-- The followers of an event that is not reached have open entries. -/
theorem count_cascade {e : EventPtr} {t : Nat} (hpos : s.counter e ≠ 0)
    (ht : (s.progress t).isWaiting = false) : (s.cascade e).count (.pre t) = 0 := by
  rw [List.count_eq_zero]
  intro hmem
  unfold State.cascade at hmem
  split_ifs at hmem
  · obtain ⟨d, hd, hdt⟩ := List.mem_map.mp hmem
    obtain ⟨hd, hde⟩ := List.mem_filter.mp hd
    have hzero := openEntries_eq_zero_iff.mp (h.idle t ht).1 d hd hdt
    rw [of_decide_eq_true hde] at hzero
    exact hpos hzero
  · exact absurd hmem List.not_mem_nil

/-- One call of `notify`; the calls that follow from it are in the list `τ` of the worker or in
the list `ω` of the others. -/
theorem notify {e : EventPtr} {τ ω : List EventPtr} (hpos : s.counter e ≠ 0)
    (hcalls : ∀ x, τ.count x + ω.count x + (if x = e then 1 else 0) =
      s.todo.count x + s.others.count x + (s.cascade e).count x)
    (hothers : ∀ t, (s.progress t).isWaiting = false → ω.count (.pre t) = 0)
    (hpauses : ∀ t, s.place.pausing = some t → τ = [] ∧ e ≠ .pre t) :
    Inv { s.notify e with todo := τ, others := ω } := by
  have hdown := h.down hpos
  have hval : update s.counter e (s.counter e - 1) e = s.counter e - 1 := update_self _ _ _
  have hcascade : s.cascade e = if s.counter e - 1 = 0 then s.followersOf e else [] := by
    unfold State.cascade
    simp only [hdown, hval]
  -- an event that is not reached by the call
  have hwaits : s.counter e - 1 ≠ 0 → Inv { s with
      counter := update s.counter e (s.counter e - 1), todo := τ, others := ω } := by
    intro hne
    have hiff : ∀ x, s.counter x = 0 ↔ update s.counter e (s.counter e - 1) x = 0 := by
      intro x
      rw [update_apply]
      split_ifs with hx
      · subst hx
        exact iff_of_false hpos hne
      · rfl
    refine h.notified hpos (fun x => ?_) hothers hpauses
      (fun t => (h.removed_iff t).trans (hiff _))
    have hc := hcalls x
    have hlive : s.live x =
        openEntries s.followers (update s.counter e (s.counter e - 1)) x := openEntries_congr hiff
    rw [hcascade, if_neg hne, List.count_nil] at hc
    omega
  unfold State.notify
  simp only [hdown, hval]
  split_ifs with hone hzero
  · have hw := hwaits (by omega)
    cases e with
    | pre t =>
        have htwo : s.counter (.pre t) = 2 := by omega
        refine hw.activate ?_ ?_ ?_ (hval.trans hone) (fun hp => (hpauses t hp).2 rfl)
        · intro hm
          have := (h.settled t (Or.inl hm)).2
          omega
        · by_contra hn
          have := (h.settled t (Or.inr (not_lt.mp hn))).2
          omega
        · by_contra hn
          have := (h.idle t (Bool.not_eq_true _ ▸ hn)).2.2.2
          omega
    | post t | resultSet t | resultGet t | external t => exact hw
  · have hremoved : ∀ t, (s.delete e).removed t = true ↔
        update s.counter e (s.counter e - 1) (.post t) = 0 := by
      intro t
      rw [hzero, update_apply]
      cases e with
      | post u =>
          by_cases htu : t = u
          · simp [State.delete, htu]
          · simp [State.delete, htu, h.removed_iff]
      | pre u | resultSet u | resultGet u | external u => simp [State.delete, h.removed_iff]
    have hinv := h.notified hpos (fun x => ?_) hothers hpauses hremoved
    · cases e with
      | pre t | post t | resultSet t | resultGet t | external t => exact hinv
    · have hc := hcalls x
      have hreached : openEntries s.followers (update s.counter e 0) x +
          (s.followersOf e).count x = s.live x := openEntries_reached hpos
      rw [hcascade, if_pos hzero] at hc
      rw [hzero]
      omega
  · exact hwaits hzero

/-- The worker makes a call of `notify`. -/
theorem notify_todo {e : EventPtr} {rest : List EventPtr} (htodo : s.todo = e :: rest) :
    Inv { s.notify e with todo := s.cascade e ++ rest } := by
  have hpausing : ∀ t, s.place.pausing ≠ some t := by
    intro t ht
    rw [(h.pauses t ht).1] at htodo
    cases htodo
  have hpos : s.counter e ≠ 0 := by
    have hc := h.count e
    rw [State.due, htodo, List.count_cons_self] at hc
    have hdebt : s.place.debt e = 0 := by
      cases e with
      | pre t => exact Place.debt_of_pausing (hpausing t)
      | post t | resultSet t | resultGet t | external t => exact Place.debt_of_ne (by simp)
    omega
  have hothers : (s.notify e).others = s.others := by
    unfold State.notify
    cases e <;> (dsimp only; split_ifs <;> rfl)
  have hinv := h.notify (e := e) (τ := s.cascade e ++ rest) (ω := s.others) hpos
    (fun x => ?_) (fun t ht => (h.idle t ht).2.2.1) (fun t ht => absurd ht (hpausing t))
  · rw [← hothers] at hinv
    exact hinv
  · rw [htodo, List.count_append, List.count_cons]
    by_cases hx : x = e
    · simp [hx]
      omega
    · have hne : (e == x) = false := by simpa using Ne.symm hx
      simp [hx, hne]
      omega

/-- Another thread makes one. -/
theorem notify_other {e : EventPtr} {k : Nat} (hk : s.others[k]? = some e)
    (hup : ¬ s.place.IsBeforeUp e) :
    Inv { s.notify e with others := s.cascade e ++ s.others.eraseIdx k } := by
  have hperm : s.others.Perm (e :: s.others.eraseIdx k) := by
    obtain ⟨hlt, rfl⟩ := List.getElem?_eq_some_iff.mp hk
    exact (List.getElem_cons_eraseIdx_perm hlt).symm
  have hmem : 0 < s.others.count e := by
    rw [hperm.count_eq, List.count_cons_self]
    exact Nat.succ_pos _
  have hdebt : s.place.debt e = 0 := by
    cases hp : s.place with
    | count t =>
        rw [hp] at hup
        exact if_neg hup
    | gather | init | execute | poll | store | check | push | up => rfl
  have hc := h.count e
  rw [hdebt, State.due] at hc
  have htodo : (s.notify e).todo = s.todo := by
    unfold State.notify
    cases e <;> (dsimp only; split_ifs <;> rfl)
  have hinv := h.notify (e := e) (τ := s.todo)
    (ω := s.cascade e ++ s.others.eraseIdx k) (by omega) (fun x => ?_) (fun t ht => ?_)
    (fun t ht => ?_)
  · rw [← htodo] at hinv
    exact hinv
  · rw [hperm.count_eq, List.count_append, List.count_cons]
    by_cases hx : x = e
    · simp [hx]
      omega
    · have hne : (e == x) = false := by simpa using Ne.symm hx
      simp [hx, hne]
      omega
  · have hzero := (h.idle t ht).2.2.1
    rw [hperm.count_eq, List.count_cons] at hzero
    rw [List.count_append, h.count_cascade (by omega) ht]
    omega
  · -- until `up` its counter has room for nothing but the unit of the event
    obtain ⟨htodo, hpaused, -, hcounter⟩ := h.pauses t ht
    refine ⟨htodo, ?_⟩
    rintro rfl
    have hown : s.own (.pre t) = 1 := by simp [State.own, hpaused, Progress.isWaiting]
    rcases hcounter with hone | ⟨hup', -⟩
    · omega
    · rw [hup'] at hup
      exact hup rfl

end Inv

end RedGrapes.Cuda
