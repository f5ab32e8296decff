/-
RedGrapes/Cuda/Initialise.lean

What a step of the CUDA worker does (`Worked`), and the invariant when it initialises a task.

`init_dependencies` adds an entry for each predecessor whose event is not reached, and one unit
to the counter of the pre-event for each (`Depends`).  Every earlier serial task is among the
predecessors, or a later one that synchronizes with it (`Inv.exists_predecessor`).
-/
import RedGrapes.Cuda.Invariant

namespace RedGrapes.Cuda

open Function RedGrapes.Runtime Machine State

/-! ### One step of the worker -/

/-- What a step of the worker does. -/
inductive Worked (s : State) (pick : Nat) (again : Bool) (event : Option Nat) : State → Prop
  | notify {e : EventPtr} {rest : List EventPtr} (htodo : s.todo = e :: rest) :
      Worked s pick again event { s.notify e with todo := s.cascade e ++ rest }
  | take {t : Nat} (htodo : s.todo = []) (hplace : s.place = .gather)
      (hpick : s.ready[pick]? = some t) :
      Worked s pick again event { s with ready := s.ready.eraseIdx pick, place := .execute t }
  | noneReady (htodo : s.todo = []) (hplace : s.place = .gather)
      (hpick : s.ready[pick]? = none) : Worked s pick again event { s with place := .init }
  | init {t : Nat} (htodo : s.todo = []) (hplace : s.place = .init)
      (hpick : s.emplaced[pick]? = some t) :
      Worked s pick again event
        ({ s with emplaced := s.emplaced.eraseIdx pick }.initDependencies t)
  | noneEmplaced (htodo : s.todo = []) (hplace : s.place = .init)
      (hpick : s.emplaced[pick]? = none) : Worked s pick again event { s with place := .poll }
  | execute {t : Nat} (htodo : s.todo = []) (hplace : s.place = .execute t) :
      Worked s pick again event (s.executeTask t again event)
  | polled {n : Nat} {rest : List Nat} (htodo : s.todo = []) (hplace : s.place = .poll)
      (hevents : s.events = n :: rest) (hn : s.complete n = true) :
      Worked s pick again event
        { s with events := rest, todo := [.external n], place := .gather }
  | unpolled (htodo : s.todo = []) (hplace : s.place = .poll)
      (hno : ∀ n rest, s.events = n :: rest → s.complete n = false) :
      Worked s pick again event { s with place := .gather }
  | store {t x : Nat} (htodo : s.todo = []) (hplace : s.place = .store t x) :
      Worked s pick again event { s with
        counter := update s.counter (.pre t) 1
        progress := update s.progress t .paused
        place := .check t x }
  | check {t x : Nat} (htodo : s.todo = []) (hplace : s.place = .check t x)
      (hx : s.outside x = .unreached) : Worked s pick again event { s with place := .push t x }
  | checkReached {t x : Nat} (htodo : s.todo = []) (hplace : s.place = .check t x)
      (hx : s.outside x ≠ .unreached) : Worked s pick again event { s with place := .up t }
  | push {t x : Nat} (htodo : s.todo = []) (hplace : s.place = .push t x) :
      Worked s pick again event { s with waiting := (x, t) :: s.waiting, place := .count t }
  | count {t : Nat} (htodo : s.todo = []) (hplace : s.place = .count t) :
      Worked s pick again event { s.up (.pre t) with place := .up t }
  | up {t : Nat} (htodo : s.todo = []) (hplace : s.place = .up t) :
      Worked s pick again event { s.up (.pre t) with todo := [.pre t], place := .poll }

theorem State.worked (s : State) (pick : Nat) (again : Bool) (event : Option Nat) :
    Worked s pick again event (s.work pick again event) := by
  obtain ⟨s', hs'⟩ : ∃ s', s' = s.work pick again event := ⟨_, rfl⟩
  rw [← hs']
  cases htodo : s.todo with
  | cons e rest =>
      simp only [State.work, htodo] at hs'
      exact hs' ▸ .notify htodo
  | nil =>
      -- the record that a branch gives back, written with the fields of `s`
      have heq : ∀ x, s.work pick again event = x → s' = x := fun x hx => hs'.trans hx
      cases hplace : s.place with
      | gather =>
          cases hpick : s.ready[pick]? with
          | none =>
              rw [heq { s with place := .init } (by simp only [State.work, htodo, hplace, hpick])]
              exact .noneReady htodo hplace hpick
          | some t =>
              rw [heq { s with ready := s.ready.eraseIdx pick, place := .execute t }
                (by simp only [State.work, htodo, hplace, hpick])]
              exact .take htodo hplace hpick
      | init =>
          cases hpick : s.emplaced[pick]? with
          | none =>
              rw [heq { s with place := .poll } (by simp only [State.work, htodo, hplace, hpick])]
              exact .noneEmplaced htodo hplace hpick
          | some t =>
              rw [heq ({ s with emplaced := s.emplaced.eraseIdx pick }.initDependencies t)
                (by simp only [State.work, htodo, hplace, hpick])]
              exact .init htodo hplace hpick
      | execute t =>
          rw [heq (s.executeTask t again event) (by simp only [State.work, htodo, hplace])]
          exact .execute htodo hplace
      | poll =>
          by_cases hfront : ∃ n rest, s.events = n :: rest ∧ s.complete n = true
          · obtain ⟨n, rest, hevents, hn⟩ := hfront
            rw [heq { s with events := rest, todo := [.external n], place := .gather }
              (by simp only [State.work, State.poll, htodo, hplace, hevents, hn, if_true])]
            exact .polled htodo hplace hevents hn
          · have hno : ∀ n rest, s.events = n :: rest → s.complete n = false := fun n rest he =>
              Bool.eq_false_iff.mpr fun hn => hfront ⟨n, rest, he, hn⟩
            have hpoll : s.work pick again event = { s with place := .gather } := by
              cases hevents : s.events with
              | nil => simp only [State.work, State.poll, htodo, hplace, hevents]
              | cons n rest =>
                  simp only [State.work, State.poll, htodo, hplace, hevents, hno n rest hevents,
                    Bool.false_eq_true, if_false]
            rw [heq _ hpoll]
            exact .unpolled htodo hplace hno
      | store t x =>
          rw [heq { s with
            counter := update s.counter (.pre t) 1
            progress := update s.progress t .paused
            place := .check t x } (by simp only [State.work, htodo, hplace])]
          exact .store htodo hplace
      | check t x =>
          by_cases hx : s.outside x = .unreached
          · rw [heq { s with place := .push t x }
              (by simp only [State.work, htodo, hplace, hx, if_true])]
            exact .check htodo hplace hx
          · rw [heq { s with place := .up t }
              (by simp only [State.work, htodo, hplace, hx, if_false])]
            exact .checkReached htodo hplace hx
      | push t x =>
          rw [heq { s with waiting := (x, t) :: s.waiting, place := .count t }
            (by simp only [State.work, htodo, hplace])]
          exact .push htodo hplace
      | count t =>
          rw [heq { s.up (.pre t) with place := .up t }
            (by simp only [State.work, State.up, htodo, hplace])]
          exact .count htodo hplace
      | up t =>
          rw [heq { s.up (.pre t) with todo := [.pre t], place := .poll }
            (by simp only [State.work, State.up, htodo, hplace])]
          exact .up htodo hplace

/-! ### Initialising -/

/-- What `init_graph` of `t` does when it depends on the tasks `ps`: the events `new` get an
entry for the pre-event of `t`, and for the tasks `wk` the dependency is on the pre-event. -/
structure Depends (t : Nat) (s : State) (ps : List Nat) (new : List EventPtr) (wk : List Nat)
    (s' : State) : Prop where
  eq : s' = { s with
    followers := new.map (fun y => (y, .pre t)) ++ s.followers
    counter := update s.counter (.pre t) (s.counter (.pre t) + new.length)
    weak := update s.weak t (wk ++ s.weak t) }
  length : new.length = ps.countP fun p => s.counter (s.precedingEvent p) ≠ 0
  opened : ∀ y ∈ new, y ≠ .pre t ∧ s.counter y ≠ 0
  source : ∀ y ∈ new, ∃ p ∈ ps, y = s.precedingEvent p
  weak : ∀ k ∈ wk, (s.streamIdx k).isSome = true ∧ (.pre k ∈ new ∨ s.counter (.pre k) = 0)
  found : ∀ p ∈ ps, .post p ∈ new ∨ p ∈ wk ∨ s.counter (.post p) = 0

/-- A task that has no stream index is no predecessor by its pre-event. -/
theorem precedingEvent_ne {s : State} {t : Nat} (hidx : s.streamIdx t = none) (p : Nat) :
    s.precedingEvent p ≠ .pre t := by
  unfold precedingEvent taskDependencyType
  split_ifs with hp
  · rintro ⟨⟩
    rw [hidx] at hp
    cases hp
  · simp

namespace Depends

variable {t : Nat} {s s₁ s₂ : State} {ps ps' wk wk' : List Nat} {new new' : List EventPtr}

theorem nil : Depends t s [] [] [] s where
  eq := by simp
  length := rfl
  opened := by simp
  source := by simp
  weak := by simp
  found := by simp

theorem trans (hidx : s.streamIdx t = none) (h : Depends t s ps new wk s₁)
    (h' : Depends t s₁ ps' new' wk' s₂) :
    Depends t s (ps ++ ps') (new' ++ new) (wk' ++ wk) s₂ := by
  obtain ⟨rfl, hlen, hopen, hsource, hweak, hfound⟩ := h
  obtain ⟨rfl, hlen', hopen', hsource', hweak', hfound'⟩ := h'
  -- only the counter of the pre-event of `t` has changed in between
  have hother : ∀ y, y ≠ .pre t →
      update s.counter (.pre t) (s.counter (.pre t) + new.length) y = s.counter y :=
    fun y hy => update_of_ne hy _ _
  have hself : ∀ k, (s.streamIdx k).isSome = true → EventPtr.pre k ≠ .pre t := by
    rintro k hk ⟨⟩
    rw [hidx] at hk
    cases hk
  constructor
  · simp [add_comm new'.length, add_assoc]
  · rw [List.length_append, List.countP_append, hlen, hlen', Nat.add_comm]
    congr 1
    refine List.countP_congr fun p _ => ?_
    have hp := hother (s.precedingEvent p) (precedingEvent_ne hidx p)
    exact iff_of_eq (congrArg (fun n : Nat => decide (n ≠ 0) = true) hp)
  · intro y hy
    rcases List.mem_append.mp hy with hy | hy
    · obtain ⟨hne, hpos⟩ := hopen' y hy
      exact ⟨hne, fun hc => hpos ((hother y hne).trans hc)⟩
    · exact hopen y hy
  · intro y hy
    rcases List.mem_append.mp hy with hy | hy
    · obtain ⟨p, hp, he⟩ := hsource' y hy
      exact ⟨p, List.mem_append_right _ hp, he⟩
    · obtain ⟨p, hp, he⟩ := hsource y hy
      exact ⟨p, List.mem_append_left _ hp, he⟩
  · intro k hk
    rcases List.mem_append.mp hk with hk | hk
    · obtain ⟨hsome, hedge⟩ := hweak' k hk
      refine ⟨hsome, hedge.imp (List.mem_append_left _) fun hc => ?_⟩
      exact (hother _ (hself k hsome)).symm.trans hc
    · obtain ⟨hsome, hedge⟩ := hweak k hk
      exact ⟨hsome, hedge.imp_left (List.mem_append_right _)⟩
  · intro p hp
    simp only [List.mem_append] at hp ⊢
    rcases hp with hp | hp
    · rcases hfound p hp with hf | hf | hf
      · exact Or.inl (Or.inr hf)
      · exact Or.inr (Or.inl (Or.inr hf))
      · exact Or.inr (Or.inr hf)
    · rcases hfound' p hp with hf | hf | hf
      · exact Or.inl (Or.inl hf)
      · exact Or.inr (Or.inl (Or.inl hf))
      · exact Or.inr (Or.inr ((hother _ (by simp)).symm.trans hf))

/-- `add_dependency`. -/
theorem single (hidx : s.streamIdx t = none) {p : Nat}
    (hroom : s.counter (s.precedingEvent p) ≠ 0 → s.counter (.pre t) + 1 < counterSize) :
    ∃ new wk, Depends t s [p] new wk (addDependency t s p) := by
  have hne := precedingEvent_ne hidx p
  obtain ⟨wk, hwk⟩ : ∃ wk : List Nat, wk = if s.taskDependencyType p then [p] else [] := ⟨_, rfl⟩
  have hweak : (if s.taskDependencyType p then update s.weak t (p :: s.weak t) else s.weak) =
      update s.weak t (wk ++ s.weak t) := by
    rw [hwk]
    split_ifs <;> simp
  have hkind : p ∈ wk ∧ s.precedingEvent p = .pre p ∧ (s.streamIdx p).isSome = true ∨
      wk = [] ∧ s.precedingEvent p = .post p := by
    rw [hwk]
    unfold precedingEvent taskDependencyType
    split_ifs with hp
    · exact .inl ⟨List.mem_singleton_self p, rfl, hp⟩
    · exact .inr ⟨rfl, rfl⟩
  have hmem : ∀ k ∈ wk, k = p := by
    intro k hk
    rw [hwk] at hk
    split_ifs at hk
    · exact List.mem_singleton.mp hk
    · exact absurd hk List.not_mem_nil
  unfold addDependency addFollower
  rw [hweak]
  split_ifs with he
  · -- the event is reached, there is no edge
    refine ⟨[], wk, by simp, by simp [he], by simp, by simp, fun k hk => ?_, fun q hq => ?_⟩
    · obtain rfl := hmem k hk
      rcases hkind with ⟨-, hpre, hsome⟩ | ⟨hnil, -⟩
      · exact ⟨hsome, .inr (hpre ▸ he)⟩
      · rw [hnil] at hk
        exact absurd hk List.not_mem_nil
    · obtain rfl := List.mem_singleton.mp hq
      rcases hkind with ⟨hin, -⟩ | ⟨-, hpost⟩
      · exact .inr (.inl hin)
      · exact .inr (.inr (hpost ▸ he))
  · refine ⟨[s.precedingEvent p], wk, ?_, by simp [he], ?_, by simp, fun k hk => ?_,
      fun q hq => ?_⟩
    · simp [up, Nat.mod_eq_of_lt (hroom he)]
    · intro y hy
      obtain rfl := List.mem_singleton.mp hy
      exact ⟨hne, he⟩
    · obtain rfl := hmem k hk
      rcases hkind with ⟨-, hpre, hsome⟩ | ⟨hnil, -⟩
      · exact ⟨hsome, .inl (hpre ▸ List.mem_singleton_self _)⟩
      · rw [hnil] at hk
        exact absurd hk List.not_mem_nil
    · obtain rfl := List.mem_singleton.mp hq
      rcases hkind with ⟨hin, -⟩ | ⟨-, hpost⟩
      · exact .inr (.inl hin)
      · exact .inl (hpost ▸ List.mem_singleton_self _)

theorem foldl (hidx : s.streamIdx t = none) (ps : List Nat)
    (hroom : s.counter (.pre t) + ps.countP (fun p => s.counter (s.precedingEvent p) ≠ 0) <
      counterSize) :
    ∃ new wk, Depends t s ps new wk (ps.foldl (addDependency t) s) := by
  induction ps generalizing s with
  | nil => exact ⟨[], [], nil⟩
  | cons p ps ih =>
      have hroom₁ : s.counter (s.precedingEvent p) ≠ 0 →
          s.counter (.pre t) + 1 < counterSize := by
        intro hp
        rw [List.countP_cons_of_pos (by simpa using hp)] at hroom
        omega
      obtain ⟨new, wk, h⟩ := single hidx hroom₁
      have hidx' : (addDependency t s p).streamIdx t = none := by
        rw [h.eq]
        exact hidx
      have hcount : ps.countP (fun q => (addDependency t s p).counter
          ((addDependency t s p).precedingEvent q) ≠ 0) =
            ps.countP fun q => s.counter (s.precedingEvent q) ≠ 0 := by
        rw [h.eq]
        refine List.countP_congr fun q _ => ?_
        exact iff_of_eq (congrArg (fun n : Nat => decide (n ≠ 0) = true)
          (update_of_ne (precedingEvent_ne hidx q) _ _))
      have hself : (addDependency t s p).counter (.pre t) = s.counter (.pre t) + new.length := by
        rw [h.eq]
        exact update_self _ _ _
      have hroom' : (addDependency t s p).counter (.pre t) + ps.countP (fun q =>
          (addDependency t s p).counter ((addDependency t s p).precedingEvent q) ≠ 0) <
            counterSize := by
        have hsplit : (p :: ps).countP (fun q => s.counter (s.precedingEvent q) ≠ 0) =
            new.length + ps.countP fun q => s.counter (s.precedingEvent q) ≠ 0 := by
          rw [h.length]
          have happend : ([p] ++ ps).countP (fun q => s.counter (s.precedingEvent q) ≠ 0) = _ :=
            List.countP_append
          exact happend
        rw [hsplit] at hroom
        rw [hcount, hself]
        omega
      obtain ⟨new', wk', h'⟩ := ih hidx' hroom'
      exact ⟨new' ++ new, wk' ++ wk, trans hidx h h'⟩

end Depends

namespace Inv

variable {s : State} (h : Inv s)

include h

/-- `init_graph` of `t` finds every earlier serial task whose entries are not removed, or a
later one that synchronizes with it. -/
theorem exists_predecessor {i t : Nat} (hit : i < t) (ht : t < s.graph.next)
    (hserial : s.Serial i t) : s.removed i = true ∨ ∃ p ∈ s.predecessors t,
      i ≤ p ∧ p ≤ t ∧ (p = i ∨ s.Serial i p) ∧ s.removed p = false := by
  by_cases hr : s.removed i = true
  · exact Or.inl hr
  right
  obtain ⟨r, hconf⟩ := ResourceUser.isSerial_iff.mp hserial
  obtain ⟨k, hk, hi⟩ := h.wellFormed.exists_entry_of_conflictOn hit ht hconf
  have hmem : i ∈ ((s.graph.users r).take k).reverse.filter fun p => !s.removed p := by
    simp only [List.mem_filter, List.mem_reverse]
    exact ⟨hi, by simpa using hr⟩
  -- whatever the scan finds has an entry before that of `t`, and this is not removed
  have hscan : ∀ p ∈ scan s.graph.info t r
      (((s.graph.users r).take k).reverse.filter fun p => !s.removed p),
      p ∈ s.predecessors t ∧ p ≤ t ∧ s.removed p = false := by
    intro p hp
    refine ⟨List.mem_flatMap.mpr ⟨(r, k), (h.wellFormed.mem_entries t r k).mpr hk, hp⟩, ?_⟩
    have hp := List.mem_filter.mp (Graph.mem_of_mem_scan hp).1
    exact ⟨h.wellFormed.le_of_mem_take hk (List.mem_reverse.mp hp.1), by simpa using hp.2⟩
  rcases h.wellFormed.mem_scan_of_sublist List.filter_sublist hmem
      ((h.root i).trans (h.root t).symm) hserial with hfound | ⟨p, hp, hip, hsync⟩
  · obtain ⟨hpred, hle, hnot⟩ := hscan i hfound
    exact ⟨i, hpred, le_rfl, hle, Or.inl rfl, hnot⟩
  · obtain ⟨hpred, hle, hnot⟩ := hscan p hp
    exact ⟨p, hpred, hip, hle, Or.inr (hconf.absorb hsync).1.isSerial, hnot⟩

/-- A task is fresh as long as its body has not run. -/
theorem streamIdx_of_fresh {t : Nat} (ht : s.progress t = .fresh) : s.streamIdx t = none := by
  by_contra hn
  exact (h.stream_iff t).mp (Option.isSome_iff_ne_none.mpr hn) ht

/-- The pre-event of a task whose body has run is reached when the worker is in its loop and the
task is not paused. -/
theorem returned_of_reached {k : Nat} (hplace : s.place.isPlain = true)
    (hk : s.progress k ≠ .fresh) (hpre : s.counter (.pre k) = 0) : s.progress k = .returned := by
  have hc := h.count (.pre k)
  rw [hpre, Place.debt_of_isPlain hplace, State.due] at hc
  have hown : s.own (.pre k) = 0 := by omega
  cases hp : s.progress k with
  | fresh => exact absurd hp hk
  | yielded =>
      obtain ⟨x, hx⟩ := (h.yields k).mp hp
      exact absurd hx (Place.ne_store_of_isPlain hplace k x)
  | paused => simp [State.own, hp, Progress.isWaiting] at hown
  | returned => rfl

section Initialised

variable {t : Nat} {em : List Nat} {p : Place} {new : List EventPtr} {wk : List Nat}

/-- The counter that is raised was not zero. -/
theorem reached_initialised (ht : t ∈ s.emplaced) (x : EventPtr) :
    s.counter x = 0 ↔ update s.counter (.pre t) (1 + new.length) x = 0 := by
  have hone := (h.settled t (.inl (List.mem_append_left _ ht))).2
  rw [update_apply]
  split_ifs with hx
  · rw [hx, hone]
    omega
  · rfl

/-- The new entries all lead to the pre-event of `t`. -/
theorem live_initialised (ht : t ∈ s.emplaced) (hopen : ∀ y ∈ new, s.counter y ≠ 0)
    (x : EventPtr) : openEntries (new.map (fun y => (y, .pre t)) ++ s.followers)
      (update s.counter (.pre t) (1 + new.length)) x =
        (if EventPtr.pre t = x then new.length else 0) + s.live x := by
  rw [openEntries_append, openEntries_map, ← openEntries_congr (h.reached_initialised ht)]
  · rfl
  · intro y hy hc
    exact hopen y hy ((h.reached_initialised ht y).mpr hc)

/-- A dependency on the pre-event of `k` is an edge, or the body of `k` has returned. -/
theorem weak_edge_initialised (hs : s.place.isPlain = true)
    (hwk : ∀ k ∈ wk, (s.streamIdx k).isSome = true ∧ (.pre k ∈ new ∨ s.counter (.pre k) = 0))
    {u k : Nat} (hk : k ∈ update s.weak t (wk ++ s.weak t) u) :
    s.progress k = .returned ∨
      (.pre k, .pre u) ∈ new.map (fun y => (y, EventPtr.pre t)) ++ s.followers := by
  have hold : k ∈ s.weak u → s.progress k = .returned ∨
      (.pre k, .pre u) ∈ new.map (fun y => (y, EventPtr.pre t)) ++ s.followers :=
    fun hk => (h.weak_edge u k hk).imp_right (List.mem_append_right _)
  rw [update_apply] at hk
  split_ifs at hk with hut
  · rcases List.mem_append.mp hk with hk | hk
    · obtain ⟨hsome, hedge | hreached⟩ := hwk k hk
      · right
        exact List.mem_append_left _ (List.mem_map.mpr ⟨_, hedge, by rw [hut]⟩)
      · exact .inl (h.returned_of_reached hs ((h.stream_iff k).mp hsome) hreached)
    · exact hold (hut ▸ hk)
  · exact hold hk

/-- `t` depends on its serial predecessors now, and the other tasks as before. -/
theorem covered_initialised (hem : ∀ u ∈ s.emplaced, u ∈ em ∨ u = t)
    (hfound : ∀ q ∈ s.predecessors t, .post q ∈ new ∨ q ∈ wk ∨ s.counter (.post q) = 0)
    {i j : Nat} (hij : i < j) (hj : j < s.graph.next) (hjem : j ∉ em) (hserial : s.Serial i j) :
    s.removed i = true ∨ ∃ k, i ≤ k ∧ k ≤ j ∧ (k = i ∨ s.Serial i k) ∧
      ((.post k, .pre j) ∈ new.map (fun y => (y, EventPtr.pre t)) ++ s.followers ∨
        k ∈ update s.weak t (wk ++ s.weak t) j) := by
  by_cases hjt : j = t
  · subst hjt
    rcases h.exists_predecessor hij hj hserial with hr | ⟨q, hq, hiq, hqj, hqi, hnot⟩
    · exact Or.inl hr
    · refine Or.inr ⟨q, hiq, hqj, hqi, ?_⟩
      rcases hfound q hq with hf | hf | hf
      · exact Or.inl (List.mem_append_left _ (List.mem_map.mpr ⟨_, hf, rfl⟩))
      · right
        rw [update_self]
        exact List.mem_append_left _ hf
      · rw [(h.removed_iff q).mpr hf] at hnot
        cases hnot
  · have hjold : j ∉ s.emplaced := fun hc => (hem j hc).elim hjem hjt
    rcases h.covered i j hij hj hjold hserial with hr | ⟨k, hik, hkj, hk, he⟩
    · exact Or.inl hr
    · refine Or.inr ⟨k, hik, hkj, hk, ?_⟩
      rcases he with he | he
      · exact Or.inl (List.mem_append_right _ he)
      · right
        rwa [update_of_ne hjt]

/-- What the initialisation of `t` keeps; `em` and `p` are the emplacement queue and the place
of the worker after it. -/
theorem initialised (hs : s.place.isPlain = true) (hp : p.isPlain = true)
    (ht : t ∈ s.emplaced) (hem : ∀ u ∈ s.emplaced, u ∈ em ∨ u = t)
    (hsub : ∀ u ∈ em, u ∈ s.emplaced)
    (hnodup : (em ++ ({ s with place := p } : State).taken).Nodup)
    (hmem : ∀ u ∈ em ++ ({ s with place := p } : State).taken,
      u ∈ s.emplaced ++ s.taken ∧ (u = t → new = []))
    (hroom : 1 + new.length < counterSize)
    (hopen : ∀ y ∈ new, y ≠ .pre t ∧ s.counter y ≠ 0)
    (hwk : ∀ k ∈ wk, (s.streamIdx k).isSome = true ∧ (.pre k ∈ new ∨ s.counter (.pre k) = 0))
    (hfound : ∀ q ∈ s.predecessors t, .post q ∈ new ∨ q ∈ wk ∨ s.counter (.post q) = 0) :
    Inv { s with
      emplaced := em
      place := p
      followers := new.map (fun y => (y, .pre t)) ++ s.followers
      counter := update s.counter (.pre t) (1 + new.length)
      weak := update s.weak t (wk ++ s.weak t) } := by
  obtain ⟨hwaiting, hone⟩ := h.settled t (Or.inl (List.mem_append_left _ ht))
  have hlive := h.live_initialised ht fun y hy => (hopen y hy).2
  have hreached : ∀ x, s.counter x = 0 ↔
      update s.counter (.pre t) (1 + new.length) x = 0 := h.reached_initialised ht
  exact { h with
    bound := by
      intro x
      have hb := h.bound x
      show update s.counter (.pre t) (1 + new.length) x < counterSize
      rw [update_apply]
      split_ifs
      · exact hroom
      · exact hb
    count := by
      intro x
      have hc := h.count x
      rw [Place.debt_of_isPlain hs, State.due] at hc
      show update s.counter (.pre t) (1 + new.length) x + p.debt x = s.own x +
        openEntries _ _ x + s.waits x + s.todo.count x + s.others.count x
      rw [hlive, update_apply, Place.debt_of_isPlain hp]
      by_cases hx : x = .pre t
      · rw [hx, hone] at hc
        rw [hx, if_pos rfl, if_pos rfl]
        omega
      · rw [if_neg hx, if_neg (Ne.symm hx)]
        omega
    nodup := hnodup
    known := fun u hu => h.known u (hmem u hu).1
    settled := by
      intro u hu
      have hold : (s.progress u).isWaiting = true ∧ s.counter (.pre u) = 1 := by
        apply h.settled u
        exact hu.imp_left fun hu => (hmem u hu).1
      refine ⟨hold.1, ?_⟩
      show update s.counter (.pre t) (1 + new.length) (.pre u) = 1
      by_cases hut : u = t
      · have hnew : new = [] := by
          rcases hu with hu | hu
          · exact (hmem u hu).2 hut
          · exact absurd (h.known t (List.mem_append_left _ ht)) (not_lt.mpr (hut ▸ hu))
        rw [hut, hnew, update_self]
        rfl
      · rw [update_of_ne (by simpa using hut)]
        exact hold.2
    unstarted := fun u hu => h.unstarted u (hu.imp_left (hsub u))
    idle := by
      intro u hu
      have hne : EventPtr.pre t ≠ .pre u := by
        rintro ⟨⟩
        rw [hwaiting] at hu
        cases hu
      obtain ⟨hzero, hwaits, hothers, hle⟩ := h.idle u hu
      refine ⟨?_, hwaits, hothers, ?_⟩
      · refine (hlive (.pre u)).trans ?_
        rw [if_neg hne, hzero]
      · exact (update_of_ne (Ne.symm hne) _ s.counter).trans_le hle
    yields := fun u => (h.yields u).trans (iff_of_false
      (fun ⟨x, hx⟩ => Place.ne_store_of_isPlain hs u x hx)
      (fun ⟨x, hx⟩ => Place.ne_store_of_isPlain hp u x hx))
    pauses := fun u hu => by
      rw [Place.pausing_of_isPlain hp] at hu
      cases hu
    made := fun n hn => List.mem_append_right _ (h.made n hn)
    removed_iff := fun u => (h.removed_iff u).trans (hreached (.post u))
    weak_started := by
      intro u k hk
      change k ∈ update s.weak t (wk ++ s.weak t) u at hk
      rw [update_apply] at hk
      split_ifs at hk
      · rcases List.mem_append.mp hk with hk | hk
        · exact (h.stream_iff k).mp (hwk k hk).1
        · exact h.weak_started t k hk
      · exact h.weak_started u k hk
    weak_edge := fun u k => h.weak_edge_initialised hs hwk
    covered := fun i j => h.covered_initialised hem hfound }

end Initialised

omit h in
/-- The counter after the `up` of `init_dependencies`, `n` new entries and the `notify`. -/
theorem counter_init (n : Nat) (hn : 2 + n < counterSize) :
    (2 + n + (counterSize - 1)) % counterSize = 1 + n := by
  have hsplit : 2 + n + (counterSize - 1) = (1 + n) + counterSize := by omega
  rw [hsplit, Nat.add_mod_right, Nat.mod_eq_of_lt (by omega)]

/-- What `init_dependencies` of `t` does: an entry for each predecessor whose event is not
reached.  The task is executed at once if there is none. -/
theorem initDependencies_eq {t : Nat} (em : List Nat) (ht : t ∈ s.emplaced)
    (hroom : 2 + s.edgesNext t < counterSize) :
    ∃ new wk, new.length = s.edgesNext t ∧ (∀ y ∈ new, y ≠ .pre t ∧ s.counter y ≠ 0) ∧
      (∀ y ∈ new, ∃ p ∈ s.predecessors t, y = s.precedingEvent p) ∧
      (∀ k ∈ wk, (s.streamIdx k).isSome = true ∧ (.pre k ∈ new ∨ s.counter (.pre k) = 0)) ∧
      (∀ q ∈ s.predecessors t, .post q ∈ new ∨ q ∈ wk ∨ s.counter (.post q) = 0) ∧
      { s with emplaced := em }.initDependencies t = { s with
        emplaced := em
        place := if new = [] then .execute t else s.place
        followers := new.map (fun y => (y, .pre t)) ++ s.followers
        counter := update s.counter (.pre t) (1 + new.length)
        weak := update s.weak t (wk ++ s.weak t) } := by
  obtain ⟨-, hone⟩ := h.settled t (Or.inl (List.mem_append_left _ ht))
  have hidx := h.streamIdx_of_fresh (h.unstarted t (.inl ht))
  have htwo : (s.counter (.pre t) + 1) % counterSize = 2 := by
    rw [hone]
    rfl
  obtain ⟨s₁, hs₁⟩ : ∃ s₁, s₁ = { s with emplaced := em }.up (.pre t) := ⟨_, rfl⟩
  have hcounter : s₁.counter (.pre t) = 2 := by
    rw [hs₁]
    exact (update_self _ _ _).trans htwo
  have hpred : s₁.predecessors t = s.predecessors t := by
    rw [hs₁]
    rfl
  have hother : ∀ y, y ≠ .pre t → s₁.counter y = s.counter y := by
    intro y hy
    rw [hs₁]
    exact update_of_ne hy _ _
  have hevent : ∀ p, s₁.precedingEvent p = s.precedingEvent p := by
    intro p
    rw [hs₁]
    rfl
  have hedges : (s.predecessors t).countP (fun p => s₁.counter (s₁.precedingEvent p) ≠ 0) =
      s.edgesNext t := by
    refine List.countP_congr fun p _ => ?_
    have hsame := hother (s.precedingEvent p) (precedingEvent_ne hidx p)
    rw [hevent]
    exact iff_of_eq (congrArg (fun n : Nat => decide (n ≠ 0) = true) hsame)
  have hidx₁ : s₁.streamIdx = s.streamIdx := by rw [hs₁]; rfl
  obtain ⟨new, wk, heq, hlen, hopen, hsource, hwk, hfound⟩ := Depends.foldl (t := t) (s := s₁)
    (by rw [hidx₁]; exact hidx) (s.predecessors t) (by rw [hcounter, hedges]; exact hroom)
  rw [hedges] at hlen
  have hself : ∀ k, (s.streamIdx k).isSome = true → EventPtr.pre k ≠ .pre t := by
    rintro k hk ⟨⟩
    rw [hidx] at hk
    cases hk
  have hfinal : (s₁.initGraph t).down (.pre t) = { s with
      emplaced := em
      followers := new.map (fun y => (y, .pre t)) ++ s.followers
      counter := update s.counter (.pre t) (1 + new.length)
      weak := update s.weak t (wk ++ s.weak t) } := by
    have hval := counter_init new.length (by omega)
    unfold State.initGraph
    rw [hpred, heq]
    simp only [State.down, update_self, hcounter, hval, update_idem]
    rw [hs₁]
    simp only [State.up, update_idem]
  refine ⟨new, wk, hlen, fun y hy => ?_, fun y hy => ?_, fun k hk => ?_, fun q hq => ?_, ?_⟩
  · obtain ⟨hne, hpos⟩ := hopen y hy
    exact ⟨hne, hother y hne ▸ hpos⟩
  · obtain ⟨p, hp, he⟩ := hsource y hy
    exact ⟨p, hp, he.trans (hevent p)⟩
  · rw [hidx₁] at hwk
    obtain ⟨hsome, hedge⟩ := hwk k hk
    exact ⟨hsome, hedge.imp_right fun hc => (hother _ (hself k hsome)).symm.trans hc⟩
  · exact (hfound q hq).imp_right (Or.imp_right fun hc => (hother _ (by simp)).symm.trans hc)
  · unfold State.initDependencies
    rw [← hs₁]
    simp only [hfinal, update_self]
    by_cases hnil : new = []
    · have hready : 1 + new.length = 1 := by simp [hnil]
      rw [if_pos hready, if_pos hnil]
    · have hpos := List.length_pos_of_ne_nil hnil
      rw [if_neg (by omega), if_neg (by omega), if_neg hnil]

/-- `init_dependencies`. -/
theorem initDependencies {t pick : Nat} (hplace : s.place = .init)
    (ht : s.emplaced[pick]? = some t) (hroom : 2 + s.edgesNext t < counterSize) :
    Inv ({ s with emplaced := s.emplaced.eraseIdx pick }.initDependencies t) := by
  have htmem : t ∈ s.emplaced := List.mem_of_getElem? ht
  have hs : s.place.isPlain = true := by
    rw [hplace]
    rfl
  have hperm : s.emplaced.Perm (t :: s.emplaced.eraseIdx pick) := by
    obtain ⟨hlt, rfl⟩ := List.getElem?_eq_some_iff.mp ht
    exact (List.getElem_cons_eraseIdx_perm hlt).symm
  obtain ⟨new, wk, hlen, hopen, -, hwk, hfound, heq⟩ :=
    h.initDependencies_eq (s.emplaced.eraseIdx pick) htmem hroom
  have hq : (t :: (s.emplaced.eraseIdx pick ++ s.ready)).Perm (s.emplaced ++ s.taken) := by
    have htaken : s.taken = s.ready := by
      unfold State.taken
      rw [hplace]
    rw [htaken]
    exact (hperm.append_right s.ready).symm
  have hnodup := hq.nodup_iff.mpr h.nodup
  have hem : ∀ u ∈ s.emplaced, u ∈ s.emplaced.eraseIdx pick ∨ u = t :=
    fun u hu => (List.mem_cons.mp (hperm.mem_iff.mp hu)).symm
  have hsub : ∀ u ∈ s.emplaced.eraseIdx pick, u ∈ s.emplaced :=
    fun _ hu => List.mem_of_mem_eraseIdx hu
  rw [heq]
  -- the queues after the step, by whether `t` is ready
  split_ifs with hnil
  · refine h.initialised hs rfl htmem hem hsub ?_ (fun u hu => ?_) (by omega) hopen hwk hfound
    · exact List.nodup_middle.mpr hnodup
    · exact ⟨hq.mem_iff.mp (List.perm_middle.mem_iff.mp hu), fun _ => hnil⟩
  · have htaken : ({ s with place := s.place } : State).taken = s.ready := by
      unfold State.taken
      rw [hplace]
    refine h.initialised hs hs htmem hem hsub ?_ (fun u hu => ?_) (by omega) hopen hwk hfound
    · rw [htaken]
      exact (List.nodup_cons.mp hnodup).2
    · rw [htaken] at hu
      refine ⟨hq.mem_iff.mp (List.mem_cons_of_mem _ hu), ?_⟩
      rintro rfl
      exact absurd hu (List.nodup_cons.mp hnodup).1

end Inv

end RedGrapes.Cuda
