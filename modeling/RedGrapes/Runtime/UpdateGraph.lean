/-
RedGrapes/Runtime/UpdateGraph.lean

`GraphProperty::update_graph` (`task/property/graph.tpp`) and
`RedGrapes::update_properties` (`redGrapes.tpp`): after a running task has
changed its accesses, the edges of its post-event to tasks that are no longer
serial with it are taken out of the graph.

The loop runs over the follower list of the post-event while `erase` marks
entries of the same list as removed, and `notify` decrements a counter, which
may set off a cascade through the graph.  The cascade never comes back to the
task space it started from (`Layered.notify_state`), so the effect on the
followers of the task can be read off its list alone (`Updated`):

* `update_graph_conserves_iff` — every follower loses exactly its removed edges
  if and only if no follower that is dropped occurs twice;
* `update_properties_keeps_parent_iff` — the edge to the parent survives if and
  only if the patch leaves a conflict with the parent.
-/
import RedGrapes.Patch
import RedGrapes.Runtime.Model

namespace RedGrapes.Runtime

open Function

/-! ### The event graph -/

namespace EventPtr

/-- The field `task`.  `creator x` is the task that made the external event
`x`. -/
def task (creator : Nat → Nat) : EventPtr → Nat
  | pre t => t
  | post t => t
  | resultSet t => t
  | resultGet t => t
  | external x => creator x

/-- `operator==` compares the tag and the task. -/
def eq (creator : Nat → Nat) : EventPtr → EventPtr → Bool
  | pre t, pre t' => t == t'
  | post t, post t' => t == t'
  | resultSet t, resultSet t' => t == t'
  | resultGet t, resultGet t' => t == t'
  | external x, external y => creator x == creator y
  | _, _ => false

variable {creator : Nat → Nat}

@[simp] theorem eq_self (e : EventPtr) : e.eq creator e = true := by
  cases e <;> simp [eq]

@[simp] theorem eq_pre_iff {e : EventPtr} {q : Nat} : e.eq creator (pre q) = true ↔ e = pre q := by
  cases e <;> simp [eq]

@[simp] theorem eq_post_iff {e : EventPtr} {q : Nat} :
    e.eq creator (post q) = true ↔ e = post q := by
  cases e <;> simp [eq]

end EventPtr

/-- An entry of a follower list; `erase` leaves a tombstone. -/
structure FollowerEntry where
  event : EventPtr
  removed : Bool
deriving DecidableEq

/-- The part of the state that `update_graph` works on. -/
structure Net where
  user : Nat → ResourceUser
  creator : Nat → Nat
  /-- `TaskSpace::depth` and `TaskSpace::parent` of the space of a task. -/
  depth : Nat → Nat
  parent : Nat → Option Nat
  /-- `Event::state`. -/
  state : EventPtr → Nat
  /-- `Event::followers` in push order. -/
  followers : EventPtr → List FollowerEntry
  /-- The tasks that were passed to `activate_task`. -/
  activated : List Nat

namespace Net

/-- `state.fetch_sub(1)`. -/
def decrement (n : Net) (e : EventPtr) : Net :=
  { n with state := update n.state e ((n.state e + counterSize - 1) % counterSize) }

/-- A pre-event whose counter is one is ready. -/
def activate (n : Net) : EventPtr → Net
  | .pre t => { n with activated := n.activated ++ [t] }
  | _ => n

/-- The entries an iteration over the follower list visits. -/
def live (n : Net) (e : EventPtr) : List EventPtr :=
  ((n.followers e).filter fun x => !x.removed).reverse.map FollowerEntry.event

/-- `EventPtr::notify` with `notify_followers`.  The recursion goes along the
edges of the graph; `fuel` bounds its depth. -/
def notify : Nat → EventPtr → Net → Net
  | 0, _, n => n
  | fuel + 1, e, n =>
      let n := n.decrement e
      let n := if n.state e = 1 then n.activate e else n
      if n.state e = 0 then (n.live e).foldl (fun n f => notify fuel f n) n else n

/-- `remove_follower`: `ChunkedList::erase` on the follower list of `e`. -/
def removeFollower (n : Net) (e f : EventPtr) : Net :=
  { n with followers := update n.followers e ((n.followers e).map fun x =>
      if x.event.eq n.creator f then { x with removed := true } else x) }

/-- One round of the loop of `update_graph`, with the iterator at index `k`. -/
def updateEntry (fuel p : Nat) (n : Net) (k : Nat) : Net :=
  match (n.followers (.post p))[k]? with
  | some ⟨f, false⟩ =>
      if (n.user p).isSerial (n.user (f.task n.creator)) then n
      else notify (fuel + 1) f (n.removeFollower (.post p) f)
  | _ => n

/-- `update_graph`, newest follower first. -/
def updateGraph (fuel p : Nat) (n : Net) : Net :=
  (List.range (n.followers (.post p)).length).reverse.foldl (updateEntry fuel p) n

/-- `update_properties` in the running task `p`: the graph is updated unless
`apply_patch` throws. -/
def updateProperties (fuel p : Nat) (patch : Patch) (n : Net) : Net × Option String :=
  let (u, error) := (n.user p).applyPatch patch
  let n := { n with user := update n.user p u }
  if error.isSome then (n, error) else (n.updateGraph fuel p, none)

/-- The number of entries for `f` in the follower list of `e`. -/
def count (n : Net) (e f : EventPtr) : Nat :=
  (n.followers e).countP fun x => !x.removed && x.event == f

/-! ### What `notify` changes -/

section Notify

variable {n : Net} {e f : EventPtr} {fuel : Nat}

/-- The fields `notify` never writes. -/
structure SameGraph (n n' : Net) : Prop where
  user : n'.user = n.user
  creator : n'.creator = n.creator
  depth : n'.depth = n.depth
  parent : n'.parent = n.parent
  followers : n'.followers = n.followers

theorem SameGraph.trans {n n' n'' : Net} (h : SameGraph n n') (h' : SameGraph n' n'') :
    SameGraph n n'' where
  user := h'.user.trans h.user
  creator := h'.creator.trans h.creator
  depth := h'.depth.trans h.depth
  parent := h'.parent.trans h.parent
  followers := h'.followers.trans h.followers

theorem sameGraph_decrement (n : Net) (e : EventPtr) : SameGraph n (n.decrement e) :=
  ⟨rfl, rfl, rfl, rfl, rfl⟩

theorem sameGraph_activate (n : Net) (e : EventPtr) : SameGraph n (n.activate e) := by
  cases e <;> exact ⟨rfl, rfl, rfl, rfl, rfl⟩

@[simp] theorem activate_state (n : Net) (e : EventPtr) : (n.activate e).state = n.state := by
  cases e <;> rfl

/-- The state after the counter of `e` was decremented and `e` was activated if
it is ready. -/
def tick (n : Net) (e : EventPtr) : Net :=
  if (n.decrement e).state e = 1 then (n.decrement e).activate e else n.decrement e

theorem notify_succ :
    notify (fuel + 1) e n = if (n.tick e).state e = 0 then
      ((n.tick e).live e).foldl (fun n f => notify fuel f n) (n.tick e) else n.tick e := rfl

theorem tick_state : (n.tick e).state = (n.decrement e).state := by
  unfold tick
  split
  · exact activate_state _ _
  · rfl

theorem sameGraph_tick (n : Net) (e : EventPtr) : SameGraph n (n.tick e) := by
  unfold tick
  split
  · exact (sameGraph_decrement n e).trans (sameGraph_activate _ e)
  · exact sameGraph_decrement n e

theorem decrement_state_of_pos (h : 0 < n.state e) (hlt : n.state e < counterSize) :
    (n.decrement e).state = update n.state e (n.state e - 1) := by
  show update n.state e ((n.state e + counterSize - 1) % counterSize) = _
  have hmod : (n.state e + counterSize - 1) % counterSize = n.state e - 1 := by
    rw [show n.state e + counterSize - 1 = n.state e - 1 + counterSize by omega,
      Nat.add_mod_right, Nat.mod_eq_of_lt (by omega)]
  rw [hmod]

/-- An event that is not reached by the decrement passes nothing on. -/
theorem notify_state_of_two_le (h : 2 ≤ n.state e) (hlt : n.state e < counterSize) :
    (notify (fuel + 1) e n).state = update n.state e (n.state e - 1) := by
  have hstate : (n.tick e).state = update n.state e (n.state e - 1) := by
    rw [tick_state, decrement_state_of_pos (by omega) hlt]
  have hne : ¬ (n.tick e).state e = 0 := by
    rw [hstate, update_self]
    omega
  rw [notify_succ, if_neg hne, hstate]

theorem sameGraph_notify (fuel : Nat) (n : Net) (e : EventPtr) : SameGraph n (notify fuel e n) := by
  induction fuel generalizing n e with
  | zero => exact ⟨rfl, rfl, rfl, rfl, rfl⟩
  | succ fuel ih =>
      have hfold : ∀ (fs : List EventPtr) (n : Net),
          SameGraph n (fs.foldl (fun n f => notify fuel f n) n) := by
        intro fs
        induction fs with
        | nil => exact fun n => ⟨rfl, rfl, rfl, rfl, rfl⟩
        | cons f fs ihf => exact fun n => (ih n f).trans (ihf _)
      rw [notify_succ]
      split
      · exact (sameGraph_tick n e).trans (hfold _ _)
      · exact sameGraph_tick n e

/-- Pre- and post-events of tasks in a space above depth `d`. -/
def Above (n : Net) (d : Nat) (e : EventPtr) : Prop :=
  ∃ t, (e = .pre t ∨ e = .post t) ∧ n.depth t < d

/-- Followers are in the same space as the event, or above it: `init_graph`
compares the spaces, and `submit` adds the edge to the parent. -/
def Layered (n : Net) : Prop :=
  ∀ t, (∀ f ∈ n.live (.pre t), n.Above (n.depth t + 1) f) ∧
    ∀ f ∈ n.live (.post t), n.Above (n.depth t + 1) f

theorem SameGraph.live {n n' : Net} (h : SameGraph n n') : n'.live = n.live := by
  funext e
  rw [Net.live, Net.live, h.followers]

theorem SameGraph.above {n n' : Net} (h : SameGraph n n') : n'.Above = n.Above := by
  funext d e
  rw [Above, Above, h.depth]

theorem SameGraph.layered {n n' : Net} (h : SameGraph n n') (hl : n.Layered) : n'.Layered := by
  unfold Layered
  rw [h.live, h.above, h.depth]
  exact hl

theorem Layered.above_of_live (hl : n.Layered) {d : Nat} (he : n.Above d e)
    (hf : f ∈ n.live e) : n.Above d f := by
  obtain ⟨t, ht, hd⟩ := he
  have hf' : n.Above (n.depth t + 1) f := by
    rcases ht with rfl | rfl
    · exact (hl t).1 f hf
    · exact (hl t).2 f hf
  obtain ⟨t', ht', hd'⟩ := hf'
  exact ⟨t', ht', by omega⟩

/-- The cascade that starts at an event above depth `d` stays above it. -/
theorem Layered.notify_state (hl : n.Layered) {d : Nat} (he : n.Above d e)
    (hf : ¬ n.Above d f) : (notify fuel e n).state f = n.state f := by
  induction fuel generalizing n e with
  | zero => rfl
  | succ fuel ih =>
      have htick : (n.tick e).state f = n.state f := by
        rw [tick_state]
        refine update_of_ne ?_ _ _
        rintro rfl
        exact hf he
      have hfold : ∀ (fs : List EventPtr) (m : Net), SameGraph n m →
          (∀ g ∈ fs, n.Above d g) →
            (fs.foldl (fun n f => notify fuel f n) m).state f = m.state f := by
        intro fs
        induction fs with
        | nil =>
            intro m _ _
            rfl
        | cons g fs ihf =>
            intro m hm hfs
            have hstep : (notify fuel g m).state f = m.state f :=
              ih (hm.layered hl) (hm.above ▸ hfs g (by simp)) (hm.above ▸ hf)
            rw [List.foldl_cons, ihf _ (hm.trans (sameGraph_notify fuel m g))
              fun g' hg' => hfs g' (List.mem_cons_of_mem _ hg'), hstep]
      rw [notify_succ]
      split
      · rw [hfold _ _ (sameGraph_tick n e), htick]
        intro g hg
        rw [(sameGraph_tick n e).live] at hg
        exact hl.above_of_live he hg
      · exact htick

end Notify

/-! ### The loop of `update_graph` -/

/-- The graph around a running task `p`: the followers of its post-event are
pre-events of the same space and the post-event of the parent, and the counter
of a pre-event exceeds the number of its entries by its own unit. -/
structure Running (n : Net) (p : Nat) : Prop where
  layered : n.Layered
  above : ∀ q, n.parent p = some q → n.depth q < n.depth p
  listed : ∀ f ∈ n.live (.post p),
    (∃ q, f = .pre q ∧ n.depth q = n.depth p) ∨ ∃ q, f = .post q ∧ n.parent p = some q
  counted : ∀ q, 0 < n.count (.post p) (.pre q) →
    n.count (.post p) (.pre q) < n.state (.pre q)
  bounded : ∀ e, n.state e < counterSize

/-- `is_serial(*task, *follower.task)`. -/
def serial (n : Net) (p : Nat) (f : EventPtr) : Bool :=
  (n.user p).isSerial (n.user (f.task n.creator))

/-- `f` is met by the loop at one of the indices `done` and is not serial with
`p`. -/
def Dropped (n : Net) (p : Nat) (done : List Nat) (f : EventPtr) : Prop :=
  n.serial p f = false ∧ ∃ k ∈ done, (n.followers (.post p))[k]? = some ⟨f, false⟩

open Classical in
/-- What the loop has done after the rounds for the indices `done`. -/
structure Updated (n : Net) (p : Nat) (done : List Nat) (n' : Net) : Prop where
  user : n'.user = n.user
  creator : n'.creator = n.creator
  depth : n'.depth = n.depth
  parent : n'.parent = n.parent
  list : n'.followers (.post p) = (n.followers (.post p)).map fun x =>
    ⟨x.event, x.removed || decide (n.Dropped p done x.event)⟩
  others : ∀ e, e ≠ .post p → n'.followers e = n.followers e
  pre : ∀ q, n.depth q = n.depth p → n'.state (.pre q) =
    if n.Dropped p done (.pre q) then n.state (.pre q) - 1 else n.state (.pre q)
  post : ∀ q, n.parent p = some q → ¬ n.Dropped p done (.post q) →
    n'.state (.post q) = n.state (.post q)

section Loop

variable {n n' : Net} {p k fuel : Nat} {done : List Nat} {e f g : EventPtr}

theorem mem_live : f ∈ n.live g ↔ ⟨f, false⟩ ∈ n.followers g := by
  simp only [live, List.mem_map, List.mem_reverse, List.mem_filter]
  constructor
  · rintro ⟨⟨f', b⟩, ⟨hx, hb⟩, rfl⟩
    obtain rfl : b = false := by simpa using hb
    exact hx
  · intro h
    exact ⟨_, ⟨h, rfl⟩, rfl⟩

theorem count_pos_iff : 0 < n.count g f ↔ f ∈ n.live g := by
  rw [mem_live, count, List.countP_pos_iff]
  constructor
  · rintro ⟨⟨f', b⟩, hx, h⟩
    obtain ⟨hb, hf⟩ : b = false ∧ f' = f := by simpa using h
    rw [← hf, ← hb]
    exact hx
  · intro h
    exact ⟨_, h, by simp⟩

theorem Dropped.live (h : n.Dropped p done f) : f ∈ n.live (.post p) := by
  obtain ⟨-, k, -, hk⟩ := h
  exact mem_live.mpr (List.mem_of_getElem? hk)

theorem dropped_concat : n.Dropped p (done ++ [k]) f ↔
    n.Dropped p done f ∨
      n.serial p f = false ∧ (n.followers (.post p))[k]? = some ⟨f, false⟩ := by
  unfold Dropped
  simp only [List.mem_append, List.mem_singleton]
  constructor
  · rintro ⟨hs, j, hj | rfl, hx⟩
    · exact .inl ⟨hs, j, hj, hx⟩
    · exact .inr ⟨hs, hx⟩
  · rintro (⟨hs, j, hj, hx⟩ | ⟨hs, hx⟩)
    · exact ⟨hs, j, .inl hj, hx⟩
    · exact ⟨hs, k, .inr rfl, hx⟩

/-- A round that drops nothing new changes nothing. -/
theorem Updated.skip (h : n.Updated p done n')
    (hsame : ∀ f, n.Dropped p (done ++ [k]) f ↔ n.Dropped p done f) :
    n.Updated p (done ++ [k]) n' := by
  have e : n.Dropped p (done ++ [k]) = n.Dropped p done := funext fun f => propext (hsame f)
  exact ⟨h.user, h.creator, h.depth, h.parent, e ▸ h.list, h.others, e ▸ h.pre, e ▸ h.post⟩

theorem Updated.live_subset (h : n.Updated p done n') (hf : f ∈ n'.live g) : f ∈ n.live g := by
  rw [mem_live] at hf ⊢
  rcases eq_or_ne g (.post p) with rfl | hg
  · rw [h.list, List.mem_map] at hf
    obtain ⟨⟨f', b⟩, hx, hfx⟩ := hf
    obtain ⟨rfl, rfl, -⟩ : f' = f ∧ b = false ∧ _ := by simpa using hfx
    exact hx
  · rwa [h.others g hg] at hf

theorem layered_of_live_subset (hl : n.Layered) (hd : n'.depth = n.depth)
    (hsub : ∀ g f, f ∈ n'.live g → f ∈ n.live g) : n'.Layered := by
  have habove : n'.Above = n.Above := by
    funext d e
    rw [Above, Above, hd]
  intro t
  rw [habove, hd]
  exact ⟨fun f hf => (hl t).1 f (hsub _ _ hf), fun f hf => (hl t).2 f (hsub _ _ hf)⟩

theorem removeFollower_live_subset (hf : f ∈ (n.removeFollower (.post p) g).live e) :
    f ∈ n.live e := by
  rw [mem_live] at hf ⊢
  rcases eq_or_ne e (.post p) with rfl | he
  · simp only [removeFollower, update_self, List.mem_map] at hf
    obtain ⟨x, hx, hfx⟩ := hf
    split at hfx
    · simp at hfx
    · exact hfx ▸ hx
  · simpa only [removeFollower, update_of_ne he] using hf

/-- The followers of the post-event are compared by identity. -/
theorem Running.eq_iff (hr : n.Running p) (hf : f ∈ n.live (.post p)) {creator : Nat → Nat} :
    g.eq creator f = true ↔ g = f := by
  rcases hr.listed f hf with ⟨q, rfl, -⟩ | ⟨q, rfl, -⟩
  · exact EventPtr.eq_pre_iff
  · exact EventPtr.eq_post_iff

/-- A round that drops `f`: the counters of the space of `p` other than that of
`f` keep their value, whether or not the decrement sets off a cascade. -/
theorem Updated.drop (h : n.Updated p done n') (hr : n.Running p)
    (hk : (n.followers (.post p))[k]? = some ⟨f, false⟩) (hs : n.serial p f = false)
    (hnew : ¬ n.Dropped p done f) :
    n.Updated p (done ++ [k]) (notify (fuel + 1) f (n'.removeFollower (.post p) f)) := by
  have hlive : f ∈ n.live (.post p) := mem_live.mpr (List.mem_of_getElem? hk)
  have hdrop : ∀ g, n.Dropped p (done ++ [k]) g ↔ n.Dropped p done g ∨ g = f := by
    intro g
    rw [dropped_concat, hk]
    constructor
    · rintro (hg | ⟨-, hg⟩)
      · exact .inl hg
      · obtain ⟨rfl⟩ : f = g := by simpa using hg
        exact .inr rfl
    · rintro (hg | rfl)
      · exact .inl hg
      · exact .inr ⟨hs, rfl⟩
  have hg := sameGraph_notify (fuel + 1) (n'.removeFollower (.post p) f) f
  have hlay : (n'.removeFollower (.post p) f).Layered :=
    layered_of_live_subset hr.layered h.depth fun _ _ hx =>
      h.live_subset (removeFollower_live_subset hx)
  have hstate : (n'.removeFollower (.post p) f).state = n'.state := rfl
  refine ⟨hg.user.trans h.user, hg.creator.trans h.creator, hg.depth.trans h.depth,
    hg.parent.trans h.parent, ?_, ?_, ?_, ?_⟩
  · rw [hg.followers]
    simp only [removeFollower, update_self, h.list, List.map_map]
    refine List.map_congr_left fun x _ => ?_
    rw [comp_apply, propext (hdrop x.event)]
    simp only [hr.eq_iff hlive]
    split <;> rename_i hx
    · simp [hx]
    · have hold : (n.Dropped p done x.event ∨ x.event = f) = n.Dropped p done x.event := by
        simp [hx]
      rw [hold]
  · intro e he
    rw [hg.followers, ← h.others e he]
    exact update_of_ne he _ _
  · intro q hq
    rcases hr.listed f hlive with ⟨q', rfl, hq'⟩ | ⟨q', rfl, hq'⟩
    · -- the decremented counter keeps the task's own unit, so the event is not reached
      have hold : n'.state (.pre q') = n.state (.pre q') := by
        rw [h.pre q' hq', if_neg hnew]
      have htwo : 2 ≤ n'.state (.pre q') := by
        have hpos := count_pos_iff.mpr hlive
        have := hr.counted q' hpos
        omega
      rw [notify_state_of_two_le (by rw [hstate]; exact htwo)
        (by rw [hstate, hold]; exact hr.bounded _), hstate]
      rcases eq_or_ne q q' with rfl | hne
      · rw [update_self, hold, if_pos ((hdrop _).mpr (.inr rfl))]
      · have hiff : n.Dropped p (done ++ [k]) (.pre q) ↔ n.Dropped p done (.pre q) := by
          rw [hdrop]
          simp [hne]
        rw [update_of_ne (by simpa using hne), h.pre q hq]
        rw [propext hiff]
    · have hab : (n'.removeFollower (.post p) (.post q')).Above (n.depth p) (.post q') := by
        refine ⟨q', .inr rfl, ?_⟩
        show n'.depth q' < n.depth p
        rw [h.depth]
        exact hr.above q' hq'
      have hnab : ¬ (n'.removeFollower (.post p) (.post q')).Above (n.depth p) (.pre q) := by
        rintro ⟨t, ht, hd⟩
        obtain rfl : q = t := by simpa using ht
        have hd' : n'.depth q < n.depth p := hd
        rw [h.depth, hq] at hd'
        exact lt_irrefl _ hd'
      have hiff : n.Dropped p (done ++ [k]) (.pre q) ↔ n.Dropped p done (.pre q) := by
        rw [hdrop]
        simp
      rw [hlay.notify_state hab hnab, hstate, h.pre q hq]
      rw [propext hiff]
  · intro q hq hnd
    rw [hdrop, not_or] at hnd
    rcases hr.listed f hlive with ⟨q', rfl, hq'⟩ | ⟨q', rfl, hq'⟩
    · have hold : n'.state (.pre q') = n.state (.pre q') := by
        rw [h.pre q' hq', if_neg hnew]
      have htwo : 2 ≤ n'.state (.pre q') := by
        have hpos := count_pos_iff.mpr hlive
        have := hr.counted q' hpos
        omega
      rw [notify_state_of_two_le (by rw [hstate]; exact htwo)
        (by rw [hstate, hold]; exact hr.bounded _), hstate, update_of_ne (by simp)]
      exact h.post q hq hnd.1
    · -- the parent is unique, so its edge would be the dropped one
      obtain rfl : q = q' := Option.some.inj (hq.symm.trans hq')
      exact absurd rfl hnd.2

theorem Updated.updateEntry (h : n.Updated p done n') (hr : n.Running p) :
    n.Updated p (done ++ [k]) (updateEntry fuel p n' k) := by
  have hserial : ∀ f, (n'.user p).isSerial (n'.user (f.task n'.creator)) = n.serial p f := by
    intro f
    rw [h.user, h.creator]
    rfl
  have hentry : (n'.followers (.post p))[k]? = ((n.followers (.post p))[k]?).map fun x =>
      ⟨x.event, x.removed || @decide (n.Dropped p done x.event) (Classical.propDecidable _)⟩ := by
    rw [h.list, List.getElem?_map]
  unfold Net.updateEntry
  rw [hentry]
  rcases hk : (n.followers (.post p))[k]? with _ | ⟨f, _ | _⟩
  · exact h.skip fun f => by simp [dropped_concat, hk]
  · by_cases hd : n.Dropped p done f
    · simp only [Option.map_some, hd, decide_true, Bool.or_true]
      refine h.skip fun g => ?_
      rw [dropped_concat, hk]
      refine or_iff_left_of_imp ?_
      rintro ⟨-, hg⟩
      obtain rfl : f = g := by simpa using hg
      exact hd
    · simp only [Option.map_some, hd, decide_false, Bool.or_false, hserial]
      rcases hs : n.serial p f with _ | _
      · exact h.drop hr hk hs hd
      · refine h.skip fun g => ?_
        rw [dropped_concat, hk]
        refine or_iff_left_of_imp ?_
        rintro ⟨hg', hg⟩
        obtain rfl : f = g := by simpa using hg
        simp [hs] at hg'
  · simp only [Option.map_some, Bool.true_or]
    exact h.skip fun f => by simp [dropped_concat, hk]

theorem Running.updated_foldl (hr : n.Running p) (ks : List Nat) :
    n.Updated p ks (ks.foldl (Net.updateEntry fuel p) n) := by
  induction ks using List.reverseRecOn with
  | nil =>
      have hnone : ∀ f, ¬ n.Dropped p [] f := by
        rintro f ⟨-, k, hk, -⟩
        simp at hk
      refine ⟨rfl, rfl, rfl, rfl, ?_, fun _ _ => rfl, fun q _ => (if_neg (hnone _)).symm,
        fun _ _ _ => rfl⟩
      simp [hnone]
  | append_singleton ks k ih =>
      rw [List.foldl_append]
      exact ih.updateEntry hr

/-- The loop visits every entry, so it drops the followers that are not serial
with `p`. -/
theorem dropped_range_iff :
    n.Dropped p (List.range (n.followers (.post p)).length).reverse f ↔
      n.serial p f = false ∧ f ∈ n.live (.post p) := by
  refine and_congr_right fun _ => ?_
  rw [mem_live, List.mem_iff_getElem?]
  constructor
  · rintro ⟨k, -, hk⟩
    exact ⟨k, hk⟩
  · rintro ⟨k, hk⟩
    have hlt : k < (n.followers (.post p)).length := (List.getElem?_eq_some_iff.mp hk).1
    exact ⟨k, by simpa using hlt, hk⟩

/-- The loop over the whole list. -/
theorem Running.updated (hr : n.Running p) :
    n.Updated p (List.range (n.followers (.post p)).length).reverse (n.updateGraph fuel p) :=
  hr.updated_foldl _

/-- Entries stay or go as a whole: `erase` removes every entry that compares
equal. -/
theorem Running.count_updateGraph (hr : n.Running p) (fuel : Nat) (f : EventPtr) :
    (n.updateGraph fuel p).count (.post p) f =
      if n.serial p f = false then 0 else n.count (.post p) f := by
  rw [count, count, hr.updated.list, List.countP_map]
  split <;> rename_i hs
  · rw [List.countP_eq_zero]
    rintro ⟨g, b⟩ hx
    simp only [comp_apply, Bool.and_eq_true, Bool.not_eq_true', Bool.or_eq_false_iff,
      decide_eq_false_iff_not, beq_iff_eq, not_and, and_imp]
    rintro rfl hnd rfl
    exact hnd (dropped_range_iff.mpr ⟨hs, mem_live.mpr hx⟩)
  · refine List.countP_congr fun x _ => ?_
    have hnd : ¬ n.Dropped p (List.range (n.followers (.post p)).length).reverse f := by
      rw [dropped_range_iff]
      exact fun h => hs h.1
    simp only [comp_apply, Bool.and_eq_true, Bool.not_eq_true', Bool.or_eq_false_iff,
      decide_eq_false_iff_not, beq_iff_eq]
    constructor
    · rintro ⟨⟨hb, -⟩, hx⟩
      exact ⟨hb, hx⟩
    · rintro ⟨hb, hx⟩
      exact ⟨⟨hb, hx ▸ hnd⟩, hx⟩

/-- The counter of a follower is decremented once if the follower is dropped. -/
theorem Running.state_updateGraph (hr : n.Running p) (fuel : Nat) {q : Nat}
    (hq : 0 < n.count (.post p) (.pre q)) :
    (n.updateGraph fuel p).state (.pre q) =
      if n.serial p (.pre q) = false then n.state (.pre q) - 1 else n.state (.pre q) := by
  have hlive := count_pos_iff.mp hq
  have hdepth : n.depth q = n.depth p := by
    rcases hr.listed _ hlive with ⟨q', e, hq'⟩ | ⟨q', e, -⟩
    · obtain rfl : q = q' := by simpa using e
      exact hq'
    · simp at e
  have hiff : n.Dropped p (List.range (n.followers (.post p)).length).reverse (.pre q) ↔
      n.serial p (.pre q) = false := by
    rw [dropped_range_iff]
    exact and_iff_left hlive
  rw [hr.updated.pre q hdepth]
  split <;> rename_i h
  · rw [if_pos (hiff.mp h)]
  · rw [if_neg fun h' => h (hiff.mpr h')]

end Loop

/-! ### Edge counts -/

/-- From `n` to `n'` every follower of `p` that is serial with it keeps its
entries and its counter; the others lose all their entries and as many units of
their counter.  `others` are the entries for the follower in other lists. -/
structure Conserves (n n' : Net) (p : Nat) : Prop where
  kept : ∀ q, 0 < n.count (.post p) (.pre q) → n.serial p (.pre q) = true →
    n'.count (.post p) (.pre q) = n.count (.post p) (.pre q) ∧
      n'.state (.pre q) = n.state (.pre q)
  removed : ∀ q, 0 < n.count (.post p) (.pre q) → n.serial p (.pre q) = false →
    n'.count (.post p) (.pre q) = 0 ∧
      n'.state (.pre q) + n.count (.post p) (.pre q) = n.state (.pre q)
  balanced : ∀ q others, 0 < n.count (.post p) (.pre q) →
    n.state (.pre q) = 1 + others + n.count (.post p) (.pre q) →
      n'.state (.pre q) = 1 + others + n'.count (.post p) (.pre q)

/-- `update_graph` notifies a dropped follower once, whatever the number of its
entries. -/
theorem update_graph_conserves_iff (n : Net) (p fuel : Nat) (hr : n.Running p) :
    Conserves n (n.updateGraph fuel p) p ↔
      ∀ q, n.serial p (.pre q) = false → n.count (.post p) (.pre q) ≤ 1 := by
  constructor
  · intro h q hs
    by_contra hlt
    have hpos : 0 < n.count (.post p) (.pre q) := by omega
    have hrem := (h.removed q hpos hs).2
    have hstate := hr.state_updateGraph fuel hpos
    rw [if_pos hs] at hstate
    have := hr.counted q hpos
    omega
  · intro h
    have hcount := fun q => hr.count_updateGraph fuel (.pre q)
    refine ⟨?_, ?_, ?_⟩
    · intro q hpos hs
      rw [hcount, hr.state_updateGraph fuel hpos, if_neg (by simp [hs]), if_neg (by simp [hs])]
      exact ⟨rfl, rfl⟩
    · intro q hpos hs
      rw [hcount, hr.state_updateGraph fuel hpos, if_pos hs, if_pos hs]
      have := h q hs
      have := hr.counted q hpos
      exact ⟨rfl, by omega⟩
    · intro q others hpos hbal
      rw [hcount, hr.state_updateGraph fuel hpos]
      rcases hs : n.serial p (.pre q) with _ | _
      · have := h q hs
        simp only [if_true]
        omega
      · simpa using hbal

/-- Task `0` has dropped its accesses and task `1` follows it with one entry for
each of `k` resources. -/
def dropped (k : Nat) : Net where
  user t := if t = 0 then .empty 0 else
    .build 0 [.addResource (Graph.ioAccess 0 .write), .addResource (Graph.ioAccess 1 .write)]
  creator _ := 0
  depth _ := 0
  parent _ := none
  state e := if e = .pre 1 then k + 1 else 1
  followers e := if e = .post 0 then List.replicate k ⟨.pre 1, false⟩ else []
  activated := []

theorem mem_live_dropped {k : Nat} {e f : EventPtr} (h : f ∈ (dropped k).live e) :
    e = .post 0 ∧ f = .pre 1 := by
  rw [mem_live] at h
  simp only [dropped] at h
  split at h
  · rename_i he
    exact ⟨he, by simpa using (List.mem_replicate.mp h).2⟩
  · simp at h

theorem dropped_count (k : Nat) : (dropped k).count (.post 0) (.pre 1) = k := by
  simp [count, dropped, List.countP_replicate]

theorem running_dropped {k : Nat} (hk : k + 1 < counterSize) : (dropped k).Running 0 where
  layered t := by
    constructor
    · intro f hf
      exact absurd (mem_live_dropped hf).1 (by simp)
    · intro f hf
      exact ⟨1, .inl (mem_live_dropped hf).2, Nat.lt_succ_self 0⟩
  above := by simp [dropped]
  listed f hf := .inl ⟨1, (mem_live_dropped hf).2, rfl⟩
  counted q hq := by
    obtain rfl : q = 1 := by simpa using (mem_live_dropped (count_pos_iff.mp hq)).2
    rw [dropped_count]
    exact Nat.lt_succ_self k
  bounded e := by
    show (if e = .pre 1 then k + 1 else 1) < counterSize
    split <;> omega

/-- One shared resource: the counts are conserved. -/
theorem update_graph_conserves_iff_once :
    (dropped 1).Running 0 ∧ Conserves (dropped 1) ((dropped 1).updateGraph 3 0) 0 := by
  have hr : (dropped 1).Running 0 := running_dropped (by decide)
  refine ⟨hr, (update_graph_conserves_iff _ _ _ hr).mpr ?_⟩
  intro q _
  rcases Nat.eq_zero_or_pos ((dropped 1).count (.post 0) (.pre q)) with h | h
  · omega
  · obtain rfl : q = 1 := by simpa using (mem_live_dropped (count_pos_iff.mp h)).2
    rw [dropped_count]

/-- Two shared resources: both entries are gone and the counter of the follower
drops from three to two, where it stays for ever. -/
theorem update_graph_loses_unit :
    (dropped 2).Running 0 ∧ (dropped 2).serial 0 (.pre 1) = false ∧
      (dropped 2).count (.post 0) (.pre 1) = 2 ∧ (dropped 2).state (.pre 1) = 3 ∧
      ((dropped 2).updateGraph 3 0).count (.post 0) (.pre 1) = 0 ∧
      ((dropped 2).updateGraph 3 0).state (.pre 1) = 2 ∧
      ¬ Conserves (dropped 2) ((dropped 2).updateGraph 3 0) 0 := by
  have hr : (dropped 2).Running 0 := running_dropped (by decide)
  have hs : (dropped 2).serial 0 (.pre 1) = false := by decide
  have hc : (dropped 2).count (.post 0) (.pre 1) = 2 := dropped_count 2
  have hpos : 0 < (dropped 2).count (.post 0) (.pre 1) := by omega
  have hstate : ((dropped 2).updateGraph 3 0).state (.pre 1) = 2 := by
    rw [hr.state_updateGraph 3 hpos, if_pos hs]
    rfl
  refine ⟨hr, hs, hc, rfl, ?_, hstate, ?_⟩
  · rw [hr.count_updateGraph, if_pos hs]
  · intro h
    have hrem := (h.removed 1 hpos hs).2
    rw [hstate, hc] at hrem
    simp [dropped] at hrem

/-! ### The edge to the parent -/

/-- A successful patch keeps the edge to the parent exactly if it leaves the task
an access that is serial with one of the parent's. -/
theorem update_properties_keeps_parent_iff (n : Net) (p q fuel : Nat) (patch : Patch)
    (hr : n.Running p) (hq : n.parent p = some q) (hedge : 0 < n.count (.post p) (.post q))
    (hok : ((n.user p).applyPatch patch).2 = none) :
    ((n.updateProperties fuel p patch).1.count (.post p) (.post q) = n.count (.post p) (.post q) ∧
        (n.updateProperties fuel p patch).1.state (.post q) = n.state (.post q)) ↔
      ∃ ra, (n.user p).LeftBy patch.diff ra ∧
        ∃ rb ∈ (n.user q).accessList, ra.isSerial rb = true := by
  rw [← ResourceUser.isSerial_patched_iff]
  let m : Net := { n with user := update n.user p ((n.user p).patched patch.diff) }
  have hm : (n.updateProperties fuel p patch).1 = m.updateGraph fuel p := by
    unfold updateProperties
    simp only [hok]
    rfl
  have hrm : m.Running p := ⟨hr.layered, hr.above, hr.listed, hr.counted, hr.bounded⟩
  have hne : q ≠ p := by
    rintro rfl
    exact lt_irrefl _ (hr.above q hq)
  have hserial : m.serial p (.post q) = ((n.user p).patched patch.diff).isSerial (n.user q) := by
    show (update n.user p _ p).isSerial (update n.user p _ q) = _
    rw [update_self, update_of_ne hne]
  have hcount : m.count (.post p) (.post q) = n.count (.post p) (.post q) := rfl
  rw [hm, ← hserial, hrm.count_updateGraph, hcount]
  constructor
  · rintro ⟨h, -⟩
    by_contra hs
    rw [if_pos (by simpa using hs)] at h
    omega
  · intro hs
    have hnd : ¬ m.Dropped p (List.range (m.followers (.post p)).length).reverse (.post q) := by
      rintro ⟨hf, -⟩
      simp [hs] at hf
    rw [if_neg (by simp [hs])]
    exact ⟨rfl, hrm.updated.post q hq hnd⟩

/-- Task `1` is a child of task `0`; both write resource `0` and a resource of a
deeper scope. -/
def family : Net where
  user t := .build (UInt8.ofNat t)
    [.addResource (Graph.ioAccess 0 .write), .addResource ⟨⟨1, 9, .io⟩, IOAccess.write⟩]
  creator _ := 0
  depth t := t
  parent t := if t = 1 then some 0 else none
  state e := if e = .post 0 then 2 else 1
  followers e := if e = .post 1 then [⟨.post 0, false⟩] else []
  activated := []

theorem mem_live_family {e f : EventPtr} (h : f ∈ family.live e) : e = .post 1 ∧ f = .post 0 := by
  rw [mem_live] at h
  simp only [family] at h
  split at h
  · rename_i he
    exact ⟨he, by simpa using h⟩
  · simp at h

theorem running_family : family.Running 1 where
  layered t := by
    constructor
    · intro f hf
      exact absurd (mem_live_family hf).1 (by simp)
    · intro f hf
      exact ⟨0, .inr (mem_live_family hf).2, Nat.succ_pos _⟩
  above q hq := by
    obtain rfl : 0 = q := by simpa [family] using hq
    exact Nat.zero_lt_one
  listed f hf := .inr ⟨0, (mem_live_family hf).2, rfl⟩
  counted q hq := by
    have := (mem_live_family (count_pos_iff.mp hq)).2
    simp at this
  bounded e := by
    show (if e = .post 0 then 2 else 1) < counterSize
    split <;> decide

/-- The child gives up its access on resource `0`, the other one stays. -/
theorem update_properties_keeps_parent_iff_deeper_scope :
    ((family.user 1).applyPatch ⟨[(.remove, Graph.ioAccess 0 .write)]⟩).2 = none ∧
      (family.updateProperties 3 1 ⟨[(.remove, Graph.ioAccess 0 .write)]⟩).1.state (.post 0) =
        family.state (.post 0) := by
  have hok : ((family.user 1).applyPatch ⟨[(.remove, Graph.ioAccess 0 .write)]⟩).2 = none := by
    decide
  refine ⟨hok, ((update_properties_keeps_parent_iff family 1 0 3 _ running_family rfl (by decide)
    hok).mpr ?_).2⟩
  rw [← ResourceUser.isSerial_patched_iff]
  decide

/-- The child gives up all its accesses: the patch succeeds, the edge to the
parent is gone and the counter of the parent's post-event drops from two to
one. -/
theorem child_releases_parent :
    family.Running 1 ∧ family.parent 1 = some 0 ∧
      (family.updateProperties 3 1 ⟨[(.remove, Graph.ioAccess 0 .write),
        (.remove, ⟨⟨1, 9, .io⟩, IOAccess.write⟩)]⟩).2 = none ∧
      family.count (.post 1) (.post 0) = 1 ∧ family.state (.post 0) = 2 ∧
      (family.updateProperties 3 1 ⟨[(.remove, Graph.ioAccess 0 .write),
        (.remove, ⟨⟨1, 9, .io⟩, IOAccess.write⟩)]⟩).1.count (.post 1) (.post 0) = 0 ∧
      (family.updateProperties 3 1 ⟨[(.remove, Graph.ioAccess 0 .write),
        (.remove, ⟨⟨1, 9, .io⟩, IOAccess.write⟩)]⟩).1.state (.post 0) = 1 := by
  refine ⟨running_family, rfl, ?_, ?_, rfl, ?_, ?_⟩ <;> decide

end Net

end RedGrapes.Runtime
