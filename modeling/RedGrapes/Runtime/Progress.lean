/-
RedGrapes/Runtime/Progress.lean

When the runtime stands still.

Workers take tasks from the queues; the other threads run the main program and read `Future`s.
A state is `Quiet` when no thread can go on inside the runtime and no idle worker finds a task in
a queue.  A lock is not what a quiet state waits for: whoever holds one is on top of its stack
and goes on (`Shape.below`).  So all tasks that are left wait for events, a task for an earlier
task of its space, for a child, for an external event, or for itself (`Order.earlier_or_self`).
Children and earlier tasks come to an end in this order, hence

* `freeze_causes` — a quiet state has an external event that nobody has notified, or a task that
  waits for its own post-event, or else everything is done and put away.
-/
import RedGrapes.Runtime.Barrier

namespace RedGrapes.Runtime

open Function Machine

variable {V : Type}

/-! ### Who stands on which stack -/

namespace Frame

/-- The code that workers run for a task. -/
def ofTask : Frame → Bool
  | .body (some _) => true
  | .submit _ _ (some _) => true
  | .makeEvent .. => true
  | .init .. => true
  | .exec _ => true
  | .setResult _ => true
  | .finish _ => true
  | _ => false

/-- The main program, and `get`. -/
def ofUser : Frame → Bool
  | .body none => true
  | .submit _ _ none => true
  | .get _ => true
  | _ => false

/-- The places of `submit` that look for a parent. -/
def seeksParent : Frame → Bool
  | .submit .follower _ none => true
  | _ => false

end Frame

/-- The stack of a thread that is no worker: the main program and `get` are at its bottom, `get`
possibly on top of the main program. -/
def UserStack : List Frame → Prop
  | [] => True
  | f :: rest => f.ofTask = false ∧
      (f.ofUser = true → rest = [] ∨ (∃ h, f = .get h) ∧ rest = [.body none]) ∧ UserStack rest

/-- The frames of a notification, below which anything may stand. -/
def Frame.neutral (f : Frame) : Bool := !f.ofTask && !f.ofUser

theorem Frame.neutral_iff {f : Frame} : f.neutral = true ↔ f.ofTask = false ∧ f.ofUser = false := by
  simp [Frame.neutral]

theorem UserStack.append {l rest : List Frame} (hl : ∀ f ∈ l, f.neutral = true)
    (h : UserStack rest) : UserStack (l ++ rest) := by
  induction l with
  | nil => exact h
  | cons f l ih =>
      obtain ⟨ht, hu⟩ := Frame.neutral_iff.mp (hl f List.mem_cons_self)
      exact ⟨ht, fun h' => by simp [hu] at h', ih fun g hg => hl g (List.mem_cons_of_mem _ hg)⟩

section Step

variable {c c' : Core V} {old new rest : List Frame} {f g : Frame} {e : EventPtr} {b : Bool}

theorem neutral_of_mem_notifyTail (hg : g ∈ c.notifyTail e b) : g.neutral = true := by
  unfold Core.notifyTail at hg
  split_ifs at hg
  · simp at hg
  · obtain rfl := List.mem_singleton.mp hg
    rfl

/-- The code of a task and that of the main program stay apart. -/
theorem Move.of_mem (hm : Move c [f] c' new) (hg : g ∈ new) :
    g.neutral = true ∨ g.ofTask = f.ofTask ∧ g.ofUser = f.ofUser := by
  cases hm
  case claim | exec | setResult | notifyFollower =>
    rcases List.mem_append.mp hg with h | h
    · exact .inl (neutral_of_mem_notifyTail h)
    · obtain rfl := List.mem_singleton.mp h
      simp [Frame.neutral, Frame.ofTask, Frame.ofUser]
  case block | finish | notifyGet => exact .inl (neutral_of_mem_notifyTail hg)
  case removal =>
    split_ifs at hg
    · obtain rfl := List.mem_singleton.mp hg
      exact .inl rfl
    · simp at hg
  case get =>
    obtain rfl := List.mem_singleton.mp hg
    exact .inl rfl
  case wakerEnd | activate | loopedEnd | free => simp at hg
  case read cur _ _ _ | write cur _ _ _ _ | pushUser cur | emplaced cur | future cur =>
    obtain rfl := List.mem_singleton.mp hg
    cases cur <;> exact .inr ⟨rfl, rfl⟩
  all_goals
    obtain rfl := List.mem_singleton.mp hg
    simp [Frame.neutral, Frame.ofTask, Frame.ofUser]

/-- What a step leaves on the stack: only its top frame can hold a lock, and no submission into
the root space looks for a parent. -/
theorem Move.locks_tail (hm : Move c old c' new) (hg : g ∈ new.tail) : g.locks = [] := by
  have htail : ∀ {e b l}, g ∈ (c.notifyTail e b ++ l).tail → g ∈ c.notifyTail e b ∨ g ∈ l := by
    intro e b l h
    exact List.mem_append.mp (List.mem_of_mem_tail h)
  have hnotify : ∀ {e b}, g ∈ c.notifyTail e b → g.locks = [] := by
    intro e b h
    unfold Core.notifyTail at h
    split_ifs at h
    · simp at h
    · obtain rfl := List.mem_singleton.mp h
      rfl
  cases hm
  case claim | exec | setResult | notifyFollower =>
    rcases htail hg with h | h
    · exact hnotify h
    · obtain rfl := List.mem_singleton.mp h
      rfl
  case block | finish | fire | notifyGet => exact hnotify (List.mem_of_mem_tail hg)
  case removal => split_ifs at hg <;> simp at hg
  all_goals simp at hg

theorem Move.not_seeksParent (hm : Move c old c' new) (hg : g ∈ new) : g.seeksParent = false := by
  have hnotify : ∀ {e b}, g ∈ c.notifyTail e b → g.seeksParent = false := by
    intro e b h
    unfold Core.notifyTail at h
    split_ifs at h
    · simp at h
    · obtain rfl := List.mem_singleton.mp h
      rfl
  cases hm
  case claim | exec | setResult | notifyFollower =>
    rcases List.mem_append.mp hg with h | h
    · exact hnotify h
    · obtain rfl := List.mem_singleton.mp h
      rfl
  case block | finish | fire | notifyGet => exact hnotify hg
  case removal =>
    split_ifs at hg
    · obtain rfl := List.mem_singleton.mp hg
      rfl
    · simp at hg
  case wakerEnd | activate | loopedEnd | free | moveLive | moveTaken | destroyTaken => simp at hg
  all_goals
    obtain rfl := List.mem_singleton.mp hg
    rfl

/-- A step of a thread that is no worker. -/
theorem UserStack.move (hm : Move c [f] c' new) (h : UserStack (f :: rest)) :
    UserStack (new ++ rest) := by
  obtain ⟨ht, hu, hrest⟩ := h
  by_cases hneutral : ∀ g ∈ new, g.neutral = true
  · exact hrest.append hneutral
  -- a frame of the main program is replaced by one
  push Not at hneutral
  obtain ⟨g, hg, hne⟩ := hneutral
  obtain ⟨hgt, hgu⟩ := (hm.of_mem hg).resolve_left hne
  have hgu' : g.ofUser = true := by
    rw [Frame.neutral, hgt, ht] at hne
    simpa using hne
  rcases hu (hgu ▸ hgu') with rfl | ⟨⟨x, rfl⟩, rfl⟩
  · rw [List.append_nil]
    have hone : new = [g] := by
      cases hm <;> simp_all [Frame.ofTask, Frame.ofUser]
    rw [hone]
    exact ⟨hgt.trans ht, fun _ => .inl rfl, trivial⟩
  · cases hm
    obtain rfl := List.mem_singleton.mp hg
    exact absurd rfl hne

end Step

theorem mem_tail_append {l rest : List Frame} {g : Frame} (h : g ∈ (l ++ rest).tail) :
    g ∈ l.tail ∨ g ∈ rest := by
  cases l with
  | nil => exact .inr (List.mem_of_mem_tail h)
  | cons x l => exact List.mem_append.mp h

/-- What the stack of a worker, or of another thread, looks like. -/
structure StackOk (isWorker : Bool) (l : List Frame) : Prop where
  /-- A worker runs code of tasks only, … -/
  worker : isWorker = true → ∀ f ∈ l, f.ofUser = false
  /-- … and the other threads run none. -/
  user : isWorker = false → UserStack l
  /-- Locks are held on top of a stack. -/
  below : ∀ f ∈ l.tail, f.locks = []
  parent : ∀ f ∈ l, f.seeksParent = false

namespace StackOk

variable {c c' : Core V} {new rest l : List Frame} {f g : Frame} {isWorker : Bool}

theorem move (h : StackOk isWorker (f :: rest)) (hm : Move c [f] c' new) :
    StackOk isWorker (new ++ rest) where
  worker := by
    intro hi g hg
    rcases List.mem_append.mp hg with hg | hg
    · rcases hm.of_mem hg with hn | ⟨-, hu⟩
      · exact (Frame.neutral_iff.mp hn).2
      · exact hu.trans (h.worker hi f List.mem_cons_self)
    · exact h.worker hi g (List.mem_cons_of_mem _ hg)
  user := fun hi => (h.user hi).move hm
  below := by
    intro g hg
    rcases mem_tail_append hg with hg | hg
    · exact hm.locks_tail hg
    · exact h.below g hg
  parent := by
    intro g hg
    rcases List.mem_append.mp hg with hg | hg
    · exact hm.not_seeksParent hg
    · exact h.parent g (List.mem_cons_of_mem _ hg)

/-- What a call puts on a stack. -/
theorem neutral_of_call {b : Call} (h : c.call b = some (c', new)) (hg : g ∈ new) :
    g.neutral = true ∨ (∃ t, b = .popEmplaced t ∧ new = [.init .up t]) ∨
      (∃ t, b = .popReady t ∧ new = [.exec t]) ∨ ∃ x, b = .getFuture x ∧ new = [.get x] := by
  cases b with
  | popEmplaced t | popReady t =>
      simp only [Core.call] at h
      split_ifs at h
      obtain ⟨-, rfl⟩ := Prod.mk.inj (Option.some.inj h)
      simp
  | fire x =>
      simp only [Core.call] at h
      split_ifs at h
      obtain ⟨-, rfl⟩ := Prod.mk.inj (Option.some.inj h)
      exact .inl (neutral_of_mem_notifyTail hg)
  | moveFuture x =>
      simp only [Core.call] at h
      split at h <;> simp only [Option.some.injEq, Prod.mk.injEq, reduceCtorEq] at h
      all_goals
        obtain ⟨-, rfl⟩ := h
        simp at hg
  | destroyFuture x =>
      simp only [Core.call] at h
      split at h <;> simp only [Option.some.injEq, Prod.mk.injEq, reduceCtorEq] at h
      · obtain ⟨-, rfl⟩ := h
        obtain rfl := List.mem_singleton.mp hg
        exact .inl rfl
      · obtain ⟨-, rfl⟩ := h
        simp at hg
  | getFuture x =>
      simp only [Core.call] at h
      split at h <;> simp only [Option.some.injEq, Prod.mk.injEq, reduceCtorEq] at h
      obtain ⟨-, rfl⟩ := h
      simp

/-- A call is made with an empty stack, or by user code; workers take tasks from the queues and
do not wait in `get`. -/
theorem call {b : Call} (h : StackOk isWorker l) (hallowed : b.allowed l = true)
    (hpop : ∀ t, b = .popEmplaced t ∨ b = .popReady t → isWorker = true)
    (hget : ∀ x, b = .getFuture x → isWorker = false) (hc : c.call b = some (c', new)) :
    StackOk isWorker (new ++ l) := by
  have hm := move_of_call hc
  have hold : l = [] ∨ ∃ cur rest, l = .body cur :: rest := by
    unfold Call.allowed at hallowed
    split at hallowed
    · exact .inl rfl
    · simp at hallowed
    · simp at hallowed
    · exact .inr ⟨_, _, rfl⟩
    · simp at hallowed
  have hlocks : ∀ f ∈ l, f.locks = [] := by
    rcases hold with rfl | ⟨cur, rest, rfl⟩
    · simp
    · intro f hf
      rcases List.mem_cons.mp hf with rfl | hf
      · rfl
      · exact h.below f hf
  exact {
    worker := by
      intro hi g hg
      rcases List.mem_append.mp hg with hg | hg
      · rcases neutral_of_call hc hg with hn | ⟨t, -, rfl⟩ | ⟨t, -, rfl⟩ | ⟨x, rfl, -⟩
        · exact (Frame.neutral_iff.mp hn).2
        · obtain rfl := List.mem_singleton.mp hg
          rfl
        · obtain rfl := List.mem_singleton.mp hg
          rfl
        · have := hget x rfl
          rw [hi] at this
          cases this
      · exact h.worker hi g hg
    user := by
      intro hi
      by_cases hneutral : ∀ g ∈ new, g.neutral = true
      · exact (h.user hi).append hneutral
      push Not at hneutral
      obtain ⟨g, hg, hne⟩ := hneutral
      rcases neutral_of_call hc hg with hn | ⟨t, rfl, -⟩ | ⟨t, rfl, -⟩ | ⟨x, -, rfl⟩
      · exact absurd hn hne
      · have := hpop t (.inl rfl)
        rw [hi] at this
        cases this
      · have := hpop t (.inr rfl)
        rw [hi] at this
        cases this
      · -- `get` is called with an empty stack or by the main program
        have huser := h.user hi
        refine ⟨rfl, fun _ => ?_, huser⟩
        rcases hold with rfl | ⟨cur, rest, rfl⟩
        · exact .inl rfl
        · obtain ⟨ht, hu, -⟩ := huser
          cases cur with
          | some t => cases ht
          | none =>
              rcases hu rfl with rfl | ⟨⟨x', hx'⟩, -⟩
              · exact .inr ⟨⟨x, rfl⟩, rfl⟩
              · cases hx'
    below := by
      intro g hg
      rcases mem_tail_append hg with hg | hg
      · exact hm.locks_tail hg
      · exact hlocks g hg
    parent := by
      intro g hg
      rcases List.mem_append.mp hg with hg | hg
      · exact hm.not_seeksParent hg
      · exact h.parent g hg }

end StackOk

section Shape

variable {Tid : Type} [DecidableEq Tid] {worker : Tid → Bool}

/-- Workers take tasks from the queues, and the other threads read `Future`s. -/
def Plays (worker : Tid → Bool) : Action Tid → Prop
  | .run _ => True
  | .call i b =>
      match b with
      | .popEmplaced _ => worker i = true
      | .popReady _ => worker i = true
      | .getFuture _ => worker i = false
      | _ => True

/-- No counter goes past its range, and every thread plays its role. -/
def Roles (worker : Tid → Bool) (s : State Tid V) (a : Action Tid) : Prop :=
  NoWrap s a ∧ Plays worker a

instance (worker : Tid → Bool) : ∀ a : Action Tid, Decidable (Plays worker a)
  | .run _ => inferInstanceAs (Decidable True)
  | .call i (.popEmplaced _) => inferInstanceAs (Decidable (worker i = true))
  | .call i (.popReady _) => inferInstanceAs (Decidable (worker i = true))
  | .call i (.getFuture _) => inferInstanceAs (Decidable (worker i = false))
  | .call _ (.fire _) => inferInstanceAs (Decidable True)
  | .call _ (.moveFuture _) => inferInstanceAs (Decidable True)
  | .call _ (.destroyFuture _) => inferInstanceAs (Decidable True)

instance (worker : Tid → Bool) (s : State Tid V) (a : Action Tid) : Decidable (Roles worker s a) :=
  inferInstanceAs (Decidable (NoWrap s a ∧ Plays worker a))

/-- What the stacks look like. -/
def Shape (worker : Tid → Bool) (s : State Tid V) : Prop :=
  ∀ i, StackOk (worker i) (s.threads i)

theorem Shape.step {s s' : State Tid V} {a : Action Tid} (h : Shape worker s)
    (hok : Roles worker s a) (hs : step s a = some s') : Shape worker s' := by
  intro j
  cases a with
  | run i =>
      simp only [Runtime.step] at hs
      rcases hth : s.threads i with - | ⟨f, rest⟩ <;> rw [hth] at hs
      · simp at hs
      obtain ⟨⟨c', new⟩, ht, rfl⟩ := Option.map_eq_some_iff.mp hs
      show StackOk (worker j) (update s.threads i (new ++ rest) j)
      by_cases e : j = i
      · subst e
        rw [update_self]
        exact StackOk.move (hth ▸ h j) (move_of_trans ht)
      · rw [update_of_ne e]
        exact h j
  | call i b =>
      simp only [Runtime.step] at hs
      split_ifs at hs with hallowed
      obtain ⟨⟨c', new⟩, hc, rfl⟩ := Option.map_eq_some_iff.mp hs
      show StackOk (worker j) (update s.threads i (new ++ s.threads i) j)
      by_cases e : j = i
      · subst e
        rw [update_self]
        refine (h j).call hallowed (fun t ht => ?_) (fun x hx => ?_) hc
        · rcases ht with rfl | rfl
          · exact hok.2
          · exact hok.2
        · subst hx
          exact hok.2
      · rw [update_of_ne e]
        exact h j

theorem Shape.initial {main : Tid} {prog : Body V} {store : Resource → V}
    (hmain : worker main = false) : Shape worker (State.initial main prog store) := by
  intro i
  by_cases e : i = main
  · subst e
    simp only [State.initial, if_pos]
    rw [hmain]
    exact ⟨by simp, fun _ => ⟨rfl, fun _ => .inl rfl, trivial⟩, by simp,
      by simp [Frame.seeksParent]⟩
  · simp only [State.initial, if_neg e]
    exact ⟨by simp, fun _ => trivial, by simp, by simp⟩

end Shape

/-! ### Whom a task waits for -/

/-- A pre-event waits for the post-events of earlier tasks of its space.  Only a task that names a
resource twice may wait for its own. -/
def Forward (c : Core V) : Prop :=
  ∀ p t, c.Edge (.post p) (.pre t) →
    p = t ∧ BuilderCall.NamesTwice (c.info t).calls ∨ c.Earlier p t

section Forward

variable {c c' : Core V} {old new : List Frame} {M : Multiset Frame} {p t k k₀ : Nat} {r : Resource}

/-- Two usage entries of one task for one resource. -/
theorem Lists.namesTwice (hL : Lists c) (ht : .emplaced ≤ c.stage t) (hk : k < k₀)
    (h : (r, k) ∈ c.entries t) (h₀ : (r, k₀) ∈ c.entries t) :
    BuilderCall.NamesTwice (c.info t).calls := by
  by_contra hne
  have hnodup : ((c.entries t).map Prod.fst).Nodup := by
    rw [hL.complete t ht, Core.resourcesOf, List.nodup_reverse]
    exact BuilderCall.nodup_build_iff.mpr hne
  have := List.inj_on_of_nodup_map hnodup h h₀ rfl
  simp only [Prod.mk.injEq, true_and] at this
  omega

/-- A scan meets the task itself and earlier ones. -/
theorem Order.earlier_or_self (hI : Inv c M) (hO : Order c M) (hinit : .emplaced ≤ c.stage t)
    (hfound : c.Found t p r k) (hk : k < k₀) (hmem : (r, k₀) ∈ c.entries t) :
    p = t ∧ BuilderCall.NamesTwice (c.info t).calls ∨ c.Earlier p t := by
  have hpk : (r, k) ∈ c.entries p := (hI.lists.mem_iff p r k).mpr ⟨false, hfound.1⟩
  have hspace : (c.info p).space = (c.info t).space := (verdict_eq_depend_iff.mp hfound.2).2.1
  rcases Nat.lt_trichotomy p t with h | h | h
  · exact .inr ⟨h, hspace⟩
  · subst h
    exact .inl ⟨rfl, hI.lists.namesTwice hinit hk hpk hmem⟩
  · have := hO.before t p r k₀ k ⟨h, hspace.symm⟩ hmem hpk
    omega

theorem Forward.step (h : Forward c) (hI : Inv c (↑old + M)) (hm : Move c old c' new)
    (hI' : Inv c' (↑new + M)) (hO' : Order c' (↑new + M)) : Forward c' := by
  intro p t he
  have hkeep : c.Edge (.post p) (.pre t) →
      p = t ∧ BuilderCall.NamesTwice (c'.info t).calls ∨ c'.Earlier p t := by
    intro hold
    obtain ⟨d, hd, hsrc, hdst⟩ := hold
    obtain ⟨i, hi⟩ := List.mem_iff_getElem?.mp hd
    have ht : t < c.next := hI.events.lt_next fun hu => by
      have := (hI.events.edge i d hi).initialised t hdst
      rw [hu] at this
      exact absurd this (by decide)
    rw [hm.info_eq ht]
    exact (h p t ⟨d, hd, hsrc, hdst⟩).imp id (Earlier.congr hm ht).mpr
  obtain ⟨d', hd', hsrc, hdst⟩ := he
  rcases eventMove hI hm with ⟨hf, -⟩ | ⟨_, _, _, hf, -⟩ | ⟨src, dst, hf, -⟩ | ⟨i, d, hd, hf, -⟩ |
    ⟨i, _, d, hd, hf, -⟩
  · exact hkeep ⟨d', hf ▸ hd', hsrc, hdst⟩
  · exact hkeep ⟨d', hf ▸ hd', hsrc, hdst⟩
  · rw [hf, List.mem_append, List.mem_singleton] at hd'
    rcases hd' with hd' | rfl
    · exact hkeep ⟨d', hd', hsrc, hdst⟩
    · -- the frame that has pushed the new entry knows where it has found `p`
      have hi : c'.followers[c.followers.length]? = some ⟨src, dst, false, 0⟩ := by simp [hf]
      obtain ⟨f, hmem, hedge⟩ := hI'.ledger.exists_edge hi rfl
      rcases hI'.edge_cases hmem hedge hi with ⟨s, u, -, e⟩ | ⟨x, s, -, e⟩ | ⟨r, k, q, es, s, rfl, e, hq⟩
      · simp only [Follower.mk.injEq] at e
        rw [e.2.1] at hdst
        cases hdst
      · simp only [Follower.mk.injEq] at e
        rw [e.1] at hsrc
        cases hsrc
      · simp only [Follower.mk.injEq] at e
        obtain rfl : q = p := EventPtr.post.inj (e.1.symm.trans hsrc)
        obtain rfl : s = t := EventPtr.pre.inj (e.2.1.symm.trans hdst)
        obtain ⟨-, -, k₀, hk, hown⟩ := hO'.scanned _ hmem
        have hst : c'.stage s = .init := hI'.ledger.stage_eq hmem (by simp [Frame.tasks])
        exact hO'.earlier_or_self hI' (by rw [hst]; decide) hq hk hown
  · rw [hf] at hd'
    rcases List.mem_or_eq_of_mem_set hd' with hd' | rfl
    · exact hkeep ⟨d', hd', hsrc, hdst⟩
    · exact hkeep ⟨d, List.mem_of_getElem? hd, hsrc, hdst⟩
  · rw [hf] at hd'
    rcases List.mem_or_eq_of_mem_set hd' with hd' | rfl
    · exact hkeep ⟨d', hd', hsrc, hdst⟩
    · exact hkeep ⟨d, List.mem_of_getElem? hd, hsrc, hdst⟩

theorem Forward.initial (prog : Body V) (store : Resource → V) :
    Forward (Core.initial prog store) := by
  rintro p t ⟨d, hd, -⟩
  simp [Core.initial] at hd

end Forward

/-! ### Frames that cannot go on -/

/-- What a frame waits for: the main program is at its end, `get` waits for a result, and the
lock of a user list is taken. -/
def Frame.Waits (c : Core V) : Frame → Prop
  | .body none => c.code none = .done
  | .get h => ∀ x, c.handles[h]? = some x → c.counter (.resultSet x.task) ≠ 0
  | .init (.resources ((r, _) :: _)) _ => c.locked r = true
  | .delete (.resources ((r, _) :: _)) _ => c.locked r = true
  | _ => False

section Waits

variable {c : Core V} {M : Multiset Frame} {f : Frame}

/-- Every other frame can go on. -/
theorem Frame.waits_of_trans (hI : Inv c M) (hO : Order c M) (hf : f ∈ M)
    (hseeks : f.seeksParent = false) (h : c.trans f = none) : f.Waits c := by
  have hL := hI.ledger
  cases f with
  | body cur =>
      simp only [Core.trans, Core.transBody] at h
      cases cur with
      | none =>
          cases hcode : c.code none with
          | done => exact hcode
          | _ => simp [hcode] at h
      | some t => cases hcode : c.code (some t) <;> simp [hcode] at h
  | submit pc t cur =>
      simp only [Core.trans] at h
      cases pc with
      | follower =>
          cases cur with
          | none => simp [Frame.seeksParent] at hseeks
          | some u =>
              simp only [Core.transSubmit] at h
              split_ifs at h
      | count i =>
          obtain ⟨-, -, u, rfl, -⟩ := hI.frames _ hf
          simp [Core.transSubmit] at h
      | users rs => cases rs <;> simp [Core.transSubmit] at h
      | future => simp [Core.transSubmit] at h
  | init pc t =>
      simp only [Core.trans] at h
      cases pc with
      | resources es =>
          cases es with
          | nil =>
              simp only [Core.transInit] at h
              split_ifs at h
          | cons x es =>
              simp only [Core.transInit] at h
              split_ifs at h with hl
              exact hl
      | scan r k es =>
          cases k with
          | zero => simp [Core.transInit] at h
          | succ k =>
              -- the place is one of the user list
              obtain ⟨-, -, k₀, hk, hown⟩ := hO.scanned _ hf
              obtain ⟨b, hu⟩ := (hI.lists.mem_iff t r k₀).mp hown
              have hlt := (List.getElem?_eq_some_iff.mp hu).1
              obtain ⟨⟨p, b'⟩, hp⟩ : ∃ u, (c.users r)[k]? = some u :=
                ⟨_, List.getElem?_eq_getElem (by omega)⟩
              simp only [Core.transInit, hp] at h
              cases b' with
              | true => simp at h
              | false => cases hv : verdict c.info t p <;> simp [hv] at h
      | check | follow | next =>
          simp only [Core.transInit] at h
          split_ifs at h
      | up | push | count | unlock => simp [Core.transInit] at h
  | get x =>
      intro y hy hz
      simp [Core.trans, hy, hz] at h
  | delete pc t =>
      simp only [Core.trans] at h
      cases pc with
      | resources es =>
          cases es with
          | nil => simp [Core.transDelete] at h
          | cons x es =>
              simp only [Core.transDelete] at h
              split_ifs at h with hl
              exact hl
      | remove | unlock => simp [Core.transDelete] at h
  | followers e todo =>
      cases todo with
      | nil => simp [Core.trans] at h
      | cons i todo =>
          have hph : c.phase e = .looping (i :: todo) := hL.phase_eq hf (by simp [Frame.notifies])
          obtain ⟨d, hd, -⟩ := (hI.events.looping e _ hph).2 i List.mem_cons_self
          simp [Core.trans, hd] at h
  | makeEvent | exec | setResult | finish | notifyGet | waker | activate | loop | removal | free =>
      simp [Core.trans] at h

/-- A frame with a lock can go on. -/
theorem Frame.locks_of_waits (h : f.Waits c) : f.locks = [] := by
  unfold Frame.Waits at h
  split at h
  · rfl
  · rfl
  · rfl
  · rfl
  · exact h.elim

end Waits

/-! ### Quiet states -/

variable {Tid : Type} [DecidableEq Tid]

/-- No thread can go on inside the runtime, and no idle worker finds a task in a queue. -/
structure Quiet (worker : Tid → Bool) (s : State Tid V) : Prop where
  run : ∀ i, step s (.run i) = none
  pop : ∀ i, worker i = true → ∀ t,
    step s (.call i (.popEmplaced t)) = none ∧ step s (.call i (.popReady t)) = none

namespace Quiet

variable [Fintype Tid] {worker : Tid → Bool} {s : State Tid V} {i : Tid} {f : Frame}
  {rest : List Frame} {t : Nat}

theorem waits_of_head (hQ : Quiet worker s) (hS : Shape worker s) (hI : Inv s.core (frames s.threads))
    (hO : Order s.core (frames s.threads)) (h : s.threads i = f :: rest) : f.Waits s.core := by
  have hmem : f ∈ s.threads i := h ▸ List.mem_cons_self
  refine f.waits_of_trans hI hO (mem_frames.mpr ⟨i, hmem⟩) ((hS i).parent f hmem) ?_
  have hrun := hQ.run i
  simp only [step, h] at hrun
  simpa using hrun

/-- No lock is taken. -/
theorem not_locked (hQ : Quiet worker s) (hS : Shape worker s) (hI : Inv s.core (frames s.threads))
    (hO : Order s.core (frames s.threads)) (r : Resource) : s.core.locked r = false := by
  by_contra hl
  have hone := hI.ledger.lock r
  rw [Bool.eq_true_of_not_eq_false hl] at hone
  obtain ⟨g, hg, hr⟩ := exists_of_tally_pos (g := Frame.locks) (k := r) (by rw [hone]; decide)
  obtain ⟨j, hj⟩ := mem_frames.mp hg
  rcases hth : s.threads j with - | ⟨f, rest⟩ <;> rw [hth] at hj
  · simp at hj
  -- who holds it is on top of its stack, and waits for nothing
  rcases List.mem_cons.mp hj with rfl | hj
  · rw [Frame.locks_of_waits (hQ.waits_of_head hS hI hO hth)] at hr
    simp at hr
  · rw [(hS j).below g (by rw [hth]; exact hj)] at hr
    simp at hr

/-- What is left on a stack: nothing, the main program, or `get`. -/
theorem stack (hQ : Quiet worker s) (hS : Shape worker s) (hI : Inv s.core (frames s.threads))
    (hO : Order s.core (frames s.threads)) (i : Tid) :
    s.threads i = [] ∨ worker i = false ∧
      (s.threads i = [.body none] ∧ s.core.code none = .done ∨
        ∃ x, (Frame.get x).Waits s.core ∧
          (s.threads i = [.get x] ∨ s.threads i = [.get x, .body none])) := by
  rcases hth : s.threads i with - | ⟨f, rest⟩
  · exact .inl rfl
  have hw := hQ.waits_of_head hS hI hO hth
  have hfree := hQ.not_locked hS hI hO
  have huser : f.ofUser = true := by
    unfold Frame.Waits at hw
    split at hw
    · rfl
    · rfl
    · rw [hfree] at hw
      cases hw
    · rw [hfree] at hw
      cases hw
    · exact hw.elim
  have hi : worker i = false := by
    by_contra hne
    have := (hS i).worker (Bool.eq_true_of_not_eq_false hne) f (hth ▸ List.mem_cons_self)
    rw [huser] at this
    cases this
  refine .inr ⟨hi, ?_⟩
  have hstack := (hS i).user hi
  rw [hth] at hstack
  obtain ⟨-, hbottom, -⟩ := hstack
  rcases hbottom huser with rfl | ⟨⟨x, rfl⟩, rfl⟩
  · cases f with
    | body cur =>
        cases cur with
        | none => exact .inl ⟨rfl, hw⟩
        | some t => exact hw.elim
    | get x => exact .inr ⟨x, hw, .inl rfl⟩
    | init pc t => simp [Frame.ofUser] at huser
    | delete pc t => simp [Frame.ofUser] at huser
    | _ => exact hw.elim
  · exact .inr ⟨x, hw, .inr rfl⟩

theorem frame (hQ : Quiet worker s) (hS : Shape worker s) (hI : Inv s.core (frames s.threads))
    (hO : Order s.core (frames s.threads)) (hf : f ∈ frames s.threads) :
    f = .body none ∨ ∃ x, f = .get x ∧ f.Waits s.core := by
  obtain ⟨i, hi⟩ := mem_frames.mp hf
  rcases hQ.stack hS hI hO i with h | ⟨-, ⟨h, -⟩ | ⟨x, hw, h | h⟩⟩ <;> rw [h] at hi
  · simp at hi
  · exact .inl (List.mem_singleton.mp hi)
  · obtain rfl := List.mem_singleton.mp hi
    exact .inr ⟨x, rfl, hw⟩
  · rcases List.mem_pair.mp hi with rfl | rfl
    · exact .inr ⟨x, rfl, hw⟩
    · exact .inl rfl

/-- The queues are empty. -/
theorem queues (hQ : Quiet worker s) (hS : Shape worker s) (hI : Inv s.core (frames s.threads))
    (hO : Order s.core (frames s.threads)) (hw : ∃ w, worker w = true) :
    s.core.emplaced = [] ∧ s.core.ready = [] := by
  obtain ⟨w, hw⟩ := hw
  have hidle : s.threads w = [] := by
    rcases hQ.stack hS hI hO w with h | ⟨h, -⟩
    · exact h
    · rw [hw] at h
      cases h
  constructor
  · refine List.eq_nil_iff_forall_not_mem.mpr fun t ht => ?_
    have := (hQ.pop w hw t).1
    simp [step, hidle, Call.allowed, Core.call, ht] at this
  · refine List.eq_nil_iff_forall_not_mem.mpr fun t ht => ?_
    have := (hQ.pop w hw t).2
    simp [step, hidle, Call.allowed, Core.call, ht] at this

/-- No task is in anybody's hand. -/
theorem stage (hQ : Quiet worker s) (hS : Shape worker s) (hI : Inv s.core (frames s.threads))
    (hO : Order s.core (frames s.threads)) (hw : ∃ w, worker w = true) (t : Nat) :
    (s.core.stage t).inHand = false := by
  by_contra hne
  obtain ⟨he, hr⟩ := hQ.queues hS hI hO hw
  have hone : tally Frame.tasks (frames s.threads) (some t, s.core.stage t) +
    s.core.queued.count (some t, s.core.stage t) = _ := hI.ledger.task (some t) (s.core.stage t)
  have hq : s.core.queued = [] := by simp [Core.queued, he, hr]
  rw [hq, Bool.eq_true_of_not_eq_false hne, List.count_nil, Nat.add_zero] at hone
  have hpos : 0 < tally Frame.tasks (frames s.threads) (some t, s.core.stage t) := by
    rw [hone]
    simp [stageIn]
  obtain ⟨f, hf, hmem⟩ := exists_of_tally_pos hpos
  rcases hQ.frame hS hI hO hf with rfl | ⟨x, rfl, -⟩ <;> simp [Frame.tasks] at hmem

/-- No notification is under way. -/
theorem phase (hQ : Quiet worker s) (hS : Shape worker s) (hI : Inv s.core (frames s.threads))
    (hO : Order s.core (frames s.threads)) (e : EventPtr) :
    s.core.phase e = .open ∨ s.core.phase e = .gone := by
  by_contra hne
  have hh : (s.core.phase e).inHand = true := by
    cases hp : s.core.phase e <;> simp_all [Phase.inHand]
  obtain ⟨f, hf, hmem⟩ := hI.ledger.exists_notify hh
  rcases hQ.frame hS hI hO hf with rfl | ⟨x, rfl, -⟩ <;> simp [Frame.notifies] at hmem

/-- An entry that is not notified is one of an event that is not reached. -/
theorem open_of_waits (hQ : Quiet worker s) (hS : Shape worker s)
    (hI : Inv s.core (frames s.threads)) (hO : Order s.core (frames s.threads)) {e : EventPtr}
    (h : 0 < s.core.pending e) : ∃ d ∈ s.core.followers, d.dst = e ∧ s.core.phase d.src = .open ∧
      ∃ i, s.core.EdgeOk i d := by
  obtain ⟨d, hd, hw⟩ := List.countP_pos_iff.mp h
  obtain ⟨i, hi⟩ := List.mem_iff_getElem?.mp hd
  have hok := hI.events.edge i d hi
  simp only [Follower.waits, Bool.and_eq_true, beq_iff_eq] at hw
  refine ⟨d, hd, hw.1.1, (hQ.phase hS hI hO d.src).resolve_right fun hgone => ?_, i, hok⟩
  have hn := hok.notified
  rw [hw.2, hgone] at hn
  simp [Phase.passed] at hn

/-- A task whose earlier tasks have all reached their post-events is done, unless it waits for
itself. -/
theorem done_of_earlier (hQ : Quiet worker s) (hS : Shape worker s)
    (hI : Inv s.core (frames s.threads)) (hO : Order s.core (frames s.threads))
    (hF : Forward s.core) (hw : ∃ w, worker w = true)
    (hself : s.core.stage t = .blocked → ¬ s.core.Edge (.post t) (.pre t)) (ht : t < s.core.next)
    (hp : ∀ p, s.core.Earlier p t → s.core.phase (.post p) ≠ .open) : s.core.stage t = .done := by
  have hhand := hQ.stage hS hI hO hw t
  have hborn : s.core.stage t ≠ .unborn := fun h => by
    have := (hI.events.born t).mp h
    omega
  cases hst : s.core.stage t <;> rw [hst] at hhand <;> simp_all [Stage.inHand]
  -- a blocked task waits for an entry
  obtain ⟨d, hd, hdst, hopen, i, hok⟩ := hQ.open_of_waits hS hI hO (hI.events.blocked t hst)
  rcases hok.shape with ⟨p, u, hsrc, hdst', -⟩ | ⟨_, u, -, hdst', -⟩ | ⟨x, -, hdst', -⟩
  · obtain rfl : u = t := EventPtr.pre.inj (hdst'.symm.trans hdst)
    rw [hsrc] at hopen
    rcases hF p u ⟨d, hd, hsrc, hdst⟩ with ⟨rfl, -⟩ | h
    · exact hself ⟨d, hd, hsrc, hdst⟩
    · exact hp p h hopen
  · rw [hdst] at hdst'
    cases hdst'
  · rw [hdst] at hdst'
    cases hdst'

/-- An external event that is not fired is live. -/
theorem live_of_open (hQ : Quiet worker s) (hS : Shape worker s) (hI : Inv s.core (frames s.threads))
    (hO : Order s.core (frames s.threads)) {x : Nat} (hx : x < s.core.nextEvent)
    (hne : s.core.extStage x ≠ .fired) : s.core.extStage x = .live := by
  cases hst : s.core.extStage x with
  | unborn =>
      have := (hI.events.event x).mp hst
      omega
  | creating =>
      have hone := hI.ledger.event x
      rw [hst] at hone
      obtain ⟨f, hf, hmem⟩ := exists_of_tally_pos (by rw [hone]; decide)
      rcases hQ.frame hS hI hO hf with rfl | ⟨y, rfl, -⟩ <;> simp [Frame.events] at hmem
  | live => rfl
  | fired => exact absurd hst hne

/-- A task that is done but has not reached its post-event waits for a child. -/
theorem exists_child (hQ : Quiet worker s) (hS : Shape worker s) (hI : Inv s.core (frames s.threads))
    (hO : Order s.core (frames s.threads)) (hext : ∀ x, s.core.extStage x ≠ .live)
    (hdone : s.core.stage t = .done) (hopen : s.core.phase (.post t) = .open) :
    ∃ u, s.core.Child t u ∧ s.core.phase (.post u) = .open := by
  have hcount := hI.events.counter (.post t)
  have hne := (hI.events.open_iff (.post t)).mp hopen
  rw [Core.units, hdone] at hcount
  simp only [Stage.postUnits, Nat.zero_add] at hcount
  obtain ⟨d, hd, hdst, hsrc, i, hok⟩ :=
    hQ.open_of_waits hS hI hO (e := .post t) (by omega)
  rcases hok.shape with ⟨_, _, -, hdst', -⟩ | ⟨u, v, hsrc', hdst', hu, hsp⟩ | ⟨x, hsrc', -, hx⟩
  · rw [hdst] at hdst'
    cases hdst'
  · obtain rfl : v = t := EventPtr.post.inj (hdst'.symm.trans hdst)
    exact ⟨u, ⟨hu, hsp⟩, hsrc' ▸ hsrc⟩
  · -- nobody has notified the external event
    rw [hsrc'] at hsrc
    have hcx := hI.events.counter (.external x)
    have hnx := (hI.events.open_iff (.external x)).mp hsrc
    rw [hI.events.pending_eq_zero_of_shape (by simp), Core.units] at hcx
    refine absurd (hQ.live_of_open hS hI hO hx fun hfired => ?_) (hext x)
    rw [if_pos hfired] at hcx
    omega

/-- The earlier tasks of a task come to an end before it, and so do its children: the induction
goes down the tree first, and there from the oldest child to the youngest. -/
theorem reached_of_earlier (hQ : Quiet worker s) (hS : Shape worker s)
    (hI : Inv s.core (frames s.threads)) (hO : Order s.core (frames s.threads))
    (hF : Forward s.core) (hw : ∃ w, worker w = true) (hext : ∀ x, s.core.extStage x ≠ .live)
    (hself : ∀ t, s.core.stage t = .blocked → ¬ s.core.Edge (.post t) (.pre t)) (n : Nat)
    (hn : s.core.next ≤ t + n) (ht : t < s.core.next)
    (hp : ∀ p, s.core.Earlier p t → s.core.phase (.post p) ≠ .open) :
    s.core.phase (.post t) ≠ .open := by
  induction n generalizing t with
  | zero => omega
  | succ n ih =>
      intro hopen
      have hdone := hQ.done_of_earlier hS hI hO hF hw (hself t) ht hp
      have hex := hQ.exists_child hS hI hO hext hdone hopen
      classical
      -- the oldest child that has not reached its post-event
      obtain ⟨⟨hu, hsp⟩, huopen⟩ := Nat.find_spec hex
      have hlt := (hI.lists.parent _ t hu hsp).1
      refine ih (by omega) hu (fun p hearlier hpo => ?_) huopen
      exact Nat.find_min hex hearlier.1
        ⟨⟨hearlier.1.trans hu, hearlier.2.trans hsp⟩, hpo⟩

theorem reached (hQ : Quiet worker s) (hS : Shape worker s) (hI : Inv s.core (frames s.threads))
    (hO : Order s.core (frames s.threads)) (hF : Forward s.core) (hw : ∃ w, worker w = true)
    (hext : ∀ x, s.core.extStage x ≠ .live)
    (hself : ∀ t, s.core.stage t = .blocked → ¬ s.core.Edge (.post t) (.pre t))
    (ht : t < s.core.next) : s.core.phase (.post t) ≠ .open := by
  induction t using Nat.strong_induction_on with
  | _ t ih =>
      exact hQ.reached_of_earlier hS hI hO hF hw hext hself s.core.next (Nat.le_add_left _ _) ht
        fun p hp => ih p hp.1 (hp.1.trans ht)

/-- No `get` is left when all tasks are done. -/
theorem not_get (hQ : Quiet worker s) (hS : Shape worker s) (hI : Inv s.core (frames s.threads))
    (hO : Order s.core (frames s.threads)) (hdone : ∀ t, t < s.core.next → s.core.stage t = .done)
    (x : Nat) : Frame.get x ∉ frames s.threads := by
  intro hf
  have hone : 0 < tally Frame.gets (frames s.threads) x := tally_pos hf (by simp [Frame.gets])
  rw [hI.ledger.get x] at hone
  rcases hh : s.core.handles[x]? with - | ⟨u, σ⟩
  · simp [hh] at hone
  obtain rfl := hI.ledger.status_eq hf hh
  -- the `Future` that is read is one of a task, whose result is set
  have hspend := hI.ledger.spend u
  have hpos : 0 < s.core.unspent u :=
    List.countP_pos_iff.mpr ⟨_, List.mem_of_getElem? hh, by simp [Handle.unspent]⟩
  have hu : u < s.core.next := by
    by_contra hge
    simp [hge] at hspend
    omega
  have hcount := hI.events.counter (.resultSet u)
  rw [hI.events.pending_eq_zero_of_shape (by simp), Core.units, hdone u hu] at hcount
  rcases hQ.frame hS hI hO hf with h | ⟨y, hy, hwaits⟩
  · cases h
  · cases hy
    exact hwaits _ hh hcount

end Quiet

/-! ### The end of a run -/

/-- Everything is done and put away. -/
structure AtRest (s : State Tid V) : Prop where
  main : s.core.code none = .done
  tasks : ∀ t, t < s.core.next → s.core.stage t = .done ∧ s.core.counter (.post t) = 0
  events : ∀ x, x < s.core.nextEvent → s.core.extStage x = .fired
  /-- No thread stands inside the runtime, … -/
  threads : ∀ i, s.threads i = [] ∨ s.threads i = [.body none]
  queues : s.core.emplaced = [] ∧ s.core.ready = []
  unlocked : ∀ r, s.core.locked r = false
  /-- … every follower has been notified once, … -/
  followers : ∀ d ∈ s.core.followers, d.counted = true ∧ d.notified = 1
  /-- … the user lists are empty but for tombstones, … -/
  users : ∀ r, ∀ u ∈ s.core.users r, u.removed = true
  /-- … and a task is freed unless a `Future` still holds its result. -/
  freed : ∀ t, t < s.core.next → s.core.freed t + s.core.unspent t = 1

theorem Quiet.atRest [Fintype Tid] {worker : Tid → Bool} {s : State Tid V} (hQ : Quiet worker s)
    (hS : Shape worker s) (hI : Inv s.core (frames s.threads))
    (hO : Order s.core (frames s.threads)) (hF : Forward s.core)
    (hR : Removal s.core (frames s.threads)) (hw : ∃ w, worker w = true)
    (hext : ∀ x, s.core.extStage x ≠ .live)
    (hself : ∀ t, s.core.stage t = .blocked → ¬ s.core.Edge (.post t) (.pre t)) : AtRest s := by
  have hreached : ∀ t, t < s.core.next → s.core.phase (.post t) ≠ .open := fun t ht =>
    hQ.reached hS hI hO hF hw hext hself ht
  have hdone : ∀ t, t < s.core.next → s.core.stage t = .done := fun t ht =>
    hI.events.done_of_reached (hreached t ht)
  have hget := hQ.not_get hS hI hO hdone
  have hgone : ∀ t, t < s.core.next → s.core.phase (.post t) = .gone := fun t ht =>
    (hQ.phase hS hI hO (.post t)).resolve_left (hreached t ht)
  have hfired : ∀ x, x < s.core.nextEvent → s.core.extStage x = .fired := by
    intro x hx
    by_contra hne
    exact hext x (hQ.live_of_open hS hI hO hx hne)
  have hframe : ∀ f ∈ frames s.threads, f = .body none := by
    intro f hf
    rcases hQ.frame hS hI hO hf with h | ⟨x, rfl, -⟩
    · exact h
    · exact absurd hf (hget x)
  -- a list of frames that no quiet state has
  have hzero : ∀ {K : Type} [BEq K] [LawfulBEq K] (g : Frame → List K) (k : K),
      g (.body none) = [] → tally g (frames s.threads) k = 0 := by
    intro K _ _ g k hg
    by_contra hne
    obtain ⟨f, hf, hmem⟩ := exists_of_tally_pos (Nat.pos_of_ne_zero hne)
    rw [hframe f hf, hg] at hmem
    simp at hmem
  exact {
    main := by
      have hone : tally Frame.tasks (frames s.threads) (none, .run) +
        s.core.queued.count (none, .run) = 1 := hI.ledger.task none .run
      obtain ⟨he, hr⟩ := hQ.queues hS hI hO hw
      rw [Core.queued, he, hr, List.map_nil, List.map_nil, List.append_nil, List.count_nil,
        Nat.add_zero] at hone
      obtain ⟨f, hf, -⟩ := exists_of_tally_pos (by rw [hone]; decide)
      rw [hframe f hf] at hf
      obtain ⟨i, hi⟩ := mem_frames.mp hf
      rcases hQ.stack hS hI hO i with h | ⟨-, ⟨-, h⟩ | ⟨x, -, h | h⟩⟩
      · simp [h] at hi
      · exact h
      · simp [h] at hi
      · exact absurd (mem_frames.mpr ⟨i, by simp [h]⟩) (hget x)
    tasks := fun t ht => ⟨hdone t ht, by
      have := (hI.events.open_iff (.post t)).not.mp (hreached t ht)
      omega⟩
    events := hfired
    threads := by
      intro i
      rcases hQ.stack hS hI hO i with h | ⟨-, ⟨h, -⟩ | ⟨x, -, h | h⟩⟩
      · exact .inl h
      · exact .inr h
      · exact absurd (mem_frames.mpr ⟨i, by simp [h]⟩) (hget x)
      · exact absurd (mem_frames.mpr ⟨i, by simp [h]⟩) (hget x)
    queues := hQ.queues hS hI hO hw
    unlocked := hQ.not_locked hS hI hO
    followers := by
      intro d hd
      obtain ⟨i, hi⟩ := List.mem_iff_getElem?.mp hd
      have hok := hI.events.edge i d hi
      have hsrc : s.core.phase d.src = .gone := by
        rcases hok.shape with ⟨p, t, h, -, hp⟩ | ⟨t, u, h, -, ht, -⟩ | ⟨x, h, -, hx⟩
        · rw [h]
          exact hgone p hp
        · rw [h]
          exact hgone t ht
        · rw [h]
          refine (hQ.phase hS hI hO _).resolve_left fun ho => ?_
          have hcx := hI.events.counter (.external x)
          have hnx := (hI.events.open_iff (.external x)).mp ho
          rw [hI.events.pending_eq_zero_of_shape (by simp), Core.units, if_pos (hfired x hx)] at hcx
          omega
      refine ⟨?_, by rw [hok.notified, hsrc]; rfl⟩
      by_contra hne
      have := hok.counted (by simpa using hne)
      rw [hsrc] at this
      simp [Phase.early] at this
    users := by
      intro r u hu
      obtain ⟨k, hk⟩ := List.mem_iff_getElem?.mp hu
      obtain ⟨t, b⟩ := u
      have hmem : (r, k) ∈ s.core.entries t := (hI.lists.mem_iff t r k).mpr ⟨b, hk⟩
      have ht : t < s.core.next := hI.events.lt_next fun h => by
        rw [hI.lists.unborn t h] at hmem
        simp at hmem
      have := hI.lists.drained t (by rw [hgone t ht]; rfl) r k hmem
      rw [hk] at this
      simpa using this
    freed := by
      intro t ht
      have hfr := hR.freed t
      have hsp := hI.ledger.spend t
      rw [hzero Frame.frees t rfl, goneBit_eq_one.mpr (hgone t ht)] at hfr
      rw [hzero Frame.spends t rfl] at hsp
      have hcount := hI.events.counter (.resultGet t)
      have hopen := hI.events.open_iff (.resultGet t)
      rw [hI.events.pending_eq_zero_of_shape (by simp), Core.units] at hcount
      rcases hQ.phase hS hI hO (.resultGet t) with h | h
      · rw [goneBit_of_ne (by rw [h]; simp)] at hfr
        have hg : s.core.getSpent t = false := by
          by_contra hne
          rw [if_pos (by simpa using hne)] at hcount
          exact hopen.mp h hcount
        simp only [ht, hg, decide_true, Bool.not_false, Bool.and_true, Bool.toNat_true] at hsp
        omega
      · rw [goneBit_eq_one.mpr h] at hfr
        have hg : s.core.getSpent t = true := by
          by_contra hne
          rw [if_neg hne] at hcount
          rw [h] at hopen
          simp [hcount] at hopen
        simp only [hg, Bool.not_true, Bool.and_false, Bool.toNat_false] at hsp
        omega }

end RedGrapes.Runtime
