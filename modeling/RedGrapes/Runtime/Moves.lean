/-
RedGrapes/Runtime/Moves.lean

What one step of the runtime can do.  `Move c old c' new` lists the
transitions of the model by name: the frames `old` on top of a stack are
replaced by `new` while the shared state goes from `c` to `c'`.  Every step of
the machine is a move of one thread (`step_move`), so an invariant over the
shared state and the multiset of all frames is proved by going through the
moves once (`invariant_of_moves`).
-/
import RedGrapes.Runtime.Model

namespace RedGrapes.Runtime

open Function Machine

variable {V : Type}

/-- The transitions of the runtime. -/
inductive Move : Core V → List Frame → Core V → List Frame → Prop
  -- user code
  | bodyDone {c : Core V} {t} (hcode : c.code (some t) = .done) :
      Move c [.body (some t)] (c.setStage t .result) [.setResult t]
  | read {c : Core V} {cur r k} (hcode : c.code cur = .read r k) :
      Move c [.body cur] { c with code := update c.code cur (k (c.store r)) } [.body cur]
  | write {c : Core V} {cur r v k} (hcode : c.code cur = .write r v k) :
      Move c [.body cur]
        { c with code := update c.code cur k, store := update c.store r v } [.body cur]
  | emplaceRoot {c : Core V} {calls child k} (hcode : c.code none = .emplace calls child k) :
      Move c [.body none] (c.create none calls child k)
        [.submit (.users ((c.create none calls child k).resourcesOf c.next)) c.next none]
  | emplaceChild {c : Core V} {u calls child k} (hcode : c.code (some u) = .emplace calls child k) :
      Move c [.body (some u)] (c.create (some u) calls child k)
        [.submit .follower c.next (some u)]
  | noEvent {c : Core V} {k} (hcode : c.code none = .createEvent k) :
      Move c [.body none] { c with code := update c.code none k } [.body none]
  | createEvent {c : Core V} {t k} (hcode : c.code (some t) = .createEvent k) :
      Move c [.body (some t)]
        { c.pushFollower (.external c.nextEvent) (.post t) with
          code := update c.code (some t) k
          nextEvent := c.nextEvent + 1
          extTask := update c.extTask c.nextEvent t
          extStage := update c.extStage c.nextEvent .creating }
        [.makeEvent c.followers.length c.nextEvent t]
  | makeEvent {c : Core V} {i x t} :
      Move c [.makeEvent i x t]
        { c.count i (.post t) with extStage := update c.extStage x .live } [.body (some t)]
  -- submit
  | parentReached {c : Core V} {t u} (h : c.counter (.post t) = 0) :
      Move c [.submit .follower t (some u)] c [.submit (.users (c.resourcesOf t)) t (some u)]
  | parentFollower {c : Core V} {t u} (h : c.counter (.post t) ≠ 0) :
      Move c [.submit .follower t (some u)] (c.pushFollower (.post t) (.post u))
        [.submit (.count c.followers.length) t (some u)]
  | parentCount {c : Core V} {i t u} :
      Move c [.submit (.count i) t (some u)] (c.count i (.post u))
        [.submit (.users (c.resourcesOf t)) t (some u)]
  | pushUser {c : Core V} {r rs t cur} :
      Move c [.submit (.users (r :: rs)) t cur] (c.pushUser t r) [.submit (.users rs) t cur]
  | emplaced {c : Core V} {t cur} :
      Move c [.submit (.users []) t cur]
        { c.setStage t .emplaced with emplaced := c.emplaced ++ [t] } [.submit .future t cur]
  | future {c : Core V} {t cur} :
      Move c [.submit .future t cur] { c with handles := c.handles ++ [⟨t, .live⟩] } [.body cur]
  -- init_dependencies
  | popEmplaced {c : Core V} {t} (h : t ∈ c.emplaced) :
      Move c [] { c.setStage t .popped with emplaced := c.emplaced.erase t } [.init .up t]
  | initUp {c : Core V} {t} :
      Move c [.init .up t] ((c.up (.pre t)).setStage t .init) [.init (.resources (c.entries t)) t]
  | claim {c : Core V} {t} (h : c.counter (.pre t) = 2) :
      Move c [.init (.resources []) t]
        { (c.fetchSub (.pre t)).setStage t .exec with
          handed := update c.handed t (c.handed t + 1) }
        (c.notifyTail (.pre t) true ++ [.exec t])
  | block {c : Core V} {t} (h : c.counter (.pre t) ≠ 2) :
      Move c [.init (.resources []) t] ((c.fetchSub (.pre t)).setStage t .blocked)
        (c.notifyTail (.pre t) true)
  | initLock {c : Core V} {r k es t} (h : c.locked r = false) :
      Move c [.init (.resources ((r, k) :: es)) t]
        { c with locked := update c.locked r true } [.init (.scan r k es) t]
  | scanEnd {c : Core V} {r es t} :
      Move c [.init (.scan r 0 es) t] c [.init (.unlock r es) t]
  | scanRemoved {c : Core V} {r k es t p} (h : (c.users r)[k]? = some ⟨p, true⟩) :
      Move c [.init (.scan r (k + 1) es) t] c [.init (.scan r k es) t]
  | scanParent {c : Core V} {r k es t p} (h : (c.users r)[k]? = some ⟨p, false⟩)
      (hv : verdict c.info t p = .stop) :
      Move c [.init (.scan r (k + 1) es) t] c [.init (.unlock r es) t]
  | scanSkip {c : Core V} {r k es t p} (h : (c.users r)[k]? = some ⟨p, false⟩)
      (hv : verdict c.info t p = .skip) :
      Move c [.init (.scan r (k + 1) es) t] c [.init (.scan r k es) t]
  | scanDepend {c : Core V} {r k es t p} (h : (c.users r)[k]? = some ⟨p, false⟩)
      (hv : verdict c.info t p = .depend) :
      Move c [.init (.scan r (k + 1) es) t] c [.init (.check r k p es) t]
  | checkReached {c : Core V} {r k p es t} (h : c.counter (.post p) = 0) :
      Move c [.init (.check r k p es) t] c [.init (.next r k p es) t]
  | checkOpen {c : Core V} {r k p es t} (h : c.counter (.post p) ≠ 0) :
      Move c [.init (.check r k p es) t] c [.init (.follow r k p es) t]
  | followReached {c : Core V} {r k p es t} (h : c.counter (.post p) = 0) :
      Move c [.init (.follow r k p es) t] c [.init (.next r k p es) t]
  | followOpen {c : Core V} {r k p es t} (h : c.counter (.post p) ≠ 0) :
      Move c [.init (.follow r k p es) t] c [.init (.push r k p es) t]
  | push {c : Core V} {r k p es t} :
      Move c [.init (.push r k p es) t] (c.pushFollower (.post p) (.pre t))
        [.init (.count r k p es c.followers.length) t]
  | count {c : Core V} {r k p es i t} :
      Move c [.init (.count r k p es i) t] (c.count i (.pre t)) [.init (.next r k p es) t]
  | nextSync {c : Core V} {r k p es t} (h : (c.info p).user.hasSyncAccess r = true) :
      Move c [.init (.next r k p es) t] c [.init (.unlock r es) t]
  | nextScan {c : Core V} {r k p es t} (h : (c.info p).user.hasSyncAccess r = false) :
      Move c [.init (.next r k p es) t] c [.init (.scan r k es) t]
  | initUnlock {c : Core V} {r es t} :
      Move c [.init (.unlock r es) t] { c with locked := update c.locked r false }
        [.init (.resources es) t]
  -- execute_task
  | popReady {c : Core V} {t} (h : t ∈ c.ready) :
      Move c [] { c.setStage t .exec with ready := c.ready.erase t } [.exec t]
  | exec {c : Core V} {t} :
      Move c [.exec t] ((c.fetchSub (.pre t)).setStage t .run)
        (c.notifyTail (.pre t) false ++ [.body (some t)])
  | setResult {c : Core V} {t} :
      Move c [.setResult t] ((c.fetchSub (.resultSet t)).setStage t .finish)
        (c.notifyTail (.resultSet t) false ++ [.finish t])
  | finish {c : Core V} {t} :
      Move c [.finish t] ((c.fetchSub (.post t)).setStage t .done)
        (c.notifyTail (.post t) false)
  -- external events and futures
  | fire {c : Core V} {x} (h : c.extStage x = .live) :
      Move c [] { c.fetchSub (.external x) with extStage := update c.extStage x .fired }
        (c.notifyTail (.external x) false)
  | moveLive {c : Core V} {h t : Nat} (hh : c.handles[h]? = some ⟨t, .live⟩) :
      Move c [] { c with handles := c.handles.set h ⟨t, .taken⟩ ++ [⟨t, .live⟩] } []
  | moveTaken {c : Core V} {h t : Nat} (hh : c.handles[h]? = some ⟨t, .taken⟩) :
      Move c [] { c with handles := c.handles ++ [⟨t, .taken⟩] } []
  | destroyLive {c : Core V} {h t : Nat} (hh : c.handles[h]? = some ⟨t, .live⟩) :
      Move c [] { c with handles := c.handles.set h ⟨t, .destroyed⟩ } [.notifyGet t]
  | destroyTaken {c : Core V} {h t : Nat} (hh : c.handles[h]? = some ⟨t, .taken⟩) :
      Move c [] { c with handles := c.handles.set h ⟨t, .destroyed⟩ } []
  | getFuture {c : Core V} {h t : Nat} (hh : c.handles[h]? = some ⟨t, .live⟩) :
      Move c [] { c with handles := c.handles.set h ⟨t, .inGet⟩ } [.get h]
  | get {c : Core V} {h t : Nat} {σ} (hh : c.handles[h]? = some ⟨t, σ⟩)
      (hset : c.counter (.resultSet t) = 0) :
      Move c [.get h] { c with handles := c.handles.set h ⟨t, .taken⟩ } [.notifyGet t]
  | notifyGet {c : Core V} {t} :
      Move c [.notifyGet t]
        { c.fetchSub (.resultGet t) with getSpent := update c.getSpent t true }
        (c.notifyTail (.resultGet t) false)
  -- the rest of notify
  | wakerPost {c : Core V} {t b} :
      Move c [.waker (.post t) 1 b] c [.delete (.resources (c.entries t)) t]
  | wakerReached {c : Core V} {e b} (h : ∀ t, e ≠ .post t) :
      Move c [.waker e 1 b] (c.setPhase e .drained) [.loop e]
  | wakerReady {c : Core V} {t} : Move c [.waker (.pre t) 2 false] c [.activate t]
  | wakerEnd {c : Core V} {e old b} (h : old ≠ 1)
      (h2 : old = 2 → ∀ t, e = .pre t → b = true) : Move c [.waker e old b] c []
  | activate {c : Core V} {t} :
      Move c [.activate t]
        { c with ready := c.ready ++ [t], handed := update c.handed t (c.handed t + 1) } []
  | deleteEnd {c : Core V} {t} :
      Move c [.delete (.resources []) t] (c.setPhase (.post t) .drained) [.loop (.post t)]
  | deleteLock {c : Core V} {r k es t} (h : c.locked r = false) :
      Move c [.delete (.resources ((r, k) :: es)) t]
        { c with locked := update c.locked r true } [.delete (.remove r k es) t]
  | deleteRemove {c : Core V} {r k es t} :
      Move c [.delete (.remove r k es) t] (c.removeUser r k) [.delete (.unlock r es) t]
  | deleteUnlock {c : Core V} {r es t} :
      Move c [.delete (.unlock r es) t] { c with locked := update c.locked r false }
        [.delete (.resources es) t]
  | loop {c : Core V} {e} :
      Move c [.loop e] (c.setPhase e (.looping (c.followersOf e))) [.followers e (c.followersOf e)]
  | notifyFollower {c : Core V} {e i todo d} (hd : c.followers[i]? = some d) :
      Move c [.followers e (i :: todo)]
        { (c.fetchSub d.dst).setPhase e (.looping todo) with
          followers := c.followers.set i { d with notified := d.notified + 1 } }
        (c.notifyTail d.dst false ++ [.followers e todo])
  | loopedRemoval {c : Core V} {e t} (h : e = .post t ∨ e = .resultGet t) :
      Move c [.followers e []] (c.setPhase e .looped) [.removal e t]
  | loopedEnd {c : Core V} {e} (h : ∀ t, e ≠ .post t ∧ e ≠ .resultGet t) :
      Move c [.followers e []] (c.setPhase e .gone) []
  | removal {c : Core V} {e t} :
      Move c [.removal e t]
        { c.setPhase e .gone with
          removalCountdown := update c.removalCountdown t ((c.removalCountdown t + 255) % 256) }
        (if c.removalCountdown t = 1 then [.free t] else [])
  | free {c : Core V} {t} : Move c [.free t] (c.freeTask t) []

/-! ### Steps are moves -/

section Inversion

variable {c c' : Core V} {new : List Frame}

theorem move_of_transBody {cur : Option Nat} (h : c.transBody cur = some (c', new)) :
    Move c [.body cur] c' new := by
  unfold Core.transBody at h
  rcases hcode : c.code cur with - | ⟨r, k⟩ | ⟨r, v, k⟩ | ⟨calls, child, k⟩ | ⟨k⟩ <;>
    rw [hcode] at h
  · cases cur with
    | none => simp at h
    | some t =>
        obtain ⟨rfl, rfl⟩ := Prod.mk.injEq .. ▸ Option.some.inj h
        exact .bodyDone hcode
  · obtain ⟨rfl, rfl⟩ := Prod.mk.injEq .. ▸ Option.some.inj h
    exact .read hcode
  · obtain ⟨rfl, rfl⟩ := Prod.mk.injEq .. ▸ Option.some.inj h
    exact .write hcode
  · cases cur with
    | none =>
        obtain ⟨rfl, rfl⟩ := Prod.mk.injEq .. ▸ Option.some.inj h
        exact .emplaceRoot hcode
    | some u =>
        obtain ⟨rfl, rfl⟩ := Prod.mk.injEq .. ▸ Option.some.inj h
        exact .emplaceChild hcode
  · cases cur with
    | none =>
        obtain ⟨rfl, rfl⟩ := Prod.mk.injEq .. ▸ Option.some.inj h
        exact .noEvent hcode
    | some t =>
        obtain ⟨rfl, rfl⟩ := Prod.mk.injEq .. ▸ Option.some.inj h
        exact .createEvent hcode

theorem move_of_transSubmit {t : Nat} {cur : Option Nat} {pc : SubmitPc}
    (h : c.transSubmit t cur pc = some (c', new)) : Move c [.submit pc t cur] c' new := by
  cases pc with
  | follower =>
      cases cur with
      | none => simp [Core.transSubmit] at h
      | some u =>
          simp only [Core.transSubmit] at h
          split_ifs at h with hr <;> obtain ⟨rfl, rfl⟩ := Prod.mk.injEq .. ▸ Option.some.inj h
          · exact .parentReached hr
          · exact .parentFollower hr
  | count i =>
      cases cur with
      | none => simp [Core.transSubmit] at h
      | some u =>
          obtain ⟨rfl, rfl⟩ := Prod.mk.injEq .. ▸ Option.some.inj h
          exact .parentCount
  | users rs =>
      cases rs <;> obtain ⟨rfl, rfl⟩ := Prod.mk.injEq .. ▸ Option.some.inj h
      · exact .emplaced
      · exact .pushUser
  | future =>
      obtain ⟨rfl, rfl⟩ := Prod.mk.injEq .. ▸ Option.some.inj h
      exact .future

theorem move_of_transInit {t : Nat} {pc : InitPc} (h : c.transInit t pc = some (c', new)) :
    Move c [.init pc t] c' new := by
  cases pc with
  | up =>
      obtain ⟨rfl, rfl⟩ := Prod.mk.injEq .. ▸ Option.some.inj h
      exact .initUp
  | resources es =>
      cases es with
      | nil =>
          simp only [Core.transInit] at h
          split_ifs at h with hc <;> obtain ⟨rfl, rfl⟩ := Prod.mk.injEq .. ▸ Option.some.inj h
          · exact .claim hc
          · exact .block hc
      | cons e es =>
          simp only [Core.transInit] at h
          split_ifs at h with hl
          obtain ⟨rfl, rfl⟩ := Prod.mk.injEq .. ▸ Option.some.inj h
          exact .initLock (by simpa using hl)
  | scan r k es =>
      cases k with
      | zero =>
          obtain ⟨rfl, rfl⟩ := Prod.mk.injEq .. ▸ Option.some.inj h
          exact .scanEnd
      | succ k =>
          simp only [Core.transInit] at h
          rcases hu : (c.users r)[k]? with - | ⟨p, removed⟩ <;> rw [hu] at h
          · simp at h
          · cases removed with
            | true =>
                obtain ⟨rfl, rfl⟩ := Prod.mk.injEq .. ▸ Option.some.inj h
                exact .scanRemoved hu
            | false =>
                simp only at h
                rcases hv : verdict c.info t p with - | - | - <;> rw [hv] at h <;>
                  obtain ⟨rfl, rfl⟩ := Prod.mk.injEq .. ▸ Option.some.inj h
                · exact .scanParent hu hv
                · exact .scanSkip hu hv
                · exact .scanDepend hu hv
  | check r k p es =>
      simp only [Core.transInit] at h
      split_ifs at h with hc <;> obtain ⟨rfl, rfl⟩ := Prod.mk.injEq .. ▸ Option.some.inj h
      · exact .checkReached hc
      · exact .checkOpen hc
  | follow r k p es =>
      simp only [Core.transInit] at h
      split_ifs at h with hc <;> obtain ⟨rfl, rfl⟩ := Prod.mk.injEq .. ▸ Option.some.inj h
      · exact .followReached hc
      · exact .followOpen hc
  | push r k p es =>
      obtain ⟨rfl, rfl⟩ := Prod.mk.injEq .. ▸ Option.some.inj h
      exact .push
  | count r k p es i =>
      obtain ⟨rfl, rfl⟩ := Prod.mk.injEq .. ▸ Option.some.inj h
      exact .count
  | next r k p es =>
      simp only [Core.transInit] at h
      split_ifs at h with hs <;> obtain ⟨rfl, rfl⟩ := Prod.mk.injEq .. ▸ Option.some.inj h
      · exact .nextSync hs
      · exact .nextScan (by simpa using hs)
  | unlock r es =>
      obtain ⟨rfl, rfl⟩ := Prod.mk.injEq .. ▸ Option.some.inj h
      exact .initUnlock

theorem move_of_transDelete {t : Nat} {pc : DeletePc} (h : c.transDelete t pc = some (c', new)) :
    Move c [.delete pc t] c' new := by
  cases pc with
  | resources es =>
      cases es with
      | nil =>
          obtain ⟨rfl, rfl⟩ := Prod.mk.injEq .. ▸ Option.some.inj h
          exact .deleteEnd
      | cons e es =>
          simp only [Core.transDelete] at h
          split_ifs at h with hl
          obtain ⟨rfl, rfl⟩ := Prod.mk.injEq .. ▸ Option.some.inj h
          exact .deleteLock (by simpa using hl)
  | remove r k es =>
      obtain ⟨rfl, rfl⟩ := Prod.mk.injEq .. ▸ Option.some.inj h
      exact .deleteRemove
  | unlock r es =>
      obtain ⟨rfl, rfl⟩ := Prod.mk.injEq .. ▸ Option.some.inj h
      exact .deleteUnlock

theorem move_of_transWaker {e : EventPtr} {old : Nat} {b : Bool}
    (h : c.transWaker e old b = (c', new)) : Move c [.waker e old b] c' new := by
  by_cases h1 : old = 1
  · subst h1
    cases e with
    | post t =>
        obtain ⟨rfl, rfl⟩ := Prod.mk.injEq .. ▸ h
        exact .wakerPost
    | _ =>
        obtain ⟨rfl, rfl⟩ := Prod.mk.injEq .. ▸ h
        exact .wakerReached (by simp)
  by_cases h2 : old = 2
  · subst h2
    cases e with
    | pre t =>
        obtain ⟨rfl, rfl⟩ := Prod.mk.injEq .. ▸ h
        cases b with
        | false => exact .wakerReady
        | true => exact .wakerEnd h1 (by simp)
    | _ =>
        obtain ⟨rfl, rfl⟩ := Prod.mk.injEq .. ▸ h
        exact .wakerEnd h1 (by simp)
  · unfold Core.transWaker at h
    rw [if_neg h1, if_neg h2] at h
    obtain ⟨rfl, rfl⟩ := Prod.mk.injEq .. ▸ h
    exact .wakerEnd h1 fun h => absurd h h2

theorem move_of_transLooped {e : EventPtr} (h : c.transLooped e = (c', new)) :
    Move c [.followers e []] c' new := by
  cases e with
  | post t =>
      obtain ⟨rfl, rfl⟩ := Prod.mk.injEq .. ▸ h
      exact .loopedRemoval (.inl rfl)
  | resultGet t =>
      obtain ⟨rfl, rfl⟩ := Prod.mk.injEq .. ▸ h
      exact .loopedRemoval (.inr rfl)
  | _ =>
      obtain ⟨rfl, rfl⟩ := Prod.mk.injEq .. ▸ h
      exact .loopedEnd (by simp)

theorem move_of_trans {f : Frame} (h : c.trans f = some (c', new)) : Move c [f] c' new := by
  cases f with
  | body cur => exact move_of_transBody h
  | submit pc t cur => exact move_of_transSubmit h
  | init pc t => exact move_of_transInit h
  | waker e old b => exact move_of_transWaker (Option.some.inj h)
  | delete pc t => exact move_of_transDelete h
  | get i =>
      simp only [Core.trans] at h
      rcases hh : c.handles[i]? with - | ⟨t, σ⟩ <;> rw [hh] at h
      · simp at h
      · simp only at h
        split_ifs at h with hset
        obtain ⟨rfl, rfl⟩ := Prod.mk.injEq .. ▸ Option.some.inj h
        exact .get hh hset
  | followers e todo =>
      cases todo with
      | nil => exact move_of_transLooped (Option.some.inj h)
      | cons i todo =>
          simp only [Core.trans] at h
          rcases hd : c.followers[i]? with - | d <;> rw [hd] at h
          · simp at h
          · obtain ⟨rfl, rfl⟩ := Prod.mk.injEq .. ▸ Option.some.inj h
            exact .notifyFollower hd
  | _ =>
      obtain ⟨rfl, rfl⟩ := Prod.mk.injEq .. ▸ Option.some.inj h
      constructor

theorem move_of_call {a : Call} (h : c.call a = some (c', new)) : Move c [] c' new := by
  cases a with
  | popEmplaced t =>
      simp only [Core.call] at h
      split_ifs at h with ht
      obtain ⟨rfl, rfl⟩ := Prod.mk.injEq .. ▸ Option.some.inj h
      exact .popEmplaced ht
  | popReady t =>
      simp only [Core.call] at h
      split_ifs at h with ht
      obtain ⟨rfl, rfl⟩ := Prod.mk.injEq .. ▸ Option.some.inj h
      exact .popReady ht
  | fire x =>
      simp only [Core.call] at h
      split_ifs at h with hx
      obtain ⟨rfl, rfl⟩ := Prod.mk.injEq .. ▸ Option.some.inj h
      exact .fire hx
  | moveFuture i =>
      simp only [Core.call] at h
      rcases hh : c.handles[i]? with - | ⟨t, σ⟩ <;> rw [hh] at h
      · simp at h
      · cases σ <;> simp only [Option.some.injEq, Prod.mk.injEq, reduceCtorEq] at h <;>
          obtain ⟨rfl, rfl⟩ := h
        · exact .moveLive hh
        · exact .moveTaken hh
  | destroyFuture i =>
      simp only [Core.call] at h
      rcases hh : c.handles[i]? with - | ⟨t, σ⟩ <;> rw [hh] at h
      · simp at h
      · cases σ <;> simp only [Option.some.injEq, Prod.mk.injEq, reduceCtorEq] at h <;>
          obtain ⟨rfl, rfl⟩ := h
        · exact .destroyLive hh
        · exact .destroyTaken hh
  | getFuture i =>
      simp only [Core.call] at h
      rcases hh : c.handles[i]? with - | ⟨t, σ⟩ <;> rw [hh] at h
      · simp at h
      · cases σ <;> simp only [Option.some.injEq, Prod.mk.injEq, reduceCtorEq] at h
        obtain ⟨rfl, rfl⟩ := h
        exact .getFuture hh

end Inversion

variable {Tid : Type} [DecidableEq Tid]

/-- A step is a move of the top frames of one thread. -/
theorem step_move {s s' : State Tid V} {a : Action Tid} (h : step s a = some s') :
    ∃ (i : Tid) (old new rest : List Frame), s.threads i = old ++ rest ∧
      Move s.core old s'.core new ∧ s'.threads = update s.threads i (new ++ rest) ∧
      ∀ f ∈ old, a = .run i ∧ f ∈ (s.threads i).head? := by
  cases a with
  | run i =>
      simp only [step] at h
      rcases hth : s.threads i with - | ⟨f, rest⟩ <;> rw [hth] at h
      · simp at h
      · obtain ⟨⟨c', new⟩, ht, rfl⟩ := Option.map_eq_some_iff.mp h
        refine ⟨i, [f], new, rest, hth, move_of_trans ht, rfl, fun g hg => ⟨rfl, ?_⟩⟩
        obtain rfl := List.mem_singleton.mp hg
        simp [hth]
  | call i a =>
      simp only [step] at h
      split_ifs at h
      obtain ⟨⟨c', new⟩, ht, rfl⟩ := Option.map_eq_some_iff.mp h
      exact ⟨i, [], new, s.threads i, rfl, move_of_call ht, rfl, fun f hf => by simp at hf⟩

/-! ### Runs -/

section Pool

variable [Fintype Tid]

/-- A step replaces some of the frames of all threads. -/
theorem step_pool {s s' : State Tid V} {a : Action Tid} (h : step s a = some s') :
    ∃ (old new : List Frame) (M : Multiset Frame), frames s.threads = ↑old + M ∧
      frames s'.threads = ↑new + M ∧ Move s.core old s'.core new ∧
      ∀ f ∈ old, ∃ i, a = .run i ∧ f ∈ (s.threads i).head? := by
  obtain ⟨i, old, new, rest, hold, hm, hnew, htop⟩ := step_move h
  obtain ⟨M, h1, h2⟩ := frames_update hold
  refine ⟨old, new, M, h1, ?_, hm, fun f hf => ⟨i, htop f hf⟩⟩
  rw [hnew, h2]

theorem frames_initial (main : Tid) (prog : Body V) (store : Resource → V) :
    frames (State.initial main prog store).threads = {.body none} := by
  have hmain : (State.initial (V := V) main prog store).threads main = [.body none] ++ [] := by
    simp [State.initial]
  obtain ⟨M, h1, h2⟩ := frames_update hmain
  have hidle : frames (update (State.initial (V := V) main prog store).threads main
      ([] ++ [])) = 0 := by
    rw [frames]
    refine Finset.sum_eq_zero fun i _ => ?_
    by_cases e : i = main
    · rw [e, update_self]
      rfl
    · rw [update_of_ne e]
      simp [State.initial, e]
  rw [h2, Multiset.coe_nil, zero_add] at hidle
  rw [h1, hidle, add_zero]
  rfl

omit [DecidableEq Tid] [Fintype Tid] in
theorem NoWrap.upsOn_lt {s : State Tid V} {a : Action Tid} (h : NoWrap s a) {f : Frame}
    (hf : ∃ i, a = .run i ∧ f ∈ (s.threads i).head?) {e : EventPtr} (he : e ∈ f.upsOn) :
    s.core.counter e + 1 < counterSize := by
  obtain ⟨i, rfl, hi⟩ := hf
  exact h f hi e he

/-- An invariant of the shared state and the frames of all threads that the
moves keep holds in every reachable state. -/
theorem invariant_of_moves {I : Core V → Multiset Frame → Prop}
    {main : Tid} {prog : Body V} {store : Resource → V}
    (h₀ : I (Core.initial prog store) {.body none})
    (hmove : ∀ {c c' : Core V} {old new : List Frame} {M : Multiset Frame},
      (∀ f ∈ old, ∀ e ∈ f.upsOn, c.counter e + 1 < counterSize) →
      Move c old c' new → I c (↑old + M) → I c' (↑new + M)) {s : State Tid V}
    (hs : Reaches step NoWrap (State.initial main prog store) s) :
    I s.core (frames s.threads) := by
  refine Reaches.invariant (I := fun s : State Tid V => I s.core (frames s.threads)) ?_ ?_ hs
  · rw [frames_initial]
    exact h₀
  · intro s a s' hI hok hstep
    obtain ⟨old, new, M, h1, h2, hm, htop⟩ := step_pool hstep
    rw [h1] at hI
    rw [h2]
    exact hmove (fun f hf e he => hok.upsOn_lt (htop f hf) he) hm hI

end Pool

end RedGrapes.Runtime
