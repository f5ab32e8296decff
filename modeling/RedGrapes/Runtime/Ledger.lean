/-
RedGrapes/Runtime/Ledger.lean

Who has what in hand.  A frame on some stack holds tokens: a task at a stage, a
lock, a follower entry that still has to be counted, the right to notify a
result-get-event, an event whose notification is under way.  The ledger says
that for every token the pool holds exactly as many copies as the shared state
accounts for; in particular nothing is ever in two hands.
-/
import RedGrapes.Runtime.Moves

namespace RedGrapes.Runtime

open Function Machine

/-! ### Tokens -/

/-- Stages at which a task is in the hands of a frame or in a queue. -/
def Stage.inHand : Stage → Bool
  | .unborn | .blocked | .done => false
  | _ => true

/-- Phases at which the notification of an event is in the hands of a frame. -/
def Phase.inHand : Phase → Bool
  | .open | .gone => false
  | _ => true

namespace Frame

/-- The tasks in hand with their stages; `none` is the main program. -/
def tasks : Frame → List (Option Nat × Stage)
  | .body cur => [(cur, .run)]
  | .submit .future _ cur => [(cur, .run)]
  | .submit _ t cur => [(some t, .submit), (cur, .run)]
  | .makeEvent _ _ t => [(some t, .run)]
  | .init .up t => [(some t, .popped)]
  | .init _ t => [(some t, .init)]
  | .exec t => [(some t, .exec)]
  | .setResult t => [(some t, .result)]
  | .finish t => [(some t, .finish)]
  | .waker (.pre t) 2 false => [(some t, .active)]
  | .activate t => [(some t, .active)]
  | _ => []

/-- The locks held. -/
def locks : Frame → List Resource
  | .init (.scan r _ _) _ => [r]
  | .init (.check r _ _ _) _ => [r]
  | .init (.follow r _ _ _) _ => [r]
  | .init (.push r _ _ _) _ => [r]
  | .init (.count r _ _ _ _) _ => [r]
  | .init (.next r _ _ _) _ => [r]
  | .init (.unlock r _) _ => [r]
  | .delete (.remove r _ _) _ => [r]
  | .delete (.unlock r _) _ => [r]
  | _ => []

/-- The follower entries pushed and not yet counted. -/
def edges : Frame → List Nat
  | .submit (.count i) _ _ => [i]
  | .makeEvent i _ _ => [i]
  | .init (.count _ _ _ _ i) _ => [i]
  | _ => []

/-- The external events under construction. -/
def events : Frame → List Nat
  | .makeEvent _ x _ => [x]
  | _ => []

/-- The tasks whose result-get-event the frame will see notified. -/
def spends : Frame → List Nat
  | .submit _ t _ => [t]
  | .notifyGet t => [t]
  | _ => []

/-- The `Future` objects inside `get`. -/
def gets : Frame → List Nat
  | .get h => [h]
  | _ => []

/-- The events whose notification is under way. -/
def notifies : Frame → List (EventPtr × Phase)
  | .waker e 1 _ => [(e, .reached)]
  | .delete _ t => [(.post t, .reached)]
  | .loop e => [(e, .drained)]
  | .followers e todo => [(e, .looping todo)]
  | .removal e _ => [(e, .looped)]
  | _ => []

end Frame

/-- The stage of a task; the main program is always running. -/
def stageIn (st : Nat → Stage) : Option Nat → Stage
  | none => .run
  | some t => st t

/-- The `Future` object still has to notify the result-get-event of `t`. -/
def Handle.unspent (h : Handle) (t : Nat) : Bool :=
  h.task == t && (h.status == .live || h.status == .inGet)

variable {V : Type}

namespace Core

/-- The tasks in the queues with their stages. -/
def queued (c : Core V) : List (Option Nat × Stage) :=
  c.emplaced.map (fun t => (some t, .emplaced)) ++ c.ready.map fun t => (some t, .active)

/-- The follower entry `i` is pushed and not counted. -/
def uncounted (c : Core V) (i : Nat) : Bool := (c.followers[i]?).any fun d => !d.counted

/-- The `Future` objects that still have to notify the result-get-event of `t`. -/
def unspent (c : Core V) (t : Nat) : Nat := c.handles.countP (·.unspent t)

end Core

/-- The ledger of the shared state `c` and the frames `M`. -/
structure Ledger (c : Core V) (M : Multiset Frame) : Prop where
  task : Held Stage.inHand (stageIn c.stage) fun cur σ =>
    tally Frame.tasks M (cur, σ) + c.queued.count (cur, σ)
  lock : ∀ r, tally Frame.locks M r = (c.locked r).toNat
  edge : ∀ i, tally Frame.edges M i = (c.uncounted i).toNat
  event : ∀ x, tally Frame.events M x = (c.extStage x == .creating).toNat
  spend : ∀ t, tally Frame.spends M t + c.unspent t =
    (decide (t < c.next) && !c.getSpent t).toNat
  get : ∀ h, tally Frame.gets M h = ((c.handles[h]?).any (·.status == .inGet)).toNat
  notify : Held Phase.inHand c.phase fun e ph => tally Frame.notifies M (e, ph)

/-- What the ledger needs to know of the shared state: fresh names are unused,
an event with one unit left has not been reached, and the one unit left to a
pre-event is either waited for or in the hands of the executing worker. -/
structure Fresh (c : Core V) : Prop where
  born : ∀ t, c.stage t = .unborn ↔ c.next ≤ t
  event : ∀ x, c.extStage x = .unborn ↔ c.nextEvent ≤ x
  spent : ∀ t, c.getSpent t = true → t < c.next
  one : ∀ e, c.counter e = 1 → c.phase e = .open
  exec : ∀ t, c.stage t = .exec → c.counter (.pre t) ≠ 2
  notify : ∀ e i todo d t, c.phase e = .looping (i :: todo) → c.followers[i]? = some d →
    d.dst = .pre t → c.counter (.pre t) = 2 → c.stage t = .blocked

theorem stageIn_update (st : Nat → Stage) (t : Nat) (σ : Stage) :
    stageIn (update st t σ) = update (stageIn st) (some t) σ := by
  funext cur
  cases cur with
  | none => rfl
  | some u =>
      by_cases e : u = t
      · subst e
        simp [stageIn]
      · simp [stageIn, e]

/-! ### Tokens of a notification -/

section Tail

variable {c : Core V} {e : EventPtr} {b : Bool}

/-- A frame in `waker` has a task in hand only if it is about to activate it. -/
theorem tasks_waker {old : Nat} (h : old = 2 → ∀ t, e = .pre t → b = true) :
    Frame.tasks (.waker e old b) = [] := by
  unfold Frame.tasks
  split <;> simp_all

/-- It has a notification in hand only if it has taken the last unit. -/
theorem notifies_waker {old : Nat} (h : old ≠ 1) : Frame.notifies (.waker e old b) = [] := by
  unfold Frame.notifies
  split <;> simp_all

/-- A notification that leaves more than one unit holds no token, and what
nothing but `waker` frames hold is never held. -/
theorem flatMap_notifyTail {K : Type*} {g : Frame → List K} (h : ∀ old, g (.waker e old b) = []) :
    (c.notifyTail e b).flatMap g = [] := by
  unfold Core.notifyTail
  split_ifs
  · rfl
  · simp [h]

theorem tasks_notifyTail_claimed : (c.notifyTail e true).flatMap Frame.tasks = [] :=
  flatMap_notifyTail fun _ => tasks_waker fun _ _ _ => rfl

theorem tasks_notifyTail (h : ∀ t, e = .pre t → c.counter e ≠ 2) :
    (c.notifyTail e false).flatMap Frame.tasks = [] := by
  unfold Core.notifyTail
  split_ifs
  · rfl
  · rw [List.flatMap_singleton]
    exact tasks_waker fun htwo t he => absurd htwo (h t he)

theorem tasks_notifyTail_ready {t : Nat} (h : c.counter (.pre t) = 2) :
    (c.notifyTail (.pre t) false).flatMap Frame.tasks = [(some t, .active)] := by
  simp [Core.notifyTail, h, Frame.tasks]

theorem notifies_notifyTail :
    (c.notifyTail e b).flatMap Frame.notifies = if c.counter e = 1 then [(e, .reached)] else [] := by
  unfold Core.notifyTail
  split_ifs with h1 h2 h2
  · omega
  · rfl
  · simp [h2, Frame.notifies]
  · rw [List.flatMap_singleton]
    exact notifies_waker h2

end Tail

/-! ### Queues -/

section Queues

variable {c : Core V} {t : Nat}

theorem count_erase_emplaced (ht : t ∈ c.emplaced) (k : Option Nat × Stage) :
    c.queued.count k = (token Stage.inHand (some t) Stage.emplaced).count k +
      ({ c with emplaced := c.emplaced.erase t } : Core V).queued.count k := by
  have hp := ((List.perm_cons_erase ht).map fun t => (some t, Stage.emplaced)).count_eq k
  simp only [Core.queued, List.count_append, token, Stage.inHand, if_true, hp,
    List.map_cons, List.count_cons, List.count_nil]
  omega

theorem count_erase_ready (ht : t ∈ c.ready) (k : Option Nat × Stage) :
    c.queued.count k = (token Stage.inHand (some t) Stage.active).count k +
      ({ c with ready := c.ready.erase t } : Core V).queued.count k := by
  have hp := ((List.perm_cons_erase ht).map fun t => (some t, Stage.active)).count_eq k
  simp only [Core.queued, List.count_append, token, Stage.inHand, if_true, hp,
    List.map_cons, List.count_cons, List.count_nil]
  omega

end Queues

/-! ### Steps -/

section Step

variable {c c' : Core V} {old new : List Frame} {M : Multiset Frame}

theorem Ledger.phase_eq (hL : Ledger c M) {f : Frame} (hf : f ∈ M) {e : EventPtr} {p : Phase}
    (hp : (e, p) ∈ f.notifies) : c.phase e = p := by
  exact hL.notify.eq_of_pos (tally_pos hf hp)

theorem Ledger.stage_eq (hL : Ledger c M) {f : Frame} (hf : f ∈ M) {t : Nat} {σ : Stage}
    (hσ : (some t, σ) ∈ f.tasks) : c.stage t = σ := by
  refine hL.task.eq_of_pos (a := some t) ?_
  have := tally_pos hf hσ
  omega

/-- The running frame is one of the frames. -/
theorem mem_head {f : Frame} : f ∈ (↑(f :: old) + M : Multiset Frame) :=
  Multiset.mem_add.mpr (.inl (Multiset.mem_coe.mpr List.mem_cons_self))

theorem Ledger.phase_head {f : Frame} (hL : Ledger c (↑(f :: old) + M)) {e : EventPtr} {p : Phase}
    (hp : (e, p) ∈ f.notifies) : c.phase e = p :=
  hL.phase_eq mem_head hp

theorem Ledger.stage_head {f : Frame} (hL : Ledger c (↑(f :: old) + M)) {t : Nat} {σ : Stage}
    (hσ : (some t, σ) ∈ f.tasks) : c.stage t = σ :=
  hL.stage_eq mem_head hσ

/-- Without activation a notification leaves the stages alone. -/
theorem activated_of_ne {e : EventPtr} (h : ∀ t, e = .pre t → c.counter e ≠ 2) :
    c.activated e = c.stage := by
  cases e with
  | pre t => exact if_neg (h t rfl)
  | _ => rfl

theorem Ledger.task_step (hL : Ledger c (↑old + M)) (hF : Fresh c) (hm : Move c old c' new) :
    Held Stage.inHand (stageIn c'.stage) fun cur σ =>
      tally Frame.tasks (↑new + M) (cur, σ) + c'.queued.count (cur, σ) := by
  have h := hL.task
  simp only [tally_coe_add, add_assoc] at h ⊢
  cases hm
  case bodyDone t hcode =>
    rw [Core.setStage, stageIn_update]
    exact h.replace (b := Stage.run) rfl rfl rfl
  case initUp t =>
    rw [Core.setStage, stageIn_update]
    exact h.replace (b := Stage.popped) rfl rfl rfl
  case emplaceRoot | emplaceChild =>
    have hn : c.stage c.next = .unborn := (hF.born c.next).mpr le_rfl
    have hi : (stageIn c.stage (some c.next)).inHand = false := by
      rw [stageIn, hn]
      rfl
    rw [Core.create, stageIn_update]
    refine h.appear hi fun cur ρ => ?_
    simp only [Frame.tasks, token, Stage.inHand, Core.queued,
      List.flatMap_singleton, List.count_cons, List.count_nil, if_true]
    omega
  case emplaced t cur =>
    rw [Core.setStage, stageIn_update]
    refine h.go (b := Stage.submit) (a := some t) (fun k σ => [(cur, Stage.run)].count (k, σ) +
      tally Frame.tasks M (k, σ) + c.queued.count (k, σ)) rfl (fun cur ρ => ?_) fun cur ρ => ?_
    · simp only [Frame.tasks, token, Stage.inHand, List.flatMap_singleton, List.count_cons,
        List.count_nil, if_true]
      omega
    · simp only [Frame.tasks, token, Stage.inHand, Core.queued,
        List.flatMap_singleton, List.count_cons, List.count_nil, List.count_append, if_true,
        List.map_append, List.map_cons, List.map_nil]
      omega
  case popEmplaced t ht =>
    rw [Core.setStage, stageIn_update]
    refine h.go (b := Stage.emplaced) (a := some t) (fun k σ => tally Frame.tasks M (k, σ) +
      ({ c with emplaced := c.emplaced.erase t } : Core V).queued.count (k, σ)) rfl
      (fun cur ρ => ?_) fun cur ρ => ?_
    · rw [count_erase_emplaced ht, List.flatMap_nil, List.count_nil]
      omega
    · rfl
  case popReady t ht =>
    rw [Core.setStage, stageIn_update]
    refine h.go (b := Stage.active) (a := some t) (fun k σ => tally Frame.tasks M (k, σ) +
      ({ c with ready := c.ready.erase t } : Core V).queued.count (k, σ)) rfl
      (fun cur ρ => ?_) fun cur ρ => ?_
    · rw [count_erase_ready ht, List.flatMap_nil, List.count_nil]
      omega
    · rfl
  case claim t hc =>
    have hst : update (c.activated (.pre t)) t .exec = update c.stage t .exec := by
      simp [Core.activated, hc]
    simp only [Core.setStage, Core.fetchSub, hst, List.flatMap_append, tasks_notifyTail_claimed]
    rw [stageIn_update]
    exact h.replace (b := Stage.init) rfl rfl rfl
  case block t hc =>
    simp only [Core.setStage, Core.fetchSub, activated_of_ne fun _ _ => hc,
      tasks_notifyTail_claimed]
    rw [stageIn_update]
    exact h.replace (b := Stage.init) rfl rfl rfl
  case exec t =>
    have hst : c.stage t = .exec := hL.stage_head List.mem_cons_self
    have hc : ∀ s, EventPtr.pre t = .pre s → c.counter (.pre t) ≠ 2 := fun _ _ => hF.exec t hst
    simp only [Core.setStage, Core.fetchSub, activated_of_ne hc, List.flatMap_append,
      tasks_notifyTail hc]
    rw [stageIn_update]
    exact h.replace (b := Stage.exec) rfl rfl rfl
  case setResult t =>
    simp only [Core.setStage, Core.fetchSub, Core.activated, List.flatMap_append,
      tasks_notifyTail (e := .resultSet t) (by simp)]
    rw [stageIn_update]
    exact h.replace (b := Stage.result) rfl rfl rfl
  case finish t =>
    simp only [Core.setStage, Core.fetchSub, Core.activated,
      tasks_notifyTail (e := .post t) (by simp)]
    rw [stageIn_update]
    exact h.replace (b := Stage.finish) rfl rfl rfl
  case notifyGet t =>
    simp only [Core.fetchSub, Core.activated, tasks_notifyTail (e := .resultGet t) (by simp)]
    exact h
  case fire x hx =>
    simp only [Core.fetchSub, Core.activated, tasks_notifyTail (e := .external x) (by simp)]
    exact h
  case activate t =>
    intro cur σ
    rw [← h cur σ]
    simp only [Frame.tasks, Core.queued, List.flatMap_singleton, List.count_append, List.map_append,
      List.map_cons, List.map_nil, List.flatMap_nil, List.count_nil]
    omega
  case notifyFollower e i todo d hd =>
    by_cases hact : ∃ t, d.dst = .pre t ∧ c.counter (.pre t) = 2
    · -- the last pending entry of a blocked task
      obtain ⟨t, hdst, hc⟩ := hact
      have hph : c.phase e = .looping (i :: todo) := hL.phase_head List.mem_cons_self
      have hb := hF.notify e i todo d t hph hd hdst hc
      simp only [hdst, Core.fetchSub, Core.setPhase, Core.activated, if_pos hc,
        List.flatMap_append, tasks_notifyTail_ready hc]
      have hi : (stageIn c.stage (some t)).inHand = false := by
        rw [stageIn, hb]
        rfl
      rw [stageIn_update]
      refine h.appear hi fun cur ρ => ?_
      simp [Frame.tasks, token, Stage.inHand, Core.queued]
    · have hne : ∀ t, d.dst = .pre t → c.counter d.dst ≠ 2 :=
        fun t ht h => hact ⟨t, ht, ht ▸ h⟩
      simp only [Core.fetchSub, Core.setPhase, activated_of_ne hne, List.flatMap_append,
        tasks_notifyTail hne]
      exact h
  case removal e t => split_ifs <;> exact h
  case wakerEnd e old b h1 h2 =>
    simpa [tasks_waker h2] using h
  case wakerReached e b he =>
    have hnil : Frame.tasks (.waker e 1 b) = [] := tasks_waker fun h => absurd h (by decide)
    simpa [hnil, Core.setPhase, Core.queued, Frame.tasks] using h
  all_goals exact h

theorem Ledger.lock_step (hL : Ledger c (↑old + M)) (hm : Move c old c' new) (r : Resource) :
    tally Frame.locks (↑new + M) r = (c'.locked r).toNat := by
  have h := hL.lock r
  rw [tally_coe_add] at h ⊢
  have hle := (c.locked r).toNat_le
  cases hm
  case initLock s k es t hl | deleteLock s k es t hl =>
    by_cases e : r = s
    · subst e
      simp_all [Frame.locks]
    · simpa [Frame.locks, e, Ne.symm e] using h
  case initUnlock s es t | deleteUnlock s es t =>
    by_cases e : r = s
    · subst e
      simp [Frame.locks] at h ⊢
      omega
    · simpa [Frame.locks, e, Ne.symm e] using h
  case claim | exec | setResult | notifyFollower =>
    rw [List.flatMap_append, flatMap_notifyTail fun _ => rfl]
    exact h
  case block | finish | fire | notifyGet =>
    rw [flatMap_notifyTail fun _ => rfl]
    exact h
  case removal => split_ifs <;> exact h
  all_goals exact h

theorem Ledger.event_step (hL : Ledger c (↑old + M)) (hF : Fresh c) (hm : Move c old c' new)
    (x : Nat) : tally Frame.events (↑new + M) x = (c'.extStage x == .creating).toNat := by
  have h := hL.event x
  rw [tally_coe_add] at h ⊢
  cases hm
  case createEvent t k hcode =>
    by_cases e : x = c.nextEvent
    · have hx : c.extStage c.nextEvent = .unborn := (hF.event _).mpr le_rfl
      subst e
      simp_all [Frame.events]
    · simpa [Frame.events, Core.pushFollower, e, Ne.symm e] using h
  case makeEvent i y t =>
    have hle := (c.extStage x == .creating).toNat_le
    by_cases e : x = y
    · subst e
      simp only [update_self, show (ExtStage.live == .creating) = false from rfl]
      simp [Frame.events] at h ⊢
      omega
    · simpa [Frame.events, e, Ne.symm e] using h
  case fire y hy =>
    rw [flatMap_notifyTail fun _ => rfl]
    by_cases e : x = y
    · subst e
      rw [hy] at h
      simp only [update_self]
      exact h
    · simpa [Frame.events, e] using h
  case claim | exec | setResult | notifyFollower =>
    rw [List.flatMap_append, flatMap_notifyTail fun _ => rfl]
    exact h
  case block | finish | notifyGet =>
    rw [flatMap_notifyTail fun _ => rfl]
    exact h
  case removal => split_ifs <;> exact h
  all_goals exact h

theorem uncounted_push (d : Follower) (hd : d.counted = false) (i : Nat) :
    (((c.followers ++ [d])[i]?).any fun d => !d.counted) =
      (c.uncounted i || i == c.followers.length) := by
  unfold Core.uncounted
  rcases lt_trichotomy i c.followers.length with hi | rfl | hi
  · rw [List.getElem?_append_left hi]
    simp [show i ≠ c.followers.length by omega]
  · simp [hd]
  · rw [List.getElem?_append_right hi.le, List.getElem?_eq_none (by simp; omega),
      List.getElem?_eq_none hi.le]
    simp [show i ≠ c.followers.length by omega]

theorem uncounted_count (i j : Nat) :
    (((c.followers.modify j fun d => { d with counted := true })[i]?).any fun d => !d.counted) =
      (c.uncounted i && !(i == j)) := by
  unfold Core.uncounted
  by_cases e : i = j
  · subst e
    cases hd : c.followers[i]? <;> simp [hd]
  · have hb : (i == j) = false := by simpa using e
    simp [Ne.symm e, hb]

theorem uncounted_set {j : Nat} {d d' : Follower} (hd : c.followers[j]? = some d)
    (hc : d'.counted = d.counted) (i : Nat) :
    (((c.followers.set j d')[i]?).any fun d => !d.counted) = c.uncounted i := by
  unfold Core.uncounted
  by_cases e : j = i
  · subst e
    rw [List.getElem?_set_self (List.getElem?_eq_some_iff.mp hd).1, hd]
    simp [hc]
  · rw [List.getElem?_set_ne e]

theorem Ledger.edge_step (hL : Ledger c (↑old + M)) (hm : Move c old c' new) (i : Nat) :
    tally Frame.edges (↑new + M) i = (c'.uncounted i).toNat := by
  have h := hL.edge i
  rw [tally_coe_add] at h ⊢
  have hle := (c.uncounted i).toNat_le
  cases hm
  case createEvent | parentFollower | push =>
    unfold Core.uncounted
    simp only [Core.pushFollower]
    rw [uncounted_push _ rfl]
    by_cases e : i = c.followers.length
    · subst e
      have hn : c.uncounted c.followers.length = false := by simp [Core.uncounted]
      simp_all [Frame.edges]
    · have hb : (i == c.followers.length) = false := by simpa using e
      simpa [Frame.edges, Ne.symm e, hb] using h
  case makeEvent j x t | parentCount j t u | count r k p es j t =>
    unfold Core.uncounted
    simp only [Core.count]
    rw [uncounted_count]
    by_cases e : i = j
    · subst e
      simp [Frame.edges] at h ⊢
      omega
    · have hb : (i == j) = false := by simpa using e
      simpa [Frame.edges, Ne.symm e, hb] using h
  case notifyFollower e j todo d hd =>
    rw [List.flatMap_append, flatMap_notifyTail fun _ => rfl]
    unfold Core.uncounted
    have hc : ({ d with notified := d.notified + 1 } : Follower).counted = d.counted := rfl
    rw [← uncounted_set hd hc] at h
    exact h
  case claim | exec | setResult =>
    rw [List.flatMap_append, flatMap_notifyTail fun _ => rfl]
    exact h
  case block | finish | fire | notifyGet =>
    rw [flatMap_notifyTail fun _ => rfl]
    exact h
  case removal => split_ifs <;> exact h
  all_goals exact h

/-- The notification that takes the last unit of an event gets its token. -/
theorem held_fetchSub {x : EventPtr → Phase → Nat} {e : EventPtr} {b : Bool}
    (hone : c.counter e = 1 → c.phase e = .open) (h : Held Phase.inHand c.phase x) :
    Held Phase.inHand (c.fetchSub e).phase fun e' ph =>
      ((c.notifyTail e b).flatMap Frame.notifies).count (e', ph) + x e' ph := by
  rw [notifies_notifyTail]
  by_cases h1 : c.counter e = 1
  · simp only [Core.fetchSub, if_pos h1]
    exact h.appear (by rw [hone h1]; rfl) fun _ _ => rfl
  · simp only [Core.fetchSub, if_neg h1, List.count_nil, zero_add]
    exact h

theorem Ledger.notify_step (hL : Ledger c (↑old + M)) (hF : Fresh c) (hm : Move c old c' new) :
    Held Phase.inHand c'.phase fun e ph => tally Frame.notifies (↑new + M) (e, ph) := by
  have h := hL.notify
  simp only [tally_coe_add] at h ⊢
  cases hm
  case claim t hc =>
    simp only [List.flatMap_append, List.count_append, add_assoc]
    exact held_fetchSub (hF.one _) h
  case exec t | setResult t =>
    simp only [List.flatMap_append, List.count_append, add_assoc]
    exact held_fetchSub (hF.one _) h
  case block | finish | fire | notifyGet =>
    have h0 : Held Phase.inHand c.phase fun e ph => tally Frame.notifies M (e, ph) := by
      simpa [Frame.notifies] using h
    exact held_fetchSub (hF.one _) h0
  case wakerReached | deleteEnd => exact h.replace (b := Phase.reached) rfl rfl rfl
  case loop => exact h.replace (b := Phase.drained) rfl rfl rfl
  case loopedRemoval | loopedEnd => exact h.replace (b := Phase.looping []) rfl rfl rfl
  case removal e t =>
    split_ifs <;> exact h.replace (b := Phase.looped) rfl rfl rfl
  case notifyFollower e i todo d hd =>
    have h1 := held_fetchSub (b := false) (hF.one d.dst) h
    refine h1.go (b := Phase.looping (i :: todo)) (a := e) (fun e' ph =>
      ((c.notifyTail d.dst false).flatMap Frame.notifies).count (e', ph) +
        tally Frame.notifies M (e', ph)) rfl (fun e' ph => ?_) fun e' ph => ?_
    · simp only [Frame.notifies, List.flatMap_singleton, token, Phase.inHand, if_true]
      omega
    · simp only [Frame.notifies, List.flatMap_append, List.flatMap_singleton, List.count_append,
        token, Phase.inHand, if_true]
      omega
  case wakerEnd e old b h1 h2 =>
    simpa [notifies_waker h1] using h
  all_goals exact h

theorem any_inGet_append {l : List Handle} {a : Handle} (ha : a.status ≠ .inGet) (h : Nat) :
    (((l ++ [a])[h]?).any (·.status == .inGet)) = ((l[h]?).any (·.status == .inGet)) := by
  rcases lt_trichotomy h l.length with hi | rfl | hi
  · rw [List.getElem?_append_left hi]
  · simp [ha]
  · rw [List.getElem?_eq_none (by simp; omega), List.getElem?_eq_none hi.le]

theorem any_inGet_set {l : List Handle} {a b : Handle} {i : Nat} (hi : l[i]? = some a) (h : Nat) :
    (((l.set i b)[h]?).any (·.status == .inGet)) =
      if i = h then b.status == .inGet else ((l[h]?).any (·.status == .inGet)) := by
  split_ifs with e
  · subst e
    rw [List.getElem?_set_self (List.getElem?_eq_some_iff.mp hi).1]
    rfl
  · rw [List.getElem?_set_ne e]

/-- The handle a frame is inside `get` of. -/
theorem Ledger.status_eq (hL : Ledger c M) {h t : Nat} {σ : HandleStatus} (hf : Frame.get h ∈ M)
    (hh : c.handles[h]? = some ⟨t, σ⟩) : σ = .inGet := by
  have hpos : 0 < tally Frame.gets M h := tally_pos hf (by simp [Frame.gets])
  rw [hL.get h, hh] at hpos
  by_contra hne
  have hb : (σ == .inGet) = false := by simpa using hne
  simp [hb] at hpos

theorem Ledger.get_step (hL : Ledger c (↑old + M)) (hm : Move c old c' new) (h : Nat) :
    tally Frame.gets (↑new + M) h = ((c'.handles[h]?).any (·.status == .inGet)).toNat := by
  have hg := hL.get h
  rw [tally_coe_add] at hg ⊢
  have hle := ((c.handles[h]?).any (·.status == .inGet)).toNat_le
  cases hm
  case future t cur | moveTaken i t hh =>
    rw [any_inGet_append (by simp)]
    exact hg
  case moveLive i t hh =>
    rw [any_inGet_append (by simp), any_inGet_set hh]
    split_ifs with e
    · subst e
      rw [hh] at hg
      exact hg
    · exact hg
  case destroyLive i t hh | destroyTaken i t hh =>
    rw [any_inGet_set hh]
    split_ifs with e
    · subst e
      rw [hh] at hg
      exact hg
    · exact hg
  case getFuture i t hh =>
    rw [any_inGet_set hh]
    split_ifs with e
    · subst e
      rw [hh] at hg
      simp [Frame.gets] at hg ⊢
      exact hg
    · simpa [Frame.gets, e] using hg
  case get i t σ hh hset =>
    rw [any_inGet_set hh]
    split_ifs with e
    · subst e
      show 0 + tally Frame.gets M i = 0
      simp [Frame.gets] at hg
      omega
    · simpa [Frame.gets, e] using hg
  case claim | exec | setResult | notifyFollower =>
    rw [List.flatMap_append, flatMap_notifyTail fun _ => rfl]
    exact hg
  case block | finish | fire | notifyGet =>
    rw [flatMap_notifyTail fun _ => rfl]
    exact hg
  case removal => split_ifs <;> exact hg
  all_goals exact hg

@[simp] theorem unspent_live (s t : Nat) : (⟨s, .live⟩ : Handle).unspent t = (s == t) :=
  Bool.and_true _

@[simp] theorem unspent_inGet (s t : Nat) : (⟨s, .inGet⟩ : Handle).unspent t = (s == t) :=
  Bool.and_true _

@[simp] theorem unspent_taken (s t : Nat) : (⟨s, .taken⟩ : Handle).unspent t = false :=
  Bool.and_false _

@[simp] theorem unspent_destroyed (s t : Nat) : (⟨s, .destroyed⟩ : Handle).unspent t = false :=
  Bool.and_false _

theorem unspent_append (l : List Handle) (a : Handle) (t : Nat) :
    (l ++ [a]).countP (·.unspent t) = l.countP (·.unspent t) + (a.unspent t).toNat := by
  rw [List.countP_append, List.countP_singleton]
  cases a.unspent t <;> rfl

theorem count_singleton_toNat (s t : Nat) : [s].count t = (s == t).toNat := by
  by_cases e : s = t
  · simp [e]
  · have hb : (s == t) = false := by simpa using e
    simp [e, hb]

theorem Ledger.spend_step (hL : Ledger c (↑old + M)) (hF : Fresh c) (hm : Move c old c' new)
    (t : Nat) : tally Frame.spends (↑new + M) t + c'.unspent t =
      (decide (t < c'.next) && !c'.getSpent t).toNat := by
  have h := hL.spend t
  rw [tally_coe_add] at h ⊢
  cases hm
  case emplaceRoot | emplaceChild =>
    have hn : c.getSpent c.next = false := by
      cases hs : c.getSpent c.next with
      | false => rfl
      | true => exact absurd (hF.spent _ hs) (lt_irrefl _)
    show [c.next].count t + tally Frame.spends M t + c.unspent t =
      (decide (t < c.next + 1) && !c.getSpent t).toNat
    have h' : tally Frame.spends M t + c.unspent t =
        (decide (t < c.next) && !c.getSpent t).toNat := by simpa [Frame.spends] using h
    by_cases e : t = c.next
    · subst e
      simp [hn] at h' ⊢
      omega
    · have hlt : decide (t < c.next + 1) = decide (t < c.next) := by
        rw [decide_eq_decide]
        omega
      rw [hlt, ← h']
      simp [Ne.symm e]
  case future s cur =>
    show 0 + tally Frame.spends M t + (c.handles ++ [Handle.mk s .live]).countP (·.unspent t) = _
    rw [unspent_append, unspent_live, ← count_singleton_toNat, ← h]
    show _ = [s].count t + tally Frame.spends M t + c.handles.countP (·.unspent t)
    omega
  case moveLive i s hh =>
    have hset := countP_set_add (p := (·.unspent t)) (b := ⟨s, .taken⟩) hh
    rw [unspent_live, unspent_taken, Bool.toNat_false] at hset
    show 0 + tally Frame.spends M t +
      (c.handles.set i ⟨s, .taken⟩ ++ [Handle.mk s .live]).countP (·.unspent t) = _
    rw [unspent_append, unspent_live, ← h]
    show _ = 0 + tally Frame.spends M t + c.handles.countP (·.unspent t)
    omega
  case moveTaken i s hh =>
    show 0 + tally Frame.spends M t + (c.handles ++ [Handle.mk s .taken]).countP (·.unspent t) = _
    rw [unspent_append, unspent_taken]
    exact h
  case destroyLive i s hh =>
    have hset := countP_set_add (p := (·.unspent t)) (b := ⟨s, .destroyed⟩) hh
    rw [unspent_live, unspent_destroyed, Bool.toNat_false, ← count_singleton_toNat] at hset
    show [s].count t + tally Frame.spends M t +
      (c.handles.set i ⟨s, .destroyed⟩).countP (·.unspent t) = _
    rw [← h]
    show _ = 0 + tally Frame.spends M t + c.handles.countP (·.unspent t)
    omega
  case destroyTaken i s hh =>
    have hset := countP_set_add (p := (·.unspent t)) (b := ⟨s, .destroyed⟩) hh
    rw [unspent_taken, unspent_destroyed] at hset
    rw [← h]
    show 0 + tally Frame.spends M t + (c.handles.set i ⟨s, .destroyed⟩).countP (·.unspent t) =
      0 + tally Frame.spends M t + c.handles.countP (·.unspent t)
    omega
  case getFuture i s hh =>
    have hset := countP_set_add (p := (·.unspent t)) (b := ⟨s, .inGet⟩) hh
    rw [unspent_live, unspent_inGet] at hset
    rw [← h]
    show 0 + tally Frame.spends M t + (c.handles.set i ⟨s, .inGet⟩).countP (·.unspent t) =
      0 + tally Frame.spends M t + c.handles.countP (·.unspent t)
    omega
  case get i s σ hh hset =>
    obtain rfl : σ = .inGet := hL.status_eq (by simp) hh
    have hset := countP_set_add (p := (·.unspent t)) (b := ⟨s, .taken⟩) hh
    rw [unspent_inGet, unspent_taken, Bool.toNat_false, ← count_singleton_toNat] at hset
    rw [← h]
    show [s].count t + tally Frame.spends M t +
      (c.handles.set i ⟨s, .taken⟩).countP (·.unspent t) =
        0 + tally Frame.spends M t + c.handles.countP (·.unspent t)
    omega
  case notifyGet s =>
    rw [flatMap_notifyTail fun _ => rfl]
    have hle := (decide (t < c.next) && !c.getSpent t).toNat_le
    show 0 + tally Frame.spends M t + c.unspent t =
      (decide (t < c.next) && !update c.getSpent s true t).toNat
    by_cases e : t = s
    · subst e
      simp [Frame.spends] at h ⊢
      omega
    · simpa [Frame.spends, e, Ne.symm e] using h
  case claim | exec | setResult | notifyFollower =>
    rw [List.flatMap_append, flatMap_notifyTail fun _ => rfl]
    exact h
  case block | finish | fire =>
    rw [flatMap_notifyTail fun _ => rfl]
    exact h
  case removal => split_ifs <;> exact h
  all_goals exact h

/-- A step keeps the ledger. -/
theorem Ledger.step (hL : Ledger c (↑old + M)) (hF : Fresh c) (hm : Move c old c' new) :
    Ledger c' (↑new + M) where
  task := hL.task_step hF hm
  lock := hL.lock_step hm
  edge := hL.edge_step hm
  event := hL.event_step hF hm
  spend := hL.spend_step hF hm
  get := hL.get_step hm
  notify := hL.notify_step hF hm

end Step

theorem Ledger.initial (prog : Body V) (store : Resource → V) :
    Ledger (Core.initial prog store) {.body none} where
  task := by
    intro cur σ
    cases cur <;> cases σ <;> rfl
  lock := fun _ => rfl
  edge := fun _ => rfl
  event := fun _ => rfl
  spend := fun _ => rfl
  get := fun _ => rfl
  notify := by
    intro e ph
    cases ph <;> rfl

/-! ### Reading the ledger -/

section Reading

variable {c : Core V} {M : Multiset Frame} {f g : Frame} {t : Nat}

/-- Nothing is in two hands. -/
theorem Ledger.not_mem_tasks (hL : Ledger c (↑[f] + M)) (hg : g ∈ M) {k : Option Nat × Stage}
    (hk : k ∈ f.tasks) : k ∉ g.tasks := by
  intro hkg
  obtain ⟨cur, σ⟩ := k
  have h := hL.task cur σ
  simp only [tally_coe_add] at h
  have hle := (stageIn c.stage cur == σ && σ.inHand).toNat_le
  have h1 : 0 < ([f].flatMap Frame.tasks).count (cur, σ) :=
    List.count_pos_iff.mpr (by simpa using hk)
  have h2 := tally_pos hg hkg
  omega

theorem Ledger.not_mem_locks (hL : Ledger c (↑[f] + M)) (hg : g ∈ M) {r : Resource}
    (hr : r ∈ f.locks) : r ∉ g.locks := by
  intro hrg
  have h := hL.lock r
  rw [tally_coe_add] at h
  have hle := (c.locked r).toNat_le
  have h1 : 0 < ([f].flatMap Frame.locks).count r := List.count_pos_iff.mpr (by simpa using hr)
  have h2 := tally_pos hg hrg
  omega

/-- A task at a stage outside of the queues is in the hands of a frame. -/
theorem Ledger.exists_task (hL : Ledger c M) {σ : Stage} (hσ : c.stage t = σ)
    (hi : σ.inHand = true) (he : σ ≠ .emplaced) (ha : σ ≠ .active) :
    ∃ f ∈ M, (some t, σ) ∈ f.tasks := by
  refine exists_of_tally_pos ?_
  have h : tally Frame.tasks M (some t, σ) + c.queued.count (some t, σ) = _ := hL.task (some t) σ
  have hq : c.queued.count (some t, σ) = 0 := by
    refine List.count_eq_zero.mpr fun hmem => ?_
    simp only [Core.queued, List.mem_append, List.mem_map, Prod.mk.injEq] at hmem
    rcases hmem with ⟨_, _, _, e⟩ | ⟨_, _, _, e⟩
    · exact he e.symm
    · exact ha e.symm
  have hone : (stageIn c.stage (some t) == σ && σ.inHand).toNat = 1 := by
    rw [hi, stageIn, hσ]
    simp
  omega

/-- An entry that is not counted is in the hands of the frame that pushed it. -/
theorem Ledger.exists_edge (hL : Ledger c M) {i : Nat} {d : Follower}
    (hd : c.followers[i]? = some d) (hc : d.counted = false) : ∃ f ∈ M, i ∈ f.edges := by
  refine exists_of_tally_pos ?_
  rw [hL.edge i, Core.uncounted, hd]
  simp [hc]

theorem Ledger.exists_notify (hL : Ledger c M) {e : EventPtr} (h : (c.phase e).inHand = true) :
    ∃ f ∈ M, (e, c.phase e) ∈ f.notifies := by
  refine exists_of_tally_pos ?_
  have hn : tally Frame.notifies M (e, c.phase e) = _ := hL.notify e (c.phase e)
  rw [h] at hn
  simp only [beq_self_eq_true, Bool.and_self, Bool.toNat_true] at hn
  omega

/-- The emplacement queue holds tasks that were emplaced, the ready queues
tasks that were activated. -/
theorem Ledger.stage_of_mem_emplaced (hL : Ledger c M) (ht : t ∈ c.emplaced) :
    c.stage t = .emplaced := by
  refine hL.task.eq_of_pos (a := some t) ?_
  have : 0 < c.queued.count (some t, Stage.emplaced) :=
    List.count_pos_iff.mpr (by simp [Core.queued, ht])
  omega

theorem Ledger.stage_of_mem_ready (hL : Ledger c M) (ht : t ∈ c.ready) :
    c.stage t = .active := by
  refine hL.task.eq_of_pos (a := some t) ?_
  have : 0 < c.queued.count (some t, Stage.active) :=
    List.count_pos_iff.mpr (by simp [Core.queued, ht])
  omega

/-- The right to notify a result-get-event is spent once. -/
theorem Ledger.unspent_of_mem (hL : Ledger c M) (hf : f ∈ M) (ht : t ∈ f.spends) :
    t < c.next ∧ c.getSpent t = false := by
  have h := hL.spend t
  have hpos := tally_pos hf ht
  by_contra hne
  have hb : (decide (t < c.next) && !c.getSpent t) = false := by
    simpa [not_and] using hne
  rw [hb] at h
  simp at h
  omega

theorem Ledger.extStage_of_mem (hL : Ledger c M) (hf : f ∈ M) {x : Nat} (hx : x ∈ f.events) :
    c.extStage x = .creating := by
  have h := hL.event x
  have hpos := tally_pos hf hx
  by_contra hne
  have hb : (c.extStage x == .creating) = false := by simpa using hne
  rw [hb] at h
  simp at h
  omega

end Reading

end RedGrapes.Runtime
