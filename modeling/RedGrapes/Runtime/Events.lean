/-
RedGrapes/Runtime/Events.lean

Steps keep the counters in order.  Every notification takes a unit that is
there, so no counter runs below zero; every increment finds the event open.
-/
import RedGrapes.Runtime.Invariant

namespace RedGrapes.Runtime

open Function Machine

variable {V : Type}

theorem Stage.le_def {a b : Stage} : a ≤ b ↔ a.rank ≤ b.rank := Iff.rfl

/-! ### Pending entries -/

section Pending

variable {fs : List Follower} {i : Nat} {d : Follower}

theorem countP_waits_push {src dst : EventPtr} (e : EventPtr) :
    (fs ++ [Follower.mk src dst false 0]).countP (·.waits e) = fs.countP (·.waits e) := by
  simp [Follower.waits]

theorem modify_eq_set {f : Follower → Follower} (hd : fs[i]? = some d) :
    fs.modify i f = fs.set i (f d) := by
  rw [List.modify_eq_set_getElem?, hd]
  rfl

/-- Counting an entry makes its follower wait for it. -/
theorem countP_waits_count {src dst : EventPtr} (hd : fs[i]? = some ⟨src, dst, false, 0⟩)
    (e : EventPtr) :
    (fs.modify i fun d => { d with counted := true }).countP (·.waits e) =
      fs.countP (·.waits e) + (dst == e).toNat := by
  have h := countP_set_add (p := (·.waits e)) (b := ⟨src, dst, true, 0⟩) hd
  rw [modify_eq_set hd]
  simpa [Follower.waits] using h

/-- Notifying an entry ends the wait. -/
theorem countP_waits_notify (hd : fs[i]? = some d) (hc : d.counted = true) (hn : d.notified = 0)
    (e : EventPtr) :
    (fs.set i { d with notified := d.notified + 1 }).countP (·.waits e) + (d.dst == e).toNat =
      fs.countP (·.waits e) := by
  have h := countP_set_add (p := (·.waits e)) (b := { d with notified := d.notified + 1 }) hd
  simpa [Follower.waits, hc, hn] using h

theorem pending_pos {c : Core V} (hd : c.followers[i]? = some d) (hc : d.counted = true)
    (hn : d.notified = 0) : 0 < c.pending d.dst :=
  List.countP_pos_iff.mpr ⟨d, List.mem_of_getElem? hd, by simp [Follower.waits, hc, hn]⟩

end Pending

/-! ### Reading the invariant -/

namespace Events

variable {c : Core V} {e : EventPtr} {i t : Nat} {d : Follower}

/-- The next entry of a loop is counted and not yet notified. -/
theorem next_entry (hE : Events c) {todo : List Nat} (hph : c.phase e = .looping (i :: todo))
    (hd : c.followers[i]? = some d) : d.src = e ∧ d.counted = true ∧ d.notified = 0 := by
  obtain ⟨_, hmem⟩ := hE.looping e _ hph
  obtain ⟨d', hd', hsrc⟩ := hmem i (by simp)
  obtain rfl : d' = d := Option.some.inj (hd'.symm.trans hd)
  have hok := hE.edge i d' hd
  refine ⟨hsrc, ?_, ?_⟩
  · by_contra hc
    have := hok.counted (by simpa using hc)
    rw [hsrc, hph] at this
    simp [Phase.early] at this
  · rw [hok.notified, hsrc, hph]
    simp [Phase.passed]

/-- Only a task that is being initialised or waits can be notified. -/
theorem init_or_blocked (hE : Events c) (hd : c.followers[i]? = some d) (hdst : d.dst = .pre t)
    (hn : d.notified = 0) : c.stage t = .init ∨ c.stage t = .blocked := by
  have hok := hE.edge i d hd
  have h1 := hok.initialised t hdst
  have h2 : ¬ Stage.active ≤ c.stage t := fun h => by
    have := hok.activated t hdst h
    omega
  rw [Stage.le_def] at h1 h2
  cases hs : c.stage t <;> rw [hs] at h1 h2 <;> simp [Stage.rank] at h1 h2 ⊢

theorem blocked_of_two (hE : Events c) {todo : List Nat} (hph : c.phase e = .looping (i :: todo))
    (hd : c.followers[i]? = some d) (hdst : d.dst = .pre t) (htwo : c.counter (.pre t) = 2) :
    c.stage t = .blocked := by
  obtain ⟨_, hc, hn⟩ := hE.next_entry hph hd
  rcases hE.init_or_blocked hd hdst hn with hs | hs
  · have hcount := hE.counter (.pre t)
    have hpos := pending_pos hd hc hn
    rw [hdst] at hpos
    simp only [Core.units, hs, Stage.preUnits] at hcount
    omega
  · exact hs

/-- A task that was activated waits for nothing. -/
theorem pending_eq_zero (hE : Events c) (h : .active ≤ c.stage t) : c.pending (.pre t) = 0 := by
  refine List.countP_eq_zero.mpr fun d hd => ?_
  obtain ⟨i, hi⟩ := List.mem_iff_getElem?.mp hd
  by_cases hdst : d.dst = .pre t
  · simp [Follower.waits, (hE.edge i d hi).activated t hdst h]
  · simp [Follower.waits, hdst]

theorem fresh (hE : Events c) : Fresh c where
  born := hE.born
  event := hE.event
  spent := hE.spent
  one := fun e h => (hE.open_iff e).mpr (by omega)
  exec := fun t h => by
    have hp := hE.pending_eq_zero (t := t) (by rw [h, Stage.le_def]; decide)
    have hc := hE.counter (.pre t)
    simp only [Core.units, h, Stage.preUnits] at hc
    omega
  notify := fun _ _ _ _ _ hph hd hdst htwo => hE.blocked_of_two hph hd hdst htwo

end Events

/-! ### Stages -/

/-- The steps from stage to stage. -/
inductive Stage.Next : Stage → Stage → Prop
  | emplaced : Next .submit .emplaced
  | popped : Next .emplaced .popped
  | init : Next .popped .init
  | claim : Next .init .exec
  | block : Next .init .blocked
  | activate : Next .blocked .active
  | take : Next .active .exec
  | run : Next .exec .run
  | result : Next .run .result
  | finish : Next .result .finish
  | done : Next .finish .done

/-- What a step that takes `t` from `σ` to `σ'` has found: a task becomes ready
at two units of its pre-event and blocks at more, and it is emplaced when its
usage entries and the edge to its parent are there. -/
structure Passed (c c' : Core V) (t : Nat) (σ σ' : Stage) : Prop where
  ready : .active ≤ σ' → ¬ .active ≤ σ →
    c.counter (.pre t) = 2 ∧ c'.counter = (c.fetchSub (.pre t)).counter
  block : σ' = .blocked → c.counter (.pre t) ≠ 2 ∧ c'.counter = (c.fetchSub (.pre t)).counter
  emplaced : σ' = .emplaced → (c.entries t).map Prod.fst = c.resourcesOf t ∧
    ∀ u, (c.info t).space = some u → c.Edge (.post t) (.post u)

/-- What a step does to the stages: nothing, a new task, or one task goes on. -/
inductive StageMove (c c' : Core V) : Prop
  | same (hst : c'.stage = c.stage) (hn : c'.next = c.next)
  | create (hst : c'.stage = update c.stage c.next .submit) (hn : c'.next = c.next + 1)
  | go (t : Nat) (σ σ' : Stage) (ht : c.stage t = σ) (hnext : σ.Next σ')
      (hst : c'.stage = update c.stage t σ') (hn : c'.next = c.next)
      (hpre : Passed c c' t σ σ')

section Step

variable {c c' : Core V} {old new : List Frame} {M : Multiset Frame}

theorem Passed.of_late {t : Nat} {σ σ' : Stage} (h : .active ≤ σ) (hb : σ' ≠ .blocked)
    (he : σ' ≠ .emplaced) : Passed c c' t σ σ' :=
  ⟨fun _ h' => absurd h h', fun h' => absurd h' hb, fun h' => absurd h' he⟩

theorem Passed.of_early {t : Nat} {σ σ' : Stage} (h : ¬ .active ≤ σ') (hb : σ' ≠ .blocked)
    (he : σ' ≠ .emplaced) : Passed c c' t σ σ' :=
  ⟨fun h' => absurd h' h, fun h' => absurd h' hb, fun h' => absurd h' he⟩

theorem stageMove (hI : Inv c (↑old + M)) (hm : Move c old c' new) : StageMove c c' := by
  have hL := hI.ledger
  have hE := hI.events
  cases hm
  case emplaceRoot | emplaceChild => exact .create rfl rfl
  case bodyDone t hcode =>
    have ht : c.stage t = .run := hL.stage_head List.mem_cons_self
    exact .go t _ _ ht .result rfl rfl (.of_late (by decide) (by simp) (by simp))
  case emplaced t cur =>
    have ht : c.stage t = .submit := hL.stage_head List.mem_cons_self
    obtain ⟨hspace, hall, hedge⟩ := hI.frames (.submit (.users []) t cur) mem_head
    refine .go t _ _ ht .emplaced rfl rfl ⟨fun h => absurd h (by decide), by simp, fun _ => ⟨?_, ?_⟩⟩
    · rwa [List.append_nil] at hall
    · exact fun u hu => hedge u (hspace ▸ hu)
  case popEmplaced t ht =>
    exact .go t _ _ (hL.stage_of_mem_emplaced ht) .popped rfl rfl (.of_early (by decide) (by simp) (by simp))
  case popReady t ht =>
    exact .go t _ _ (hL.stage_of_mem_ready ht) .take rfl rfl (.of_late (by decide) (by simp) (by simp))
  case initUp t =>
    have ht : c.stage t = .popped := hL.stage_head List.mem_cons_self
    exact .go t _ _ ht .init rfl rfl (.of_early (by decide) (by simp) (by simp))
  case claim t hc =>
    have hst : update (c.activated (.pre t)) t .exec = update c.stage t .exec := by
      simp [Core.activated, hc]
    have ht : c.stage t = .init := hL.stage_head List.mem_cons_self
    exact .go t _ _ ht .claim hst rfl ⟨fun _ _ => ⟨hc, rfl⟩, by simp, by simp⟩
  case block t hc =>
    have hst : update (c.activated (.pre t)) t .blocked = update c.stage t .blocked := by
      rw [activated_of_ne fun _ _ => hc]
    have ht : c.stage t = .init := hL.stage_head List.mem_cons_self
    exact .go t _ _ ht .block hst rfl ⟨fun h => absurd h (by decide), fun _ => ⟨hc, rfl⟩, by simp⟩
  case exec t =>
    have ht : c.stage t = .exec := hL.stage_head List.mem_cons_self
    have hst : update (c.activated (.pre t)) t .run = update c.stage t .run := by
      rw [activated_of_ne fun _ _ => hE.fresh.exec t ht]
    exact .go t _ _ ht .run hst rfl (.of_late (by decide) (by simp) (by simp))
  case setResult t =>
    have ht : c.stage t = .result := hL.stage_head List.mem_cons_self
    exact .go t _ _ ht .finish rfl rfl (.of_late (by decide) (by simp) (by simp))
  case finish t =>
    have ht : c.stage t = .finish := hL.stage_head List.mem_cons_self
    exact .go t _ _ ht .done rfl rfl (.of_late (by decide) (by simp) (by simp))
  case notifyFollower e i todo d hd =>
    by_cases hact : ∃ t, d.dst = .pre t ∧ c.counter (.pre t) = 2
    · obtain ⟨t, hdst, htwo⟩ := hact
      have hph : c.phase e = .looping (i :: todo) := hL.phase_head List.mem_cons_self
      have hst : c.activated d.dst = update c.stage t .active := by
        rw [hdst]
        exact if_pos htwo
      exact .go t _ _ (hE.blocked_of_two hph hd hdst htwo) .activate hst rfl
        ⟨fun _ _ => ⟨htwo, hdst ▸ rfl⟩, by simp, by simp⟩
    · exact .same (activated_of_ne fun t ht h => hact ⟨t, ht, ht ▸ h⟩) rfl
  all_goals exact .same rfl rfl

theorem Stage.Next.rank_lt {σ σ' : Stage} (h : σ.Next σ') : σ.rank < σ'.rank := by
  cases h <;> decide

/-- Stages only go up. -/
theorem StageMove.mono (hE : Events c) (h : StageMove c c') (t : Nat) : c.stage t ≤ c'.stage t := by
  cases h with
  | same hst hn => rw [hst]; exact le_refl (c.stage t).rank
  | create hst hn =>
      rw [hst]
      by_cases e : t = c.next
      · subst e
        rw [(hE.born _).mpr le_rfl, update_self]
        decide
      · rw [update_of_ne e]
        exact le_refl (c.stage t).rank
  | go s σ σ' hs hnext hst hn _ =>
      rw [hst]
      by_cases e : t = s
      · subst e
        rw [hs, update_self]
        exact hnext.rank_lt.le
      · rw [update_of_ne e]
        exact le_refl (c.stage t).rank

theorem StageMove.born (hE : Events c) (h : StageMove c c') (t : Nat) :
    c'.stage t = .unborn ↔ c'.next ≤ t := by
  have hb := hE.born t
  cases h with
  | same hst hn => rw [hst, hn, hb]
  | create hst hn =>
      rw [hst, hn]
      by_cases e : t = c.next
      · subst e
        simp
      · rw [update_of_ne e, hb]
        omega
  | go s σ σ' hs hnext hst hn _ =>
      rw [hst, hn]
      by_cases e : t = s
      · subst e
        rw [update_self]
        rw [hs] at hb
        cases hnext <;> simpa using hb
      · rw [update_of_ne e, hb]

end Step

/-! ### Counters -/

/-- One unit of the event `e₀`, seen from `e`. -/
def unit (e₀ e : EventPtr) : Nat := if e₀ = e then 1 else 0

@[simp] theorem unit_self (e : EventPtr) : unit e e = 1 := if_pos rfl

theorem unit_of_ne {e₀ e : EventPtr} (h : e ≠ e₀) : unit e₀ e = 0 := if_neg (Ne.symm h)

theorem toNat_beq (e₀ e : EventPtr) : (e₀ == e).toNat = unit e₀ e := by
  by_cases h : e₀ = e
  · simp [h]
  · have hb : (e₀ == e) = false := by simpa using h
    simp [unit_of_ne (Ne.symm h), hb]

/-- The units that the events of `t` hold at a stage. -/
def Stage.unitsAt (σ : Stage) (t : Nat) : EventPtr → Nat
  | .pre s => if s = t then σ.preUnits else 0
  | .post s => if s = t then σ.postUnits else 0
  | .resultSet s => if s = t then σ.resultUnits else 0
  | _ => 0

section Counter

variable {c c' : Core V} {a : EventPtr} {t : Nat} {σ ρ : Stage}

theorem counter_up (h : c.counter a + 1 < counterSize) (e : EventPtr) :
    (c.up a).counter e = c.counter e + unit a e := by
  by_cases he : e = a
  · subst he
    simp [Core.up, Nat.mod_eq_of_lt h]
  · simp [Core.up, he, unit_of_ne he]

theorem counter_fetchSub (hpos : 0 < c.counter a) (hs : c.counter a < counterSize)
    (e : EventPtr) : (c.fetchSub a).counter e + unit a e = c.counter e := by
  by_cases he : e = a
  · subst he
    have hmod : (c.counter e + (counterSize - 1)) % counterSize = c.counter e - 1 := by
      rw [show c.counter e + (counterSize - 1) = c.counter e - 1 + counterSize by
        simp only [counterSize] at hs ⊢
        omega, Nat.add_mod_right, Nat.mod_eq_of_lt (by omega)]
    simp only [Core.fetchSub, update_self, hmod, unit_self]
    omega
  · simp [Core.fetchSub, he, unit_of_ne he]

theorem units_stage (ht : c.stage t = σ) (hst : c'.stage = update c.stage t ρ)
    (hg : c'.getSpent = c.getSpent) (hx : c'.extStage = c.extStage) (e : EventPtr) :
    c'.units e + σ.unitsAt t e = c.units e + ρ.unitsAt t e := by
  cases e with
  | pre s | post s | resultSet s =>
      by_cases e : s = t
      · subst e
        simp only [Core.units, Stage.unitsAt, hst, update_self, ht, if_true]
        omega
      · simp [Core.units, Stage.unitsAt, hst, e]
  | resultGet s => simp [Core.units, Stage.unitsAt, hg]
  | external x => simp [Core.units, Stage.unitsAt, hx]

theorem units_congr (hst : c'.stage = c.stage) (hg : c'.getSpent = c.getSpent)
    (hx : c'.extStage = c.extStage) (e : EventPtr) : c'.units e = c.units e := by
  cases e <;> simp [Core.units, hst, hg, hx]

/-- Stages that hold the same units. -/
theorem Stage.unitsAt_congr (h1 : ρ.preUnits = σ.preUnits) (h2 : ρ.postUnits = σ.postUnits)
    (h3 : ρ.resultUnits = σ.resultUnits) (e : EventPtr) : ρ.unitsAt t e = σ.unitsAt t e := by
  cases e <;> simp [Stage.unitsAt, h1, h2, h3]

/-- A stage that holds one unit of the pre-event more than another. -/
theorem Stage.unitsAt_pre (h1 : ρ.preUnits = σ.preUnits + 1) (h2 : ρ.postUnits = σ.postUnits)
    (h3 : ρ.resultUnits = σ.resultUnits) (e : EventPtr) :
    ρ.unitsAt t e = σ.unitsAt t e + unit (.pre t) e := by
  cases e with
  | pre s =>
      by_cases e : s = t
      · simp [Stage.unitsAt, e, h1]
      · simp [Stage.unitsAt, unit, e, Ne.symm e]
  | _ => simp [Stage.unitsAt, unit, h2, h3]

theorem Stage.unitsAt_post (h1 : ρ.preUnits = σ.preUnits) (h2 : ρ.postUnits = σ.postUnits + 1)
    (h3 : ρ.resultUnits = σ.resultUnits) (e : EventPtr) :
    ρ.unitsAt t e = σ.unitsAt t e + unit (.post t) e := by
  cases e with
  | post s =>
      by_cases e : s = t
      · simp [Stage.unitsAt, e, h2]
      · simp [Stage.unitsAt, unit, e, Ne.symm e]
  | _ => simp [Stage.unitsAt, unit, h1, h3]

theorem Stage.unitsAt_result (h1 : ρ.preUnits = σ.preUnits) (h2 : ρ.postUnits = σ.postUnits)
    (h3 : ρ.resultUnits = σ.resultUnits + 1) (e : EventPtr) :
    ρ.unitsAt t e = σ.unitsAt t e + unit (.resultSet t) e := by
  cases e with
  | resultSet s =>
      by_cases e : s = t
      · simp [Stage.unitsAt, e, h3]
      · simp [Stage.unitsAt, unit, e, Ne.symm e]
  | _ => simp [Stage.unitsAt, unit, h1, h2]

/-- The counters follow a task that goes on to the next stage. -/
theorem Events.counter_go (hE : Events c) (ht : c.stage t = σ)
    (hst : c'.stage = update c.stage t ρ) (hg : c'.getSpent = c.getSpent)
    (hx : c'.extStage = c.extStage) (hf : c'.followers = c.followers) {e : EventPtr}
    (hc : c'.counter e + σ.unitsAt t e = c.counter e + ρ.unitsAt t e) :
    c'.counter e = c'.units e + c'.pending e := by
  have hu := units_stage ht hst hg hx e
  have hp : c'.pending e = c.pending e := by rw [Core.pending, hf, Core.pending]
  have := hE.counter e
  omega

theorem Events.counter_keep (hE : Events c) (ht : c.stage t = σ)
    (hst : c'.stage = update c.stage t ρ) (hg : c'.getSpent = c.getSpent)
    (hx : c'.extStage = c.extStage) (hf : c'.followers = c.followers) {e : EventPtr}
    (hc : c'.counter e = c.counter e) (h1 : ρ.preUnits = σ.preUnits)
    (h2 : ρ.postUnits = σ.postUnits) (h3 : ρ.resultUnits = σ.resultUnits) :
    c'.counter e = c'.units e + c'.pending e := by
  refine hE.counter_go ht hst hg hx hf ?_
  rw [hc, Stage.unitsAt_congr h1 h2 h3]

section Step

variable {old new : List Frame} {M : Multiset Frame}

/-- An event that holds a unit has not been reached. -/
theorem Events.counter_pos (hE : Events c) {e : EventPtr} (h : 0 < c.units e) :
    0 < c.counter e := by
  have := hE.counter e
  omega

/-- The event whose counter the next step of a frame decrements, other than by
notifying a follower. -/
def Frame.takes : Frame → Option EventPtr
  | .init (.resources []) t => some (.pre t)
  | .exec t => some (.pre t)
  | .setResult t => some (.resultSet t)
  | .finish t => some (.post t)
  | .notifyGet t => some (.resultGet t)
  | _ => none

/-- The unit that a frame is about to take is there. -/
theorem Inv.takes_pos (hI : Inv c M) {f : Frame} (hf : f ∈ M) {e : EventPtr}
    (he : f.takes = some e) : 0 < c.counter e := by
  refine hI.events.counter_pos ?_
  unfold Frame.takes at he
  split at he
  · obtain rfl := Option.some.inj he
    rw [Core.units, hI.ledger.stage_eq hf (σ := .init) (by simp [Frame.tasks])]
    decide
  · obtain rfl := Option.some.inj he
    rw [Core.units, hI.ledger.stage_eq hf (σ := .exec) (by simp [Frame.tasks])]
    decide
  · obtain rfl := Option.some.inj he
    rw [Core.units, hI.ledger.stage_eq hf (σ := .result) (by simp [Frame.tasks])]
    decide
  · obtain rfl := Option.some.inj he
    rw [Core.units, hI.ledger.stage_eq hf (σ := .finish) (by simp [Frame.tasks])]
    decide
  · obtain rfl := Option.some.inj he
    rw [Core.units, (hI.ledger.unspent_of_mem hf (by simp [Frame.spends])).2]
    decide
  · simp at he

/-- The event that a frame is about to increment is open. -/
theorem Inv.ups_pos (hI : Inv c M) {f : Frame} (hf : f ∈ M) {e : EventPtr}
    (he : f.upsOn = some e) : 0 < c.counter e := by
  refine hI.events.counter_pos ?_
  unfold Frame.upsOn at he
  split at he
  · obtain rfl := Option.some.inj he
    rw [Core.units, hI.ledger.stage_eq hf (σ := .run) (by simp [Frame.tasks])]
    decide
  · obtain rfl := Option.some.inj he
    rw [Core.units, hI.ledger.stage_eq hf (σ := .run) (by simp [Frame.tasks])]
    decide
  · obtain rfl := Option.some.inj he
    rw [Core.units, hI.ledger.stage_eq hf (σ := .popped) (by simp [Frame.tasks])]
    decide
  · obtain rfl := Option.some.inj he
    rw [Core.units, hI.ledger.stage_eq hf (σ := .init) (by simp [Frame.tasks])]
    decide
  · simp at he

/-- An external event that was not notified is open. -/
theorem Events.live_pos (hE : Events c) {x : Nat} (hx : c.extStage x = .live) :
    0 < c.counter (.external x) :=
  hE.counter_pos (by simp [Core.units, hx])

/-- The follower that a loop is about to notify is open. -/
theorem Inv.follower_pos (hI : Inv c M) {e : EventPtr} {i : Nat} {l : List Nat} {d : Follower}
    (hf : Frame.followers e (i :: l) ∈ M) (hd : c.followers[i]? = some d) :
    0 < c.counter d.dst := by
  have hph : c.phase e = .looping (i :: l) :=
    hI.ledger.phase_eq hf (by simp [Frame.notifies])
  obtain ⟨_, hc, hn⟩ := hI.events.next_entry hph hd
  have h1 := pending_pos hd hc hn
  have h2 := hI.events.counter d.dst
  omega

theorem Inv.counter_step (hI : Inv c (↑old + M))
    (hw : ∀ f ∈ old, ∀ e ∈ f.upsOn, c.counter e + 1 < counterSize)
    (hm : Move c old c' new) (e : EventPtr) : c'.counter e = c'.units e + c'.pending e := by
  have hE := hI.events
  have h := hE.counter e
  have hL := hI.ledger
  have hsub := fun a hpos => counter_fetchSub (a := a) hpos (hE.small a) e
  -- `k` names the new state, whose fields are read off before the cases are split
  obtain ⟨k, hk⟩ : ∃ k, k = c' := ⟨c', rfl⟩
  rw [← hk]
  have hcnt := congrArg (Core.counter · e) hk
  have hst := congrArg Core.stage hk
  have hg := congrArg Core.getSpent hk
  have hx := congrArg Core.extStage hk
  have hf := congrArg Core.followers hk
  have hpend := congrArg (Core.pending · e) hk
  cases hm
  case emplaceRoot | emplaceChild =>
    exact hE.counter_keep ((hE.born c.next).mpr le_rfl) hst hg hx hf hcnt rfl rfl rfl
  case bodyDone t hcode =>
    have ht : c.stage t = .run := hL.stage_head List.mem_cons_self
    exact hE.counter_keep ht hst hg hx hf hcnt rfl rfl rfl
  case emplaced t cur =>
    have ht : c.stage t = .submit := hL.stage_head List.mem_cons_self
    exact hE.counter_keep ht hst hg hx hf hcnt rfl rfl rfl
  case popEmplaced t ht =>
    exact hE.counter_keep (hL.stage_of_mem_emplaced ht) hst hg hx hf hcnt rfl rfl rfl
  case popReady t ht =>
    exact hE.counter_keep (hL.stage_of_mem_ready ht) hst hg hx hf hcnt rfl rfl rfl
  -- the unit of the initialisation is added before the lists are scanned
  case initUp t =>
    have ht : c.stage t = .popped := hL.stage_head List.mem_cons_self
    have hup := counter_up (hw (.init .up t) (by simp) _ rfl) e
    have hu := Stage.unitsAt_pre (σ := .popped) (ρ := .init) (t := t) rfl rfl rfl e
    refine hE.counter_go ht hst hg hx hf ?_
    rw [show k.counter e = (c.up (.pre t)).counter e from hcnt]
    omega
  -- the three steps that give it back
  case claim t hc =>
    have ht : c.stage t = .init := hL.stage_head List.mem_cons_self
    have hs := hsub (.pre t) (hI.takes_pos mem_head rfl)
    have hu := Stage.unitsAt_pre (σ := .exec) (ρ := .init) (t := t) rfl rfl rfl e
    have hst' : k.stage = update c.stage t .exec := by
      rw [hst]
      simp [Core.setStage, Core.fetchSub, Core.activated, hc]
    refine hE.counter_go ht hst' hg hx hf ?_
    rw [show k.counter e = (c.fetchSub (.pre t)).counter e from hcnt]
    omega
  case block t hc =>
    have ht : c.stage t = .init := hL.stage_head List.mem_cons_self
    have hs := hsub (.pre t) (hI.takes_pos mem_head rfl)
    have hu := Stage.unitsAt_pre (σ := .blocked) (ρ := .init) (t := t) rfl rfl rfl e
    have hst' : k.stage = update c.stage t .blocked := by
      rw [hst]
      simp [Core.setStage, Core.fetchSub, Core.activated, hc]
    refine hE.counter_go ht hst' hg hx hf ?_
    rw [show k.counter e = (c.fetchSub (.pre t)).counter e from hcnt]
    omega
  case exec t =>
    have ht : c.stage t = .exec := hL.stage_head List.mem_cons_self
    have hs := hsub (.pre t) (hI.takes_pos mem_head rfl)
    have hu := Stage.unitsAt_pre (σ := .run) (ρ := .exec) (t := t) rfl rfl rfl e
    have hst' : k.stage = update c.stage t .run := by
      rw [hst]
      simp [Core.setStage, Core.fetchSub, Core.activated, hE.fresh.exec t ht]
    refine hE.counter_go ht hst' hg hx hf ?_
    rw [show k.counter e = (c.fetchSub (.pre t)).counter e from hcnt]
    omega
  case setResult t =>
    have ht : c.stage t = .result := hL.stage_head List.mem_cons_self
    have hs := hsub (.resultSet t) (hI.takes_pos mem_head rfl)
    have hu := Stage.unitsAt_result (σ := .finish) (ρ := .result) (t := t) rfl rfl rfl e
    refine hE.counter_go ht hst hg hx hf ?_
    rw [show k.counter e = (c.fetchSub (.resultSet t)).counter e from hcnt]
    omega
  case finish t =>
    have ht : c.stage t = .finish := hL.stage_head List.mem_cons_self
    have hs := hsub (.post t) (hI.takes_pos mem_head rfl)
    have hu := Stage.unitsAt_post (σ := .done) (ρ := .finish) (t := t) rfl rfl rfl e
    refine hE.counter_go ht hst hg hx hf ?_
    rw [show k.counter e = (c.fetchSub (.post t)).counter e from hcnt]
    omega
  case notifyGet t =>
    have ht := (hL.unspent_of_mem (f := .notifyGet t) (t := t) (by simp) (by simp [Frame.spends])).2
    have hs := hsub (.resultGet t) (hI.takes_pos mem_head rfl)
    have hu : k.units e + unit (.resultGet t) e = c.units e := by
      cases e with
      | resultGet s =>
          by_cases e : s = t
          · subst e
            simp [Core.units, hg, ht]
          · simp [Core.units, hg, e, unit, Ne.symm e]
      | _ => simp [Core.units, hst, hx, unit, Core.fetchSub, Core.activated]
    have hc : k.counter e = (c.fetchSub (.resultGet t)).counter e := hcnt
    have hp : k.pending e = c.pending e := hpend
    omega
  case fire x hlive =>
    have hs := hsub (.external x) (hE.live_pos hlive)
    have hu : k.units e + unit (.external x) e = c.units e := by
      cases e with
      | external y =>
          by_cases e : y = x
          · subst e
            simp [Core.units, hx, hlive]
          · simp [Core.units, hx, e, unit, Ne.symm e]
      | _ => simp [Core.units, hst, hg, unit, Core.fetchSub, Core.activated]
    have hc : k.counter e = (c.fetchSub (.external x)).counter e := hcnt
    have hp : k.pending e = c.pending e := hpend
    omega
  case createEvent t k' hcode =>
    have hn : c.extStage c.nextEvent = .unborn := (hE.event _).mpr le_rfl
    have hu : k.units e = c.units e := by
      cases e with
      | external y =>
          by_cases e : y = c.nextEvent
          · subst e
            simp [Core.units, hx, hn]
          · simp [Core.units, hx, e]
      | _ => simp [Core.units, hst, hg, Core.pushFollower]
    have hc : k.counter e = c.counter e := hcnt
    have hp : k.pending e = c.pending e := by
      rw [Core.pending, hf]
      exact countP_waits_push e
    omega
  case parentFollower t u hr | push r n p es t =>
    have hu : k.units e = c.units e := units_congr hst hg hx e
    have hc : k.counter e = c.counter e := hcnt
    have hp : k.pending e = c.pending e := by
      rw [Core.pending, hf]
      exact countP_waits_push e
    omega
  case makeEvent i x t =>
    have hi : c.followers[i]? = _ := hI.frames (.makeEvent i x t) mem_head
    have hcr :=
      hL.extStage_of_mem (f := .makeEvent i x t) (x := x) (by simp) (by simp [Frame.events])
    have hup := counter_up (hw (.makeEvent i x t) (by simp) _ rfl) e
    have hu : k.units e = c.units e := by
      cases e with
      | external y =>
          by_cases e : y = x
          · subst e
            simp [Core.units, hx, hcr]
          · simp [Core.units, hx, e]
      | _ => simp [Core.units, hst, hg, Core.count, Core.up]
    have hc : k.counter e = (c.up (.post t)).counter e := hcnt
    have hp : k.pending e = c.pending e + unit (.post t) e := by
      rw [Core.pending, hf, ← toNat_beq]
      exact countP_waits_count hi e
    omega
  case parentCount i t u =>
    obtain ⟨_, _, u', hu', hi⟩ := hI.frames (.submit (.count i) t (some u)) mem_head
    obtain rfl := Option.some.inj hu'
    have hup := counter_up (hw (.submit (.count i) t (some u)) (by simp) _ rfl) e
    have hu : k.units e = c.units e := units_congr hst hg hx e
    have hc : k.counter e = (c.up (.post u)).counter e := hcnt
    have hp : k.pending e = c.pending e + unit (.post u) e := by
      rw [Core.pending, hf, ← toNat_beq]
      exact countP_waits_count hi e
    omega
  case count r n p es i t =>
    have hi := (hI.frames (.init (.count r n p es i) t) mem_head).2
    have hup := counter_up (hw (.init (.count r n p es i) t) (by simp) _ rfl) e
    have hu : k.units e = c.units e := units_congr hst hg hx e
    have hc : k.counter e = (c.up (.pre t)).counter e := hcnt
    have hp : k.pending e = c.pending e + unit (.pre t) e := by
      rw [Core.pending, hf, ← toNat_beq]
      exact countP_waits_count hi e
    omega
  case notifyFollower e' i todo d hd =>
    have hph : c.phase e' = .looping (i :: todo) := hL.phase_head List.mem_cons_self
    obtain ⟨_, hc, hn⟩ := hE.next_entry hph hd
    have hs := hsub d.dst (hI.follower_pos mem_head hd)
    have hcn : k.counter e = (c.fetchSub d.dst).counter e := hcnt
    have hp : k.pending e + unit d.dst e = c.pending e := by
      rw [Core.pending, hf, ← toNat_beq]
      exact countP_waits_notify hd hc hn e
    have hu : k.units e = c.units e := by
      by_cases hact : ∃ t, d.dst = .pre t ∧ c.counter (.pre t) = 2
      · -- only the own unit of the task is left, and the task becomes ready
        obtain ⟨t, hdst, htwo⟩ := hact
        have hst' : k.stage = update c.stage t .active := by
          rw [hst]
          show c.activated d.dst = _
          rw [hdst]
          exact if_pos htwo
        have hu := units_stage (hE.blocked_of_two hph hd hdst htwo) hst' hg hx e
        have heq := Stage.unitsAt_congr (σ := .blocked) (ρ := .active) (t := t) rfl rfl rfl e
        omega
      · exact units_congr (hst.trans (activated_of_ne fun t ht h => hact ⟨t, ht, ht ▸ h⟩)) hg hx e
    omega
  all_goals
    subst hk
    exact h

theorem open_fetchSub (hE : Events c) (hpos : 0 < c.counter a) (e : EventPtr) :
    (c.fetchSub a).phase e = .open ↔ (c.fetchSub a).counter e ≠ 0 := by
  have hsub := counter_fetchSub hpos (hE.small a) e
  have ho := hE.open_iff e
  by_cases h1 : c.counter a = 1
  · by_cases he : e = a
    · subst he
      rw [unit_self] at hsub
      simp only [Core.fetchSub, if_pos h1, update_self, reduceCtorEq, false_iff, not_not]
      simp only [Core.fetchSub, update_self] at hsub
      omega
    · rw [unit_of_ne he] at hsub
      rw [show (c.fetchSub a).phase e = c.phase e by simp [Core.fetchSub, h1, he], ho]
      omega
  · rw [show (c.fetchSub a).phase e = c.phase e by simp [Core.fetchSub, h1], ho]
    by_cases he : e = a
    · subst he
      rw [unit_self] at hsub
      omega
    · rw [unit_of_ne he] at hsub
      omega

theorem open_up (hE : Events c) (hpos : 0 < c.counter a) (hw : c.counter a + 1 < counterSize)
    (e : EventPtr) : c.phase e = .open ↔ (c.up a).counter e ≠ 0 := by
  rw [hE.open_iff e, counter_up hw]
  by_cases he : e = a
  · subst he
    rw [unit_self]
    omega
  · rw [unit_of_ne he]
    rfl

theorem open_setPhase {ph ph' : Phase} (ho : ∀ e, c.phase e = .open ↔ c.counter e ≠ 0)
    (h1 : c.phase a = ph) (h2 : ph ≠ .open) (h3 : ph' ≠ .open) (e : EventPtr) :
    update c.phase a ph' e = .open ↔ c.counter e ≠ 0 := by
  by_cases he : e = a
  · subst he
    rw [update_self, ← ho e, h1]
    simp [h2, h3]
  · rw [update_of_ne he, ho e]

theorem Inv.open_step (hI : Inv c (↑old + M))
    (hw : ∀ f ∈ old, ∀ e ∈ f.upsOn, c.counter e + 1 < counterSize)
    (hm : Move c old c' new) (e : EventPtr) : c'.phase e = .open ↔ c'.counter e ≠ 0 := by
  have hE := hI.events
  have hL := hI.ledger
  cases hm
  case initUp | makeEvent | parentCount | count =>
    exact open_up hE (hI.ups_pos mem_head rfl) (hw _ (List.mem_singleton_self _) _ rfl) e
  case claim | block | exec | setResult | finish | notifyGet =>
    exact open_fetchSub hE (hI.takes_pos mem_head rfl) e
  case fire x hx => exact open_fetchSub hE (hE.live_pos hx) e
  case notifyFollower e' i todo d hd =>
    have hph : c.phase e' = .looping (i :: todo) := hL.phase_head List.mem_cons_self
    have hpos := hI.follower_pos mem_head hd
    -- the loop's own event is at zero, so it is not the follower
    have hne : e' ≠ d.dst := by
      intro h
      have hz := (hE.open_iff e').not.mp (by rw [hph]; simp)
      rw [h] at hz
      omega
    have hph' : (c.fetchSub d.dst).phase e' = .looping (i :: todo) := by
      rw [← hph]
      by_cases h1 : c.counter d.dst = 1 <;> simp [Core.fetchSub, h1, hne]
    exact open_setPhase (open_fetchSub hE hpos) hph' (by simp) (by simp) e
  case wakerReached e' b he =>
    have hph : c.phase e' = .reached := hL.phase_head List.mem_cons_self
    exact open_setPhase hE.open_iff hph (by simp) (by simp) e
  case deleteEnd t =>
    have hph : c.phase (.post t) = .reached := hL.phase_head List.mem_cons_self
    exact open_setPhase hE.open_iff hph (by simp) (by simp) e
  case loop e' =>
    have hph : c.phase e' = .drained := hL.phase_head List.mem_cons_self
    exact open_setPhase hE.open_iff hph (by simp) (by simp) e
  case loopedRemoval e' t he | loopedEnd e' he =>
    have hph : c.phase e' = .looping [] := hL.phase_head List.mem_cons_self
    exact open_setPhase hE.open_iff hph (by simp) (by simp) e
  case removal e' t =>
    have hph : c.phase e' = .looped := hL.phase_head List.mem_cons_self
    exact open_setPhase hE.open_iff hph (by simp) (by simp) e
  all_goals exact hE.open_iff e

theorem Inv.small_step (hI : Inv c (↑old + M)) (hm : Move c old c' new) (e : EventPtr) :
    c'.counter e < counterSize := by
  have h := hI.events.small e
  have hlt : ∀ n, n % counterSize < counterSize := fun n => Nat.mod_lt _ (by decide)
  have hup : ∀ a (k : Nat), update c.counter a (k % counterSize) e < counterSize := by
    intro a k
    by_cases he : e = a
    · subst he
      rw [update_self]
      exact hlt k
    · rw [update_of_ne he]
      exact h
  cases hm
  case initUp | makeEvent | parentCount | count => exact hup _ _
  case claim | block | exec | setResult | finish | notifyGet | fire | notifyFollower => exact hup _ _
  all_goals exact h

end Step

end Counter

end RedGrapes.Runtime
