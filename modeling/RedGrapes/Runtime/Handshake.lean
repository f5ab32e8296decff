/-
RedGrapes/Runtime/Handshake.lean

The handshake between a task that is initialised and the predecessors that
complete: every follower entry is notified exactly once, and every task is
handed to execution exactly once, after its last entry (`dependency_handshake`).
-/
import RedGrapes.Runtime.Lists

namespace RedGrapes.Runtime

open Function Machine

variable {V : Type}

/-! ### Handing a task to execution -/

/-- A task is handed over once, when it becomes ready: by the claim of its
initialiser, or by the call of `activate_task` that is still to come. -/
def HandedOnce (c : Core V) (M : Multiset Frame) : Prop :=
  ∀ t, c.handed t + tally Frame.tasks M (some t, .active) = (decide (.active ≤ c.stage t)).toNat

section Step

variable {c c' : Core V} {old new : List Frame} {M : Multiset Frame}

/-- The frames that hold a task on its way to the ready queue. -/
theorem active_notifyTail {e : EventPtr} {b : Bool} {t : Nat}
    (h : b = true ∨ ∀ s, e = .pre s → c.counter e ≠ 2) :
    ((c.notifyTail e b).flatMap Frame.tasks).count (some t, .active) = 0 := by
  cases b with
  | true => rw [tasks_notifyTail_claimed, List.count_nil]
  | false =>
      rw [tasks_notifyTail (h.resolve_left (by simp)), List.count_nil]

/-- A step between two stages on the same side of `active`. -/
theorem decide_active_update {st : Nat → Stage} {s : Nat} {σ' : Stage}
    (h : decide (.active ≤ σ') = decide (.active ≤ st s)) (t : Nat) :
    decide (.active ≤ update st s σ' t) = decide (.active ≤ st t) := by
  by_cases e : t = s
  · subst e
    rw [update_self, h]
  · rw [update_of_ne e]

theorem HandedOnce.step (hI : Inv c (↑old + M)) (h : HandedOnce c (↑old + M))
    (hm : Move c old c' new) : HandedOnce c' (↑new + M) := by
  intro t
  have ht := h t
  have hL := hI.ledger
  have hE := hI.events
  rw [tally_coe_add] at ht ⊢
  -- a step that neither hands over nor makes a task ready
  have hquiet : ∀ {s : Nat} {σ σ' : Stage}, c.stage s = σ → c'.handed = c.handed →
      c'.stage = update c.stage s σ' → decide (.active ≤ σ') = decide (.active ≤ σ) →
      (new.flatMap Frame.tasks).count (some t, .active) =
        (old.flatMap Frame.tasks).count (some t, .active) →
      c'.handed t + ((new.flatMap Frame.tasks).count (some t, .active) +
        tally Frame.tasks M (some t, .active)) = (decide (.active ≤ c'.stage t)).toNat := by
    intro s σ σ' hs hh hst hσ hcount
    rw [hh, hst, hcount, decide_active_update (by rw [hs, hσ]), ht]
  cases hm
  case emplaceRoot | emplaceChild =>
    exact hquiet ((hE.born _).mpr le_rfl) rfl rfl (by decide) (by simp [Frame.tasks])
  case bodyDone s hcode =>
    have hs : c.stage s = .run := hL.stage_head List.mem_cons_self
    exact hquiet hs rfl rfl (by decide) (by simp [Frame.tasks])
  case emplaced s cur =>
    have hs : c.stage s = .submit := hL.stage_head List.mem_cons_self
    exact hquiet hs rfl rfl (by decide) (by simp [Frame.tasks])
  case popEmplaced s hs =>
    exact hquiet (hL.stage_of_mem_emplaced hs) rfl rfl (by decide) (by simp [Frame.tasks])
  case popReady s hs =>
    exact hquiet (hL.stage_of_mem_ready hs) rfl rfl (by decide) (by simp [Frame.tasks])
  case initUp s =>
    have hs : c.stage s = .popped := hL.stage_head List.mem_cons_self
    exact hquiet hs rfl rfl (by decide) (by simp [Frame.tasks])
  case claim s hc =>
    have hs : c.stage s = .init := hL.stage_head List.mem_cons_self
    have hnew : ((c.notifyTail (.pre s) true ++ [Frame.exec s]).flatMap Frame.tasks).count
        (some t, .active) = 0 := by
      rw [List.flatMap_append, List.count_append, active_notifyTail (.inl rfl)]
      simp [Frame.tasks]
    have hold : ([Frame.init (.resources []) s].flatMap Frame.tasks).count (some t, .active) = 0 := by
      simp [Frame.tasks]
    rw [hold] at ht
    rw [hnew]
    show update c.handed s (c.handed s + 1) t + (0 + tally Frame.tasks M (some t, .active)) =
      (decide (.active ≤ update (c.activated (.pre s)) s .exec t)).toNat
    by_cases e : t = s
    · subst e
      rw [hs] at ht
      rw [update_self, update_self]
      simp only [show decide (Stage.active ≤ Stage.init) = false from rfl,
        show decide (Stage.active ≤ Stage.exec) = true from rfl, Bool.toNat_true,
        Bool.toNat_false] at ht ⊢
      omega
    · rw [update_of_ne e, update_of_ne e, ht]
      simp [Core.activated, hc, e]
  case block s hc =>
    have hs : c.stage s = .init := hL.stage_head List.mem_cons_self
    have hst : update (c.activated (.pre s)) s .blocked = update c.stage s .blocked := by
      rw [activated_of_ne fun _ _ => hc]
    refine hquiet hs rfl hst (by decide) ?_
    rw [active_notifyTail (.inl rfl)]
    simp [Frame.tasks]
  case exec s =>
    have hs : c.stage s = .exec := hL.stage_head List.mem_cons_self
    have hc := hE.fresh.exec s hs
    have hst : update (c.activated (.pre s)) s .run = update c.stage s .run := by
      rw [activated_of_ne fun _ _ => hc]
    refine hquiet hs rfl hst (by decide) ?_
    rw [List.flatMap_append, List.count_append, active_notifyTail (.inr fun _ _ => hc)]
    simp [Frame.tasks]
  case setResult s =>
    have hs : c.stage s = .result := hL.stage_head List.mem_cons_self
    refine hquiet hs rfl rfl (by decide) ?_
    rw [List.flatMap_append, List.count_append, active_notifyTail (.inr (by simp))]
    simp [Frame.tasks]
  case finish s =>
    have hs : c.stage s = .finish := hL.stage_head List.mem_cons_self
    refine hquiet hs rfl rfl (by decide) ?_
    rw [active_notifyTail (.inr (by simp))]
    simp [Frame.tasks]
  case notifyGet s | fire x hx =>
    rw [active_notifyTail (.inr (by simp))]
    exact ht
  case activate s =>
    show update c.handed s (c.handed s + 1) t + (0 + tally Frame.tasks M (some t, .active)) = _
    rw [← ht]
    by_cases e : t = s
    · subst e
      simp [Frame.tasks]
      omega
    · simp [Frame.tasks, e, Ne.symm e]
  case notifyFollower e i todo d hd =>
    have hph : c.phase e = .looping (i :: todo) := hL.phase_head List.mem_cons_self
    by_cases hact : ∃ s, d.dst = .pre s ∧ c.counter (.pre s) = 2
    · obtain ⟨s, hdst, htwo⟩ := hact
      have hs := hE.blocked_of_two hph hd hdst htwo
      rw [hdst, List.flatMap_append, List.count_append, tasks_notifyTail_ready htwo]
      show c.handed t + ([(some s, Stage.active)].count (some t, .active) + 0 +
        tally Frame.tasks M (some t, .active)) =
        (decide (.active ≤ (if c.counter (.pre s) = 2 then update c.stage s .active else c.stage) t)).toNat
      rw [if_pos htwo]
      have hold : ([Frame.followers e (i :: todo)].flatMap Frame.tasks).count (some t, .active) = 0 :=
        rfl
      rw [hold] at ht
      by_cases e : t = s
      · subst e
        rw [hs] at ht
        rw [update_self]
        simp only [show decide (Stage.active ≤ Stage.blocked) = false from rfl,
          show decide (Stage.active ≤ Stage.active) = true from rfl, Bool.toNat_true,
          Bool.toNat_false, List.count_singleton_self] at ht ⊢
        omega
      · rw [update_of_ne e, ← ht]
        simp [Ne.symm e]
    · have hne : ∀ s, d.dst = .pre s → c.counter d.dst ≠ 2 := fun s h1 h2 => hact ⟨s, h1, h1 ▸ h2⟩
      rw [List.flatMap_append, List.count_append, active_notifyTail (.inr hne)]
      show c.handed t + (0 + 0 + tally Frame.tasks M (some t, .active)) =
        (decide (.active ≤ c.activated d.dst t)).toNat
      rw [activated_of_ne hne]
      simpa [Frame.tasks] using ht
  case wakerEnd e old b h1 h2 =>
    simpa [tasks_waker h2] using ht
  case wakerReached e b he =>
    rw [List.flatMap_singleton, tasks_waker fun h => absurd h (by decide)] at ht
    exact ht
  case removal => split_ifs <;> exact ht
  all_goals exact ht

theorem HandedOnce.initial (prog : Body V) (store : Resource → V) :
    HandedOnce (Core.initial prog store) {.body none} := fun _ => rfl

end Step

/-! ### The dependency handshake -/

/-- The frame is inside the call of `notify` that has reached `e`. -/
def Frame.inNotify (e : EventPtr) : Frame → Prop
  | .waker e' 1 _ => e' = e
  | .delete _ t => e = .post t
  | .loop e' => e' = e
  | .followers e' _ => e' = e
  | .removal e' _ => e' = e
  | .free t => e = .post t ∨ e = .resultGet t
  | _ => False

theorem Frame.inNotify_of_mem {f : Frame} {e : EventPtr} {ph : Phase} (h : (e, ph) ∈ f.notifies) :
    f.inNotify e := by
  unfold Frame.notifies at h
  split at h <;> simp_all [Frame.inNotify]

variable {Tid : Type} [DecidableEq Tid] [Fintype Tid]

/-- `e` is reached, and the call of `notify` that reached it has returned. -/
def State.Returned (s : State Tid V) (e : EventPtr) : Prop :=
  s.core.counter e = 0 ∧ ∀ i, ∀ f ∈ s.threads i, ¬ f.inNotify e

omit [DecidableEq Tid] in
theorem Inv.gone_of_returned {s : State Tid V} (hI : Inv s.core (Machine.frames s.threads)) {e : EventPtr}
    (h : s.Returned e) : s.core.phase e = .gone := by
  have hne : s.core.phase e ≠ .open := (hI.events.open_iff e).not.mpr (by simp [h.1])
  have hh : (s.core.phase e).inHand = false := by
    by_contra hc
    obtain ⟨f, hf, hmem⟩ := hI.ledger.exists_notify (by simpa using hc)
    obtain ⟨i, hi⟩ := mem_frames.mp hf
    exact h.2 i f hi (Frame.inNotify_of_mem hmem)
  cases hp : s.core.phase e <;> rw [hp] at hh hne <;> simp_all [Phase.inHand]

/-- The dependency handshake: an entry on a post-event is notified at most
once, and exactly once when the notification of the post-event has returned; a
task is handed to execution at most once, and only when its initialisation is
over and all its entries are notified. -/
theorem dependency_handshake {main : Tid} {prog : Body V} {store : Resource → V}
    {s : State Tid V} (hs : Reaches step NoWrap (State.initial main prog store) s) :
    (∀ d ∈ s.core.followers, ∀ p, d.src = .post p → d.notified ≤ 1) ∧
    (∀ p, s.Returned (.post p) → ∀ d ∈ s.core.followers, d.src = .post p → d.notified = 1) ∧
    ∀ t, s.core.handed t ≤ 1 ∧ (0 < s.core.handed t →
      .blocked ≤ s.core.stage t ∧ (∀ i pc, Frame.init pc t ∉ s.threads i) ∧
      ∀ d ∈ s.core.followers, d.dst = .pre t → d.notified = 1) := by
  have h : Inv s.core (frames s.threads) ∧ HandedOnce s.core (frames s.threads) := by
    refine invariant_of_moves (I := fun c M => Inv c M ∧ HandedOnce c M)
      ⟨Inv.initial prog store, HandedOnce.initial prog store⟩ (fun hw hm hI => ?_) hs
    exact ⟨hI.1.step hw hm, hI.2.step hI.1 hm⟩
  obtain ⟨hI, hH⟩ := h
  refine ⟨fun d hd p _ => ?_, fun p hp d hd hsrc => ?_, fun t => ?_⟩
  · obtain ⟨i, hi⟩ := List.mem_iff_getElem?.mp hd
    rw [(hI.events.edge i d hi).notified]
    exact Bool.toNat_le _
  · obtain ⟨i, hi⟩ := List.mem_iff_getElem?.mp hd
    rw [(hI.events.edge i d hi).notified, hsrc, hI.gone_of_returned hp]
    rfl
  · have ht := hH t
    have hle := (decide (Stage.active ≤ s.core.stage t)).toNat_le
    refine ⟨by omega, fun hpos => ?_⟩
    have hact : Stage.active ≤ s.core.stage t := by
      by_contra hn
      rw [decide_eq_false hn] at ht
      simp at ht
      omega
    refine ⟨le_trans (by decide : Stage.blocked.rank ≤ Stage.active.rank) hact, ?_, ?_⟩
    · intro i pc hmem
      have hf : Frame.init pc t ∈ frames s.threads := mem_frames.mpr ⟨i, hmem⟩
      have hearly : s.core.stage t = .popped ∨ s.core.stage t = .init := by
        cases pc with
        | up => exact .inl (hI.ledger.stage_eq hf (by simp [Frame.tasks]))
        | _ => exact .inr (hI.ledger.stage_eq hf (by simp [Frame.tasks]))
      rcases hearly with e | e <;> rw [e] at hact <;> exact absurd hact (by decide)
    · intro d hd hdst
      obtain ⟨i, hi⟩ := List.mem_iff_getElem?.mp hd
      exact (hI.events.edge i d hi).activated t hdst hact

/-- Two tasks that write the same resource. -/
def twoWriters : Body Nat :=
  .emplace [.resources [Graph.ioAccess 0 .write]] (.write (Graph.ioResource 0) 1 .done)
    (.emplace [.resources [Graph.ioAccess 0 .write]] (.write (Graph.ioResource 0) 2 .done) .done)

/-- The second writer is initialised while the first is about to run, and
handed over when the first completes. -/
def twoWritersRun : List (Action (Fin 3)) :=
  List.flatten [.replicate 8 (.run 0), .call 1 (.popEmplaced 0) :: .replicate 6 (.run 1),
    .call 2 (.popEmplaced 1) :: .replicate 10 (.run 2), .replicate 22 (.run 1)]

theorem dependency_handshake_two_writers :
    ∃ s : State (Fin 3) Nat, s.core.handed 1 = 1 ∧ s.core.followers.length = 1 ∧
      (∀ d ∈ s.core.followers, ∀ p, d.src = .post p → d.notified ≤ 1) ∧
      (∀ p, s.Returned (.post p) → ∀ d ∈ s.core.followers, d.src = .post p → d.notified = 1) ∧
      ∀ t, s.core.handed t ≤ 1 ∧ (0 < s.core.handed t →
        .blocked ≤ s.core.stage t ∧ (∀ i pc, Frame.init pc t ∉ s.threads i) ∧
        ∀ d ∈ s.core.followers, d.dst = .pre t → d.notified = 1) := by
  have hrun : ((exec step NoWrap twoWritersRun (State.initial 0 twoWriters fun _ => 0)).map
      fun s => (s.core.handed 1, s.core.followers.length)) = some (1, 1) := by
    decide +kernel
  obtain ⟨s, hs, h⟩ := Option.map_eq_some_iff.mp hrun
  obtain ⟨h1, h2⟩ := Prod.mk.inj h
  exact ⟨s, h1, h2, dependency_handshake (Reaches.refl.of_exec hs)⟩


end RedGrapes.Runtime
