/-
RedGrapes/Runtime/Removal.lean

When a task is freed, and who may still look at it.

`removal_countdown` starts at two; the notifications of post-event and
result-get-event count it down when they are through with the follower list,
and the second one calls `free_task` (`Removal`).
-/
import RedGrapes.Runtime.Order

namespace RedGrapes.Runtime

open Function Machine

variable {V : Type}

/-! ### The countdown -/

/-- The tasks that the frame is about to free. -/
def Frame.frees : Frame → List Nat
  | .free t => [t]
  | _ => []

/-- The notification of `e` is over. -/
def Core.goneBit (c : Core V) (e : EventPtr) : Nat := (c.phase e == .gone).toNat

/-- The countdown counts the notifications that are over, and the task is freed
by the second of them. -/
structure Removal (c : Core V) (M : Multiset Frame) : Prop where
  countdown : ∀ t, c.removalCountdown t + c.goneBit (.post t) + c.goneBit (.resultGet t) = 2
  freed : ∀ t, c.freed t + tally Frame.frees M t = c.goneBit (.post t) * c.goneBit (.resultGet t)

section Step

variable {c c' : Core V} {old new : List Frame} {M : Multiset Frame} {t : Nat}

theorem goneBit_le (c : Core V) (e : EventPtr) : c.goneBit e ≤ 1 := Bool.toNat_le _

theorem goneBit_eq_one {e : EventPtr} : c.goneBit e = 1 ↔ c.phase e = .gone := by
  simp [Core.goneBit]

theorem goneBit_of_ne {e : EventPtr} (h : c.phase e ≠ .gone) : c.goneBit e = 0 := by
  simp [Core.goneBit, h]

theorem frees_notifyTail {e : EventPtr} {b : Bool} :
    (c.notifyTail e b).flatMap Frame.frees = [] := flatMap_notifyTail fun _ => rfl

/-- A notification does not end where it only goes on. -/
theorem goneBit_update {e e₁ : EventPtr} {ph ph' : Phase} (h : c.phase e₁ = ph) (h1 : ph ≠ .gone)
    (h2 : ph' ≠ .gone) (hph : c'.phase = update c.phase e₁ ph') : c'.goneBit e = c.goneBit e := by
  by_cases he : e = e₁
  · subst he
    rw [goneBit_of_ne (by rw [hph, update_self]; exact h2), goneBit_of_ne (by rw [h]; exact h1)]
  · rw [Core.goneBit, Core.goneBit, hph, update_of_ne he]

theorem goneBit_fetchSub (hE : Events c) (e₁ e : EventPtr) :
    (c.fetchSub e₁).goneBit e = c.goneBit e := by
  by_cases h1 : c.counter e₁ = 1
  · exact goneBit_update (hE.fresh.one e₁ h1) (by simp) (by simp) (if_pos h1)
  · rw [Core.goneBit, Core.goneBit]
    show ((if c.counter e₁ = 1 then _ else c.phase) e == Phase.gone).toNat = _
    rw [if_neg h1]

theorem Removal.step (hI : Inv c (↑old + M)) (h : Removal c (↑old + M)) (hm : Move c old c' new) :
    Removal c' (↑new + M) := by
  have hL := hI.ledger
  have hE := hI.events
  -- a step that ends no notification and frees nothing
  have hquiet : c'.removalCountdown = c.removalCountdown → c'.freed = c.freed →
      (∀ e, (∃ t, e = .post t ∨ e = .resultGet t) → c'.goneBit e = c.goneBit e) →
      old.flatMap Frame.frees = [] → new.flatMap Frame.frees = [] → Removal c' (↑new + M) := by
    intro hr hf hg ho hn
    refine ⟨fun t => ?_, fun t => ?_⟩
    · rw [hr, hg _ ⟨t, .inl rfl⟩, hg _ ⟨t, .inr rfl⟩]
      exact h.countdown t
    · have hfr := h.freed t
      rw [tally_coe_add, ho] at hfr
      rw [tally_coe_add, hn, hf, hg _ ⟨t, .inl rfl⟩, hg _ ⟨t, .inr rfl⟩]
      exact hfr
  cases hm
  case claim t _ | exec t | setResult t =>
    refine hquiet rfl rfl (fun e _ => goneBit_fetchSub hE _ e) rfl ?_
    rw [List.flatMap_append, frees_notifyTail]
    rfl
  case block t _ | finish t | fire _ _ | notifyGet t =>
    exact hquiet rfl rfl (fun e _ => goneBit_fetchSub hE _ e) rfl frees_notifyTail
  case notifyFollower e i todo d hd =>
    have hph : c.phase e = .looping (i :: todo) := hL.phase_head List.mem_cons_self
    refine hquiet rfl rfl (fun e' _ => ?_) rfl ?_
    · have hgone : (c.fetchSub d.dst).phase e ≠ .gone := by
        intro hg
        have h1 := goneBit_eq_one.mpr hg
        rw [goneBit_fetchSub hE, goneBit_of_ne (by rw [hph]; simp)] at h1
        simp at h1
      rw [← goneBit_fetchSub hE d.dst e']
      exact goneBit_update rfl hgone (by simp) rfl
    · rw [List.flatMap_append, frees_notifyTail]
      rfl
  case wakerReached e b he =>
    have hph : c.phase e = .reached := hL.phase_head List.mem_cons_self
    exact hquiet rfl rfl (fun e' _ => goneBit_update hph (by simp) (by simp) rfl) rfl rfl
  case deleteEnd t =>
    have hph : c.phase (.post t) = .reached := hL.phase_head List.mem_cons_self
    exact hquiet rfl rfl (fun e' _ => goneBit_update hph (by simp) (by simp) rfl) rfl rfl
  case loop e =>
    have hph : c.phase e = .drained := hL.phase_head List.mem_cons_self
    exact hquiet rfl rfl (fun e' _ => goneBit_update hph (by simp) (by simp) rfl) rfl rfl
  case loopedRemoval e t _ =>
    have hph : c.phase e = .looping [] := hL.phase_head List.mem_cons_self
    exact hquiet rfl rfl (fun e' _ => goneBit_update hph (by simp) (by simp) rfl) rfl rfl
  case loopedEnd e he =>
    refine hquiet rfl rfl (fun e' ⟨t, ht⟩ => ?_) rfl rfl
    have hne : e' ≠ e := by
      rintro rfl
      exact ht.elim (he t).1 (he t).2
    show (update c.phase e .gone e' == Phase.gone).toNat = _
    rw [update_of_ne hne]
    rfl
  case removal e t =>
    have hph : c.phase e = .looped := hL.phase_head List.mem_cons_self
    have he : e = .post t ∨ e = .resultGet t := hI.frames (.removal e t) mem_head
    have hzero := goneBit_of_ne (c := c) (e := e) (by rw [hph]; simp)
    have hbit : ∀ e', (update c.phase e .gone e' == Phase.gone).toNat =
        if e' = e then 1 else c.goneBit e' := by
      intro e'
      split_ifs with hee
      · rw [hee, update_self]
        rfl
      · rw [update_of_ne hee]
        rfl
    have hother : ∀ s, s ≠ t → EventPtr.post s ≠ e ∧ EventPtr.resultGet s ≠ e := by
      rintro s hs
      rcases he with rfl | rfl <;> simp [hs]
    refine ⟨fun s => ?_, fun s => ?_⟩
    · show update c.removalCountdown t _ s + (update c.phase e .gone (.post s) == Phase.gone).toNat +
        (update c.phase e .gone (.resultGet s) == Phase.gone).toNat = 2
      rw [hbit, hbit]
      have hc := h.countdown s
      by_cases hs : s = t
      · subst hs
        rw [update_self]
        have h1 := goneBit_le c (.post s)
        have h2 := goneBit_le c (.resultGet s)
        rcases he with rfl | rfl <;> simp <;> omega
      · rw [update_of_ne hs, if_neg (hother s hs).1, if_neg (hother s hs).2]
        exact hc
    · have hfr := h.freed s
      rw [tally_coe_add] at hfr ⊢
      show c.freed s + _ = (update c.phase e .gone (.post s) == Phase.gone).toNat *
        (update c.phase e .gone (.resultGet s) == Phase.gone).toNat
      rw [hbit, hbit]
      have hc := h.countdown t
      by_cases hs : s = t
      · subst hs
        -- the countdown is at one when the other notification is over
        have h1 := goneBit_le c (.post s)
        have h2 := goneBit_le c (.resultGet s)
        obtain ⟨hz, hz'⟩ : c.freed s = 0 ∧ tally Frame.frees M s = 0 := by
          rcases he with rfl | rfl <;> simpa [hzero, Frame.frees] using hfr
        rw [hz, hz']
        have hone : ∀ g, c.removalCountdown s + g = 2 → g ≤ 1 →
            ((if c.removalCountdown s = 1 then [Frame.free s] else []).flatMap Frame.frees).count s =
              g := by
          intro g hg hle
          split_ifs with hk
          · simp [Frame.frees]
            omega
          · simp
            omega
        rcases he with rfl | rfl
        · rw [hone _ (by omega) h2]
          simp
        · rw [hone _ (by omega) h1]
          simp
      · rw [if_neg (hother s hs).1, if_neg (hother s hs).2, ← hfr]
        split_ifs <;> simp [Frame.frees, Ne.symm hs]
  case free t =>
    refine ⟨h.countdown, fun s => ?_⟩
    have hfr := h.freed s
    rw [tally_coe_add] at hfr ⊢
    show update c.freed t (c.freed t + 1) s + _ = _
    rw [show (c.freeTask t).goneBit (.post s) = c.goneBit (.post s) from rfl,
      show (c.freeTask t).goneBit (.resultGet s) = c.goneBit (.resultGet s) from rfl, ← hfr]
    by_cases e : s = t
    · subst e
      simp [Frame.frees]
      omega
    · simp [Frame.frees, e, Ne.symm e]
  all_goals exact hquiet rfl rfl (fun _ _ => rfl) rfl rfl

/-- What `Removal` says about a task that is freed. -/
theorem Removal.gone_of_freed (h : Removal c M) (ht : 0 < c.freed t) :
    c.phase (.post t) = .gone ∧ c.phase (.resultGet t) = .gone ∧ c.freed t = 1 := by
  have hfr := h.freed t
  have h1 := goneBit_le c (.post t)
  have h2 := goneBit_le c (.resultGet t)
  have hle : c.goneBit (.post t) * c.goneBit (.resultGet t) ≤ 1 := Nat.mul_le_mul h1 h2
  have hpos : 0 < c.goneBit (.post t) * c.goneBit (.resultGet t) := by omega
  have hp := Nat.pos_of_mul_pos_right hpos
  have hg := Nat.pos_of_mul_pos_left hpos
  exact ⟨goneBit_eq_one.mp (by omega), goneBit_eq_one.mp (by omega), by omega⟩

end Step

theorem Removal.initial (prog : Body V) (store : Resource → V) :
    Removal (Core.initial prog store) {.body none} := ⟨fun _ => rfl, fun _ => rfl⟩

/-! ### Who looks at a task -/

/-- The task that an event is part of; an external event is an object of its
own. -/
def EventPtr.owner : EventPtr → List Nat
  | .pre t | .post t | .resultSet t | .resultGet t => [t]
  | .external _ => []

/-- The tasks whose fields the next step of the frame reads or writes. -/
def Frame.touches (c : Core V) : Frame → List Nat
  | .body cur => cur.toList
  | .submit _ t cur => t :: cur.toList
  | .makeEvent _ _ t => [t]
  | .init (.scan r (k + 1) _) t =>
      match (c.users r)[k]? with
      | some ⟨p, false⟩ => [t, p]
      | _ => [t]
  | .init (.check _ _ p _) t => [t, p]
  | .init (.follow _ _ p _) t => [t, p]
  | .init (.push _ _ p _) t => [t, p]
  | .init (.count _ _ p _ _) t => [t, p]
  | .init (.next _ _ p _) t => [t, p]
  | .init _ t => [t]
  | .exec t => [t]
  | .setResult t => [t]
  | .finish t => [t]
  | .get h => ((c.handles[h]?).map fun x => x.task).toList
  | .notifyGet t => [t]
  | .waker e _ _ => e.owner
  | .activate t => [t]
  | .delete _ t => [t]
  | .loop e => e.owner
  | .followers e [] => e.owner
  | .followers e (i :: _) => e.owner ++ ((c.followers[i]?).map fun d => d.dst.owner).getD []
  | .removal _ t => [t]
  | .free t => [t]

/-- The tasks whose fields the first step of a call reads or writes. -/
def Call.touches (c : Core V) : Call → List Nat
  | .popEmplaced t => [t]
  | .popReady t => [t]
  | .fire _ => []
  | .moveFuture _ => []
  | .destroyFuture h =>
      match c.handles[h]? with
      | some ⟨t, .live⟩ => [t]
      | _ => []
  | .getFuture h =>
      match c.handles[h]? with
      | some ⟨t, .live⟩ => [t]
      | _ => []

/-- The frame has left one unit of the post-event of `t` and is about to read
its `waker_id`. -/
def Frame.readsWaker (t : Nat) : Frame → Bool
  | .waker (.post t') 2 _ => t' == t
  | _ => false

/-- What stands below a frame of a notification: the frame that will go on with
the task of the event. -/
def Frame.Guarded (below : Option Frame) : Frame → Prop
  | .waker (.pre t) old claimed =>
      old = 1 ∧ below = some (.body (some t)) ∨
        old = 2 ∧ (claimed = false ∨ below = some (.exec t))
  | .waker (.post _) old _ => old = 1 ∨ old = 2
  | .waker (.resultSet t) old _ => old = 1 ∧ below = some (.finish t)
  | .waker (.resultGet _) old _ => old = 1
  | .loop (.pre t) => below = some (.body (some t))
  | .followers (.pre t) _ => below = some (.body (some t))
  | .loop (.resultSet t) => below = some (.finish t)
  | .followers (.resultSet t) _ => below = some (.finish t)
  | _ => True

def Stacked : List Frame → Prop
  | [] => True
  | f :: rest => f.Guarded rest.head? ∧ Stacked rest

theorem Stacked.of_append {l rest : List Frame} (h : Stacked (l ++ rest)) : Stacked rest := by
  induction l with
  | nil => exact h
  | cons f l ih => exact ih h.2

section Stack

variable {c c' : Core V} {old new rest : List Frame} {M : Multiset Frame} {t : Nat}

/-- Only pre- and post-events follow other events. -/
theorem Events.pending_eq_zero_of_shape (hE : Events c) {e : EventPtr}
    (h : ∀ t, e ≠ .pre t ∧ e ≠ .post t) : c.pending e = 0 := by
  refine List.countP_eq_zero.mpr fun d hd hw => ?_
  obtain ⟨i, hi⟩ := List.mem_iff_getElem?.mp hd
  have hdst : d.dst = e := by
    simp only [Follower.waits, Bool.and_eq_true, beq_iff_eq] at hw
    exact hw.1.1
  rcases (hE.edge i d hi).shape with ⟨_, t, _, h', _⟩ | ⟨_, t, _, h', _⟩ | ⟨x, _, h', _⟩
  · exact (h t).1 (hdst.symm.trans h')
  · exact (h t).2 (hdst.symm.trans h')
  · exact (h _).2 (hdst.symm.trans h')

theorem notifyTail_of_le {e : EventPtr} {b : Bool} {k : Nat} (h : c.counter e = k) (hk : k ≤ 2) :
    c.notifyTail e b = [.waker e k b] := by
  rw [Core.notifyTail, if_neg (by omega), h]

/-- The frames of a notification stand on the frame that goes on with the
task. -/
theorem Stacked.move (hI : Inv c (↑old + M)) (hm : Move c old c' new) (h : Stacked (old ++ rest)) :
    Stacked (new ++ rest) := by
  have hrest := h.of_append
  have hL := hI.ledger
  have hE := hI.events
  cases hm
  case claim t hc =>
    rw [notifyTail_of_le hc le_rfl]
    exact ⟨.inr ⟨rfl, .inr rfl⟩, trivial, hrest⟩
  case block t hc =>
    have hst : c.stage t = .init := hL.stage_head List.mem_cons_self
    have hcount := hE.counter (.pre t)
    rw [Core.units, hst] at hcount
    simp only [Stage.preUnits] at hcount
    rw [Core.notifyTail, if_pos (by omega)]
    exact hrest
  case exec t =>
    have hst : c.stage t = .exec := hL.stage_head List.mem_cons_self
    have hcount := hE.counter (.pre t)
    rw [hE.pending_eq_zero (by rw [hst]; decide), Core.units, hst] at hcount
    rw [notifyTail_of_le hcount (by decide)]
    exact ⟨.inl ⟨rfl, rfl⟩, trivial, hrest⟩
  case setResult t =>
    have hst : c.stage t = .result := hL.stage_head List.mem_cons_self
    have hcount := hE.counter (.resultSet t)
    rw [hE.pending_eq_zero_of_shape (by simp), Core.units, hst] at hcount
    rw [notifyTail_of_le hcount (by decide)]
    exact ⟨⟨rfl, rfl⟩, trivial, hrest⟩
  case finish t =>
    have hpos := hI.takes_pos mem_head rfl
    rw [Core.notifyTail]
    split_ifs with h2
    · exact hrest
    · exact ⟨by show _ ∨ _; omega, hrest⟩
  case fire x hx =>
    rw [Core.notifyTail]
    split_ifs with h2
    · exact hrest
    · exact ⟨trivial, hrest⟩
  case notifyGet t =>
    have hpos := hI.takes_pos mem_head rfl
    have hcount := hE.counter (.resultGet t)
    rw [hE.pending_eq_zero_of_shape (by simp), Core.units] at hcount
    have hone : c.counter (.resultGet t) = 1 := by
      split_ifs at hcount <;> omega
    rw [notifyTail_of_le hone (by decide)]
    exact ⟨rfl, hrest⟩
  case notifyFollower e i todo d hd =>
    have hph : c.phase e = .looping (i :: todo) := hL.phase_head List.mem_cons_self
    have hfol : Stacked (.followers e todo :: rest) := by
      refine ⟨?_, hrest⟩
      cases e <;> exact h.1
    obtain ⟨-, hc, hn⟩ := hE.next_entry hph hd
    have hpos := pending_pos hd hc hn
    have hcount := hE.counter d.dst
    rw [Core.notifyTail, List.append_assoc]
    split_ifs with h2
    · exact hfol
    · refine ⟨?_, hfol⟩
      rcases (hE.edge i d hd).shape with ⟨_, t, _, hdst, _⟩ | ⟨_, u, _, hdst, _⟩ | ⟨x, _, hdst, _⟩
      · rw [hdst] at hcount hpos h2 ⊢
        have hunits : 1 ≤ c.units (.pre t) := by
          rcases hE.init_or_blocked hd hdst hn with hs | hs <;> simp [Core.units, hs, Stage.preUnits]
        exact .inr ⟨by omega, .inl rfl⟩
      · rw [hdst] at hcount hpos h2 ⊢
        show _ ∨ _
        omega
      · rw [hdst] at hcount hpos h2 ⊢
        show _ ∨ _
        omega
  case wakerReached e b he =>
    refine ⟨?_, hrest⟩
    have hg : Frame.Guarded rest.head? (.waker e 1 b) := h.1
    cases e with
    | pre t =>
        rcases hg with ⟨-, hg⟩ | ⟨h1, -⟩
        · exact hg
        · simp at h1
    | resultSet t => exact hg.2
    | _ => trivial
  case loop e =>
    refine ⟨?_, hrest⟩
    have hg : Frame.Guarded rest.head? (.loop e) := h.1
    cases e <;> exact hg
  case removal e t =>
    split_ifs
    · exact ⟨trivial, hrest⟩
    · exact hrest
  all_goals first | exact hrest | exact ⟨trivial, hrest⟩

/-! ### Tasks that are alive -/

/-- A task is freed by the second notification, which has not done it yet. -/
theorem Removal.gone_of_free (h : Removal c M) (hf : Frame.free t ∈ M) :
    c.phase (.post t) = .gone ∧ c.freed t = 0 := by
  have hpos := tally_pos (g := Frame.frees) hf (k := t) (by simp [Frame.frees])
  have hfr := h.freed t
  have hle := Nat.mul_le_mul (goneBit_le c (.post t)) (goneBit_le c (.resultGet t))
  have hprod : 0 < c.goneBit (.post t) * c.goneBit (.resultGet t) := by omega
  have hbit := Nat.pos_of_mul_pos_right hprod
  have := goneBit_le c (.post t)
  exact ⟨goneBit_eq_one.mp (by omega), by omega⟩

theorem Removal.alive (h : Removal c M)
    (ht : c.phase (.post t) ≠ .gone ∨ c.phase (.resultGet t) ≠ .gone) : c.freed t = 0 := by
  by_contra hne
  obtain ⟨h1, h2, -⟩ := h.gone_of_freed (Nat.pos_of_ne_zero hne)
  exact ht.elim (fun h => h h1) (fun h => h h2)

/-- A task that is not done is not freed. -/
theorem Removal.alive_of_stage (h : Removal c M) (hE : Events c) (ht : c.stage t ≠ .done) :
    c.freed t = 0 := by
  refine h.alive (.inl fun hg => ht (hE.done_of_reached ?_))
  rw [hg]
  simp

theorem Removal.alive_of_mem (h : Removal c M) (hI : Inv c M) {f : Frame} (hf : f ∈ M) {σ : Stage}
    (hσ : (some t, σ) ∈ f.tasks) (hd : σ ≠ .done) : c.freed t = 0 := by
  refine h.alive_of_stage hI.events ?_
  rw [hI.ledger.stage_eq hf hσ]
  exact hd

theorem Removal.alive_of_notify (h : Removal c M) (hI : Inv c M) {f : Frame} (hf : f ∈ M)
    {p : Phase} (hp : (.post t, p) ∈ f.notifies ∨ (.resultGet t, p) ∈ f.notifies)
    (hg : p ≠ .gone) : c.freed t = 0 := by
  refine h.alive (hp.imp (fun hp => ?_) fun hp => ?_) <;>
    · rw [hI.ledger.phase_eq hf hp]
      exact hg

/-- A task whose `Future` has not been read or destroyed is not freed. -/
theorem Removal.alive_of_unspent (h : Removal c M) (hI : Inv c M)
    (ht : 0 < tally Frame.spends M t + c.unspent t) : c.freed t = 0 := by
  refine h.alive (.inr fun hg => ?_)
  have hs := hI.ledger.spend t
  have hget : c.getSpent t = false := by
    by_contra hne
    rw [(by simpa using hne : c.getSpent t = true)] at hs
    simp at hs
    omega
  have hopen : c.phase (.resultGet t) = .open :=
    hI.events.open_of_units (by simp [Core.units, hget])
  rw [hg] at hopen
  simp at hopen

theorem Removal.alive_of_handle (h : Removal c M) (hI : Inv c M) {k : Nat} {σ : HandleStatus}
    (hh : c.handles[k]? = some ⟨t, σ⟩) (hσ : σ = .live ∨ σ = .inGet) : c.freed t = 0 := by
  refine h.alive_of_unspent hI (Nat.add_pos_right _ (List.countP_pos_iff.mpr ?_))
  exact ⟨_, List.mem_of_getElem? hh, by rcases hσ with rfl | rfl <;> simp [Handle.unspent]⟩

/-- A predecessor found in a user list is not freed. -/
theorem Removal.alive_of_entry (h : Removal c M) (hI : Inv c M) {r : Resource} {k : Nat}
    (hu : (c.users r)[k]? = some ⟨t, false⟩) : c.freed t = 0 := by
  refine h.alive (.inl fun hg => ?_)
  have hmem := (hI.lists.mem_iff t r k).mpr ⟨false, hu⟩
  have hrem := hI.lists.drained t (by rw [hg]; rfl) r k hmem
  rw [hu] at hrem
  simp at hrem

/-- The follower that a loop notifies next is not freed. -/
theorem Removal.alive_of_follower (h : Removal c M) (hI : Inv c M) {e : EventPtr} {i : Nat}
    {l : List Nat} (hf : Frame.followers e (i :: l) ∈ M) {d : Follower}
    (hd : c.followers[i]? = some d) (ht : t ∈ d.dst.owner) : c.freed t = 0 := by
  have hpos := hI.follower_pos hf hd
  have hph : c.phase e = .looping (i :: l) := hI.ledger.phase_eq hf (by simp [Frame.notifies])
  obtain ⟨-, -, hn⟩ := hI.events.next_entry hph hd
  rcases (hI.events.edge i d hd).shape with ⟨_, u, _, hdst, _⟩ | ⟨_, u, _, hdst, _⟩ | ⟨x, _, hdst, _⟩ <;>
    rw [hdst] at hpos ht <;> obtain rfl := List.mem_singleton.mp ht
  · refine h.alive_of_stage hI.events ?_
    rcases hI.events.init_or_blocked hd hdst hn with hs | hs <;> rw [hs] <;> simp
  · refine h.alive (.inl ?_)
    rw [(hI.events.open_iff _).mpr (by omega)]
    simp
  · refine h.alive (.inl ?_)
    rw [(hI.events.open_iff _).mpr (by omega)]
    simp

/-- A frame of a notification that stands on the frame that goes on with the
task. -/
theorem Removal.alive_of_below (h : Removal c M) (hI : Inv c M) (hrest : ∀ g ∈ rest, g ∈ M)
    {g : Frame} (hg : rest.head? = some g) {σ : Stage} (hσ : (some t, σ) ∈ g.tasks)
    (hd : σ ≠ .done) : c.freed t = 0 :=
  h.alive_of_mem hI (hrest g (List.mem_of_mem_head? hg)) hσ hd

/-- The task of an event whose notification is under way is not freed. -/
theorem Removal.alive_of_owner (h : Removal c M) (hI : Inv c M) {f : Frame} (hf : f ∈ M)
    (hrest : ∀ g ∈ rest, g ∈ M) {e : EventPtr} {p : Phase} (hp : (e, p) ∈ f.notifies)
    (hg : p ≠ .gone) (hpre : ∀ t, e = .pre t → rest.head? = some (.body (some t)))
    (hset : ∀ t, e = .resultSet t → rest.head? = some (.finish t)) (ht : t ∈ e.owner) :
    c.freed t = 0 := by
  cases e with
  | pre s =>
      obtain rfl := List.mem_singleton.mp ht
      exact h.alive_of_below hI hrest (hpre t rfl) (σ := .run) (by simp [Frame.tasks]) (by simp)
  | resultSet s =>
      obtain rfl := List.mem_singleton.mp ht
      exact h.alive_of_below hI hrest (hset t rfl) (σ := .finish) (by simp [Frame.tasks]) (by simp)
  | post s =>
      obtain rfl := List.mem_singleton.mp ht
      exact h.alive_of_notify hI hf (.inl hp) hg
  | resultGet s =>
      obtain rfl := List.mem_singleton.mp ht
      exact h.alive_of_notify hI hf (.inr hp) hg
  | external x => simp [EventPtr.owner] at ht

/-- A step looks at no task that is freed, if the read of `waker_id` that
follows the last but one notification of a post-event does not. -/
theorem Removal.alive_of_touches (h : Removal c M) (hI : Inv c M) {f : Frame}
    (hst : Stacked (f :: rest)) (hf : f ∈ M) (hrest : ∀ g ∈ rest, g ∈ M)
    (hread : ∀ t, f.readsWaker t = true → c.freed t = 0) (ht : t ∈ f.touches c) :
    c.freed t = 0 := by
  have hguard := hst.1
  have htask : ∀ {s : Nat} {σ : Stage}, (some s, σ) ∈ f.tasks → σ ≠ .done → c.freed s = 0 :=
    fun hσ hd => h.alive_of_mem hI hf hσ hd
  cases f with
  | body cur =>
      obtain rfl : cur = some t := by simpa [Frame.touches] using ht
      exact htask (σ := .run) (by simp [Frame.tasks]) (by simp)
  | submit pc s cur =>
      rcases List.mem_cons.mp ht with rfl | ht
      · exact h.alive_of_unspent hI (Nat.add_pos_left (tally_pos hf (by simp [Frame.spends])) _)
      · obtain rfl : cur = some t := by simpa using ht
        exact htask (σ := .run) (by cases pc <;> simp [Frame.tasks]) (by simp)
  | makeEvent i x s =>
      obtain rfl := List.mem_singleton.mp ht
      exact htask (σ := .run) (by simp [Frame.tasks]) (by simp)
  | init pc s =>
      have hself : c.freed s = 0 := by
        cases pc with
        | up => exact htask (σ := .popped) (by simp [Frame.tasks]) (by simp)
        | _ => exact htask (σ := .init) (by simp [Frame.tasks]) (by simp)
      -- a predecessor stands in a user list whose lock is held
      have hpair : ∀ {p k : Nat} {r : Resource}, (c.users r)[k]? = some ⟨p, false⟩ → t ∈ [s, p] →
          c.freed t = 0 := by
        intro p k r hu hmem
        rcases List.mem_pair.mp hmem with rfl | rfl
        · exact hself
        · exact h.alive_of_entry hI hu
      have hok := hI.frames _ hf
      cases pc with
      | scan r k es =>
          cases k with
          | zero =>
              obtain rfl := List.mem_singleton.mp ht
              exact hself
          | succ k =>
              simp only [Frame.touches] at ht
              split at ht
              · next p hu => exact hpair hu ht
              · obtain rfl := List.mem_singleton.mp ht
                exact hself
      | check r k p es | follow r k p es | push r k p es | next r k p es => exact hpair hok.1 ht
      | count r k p es i => exact hpair hok.1.1 ht
      | _ =>
          obtain rfl := List.mem_singleton.mp ht
          exact hself
  | exec s | setResult s | finish s | activate s =>
      obtain rfl := List.mem_singleton.mp ht
      exact htask (List.mem_singleton_self _) (by simp)
  | get k =>
      rcases hh : c.handles[k]? with - | ⟨s, σ⟩ <;> simp only [Frame.touches, hh] at ht
      · simp at ht
      · obtain rfl : t = s := by simpa using ht
        exact h.alive_of_handle hI hh (.inr (hI.ledger.status_eq hf hh))
  | notifyGet s =>
      obtain rfl := List.mem_singleton.mp ht
      exact h.alive_of_unspent hI (Nat.add_pos_left (tally_pos hf (by simp [Frame.spends])) _)
  | waker e old b =>
      cases e with
      | pre s =>
          obtain rfl := List.mem_singleton.mp ht
          rcases hguard with ⟨-, hb⟩ | ⟨rfl, rfl | hb⟩
          · exact h.alive_of_below hI hrest hb (σ := .run) (by simp [Frame.tasks]) (by simp)
          · exact htask (σ := .active) (by simp [Frame.tasks]) (by simp)
          · exact h.alive_of_below hI hrest hb (σ := .exec) (by simp [Frame.tasks]) (by simp)
      | post s =>
          obtain rfl := List.mem_singleton.mp ht
          rcases hguard with rfl | rfl
          · exact h.alive_of_notify hI hf (p := .reached) (.inl (by simp [Frame.notifies])) (by simp)
          · exact hread t (by simp [Frame.readsWaker])
      | resultSet s =>
          obtain rfl := List.mem_singleton.mp ht
          exact h.alive_of_below hI hrest hguard.2 (σ := .finish) (by simp [Frame.tasks]) (by simp)
      | resultGet s =>
          obtain rfl := List.mem_singleton.mp ht
          obtain rfl : old = 1 := hguard
          exact h.alive_of_notify hI hf (p := .reached) (.inr (by simp [Frame.notifies])) (by simp)
      | external x => simp [Frame.touches, EventPtr.owner] at ht
  | delete pc s =>
      obtain rfl := List.mem_singleton.mp ht
      exact h.alive_of_notify hI hf (p := .reached) (.inl (by simp [Frame.notifies])) (by simp)
  | loop e =>
      refine h.alive_of_owner hI hf hrest (p := .drained) (by simp [Frame.notifies]) (by simp) ?_ ?_ ht
      · rintro t rfl
        exact hguard
      · rintro t rfl
        exact hguard
  | followers e todo =>
      have howner : t ∈ e.owner → c.freed t = 0 := by
        refine h.alive_of_owner hI hf hrest (p := .looping todo) (by simp [Frame.notifies]) (by simp)
          ?_ ?_
        · rintro t rfl
          exact hguard
        · rintro t rfl
          exact hguard
      cases todo with
      | nil => exact howner ht
      | cons i todo =>
          rcases List.mem_append.mp ht with ht | ht
          · exact howner ht
          · rcases hd : c.followers[i]? with - | d <;> rw [hd] at ht
            · simp at ht
            · exact h.alive_of_follower hI hf hd ht
  | removal e s =>
      obtain rfl := List.mem_singleton.mp ht
      have hok : e = .post t ∨ e = .resultGet t := hI.frames _ hf
      refine h.alive_of_notify hI hf (p := .looped) (hok.imp ?_ ?_) (by simp) <;>
        · rintro rfl
          simp [Frame.notifies]
  | free s =>
      obtain rfl := List.mem_singleton.mp ht
      exact (h.gone_of_free hf).2

theorem freed_cases (hm : Move c old c' new) : c'.freed = c.freed ∨
    ∃ u, old = [.free u] ∧ new = [] ∧ c'.freed = update c.freed u (c.freed u + 1) := by
  cases hm
  case free u => exact .inr ⟨u, rfl, rfl, rfl⟩
  all_goals exact .inl rfl

theorem counter_of_readsWaker_notifyTail {e : EventPtr} {b : Bool} {f : Frame}
    (hf : f ∈ c.notifyTail e b) (h : f.readsWaker t = true) : c.counter (.post t) = 2 := by
  unfold Core.notifyTail at hf
  split_ifs at hf
  · simp at hf
  · obtain rfl := List.mem_singleton.mp hf
    unfold Frame.readsWaker at h
    split at h
    · next t' _ heq =>
        obtain ⟨rfl, h2, -⟩ := Frame.waker.inj heq
        obtain rfl : t' = t := by simpa using h
        exact h2
    · simp at h

/-- The read of a `waker_id` follows a notification that leaves one unit. -/
theorem counter_of_readsWaker (hm : Move c old c' new) {f : Frame} (hf : f ∈ new)
    (h : f.readsWaker t = true) : c.counter (.post t) = 2 := by
  cases hm
  case claim | exec | setResult | notifyFollower =>
    rcases List.mem_append.mp hf with hf | hf
    · exact counter_of_readsWaker_notifyTail hf h
    · obtain rfl := List.mem_singleton.mp hf
      simp [Frame.readsWaker] at h
  case block | finish | fire | notifyGet => exact counter_of_readsWaker_notifyTail hf h
  case removal =>
    split_ifs at hf
    · obtain rfl := List.mem_singleton.mp hf
      simp [Frame.readsWaker] at h
    · simp at hf
  all_goals first
    | exact absurd hf List.not_mem_nil
    | (obtain rfl := List.mem_singleton.mp hf
       simp [Frame.readsWaker] at h)

theorem Removal.alive_of_call (h : Removal c M) (hI : Inv c M) {a : Call}
    (ha : (c.call a).isSome = true) (ht : t ∈ a.touches c) : c.freed t = 0 := by
  cases a with
  | popEmplaced s =>
      obtain rfl := List.mem_singleton.mp ht
      refine h.alive_of_stage hI.events ?_
      rw [hI.ledger.stage_of_mem_emplaced (by simpa [Core.call] using ha)]
      simp
  | popReady s =>
      obtain rfl := List.mem_singleton.mp ht
      refine h.alive_of_stage hI.events ?_
      rw [hI.ledger.stage_of_mem_ready (by simpa [Core.call] using ha)]
      simp
  | fire x | moveFuture k => simp [Call.touches] at ht
  | destroyFuture k | getFuture k =>
      simp only [Call.touches] at ht
      split at ht
      · next s hh =>
          obtain rfl := List.mem_singleton.mp ht
          exact h.alive_of_handle hI hh (.inl rfl)
      · simp at ht

end Stack

/-! ### Runs -/

variable {Tid : Type} [DecidableEq Tid]

/-- The tasks whose fields a step reads or writes. -/
def touches (s : State Tid V) : Action Tid → List Nat
  | .run i =>
      match s.threads i with
      | [] => []
      | f :: _ => f.touches s.core
  | .call _ a => a.touches s.core

/-- No counter goes past its range, and `free_task` is not called for a task
while a thread is about to read the `waker_id` of its post-event. -/
def FreesUnread (s : State Tid V) (a : Action Tid) : Prop :=
  NoWrap s a ∧ match a with
    | .run i => ∀ f ∈ (s.threads i).head?, ∀ t ∈ f.frees,
        ∀ j, ∀ g ∈ s.threads j, g.readsWaker t = false
    | .call _ _ => True

instance [Fintype Tid] (s : State Tid V) : ∀ a : Action Tid, Decidable (FreesUnread s a)
  | .run i => inferInstanceAs (Decidable (NoWrap s (.run i) ∧
      ∀ f ∈ (s.threads i).head?, ∀ t ∈ f.frees, ∀ j, ∀ g ∈ s.threads j, g.readsWaker t = false))
  | .call i a => inferInstanceAs (Decidable (NoWrap s (.call i a) ∧ True))

/-- What holds of the shared state and the stacks in these runs. -/
structure RemovalInv [Fintype Tid] (s : State Tid V) : Prop where
  inv : Inv s.core (frames s.threads)
  removal : Removal s.core (frames s.threads)
  stacked : ∀ i, Stacked (s.threads i)
  unread : ∀ f ∈ frames s.threads, ∀ t, f.readsWaker t = true → s.core.freed t = 0

variable [Fintype Tid]

theorem RemovalInv.step {s s' : State Tid V} {a : Action Tid} (h : RemovalInv s)
    (hok : FreesUnread s a) (hs : step s a = some s') : RemovalInv s' := by
  obtain ⟨i, old, new, rest, hold, hm, hnew, htop⟩ := step_move hs
  obtain ⟨M, h1, h2⟩ := frames_update hold
  have hI := h.inv
  have hR := h.removal
  have hU := h.unread
  rw [h1] at hI hR hU
  have hw : ∀ f ∈ old, ∀ e ∈ f.upsOn, s.core.counter e + 1 < counterSize :=
    fun f hf e he => hok.1.upsOn_lt ⟨i, htop f hf⟩ he
  refine ⟨?_, ?_, fun j => ?_, fun f hf t ht => ?_⟩
  · rw [hnew, h2]
    exact hI.step hw hm
  · rw [hnew, h2]
    exact hR.step hI hm
  · rw [hnew]
    by_cases e : j = i
    · subst e
      rw [update_self]
      exact Stacked.move hI hm (hold ▸ h.stacked j)
    · rw [update_of_ne e]
      exact h.stacked j
  · rw [hnew, h2] at hf
    have halive : s.core.freed t = 0 := by
      rcases Multiset.mem_add.mp hf with hf | hf
      · refine hR.alive (.inl ?_)
        rw [(hI.events.open_iff _).mpr (by rw [counter_of_readsWaker hm hf ht]; simp)]
        simp
      · exact hU f (Multiset.mem_add.mpr (.inr hf)) t ht
    -- only `free_task` frees, and it waits for the read
    rcases freed_cases hm with heq | ⟨u, rfl, rfl, heq⟩
    · rw [heq]
      exact halive
    · rw [Multiset.coe_nil, zero_add] at hf
      have hf' : f ∈ frames s.threads := by
        rw [h1]
        exact Multiset.mem_add.mpr (.inr hf)
      obtain ⟨j, hj⟩ := mem_frames.mp hf'
      obtain ⟨rfl, hhead⟩ := htop (.free u) (by simp)
      rw [heq, update_of_ne]
      · exact halive
      · rintro rfl
        rw [hok.2 (.free t) hhead t (by simp [Frame.frees]) j f hj] at ht
        simp at ht

theorem RemovalInv.initial (main : Tid) (prog : Body V) (store : Resource → V) :
    RemovalInv (State.initial main prog store) where
  inv := by
    rw [frames_initial]
    exact Inv.initial prog store
  removal := by
    rw [frames_initial]
    exact Removal.initial prog store
  stacked := by
    intro i
    simp only [State.initial]
    split_ifs
    · exact ⟨trivial, trivial⟩
    · trivial
  unread := by
    intro f hf t ht
    rw [frames_initial, Multiset.mem_singleton] at hf
    subst hf
    simp [Frame.readsWaker] at ht

/-- Task removal, in runs in which `free_task` is not called while a thread is
about to read the `waker_id` of the task's post-event: it is called at most
once, only after post-event and result-get-event are reached, and it has been
called when both notifications have returned; no step looks at the task
afterwards. -/
theorem task_removal {main : Tid} {prog : Body V} {store : Resource → V} {s : State Tid V}
    (hs : Reaches step FreesUnread (State.initial main prog store) s) :
    (∀ t, s.core.freed t ≤ 1) ∧
    (∀ t, 0 < s.core.freed t → s.core.counter (.post t) = 0 ∧ s.core.counter (.resultGet t) = 0) ∧
    (∀ t, s.Returned (.post t) → s.Returned (.resultGet t) → s.core.freed t = 1) ∧
    ∀ a s', step s a = some s' → ∀ t ∈ touches s a, s.core.freed t = 0 := by
  have h : RemovalInv s :=
    Reaches.invariant (RemovalInv.initial main prog store) (fun _ _ _ h hok hs => h.step hok hs) hs
  have hgone := fun t => h.removal.gone_of_freed (t := t)
  refine ⟨fun t => ?_, fun t ht => ?_, fun t hp hg => ?_, fun a s' ha t ht => ?_⟩
  · by_contra hne
    have := (hgone t (by omega)).2.2
    omega
  · obtain ⟨h1, h2, -⟩ := hgone t ht
    have hz : ∀ e, s.core.phase e = .gone → s.core.counter e = 0 := by
      intro e he
      have := (h.inv.events.open_iff e).not.mp (by rw [he]; simp)
      omega
    exact ⟨hz _ h1, hz _ h2⟩
  · have hfr := h.removal.freed t
    rw [goneBit_eq_one.mpr (h.inv.gone_of_returned hp),
      goneBit_eq_one.mpr (h.inv.gone_of_returned hg)] at hfr
    have hnone : tally Frame.frees (frames s.threads) t = 0 := by
      by_contra hne
      obtain ⟨f, hf, hmem⟩ := exists_of_tally_pos (Nat.pos_of_ne_zero hne)
      obtain ⟨i, hi⟩ := mem_frames.mp hf
      refine hp.2 i f hi ?_
      cases f <;> simp [Frame.frees] at hmem
      subst hmem
      exact .inl rfl
    omega
  · cases a with
    | run i =>
        simp only [touches] at ht
        rcases hth : s.threads i with - | ⟨f, rest⟩ <;> rw [hth] at ht
        · simp at ht
        · have hmem : ∀ g ∈ f :: rest, g ∈ frames s.threads :=
            fun g hg => mem_frames.mpr ⟨i, hth ▸ hg⟩
          refine h.removal.alive_of_touches h.inv (hth ▸ h.stacked i) (hmem f (by simp))
            (fun g hg => hmem g (by simp [hg])) (fun u hu => ?_) ht
          exact h.unread f (hmem f (by simp)) u hu
    | call i b =>
        refine h.removal.alive_of_call h.inv ?_ ht
        simp only [step] at ha
        split_ifs at ha
        obtain ⟨p, hp, -⟩ := Option.map_eq_some_iff.mp ha
        rw [hp]
        rfl

/-- A task with one child, both without accesses. -/
def parentAndChild : Body Nat := .emplace [] (.emplace [] .done .done) .done

/-- The `Future` of the parent is destroyed, and the parent has left one unit
of its post-event to the child. -/
def parentAndChildStart (m i : Fin 3) : List (Action (Fin 3)) :=
  List.flatten [.replicate 3 (.run m), .call m (.destroyFuture 0) :: .replicate 5 (.run m),
    .call i (.popEmplaced 0) :: .replicate 18 (.run i)]

/-- The parent reads the `waker_id` of its post-event before the child
completes. -/
theorem task_removal_parent_and_child :
    ∃ s : State (Fin 3) Nat, s.core.freed 0 = 1 ∧ (∀ t, s.core.freed t ≤ 1) ∧
      (∀ t, 0 < s.core.freed t → s.core.counter (.post t) = 0 ∧ s.core.counter (.resultGet t) = 0) ∧
      (∀ t, s.Returned (.post t) → s.Returned (.resultGet t) → s.core.freed t = 1) ∧
      ∀ a s', step s a = some s' → ∀ t ∈ touches s a, s.core.freed t = 0 := by
  have hrun : ((exec step FreesUnread (List.flatten [parentAndChildStart 0 1,
      .run 1 :: .call 2 (.popEmplaced 1) :: .replicate 25 (.run 2)])
      (State.initial 0 parentAndChild fun _ => 0)).map fun s => s.core.freed 0) = some 1 := by
    decide +kernel
  obtain ⟨s, hs, h⟩ := Option.map_eq_some_iff.mp hrun
  exact ⟨s, h, task_removal (Reaches.refl.of_exec hs)⟩

/-- While the parent is about to read the `waker_id` of its post-event, the
child completes and frees it. -/
theorem freed_task_read :
    ∃ s s' : State (Fin 3) Nat,
      Reaches step NoWrap (State.initial 0 parentAndChild fun _ => 0) s ∧
      step s (.run 1) = some s' ∧ 0 ∈ touches s (.run 1) ∧ s.core.freed 0 = 1 := by
  have hrun : ((exec step NoWrap (List.flatten [parentAndChildStart 0 1,
      .call 2 (.popEmplaced 1) :: .replicate 25 (.run 2)])
      (State.initial 0 parentAndChild fun _ => 0)).map fun s =>
        (touches s (.run 1), s.core.freed 0, (step s (.run 1)).isSome)) = some ([0], 1, true) := by
    decide +kernel
  obtain ⟨s, hs, h⟩ := Option.map_eq_some_iff.mp hrun
  simp only [Prod.mk.injEq] at h
  obtain ⟨htouch, hfreed, hsome⟩ := h
  obtain ⟨s', hs'⟩ := Option.isSome_iff_exists.mp hsome
  exact ⟨s, s', Reaches.refl.of_exec hs, hs', by simp [htouch], hfreed⟩

end RedGrapes.Runtime
