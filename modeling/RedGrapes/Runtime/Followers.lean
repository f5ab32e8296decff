/-
RedGrapes/Runtime/Followers.lean

Steps keep the follower entries in order.  An entry is pushed only onto a list
whose loop has not begun, and the loop begins only when no entry of the list is
still to be counted: for a post-event this is what the lock of the user lists
and `delete_from_resources` are for.
-/
import RedGrapes.Runtime.Events

namespace RedGrapes.Runtime

open Function Machine

variable {V : Type}

/-! ### Follower entries -/

section Edges

variable {c c' : Core V} {old new : List Frame} {M : Multiset Frame} {i : Nat} {d : Follower}

theorem Events.open_of_units (hE : Events c) {e : EventPtr} (h : 0 < c.units e) :
    c.phase e = .open := by
  refine (hE.open_iff e).mpr ?_
  have := hE.counter_pos h
  omega

/-- The three places at which an entry is pushed and not yet counted. -/
theorem Inv.edge_cases (hI : Inv c M) {f : Frame} (hf : f ∈ M) (hi : i ∈ f.edges)
    (hd : c.followers[i]? = some d) :
    (∃ t u, f = .submit (.count i) t (some u) ∧ d = ⟨.post t, .post u, false, 0⟩) ∨
    (∃ x t, f = .makeEvent i x t ∧ d = ⟨.external x, .post t, false, 0⟩) ∨
    ∃ r k p es t, f = .init (.count r k p es i) t ∧ d = ⟨.post p, .pre t, false, 0⟩ ∧
      c.Found t p r k := by
  have hok := hI.frames f hf
  unfold Frame.edges at hi
  split at hi
  · obtain rfl := List.mem_singleton.mp hi
    obtain ⟨_, _, u, rfl, hget⟩ := hok
    exact .inl ⟨_, u, rfl, Option.some.inj (hd.symm.trans hget)⟩
  · obtain rfl := List.mem_singleton.mp hi
    exact .inr (.inl ⟨_, _, rfl, Option.some.inj (hd.symm.trans hok)⟩)
  · obtain rfl := List.mem_singleton.mp hi
    exact .inr (.inr ⟨_, _, _, _, _, rfl, Option.some.inj (hd.symm.trans hok.2), hok.1⟩)
  · simp at hi

/-- The predecessor a scan has found still takes followers. -/
theorem Inv.early_of_found (hI : Inv c M) {t p k : Nat} {r : Resource} (h : c.Found t p r k) :
    (c.phase (.post p)).early = true := by
  by_contra hne
  have hmem : (r, k) ∈ c.entries p := (hI.lists.mem_iff p r k).mpr ⟨false, h.1⟩
  have hrem := hI.lists.drained p (by simpa using hne) r k hmem
  rw [h.1] at hrem
  simp at hrem

/-- An entry that is not counted keeps the list of its event from being closed. -/
theorem Inv.early_of_uncounted (hI : Inv c M) (hd : c.followers[i]? = some d)
    (hc : d.counted = false) : c.phase d.src = .open ∨ ∃ t p k r, d.src = .post p ∧ c.Found t p r k := by
  obtain ⟨f, hf, hi⟩ := hI.ledger.exists_edge hd hc
  rcases hI.edge_cases hf hi hd with ⟨t, u, rfl, rfl⟩ | ⟨x, t, rfl, rfl⟩ | ⟨r, k, p, es, t, rfl, rfl, hfound⟩
  · left
    have ht := hI.ledger.stage_eq hf (t := t) (σ := .submit) (by simp [Frame.tasks])
    exact hI.events.open_of_units (by simp [Core.units, ht, Stage.postUnits])
  · left
    have hx := hI.ledger.extStage_of_mem hf (x := x) (by simp [Frame.events])
    exact hI.events.open_of_units (by simp [Core.units, hx])
  · exact .inr ⟨t, p, k, r, rfl, hfound⟩

/-- A post-event leaves no entry uncounted behind when it has left the user
lists: whoever is still adding one holds the lock of a list it stands in. -/
theorem Inv.counted_of_delete (hI : Inv c M) {t : Nat} (hf : Frame.delete (.resources []) t ∈ M)
    (hd : c.followers[i]? = some d) (hsrc : d.src = .post t) : d.counted = true := by
  have hph : c.phase (.post t) = .reached := hI.ledger.phase_eq hf (by simp [Frame.notifies])
  by_contra hc
  rcases hI.early_of_uncounted hd (by simpa using hc) with ho | ⟨s, p, k, r, hp, hfound⟩
  · rw [hsrc, hph] at ho
    simp at ho
  · obtain rfl : p = t := EventPtr.post.inj (hp.symm.trans hsrc)
    have hmem : (r, k) ∈ c.entries p := (hI.lists.mem_iff p r k).mpr ⟨false, hfound.1⟩
    rcases (hI.frames _ hf).2 r k hmem with h | h
    · simp at h
    · rw [hfound.1] at h
      simp at h

theorem Inv.counted_of_reached (hI : Inv c M) {e : EventPtr} {b : Bool}
    (hf : Frame.waker e 1 b ∈ M) (he : ∀ t, e ≠ .post t) (hd : c.followers[i]? = some d)
    (hsrc : d.src = e) : d.counted = true := by
  have hph : c.phase e = .reached := hI.ledger.phase_eq hf (by simp [Frame.notifies])
  by_contra hc
  rcases hI.early_of_uncounted hd (by simpa using hc) with ho | ⟨s, p, k, r, hp, hfound⟩
  · rw [hsrc, hph] at ho
    simp at ho
  · exact he p (hsrc.symm.trans hp)

/-- The steps from phase to phase of the notification of `e`. -/
inductive Phase.Next (c : Core V) (e : EventPtr) : Phase → Phase → Prop
  | reach : Next c e .open .reached
  | drain (h : ∀ (i : Nat) d, c.followers[i]? = some d → d.src = e → d.counted = true)
      (hrem : ∀ t, e = .post t → c.RemovedBut t []) : Next c e .reached .drained
  | loop : Next c e .drained (.looping (c.followersOf e))
  | looped : Next c e (.looping []) .looped
  | finish : Next c e (.looping []) .gone
  | remove : Next c e .looped .gone

/-- What a step does to follower lists and phases. -/
inductive EventMove (c c' : Core V) : Prop
  | same (hf : c'.followers = c.followers) (hph : c'.phase = c.phase)
  | phase (e : EventPtr) (ph ph' : Phase) (hf : c'.followers = c.followers) (he : c.phase e = ph)
      (hnext : ph.Next c e ph') (hph : c'.phase = update c.phase e ph')
  | push (src dst : EventPtr) (hf : c'.followers = c.followers ++ [⟨src, dst, false, 0⟩])
      (hearly : (c.phase src).early = true) (hph : c'.phase = c.phase) (hst : c'.stage = c.stage)
      (hpre : ∀ t, dst = .pre t → c.stage t = .init)
      (hshape : (∃ p t, src = .post p ∧ dst = .pre t ∧ p < c'.next) ∨
        (∃ t u, src = .post t ∧ dst = .post u ∧ t < c'.next ∧ (c'.info t).space = some u) ∨
        ∃ x, src = .external x ∧ dst = .post (c'.extTask x) ∧ x < c'.nextEvent)
  | count (i : Nat) (d : Follower) (hd : c.followers[i]? = some d)
      (hf : c'.followers = c.followers.set i { d with counted := true })
      (hph : c'.phase = c.phase) (hst : c'.stage = c.stage)
  | notify (i : Nat) (todo : List Nat) (d : Follower) (hd : c.followers[i]? = some d)
      (hf : c'.followers = c.followers.set i { d with notified := d.notified + 1 })
      (hph : c.phase d.src = .looping (i :: todo))
      (hph' : c'.phase = update (c.fetchSub d.dst).phase d.src (.looping todo))
      (hst : c'.stage = c.activated d.dst)

theorem eventMove_fetchSub (hE : Events c) {e : EventPtr} (hf : c'.followers = c.followers)
    (h : c'.phase = (c.fetchSub e).phase) : EventMove c c' := by
  by_cases h1 : c.counter e = 1
  · refine .phase e _ _ hf (hE.fresh.one e h1) .reach ?_
    rw [h]
    exact if_pos h1
  · refine .same hf ?_
    rw [h]
    exact if_neg h1

theorem eventMove (hI : Inv c (↑old + M)) (hm : Move c old c' new) : EventMove c c' := by
  have hE := hI.events
  have hL := hI.ledger
  cases hm
  case createEvent t k hcode =>
    have hn : c.extStage c.nextEvent = .unborn := (hE.event _).mpr le_rfl
    have ho := hE.open_of_units (e := .external c.nextEvent) (by simp [Core.units, hn])
    refine .push (.external c.nextEvent) (.post t) rfl (by rw [ho]; rfl) rfl rfl (by simp) ?_
    exact .inr (.inr ⟨c.nextEvent, rfl, by simp, Nat.lt_succ_self _⟩)
  case parentFollower t u hr =>
    have ht : c.stage t = .submit := hL.stage_head List.mem_cons_self
    have ho := hE.open_of_units (e := .post t) (by simp [Core.units, ht, Stage.postUnits])
    have hlt : t < c.next := by
      by_contra hge
      rw [(hE.born t).mpr (by omega)] at ht
      simp at ht
    refine .push (.post t) (.post u) rfl (by rw [ho]; rfl) rfl rfl (by simp) ?_
    have hok := hI.frames (.submit .follower t (some u)) mem_head
    exact .inr (.inl ⟨t, u, rfl, rfl, hlt, hok.1⟩)
  case push r k p es t =>
    have ht : c.stage t = .init := hL.stage_head List.mem_cons_self
    have hfound : c.Found t p r k := hI.frames (.init (.push r k p es) t) mem_head
    have hp : p < c.next := by
      by_contra hge
      have hnil := hI.lists.unborn p ((hE.born p).mpr (by omega))
      have hmem := (hI.lists.mem_iff p r k).mpr ⟨false, hfound.1⟩
      rw [hnil] at hmem
      simp at hmem
    refine .push (.post p) (.pre t) rfl (hI.early_of_found hfound) rfl rfl ?_ ?_
    · intro s hs
      rw [← EventPtr.pre.inj hs]
      exact ht
    · exact .inl ⟨p, t, rfl, rfl, hp⟩
  case makeEvent i x t =>
    have hi : c.followers[i]? = _ := hI.frames (.makeEvent i x t) mem_head
    exact .count i _ hi (modify_eq_set hi) rfl rfl
  case parentCount i t u =>
    obtain ⟨_, _, _, _, hi⟩ := hI.frames (.submit (.count i) t (some u)) mem_head
    exact .count i _ hi (modify_eq_set hi) rfl rfl
  case count r k p es i t =>
    have hi := (hI.frames (.init (.count r k p es i) t) mem_head).2
    exact .count i _ hi (modify_eq_set hi) rfl rfl
  case notifyFollower e i todo d hd =>
    have hph : c.phase e = .looping (i :: todo) := hL.phase_head List.mem_cons_self
    obtain ⟨rfl, _, _⟩ := hE.next_entry hph hd
    exact .notify i todo d hd rfl hph rfl rfl
  case claim t hc => exact eventMove_fetchSub hE (e := .pre t) rfl rfl
  case block t hc => exact eventMove_fetchSub hE (e := .pre t) rfl rfl
  case exec t => exact eventMove_fetchSub hE (e := .pre t) rfl rfl
  case setResult t => exact eventMove_fetchSub hE (e := .resultSet t) rfl rfl
  case finish t => exact eventMove_fetchSub hE (e := .post t) rfl rfl
  case notifyGet t => exact eventMove_fetchSub hE (e := .resultGet t) rfl rfl
  case fire x hx => exact eventMove_fetchSub hE (e := .external x) rfl rfl
  case wakerReached e b he =>
    refine .phase e _ _ rfl (hL.phase_head (p := .reached) List.mem_cons_self)
      (.drain (fun i d hd hsrc => ?_) fun t ht => absurd ht (he t)) rfl
    exact hI.counted_of_reached mem_head he hd hsrc
  case deleteEnd t =>
    refine .phase (.post t) _ _ rfl (hL.phase_head (p := .reached) List.mem_cons_self)
      (.drain (fun i d hd hsrc => ?_) fun s hs => ?_) rfl
    · exact hI.counted_of_delete mem_head hd hsrc
    · obtain rfl := EventPtr.post.inj hs
      exact hI.frames (.delete (.resources []) t) mem_head
  case loop e =>
    exact .phase e _ _ rfl (hL.phase_head (p := .drained) List.mem_cons_self) .loop rfl
  case loopedRemoval e t he =>
    exact .phase e _ _ rfl (hL.phase_head (p := .looping []) List.mem_cons_self) .looped rfl
  case loopedEnd e he =>
    exact .phase e _ _ rfl (hL.phase_head (p := .looping []) List.mem_cons_self) .finish rfl
  case removal e t =>
    exact .phase e _ _ rfl (hL.phase_head (p := .looped) List.mem_cons_self) .remove rfl
  all_goals exact .same rfl rfl

theorem mem_followersOf {e : EventPtr} :
    i ∈ c.followersOf e ↔ ∃ d, c.followers[i]? = some d ∧ d.src = e := by
  simp only [Core.followersOf, List.mem_reverse, List.mem_filter, List.mem_range]
  constructor
  · rintro ⟨_, h⟩
    cases hd : c.followers[i]? with
    | none => simp [hd] at h
    | some d => exact ⟨d, rfl, by simpa [hd] using h⟩
  · rintro ⟨d, hd, hsrc⟩
    refine ⟨(List.getElem?_eq_some_iff.mp hd).1, ?_⟩
    rw [hd]
    simpa using hsrc

theorem nodup_followersOf (e : EventPtr) : (c.followersOf e).Nodup :=
  List.nodup_reverse.mpr (List.nodup_range.filter _)

theorem edges_notifyTail (e : EventPtr) (b : Bool) : (c.notifyTail e b).flatMap Frame.edges = [] := by
  unfold Core.notifyTail
  split <;> rfl

/-- A frame that has just been pushed holds no older entry. -/
theorem Move.new_edges (hm : Move c old c' new) {f : Frame} (hf : f ∈ new) (hi : i ∈ f.edges) :
    i = c.followers.length := by
  have hmem : i ∈ new.flatMap Frame.edges := List.mem_flatMap.mpr ⟨f, hf, hi⟩
  clear hf hi
  cases hm
  case claim | exec | setResult | notifyFollower | block | finish | fire | notifyGet =>
    simp [edges_notifyTail, Frame.edges] at hmem
  case removal =>
    split_ifs at hmem <;> exact absurd hmem List.not_mem_nil
  case push | createEvent | parentFollower => exact List.mem_singleton.mp hmem
  all_goals exact absurd hmem List.not_mem_nil

/-- An entry that stays uncounted keeps its task at initialising. -/
theorem Inv.init_of_uncounted (hI : Inv c (↑old + M)) (hm : Move c old c' new) {d' : Follower}
    (hd : c.followers[i]? = some d) (hd' : c'.followers[i]? = some d') (hc : d'.counted = false)
    {t : Nat} (hdst : d.dst = .pre t) : c'.stage t = .init := by
  have hL' := hI.ledger.step hI.events.fresh hm
  obtain ⟨f, hf, hi⟩ := hL'.exists_edge hd' hc
  rcases Multiset.mem_add.mp hf with hnew | hM
  · have := hm.new_edges (Multiset.mem_coe.mp hnew) hi
    have := (List.getElem?_eq_some_iff.mp hd).1
    omega
  · rcases hI.edge_cases (Multiset.mem_add.mpr (.inr hM)) hi hd with
      ⟨s, u, rfl, rfl⟩ | ⟨x, s, rfl, rfl⟩ | ⟨r, k, p, es, s, rfl, rfl, -⟩
    · simp at hdst
    · simp at hdst
    · rw [← EventPtr.pre.inj hdst]
      exact hL'.stage_eq hf (by simp [Frame.tasks])

/-! ### Steps keep the entries in order -/

/-- Names keep their meaning. -/
theorem Move.info_eq (hm : Move c old c' new) {t : Nat} (ht : t < c.next) :
    c'.info t = c.info t := by
  cases hm
  case emplaceRoot | emplaceChild => exact update_of_ne (by omega) ..
  all_goals rfl

theorem Move.next_le (hm : Move c old c' new) : c.next ≤ c'.next := by
  cases hm
  case emplaceRoot | emplaceChild => exact Nat.le_succ _
  all_goals exact le_rfl

theorem Move.extTask_eq (hm : Move c old c' new) {x : Nat} (hx : x < c.nextEvent) :
    c'.extTask x = c.extTask x := by
  cases hm
  case createEvent => exact update_of_ne (by omega) ..
  all_goals rfl

theorem Move.nextEvent_le (hm : Move c old c' new) : c.nextEvent ≤ c'.nextEvent := by
  cases hm
  case createEvent => exact Nat.le_succ _
  all_goals exact le_rfl

/-- A task that has just become ready waits for nothing. -/
theorem Inv.pending_of_ready (hI : Inv c (↑old + M))
    (hw : ∀ f ∈ old, ∀ e ∈ f.upsOn, c.counter e + 1 < counterSize) (hm : Move c old c' new)
    {t : Nat} (h : ¬ .active ≤ c.stage t) (h' : .active ≤ c'.stage t) : c'.pending (.pre t) = 0 := by
  have hE := hI.events
  have hcount := hI.counter_step hw hm (.pre t)
  cases stageMove hI hm with
  | same hst hn =>
      rw [hst] at h'
      exact absurd h' h
  | create hst hn =>
      rw [hst] at h'
      by_cases e : t = c.next
      · subst e
        rw [update_self] at h'
        exact absurd h' (by decide)
      · rw [update_of_ne e] at h'
        exact absurd h' h
  | go s σ σ' hs hnext hst hn hpre =>
      by_cases e : t = s
      · subst e
        rw [hst, update_self] at h'
        rw [hs] at h
        obtain ⟨htwo, hc⟩ := hpre.ready h' h
        have hone : c'.counter (.pre t) + 1 = 2 := by
          rw [hc, ← htwo, ← counter_fetchSub (a := .pre t) (by omega) (hE.small _), unit_self]
        have hunits : c'.units (.pre t) = 1 := by
          rw [Core.units, hst, update_self]
          cases hnext <;> first | rfl | exact absurd h' (by decide) | exact absurd (by decide) h
        omega
      · rw [hst, update_of_ne e] at h'
        exact absurd h' h

/-- An entry that was there before the step stays in order. -/
theorem Inv.edge_keep (hI : Inv c (↑old + M))
    (hw : ∀ f ∈ old, ∀ e ∈ f.upsOn, c.counter e + 1 < counterSize) (hm : Move c old c' new)
    {d' : Follower} (hd : c.followers[i]? = some d) (hd' : c'.followers[i]? = some d')
    (hsrc : d'.src = d.src) (hdst : d'.dst = d.dst) (hmono : d.notified = 1 → d'.notified = 1)
    (hnot : d'.notified = ((c'.phase d'.src).passed i).toNat)
    (hcounted : d'.counted = false → (c'.phase d'.src).early = true) : c'.EdgeOk i d' where
  notified := hnot
  counted := hcounted
  shape := by
    rw [hsrc, hdst]
    rcases (hI.events.edge i d hd).shape with ⟨p, t, h1, h2, h3⟩ | ⟨t, u, h1, h2, h3, h4⟩ |
      ⟨x, h1, h2, h3⟩
    · exact .inl ⟨p, t, h1, h2, h3.trans_le hm.next_le⟩
    · exact .inr (.inl ⟨t, u, h1, h2, h3.trans_le hm.next_le, by rw [hm.info_eq h3, h4]⟩)
    · exact .inr (.inr ⟨x, h1, by rw [hm.extTask_eq h3, h2], h3.trans_le hm.nextEvent_le⟩)
  initialised := by
    intro t ht
    have h1 : Stage.init.rank ≤ (c.stage t).rank :=
      (hI.events.edge i d hd).initialised t (hdst ▸ ht)
    exact h1.trans ((stageMove hI hm).mono hI.events t)
  counting := by
    intro t ht hc
    exact hI.init_of_uncounted hm hd hd' hc (hdst ▸ ht)
  activated := by
    intro t ht hact
    by_cases h : Stage.active ≤ c.stage t
    · exact hmono ((hI.events.edge i d hd).activated t (hdst ▸ ht) h)
    · have hz := hI.pending_of_ready hw hm h hact
      have hc : d'.counted = true := by
        by_contra hc
        have hinit := hI.init_of_uncounted hm hd hd' (by simpa using hc) (hdst ▸ ht)
        rw [hinit] at hact
        exact absurd hact (by decide)
      have hne : d'.notified ≠ 0 := by
        intro hn
        have := pending_pos hd' hc hn
        rw [ht] at this
        omega
      have hle := ((c'.phase d'.src).passed i).toNat_le
      omega

theorem passed_of_early {ph : Phase} (h : ph.early = true) : ph.passed i = false := by
  cases ph <;> simp_all [Phase.early, Phase.passed]

/-- Reaching an event changes nothing for its entries. -/
theorem phase_fetchSub (hE : Events c) (e₀ e : EventPtr) :
    ((c.fetchSub e₀).phase e).passed i = (c.phase e).passed i ∧
      ((c.fetchSub e₀).phase e).early = (c.phase e).early := by
  by_cases h1 : c.counter e₀ = 1
  · by_cases he : e = e₀
    · subst he
      have hph : (c.fetchSub e).phase e = .reached := by simp [Core.fetchSub, h1]
      rw [hph, hE.fresh.one e h1]
      exact ⟨rfl, rfl⟩
    · simp [Core.fetchSub, h1, he]
  · simp [Core.fetchSub, h1]

/-- The entries of an event whose notification goes on to the next phase. -/
theorem Inv.edge_phase (hI : Inv c M) {e : EventPtr} {ph ph' : Phase} (he : c.phase e = ph)
    (hnext : ph.Next c e ph') (hd : c.followers[i]? = some d) :
    d.notified = ((update c.phase e ph' d.src).passed i).toNat ∧
      (d.counted = false → (update c.phase e ph' d.src).early = true) := by
  have hok := hI.events.edge i d hd
  have hn := hok.notified
  have hc := hok.counted
  by_cases hsrc : d.src = e
  · rw [hsrc] at hn hc
    rw [hsrc, update_self]
    rw [he] at hn hc
    cases hnext with
    | reach => exact ⟨hn, hc⟩
    | drain h _ => exact ⟨hn, fun h' => by rw [h i d hd hsrc] at h'; simp at h'⟩
    | loop =>
        refine ⟨?_, fun h' => ?_⟩
        · rw [hn]
          have hmem : i ∈ c.followersOf e := mem_followersOf.mpr ⟨d, hd, hsrc⟩
          simp [Phase.passed, hmem]
        · have := hc h'
          simp [Phase.early] at this
    | looped | finish => exact ⟨by rw [hn]; simp [Phase.passed], hc⟩
    | remove => exact ⟨hn, hc⟩
  · rw [update_of_ne hsrc]
    exact ⟨hn, hc⟩

theorem Inv.edge_step (hI : Inv c (↑old + M))
    (hw : ∀ f ∈ old, ∀ e ∈ f.upsOn, c.counter e + 1 < counterSize) (hm : Move c old c' new)
    (i : Nat) (d : Follower) (hd : c'.followers[i]? = some d) : c'.EdgeOk i d := by
  have hE := hI.events
  cases eventMove hI hm with
  | same hf hph =>
      have hd₀ : c.followers[i]? = some d := hf ▸ hd
      have hok := hE.edge i d hd₀
      exact hI.edge_keep hw hm hd₀ hd rfl rfl id (by rw [hph]; exact hok.notified)
        (by rw [hph]; exact hok.counted)
  | phase e ph ph' hf he hnext hph =>
      have hd₀ : c.followers[i]? = some d := hf ▸ hd
      obtain ⟨h1, h2⟩ := hI.edge_phase he hnext hd₀
      exact hI.edge_keep hw hm hd₀ hd rfl rfl id (by rw [hph]; exact h1) (by rw [hph]; exact h2)
  | push src dst hf hearly hph hst hpre hshape =>
      rw [hf] at hd
      rcases Graph.getElem?_concat_eq_some_iff.mp hd with hd₀ | ⟨rfl, rfl⟩
      · have hok := hE.edge i d hd₀
        exact hI.edge_keep hw hm hd₀ (hf ▸ hd) rfl rfl id (by rw [hph]; exact hok.notified)
          (by rw [hph]; exact hok.counted)
      · -- the new entry
        have hinit : ∀ t, dst = .pre t → c'.stage t = .init := fun t ht => by rw [hst, hpre t ht]
        exact {
          notified := by
            rw [hph, passed_of_early hearly]
            rfl
          counted := by
            intro _
            rw [hph, hearly]
          shape := hshape
          initialised := by
            intro t ht
            rw [hinit t ht]
            decide
          counting := fun t ht _ => hinit t ht
          activated := by
            intro t ht hact
            rw [hinit t ht] at hact
            exact absurd hact (by decide) }
  | count j d₁ hd₁ hf hph hst =>
      rw [hf] at hd
      by_cases e : j = i
      · subst e
        rw [List.getElem?_set_self (List.getElem?_eq_some_iff.mp hd₁).1] at hd
        obtain rfl := Option.some.inj hd
        have hok := hE.edge j d₁ hd₁
        refine hI.edge_keep hw hm hd₁ ?_ rfl rfl id (by rw [hph]; exact hok.notified) (by simp)
        rw [hf, List.getElem?_set_self (List.getElem?_eq_some_iff.mp hd₁).1]
      · rw [List.getElem?_set_ne e] at hd
        have hok := hE.edge i d hd
        refine hI.edge_keep hw hm hd ?_ rfl rfl id (by rw [hph]; exact hok.notified)
          (by rw [hph]; exact hok.counted)
        rw [hf, List.getElem?_set_ne e, hd]
  | notify j todo d₁ hd₁ hf hph hph' hst =>
      obtain ⟨-, hc₁, hn₁⟩ := hE.next_entry hph hd₁
      obtain ⟨hnd, -⟩ := hE.looping _ _ hph
      rw [hf] at hd
      by_cases e : j = i
      · -- the entry that is notified
        subst e
        rw [List.getElem?_set_self (List.getElem?_eq_some_iff.mp hd₁).1] at hd
        obtain rfl := Option.some.inj hd
        refine hI.edge_keep hw hm hd₁ ?_ rfl rfl (by simp [hn₁]) ?_ (by simp [hc₁])
        · rw [hf, List.getElem?_set_self (List.getElem?_eq_some_iff.mp hd₁).1]
        · rw [hph', update_self]
          simp [Phase.passed, (List.nodup_cons.mp hnd).1, hn₁]
      · rw [List.getElem?_set_ne e] at hd
        have hok := hE.edge i d hd
        have hd' : c'.followers[i]? = some d := by rw [hf, List.getElem?_set_ne e, hd]
        by_cases hsrc : d.src = d₁.src
        · -- another entry of the same list
          refine hI.edge_keep hw hm hd hd' rfl rfl id ?_ fun hc => ?_
          · rw [hok.notified, hsrc, hph, hph', update_self]
            simp [Phase.passed, Ne.symm e]
          · have := hok.counted hc
            rw [hsrc, hph] at this
            simp [Phase.early] at this
        · obtain ⟨h1, h2⟩ := phase_fetchSub (i := i) hE d₁.dst d.src
          refine hI.edge_keep hw hm hd hd' rfl rfl id ?_ fun hc => ?_
          · rw [hph', update_of_ne hsrc, h1]
            exact hok.notified
          · rw [hph', update_of_ne hsrc, h2]
            exact hok.counted hc

/-- The entries of a step's lists, seen from before the step. -/
theorem EventMove.src_eq (h : EventMove c c') (hd : c.followers[i]? = some d) :
    ∃ d', c'.followers[i]? = some d' ∧ d'.src = d.src ∧ d'.dst = d.dst := by
  have hset : ∀ {j : Nat} {d₁ d₂ : Follower}, c'.followers = c.followers.set j d₂ →
      c.followers[j]? = some d₁ → d₂.src = d₁.src → d₂.dst = d₁.dst →
      ∃ d', c'.followers[i]? = some d' ∧ d'.src = d.src ∧ d'.dst = d.dst := by
    intro j d₁ d₂ hf hj hs hdst
    rw [hf]
    by_cases e : j = i
    · subst e
      obtain rfl := Option.some.inj (hj.symm.trans hd)
      exact ⟨d₂, List.getElem?_set_self (List.getElem?_eq_some_iff.mp hj).1, hs, hdst⟩
    · exact ⟨d, by rw [List.getElem?_set_ne e, hd], rfl, rfl⟩
  cases h with
  | same hf | phase _ _ _ hf => exact ⟨d, hf ▸ hd, rfl, rfl⟩
  | push src dst hf =>
      refine ⟨d, ?_, rfl, rfl⟩
      rw [hf, List.getElem?_append_left (List.getElem?_eq_some_iff.mp hd).1, hd]
  | count j d₁ hd₁ hf | notify j todo d₁ hd₁ hf => exact hset hf hd₁ rfl rfl

theorem Inv.looping_step (hI : Inv c (↑old + M)) (hm : Move c old c' new) (e : EventPtr)
    (todo : List Nat) (h : c'.phase e = .looping todo) :
    todo.Nodup ∧ ∀ i ∈ todo, ∃ d, c'.followers[i]? = some d ∧ d.src = e := by
  have hE := hI.events
  have hem := eventMove hI hm
  -- it is enough to know the loop in the state before
  have hkeep : ∀ {l : List Nat}, (l.Nodup ∧ ∀ i ∈ l, ∃ d, c.followers[i]? = some d ∧ d.src = e) →
      l.Nodup ∧ ∀ i ∈ l, ∃ d, c'.followers[i]? = some d ∧ d.src = e := by
    rintro l ⟨hnd, hmem⟩
    refine ⟨hnd, fun i hi => ?_⟩
    obtain ⟨d, hd, hsrc⟩ := hmem i hi
    obtain ⟨d', hd', hsrc', -⟩ := hem.src_eq hd
    exact ⟨d', hd', hsrc'.trans hsrc⟩
  refine hkeep ?_
  cases hem with
  | same hf hph | push _ _ hf _ hph | count _ _ _ hf hph => exact hE.looping e todo (hph ▸ h)
  | phase e₁ ph ph' hf he hnext hph =>
      rw [hph] at h
      by_cases ee : e = e₁
      · subst ee
        rw [update_self] at h
        cases hnext with
        | loop =>
            obtain rfl := Phase.looping.inj h
            exact ⟨nodup_followersOf e, fun i hi => mem_followersOf.mp hi⟩
        | _ => simp at h
      · rw [update_of_ne ee] at h
        exact hE.looping e todo h
  | notify j l d₁ hd₁ hf hph hph' hst =>
      rw [hph'] at h
      by_cases ee : e = d₁.src
      · rw [ee, update_self] at h
        obtain rfl := Phase.looping.inj h
        obtain ⟨hnd, hmem⟩ := hE.looping _ _ hph
        rw [ee]
        exact ⟨(List.nodup_cons.mp hnd).2, fun i hi => hmem i (List.mem_cons_of_mem _ hi)⟩
      · rw [update_of_ne ee] at h
        refine hE.looping e todo ?_
        by_cases h1 : c.counter d₁.dst = 1
        · simp only [Core.fetchSub, if_pos h1] at h
          by_cases e2 : e = d₁.dst
          · rw [e2, update_self] at h
            simp at h
          · rwa [update_of_ne e2] at h
        · simpa only [Core.fetchSub, if_neg h1] using h

theorem Inv.blocked_step (hI : Inv c (↑old + M))
    (hw : ∀ f ∈ old, ∀ e ∈ f.upsOn, c.counter e + 1 < counterSize) (hm : Move c old c' new)
    (t : Nat) (h : c'.stage t = .blocked) : 0 < c'.pending (.pre t) := by
  have hE := hI.events
  have hcount := hI.counter_step hw hm (.pre t)
  have hunits : c'.units (.pre t) = 1 := by rw [Core.units, h]; rfl
  have hc₀ := hE.counter (.pre t)
  -- either it was blocked before, or it has just been found to wait
  by_cases hb : c.stage t = .blocked
  · have hp := hE.blocked t hb
    have hu₀ : c.units (.pre t) = 1 := by rw [Core.units, hb]; rfl
    cases eventMove hI hm with
    | same hf | phase _ _ _ hf =>
        rw [Core.pending, hf]
        exact hp
    | push src dst hf =>
        rw [Core.pending, hf, countP_waits_push]
        exact hp
    | count j d hd hf =>
        have hset := countP_set_add (p := (·.waits (.pre t))) (b := { d with counted := true }) hd
        have hle : (d.waits (.pre t)).toNat ≤
            (Follower.waits (.pre t) { d with counted := true }).toNat := by
          cases hc : d.counted <;> simp [Follower.waits, hc]
        unfold Core.pending at hp ⊢
        rw [hf]
        omega
    | notify j todo d hd hf hph hph' hst =>
        obtain ⟨-, hc, hn⟩ := hE.next_entry hph hd
        have hpend : c'.pending (.pre t) + unit d.dst (.pre t) = c.pending (.pre t) := by
          unfold Core.pending
          rw [hf, ← toNat_beq]
          exact countP_waits_notify hd hc hn _
        by_cases hdst : d.dst = .pre t
        · -- with two units left the task would now be active
          have htwo : c.counter (.pre t) ≠ 2 := by
            intro htwo
            rw [hst, hdst] at h
            simp [Core.activated, htwo] at h
          rw [hdst, unit_self] at hpend
          omega
        · rw [unit_of_ne (Ne.symm hdst)] at hpend
          omega
  · cases stageMove hI hm with
    | same hst hn => exact absurd (hst ▸ h) hb
    | create hst hn =>
        rw [hst] at h
        by_cases e : t = c.next
        · subst e
          simp at h
        · rw [update_of_ne e] at h
          exact absurd h hb
    | go s σ σ' hs hnext hst hn hpre =>
        rw [hst] at h
        by_cases e : t = s
        · subst e
          rw [update_self] at h
          obtain ⟨htwo, hc⟩ := hpre.block h
          have hinit : c.units (.pre t) = 2 := by
            rw [Core.units, hs]
            subst h
            cases hnext
            rfl
          have hsub := counter_fetchSub (a := .pre t) (by omega) (hE.small _) (.pre t)
          rw [unit_self, ← hc] at hsub
          omega
        · rw [update_of_ne e] at h
          exact absurd h hb

theorem Inv.event_step (hI : Inv c (↑old + M)) (hm : Move c old c' new) (x : Nat) :
    c'.extStage x = .unborn ↔ c'.nextEvent ≤ x := by
  have h := hI.events.event x
  cases hm
  case createEvent t k hcode =>
    show update c.extStage c.nextEvent .creating x = .unborn ↔ c.nextEvent + 1 ≤ x
    by_cases e : x = c.nextEvent
    · subst e
      simp
    · rw [update_of_ne e, h]
      omega
  case makeEvent i y t =>
    have hy := hI.ledger.extStage_of_mem (f := .makeEvent i y t) (x := y) (by simp)
      (by simp [Frame.events])
    show update c.extStage y .live x = .unborn ↔ c.nextEvent ≤ x
    by_cases e : x = y
    · subst e
      rw [update_self, ← h, hy]
      simp
    · rw [update_of_ne e, h]
  case fire y hy =>
    show update c.extStage y .fired x = .unborn ↔ c.nextEvent ≤ x
    by_cases e : x = y
    · subst e
      rw [update_self, ← h, hy]
      simp
    · rw [update_of_ne e, h]
  all_goals exact h

theorem Inv.spent_step (hI : Inv c (↑old + M)) (hm : Move c old c' new) (t : Nat)
    (h : c'.getSpent t = true) : t < c'.next := by
  have hlt : c.getSpent t = true → t < c.next := hI.events.spent t
  cases hm
  case emplaceRoot | emplaceChild => exact Nat.lt_succ_of_lt (hlt h)
  case notifyGet s =>
    by_cases e : t = s
    · subst e
      exact (hI.ledger.unspent_of_mem (f := .notifyGet t) (by simp) (by simp [Frame.spends])).1
    · exact hlt (by simpa [e] using h)
  all_goals exact hlt h

/-- A step keeps the counters and the follower entries in order. -/
theorem Inv.events_step (hI : Inv c (↑old + M))
    (hw : ∀ f ∈ old, ∀ e ∈ f.upsOn, c.counter e + 1 < counterSize) (hm : Move c old c' new) :
    Events c' where
  born := (stageMove hI hm).born hI.events
  event := hI.event_step hm
  spent := hI.spent_step hm
  counter := hI.counter_step hw hm
  small := hI.small_step hm
  open_iff := hI.open_step hw hm
  edge := hI.edge_step hw hm
  looping := hI.looping_step hm
  blocked := hI.blocked_step hw hm

end Edges

end RedGrapes.Runtime
