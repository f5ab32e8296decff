/-
RedGrapes/Runtime/Lists.lean

Steps keep the user lists in order, and what a frame has read stays true: the
user lists of a resource change in two ways, by the push of the thread that
submits a task and by the removal of the thread that completes one, and the
second holds the lock of the list.  With this the invariant of the runtime is
complete (`Inv.step`, `Inv.of_reaches`).
-/
import RedGrapes.Runtime.Followers

namespace RedGrapes.Runtime

open Function Machine

variable {V : Type}

section Lists

variable {c c' : Core V} {old new : List Frame} {M : Multiset Frame} {t k : Nat} {r : Resource}

/-! ### What stays -/

theorem EventMove.edge (h : EventMove c c') {src dst : EventPtr} (he : c.Edge src dst) :
    c'.Edge src dst := by
  obtain ⟨d, hd, rfl, rfl⟩ := he
  obtain ⟨i, hi⟩ := List.mem_iff_getElem?.mp hd
  obtain ⟨d', hd', hs, ht⟩ := h.src_eq hi
  exact ⟨d', List.mem_of_getElem? hd', hs, ht⟩

/-- An event that was reached stays reached. -/
theorem EventMove.open (h : EventMove c c') {e : EventPtr} (ho : c'.phase e = .open) :
    c.phase e = .open := by
  cases h with
  | same _ hph | push _ _ _ _ hph | count _ _ _ _ hph => exact hph ▸ ho
  | phase e₁ ph ph' hf he hnext hph =>
      rw [hph] at ho
      by_cases ee : e = e₁
      · subst ee
        rw [update_self] at ho
        subst ho
        cases hnext
      · rwa [update_of_ne ee] at ho
  | notify j todo d hd hf hph hph' hst =>
      rw [hph'] at ho
      by_cases ee : e = d.src
      · rw [ee, update_self] at ho
        simp at ho
      · rw [update_of_ne ee] at ho
        by_cases h1 : c.counter d.dst = 1
        · by_cases e2 : e = d.dst
          · simp [Core.fetchSub, h1, e2] at ho
          · simpa [Core.fetchSub, h1, e2] using ho
        · simpa [Core.fetchSub, h1] using ho

/-- A list that is closed stays closed, and it is closed when the task has left
the user lists. -/
theorem EventMove.closed (h : EventMove c c') (hE : Events c)
    (hc : (c'.phase (.post t)).early = false) :
    (c.phase (.post t)).early = false ∨ c.phase (.post t) = .reached ∧ c.RemovedBut t [] := by
  cases h with
  | same _ hph | push _ _ _ _ hph | count _ _ _ _ hph => exact .inl (hph ▸ hc)
  | phase e₁ ph ph' hf he hnext hph =>
      rw [hph] at hc
      by_cases ee : EventPtr.post t = e₁
      · subst ee
        rw [update_self] at hc
        cases hnext with
        | reach => simp [Phase.early] at hc
        | drain _ hrem => exact .inr ⟨he, hrem t rfl⟩
        | _ => exact .inl (by rw [he]; rfl)
      · rw [update_of_ne ee] at hc
        exact .inl hc
  | notify j todo d hd hf hph hph' hst =>
      rw [hph'] at hc
      by_cases ee : EventPtr.post t = d.src
      · exact .inl (by rw [ee, hph]; rfl)
      · rw [update_of_ne ee, (phase_fetchSub (i := 0) hE d.dst (.post t)).2] at hc
        exact .inl hc

theorem resourcesOf_eq (hm : Move c old c' new) (ht : t < c.next) :
    c'.resourcesOf t = c.resourcesOf t := by
  rw [Core.resourcesOf, Core.resourcesOf, hm.info_eq ht]

/-- What a step does to the user lists. -/
inductive ListMove (c c' : Core V) (M : Multiset Frame) : Prop
  | same (hu : c'.users = c.users) (he : c'.entries = c.entries)
  | push (t : Nat) (r : Resource) (ht : c.stage t = .submit)
      (hst : c'.stage = c.stage) (hfree : ∀ f ∈ M, (some t, Stage.submit) ∉ f.tasks)
      (hu : c'.users = update c.users r (c.users r ++ [⟨t, false⟩]))
      (he : c'.entries = update c.entries t (c.entries t ++ [(r, (c.users r).length)]))
  | remove (t : Nat) (r : Resource) (k : Nat) (hmem : (r, k) ∈ c.entries t)
      (hph : c.phase (.post t) = .reached) (hfree : ∀ f ∈ M, r ∉ f.locks)
      (hu : c'.users =
        update c.users r ((c.users r).modify k fun u => { u with removed := true }))
      (he : c'.entries = c.entries)

theorem listMove (hI : Inv c (↑old + M)) (hm : Move c old c' new) : ListMove c c' M := by
  have hL := hI.ledger
  cases hm
  case pushUser r rs t cur =>
    have htok : (some t, Stage.submit) ∈ (Frame.submit (.users (r :: rs)) t cur).tasks := by
      simp [Frame.tasks]
    exact .push t r (hL.stage_eq (by simp) htok) rfl (fun f hf => hL.not_mem_tasks hf htok) rfl rfl
  case deleteRemove r k es t =>
    have hlock : r ∈ (Frame.delete (.remove r k es) t).locks := by simp [Frame.locks]
    have hph : c.phase (.post t) = .reached := hL.phase_head List.mem_cons_self
    have hok := hI.frames (.delete (.remove r k es) t) mem_head
    exact .remove t r k (hok.1 _ (by simp)) hph (fun f hf => hL.not_mem_locks hf hlock) rfl rfl
  all_goals exact .same rfl rfl

namespace ListMove

theorem entries_eq (h : ListMove c c' M) (ht : c.stage t ≠ .submit) :
    c'.entries t = c.entries t := by
  cases h with
  | same _ he | remove _ _ _ _ _ _ _ he => rw [he]
  | push s r hs _ _ _ he =>
      rw [he, update_of_ne]
      rintro rfl
      exact ht hs

theorem entries_eq_of_mem (h : ListMove c c' M) {f : Frame} (hf : f ∈ M)
    (ht : (some t, Stage.submit) ∈ f.tasks) : c'.entries t = c.entries t := by
  cases h with
  | same _ he | remove _ _ _ _ _ _ _ he => rw [he]
  | push s r hs _ hfree _ he =>
      rw [he, update_of_ne]
      rintro rfl
      exact hfree f hf ht

/-- Places keep their task, and removed places stay removed. -/
theorem users_mono (h : ListMove c c' M) {u : UserEntry} (hu : (c.users r)[k]? = some u) :
    ∃ b, (c'.users r)[k]? = some ⟨u.task, b⟩ ∧ (u.removed = true → b = true) ∧
      ((∃ f ∈ M, r ∈ f.locks) → b = u.removed) := by
  cases h with
  | same hus _ => exact ⟨u.removed, by rw [hus, hu], id, fun _ => rfl⟩
  | push s r' hs _ _ hus _ =>
      refine ⟨u.removed, ?_, id, fun _ => rfl⟩
      rw [hus]
      by_cases e : r = r'
      · subst e
        rw [update_self, List.getElem?_append_left (List.getElem?_eq_some_iff.mp hu).1, hu]
      · rw [update_of_ne e, hu]
  | remove s r' k' _ _ hfree hus _ =>
      rw [hus]
      by_cases e : r = r'
      · subst e
        rw [update_self, List.getElem?_modify, hu]
        by_cases e2 : k' = k
        · refine ⟨true, by simp [e2], fun _ => rfl, ?_⟩
          rintro ⟨f, hf, hr⟩
          exact absurd hr (hfree f hf)
        · exact ⟨u.removed, by simp [e2], id, fun _ => rfl⟩
      · exact ⟨u.removed, by rw [update_of_ne e, hu], id, fun _ => rfl⟩

end ListMove

/-! ### Steps keep the lists in order -/

/-- A task whose post-event is reached is done. -/
theorem Events.done_of_reached (hE : Events c) (h : c.phase (.post t) ≠ .open) :
    c.stage t = .done := by
  by_contra hne
  refine h (hE.open_of_units ?_)
  rw [Core.units]
  cases hs : c.stage t <;> simp_all [Stage.postUnits]

theorem Events.lt_next (hE : Events c) (h : c.stage t ≠ .unborn) : t < c.next := by
  by_contra hge
  exact h ((hE.born t).mpr (by omega))

theorem Inv.mem_iff_step (hI : Inv c (↑old + M)) (hm : Move c old c' new) (t : Nat) (r : Resource)
    (k : Nat) : (r, k) ∈ c'.entries t ↔ ∃ b : Bool, (c'.users r)[k]? = some (.mk t b) := by
  have h := hI.lists.mem_iff t r k
  cases listMove hI hm with
  | same hu he => rw [hu, he, h]
  | push s r' hs _ _ hu he =>
      rw [hu, he]
      by_cases er : r = r'
      · subst er
        simp only [update_self, Graph.getElem?_concat_eq_some_iff, UserEntry.mk.injEq]
        by_cases et : t = s
        · subst et
          simp only [update_self, List.mem_append, h, List.mem_singleton, Prod.mk.injEq, true_and]
          constructor
          · rintro (⟨b, hb⟩ | rfl)
            · exact ⟨b, .inl hb⟩
            · exact ⟨false, .inr ⟨rfl, rfl⟩⟩
          · rintro ⟨b, hb | ⟨hk, _⟩⟩
            · exact .inl ⟨b, hb⟩
            · exact .inr hk
        · rw [update_of_ne et, h]
          simp [Ne.symm et]
      · rw [update_of_ne er]
        by_cases et : t = s
        · subst et
          simp [h, er]
        · rw [update_of_ne et, h]
  | remove s r' k' hmem hph _ hu he =>
      rw [he, hu, h]
      by_cases er : r = r'
      · subst er
        rw [update_self]
        by_cases ek : k' = k
        · subst ek
          cases hx : (c.users r)[k']? with
          | none => simp [hx]
          | some u =>
              obtain ⟨s', b⟩ := u
              cases b <;> simp [hx]
        · simp [ek]
      · rw [update_of_ne er]

/-- A task is emplaced with its usage entries and the edge to its parent. -/
theorem Inv.emplaced_cases (hI : Inv c (↑old + M)) (hm : Move c old c' new)
    (h : .emplaced ≤ c'.stage t) : t < c.next ∧ (c.entries t).map Prod.fst = c.resourcesOf t ∧
      (∀ u, (c.info t).space = some u → c.Edge (.post t) (.post u)) ∧
      c'.entries t = c.entries t := by
  have hE := hI.events
  have hold : .emplaced ≤ c.stage t → t < c.next ∧ (c.entries t).map Prod.fst = c.resourcesOf t ∧
      (∀ u, (c.info t).space = some u → c.Edge (.post t) (.post u)) ∧
      c'.entries t = c.entries t := by
    intro h₀
    have h1 : c.stage t ≠ .unborn := fun e => by rw [e] at h₀; exact absurd h₀ (by decide)
    have h2 : c.stage t ≠ .submit := fun e => by rw [e] at h₀; exact absurd h₀ (by decide)
    exact ⟨hE.lt_next h1, hI.lists.complete t h₀, fun u => hI.lists.child t u h₀,
      (listMove hI hm).entries_eq h2⟩
  cases stageMove hI hm with
  | same hst hn => exact hold (hst ▸ h)
  | create hst hn =>
      rw [hst] at h
      by_cases e : t = c.next
      · subst e
        rw [update_self] at h
        exact absurd h (by decide)
      · rw [update_of_ne e] at h
        exact hold h
  | go s σ σ' hs hnext hst hn hpre =>
      rw [hst] at h
      by_cases e : t = s
      · subst e
        rw [update_self] at h
        by_cases h₀ : Stage.emplaced ≤ σ
        · exact hold (hs ▸ h₀)
        · obtain rfl : σ' = .emplaced := by
            cases hnext <;> first | rfl | exact absurd (by decide) h₀
          obtain ⟨hall, hedge⟩ := hpre.emplaced rfl
          have hsub : c.stage t = .submit := by
            rw [hs]
            cases hnext
            rfl
          refine ⟨hE.lt_next (by rw [hsub]; simp), hall, hedge, ?_⟩
          cases listMove hI hm with
          | same _ he | remove _ _ _ _ _ _ _ he => rw [he]
          | push _ _ _ hst' =>
              have := congrFun (hst'.symm.trans hst) t
              rw [update_self, hsub] at this
              simp at this
      · rw [update_of_ne e] at h
        exact hold h

theorem Inv.lists_step (hI : Inv c (↑old + M)) (hm : Move c old c' new) : Lists c' where
  mem_iff := hI.mem_iff_step hm
  unborn := by
    intro t ht
    have hs := (stageMove hI hm).mono hI.events t
    rw [ht] at hs
    have hs₀ : c.stage t = .unborn := by
      cases e : c.stage t <;> rw [e] at hs <;> first | rfl | exact absurd hs (by decide)
    rw [(listMove hI hm).entries_eq (by rw [hs₀]; simp)]
    exact hI.lists.unborn t hs₀
  complete := by
    intro t ht
    obtain ⟨hlt, hall, -, he⟩ := hI.emplaced_cases hm ht
    rw [he, hall, resourcesOf_eq hm hlt]
  removed := by
    intro r k t h ho
    have ho₀ := (eventMove hI hm).open ho
    cases listMove hI hm with
    | same hu _ => exact hI.lists.removed r k t (hu ▸ h) ho₀
    | push s r' hs _ _ hu _ =>
        rw [hu] at h
        by_cases e : r = r'
        · subst e
          rw [update_self, Graph.getElem?_concat_eq_some_iff] at h
          rcases h with h | ⟨_, h⟩
          · exact hI.lists.removed r k t h ho₀
          · simp at h
        · rw [update_of_ne e] at h
          exact hI.lists.removed r k t h ho₀
    | remove s r' k' hmem hph _ hu he =>
        rw [hu] at h
        by_cases e : r = r'
        · subst e
          rw [update_self, List.getElem?_modify] at h
          by_cases ek : k' = k
          · -- the entry that is removed belongs to the task that completes
            subst ek
            obtain ⟨b, hb⟩ := (hI.lists.mem_iff s r k').mp hmem
            simp [hb] at h
            rw [h, ho₀] at hph
            simp at hph
          · simp [ek] at h
            exact hI.lists.removed r k t h ho₀
        · rw [update_of_ne e] at h
          exact hI.lists.removed r k t h ho₀
  drained := by
    intro t hc r k hmem
    have hall : ∀ r k, (r, k) ∈ c.entries t → (c.users r)[k]? = some ⟨t, true⟩ := by
      rcases (eventMove hI hm).closed hI.events hc with h | ⟨_, h⟩
      · exact hI.lists.drained t h
      · intro r k hmem
        rcases h.2 r k hmem with h | h
        · simp at h
        · exact h
    have hne : c.phase (.post t) ≠ .open := by
      rcases (eventMove hI hm).closed hI.events hc with h | ⟨h, _⟩
      · intro ho
        rw [ho] at h
        simp [Phase.early] at h
      · rw [h]
        simp
    rw [(listMove hI hm).entries_eq (by rw [hI.events.done_of_reached hne]; simp)] at hmem
    obtain ⟨b, hb, hrem, -⟩ := (listMove hI hm).users_mono (hall r k hmem)
    rw [hb, hrem rfl]
  parent := by
    intro t u ht hs
    rcases lt_or_ge t c.next with hlt | hge
    · rw [hm.info_eq hlt] at hs
      obtain ⟨h1, h2⟩ := hI.lists.parent t u hlt hs
      exact ⟨h1, le_trans (show Stage.run.rank ≤ (c.stage u).rank from h2)
        ((stageMove hI hm).mono hI.events u)⟩
    · cases hm
      case emplaceRoot =>
        obtain rfl : t = c.next := by
          have : t < c.next + 1 := ht
          omega
        simp [Core.create] at hs
      case emplaceChild v calls child k hcode =>
        obtain rfl : t = c.next := by
          have : t < c.next + 1 := ht
          omega
        obtain rfl : v = u := by simpa [Core.create] using hs
        have hv : c.stage v = .run := hI.ledger.stage_head List.mem_cons_self
        have hlt := hI.events.lt_next (t := v) (by rw [hv]; simp)
        refine ⟨hlt, ?_⟩
        show Stage.run ≤ update c.stage c.next .submit v
        rw [update_of_ne hlt.ne, hv]
        decide
      all_goals exact absurd ht (not_lt.mpr hge)
  child := by
    intro t u ht hs
    obtain ⟨hlt, -, hedge, -⟩ := hI.emplaced_cases hm ht
    rw [hm.info_eq hlt] at hs
    exact (eventMove hI hm).edge (hedge u hs)
  event := by
    intro x hx
    by_cases h : x < c.nextEvent
    · rw [hm.extTask_eq h]
      exact (eventMove hI hm).edge (hI.lists.event x h)
    · cases hm
      case createEvent t k hcode =>
        obtain rfl : x = c.nextEvent := by
          have : x < c.nextEvent + 1 := hx
          omega
        exact ⟨⟨.external c.nextEvent, .post t, false, 0⟩, by simp [Core.pushFollower], rfl, by simp⟩
      all_goals exact absurd hx h

/-! ### What frames know stays true -/

/-- The entry that a frame is about to count is left alone by the others. -/
theorem Inv.followers_eq (hI : Inv c (↑old + M)) (hm : Move c old c' new) {f : Frame} (hf : f ∈ M)
    {i : Nat} {d : Follower} (hi : i ∈ f.edges) (hd : c.followers[i]? = some d)
    (hc : d.counted = false) : c'.followers[i]? = some d := by
  have hL' := hI.ledger.step hI.events.fresh hm
  have hun : c'.uncounted i = true := by
    have hpos := tally_pos (Multiset.mem_add.mpr (.inr hf) : f ∈ (↑new : Multiset Frame) + M) hi
    rw [hL'.edge i] at hpos
    cases hu : c'.uncounted i with
    | true => rfl
    | false => simp [hu] at hpos
  unfold Core.uncounted at hun
  cases eventMove hI hm with
  | same hfs | phase _ _ _ hfs => rw [hfs, hd]
  | push src dst hfs =>
      rw [hfs, List.getElem?_append_left (List.getElem?_eq_some_iff.mp hd).1, hd]
  | count j d₁ hd₁ hfs =>
      rw [hfs] at hun ⊢
      by_cases e : j = i
      · subst e
        rw [List.getElem?_set_self (List.getElem?_eq_some_iff.mp hd₁).1] at hun
        simp at hun
      · rw [List.getElem?_set_ne e, hd]
  | notify j todo d₁ hd₁ hfs hph =>
      rw [hfs] at hun ⊢
      by_cases e : j = i
      · subst e
        obtain rfl := Option.some.inj (hd₁.symm.trans hd)
        obtain ⟨-, hc₁, -⟩ := hI.events.next_entry hph hd₁
        rw [hc] at hc₁
        simp at hc₁
      · rw [List.getElem?_set_ne e, hd]

theorem Inv.found_step (hI : Inv c (↑old + M)) (hm : Move c old c' new) {f : Frame} (hf : f ∈ M)
    {p : Nat} (ht : c.stage t = .init) (hr : r ∈ f.locks) (h : c.Found t p r k) :
    c'.Found t p r k := by
  have hlt := hI.events.lt_next (t := t) (by rw [ht]; simp)
  have hp : p < c.next := by
    refine hI.events.lt_next fun hu => ?_
    have hmem := (hI.lists.mem_iff p r k).mpr ⟨false, h.1⟩
    rw [hI.lists.unborn p hu] at hmem
    simp at hmem
  obtain ⟨b, hb, -, hfree⟩ := (listMove hI hm).users_mono h.1
  refine ⟨by rw [hb, hfree ⟨f, hf, hr⟩], ?_⟩
  rw [verdict_congr (hm.info_eq hlt) (hm.info_eq hp)]
  exact h.2

theorem Inv.removedBut_step (hI : Inv c (↑old + M)) (hm : Move c old c' new)
    {es : List (Resource × Nat)} (ht : c.phase (.post t) = .reached) (h : c.RemovedBut t es) :
    c'.RemovedBut t es := by
  have hdone : c.stage t = .done := hI.events.done_of_reached (by rw [ht]; simp)
  have he : c'.entries t = c.entries t := (listMove hI hm).entries_eq (by rw [hdone]; simp)
  refine ⟨fun x hx => he ▸ h.1 x hx, fun r k hmem => ?_⟩
  rw [he] at hmem
  rcases h.2 r k hmem with hes | hu
  · exact .inl hes
  · obtain ⟨b, hb, hrem, -⟩ := (listMove hI hm).users_mono hu
    exact .inr (by rw [hb, hrem rfl])

/-- What a frame knows is left alone by the steps of the other threads. -/
theorem Inv.ok_of_mem (hI : Inv c (↑old + M)) (hm : Move c old c' new) {f : Frame} (hf : f ∈ M) :
    f.Ok c' := by
  have hf' : f ∈ (↑old : Multiset Frame) + M := Multiset.mem_add.mpr (.inr hf)
  have hok := hI.frames f hf'
  have hL := hI.ledger
  have hE := hI.events
  cases f with
  | submit pc t cur =>
      cases pc with
      | future => trivial
      | follower =>
          have htok : (some t, Stage.submit) ∈ (Frame.submit .follower t cur).tasks := by
            simp [Frame.tasks]
          have hlt := hE.lt_next (t := t) (by rw [hL.stage_eq hf' htok]; simp)
          exact ⟨by rw [hm.info_eq hlt]; exact hok.1,
            by rw [(listMove hI hm).entries_eq_of_mem hf htok]; exact hok.2⟩
      | count i =>
          have htok : (some t, Stage.submit) ∈ (Frame.submit (.count i) t cur).tasks := by
            simp [Frame.tasks]
          have hlt := hE.lt_next (t := t) (by rw [hL.stage_eq hf' htok]; simp)
          obtain ⟨h1, h2, u, h3, h4⟩ := hok
          exact ⟨by rw [hm.info_eq hlt]; exact h1,
            by rw [(listMove hI hm).entries_eq_of_mem hf htok]; exact h2, u, h3,
            hI.followers_eq hm hf (by simp [Frame.edges]) h4 rfl⟩
      | users rs =>
          have htok : (some t, Stage.submit) ∈ (Frame.submit (.users rs) t cur).tasks := by
            simp [Frame.tasks]
          have hlt := hE.lt_next (t := t) (by rw [hL.stage_eq hf' htok]; simp)
          obtain ⟨h1, h2, h3⟩ := hok
          refine ⟨by rw [hm.info_eq hlt]; exact h1, ?_, fun u hu => (eventMove hI hm).edge (h3 u hu)⟩
          rw [(listMove hI hm).entries_eq_of_mem hf htok, resourcesOf_eq hm hlt]
          exact h2
  | makeEvent i x t => exact hI.followers_eq hm hf (by simp [Frame.edges]) hok rfl
  | init pc t =>
      have ht : ∀ {σ}, (some t, σ) ∈ (Frame.init pc t).tasks → c.stage t = σ := hL.stage_eq hf'
      cases pc with
      | check r k p es | follow r k p es | push r k p es | next r k p es =>
          exact hI.found_step hm hf (ht (by simp [Frame.tasks])) (by simp [Frame.locks]) hok
      | count r k p es i =>
          exact ⟨hI.found_step hm hf (ht (by simp [Frame.tasks])) (by simp [Frame.locks]) hok.1,
            hI.followers_eq hm hf (by simp [Frame.edges]) hok.2 rfl⟩
      | _ => trivial
  | delete pc t =>
      have hph : c.phase (.post t) = .reached := hL.phase_eq hf' (by simp [Frame.notifies])
      cases pc <;> exact hI.removedBut_step hm hph hok
  | removal e t => exact hok
  | _ => trivial

theorem ok_of_mem_notifyTail {e : EventPtr} {b : Bool} {f : Frame} (hf : f ∈ c.notifyTail e b) :
    f.Ok c' := by
  unfold Core.notifyTail at hf
  split_ifs at hf
  · simp at hf
  · obtain rfl := List.mem_singleton.mp hf
    trivial

/-- What a thread finds out in a step is true. -/
theorem Inv.ok_of_mem_new (hI : Inv c (↑old + M)) (hm : Move c old c' new) {f : Frame}
    (hf : f ∈ new) : f.Ok c' := by
  have hL := hI.ledger
  have hE := hI.events
  cases hm
  case claim t _ | exec t | setResult t | notifyFollower d _ =>
    rcases List.mem_append.mp hf with h | h
    · exact ok_of_mem_notifyTail h
    · obtain rfl := List.mem_singleton.mp h
      trivial
  case block | finish | fire | notifyGet => exact ok_of_mem_notifyTail hf
  case removal =>
    split_ifs at hf
    · obtain rfl := List.mem_singleton.mp hf
      trivial
    · simp at hf
  case emplaceRoot calls child k hcode =>
    obtain rfl := List.mem_singleton.mp hf
    have hnil := hI.lists.unborn c.next ((hE.born _).mpr le_rfl)
    refine ⟨by simp [Core.create], ?_, by simp⟩
    show (c.entries c.next).map Prod.fst ++ _ = _
    rw [hnil]
    rfl
  case emplaceChild u calls child k hcode =>
    obtain rfl := List.mem_singleton.mp hf
    exact ⟨by simp [Core.create], hI.lists.unborn c.next ((hE.born _).mpr le_rfl)⟩
  case createEvent t k hcode =>
    obtain rfl := List.mem_singleton.mp hf
    show (c.followers ++ [_])[c.followers.length]? = _
    simp
  case parentReached t u hr =>
    have ht : c.stage t = .submit := hL.stage_head List.mem_cons_self
    have hpos := hE.counter_pos (e := .post t) (by simp [Core.units, ht, Stage.postUnits])
    omega
  case parentFollower t u hr =>
    obtain rfl := List.mem_singleton.mp hf
    obtain ⟨h1, h2⟩ := hI.frames (.submit .follower t (some u)) mem_head
    refine ⟨h1, h2, u, rfl, ?_⟩
    show (c.followers ++ [_])[c.followers.length]? = _
    simp
  case parentCount i t u =>
    obtain rfl := List.mem_singleton.mp hf
    have hm := Move.parentCount (c := c) (i := i) (t := t) (u := u)
    obtain ⟨h1, h2, v, hv, h4⟩ := hI.frames (.submit (.count i) t (some u)) mem_head
    obtain rfl := Option.some.inj hv
    refine ⟨h1, ?_, fun w hw => ?_⟩
    · show (c.entries t).map Prod.fst ++ c.resourcesOf t = c.resourcesOf t
      rw [h2]
      rfl
    · obtain rfl := Option.some.inj hw
      exact (eventMove hI hm).edge ⟨_, List.mem_of_getElem? h4, rfl, rfl⟩
  case pushUser r rs t cur =>
    obtain rfl := List.mem_singleton.mp hf
    obtain ⟨h1, h2, h3⟩ := hI.frames (.submit (.users (r :: rs)) t cur) mem_head
    refine ⟨h1, ?_, h3⟩
    show (update c.entries t (c.entries t ++ [(r, (c.users r).length)]) t).map Prod.fst ++ rs =
      c.resourcesOf t
    rw [update_self, ← h2]
    simp
  case scanDepend r k es t p hu hv =>
    obtain rfl := List.mem_singleton.mp hf
    exact ⟨hu, hv⟩
  case checkReached r k p es t _ | checkOpen r k p es t _ =>
    obtain rfl := List.mem_singleton.mp hf
    exact hI.frames (.init (.check r k p es) t) mem_head
  case followReached r k p es t _ | followOpen r k p es t _ =>
    obtain rfl := List.mem_singleton.mp hf
    exact hI.frames (.init (.follow r k p es) t) mem_head
  case push r k p es t =>
    obtain rfl := List.mem_singleton.mp hf
    refine ⟨hI.frames (.init (.push r k p es) t) mem_head, ?_⟩
    show (c.followers ++ [_])[c.followers.length]? = _
    simp
  case count r k p es i t =>
    obtain rfl := List.mem_singleton.mp hf
    exact (hI.frames (.init (.count r k p es i) t) mem_head).1
  case wakerPost t b =>
    obtain rfl := List.mem_singleton.mp hf
    exact ⟨fun x hx => hx, fun r k h => .inl h⟩
  case deleteLock r k es t hl =>
    obtain rfl := List.mem_singleton.mp hf
    exact hI.frames (.delete (.resources ((r, k) :: es)) t) mem_head
  case deleteUnlock r es t =>
    obtain rfl := List.mem_singleton.mp hf
    exact hI.frames (.delete (.unlock r es) t) mem_head
  case deleteRemove r k es t =>
    obtain rfl := List.mem_singleton.mp hf
    have hm : Move c [.delete (.remove r k es) t] _ _ := .deleteRemove
    have hph : c.phase (.post t) = .reached := hL.phase_head List.mem_cons_self
    have hok := hI.frames (.delete (.remove r k es) t) mem_head
    obtain ⟨h1, h2⟩ := hI.removedBut_step hm hph hok
    refine ⟨fun x hx => h1 x (List.mem_cons_of_mem _ hx), fun r' k' hmem => ?_⟩
    rcases h2 r' k' hmem with hes | hu
    · rcases List.mem_cons.mp hes with e | hes
      · -- the entry just removed
        obtain ⟨rfl, rfl⟩ := Prod.mk.inj e
        obtain ⟨b, hb⟩ := (hI.lists.mem_iff t r' k').mp hmem
        right
        show (update c.users r' _ r')[k']? = _
        simp [hb]
      · exact .inl hes
    · exact .inr hu
  case loopedRemoval e t he =>
    obtain rfl := List.mem_singleton.mp hf
    exact he
  all_goals
    first
      | exact absurd hf List.not_mem_nil
      | (obtain rfl := List.mem_singleton.mp hf; trivial)

/-! ### The invariant -/

/-- Every step keeps the invariant. -/
theorem Inv.step (hI : Inv c (↑old + M))
    (hw : ∀ f ∈ old, ∀ e ∈ f.upsOn, c.counter e + 1 < counterSize) (hm : Move c old c' new) :
    Inv c' (↑new + M) where
  ledger := hI.ledger.step hI.events.fresh hm
  events := hI.events_step hw hm
  lists := hI.lists_step hm
  frames := by
    intro f hf
    rcases Multiset.mem_add.mp hf with h | h
    · exact hI.ok_of_mem_new hm (Multiset.mem_coe.mp h)
    · exact hI.ok_of_mem hm h

theorem Inv.initial (prog : Body V) (store : Resource → V) :
    Inv (Core.initial prog store) {.body none} where
  ledger := Ledger.initial prog store
  events := {
    born := by simp [Core.initial]
    event := by simp [Core.initial]
    spent := by simp [Core.initial]
    counter := by
      intro e
      cases e <;> simp [Core.initial, Core.units, Core.pending, Stage.preUnits, Stage.postUnits,
        Stage.resultUnits]
    small := fun _ => show 1 < counterSize by decide
    open_iff := by simp [Core.initial]
    edge := by simp [Core.initial]
    looping := by simp [Core.initial]
    blocked := by simp [Core.initial] }
  lists := {
    mem_iff := by simp [Core.initial]
    unborn := by simp [Core.initial]
    complete := fun _ h => absurd h (show ¬ Stage.emplaced ≤ Stage.unborn by decide)
    removed := by simp [Core.initial]
    drained := by simp [Core.initial]
    parent := by simp [Core.initial]
    child := fun _ _ h => absurd h (show ¬ Stage.emplaced ≤ Stage.unborn by decide)
    event := by simp [Core.initial] }
  frames := by
    intro f hf
    obtain rfl := Multiset.mem_singleton.mp hf
    trivial

end Lists

variable {Tid : Type} [DecidableEq Tid] [Fintype Tid]

/-- The invariant holds in every reachable state. -/
theorem Inv.of_reaches {main : Tid} {prog : Body V} {store : Resource → V} {s : State Tid V}
    (hs : Reaches Runtime.step NoWrap (State.initial main prog store) s) :
    Inv s.core (Machine.frames s.threads) :=
  invariant_of_moves (Inv.initial prog store) (fun hw hm hI => hI.step hw hm) hs

end RedGrapes.Runtime
