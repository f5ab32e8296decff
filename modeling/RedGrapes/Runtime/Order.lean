/-
RedGrapes/Runtime/Order.lean

Conflicting tasks of one space run in the order of their submission.

`init_graph` does not add an edge for every conflicting pair: it skips tasks
that have already left the user list, and it stops at the first predecessor
with a synchronizing access.  `Covered c i t` says what is left: `i` has
finished, or `t` waits for `i`, or for a later task that itself conflicts with
`i`.  Every scan covers the places it has passed (`Frame.Scanned`), and a task
that has been initialised is covered against all earlier tasks of its space.
-/
import RedGrapes.Runtime.Handshake

namespace RedGrapes.Runtime

open Function Machine ResourceUser

variable {V : Type}

/-! ### What a scan has covered -/

namespace Core

/-- The task as a resource user. -/
def userOf (c : Core V) (t : Nat) : ResourceUser := (c.info t).user

/-- `p` is an earlier task of the space of `t`. -/
def Earlier (c : Core V) (p t : Nat) : Prop := p < t ∧ (c.info p).space = (c.info t).space

/-- `p` has finished, or `t` waits for it. -/
def Closed (c : Core V) (p t : Nat) : Prop :=
  c.phase (.post p) ≠ .open ∨ c.Edge (.post p) (.pre t)

/-- `i` cannot run after `t`: directly, through a task in between, or because
`t` waits for itself. -/
def Covered (c : Core V) (i t : Nat) : Prop :=
  c.Closed i t ∨
    (∃ p, c.Earlier i p ∧ c.Earlier p t ∧ (c.userOf i).isSerial (c.userOf p) = true ∧
      c.Closed p t) ∨
    c.Edge (.post t) (.pre t)

/-- `t` is covered against the conflicts on `r` with tasks at place `k` or
later. -/
def CoveredFrom (c : Core V) (t : Nat) (r : Resource) (k : Nat) : Prop :=
  ∀ i, c.Earlier i t → ConflictOn r (c.userOf i) (c.userOf t) →
    ∀ k', (r, k') ∈ c.entries i → k ≤ k' → c.Covered i t

/-- `t` is covered against all conflicts on `r`. -/
def CoveredOn (c : Core V) (t : Nat) (r : Resource) : Prop :=
  ∀ i, c.Earlier i t → ConflictOn r (c.userOf i) (c.userOf t) → c.Covered i t

/-- The usage entries `es` are still to be scanned, all resources but these and
those in `rs` are covered. -/
def CoveredBut (c : Core V) (t : Nat) (rs : List Resource) (es : List (Resource × Nat)) : Prop :=
  (∀ x ∈ es, x ∈ c.entries t) ∧
    ∀ r ∈ c.resourcesOf t, r ∈ rs ∨ (∃ k, (r, k) ∈ es) ∨ c.CoveredOn t r

end Core

/-- What the scans of `init_graph` have covered so far. -/
def Frame.Scanned (c : Core V) : Frame → Prop
  | .init (.resources es) t => c.CoveredBut t [] es
  | .init (.scan r k es) t => c.CoveredBut t [r] es ∧ c.CoveredFrom t r k ∧
      ∃ k₀, k ≤ k₀ ∧ (r, k₀) ∈ c.entries t
  | .init (.check r k _ es) t => c.CoveredBut t [r] es ∧ c.CoveredFrom t r (k + 1) ∧
      ∃ k₀, k < k₀ ∧ (r, k₀) ∈ c.entries t
  | .init (.follow r k _ es) t => c.CoveredBut t [r] es ∧ c.CoveredFrom t r (k + 1) ∧
      ∃ k₀, k < k₀ ∧ (r, k₀) ∈ c.entries t
  | .init (.push r k _ es) t => c.CoveredBut t [r] es ∧ c.CoveredFrom t r (k + 1) ∧
      ∃ k₀, k < k₀ ∧ (r, k₀) ∈ c.entries t
  | .init (.count r k _ es _) t => c.CoveredBut t [r] es ∧ c.CoveredFrom t r (k + 1) ∧
      ∃ k₀, k < k₀ ∧ (r, k₀) ∈ c.entries t
  | .init (.next r k p es) t => c.CoveredBut t [r] es ∧ c.CoveredFrom t r (k + 1) ∧
      (∃ k₀, k < k₀ ∧ (r, k₀) ∈ c.entries t) ∧ c.Closed p t
  | .init (.unlock r es) t => c.CoveredBut t [r] es ∧ c.CoveredOn t r
  | _ => True

/-- The order of submission in the user lists and in the follower entries. -/
structure Order (c : Core V) (M : Multiset Frame) : Prop where
  submitted : ∀ i j, c.Earlier i j → j < c.next → c.stage i ≠ .submit
  before : ∀ i j r k k', c.Earlier i j → (r, k) ∈ c.entries i → (r, k') ∈ c.entries j → k < k'
  above : ∀ t u r k k', (c.info t).space = some u → (r, k) ∈ c.entries u →
    (r, k') ∈ c.entries t → k < k'
  self : ∀ t, c.Edge (.post t) (.pre t) → ¬ .active ≤ c.stage t
  covered : ∀ t, .blocked ≤ c.stage t → ∀ i, c.Earlier i t →
    (c.userOf i).isSerial (c.userOf t) = true → c.Covered i t
  scanned : ∀ f ∈ M, f.Scanned c

section Step

variable {c c' : Core V} {old new : List Frame} {M : Multiset Frame} {i p t k : Nat} {r : Resource}

/-! ### What stays covered -/

theorem Earlier.congr (hm : Move c old c' new) (ht : t < c.next) :
    c'.Earlier i t ↔ c.Earlier i t := by
  constructor
  · rintro ⟨hlt, hs⟩
    rw [hm.info_eq (hlt.trans ht), hm.info_eq ht] at hs
    exact ⟨hlt, hs⟩
  · rintro ⟨hlt, hs⟩
    refine ⟨hlt, ?_⟩
    rw [hm.info_eq (hlt.trans ht), hm.info_eq ht]
    exact hs

theorem userOf_eq (hm : Move c old c' new) (ht : t < c.next) : c'.userOf t = c.userOf t := by
  rw [Core.userOf, Core.userOf, hm.info_eq ht]

theorem Closed.step (hI : Inv c (↑old + M)) (hm : Move c old c' new) (h : c.Closed p t) :
    c'.Closed p t := by
  rcases h with h | h
  · exact .inl fun ho => h ((eventMove hI hm).open ho)
  · exact .inr ((eventMove hI hm).edge h)

theorem Covered.step (hI : Inv c (↑old + M)) (hm : Move c old c' new) (ht : t < c.next)
    (h : c.Covered i t) : c'.Covered i t := by
  rcases h with h | ⟨p, hip, hpt, hser, hcl⟩ | h
  · exact .inl (Closed.step hI hm h)
  · have hp := hpt.1.trans ht
    refine .inr (.inl ⟨p, (Earlier.congr hm hp).mpr hip, (Earlier.congr hm ht).mpr hpt, ?_,
      Closed.step hI hm hcl⟩)
    rw [userOf_eq hm (hip.1.trans hp), userOf_eq hm hp]
    exact hser
  · exact .inr (.inr ((eventMove hI hm).edge h))

theorem CoveredOn.step (hI : Inv c (↑old + M)) (hm : Move c old c' new) (ht : t < c.next)
    (h : c.CoveredOn t r) : c'.CoveredOn t r := by
  intro i hi hconf
  have hi₀ := (Earlier.congr hm ht).mp hi
  rw [userOf_eq hm ht, userOf_eq hm (hi.1.trans ht)] at hconf
  exact Covered.step hI hm ht (h i hi₀ hconf)

/-- The entries of the earlier tasks of a space do not change any more. -/
theorem Order.entries_eq (hI : Inv c (↑old + M)) (hO : Order c (↑old + M)) (hm : Move c old c' new)
    (hi : c.Earlier i t) (ht : t < c.next) : c'.entries i = c.entries i :=
  (listMove hI hm).entries_eq (hO.submitted i t hi ht)

theorem CoveredFrom.step (hI : Inv c (↑old + M)) (hO : Order c (↑old + M)) (hm : Move c old c' new)
    (ht : t < c.next) (h : c.CoveredFrom t r k) : c'.CoveredFrom t r k := by
  intro i hi hconf k' hmem hk
  have hi₀ := (Earlier.congr hm ht).mp hi
  rw [userOf_eq hm ht, userOf_eq hm (hi.1.trans ht)] at hconf
  rw [hO.entries_eq hI hm hi₀ ht] at hmem
  exact Covered.step hI hm ht (h i hi₀ hconf k' hmem hk)

theorem CoveredBut.step (hI : Inv c (↑old + M)) (hm : Move c old c' new) (ht : t < c.next)
    (hs : c.stage t ≠ .submit) {rs : List Resource} {es : List (Resource × Nat)}
    (h : c.CoveredBut t rs es) : c'.CoveredBut t rs es := by
  refine ⟨fun x hx => ?_, fun r hr => ?_⟩
  · rw [(listMove hI hm).entries_eq hs]
    exact h.1 x hx
  · rw [resourcesOf_eq hm ht] at hr
    rcases h.2 r hr with hr | hr | hr
    · exact .inl hr
    · exact .inr (.inl hr)
    · exact .inr (.inr (CoveredOn.step hI hm ht hr))

/-- What a scan has covered stays covered while other threads go on. -/
theorem Order.scanned_of_mem (hI : Inv c (↑old + M)) (hO : Order c (↑old + M))
    (hm : Move c old c' new) {f : Frame} (hf : f ∈ M) : f.Scanned c' := by
  have hf' : f ∈ (↑old : Multiset Frame) + M := Multiset.mem_add.mpr (.inr hf)
  have h := hO.scanned f hf'
  cases f with
  | init pc t =>
      by_cases hup : pc = .up
      · subst hup
        trivial
      · have hst : c.stage t = .init :=
          hI.ledger.stage_eq hf' (by cases pc <;> simp_all [Frame.tasks])
        have hlt := hI.events.lt_next (t := t) (by rw [hst]; simp)
        have hns : c.stage t ≠ .submit := by rw [hst]; simp
        have he := (listMove hI hm).entries_eq hns
        cases pc with
        | up => trivial
        | resources es => exact CoveredBut.step hI hm hlt hns h
        | unlock r es => exact ⟨CoveredBut.step hI hm hlt hns h.1, CoveredOn.step hI hm hlt h.2⟩
        | scan r k es =>
            exact ⟨CoveredBut.step hI hm hlt hns h.1, CoveredFrom.step hI hO hm hlt h.2.1,
              he ▸ h.2.2⟩
        | next r k p es =>
            exact ⟨CoveredBut.step hI hm hlt hns h.1, CoveredFrom.step hI hO hm hlt h.2.1,
              he ▸ h.2.2.1, Closed.step hI hm h.2.2.2⟩
        | _ =>
            exact ⟨CoveredBut.step hI hm hlt hns h.1, CoveredFrom.step hI hO hm hlt h.2.1,
              he ▸ h.2.2⟩
  | _ => trivial

/-! ### What a scan covers in a step -/

/-- An earlier task of the space has entered all its user lists. -/
theorem Order.emplaced_of_earlier (hI : Inv c M) (hO : Order c M) (hi : c.Earlier i t)
    (ht : t < c.next) : .emplaced ≤ c.stage i := by
  have h1 := hO.submitted i t hi ht
  have h2 : c.stage i ≠ .unborn := fun h => by
    have := (hI.events.born i).mp h
    have := hi.1
    omega
  cases hs : c.stage i <;> simp_all <;> decide

/-- A conflict on `r` shows in the user list of `r`. -/
theorem Order.exists_entry (hI : Inv c M) (hO : Order c M) (hi : c.Earlier i t) (ht : t < c.next)
    (hconf : ConflictOn r (c.userOf i) (c.userOf t)) : ∃ k, (r, k) ∈ c.entries i := by
  have hmem : r ∈ c.resourcesOf i := by
    rw [Core.resourcesOf, List.mem_reverse]
    exact ConflictOn.mem_left hconf
  rw [← hI.lists.complete i (hO.emplaced_of_earlier hI hi ht)] at hmem
  obtain ⟨⟨r', k⟩, hk, rfl⟩ := List.mem_map.mp hmem
  exact ⟨k, hk⟩

theorem Core.CoveredFrom.coveredOn (hI : Inv c M) (hO : Order c M) (ht : t < c.next)
    (h : c.CoveredFrom t r 0) : c.CoveredOn t r := by
  intro i hi hconf
  obtain ⟨k, hk⟩ := hO.exists_entry hI hi ht hconf
  exact h i hi hconf k hk (Nat.zero_le k)

/-- The task at a place of a user list. -/
theorem Inv.task_eq (hI : Inv c M) {b : Bool} (hu : (c.users r)[k]? = some ⟨p, b⟩)
    (hi : (r, k) ∈ c.entries i) : i = p := by
  obtain ⟨b', hb'⟩ := (hI.lists.mem_iff i r k).mp hi
  rw [hu] at hb'
  simp_all

/-- One place more is covered when the task there is. -/
theorem Core.CoveredFrom.extend (hI : Inv c M) (h : c.CoveredFrom t r (k + 1)) {b : Bool}
    (hu : (c.users r)[k]? = some ⟨p, b⟩)
    (hp : c.Earlier p t → ConflictOn r (c.userOf p) (c.userOf t) → c.Covered p t) :
    c.CoveredFrom t r k := by
  intro i hi hconf k' hmem hk
  rcases Nat.lt_or_ge k k' with hlt | hge
  · exact h i hi hconf k' hmem hlt
  · obtain rfl : k' = k := by omega
    obtain rfl := hI.task_eq hu hmem
    exact hp hi hconf

/-- All places are covered when those before `k` are. -/
theorem Core.CoveredFrom.finish (hI : Inv c M) (hO : Order c M) (ht : t < c.next)
    (h : c.CoveredFrom t r (k + 1))
    (hrest : ∀ i k', c.Earlier i t → ConflictOn r (c.userOf i) (c.userOf t) →
      (r, k') ∈ c.entries i → k' ≤ k → c.Covered i t) : c.CoveredOn t r := by
  intro i hi hconf
  obtain ⟨k', hk'⟩ := hO.exists_entry hI hi ht hconf
  rcases Nat.lt_or_ge k k' with hlt | hge
  · exact h i hi hconf k' hk' hlt
  · exact hrest i k' hi hconf hk' hge

/-- A predecessor with a synchronizing access stands in for all tasks before
it. -/
theorem Order.covered_of_sync (hI : Inv c M) (hO : Order c M) (ht : t < c.next) {k₀ : Nat}
    (hst : c.stage t = .init)
    (hfound : c.Found t p r k) (hk₀ : k < k₀) (hown : (r, k₀) ∈ c.entries t)
    (hsync : (c.info p).user.hasSyncAccess r = true) (hcl : c.Closed p t)
    (h : c.CoveredFrom t r (k + 1)) : c.CoveredOn t r := by
  have hpk : (r, k) ∈ c.entries p := (hI.lists.mem_iff p r k).mpr ⟨false, hfound.1⟩
  obtain ⟨-, hspace, -⟩ := verdict_eq_depend_iff.mp hfound.2
  refine Core.CoveredFrom.finish hI hO ht h fun i k' hi hconf hk' hle => ?_
  by_cases hne : i = p
  · subst hne
    exact .inl hcl
  · rcases Nat.lt_trichotomy p t with hpt | rfl | htp
    · -- the tasks before it conflict with it
      have hip : c.Earlier i p := by
        refine ⟨?_, hi.2.trans hspace.symm⟩
        by_contra hge
        have := hO.before p i r k k' ⟨by omega, hspace.trans hi.2.symm⟩ hpk hk'
        omega
      exact .inr (.inl ⟨p, hip, ⟨hpt, hspace⟩, (hconf.absorb hsync).1.isSerial, hcl⟩)
    · -- its own older entry: it waits for itself
      refine .inr (.inr ?_)
      rcases hcl with h | h
      · have := hI.events.done_of_reached h
        rw [hst] at this
        simp at this
      · exact h
    · have := hO.before t p r k₀ k ⟨htp, hspace.symm⟩ hown hpk
      omega

/-- A scan covers what it passes. -/
theorem Order.scanned_of_mem_new (hI : Inv c (↑old + M)) (hO : Order c (↑old + M))
    (hm : Move c old c' new) {f : Frame} (hf : f ∈ new) : f.Scanned c' := by
  have hL := hI.ledger
  have hE := hI.events
  -- the frames of `notify` have covered nothing
  have htail : ∀ {e b}, f ∈ c.notifyTail e b → f.Scanned c' := by
    intro e b h
    unfold Core.notifyTail at h
    split_ifs at h
    · simp at h
    · obtain rfl := List.mem_singleton.mp h
      trivial
  cases hm
  case claim t _ | exec t | setResult t | notifyFollower d _ =>
    rcases List.mem_append.mp hf with h | h
    · exact htail h
    · obtain rfl := List.mem_singleton.mp h
      trivial
  case block | finish | fire | notifyGet => exact htail hf
  case removal =>
    split_ifs at hf
    · obtain rfl := List.mem_singleton.mp hf
      trivial
    · simp at hf
  case initUp t =>
    obtain rfl := List.mem_singleton.mp hf
    have hst : c.stage t = .popped := hL.stage_head List.mem_cons_self
    refine ⟨fun x hx => hx, fun r hr => ?_⟩
    have hall := hI.lists.complete t (by rw [hst]; decide)
    have hr' : r ∈ c.resourcesOf t := hr
    rw [← hall] at hr'
    obtain ⟨⟨r', k⟩, hk, rfl⟩ := List.mem_map.mp hr'
    exact .inr (.inl ⟨k, hk⟩)
  case initLock r k es t hl =>
    obtain rfl := List.mem_singleton.mp hf
    obtain ⟨h1, h2⟩ := hO.scanned (.init (.resources ((r, k) :: es)) t) (by simp)
    have hown : (r, k) ∈ c.entries t := h1 _ (by simp)
    refine ⟨⟨fun x hx => h1 x (List.mem_cons_of_mem _ hx), fun r' hr' => ?_⟩, ?_, k, le_rfl, hown⟩
    · rcases h2 r' hr' with h | ⟨k', hk'⟩ | h
      · simp at h
      · rcases List.mem_cons.mp hk' with e | hk'
        · obtain ⟨rfl, -⟩ := Prod.mk.inj e
          exact .inl (by simp)
        · exact .inr (.inl ⟨k', hk'⟩)
      · exact .inr (.inr h)
    · -- no earlier task stands behind the task's own entry
      intro i hi hconf k' hmem hk
      have := hO.before i t r k' k hi hmem hown
      omega
  case scanEnd r es t =>
    obtain rfl := List.mem_singleton.mp hf
    have hst : c.stage t = .init := hL.stage_head List.mem_cons_self
    obtain ⟨h1, h2, -⟩ := hO.scanned (.init (.scan r 0 es) t) (by simp)
    exact ⟨h1, h2.coveredOn hI hO (hE.lt_next (by rw [hst]; simp))⟩
  case scanRemoved r k es t p hu =>
    obtain rfl := List.mem_singleton.mp hf
    obtain ⟨h1, h2, k₀, h3, h4⟩ := hO.scanned (.init (.scan r (k + 1) es) t) (by simp)
    refine ⟨h1, h2.extend hI hu fun _ _ => ?_, k₀, by omega, h4⟩
    exact .inl (.inl (hI.lists.removed r k p hu))
  case scanSkip r k es t p hu hv =>
    obtain rfl := List.mem_singleton.mp hf
    obtain ⟨h1, h2, k₀, h3, h4⟩ := hO.scanned (.init (.scan r (k + 1) es) t) (by simp)
    refine ⟨h1, h2.extend hI hu fun hp hconf => ?_, k₀, by omega, h4⟩
    have hstop : (c.info t).space ≠ some p := fun h => by
      rw [verdict_eq_stop_iff.mpr h] at hv
      simp at hv
    rw [verdict_eq_depend_iff.mpr ⟨hstop, hp.2, hconf.isSerial⟩] at hv
    simp at hv
  case scanParent r k es t p hu hv =>
    obtain rfl := List.mem_singleton.mp hf
    have hst : c.stage t = .init := hL.stage_head List.mem_cons_self
    have hlt := hE.lt_next (t := t) (by rw [hst]; simp)
    obtain ⟨h1, h2, -⟩ := hO.scanned (.init (.scan r (k + 1) es) t) (by simp)
    refine ⟨h1, h2.finish hI hO hlt fun i k' hi hconf hmem hle => ?_⟩
    -- the children of a task stand behind it
    have hpk : (r, k) ∈ c.entries p := (hI.lists.mem_iff p r k).mpr ⟨false, hu⟩
    have := hO.above i p r k k' (hi.2.trans (verdict_eq_stop_iff.mp hv)) hpk hmem
    omega
  case scanDepend r k es t p hu hv =>
    obtain rfl := List.mem_singleton.mp hf
    obtain ⟨h1, h2, k₀, h3, h4⟩ := hO.scanned (.init (.scan r (k + 1) es) t) (by simp)
    exact ⟨h1, h2, k₀, h3, h4⟩
  case checkReached r k p es t hz =>
    obtain rfl := List.mem_singleton.mp hf
    obtain ⟨h1, h2, h3⟩ := hO.scanned (.init (.check r k p es) t) (by simp)
    exact ⟨h1, h2, h3, .inl ((hE.open_iff _).not.mpr (by simp [hz]))⟩
  case checkOpen r k p es t _ =>
    obtain rfl := List.mem_singleton.mp hf
    exact hO.scanned (.init (.check r k p es) t) (by simp)
  case followReached r k p es t hz =>
    obtain rfl := List.mem_singleton.mp hf
    obtain ⟨h1, h2, h3⟩ := hO.scanned (.init (.follow r k p es) t) (by simp)
    exact ⟨h1, h2, h3, .inl ((hE.open_iff _).not.mpr (by simp [hz]))⟩
  case followOpen r k p es t _ =>
    obtain rfl := List.mem_singleton.mp hf
    exact hO.scanned (.init (.follow r k p es) t) (by simp)
  case push r k p es t =>
    obtain rfl := List.mem_singleton.mp hf
    have hst : c.stage t = .init := hL.stage_head List.mem_cons_self
    have hlt := hE.lt_next (t := t) (by rw [hst]; simp)
    have hmove : Move c [.init (.push r k p es) t] _ _ := .push
    obtain ⟨h1, h2, h3⟩ := hO.scanned (.init (.push r k p es) t) (by simp)
    exact ⟨CoveredBut.step hI hmove hlt (by rw [hst]; simp) h1, CoveredFrom.step hI hO hmove hlt h2,
      h3⟩
  case count r k p es j t =>
    obtain rfl := List.mem_singleton.mp hf
    have hst : c.stage t = .init := hL.stage_head List.mem_cons_self
    have hlt := hE.lt_next (t := t) (by rw [hst]; simp)
    have hmove : Move c [.init (.count r k p es j) t] _ _ := .count
    obtain ⟨h1, h2, h3⟩ := hO.scanned (.init (.count r k p es j) t) (by simp)
    have hok : Frame.Ok c (.init (.count r k p es j) t) := hI.frames _ (by simp)
    have hcl : c.Closed p t := .inr ⟨_, List.mem_of_getElem? hok.2, rfl, rfl⟩
    exact ⟨CoveredBut.step hI hmove hlt (by rw [hst]; simp) h1, CoveredFrom.step hI hO hmove hlt h2,
      h3, Closed.step hI hmove hcl⟩
  case nextSync r k p es t hs =>
    obtain rfl := List.mem_singleton.mp hf
    have hst : c.stage t = .init := hL.stage_head List.mem_cons_self
    have hlt := hE.lt_next (t := t) (by rw [hst]; simp)
    obtain ⟨h1, h2, ⟨k₀, h3, h4⟩, hcl⟩ := hO.scanned (.init (.next r k p es) t) (by simp)
    have hfound : c.Found t p r k := hI.frames (.init (.next r k p es) t) mem_head
    exact ⟨h1, hO.covered_of_sync hI hlt hst hfound h3 h4 hs hcl h2⟩
  case nextScan r k p es t hs =>
    obtain rfl := List.mem_singleton.mp hf
    obtain ⟨h1, h2, ⟨k₀, h3, h4⟩, hcl⟩ := hO.scanned (.init (.next r k p es) t) (by simp)
    have hfound : c.Found t p r k := hI.frames (.init (.next r k p es) t) mem_head
    exact ⟨h1, h2.extend hI hfound.1 fun _ _ => .inl hcl, k₀, by omega, h4⟩
  case initUnlock r es t =>
    obtain rfl := List.mem_singleton.mp hf
    obtain ⟨⟨h1, h2⟩, h3⟩ := hO.scanned (.init (.unlock r es) t) (by simp)
    refine ⟨h1, fun r' hr' => ?_⟩
    rcases h2 r' hr' with h | h | h
    · obtain rfl := List.mem_singleton.mp h
      exact .inr (.inr h3)
    · exact .inr (.inl h)
    · exact .inr (.inr h)
  all_goals
    first
      | exact absurd hf List.not_mem_nil
      | (obtain rfl := List.mem_singleton.mp hf; trivial)


/-! ### Submission and user lists -/

/-- A task under submission is in the hands of the frame that runs the body of
its parent. -/
theorem Inv.submit_frame (hI : Inv c M) {f : Frame} (hf : f ∈ M)
    (h : (some t, Stage.submit) ∈ f.tasks) :
    ∃ pc, f = .submit pc t (c.info t).space ∧
      ((c.info t).space, Stage.run) ∈ Frame.tasks (.submit pc t (c.info t).space) := by
  have hok := hI.frames f hf
  cases f with
  | submit pc s cur =>
      cases pc <;> simp only [Frame.tasks, List.mem_cons, List.not_mem_nil, Prod.mk.injEq,
        Option.some.injEq, reduceCtorEq, and_false, or_false, and_true] at h
      all_goals
        subst h
        obtain rfl := hok.1
        exact ⟨_, rfl, by simp [Frame.tasks]⟩
  | init pc s => cases pc <;> simp [Frame.tasks] at h
  | waker e old b =>
      unfold Frame.tasks at h
      split at h <;> simp_all
  | _ => simp [Frame.tasks] at h

/-- A space is filled by one thread of control: a task is only submitted when
its predecessors are. -/
theorem Order.submitted_step (hI : Inv c (↑old + M)) (hO : Order c (↑old + M))
    (hm : Move c old c' new) (i j : Nat) (h : c'.Earlier i j) (hj : j < c'.next) :
    c'.stage i ≠ .submit := by
  have hE := hI.events
  by_cases hjc : j < c.next
  · have hne := hO.submitted i j ((Earlier.congr hm hjc).mp h) hjc
    have hi : c.stage i ≠ .unborn := fun hu => by
      have := (hE.born i).mp hu
      have := h.1
      omega
    have hmono := (stageMove hI hm).mono hE i
    intro hs
    rw [hs] at hmono
    cases hst : c.stage i <;> rw [hst] at hmono hne hi <;> contradiction
  · -- `j` is new: its space was filled by the frame `body`, and no other holds it
    have hnew : ∀ {cur : Option Nat} {calls : List BuilderCall} {child k : Body V},
        c' = c.create cur calls child k → old = [.body cur] → c'.stage i ≠ .submit := by
      rintro cur calls child k rfl rfl
      obtain rfl : j = c.next := by
        have : j < c.next + 1 := hj
        omega
      have hsp : (c.info i).space = cur := by
        have := h.2
        have hne := h.1.ne
        simpa [Core.create, hne] using this
      have hst : (c.create cur calls child k).stage i = c.stage i := by
        simp [Core.create, h.1.ne]
      rw [hst]
      intro hs
      obtain ⟨f, hf, hmem⟩ := hI.ledger.exists_task hs rfl (by simp) (by simp)
      obtain ⟨pc, rfl, hrun⟩ := hI.submit_frame hf hmem
      rw [hsp] at hrun hf
      rcases Multiset.mem_add.mp hf with h' | h'
      · simp at h'
      · exact hI.ledger.not_mem_tasks h' (by simp [Frame.tasks]) hrun
    cases hm
    case emplaceRoot | emplaceChild => exact hnew rfl rfl
    all_goals exact absurd hj hjc

/-- Entries are made while the task is under submission, behind all others. -/
theorem Inv.entry_cases (hI : Inv c (↑old + M)) (hm : Move c old c' new) {k : Nat}
    (h : (r, k) ∈ c'.entries t) :
    (r, k) ∈ c.entries t ∨ c.stage t = .submit ∧
      ∀ i k', (r, k') ∈ c'.entries i → i ≠ t → (r, k') ∈ c.entries i ∧ k' < k := by
  cases listMove hI hm with
  | same _ he | remove _ _ _ _ _ _ _ he => exact .inl (he ▸ h)
  | push s r' hs _ _ _ he =>
      rw [he] at h ⊢
      by_cases e : t = s
      · subst e
        rw [update_self, List.mem_append, List.mem_singleton, Prod.mk.injEq] at h
        rcases h with h | ⟨rfl, rfl⟩
        · exact .inl h
        · refine .inr ⟨hs, fun i k' hi hne => ?_⟩
          rw [update_of_ne hne] at hi
          obtain ⟨b, hb⟩ := (hI.lists.mem_iff i r k').mp hi
          exact ⟨hi, (List.getElem?_eq_some_iff.mp hb).1⟩
      · rw [update_of_ne e] at h
        exact .inl h

theorem Inv.lt_next_of_entry (hI : Inv c (↑old + M)) (hm : Move c old c' new) {k : Nat}
    (h : (r, k) ∈ c'.entries t) : t < c.next := by
  refine hI.events.lt_next fun hu => ?_
  rcases hI.entry_cases hm h with h | ⟨hs, -⟩
  · rw [hI.lists.unborn t hu] at h
    simp at h
  · rw [hu] at hs
    simp at hs

theorem Order.before_step (hI : Inv c (↑old + M)) (hO : Order c (↑old + M)) (hm : Move c old c' new)
    (i j : Nat) (r : Resource) (k k' : Nat) (h : c'.Earlier i j) (hi : (r, k) ∈ c'.entries i)
    (hj : (r, k') ∈ c'.entries j) : k < k' := by
  have hjc := hI.lt_next_of_entry hm hj
  have h₀ := (Earlier.congr hm hjc).mp h
  rw [hO.entries_eq hI hm h₀ hjc] at hi
  rcases hI.entry_cases hm hj with hj | ⟨-, hall⟩
  · exact hO.before i j r k k' h₀ hi hj
  · exact (hall i k (by rwa [hO.entries_eq hI hm h₀ hjc]) h.1.ne).2

theorem Order.above_step (hI : Inv c (↑old + M)) (hO : Order c (↑old + M)) (hm : Move c old c' new)
    (t u : Nat) (r : Resource) (k k' : Nat) (hsp : (c'.info t).space = some u)
    (hu : (r, k) ∈ c'.entries u) (hk : (r, k') ∈ c'.entries t) : k < k' := by
  have htc := hI.lt_next_of_entry hm hk
  rw [hm.info_eq htc] at hsp
  obtain ⟨hlt, hrun⟩ := hI.lists.parent t u htc hsp
  have hns : c.stage u ≠ .submit := fun h => by
    rw [h] at hrun
    exact absurd hrun (by decide)
  have heq : c'.entries u = c.entries u := (listMove hI hm).entries_eq hns
  rcases hI.entry_cases hm hk with hk | ⟨-, hall⟩
  · exact hO.above t u r k k' hsp (heq ▸ hu) hk
  · exact (hall u k hu hlt.ne).2

/-! ### Initialised tasks -/

/-- An edge to a pre-event is old, or its task is being initialised. -/
theorem EventMove.edge_old (h : EventMove c c') {src : EventPtr} (he : c'.Edge src (.pre t)) :
    c.Edge src (.pre t) ∨ c'.stage t = .init := by
  obtain ⟨d', hd', hsrc, hdst⟩ := he
  cases h with
  | same hf | phase _ _ _ hf => exact .inl ⟨d', hf ▸ hd', hsrc, hdst⟩
  | push src₁ dst₁ hf _ _ hst hpre _ =>
      rw [hf, List.mem_append, List.mem_singleton] at hd'
      rcases hd' with hd' | rfl
      · exact .inl ⟨d', hd', hsrc, hdst⟩
      · exact .inr (by rw [hst]; exact hpre t hdst)
  | count i d hd hf | notify i _ d hd hf =>
      rw [hf] at hd'
      rcases List.mem_or_eq_of_mem_set hd' with hd' | rfl
      · exact .inl ⟨d', hd', hsrc, hdst⟩
      · exact .inl ⟨d, List.mem_of_getElem? hd, hsrc, hdst⟩

/-- A task that waits for itself never becomes active: its entry would have
been notified, so it would be done, and it is not done before it is active. -/
theorem Order.self_step (hI : Inv c (↑old + M)) (hO : Order c (↑old + M)) (hm : Move c old c' new)
    (hI' : Inv c' (↑new + M)) (t : Nat) (h : c'.Edge (.post t) (.pre t)) :
    ¬ .active ≤ c'.stage t := by
  intro hact
  have hdone : c'.stage t = .done := by
    obtain ⟨d, hd, hsrc, hdst⟩ := h
    obtain ⟨i, hi⟩ := List.mem_iff_getElem?.mp hd
    have hok := hI'.events.edge i d hi
    refine hI'.events.done_of_reached fun ho => ?_
    have hone := hok.activated t hdst hact
    rw [hok.notified, hsrc, ho] at hone
    simp [Phase.passed] at hone
  rcases (eventMove hI hm).edge_old h with h | hinit
  · have hnot := hO.self t h
    rcases stageMove hI hm with ⟨hst, _⟩ | ⟨hst, _⟩ | ⟨s, σ, σ', hs, hnext, hst, _⟩ <;>
      rw [hst] at hdone
    · rw [hdone] at hnot
      exact hnot (by decide)
    · by_cases e : t = c.next
      · subst e
        simp at hdone
      · rw [update_of_ne e] at hdone
        rw [hdone] at hnot
        exact hnot (by decide)
    · by_cases e : t = s
      · subst e
        rw [update_self] at hdone
        subst hdone
        rw [hs] at hnot
        cases hnext
        exact hnot (by decide)
      · rw [update_of_ne e] at hdone
        rw [hdone] at hnot
        exact hnot (by decide)
  · rw [hinit] at hdone
    simp at hdone

/-- A task leaves a stage by a step of the frame that has it in hand. -/
theorem Inv.leaves (hI : Inv c (↑old + M)) (hI' : Inv c' (↑new + M)) {σ : Stage}
    (ht : c.stage t = σ) (hi : σ.inHand = true) (he : σ ≠ .emplaced) (ha : σ ≠ .active)
    (h : c'.stage t ≠ σ) :
    ∃ f ∈ old, (some t, σ) ∈ f.tasks ∧ ∀ g ∈ new, (some t, σ) ∉ g.tasks := by
  obtain ⟨f, hf, hmem⟩ := hI.ledger.exists_task ht hi he ha
  have hkeep : ∀ g ∈ (↑new : Multiset Frame) + M, (some t, σ) ∉ g.tasks :=
    fun g hg hg' => h (hI'.ledger.stage_eq hg hg')
  rcases Multiset.mem_add.mp hf with hf | hf
  · exact ⟨f, hf, hmem, fun g hg => hkeep g (Multiset.mem_add.mpr (.inl hg))⟩
  · exact absurd hmem (hkeep f (Multiset.mem_add.mpr (.inr hf)))

/-- Initialisation ends when all usage entries are scanned. -/
theorem Inv.init_end (hI : Inv c (↑old + M)) (hm : Move c old c' new) (hI' : Inv c' (↑new + M))
    (ht : c.stage t = .init) (h : c'.stage t ≠ .init) : old = [.init (.resources []) t] := by
  obtain ⟨f, hf, hmem, hkeep⟩ := hI.leaves hI' ht rfl (by simp) (by simp) h
  obtain ⟨pc, rfl⟩ : ∃ pc, f = .init pc t := by
    unfold Frame.tasks at hmem
    split at hmem <;> simp_all
  cases hm <;> simp only [List.mem_singleton, Frame.init.injEq, reduceCtorEq,
    List.not_mem_nil] at hf
  all_goals obtain ⟨rfl, rfl⟩ := hf
  case claim | block => rfl
  case initUp => simp [Frame.tasks] at hmem
  all_goals
    have hnew := hkeep _ (List.mem_singleton_self _)
    simp [Frame.tasks] at hnew

/-- A task is covered against all earlier tasks when its initialisation ends. -/
theorem Order.covered_step (hI : Inv c (↑old + M)) (hO : Order c (↑old + M))
    (hm : Move c old c' new) (hI' : Inv c' (↑new + M)) (t : Nat) (hst : .blocked ≤ c'.stage t)
    (i : Nat) (hi : c'.Earlier i t) (hser : (c'.userOf i).isSerial (c'.userOf t) = true) :
    c'.Covered i t := by
  have hcases : .blocked ≤ c.stage t ∨ c.stage t = .init := by
    rcases stageMove hI hm with ⟨h, _⟩ | ⟨h, _⟩ | ⟨s, σ, σ', hs, hnext, h, _⟩ <;> rw [h] at hst
    · exact .inl hst
    · by_cases e : t = c.next
      · subst e
        rw [update_self] at hst
        exact absurd hst (by decide)
      · rw [update_of_ne e] at hst
        exact .inl hst
    · by_cases e : t = s
      · subst e
        rw [update_self] at hst
        rw [hs]
        cases hnext <;> first | exact .inr rfl | exact absurd hst (by decide) | exact .inl (by decide)
      · rw [update_of_ne e] at hst
        exact .inl hst
  have hlt : t < c.next := hI.events.lt_next fun h => by
    rw [h] at hcases
    exact absurd hcases (by decide)
  have hi₀ := (Earlier.congr hm hlt).mp hi
  rw [userOf_eq hm hlt, userOf_eq hm (hi.1.trans hlt)] at hser
  refine Covered.step hI hm hlt ?_
  rcases hcases with hb | hinit
  · exact hO.covered t hb i hi₀ hser
  · have hold := hI.init_end hm hI' hinit fun h => by
      rw [h] at hst
      exact absurd hst (by decide)
    have hend : c.CoveredBut t [] [] := by
      refine hO.scanned (.init (.resources []) t) ?_
      rw [hold]
      simp
    obtain ⟨r, hr⟩ := ResourceUser.isSerial_iff.mp hser
    have hmem : r ∈ c.resourcesOf t := by
      rw [Core.resourcesOf, List.mem_reverse]
      exact ConflictOn.mem_left hr.symm
    rcases hend.2 r hmem with h | ⟨_, h⟩ | h
    · simp at h
    · simp at h
    · exact h i hi₀ hr

theorem Order.step (hI : Inv c (↑old + M)) (hO : Order c (↑old + M)) (hm : Move c old c' new)
    (hI' : Inv c' (↑new + M)) : Order c' (↑new + M) where
  submitted := hO.submitted_step hI hm
  before := hO.before_step hI hm
  above := hO.above_step hI hm
  self := hO.self_step hI hm hI'
  covered := hO.covered_step hI hm hI'
  scanned := by
    intro f hf
    rcases Multiset.mem_add.mp hf with h | h
    · exact hO.scanned_of_mem_new hI hm h
    · exact hO.scanned_of_mem hI hm h

end Step

theorem Order.initial (prog : Body V) (store : Resource → V) :
    Order (Core.initial prog store) {.body none} where
  submitted := by simp [Core.initial]
  before := by simp [Core.initial]
  above := by simp [Core.initial]
  self := by simp [Core.Edge, Core.initial]
  covered := fun t ht => absurd ht (by simp [Core.initial]; decide)
  scanned := by
    intro f hf
    obtain rfl := Multiset.mem_singleton.mp hf
    trivial

/-! ### The order of conflicting tasks -/

section Finished

variable {c : Core V} {M : Multiset Frame} {i p t : Nat}

theorem Stage.le_trans {a b d : Stage} (h : a ≤ b) (h' : b ≤ d) : a ≤ d :=
  Nat.le_trans (show a.rank ≤ b.rank from h) h'

/-- A follower entry of an active task has been notified. -/
theorem Events.reached_of_edge (hE : Events c) (h : c.Edge (.post p) (.pre t))
    (hact : .active ≤ c.stage t) : c.phase (.post p) ≠ .open := by
  obtain ⟨d, hd, hsrc, hdst⟩ := h
  obtain ⟨i, hi⟩ := List.mem_iff_getElem?.mp hd
  have hok := hE.edge i d hi
  intro ho
  have hone := hok.activated t hdst hact
  rw [hok.notified, hsrc, ho] at hone
  simp [Phase.passed] at hone

/-- An active task comes after all earlier tasks of its space it conflicts
with. -/
theorem Order.finished_of_serial (hI : Inv c M) (hO : Order c M) (hi : c.Earlier i t)
    (hser : (c.userOf i).isSerial (c.userOf t) = true) (hact : .active ≤ c.stage t) :
    c.phase (.post i) ≠ .open := by
  -- a task has started when it is active, and finished when its post-event is reached
  refine @Prune.finished_of_prune Nat _ _
    (fun i t => c.Earlier i t ∧ (c.userOf i).isSerial (c.userOf t) = true)
    (fun p t => c.Edge (.post p) (.pre t)) (fun t => .active ≤ c.stage t)
    (fun p => c.phase (.post p) ≠ .open) ?_ ?_ ?_ i t ⟨hi, hser⟩ hact
  · intro p hp
    rw [hI.events.done_of_reached hp]
    decide
  · exact fun p t h ht => hI.events.reached_of_edge h ht
  · rintro i t ⟨hi, hser⟩ ht
    have hb : .blocked ≤ c.stage t := Stage.le_trans (by decide) ht
    rcases hO.covered t hb i hi hser with h | ⟨p, hip, hpt, hs, hcl⟩ | h
    · exact h.imp id .inl
    · exact .inr (.inr ⟨p, hpt.1, ⟨hip, hs⟩, hcl⟩)
    · exact absurd ht (hO.self t h)

end Finished

variable {Tid : Type} [DecidableEq Tid] [Fintype Tid]

theorem Order.of_reaches {main : Tid} {prog : Body V} {store : Resource → V} {s : State Tid V}
    (hs : Reaches Runtime.step NoWrap (State.initial main prog store) s) :
    Inv s.core (frames s.threads) ∧ Order s.core (frames s.threads) := by
  refine invariant_of_moves (I := fun c M => Inv c M ∧ Order c M)
    ⟨Inv.initial prog store, Order.initial prog store⟩ (fun hw hm h => ?_) hs
  have hI' := h.1.step hw hm
  exact ⟨hI', h.2.step h.1 hm hI'⟩

end RedGrapes.Runtime
