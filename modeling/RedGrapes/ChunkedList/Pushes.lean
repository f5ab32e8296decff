/-
RedGrapes/ChunkedList/Pushes.lean

Pushes without removals: nothing is lost and nothing is there twice.

Without removals every step is careful, so that the invariant holds in every state
that is reached.  When all pushes have returned, the list of the linked chunks and
their slots is a state of the sequential model (`Quiet.holds`), and its scan visits
the slots from the newest to the oldest.  The elements of one thread are published in
the order of its pushes, and each of them once.
-/
import RedGrapes.ChunkedList.Walk

namespace RedGrapes.ChunkedList

open Function Machine

/-! ### The linked chunks, oldest first -/

/-- The `a`-th of the chunks `l`, of which the last is the oldest, and then the
numbers that are not used yet. -/
def chainOf (l : List Nat) (fresh a : Nat) : Nat := l.reverse[a]?.getD (fresh + (a - l.length))

section ChainOf

variable {l : List Nat} {fresh : Nat}

theorem chainOf_mem (fresh : Nat) {a : Nat} (h : a < l.length) : chainOf l fresh a ∈ l := by
  have ha : a < l.reverse.length := by rwa [List.length_reverse]
  rw [chainOf, List.getElem?_eq_getElem ha]
  exact List.mem_reverse.mp (List.getElem_mem ha)

theorem exists_chainOf (fresh : Nat) {c : Nat} (h : c ∈ l) : ∃ a < l.length, chainOf l fresh a = c := by
  obtain ⟨a, ha, rfl⟩ := List.getElem_of_mem (List.mem_reverse.mpr h)
  refine ⟨a, by rwa [List.length_reverse] at ha, ?_⟩
  rw [chainOf, List.getElem?_eq_getElem ha]
  rfl

theorem chainOf_of_le {a : Nat} (h : l.length ≤ a) : chainOf l fresh a = fresh + (a - l.length) := by
  rw [chainOf, List.getElem?_eq_none (by rwa [List.length_reverse])]
  rfl

theorem chainOf_strictMono (hsorted : l.Pairwise (· > ·)) (hknown : ∀ c ∈ l, c < fresh) :
    StrictMono (chainOf l fresh) := by
  intro a b hab
  rcases Nat.lt_or_ge b l.length with hb | hb
  · have hb' : b < l.reverse.length := by rwa [List.length_reverse]
    have ha' : a < l.reverse.length := hab.trans hb'
    rw [chainOf, chainOf, List.getElem?_eq_getElem ha', List.getElem?_eq_getElem hb']
    exact List.pairwise_iff_getElem.mp (List.pairwise_reverse.mpr hsorted) a b ha' hb' hab
  · rw [chainOf_of_le hb]
    rcases Nat.lt_or_ge a l.length with ha | ha
    · have := hknown _ (chainOf_mem fresh ha)
      omega
    · rw [chainOf_of_le ha]
      omega

theorem head?_eq_chainOf (l : List Nat) (fresh : Nat) :
    l.head? = if l.length = 0 then none else some (chainOf l fresh (l.length - 1)) := by
  cases l with
  | nil => rfl
  | cons c l =>
      rw [if_neg (by simp), chainOf]
      simp

end ChainOf

/-! ### Runs without removals -/

/-- The places of a push. -/
def Place.pushing : Place → Bool
  | .loadNeighbour _ _ => false
  | .storeOffset _ _ _ => false
  | .release _ _ => false
  | .freed _ _ => false
  | .flag _ => false
  | _ => true

/-- A thread that appends a chunk. -/
def Place.appending : Place → Bool
  | .allocate => true
  | .loadOld _ => true
  | .storePrev _ _ => true
  | .casHead _ _ => true
  | _ => false

/-- The chunks that are found from the head. -/
inductive Chunks.Linked {V : Type} (s : Chunks V) : Nat → Prop
  | head {c : Nat} (h : s.head = some c) : Linked s c
  | prev {c p : Nat} (h : Linked s c) (hp : (s.chunk c).prev = some p) : Linked s p

namespace Crowd

variable {ι : Type} [DecidableEq ι] {T : Nat} {s s' : Crowd ι} {l : List Nat}

/-- The threads push, and the iterators they get are dropped. -/
def Pushing (_ : Crowd ι) : CrowdAction ι → Prop
  | .push _ => True
  | .drop _ _ => True
  | .go _ => True
  | _ => False

omit [DecidableEq ι] in
instance (s : Crowd ι) : ∀ a, Decidable (s.Pushing a)
  | .push _ => inferInstanceAs (Decidable True)
  | .drop _ _ => inferInstanceAs (Decidable True)
  | .go _ => inferInstanceAs (Decidable True)
  | .remove _ _ _ => inferInstanceAs (Decidable False)
  | .rbegin => inferInstanceAs (Decidable False)
  | .look => inferInstanceAs (Decidable False)

/-- Nobody removes and nobody scans. -/
structure OnlyPushes (s : Crowd ι) : Prop where
  place : ∀ i, (s.place i).pushing = true
  phase : ∀ c j, s.phase c j = .new ∨ s.phase c j = .live
  scan : s.scan = .waiting

omit [DecidableEq ι] in
/-- An operation of a push. -/
theorem OnlyPushes.trans (h : s.OnlyPushes) {i : ι} {q p : Place} {r : Crowd ι} (hq : q.pushing = true)
    (ht : s.trans T i q = some (r, p)) :
    p.pushing = true ∧ (∀ c j, r.phase c j = .new ∨ r.phase c j = .live) ∧ r.scan = s.scan := by
  cases q with
  | acquire c j a =>
      simp only [Crowd.trans] at ht
      split at ht
      · obtain ⟨rfl, rfl⟩ := Prod.mk.inj (Option.some.inj ht)
        exact ⟨rfl, h.phase, rfl⟩
      · obtain ⟨rfl, rfl⟩ := Prod.mk.inj (Option.some.inj ht)
        refine ⟨rfl, fun c' j' => ?_, rfl⟩
        show update₂ s.phase c j .live c' j' = .new ∨ update₂ s.phase c j .live c' j' = .live
        rcases eq_or_ne (c', j') (c, j) with e | hne
        · obtain ⟨rfl, rfl⟩ := Prod.mk.inj e
          rw [update₂_self]
          exact .inr rfl
        · rw [update₂_of_ne hne]
          exact h.phase c' j'
      · cases ht
  | loadHead =>
      simp only [Crowd.trans] at ht
      split at ht
      · obtain ⟨rfl, rfl⟩ := Prod.mk.inj (Option.some.inj ht)
        exact ⟨rfl, h.phase, rfl⟩
      · obtain ⟨rfl, rfl⟩ := Prod.mk.inj (Option.some.inj ht)
        exact ⟨rfl, h.phase, rfl⟩
  | loadNext c =>
      obtain ⟨rfl, rfl⟩ := Prod.mk.inj (Option.some.inj ht)
      refine ⟨?_, h.phase, rfl⟩
      split <;> rfl
  | fetchAdd c =>
      obtain ⟨rfl, rfl⟩ := Prod.mk.inj (Option.some.inj ht)
      refine ⟨?_, h.phase, rfl⟩
      split
      · rfl
      · split <;> rfl
  | casHead n old | casFirst n =>
      simp only [Crowd.trans] at ht
      split at ht
      · obtain ⟨rfl, rfl⟩ := Prod.mk.inj (Option.some.inj ht)
        exact ⟨rfl, h.phase, rfl⟩
      · obtain ⟨rfl, rfl⟩ := Prod.mk.inj (Option.some.inj ht)
        exact ⟨rfl, h.phase, rfl⟩
  | idle => cases ht
  | publish c j | allocate | loadOld n | storePrev n old | allocateFirst =>
      obtain ⟨rfl, rfl⟩ := Prod.mk.inj (Option.some.inj ht)
      exact ⟨rfl, h.phase, rfl⟩
  | _ => cases hq

theorem OnlyPushes.update (h : s.OnlyPushes) {i : ι} {p : Place} (hp : p.pushing = true)
    (hplace : s'.place = update s.place i p) (k : ι) : (s'.place k).pushing = true := by
  rw [place_update hplace]
  split
  · exact hp
  · exact h.place k

theorem OnlyPushes.step (h : s.OnlyPushes) {a : CrowdAction ι} (ha : s.Pushing a)
    (hs : s.step T a = some s') : s.Careful a ∧ s'.OnlyPushes := by
  cases a with
  | push i =>
      rw [Crowd.step] at hs
      split_ifs at hs
      obtain rfl := Option.some.inj hs
      exact ⟨trivial, h.update (p := .loadHead) rfl rfl, h.phase, h.scan⟩
  | drop c j =>
      rw [Crowd.step] at hs
      split_ifs at hs
      obtain rfl := Option.some.inj hs
      exact ⟨trivial, h.place, h.phase, h.scan⟩
  | go i =>
      rw [Crowd.step] at hs
      obtain ⟨⟨r, p⟩, ht, rfl⟩ := Option.map_eq_some_iff.mp hs
      obtain ⟨hp, hphase, hscan⟩ := h.trans (h.place i) ht
      refine ⟨?_, h.update hp rfl, hphase, hscan.trans h.scan⟩
      have hpush := h.place i
      show s.CarefulAt (s.place i)
      cases hi : s.place i with
      | loadNeighbour c j =>
          rw [hi] at hpush
          cases hpush
      | _ => trivial
  | remove i c j | rbegin | look => exact ha.elim

theorem onlyPushes_of_reaches (h : Reaches (Crowd.step T) Pushing (Crowd.initial ι) s) :
    s.OnlyPushes ∧ ∃ l, s.Inv T l := by
  refine h.invariant (I := fun s : Crowd ι => s.OnlyPushes ∧ ∃ l, s.Inv T l)
    ⟨⟨fun _ => rfl, fun _ _ => .inl rfl, rfl⟩, [], Inv.initial T ι⟩ ?_
  rintro s a s' ⟨hpush, l, hi⟩ ha hs
  obtain ⟨hcare, hpush'⟩ := hpush.step ha hs
  exact ⟨hpush', hi.step_inv hcare hs⟩

/-! ### The chunks -/

omit [DecidableEq ι] in
/-- Without removals no chunk is deleted. -/
theorem OnlyPushes.not_deleted (h : s.OnlyPushes) (hi : s.Inv T l) (hT : 1 ≤ T) (c : Nat) :
    s.deleted c ≠ true := by
  intro hd
  have hp : s.phase c 0 = .freed := hi.slots.deleted c hd 0 hT
  rcases h.phase c 0 with e | e
  · rw [e] at hp
    cases hp
  · rw [e] at hp
    cases hp

omit [DecidableEq ι] in
/-- The pointer of a chunk leads to the one that was linked before it. -/
theorem OnlyPushes.prev_eq (h : s.OnlyPushes) (hi : s.Inv T l) (hT : 1 ≤ T) {c p : Nat} (hc : c ∈ l)
    (hp : (s.chunks.chunk c).prev = some p) : p ∈ l ∧ p < c ∧ ∀ b ∈ l, p < b → ¬ b < c := by
  have hback := hi.chain.prev c hc
  rw [hp] at hback
  obtain ⟨hpl, hpc, hbetween⟩ := hback
  exact ⟨hpl, hpc, fun b hb hpb hbc => h.not_deleted hi hT b (hbetween b hb hpb hbc)⟩

omit [DecidableEq ι] in
/-- The oldest chunk is the only one without a pointer. -/
theorem OnlyPushes.prev_eq_none (h : s.OnlyPushes) (hi : s.Inv T l) (hT : 1 ≤ T) {c : Nat} (hc : c ∈ l)
    (hp : (s.chunks.chunk c).prev = none) : ∀ b ∈ l, ¬ b < c := by
  have hback := hi.chain.prev c hc
  rw [hp] at hback
  exact fun b hb hbc => h.not_deleted hi hT b (hback b hb hbc)

omit [DecidableEq ι] in
theorem OnlyPushes.mem_of_linked (h : s.OnlyPushes) (hi : s.Inv T l) (hT : 1 ≤ T) {c : Nat}
    (hc : s.chunks.Linked c) : c ∈ l := by
  induction hc with
  | head hhead =>
      rw [hi.chain.head] at hhead
      exact List.mem_of_head? hhead
  | prev _ hp ih => exact (h.prev_eq hi hT ih hp).1

omit [DecidableEq ι] in
/-- Behind a chunk that is not the head there is exactly one other. -/
theorem OnlyPushes.follower (h : s.OnlyPushes) (hi : s.Inv T l) (hT : 1 ≤ T) {c : Nat} (hc : c ∈ l)
    (hhead : s.chunks.head ≠ some c) :
    ∃ n ∈ l, (s.chunks.chunk n).prev = some c ∧ ∀ b ∈ l, c < b → n ≤ b := by
  have hsome : ∃ a, s.chunks.head = some a := by
    cases hl : l with
    | nil =>
        rw [hl] at hc
        cases hc
    | cons a _ =>
        refine ⟨a, ?_⟩
        rw [hi.chain.head, hl]
        rfl
  obtain ⟨a, ha⟩ := hsome
  have hal : a ∈ l := by
    have := hi.chain.head
    rw [ha] at this
    exact List.mem_of_head? this.symm
  have hca : c < a := by
    refine lt_of_le_of_ne (hi.le_head ha hc) ?_
    rintro rfl
    exact hhead ha
  -- the smallest of the newer chunks
  obtain ⟨n, ⟨hn, hcn⟩, hmin⟩ : ∃ n, (n ∈ l ∧ c < n) ∧ ∀ b, b ∈ l ∧ c < b → n ≤ b :=
    have hex : ∃ n, n ∈ l ∧ c < n := ⟨a, hal, hca⟩
    ⟨Nat.find hex, Nat.find_spec hex, fun b hb => Nat.find_min' hex hb⟩
  refine ⟨n, hn, ?_, fun b hb hcb => hmin b ⟨hb, hcb⟩⟩
  cases hp : (s.chunks.chunk n).prev with
  | none => exact absurd hcn (h.prev_eq_none hi hT hn hp c hc)
  | some p =>
      obtain ⟨hpl, hpn, hbetween⟩ := h.prev_eq hi hT hn hp
      congr
      rcases Nat.lt_trichotomy p c with hlt | rfl | hlt
      · exact absurd hcn (hbetween c hc hlt)
      · rfl
      · have := hmin p ⟨hpl, hlt⟩
        omega

omit [DecidableEq ι] in
theorem OnlyPushes.linked_of_mem (h : s.OnlyPushes) (hi : s.Inv T l) (hT : 1 ≤ T) {c : Nat}
    (hc : c ∈ l) : s.chunks.Linked c := by
  -- induction on the number of newer chunks below the bound `fresh`
  induction hk : s.chunks.fresh - c using Nat.strong_induction_on generalizing c with
  | _ k ih =>
      by_cases hhead : s.chunks.head = some c
      · exact .head hhead
      · obtain ⟨n, hn, hp, -⟩ := h.follower hi hT hc hhead
        have hcn := (h.prev_eq hi hT hn hp).2.1
        have hlt := hi.chain.known n hn
        exact .prev (ih _ (by omega) hn rfl) hp

omit [DecidableEq ι] in
/-- An overflowed chunk has one thread that appends the next one, or is followed by
one chunk. -/
theorem OnlyPushes.appended (h : s.OnlyPushes) (hi : s.Inv T l) (hT : 1 ≤ T) {c : Nat}
    (hc : s.chunks.Linked c) (hover : T < s.next c) :
    (s.chunks.head = some c → ∃! i, (s.place i).appending = true) ∧
      (s.chunks.head ≠ some c → ∃! n, s.chunks.Linked n ∧ (s.chunks.chunk n).prev = some c) := by
  have hcl := h.mem_of_linked hi hT hc
  have htoken : ∀ p : Place, p.appending = true ↔ .append ∈ p.tokens := by
    intro p
    cases p <;> simp [Place.appending, Place.tokens]
  refine ⟨fun hhead => ?_, fun hhead => ?_⟩
  · obtain ⟨i, happ⟩ := hi.threads.appended c hhead hover
    refine ⟨i, (htoken _).mpr happ, fun k hk => ?_⟩
    exact hi.threads.unique k i .append ((htoken _).mp hk) happ
  · obtain ⟨n, hn, hp, hmin⟩ := h.follower hi hT hcl hhead
    refine ⟨n, ⟨h.linked_of_mem hi hT hn, hp⟩, ?_⟩
    rintro b ⟨hb, hbp⟩
    have hbl := h.mem_of_linked hi hT hb
    obtain ⟨-, hcb, hbetween⟩ := h.prev_eq hi hT hbl hbp
    have hnb := hmin b hbl hcb
    have hcn := (h.prev_eq hi hT hn hp).2.1
    have := hbetween n hn hcn
    omega

/-! ### When all pushes have returned -/

section Quiet

variable (h : s.OnlyPushes) (hi : s.Inv T l) (hT : 1 ≤ T) (hidle : ∀ i, s.place i = .idle)

omit [DecidableEq ι]

include hi hidle in
/-- The head has a slot that is reserved, and it is not overflowed. -/
theorem quiet_head {c : Nat} (hc : s.chunks.head = some c) : 1 ≤ s.next c ∧ s.next c ≤ T := by
  refine ⟨Nat.pos_of_ne_zero fun hz => ?_, not_lt.mp fun hlt => ?_⟩
  · obtain ⟨i, hs⟩ := hi.threads.searched c hc hz
    rw [hidle i] at hs
    cases hs
  · obtain ⟨i, ha⟩ := hi.threads.appended c hc hlt
    rw [hidle i] at ha
    cases ha

include hi hidle in
/-- Every slot that is reserved has its element. -/
theorem quiet_value {c j : Nat} (hc : c ∈ l) (hj : j < T) (hlt : j < s.next c) :
    (s.slot c j).value ≠ none := by
  intro hnone
  obtain ⟨i, hp⟩ := hi.threads.unwritten c hc j hj hlt hnone
  rw [hidle i] at hp
  cases hp

/-- The number of slots that are reserved. -/
def total (T : Nat) (s : Crowd ι) (l : List Nat) : Nat :=
  if l.length = 0 then 0 else (l.length - 1) * T + s.next (chainOf l s.chunks.fresh (l.length - 1))

include hi hT hidle in
/-- The `k`-th slot has an element if and only if `k` is less than the number of
reserved slots. -/
theorem quiet_value_iff (k : Nat) :
    (s.slot (chainOf l s.chunks.fresh (k / T)) (k % T)).value ≠ none ↔ k < total T s l := by
  have hk := Nat.div_add_mod' k T
  have hmod := Nat.mod_lt k hT
  rcases Nat.eq_zero_or_pos l.length with hm | hm
  · refine ⟨fun hv => ?_, fun hlt => ?_⟩
    · have hc := (hi.slots.reserved _ _ hv).1
      rw [List.length_eq_zero_iff.mp hm] at hc
      cases hc
    · rw [total, if_pos hm] at hlt
      omega
  · have hhead : s.chunks.head = some (chainOf l s.chunks.fresh (l.length - 1)) := by
      rw [hi.chain.head, head?_eq_chainOf l s.chunks.fresh, if_neg (by omega)]
    obtain ⟨hpos, hle⟩ := quiet_head hi hidle hhead
    rw [total, if_neg (by omega)]
    rcases Nat.lt_trichotomy (k / T) (l.length - 1) with hlt | heq | hgt
    · -- a chunk that is not the head has all its slots reserved
      have hmem := chainOf_mem s.chunks.fresh (show k / T < l.length by omega)
      have hne : s.chunks.head ≠ some (chainOf l s.chunks.fresh (k / T)) := by
        rw [hhead]
        intro e
        have := (chainOf_strictMono hi.chain.sorted hi.chain.known).injective (Option.some.inj e)
        omega
      have hover := hi.chain.full _ hmem hne
      have hmul : (k / T + 1) * T ≤ (l.length - 1) * T := Nat.mul_le_mul_right T hlt
      rw [Nat.succ_mul] at hmul
      refine ⟨fun _ => by omega, fun _ => quiet_value hi hidle hmem hmod (hmod.trans hover)⟩
    · have hmem := chainOf_mem s.chunks.fresh (show k / T < l.length by omega)
      rw [heq] at hk hmem ⊢
      refine ⟨fun hv => ?_, fun hlt => quiet_value hi hidle hmem hmod (by omega)⟩
      have := (hi.slots.reserved _ _ hv).2.2
      omega
    · refine ⟨fun hv => ?_, fun hlt => ?_⟩
      · have := hi.chain.known _ (hi.slots.reserved _ _ hv).1
        rw [chainOf_of_le (by omega)] at this
        omega
      · have hmul : (l.length - 1 + 1) * T ≤ k / T * T := Nat.mul_le_mul_right T hgt
        rw [Nat.succ_mul] at hmul
        omega

include h hi hT hidle in
/-- **The chunks are a state of the sequential model.** -/
theorem quiet_holds {f : Fin (total T s l) → ι × Nat}
    (hf : ∀ k : Fin (total T s l),
      (s.slot (chainOf l s.chunks.fresh (k.val / T)) (k.val % T)).value = some (f k)) :
    Holds T (chainOf l s.chunks.fresh) l.length s.chunks (List.ofFn fun k => (f k, false))
      (fun k => (s.kept (chainOf l s.chunks.fresh (k / T)) (k % T)).toNat) := by
  have hgone : ∀ k, gone (List.ofFn fun k => (f k, false)) k = false := by
    intro k
    rcases Nat.lt_or_ge k (total T s l) with hk | hk
    · simp [gone, hk]
    · simp [gone, hk]
  have hdead : ∀ a, ¬ Dead T (List.ofFn fun k => (f k, false)) a := by
    intro a hd
    have := hd 0 hT
    rw [hgone] at this
    cases this
  have hmono := chainOf_strictMono hi.chain.sorted hi.chain.known
  have hhead : s.chunks.head =
      if l.length = 0 then none else some (chainOf l s.chunks.fresh (l.length - 1)) := by
    rw [hi.chain.head, head?_eq_chainOf l s.chunks.fresh]
  have hblank : ∀ k, total T s l ≤ k →
      s.slot (chainOf l s.chunks.fresh (k / T)) (k % T) = ⟨none, Item.init, .new, false, 0⟩ := by
    intro k hk
    have hok := hi.slots.ok (chainOf l s.chunks.fresh (k / T)) (k % T)
    rw [h.scan] at hok
    refine hok.eq_init ?_
    by_contra hv
    exact absurd ((quiet_value_iff hi hT hidle k).mp hv) (not_lt.mpr hk)
  have hslot : ∀ k, k < total T s l →
      (s.chunks.item (chainOf l s.chunks.fresh (k / T)) (k % T)).iterOffset = 0 ∧
      (s.chunks.item (chainOf l s.chunks.fresh (k / T)) (k % T)).refcount =
        (s.kept (chainOf l s.chunks.fresh (k / T)) (k % T)).toNat := by
    intro k hk
    have hok := hi.slots.ok (chainOf l s.chunks.fresh (k / T)) (k % T)
    have hv := (quiet_value_iff hi hT hidle k).mpr hk
    have hphase := h.phase (chainOf l s.chunks.fresh (k / T)) (k % T)
    refine ⟨hok.present hv hphase, ?_⟩
    have hcount := hok.count
    have hdropped : (s.phase (chainOf l s.chunks.fresh (k / T)) (k % T)).dropped = 0 := by
      rcases hphase with e | e
      · rw [e]
        rfl
      · rw [e]
        rfl
    rw [h.scan, show (s.slot _ _).phase.dropped = 0 from hdropped] at hcount
    have hkept : (s.slot (chainOf l s.chunks.fresh (k / T)) (k % T)).item.refcount =
        (s.slot (chainOf l s.chunks.fresh (k / T)) (k % T)).kept.toNat := by
      simpa [Scan.ref] using hcount
    exact hkept
  -- no push is under way, so the newest chunk has an element and is not overflowed
  have hpos : ∀ a, a + 1 = l.length → 1 ≤ s.next (chainOf l s.chunks.fresh a) ∧
      s.next (chainOf l s.chunks.fresh a) ≤ T ∧
      total T s l = a * T + s.next (chainOf l s.chunks.fresh a) := by
    intro a ha
    obtain rfl : a = l.length - 1 := by omega
    rw [if_neg (by omega)] at hhead
    obtain ⟨hone, hle⟩ := quiet_head hi hidle hhead
    exact ⟨hone, hle, by rw [total, if_neg (by omega)]⟩
  exact {
    mono := hmono
    fresh := by
      intro a
      rw [chainOf_of_le (Nat.le_add_right _ _)]
      omega
    head := hhead
    upper := by
      rw [List.length_ofFn]
      rcases Nat.eq_zero_or_pos l.length with hm | hm
      · rw [total, if_pos hm]
        exact Nat.zero_le _
      · obtain ⟨-, hle, htot⟩ := hpos (l.length - 1) (by omega)
        have hmul : (l.length - 1 + 1) * T = (l.length - 1) * T + T := Nat.succ_mul _ _
        rw [Nat.sub_add_cancel hm] at hmul
        omega
    lower := by
      rw [List.length_ofFn]
      rcases Nat.eq_zero_or_pos l.length with hm | hm
      · rw [hm]
        simp
      · obtain ⟨-, -, htot⟩ := hpos (l.length - 1) (by omega)
        omega
    full := by
      intro a ha
      refine (hi.chain.full _ (chainOf_mem _ (by omega)) ?_).le
      rw [hhead, if_neg (by omega)]
      intro e
      have := hmono.injective (Option.some.inj e)
      omega
    last := by
      intro a ha
      rw [List.length_ofFn, (hpos a ha).2.2]
      show s.next (chainOf l s.chunks.fresh a) = _
      omega
    value := by
      intro k hk
      rw [List.length_ofFn] at hk
      rw [List.getElem?_ofFn, dif_pos hk]
      exact hf ⟨k, hk⟩
    count := by
      intro k hk
      rw [List.length_ofFn] at hk
      rw [hgone, (hslot k hk).2]
      simp
    offset := by
      intro k hk
      rw [List.length_ofFn] at hk
      exact .inl ⟨(hslot k hk).1, hgone k⟩
    room := by
      intro k hk _
      rw [List.length_ofFn] at hk
      exact congrArg Slot.item (hblank k hk)
    unused := by
      intro k hk
      rw [List.length_ofFn] at hk
      rw [show s.kept _ _ = false from congrArg Slot.kept (hblank k hk)]
      rfl
    freed := by
      intro a ha
      rw [hi.slots.freed]
      refine List.countP_congr fun j _ => ?_
      rw [hgone]
      rcases h.phase (chainOf l s.chunks.fresh a) j with e | e
      · simp [Crowd.slot, e]
      · simp [Crowd.slot, e]
    deleted := by
      intro a ha
      exact ⟨fun hd => absurd hd (h.not_deleted hi hT _), fun hd => absurd hd (hdead a)⟩
    prev := by
      intro a ha
      have hmem := chainOf_mem s.chunks.fresh ha
      cases hp : (s.chunks.chunk (chainOf l s.chunks.fresh a)).prev with
      | none =>
          intro b hb
          exact absurd (hmono hb)
            (h.prev_eq_none hi hT hmem hp _ (chainOf_mem _ (hb.trans ha)))
      | some p =>
          obtain ⟨hpl, hpa, hbetween⟩ := h.prev_eq hi hT hmem hp
          obtain ⟨b, -, rfl⟩ := exists_chainOf s.chunks.fresh hpl
          refine ⟨b, hmono.lt_iff_lt.mp hpa, rfl, fun c hbc hca => ?_⟩
          exact absurd (hmono hca) (hbetween _ (chainOf_mem _ (hca.trans ha)) (hmono hbc)) }

include hi hT hidle in
/-- Every element is in one of the slots that are counted. -/
theorem quiet_index {c j : Nat} (hv : (s.slot c j).value ≠ none) :
    ∃ k < total T s l, chainOf l s.chunks.fresh (k / T) = c ∧ k % T = j := by
  obtain ⟨hc, hj, -⟩ := hi.slots.reserved c j hv
  obtain ⟨a, -, rfl⟩ := exists_chainOf s.chunks.fresh hc
  have hdiv : (a * T + j) / T = a := by
    rw [Nat.mul_comm, Nat.mul_add_div hT, Nat.div_eq_of_lt hj, Nat.add_zero]
  have hmod : (a * T + j) % T = j := by
    rw [Nat.mul_comm, Nat.mul_add_mod, Nat.mod_eq_of_lt hj]
  refine ⟨a * T + j, (quiet_value_iff hi hT hidle _).mp ?_, by rw [hdiv], hmod⟩
  rw [hdiv, hmod]
  exact hv

include hi in
/-- The slots are counted in their order. -/
theorem before_of_lt {k k' : Nat} (hlt : k < k') :
    Before (chainOf l s.chunks.fresh (k / T)) (k % T) (chainOf l s.chunks.fresh (k' / T)) (k' % T) := by
  have hk := Nat.div_add_mod' k T
  have hk' := Nat.div_add_mod' k' T
  rcases Nat.eq_or_lt_of_le (Nat.div_le_div_right (c := T) hlt.le) with e | hdiv
  · rw [e] at hk ⊢
    exact .inr ⟨rfl, by omega⟩
  · exact .inl (chainOf_strictMono hi.chain.sorted hi.chain.known hdiv)

end Quiet

/-- Two increasing lists with the same members are the same. -/
theorem eq_range_of_increasing {xs : List Nat} {n : Nat} (hxs : xs.Pairwise (· < ·))
    (hmem : ∀ k, k ∈ xs ↔ k < n) : xs = List.range n := by
  have hanti : ∀ a b : Nat, a ∈ xs → b ∈ List.range n → a < b → b < a → a = b := by
    intro a b _ _ hab hba
    omega
  refine List.Perm.eq_of_pairwise hanti hxs List.pairwise_lt_range ?_
  refine (List.perm_ext_iff_of_nodup (hxs.imp fun h => Nat.ne_of_lt h) List.nodup_range).mpr ?_
  intro k
  rw [hmem, List.mem_range]

/-- The elements of thread `i` in the order of the slots. -/
theorem quiet_order (hi : s.Inv T l) (hT : 1 ≤ T) (hidle : ∀ i, s.place i = .idle)
    {f : Fin (total T s l) → ι × Nat} (hf : ∀ k : Fin (total T s l),
      (s.slot (chainOf l s.chunks.fresh (k.val / T)) (k.val % T)).value = some (f k)) (i : ι) :
    ((List.ofFn f).filter fun e => e.1 = i).map Prod.snd = List.range (s.calls i) := by
  have hunpub : (s.place i).unpublished = 0 := by
    rw [hidle i]
    rfl
  refine eq_range_of_increasing ?_ fun k => ?_
  · rw [List.pairwise_map]
    refine List.Pairwise.imp_of_mem (R := fun e e' => e.1 = i → e'.1 = i → e.2 < e'.2) ?_
      (List.Pairwise.filter _ ?_)
    · intro e e' he he' hlt
      exact hlt (by simpa using (List.mem_filter.mp he).2) (by simpa using (List.mem_filter.mp he').2)
    · rw [List.pairwise_ofFn]
      intro a b hab he he'
      refine hi.elements.order (i := i) ?_ ?_ (before_of_lt hi hab)
      · rw [hf a, ← he]
      · rw [hf b, ← he']
  · rw [List.mem_map]
    constructor
    · rintro ⟨e, he, rfl⟩
      obtain ⟨he, hei⟩ := List.mem_filter.mp he
      obtain ⟨a, rfl⟩ := (List.mem_ofFn' f _).mp he
      have hei' : (f a).1 = i := by simpa using hei
      have hv := hf a
      rw [show f a = (i, (f a).2) from by rw [← hei']] at hv
      have := hi.elements.bounded hv
      omega
    · intro hk
      obtain ⟨c, j, hv⟩ := hi.elements.complete i k (by omega)
      obtain ⟨a, ha, rfl, rfl⟩ := quiet_index hi hT hidle (c := c) (j := j) (by rw [hv]; simp)
      have hfa : f ⟨a, ha⟩ = (i, k) := by
        have := hf ⟨a, ha⟩
        rw [hv] at this
        exact (Option.some.inj this).symm
      refine ⟨(i, k), List.mem_filter.mpr ⟨(List.mem_ofFn' f _).mpr ⟨⟨a, ha⟩, hfa⟩, by simp⟩, rfl⟩

/-- **Concurrent pushes neither lose nor duplicate.**  In every state that any number
of pushing threads reach, no slot is written twice, every linked chunk but the head
is overflowed, and an overflowed chunk has exactly one thread that appends a chunk or
exactly one chunk behind it.  When all pushes have returned, a backward scan yields
the elements of each thread in the reverse order of its pushes. -/
theorem concurrent_pushes (hT : 1 ≤ T) (h : Reaches (Crowd.step T) Pushing (Crowd.initial ι) s) :
    (∀ c j, s.writes c j ≤ 1) ∧
      (∀ c, s.chunks.Linked c → s.chunks.head ≠ some c → T < (s.chunks.chunk c).nextItem) ∧
      (∀ c, s.chunks.Linked c → T < (s.chunks.chunk c).nextItem →
        (s.chunks.head = some c → ∃! i, (s.place i).appending = true) ∧
        (s.chunks.head ≠ some c → ∃! n, s.chunks.Linked n ∧ (s.chunks.chunk n).prev = some c)) ∧
      ((∀ i, s.place i = .idle) → ∃ ch vs, s.chunks.scan T = .ok (ch, vs) ∧
        ∀ i, (vs.filter fun e => e.1 = i).map Prod.snd = (List.range (s.calls i)).reverse) := by
  obtain ⟨hpush, l, hi⟩ := onlyPushes_of_reaches h
  refine ⟨fun c j => ?_, fun c hc hhead => ?_, fun c hc hover => hpush.appended hi hT hc hover,
    fun hidle => ?_⟩
  · have hok := hi.slots.ok c j
    by_cases hv : (s.slot c j).value = none
    · exact (hok.blank hv).2.2.2.1.le.trans (Nat.zero_le 1)
    · exact (hok.written hv).le
  · exact hi.chain.full c (hpush.mem_of_linked hi hT hc) hhead
  · have hsome : ∀ k : Fin (total T s l), ∃ v,
        (s.slot (chainOf l s.chunks.fresh (k.val / T)) (k.val % T)).value = some v :=
      fun k => Option.ne_none_iff_exists'.mp ((quiet_value_iff hi hT hidle k.val).mpr k.isLt)
    choose f hf using hsome
    have hholds := quiet_holds hpush hi hT hidle hf
    have htight : 0 < l.length →
        (l.length - 1) * T < (List.ofFn fun k => (f k, false)).length := by
      intro hm
      have hhead : s.chunks.head = some (chainOf l s.chunks.fresh (l.length - 1)) := by
        rw [hi.chain.head, head?_eq_chainOf l s.chunks.fresh, if_neg (by omega)]
      have := (quiet_head hi hidle hhead).1
      rw [List.length_ofFn, total, if_neg (by omega)]
      omega
    have hroom : ∀ k, (s.kept (chainOf l s.chunks.fresh (k / T)) (k % T)).toNat < 32767 := by
      intro k
      have := Bool.toNat_le (s.kept (chainOf l s.chunks.fresh (k / T)) (k % T))
      omega
    obtain ⟨ch, hscan, -⟩ := hholds.scan_spec hT htight hroom
    refine ⟨ch, _, hscan, fun i => ?_⟩
    have hall : older (List.ofFn fun k => (f k, false)) (List.ofFn fun k => (f k, false)).length =
        (List.ofFn f).reverse := by
      rw [older, List.take_length, List.filter_eq_self.mpr, List.map_ofFn]
      · rfl
      · intro e he
        obtain ⟨k, rfl⟩ := (List.mem_ofFn' _ _).mp he
        rfl
    rw [hall, List.filter_reverse, List.map_reverse, quiet_order hi hT hidle hf i]

/-- Two threads race for the first chunk, and both push twice into chunks of one
slot. -/
theorem concurrent_pushes_race :
    ∃ s : Crowd (Fin 2), Reaches (Crowd.step 1) Pushing (Crowd.initial (Fin 2)) s ∧
      (∀ i, s.place i = .idle) ∧ s.calls 0 = 2 ∧ ∃ ch vs, s.chunks.scan 1 = .ok (ch, vs) ∧
        (vs.filter fun e => e.1 = 0).map Prod.snd = [1, 0] := by
  have hrun : (exec (Crowd.step 1) Pushing
      (List.flatten [[.push 0, .push 1, .go 0, .go 1, .go 0, .go 1, .go 0, .go 1],
        List.replicate 8 (.go 0), List.replicate 15 (.go 1), [.push 0], List.replicate 15 (.go 0)])
      (Crowd.initial (Fin 2))).map (fun s => (s.place 0, s.place 1, s.calls 0)) =
        some (.idle, .idle, 2) := by
    decide +kernel
  obtain ⟨s, hs, hp⟩ := Option.map_eq_some_iff.mp hrun
  obtain ⟨h0, hp⟩ := Prod.mk.inj hp
  obtain ⟨h1, hcalls⟩ := Prod.mk.inj hp
  have hreach := Reaches.refl.of_exec hs
  have hidle : ∀ i, s.place i = .idle := by
    intro i
    match i with
    | 0 => exact h0
    | 1 => exact h1
  obtain ⟨ch, vs, hscan, horder⟩ := (concurrent_pushes le_rfl hreach).2.2.2 hidle
  refine ⟨s, hreach, hidle, hcalls, ch, vs, hscan, ?_⟩
  rw [horder 0, hcalls]
  rfl

end Crowd

end RedGrapes.ChunkedList
