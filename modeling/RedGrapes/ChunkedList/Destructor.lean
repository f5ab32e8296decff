/-
RedGrapes/ChunkedList/Destructor.lean

What `~Chunk` does to the slots of a chunk when the last pointer to it has gone.

The destructor goes from `first_item` to `next_item` and runs `~Item`, which is
`release<false>`: the value is destroyed if the count is zero then.  After any pushes and
removals the count of a slot without users is zero if its element is still in the list and -1 if
it was removed and destroyed (`Slot.Booked`), so the values that are left are destroyed, each
once.  But `next_item` is also incremented by every push that finds the chunk full.  Other than
`get_last_item`, which clamps it, the destructor then goes on behind the last slot.

* `destroys_own_iff`: the destructor is right if and only if the chunk has not been overflowed.

The counts do not depend on the distances that `remove` writes, so the runs are not restricted
as for `Inv`; but nobody scans.
-/
import RedGrapes.ChunkedList.Append

namespace RedGrapes.ChunkedList

open Function Machine

/-! ### The destructor -/

namespace Chunk

variable {V : Type} {b : Chunk V}

/-- The slots that the loop of `~Chunk` visits. -/
def visits (b : Chunk V) : List Nat := List.range b.nextItem

/-- `~Chunk`. -/
def destroy (b : Chunk V) : Chunk V := b.visits.foldl (fun b j => b.setItem j (b.item j).release) b

/-- Each slot that is visited is released. -/
theorem item_destroy (b : Chunk V) (j : Nat) :
    b.destroy.item j = if j < b.nextItem then (b.item j).release else b.item j := by
  have hloop : ∀ n, ((List.range n).foldl (fun b j => b.setItem j (b.item j).release) b).item j =
      if j < n then (b.item j).release else b.item j := by
    intro n
    -- a slot is released in its own round, and no other round touches it
    induction n with
    | zero => rfl
    | succ n ih =>
      rw [List.range_succ, List.foldl_append]
      by_cases hj : j = n
      · subst hj
        rw [if_neg (lt_irrefl j)] at ih
        rw [if_pos (Nat.lt_succ_self j), ← ih]
        exact update_self ..
      · have hlt : j < n + 1 ↔ j < n := by omega
        rw [if_congr hlt rfl rfl, ← ih]
        exact update_of_ne hj ..
  exact hloop b.nextItem

/-- The destructor touches the slots of the chunk only, visits those that have an element, and
destroys exactly the elements that are left. -/
structure DestroysOwn (T : Nat) (b : Chunk V) : Prop where
  inside : ∀ j ∈ b.visits, j < T
  all : ∀ j, b.value j ≠ none → j ∈ b.visits
  exact : ∀ j, (b.destroy.item j).destroyed = (b.item j).destroyed +
    if (b.value j).isSome = true ∧ (b.item j).destroyed = 0 then 1 else 0

end Chunk

/-! ### Slots and their users -/

/-- What holds of a slot when nobody scans: its count is that of the push that has a reference,
less that of the list once `remove` has given it up; and the value is destroyed below zero. -/
structure Slot.Booked {ι : Type} (d : Slot ι) : Prop where
  blank : d.value = none → d.item.iterOffset = 1 ∧ d.phase = .new ∧ d.kept = false
  present : d.value ≠ none → d.phase = .new → d.item.iterOffset = 0
  count : d.item.refcount = d.kept.toNat - d.phase.dropped
  destroyed : d.item.destroyed = if d.item.refcount < 0 then 1 else 0

/-- Whether the place has a pointer to the chunk `c`. -/
def Place.holds (c : Nat) : Place → Prop
  | .loadNext b | .fetchAdd b | .publish b _ | .acquire b _ _ | .loadOld b | .casFirst b => b = c
  | .loadNeighbour b _ | .storeOffset b _ _ | .release b _ | .freed b _ | .flag b => b = c
  | .storePrev b old | .casHead b old => b = c ∨ old = some c
  | .idle | .loadHead | .allocate | .allocateFirst => False

/-- A place without tokens deals with no slot. -/
theorem Place.no_slot {q : Place} (h : q.tokens = []) (c j : Nat) : .slot c j ∉ q.tokens := by
  rw [h]
  exact List.not_mem_nil

/-- A place deals with one slot at most. -/
theorem Place.slot_unique {q : Place} {c j c' j' : Nat} (h : .slot c j ∈ q.tokens)
    (h' : .slot c' j' ∈ q.tokens) : (c', j') = (c, j) := by
  cases q <;> simp only [tokens, List.mem_cons, List.not_mem_nil, or_false, Token.slot.injEq,
    reduceCtorEq] at h h'
  all_goals rw [h.1, h.2, h'.1, h'.2]

namespace Crowd

variable {ι : Type}

/-- Nobody has a pointer to the chunk, but perhaps the list. -/
def Unheld (s : Crowd ι) (c : Nat) : Prop :=
  (∀ i, ¬ (s.place i).holds c) ∧ ∀ j, s.kept c j = false

/-- The threads push and remove, and the iterators they get are dropped. -/
def Using (_ : Crowd ι) : CrowdAction ι → Prop
  | .rbegin => False
  | .look => False
  | _ => True

instance (s : Crowd ι) : ∀ a, Decidable (s.Using a)
  | .push _ => inferInstanceAs (Decidable True)
  | .remove _ _ _ => inferInstanceAs (Decidable True)
  | .drop _ _ => inferInstanceAs (Decidable True)
  | .go _ => inferInstanceAs (Decidable True)
  | .rbegin => inferInstanceAs (Decidable False)
  | .look => inferInstanceAs (Decidable False)

/-- What a thread relies on at a place. -/
def BookedAt (T : Nat) (s : Crowd ι) : Place → Prop
  | .loadNext c | .fetchAdd c | .loadOld c | .storePrev c _ | .casHead c _ | .casFirst c =>
      c < s.chunks.fresh
  | .publish c j => j < T ∧ j < s.next c ∧ (s.slot c j).value = none
  | .acquire c j a => (s.slot c j).value ≠ none ∧ (s.slot c j).phase = .new ∧
      (s.slot c j).kept = a.holds ∧ a.Safe
  | .loadNeighbour c j | .storeOffset c j _ | .release c j => (s.slot c j).value ≠ none ∧
      (s.slot c j).phase = .removing ∧ (s.slot c j).kept = true
  | .freed c j => (s.slot c j).value ≠ none ∧ (s.slot c j).phase = .released ∧
      (s.slot c j).kept = true
  | _ => True

/-- A slot that is reserved has its element, in the list or removed, or else a thread that deals
with it, and only one. -/
structure Booked (T : Nat) (s : Crowd ι) : Prop where
  head : ∀ c, s.chunks.head = some c → c < s.chunks.fresh
  unused : ∀ c, s.chunks.fresh ≤ c → s.next c = 0
  slots : ∀ c j, (s.slot c j).Booked
  reserved : ∀ c j, (s.slot c j).value ≠ none → j < T ∧ j < s.next c
  places : ∀ i, s.BookedAt T (s.place i)
  unique : ∀ i i' c j, .slot c j ∈ (s.place i).tokens → .slot c j ∈ (s.place i').tokens → i = i'
  owned : ∀ c j, j < T → j < s.next c →
    (s.slot c j).phase = .live ∨ (s.slot c j).phase = .freed ∨ ∃ i, .slot c j ∈ (s.place i).tokens

variable {T : Nat} {s s' : Crowd ι} {i : ι} {p q : Place} {c j : Nat}

/-- From `s` to `s'` chunks are allocated and slots reserved, and at most the slot `j₀` of chunk
`c₀` changes. -/
structure Touches (T : Nat) (s s' : Crowd ι) (c₀ j₀ : Nat) : Prop where
  head : ∀ c, s'.chunks.head = some c → c < s'.chunks.fresh
  fresh : s.chunks.fresh ≤ s'.chunks.fresh
  unused : ∀ c, s'.chunks.fresh ≤ c → s'.next c = 0
  next : ∀ c, s.next c ≤ s'.next c
  others : ∀ c j, (c, j) ≠ (c₀, j₀) → j < T → j < s'.next c → j < s.next c
  slot : ∀ c j, (c, j) ≠ (c₀, j₀) → s'.slot c j = s.slot c j

/-- What a thread relies on is kept by those who touch other slots. -/
theorem BookedAt.keep {c₀ j₀ : Nat} (h : s.BookedAt T p) (g : Touches T s s' c₀ j₀)
    (hp : .slot c₀ j₀ ∉ p.tokens) : s'.BookedAt T p := by
  have hslot : ∀ c j, .slot c j ∈ p.tokens → s'.slot c j = s.slot c j := by
    intro c j hmem
    apply g.slot
    rintro e
    obtain ⟨rfl, rfl⟩ := Prod.mk.inj e
    exact hp hmem
  cases p with
  | loadNext c | fetchAdd c | loadOld c | storePrev c old | casHead c old | casFirst c =>
    exact lt_of_lt_of_le h g.fresh
  | publish c j =>
    refine ⟨h.1, lt_of_lt_of_le h.2.1 (g.next c), ?_⟩
    rw [hslot c j (List.mem_singleton_self _)]
    exact h.2.2
  | acquire c j a | loadNeighbour c j | storeOffset c j off | release c j | freed c j =>
    rw [BookedAt, hslot c j (List.mem_singleton_self _)]
    exact h
  | idle | loadHead | allocate | allocateFirst | flag c => trivial

namespace Booked

/-- Whoever deals with a slot finds it reserved, and its element neither in the list nor gone. -/
theorem of_token (h : s.Booked T) {k : ι} (hk : .slot c j ∈ (s.place k).tokens) :
    (j < T ∧ j < s.next c) ∧ (s.slot c j).phase ≠ .live ∧ (s.slot c j).phase ≠ .freed := by
  have hp := h.places k
  cases hplace : s.place k with
  | publish c' j' =>
    rw [hplace] at hp hk
    obtain ⟨rfl, rfl⟩ : c = c' ∧ j = j' := by simpa [Place.tokens] using hk
    rw [((h.slots c j).blank hp.2.2).2.1]
    exact ⟨⟨hp.1, hp.2.1⟩, by decide, by decide⟩
  | acquire c' j' a | loadNeighbour c' j' | storeOffset c' j' off | release c' j' | freed c' j' =>
    rw [hplace] at hp hk
    obtain ⟨rfl, rfl⟩ : c = c' ∧ j = j' := by simpa [Place.tokens] using hk
    rw [hp.2.1]
    exact ⟨h.reserved c j hp.1, by decide, by decide⟩
  | _ =>
    rw [hplace] at hk
    simp [Place.tokens] at hk

variable {c₀ j₀ : Nat}

/-- The thread that deals with a slot is the only one. -/
theorem only (h : s.Booked T) (hi : .slot c j ∈ (s.place i).tokens) :
    ∀ k ≠ i, .slot c j ∉ (s.place k).tokens :=
  fun k hk hmem => hk (h.unique k i c j hmem hi)

/-- Nothing has happened to the slots of a chunk that is not allocated. -/
theorem unused_slot (h : s.Booked T) (hc : s.chunks.fresh ≤ c) (j : Nat) :
    (s.slot c j).value = none ∧ (s.slot c j).item = Item.init := by
  have hnone : (s.slot c j).value = none := by
    by_contra hv
    have hlt := (h.reserved c j hv).2
    rw [h.unused c hc] at hlt
    exact absurd hlt (Nat.not_lt_zero j)
  have hslot := h.slots c j
  obtain ⟨hoff, hnew, hkept⟩ := hslot.blank hnone
  have hcount := hslot.count
  have hdestroyed := hslot.destroyed
  rw [hnew, hkept] at hcount
  rw [hcount] at hdestroyed
  refine ⟨hnone, ?_⟩
  rw [show (s.slot c j).item = ⟨(s.slot c j).item.iterOffset, (s.slot c j).item.refcount,
    (s.slot c j).item.destroyed⟩ from rfl, hoff, hcount, hdestroyed]
  rfl

/-- Nothing changes in the links but the pointers and flags of the chunks. -/
theorem touches (h : s.Booked T) (hhead : s'.chunks.head = s.chunks.head)
    (hfresh : s'.chunks.fresh = s.chunks.fresh) (hnext : ∀ c, s'.next c = s.next c)
    (hslot : ∀ c j, (c, j) ≠ (c₀, j₀) → s'.slot c j = s.slot c j) : Touches T s s' c₀ j₀ where
  head := by
    rw [hhead, hfresh]
    exact h.head
  fresh := hfresh.ge
  unused := by
    intro c hc
    rw [hnext]
    exact h.unused c (hfresh ▸ hc)
  next := fun c => (hnext c).ge
  others := fun c j _ _ hlt => hnext c ▸ hlt
  slot := hslot

variable [DecidableEq ι]

/-- Thread `i` goes to the place `p` and changes at most the slot that it deals with. -/
theorem set (h : s.Booked T) (g : Touches T s s' c₀ j₀) (hi : s.place i = q)
    (hplace : s'.place = update s.place i p) (hok : (s'.slot c₀ j₀).Booked)
    (hreserved : (s'.slot c₀ j₀).value ≠ none → j₀ < T ∧ j₀ < s'.next c₀)
    (hfree : ∀ k ≠ i, .slot c₀ j₀ ∉ (s.place k).tokens)
    (hq : ∀ c j, .slot c j ∈ q.tokens → (c, j) = (c₀, j₀))
    (hp : ∀ c j, .slot c j ∈ p.tokens → (c, j) = (c₀, j₀))
    (howned : j₀ < T → j₀ < s'.next c₀ → (s'.slot c₀ j₀).phase = .live ∨
      (s'.slot c₀ j₀).phase = .freed ∨ .slot c₀ j₀ ∈ p.tokens)
    (hat : s'.BookedAt T p) : s'.Booked T := by
  have hself : s'.place i = p := by rw [place_update hplace, if_pos rfl]
  have hother : ∀ k ≠ i, s'.place k = s.place k := by
    intro k hk
    rw [place_update hplace, if_neg hk]
  have htouched : ∀ c j, (c, j) = (c₀, j₀) ∨ s'.slot c j = s.slot c j := by
    intro c j
    by_cases hcj : (c, j) = (c₀, j₀)
    · exact Or.inl hcj
    · exact Or.inr (g.slot c j hcj)
  exact {
    head := g.head
    unused := g.unused
    slots := by
      intro c j
      rcases htouched c j with hcj | hsame
      · obtain ⟨rfl, rfl⟩ := Prod.mk.inj hcj
        exact hok
      · rw [hsame]
        exact h.slots c j
    reserved := by
      intro c j hv
      rcases htouched c j with hcj | hsame
      · obtain ⟨rfl, rfl⟩ := Prod.mk.inj hcj
        exact hreserved hv
      · rw [hsame] at hv
        exact ⟨(h.reserved c j hv).1, lt_of_lt_of_le (h.reserved c j hv).2 (g.next c)⟩
    places := by
      intro k
      by_cases hk : k = i
      · rw [hk, hself]
        exact hat
      · rw [hother k hk]
        exact (h.places k).keep g (hfree k hk)
    unique := by
      -- the slot that thread `i` deals with is the one of which nobody else has the token
      intro k k' c j hk hk'
      by_cases hki : k = i <;> by_cases hki' : k' = i
      · exact hki.trans hki'.symm
      · rw [hki, hself] at hk
        rw [hother k' hki'] at hk'
        obtain ⟨rfl, rfl⟩ := Prod.mk.inj (hp c j hk)
        exact absurd hk' (hfree k' hki')
      · rw [hki', hself] at hk'
        rw [hother k hki] at hk
        obtain ⟨rfl, rfl⟩ := Prod.mk.inj (hp c j hk')
        exact absurd hk (hfree k hki)
      · rw [hother k hki] at hk
        rw [hother k' hki'] at hk'
        exact h.unique k k' c j hk hk'
    owned := by
      intro c j hj hlt
      by_cases hcj : (c, j) = (c₀, j₀)
      · obtain ⟨rfl, rfl⟩ := Prod.mk.inj hcj
        rcases howned hj hlt with hlive | hfreed | hmem
        · exact Or.inl hlive
        · exact Or.inr (Or.inl hfreed)
        · exact Or.inr (Or.inr ⟨i, by rw [hself]; exact hmem⟩)
      · rw [g.slot c j hcj]
        rcases h.owned c j hj (g.others c j hcj hj hlt) with hlive | hfreed | ⟨k, hk⟩
        · exact Or.inl hlive
        · exact Or.inr (Or.inl hfreed)
        · refine Or.inr (Or.inr ⟨k, ?_⟩)
          rw [hother k]
          · exact hk
          · rintro rfl
            rw [hi] at hk
            exact hcj (hq c j hk) }

/-- Thread `i` goes to the place `p`, deals with no slot, and changes none. -/
theorem goto (h : s.Booked T) (g : Touches T s s' 0 T) (hi : s.place i = q)
    (hplace : s'.place = update s.place i p) (hslot : s'.slot 0 T = s.slot 0 T)
    (hq : ∀ c j, .slot c j ∉ q.tokens) (hp : ∀ c j, .slot c j ∉ p.tokens) (hat : s'.BookedAt T p) :
    s'.Booked T := by
  -- there is no slot `T`, so nobody deals with it
  apply h.set g hi hplace
  · rw [hslot]
    exact h.slots 0 T
  · intro hv
    rw [hslot] at hv
    exact absurd (h.reserved 0 T hv).1 (lt_irrefl T)
  · exact fun k _ hk => lt_irrefl T (h.of_token hk).1.1
  · exact fun c j hmem => absurd hmem (hq c j)
  · exact fun c j hmem => absurd hmem (hp c j)
  · exact fun hT => absurd hT (lt_irrefl T)
  · exact hat

/-- Only the place of thread `i` changes. -/
theorem walk (h : s.Booked T) (hi : s.place i = q) (hplace : s'.place = update s.place i p)
    (hchunks : s'.chunks = s.chunks) (hphase : s'.phase = s.phase) (hkept : s'.kept = s.kept)
    (hwrites : s'.writes = s.writes) (hq : ∀ c j, .slot c j ∉ q.tokens)
    (hp : ∀ c j, .slot c j ∉ p.tokens) (hat : s.BookedAt T p) : s'.Booked T := by
  have hslot : ∀ c j, s'.slot c j = s.slot c j := by
    intro c j
    unfold slot
    rw [hchunks, hphase, hkept, hwrites]
  have g : Touches T s s' 0 T := h.touches (by rw [hchunks]) (by rw [hchunks])
    (fun _ => by unfold Crowd.next; rw [hchunks]) fun c j _ => hslot c j
  exact h.goto g hi hplace (hslot 0 T) hq hp (hat.keep g (hp 0 T))

/-! ### Finding and reserving a slot -/

theorem loadHead (h : s.Booked T) (hi : s.place i = .loadHead) (hs : s.step T (.go i) = some s') :
    s'.Booked T := by
  cases hhead : s.chunks.head with
  | none =>
    have ht : s.trans T i .loadHead = some (s, .allocateFirst) := by rw [trans, hhead]
    obtain ⟨hplace, hchunks, hphase, hkept, hwrites, -, -⟩ := go_fields hi ht hs
    exact h.walk hi hplace hchunks hphase hkept hwrites
      (Place.no_slot rfl) (Place.no_slot rfl) trivial
  | some c =>
    have ht : s.trans T i .loadHead = some (s, .loadNext c) := by rw [trans, hhead]
    obtain ⟨hplace, hchunks, hphase, hkept, hwrites, -, -⟩ := go_fields hi ht hs
    exact h.walk hi hplace hchunks hphase hkept hwrites (Place.no_slot rfl) (Place.no_slot rfl)
      (h.head c hhead)

theorem loadNext (h : s.Booked T) (hi : s.place i = .loadNext c)
    (hs : s.step T (.go i) = some s') : s'.Booked T := by
  have hc := h.places i
  rw [hi] at hc
  obtain ⟨hplace, hchunks, hphase, hkept, hwrites, -, -⟩ := go_fields hi rfl hs
  split_ifs at hplace
  · exact h.walk hi hplace hchunks hphase hkept hwrites (Place.no_slot rfl) (Place.no_slot rfl) hc
  · exact h.walk hi hplace hchunks hphase hkept hwrites
      (Place.no_slot rfl) (Place.no_slot rfl) trivial

/-- A slot is reserved, or the chunk is full and only its `next_item` is incremented. -/
theorem fetchAdd (h : s.Booked T) (hi : s.place i = .fetchAdd c)
    (hs : s.step T (.go i) = some s') : s'.Booked T := by
  have hc : c < s.chunks.fresh := by
    have hp := h.places i
    rwa [hi] at hp
  obtain ⟨hplace, hchunks, hphase, hkept, hwrites, -, -⟩ := go_fields hi rfl hs
  replace hchunks : s'.chunks =
    s.chunks.modify c fun b => { b with nextItem := b.nextItem + 1 } := hchunks
  have hslot : ∀ c' j, s'.slot c' j = s.slot c' j :=
    modify_slot hchunks (fun _ => rfl) (fun _ => rfl) hphase hkept hwrites
  have hnext : ∀ c', s'.next c' = s.next c' + if c' = c then 1 else 0 := by
    intro c'
    unfold Crowd.next
    rw [hchunks]
    rcases eq_or_ne c' c with rfl | hne
    · rw [Chunks.modify_chunk_self, if_pos rfl]
    · rw [Chunks.modify_chunk_of_ne hne, if_neg hne]
      rfl
  have hfresh : s'.chunks.fresh = s.chunks.fresh := by
    rw [hchunks]
    rfl
  have htouch : ∀ c₀ j₀, (s.next c < T → (c₀, j₀) = (c, s.next c)) → Touches T s s' c₀ j₀ := by
    intro c₀ j₀ hc₀
    have hhead : s'.chunks.head = s.chunks.head := by
      rw [hchunks]
      rfl
    constructor
    · rw [hhead, hfresh]
      exact h.head
    · exact hfresh.ge
    · intro c' hc'
      have hne : c' ≠ c := by
        rintro rfl
        rw [hfresh] at hc'
        exact absurd hc (not_lt.mpr hc')
      rw [hnext, if_neg hne, h.unused c' (hfresh ▸ hc')]
    · intro c'
      rw [hnext]
      exact Nat.le_add_right _ _
    · intro c' j hne hj hlt
      rw [hnext] at hlt
      split_ifs at hlt with hcc
      · by_contra hge
        have hjn : j = s.next c := by
          rw [hcc] at hlt hge
          omega
        rw [hc₀ (hjn ▸ hj), hcc, hjn] at hne
        exact hne rfl
      · exact hlt
    · exact fun c' j _ => hslot c' j
  have hnextc : s'.next c = s.next c + 1 := by rw [hnext, if_pos rfl]
  have hat : s.next c = (s.chunks.chunk c).nextItem := rfl
  rw [← hat] at hplace
  by_cases hlt : s.next c < T
  · -- the slot `next c` is new and belongs to thread `i`
    rw [if_pos hlt] at hplace
    have hnone : (s.slot c (s.next c)).value = none := by
      by_contra hv
      exact lt_irrefl _ (h.reserved c _ hv).2
    apply h.set (htouch c (s.next c) fun _ => rfl) hi hplace
    · rw [hslot]
      exact h.slots c _
    · intro hv
      rw [hslot] at hv
      exact absurd hnone hv
    · exact fun k _ hk => lt_irrefl _ (h.of_token hk).1.2
    · exact fun c j hmem => absurd hmem (Place.no_slot rfl c j)
    · intro c' j hmem
      have hcj : c' = c ∧ j = s.next c := by simpa [Place.tokens] using hmem
      rw [hcj.1, hcj.2]
    · exact fun _ _ => Or.inr (Or.inr (List.mem_singleton_self _))
    · refine ⟨hlt, ?_, ?_⟩
      · rw [hnextc]
        exact Nat.lt_succ_self _
      · rw [hslot]
        exact hnone
  · -- the chunk is full, and the slot beyond its end is nobody's
    rw [if_neg hlt] at hplace
    have g : Touches T s s' 0 T := htouch 0 T fun h' => absurd h' hlt
    split_ifs at hplace
    · exact h.goto g hi hplace (hslot 0 T) (Place.no_slot rfl) (by simp [Place.tokens])
        trivial
    · exact h.goto g hi hplace (hslot 0 T) (Place.no_slot rfl) (by simp [Place.tokens])
        trivial

/-! ### Using a slot -/

/-- An operation on the slot that thread `i` deals with. -/
theorem use (h : s.Booked T) (hi : s.place i = q) (hmem : .slot c j ∈ q.tokens)
    (hplace : s'.place = update s.place i p) (hhead : s'.chunks.head = s.chunks.head)
    (hfresh : s'.chunks.fresh = s.chunks.fresh) (hnext : ∀ c, s'.next c = s.next c)
    (hslot : ∀ c' j', (c', j') ≠ (c, j) → s'.slot c' j' = s.slot c' j')
    (hok : (s'.slot c j).Booked)
    (hp : ∀ c' j', .slot c' j' ∈ p.tokens → (c', j') = (c, j))
    (howned : (s'.slot c j).phase = .live ∨ (s'.slot c j).phase = .freed ∨ .slot c j ∈ p.tokens)
    (hat : s'.BookedAt T p) : s'.Booked T := by
  have hi' : .slot c j ∈ (s.place i).tokens := by rwa [hi]
  refine h.set (h.touches hhead hfresh hnext hslot) hi hplace hok (fun _ => ?_) (h.only hi')
    (fun _ _ => Place.slot_unique hmem) hp (fun _ _ => howned) hat
  rw [hnext]
  exact (h.of_token hi').1

theorem publish (h : s.Booked T) (hi : s.place i = .publish c j)
    (hs : s.step T (.go i) = some s') : s'.Booked T := by
  have hp := h.places i
  rw [hi] at hp
  obtain ⟨hj, hlt, hnone⟩ := hp
  obtain ⟨-, hnew, hkept₀⟩ := (h.slots c j).blank hnone
  obtain ⟨hplace, hchunks, hphase, hkept, hwrites, -, -⟩ := go_fields hi rfl hs
  obtain ⟨hne, hself⟩ := assign_slot hchunks hphase hkept hwrites
  have hnext : ∀ c', s'.next c' = s.next c' := by
    intro c'
    unfold Crowd.next
    rw [hchunks]
    exact Chunks.modify_same (f := fun b => b.assign j (i, s.calls i - 1)) Chunk.nextItem rfl c'
  apply h.use hi (List.mem_singleton_self _) hplace (by rw [hchunks]; rfl) (by rw [hchunks]; rfl)
    hnext hne
  · rw [hself]
    exact ⟨nofun, fun _ _ => rfl, (h.slots c j).count, (h.slots c j).destroyed⟩
  · exact fun _ _ => Place.slot_unique (List.mem_singleton_self _)
  · exact Or.inr (Or.inr (List.mem_singleton_self _))
  · rw [BookedAt, hself]
    exact ⟨nofun, hnew, hkept₀, trivial⟩

/-- An operation that changes the item of the slot, its phase and the reference of the push. -/
theorem setItem (h : s.Booked T) {x : Item} (hi : s.place i = q) (hmem : .slot c j ∈ q.tokens)
    (hplace : s'.place = update s.place i p) (hchunks : s'.chunks = s.chunks.setItem c j x)
    (hphase : ∀ c' j', (c', j') ≠ (c, j) → s'.phase c' j' = s.phase c' j')
    (hkept : ∀ c' j', (c', j') ≠ (c, j) → s'.kept c' j' = s.kept c' j')
    (hwrites : s'.writes = s.writes)
    (hok : Slot.Booked ⟨(s.slot c j).value, x, s'.phase c j, s'.kept c j, (s.slot c j).writes⟩)
    (hp : ∀ c' j', .slot c' j' ∈ p.tokens → (c', j') = (c, j))
    (howned : s'.phase c j = .live ∨ s'.phase c j = .freed ∨ .slot c j ∈ p.tokens)
    (hat : s'.slot c j =
        ⟨(s.slot c j).value, x, s'.phase c j, s'.kept c j, (s.slot c j).writes⟩ → s'.BookedAt T p) :
    s'.Booked T := by
  obtain ⟨hlinks, -, hne, hself⟩ := setItem_slot hchunks hphase hkept hwrites
  refine h.use hi hmem hplace hlinks.head hlinks.fresh hlinks.next hne ?_ hp howned (hat hself)
  rw [hself]
  exact hok

/-- The `acquire` of the iterator that `push` returns. -/
theorem acquire (h : s.Booked T) {a : Acquire} (hi : s.place i = .acquire c j a)
    (hs : s.step T (.go i) = some s') : s'.Booked T := by
  have hp := h.places i
  rw [hi] at hp
  obtain ⟨hv, hnew, hkept, hsafe⟩ := hp
  have hslot := h.slots c j
  have hoff : (s.chunks.item c j).iterOffset = 0 := hslot.present hv hnew
  have hcount : (s.chunks.item c j).refcount = a.holds.toNat := by
    have hcount : (s.chunks.item c j).refcount = _ := hslot.count
    rw [hnew, hkept] at hcount
    simpa [Phase.dropped] using hcount
  have hmem : ∀ b, .slot c j ∈ (Place.acquire c j b).tokens := fun _ => List.mem_singleton_self _
  cases a with
  | loadOffset =>
    obtain ⟨hplace, hchunks, hphase, hkept', hwrites, -, -⟩ := go_fields hi rfl hs
    apply h.setItem hi (hmem _) hplace hchunks (fun _ _ _ => by rw [hphase])
      (fun _ _ _ => by rw [hkept']; rfl) hwrites
    · rw [hphase, hkept']
      exact hslot
    · exact fun _ _ => Place.slot_unique (hmem _)
    · exact Or.inr (Or.inr (hmem _))
    · intro hself
      rw [BookedAt, hself, hphase, hkept']
      exact ⟨hv, hnew, hkept, hoff⟩
  | loadRefcount off =>
    obtain rfl : off = 0 := hsafe
    have hr : 0 ≤ (s.chunks.item c j).refcount := by
      rw [hcount]
      exact Int.natCast_nonneg _
    have ht : s.trans T i (.acquire c j (.loadRefcount 0)) =
        some ({ s with chunks := s.chunks.setItem c j (s.chunks.item c j) },
          .acquire c j .fetchAdd) := by
      simp only [trans, Acquire.step, hr, and_self, if_true, reduceCtorEq, if_false]
    obtain ⟨hplace, hchunks, hphase, hkept', hwrites, -, -⟩ := go_fields hi ht hs
    apply h.setItem hi (hmem _) hplace hchunks (fun _ _ _ => by rw [hphase])
      (fun _ _ _ => by rw [hkept']) hwrites
    · rw [hphase, hkept']
      exact hslot
    · exact fun _ _ => Place.slot_unique (hmem _)
    · exact Or.inr (Or.inr (hmem _))
    · intro hself
      rw [BookedAt, hself, hphase, hkept']
      exact ⟨hv, hnew, hkept, trivial⟩
  | fetchAdd =>
    have hzero : (s.chunks.item c j).refcount = 0 := hcount
    have hadd : (s.chunks.item c j).fetchAdd.refcount = 1 := by
      show ((s.chunks.item c j).refcount + 1).bmod wordSize = 1
      rw [hzero]
      rfl
    have hnot : (s.chunks.item c j).destroyed = 0 := by
      have hdestroyed : (s.chunks.item c j).destroyed = _ := hslot.destroyed
      rw [hdestroyed]
      exact if_neg (by rw [show (s.slot c j).item.refcount = 0 from hzero]; decide)
    have ht : s.trans T i (.acquire c j .fetchAdd) =
        some ({ s with
            chunks := s.chunks.setItem c j (s.chunks.item c j).fetchAdd
            kept := update₂ s.kept c j true },
          .acquire c j (.reload (s.chunks.item c j).refcount)) := by
      simp only [trans, Acquire.step, if_true]
    obtain ⟨hplace, hchunks, hphase, hkept', hwrites, -, -⟩ := go_fields hi ht hs
    have hself' : s'.kept c j = true := by
      rw [hkept']
      exact update₂_self
    have hphase' : s'.phase c j = .new := by
      rw [hphase]
      exact hnew
    apply h.setItem hi (hmem _) hplace hchunks (fun _ _ _ => by rw [hphase])
      (fun _ _ hne => by rw [hkept']; exact update₂_of_ne hne) hwrites
    · rw [hself', hphase']
      refine ⟨fun e => absurd e hv, fun _ _ => hoff, hadd, ?_⟩
      show (s.chunks.item c j).destroyed =
        if (s.chunks.item c j).fetchAdd.refcount < 0 then 1 else 0
      rw [hadd, hnot]
      rfl
    · exact fun _ _ => Place.slot_unique (hmem _)
    · exact Or.inr (Or.inr (hmem _))
    · intro hself
      rw [BookedAt, hself, hself', hphase']
      exact ⟨hv, rfl, rfl, hzero.ge⟩
  | reload old =>
    have hold : 0 ≤ old := hsafe
    have ht : s.trans T i (.acquire c j (.reload old)) =
        some ({ s with
            chunks := s.chunks.setItem c j (s.chunks.item c j)
            phase := update₂ s.phase c j .live },
          .idle) := by
      simp only [trans, Acquire.step, hold, hoff, and_self, if_true, reduceCtorEq, if_false]
    obtain ⟨hplace, hchunks, hphase, hkept', hwrites, -, -⟩ := go_fields hi ht hs
    have hphase' : s'.phase c j = .live := by
      rw [hphase]
      exact update₂_self
    apply h.setItem hi (hmem _) hplace hchunks
      (fun _ _ hne => by rw [hphase]; exact update₂_of_ne hne) (fun _ _ _ => by rw [hkept']) hwrites
    · rw [hphase', hkept']
      refine ⟨fun e => absurd e hv, fun _ _ => hoff, ?_, hslot.destroyed⟩
      have hc := hslot.count
      rw [hnew] at hc
      exact hc
    · exact fun c j hmem => absurd hmem (Place.no_slot rfl c j)
    · exact Or.inl hphase'
    · exact fun _ => trivial
  | undo off => exact absurd hsafe id

/-! ### Removing an element -/

theorem loadNeighbour (h : s.Booked T) (hi : s.place i = .loadNeighbour c j)
    (hs : s.step T (.go i) = some s') : s'.Booked T := by
  have hp := h.places i
  rw [hi] at hp
  obtain ⟨hplace, hchunks, hphase, hkept, hwrites, -, -⟩ := go_fields hi rfl hs
  have hslot : ∀ c j, s'.slot c j = s.slot c j := by
    intro c j
    unfold slot
    rw [hchunks, hphase, hkept, hwrites]
  apply h.use hi (List.mem_singleton_self _) hplace (by rw [hchunks]) (by rw [hchunks])
    (fun _ => by unfold Crowd.next; rw [hchunks]) fun c j _ => hslot c j
  · rw [hslot]
    exact h.slots c j
  · exact fun _ _ => Place.slot_unique (List.mem_singleton_self _)
  · exact Or.inr (Or.inr (List.mem_singleton_self _))
  · rw [BookedAt, hslot]
    exact hp

theorem storeOffset (h : s.Booked T) {off : Nat} (hi : s.place i = .storeOffset c j off)
    (hs : s.step T (.go i) = some s') : s'.Booked T := by
  have hp := h.places i
  rw [hi] at hp
  obtain ⟨hv, hremoving, hkept₀⟩ := hp
  have hslot := h.slots c j
  obtain ⟨hplace, hchunks, hphase, hkept, hwrites, -, -⟩ := go_fields hi rfl hs
  have hphase' : s'.phase c j = .removing := by
    rw [hphase]
    exact hremoving
  apply h.setItem hi (List.mem_singleton_self _) hplace hchunks (fun _ _ _ => by rw [hphase])
    (fun _ _ _ => by rw [hkept]) hwrites
  · rw [hphase', hkept]
    refine ⟨fun e => absurd e hv, (fun _ e => by cases e), ?_, hslot.destroyed⟩
    have hc := hslot.count
    rw [hremoving] at hc
    exact hc
  · exact fun _ _ => Place.slot_unique (List.mem_singleton_self _)
  · exact Or.inr (Or.inr (List.mem_singleton_self _))
  · intro hself
    rw [BookedAt, hself, hphase', hkept]
    exact ⟨hv, rfl, hkept₀⟩

/-- Giving up a reference, when there is one. -/
theorem release_booked {x : Item} (hcount : x.refcount = 0 ∨ x.refcount = 1)
    (hdestroyed : x.destroyed = if x.refcount < 0 then 1 else 0) :
    x.release.refcount = x.refcount - 1 ∧
      x.release.destroyed = if x.release.refcount < 0 then 1 else 0 := by
  have hsub : x.release.refcount = x.refcount - 1 := by
    show (x.refcount - 1).bmod wordSize = _
    rcases hcount with e | e <;> rw [e] <;> rfl
  refine ⟨hsub, ?_⟩
  rw [hsub]
  show (if x.refcount = 0 then x.destroyed + 1 else x.destroyed) = _
  rw [hdestroyed]
  rcases hcount with e | e <;> rw [e] <;> rfl

theorem release (h : s.Booked T) (hi : s.place i = .release c j)
    (hs : s.step T (.go i) = some s') : s'.Booked T := by
  have hp := h.places i
  rw [hi] at hp
  obtain ⟨hv, hremoving, hkept₀⟩ := hp
  have hslot := h.slots c j
  -- the reference of the push is kept, so the count does not fall below zero here
  have hone : (s.chunks.item c j).refcount = 1 := by
    have hcount := hslot.count
    rw [hremoving, hkept₀] at hcount
    exact hcount
  obtain ⟨hsub, hdestroyed⟩ := release_booked (Or.inr hone) hslot.destroyed
  have ht : s.trans T i (.release c j) =
      some ({ s with
          chunks := s.chunks.setItem c j (s.chunks.item c j).release
          phase := update₂ s.phase c j .released },
        .freed c j) := by
    have hnot : (s.chunks.item c j).releaseThrows = false := by
      rw [Item.releaseThrows, hone]
      rfl
    rw [trans, hnot]
    rfl
  obtain ⟨hplace, hchunks, hphase, hkept, hwrites, -, -⟩ := go_fields hi ht hs
  have hphase' : s'.phase c j = .released := by
    rw [hphase]
    exact update₂_self
  have hkept' : s'.kept c j = true := by
    rw [hkept]
    exact hkept₀
  apply h.setItem hi (List.mem_singleton_self _) hplace hchunks
    (fun _ _ hne => by rw [hphase]; exact update₂_of_ne hne) (fun _ _ _ => by rw [hkept]) hwrites
  · rw [hphase', hkept']
    refine ⟨fun e => absurd e hv, (fun _ e => by cases e), ?_, hdestroyed⟩
    show (s.chunks.item c j).release.refcount = _
    rw [hsub, hone]
    rfl
  · exact fun _ _ => Place.slot_unique (List.mem_singleton_self _)
  · exact Or.inr (Or.inr (List.mem_singleton_self _))
  · intro hself
    rw [BookedAt, hself, hphase', hkept']
    exact ⟨hv, rfl, rfl⟩

theorem freed (h : s.Booked T) (hi : s.place i = .freed c j) (hs : s.step T (.go i) = some s') :
    s'.Booked T := by
  have hp := h.places i
  rw [hi] at hp
  obtain ⟨hv, hreleased, hkept₀⟩ := hp
  have hslot := h.slots c j
  obtain ⟨hplace, hchunks, hphase, hkept, hwrites, -, -⟩ := go_fields hi rfl hs
  replace hchunks : s'.chunks =
    s.chunks.modify c fun b => { b with freedItems := b.freedItems + 1 } := hchunks
  obtain ⟨hne, hself⟩ := phase_slot hphase (Chunks.same_of_modify hchunks Chunk.value fun _ => rfl)
    (fun c' j' => congrFun (Chunks.same_of_modify hchunks Chunk.item (fun _ => rfl) c') j')
    hkept hwrites
  have hok : (s'.slot c j).Booked := by
    rw [hself]
    refine ⟨fun e => absurd e hv, (fun _ e => by cases e), ?_, hslot.destroyed⟩
    have hc := hslot.count
    rw [hreleased] at hc
    exact hc
  have hfreed : (s'.slot c j).phase = .freed := by rw [hself]
  have hhead : s'.chunks.head = s.chunks.head := by
    rw [hchunks]
    rfl
  have hfresh : s'.chunks.fresh = s.chunks.fresh := by
    rw [hchunks]
    rfl
  have hnext : ∀ c, s'.next c = s.next c :=
    Chunks.same_of_modify hchunks Chunk.nextItem fun _ => rfl
  split_ifs at hplace
  · exact h.use hi (List.mem_singleton_self _) hplace hhead hfresh hnext hne hok
      (fun c j hmem => absurd hmem (Place.no_slot rfl c j)) (Or.inr (Or.inl hfreed)) trivial
  · exact h.use hi (List.mem_singleton_self _) hplace hhead hfresh hnext hne hok
      (fun c j hmem => absurd hmem (Place.no_slot rfl c j)) (Or.inr (Or.inl hfreed)) trivial

/-- A thread that changes only the pointer or the flag of a chunk. -/
theorem modify (h : s.Booked T) {f : Chunk (ι × Nat) → Chunk (ι × Nat)} (hi : s.place i = q)
    (hplace : s'.place = update s.place i p) (hchunks : s'.chunks = s.chunks.modify c f)
    (hvalue : ∀ b, (f b).value = b.value) (hitem : ∀ b, (f b).item = b.item)
    (hnext : ∀ b, (f b).nextItem = b.nextItem) (hphase : s'.phase = s.phase)
    (hkept : s'.kept = s.kept) (hwrites : s'.writes = s.writes) (hq : ∀ c j, .slot c j ∉ q.tokens)
    (hp : ∀ c j, .slot c j ∉ p.tokens) (hat : s.BookedAt T p) : s'.Booked T := by
  have hslot : ∀ c j, s'.slot c j = s.slot c j :=
    modify_slot hchunks hvalue hitem hphase hkept hwrites
  have g : Touches T s s' 0 T := h.touches (by rw [hchunks]; rfl) (by rw [hchunks]; rfl)
    (Chunks.same_of_modify hchunks Chunk.nextItem hnext) fun c j _ => hslot c j
  exact h.goto g hi hplace (hslot 0 T) hq hp (hat.keep g (hp 0 T))

theorem flag (h : s.Booked T) (hi : s.place i = .flag c) (hs : s.step T (.go i) = some s') :
    s'.Booked T := by
  obtain ⟨hplace, hchunks, hphase, hkept, hwrites, -, -⟩ := go_fields hi rfl hs
  exact h.modify (f := fun b => { b with deleted := true }) hi hplace hchunks (fun _ => rfl)
    (fun _ => rfl) (fun _ => rfl) hphase hkept hwrites (Place.no_slot rfl) (Place.no_slot rfl)
    trivial

/-! ### Appending a chunk -/

/-- Thread `i` allocates a chunk. -/
theorem allocated (h : s.Booked T) (hi : s.place i = q) (ht : s.trans T i q = some (s.allocated, p))
    (hs : s.step T (.go i) = some s') (hq : ∀ c j, .slot c j ∉ q.tokens)
    (hp : ∀ c j, .slot c j ∉ p.tokens)
    (hat : s.chunks.fresh < s'.chunks.fresh → s'.BookedAt T p) : s'.Booked T := by
  obtain ⟨hplace, hchunks, hphase, hkept, hwrites, -, -⟩ := go_fields hi ht hs
  have hself : s'.chunks.chunk s.chunks.fresh = Chunk.init := by
    rw [hchunks]
    exact update_self ..
  have hchunk : ∀ c ≠ s.chunks.fresh, s'.chunks.chunk c = s.chunks.chunk c := by
    intro c hc
    rw [hchunks]
    exact update_of_ne hc ..
  have hfresh : s'.chunks.fresh = s.chunks.fresh + 1 := by rw [hchunks]; rfl
  have hhead : s'.chunks.head = s.chunks.head := by rw [hchunks]; rfl
  -- the slots of the new chunk are those that it was taken to have before
  have hslot : ∀ c j, s'.slot c j = s.slot c j := by
    intro c j
    by_cases hc : c = s.chunks.fresh
    · obtain ⟨hvalue, hitem⟩ := h.unused_slot hc.ge j
      have hvalue' : (s'.chunks.chunk c).value j = none := by rw [hc, hself]; rfl
      have hitem' : s'.chunks.item c j = Item.init := by
        show (s'.chunks.chunk c).item j = _
        rw [hc, hself]
        rfl
      unfold slot
      rw [hvalue', hitem', hphase, hkept, hwrites,
        show (s.chunks.chunk c).value j = none from hvalue,
        show s.chunks.item c j = Item.init from hitem]
      rfl
    · unfold slot Chunks.item
      rw [hchunk c hc, hphase, hkept, hwrites]
      rfl
  have hnext : ∀ c, s'.next c = s.next c := by
    intro c
    by_cases hc : c = s.chunks.fresh
    · rw [h.unused c hc.ge]
      unfold Crowd.next
      rw [hc, hself]
      rfl
    · unfold Crowd.next
      rw [hchunk c hc]
  have g : Touches T s s' 0 T := by
    refine ⟨?_, by omega, ?_, fun c => (hnext c).ge, fun c j _ _ hlt => hnext c ▸ hlt,
      fun c j _ => hslot c j⟩
    · intro c hc
      rw [hhead] at hc
      have := h.head c hc
      omega
    · intro c hc
      rw [hnext]
      exact h.unused c (by omega)
  exact h.goto g hi hplace (hslot 0 T) hq hp (hat (by omega))

/-- The exchange of the head, whether it succeeds or not. -/
theorem link (h : s.Booked T) (hi : s.place i = q) (hplace : s'.place = update s.place i p)
    (hchunk : s'.chunks.chunk = s.chunks.chunk) (hfresh : s'.chunks.fresh = s.chunks.fresh)
    (hhead : ∀ c, s'.chunks.head = some c → c < s.chunks.fresh) (hphase : s'.phase = s.phase)
    (hkept : s'.kept = s.kept) (hwrites : s'.writes = s.writes) (hq : ∀ c j, .slot c j ∉ q.tokens)
    (hp : ∀ c j, .slot c j ∉ p.tokens) (hat : s.BookedAt T p) : s'.Booked T := by
  have hslot : ∀ c j, s'.slot c j = s.slot c j := by
    intro c j
    unfold slot Chunks.item
    rw [hchunk, hphase, hkept, hwrites]
  have hnext : ∀ c, s'.next c = s.next c := by
    intro c
    unfold Crowd.next
    rw [hchunk]
  have g : Touches T s s' 0 T := by
    refine ⟨?_, hfresh.ge, ?_, fun c => (hnext c).ge, fun c j _ _ hlt => hnext c ▸ hlt,
      fun c j _ => hslot c j⟩
    · intro c hc
      rw [hfresh]
      exact hhead c hc
    · intro c hc
      rw [hnext]
      exact h.unused c (hfresh ▸ hc)
  exact h.goto g hi hplace (hslot 0 T) hq hp (hat.keep g (hp 0 T))

theorem storePrev (h : s.Booked T) {n : Nat} {old : Option Nat} (hi : s.place i = .storePrev n old)
    (hs : s.step T (.go i) = some s') : s'.Booked T := by
  have hn := h.places i
  rw [hi] at hn
  obtain ⟨hplace, hchunks, hphase, hkept, hwrites, -, -⟩ := go_fields hi rfl hs
  exact h.modify (f := fun b => { b with prev := old }) hi hplace hchunks (fun _ => rfl)
    (fun _ => rfl) (fun _ => rfl) hphase hkept hwrites (by simp [Place.tokens])
    (by simp [Place.tokens]) hn

theorem casHead (h : s.Booked T) {n : Nat} {old : Option Nat} (hi : s.place i = .casHead n old)
    (hs : s.step T (.go i) = some s') : s'.Booked T := by
  have hn : n < s.chunks.fresh := by
    have hp := h.places i
    rwa [hi] at hp
  by_cases hhead : s.chunks.head = old
  · have ht : s.trans T i (.casHead n old) =
        some ({ s with chunks := { s.chunks with head := some n } }, .loadHead) := by
      rw [trans, if_pos hhead]
    obtain ⟨hplace, hchunks, hphase, hkept, hwrites, -, -⟩ := go_fields hi ht hs
    refine h.link hi hplace (by rw [hchunks]) (by rw [hchunks]) ?_ hphase hkept hwrites
      (by simp [Place.tokens]) (Place.no_slot rfl) trivial
    intro c hc
    rw [hchunks] at hc
    exact Option.some.inj hc ▸ hn
  · have ht : s.trans T i (.casHead n old) = some (s, .loadOld n) := by rw [trans, if_neg hhead]
    obtain ⟨hplace, hchunks, hphase, hkept, hwrites, -, -⟩ := go_fields hi ht hs
    exact h.walk hi hplace hchunks hphase hkept hwrites (by simp [Place.tokens])
      (by simp [Place.tokens]) hn

theorem casFirst (h : s.Booked T) {n : Nat} (hi : s.place i = .casFirst n)
    (hs : s.step T (.go i) = some s') : s'.Booked T := by
  have hn : n < s.chunks.fresh := by
    have hp := h.places i
    rwa [hi] at hp
  by_cases hhead : s.chunks.head = none
  · have ht : s.trans T i (.casFirst n) =
        some ({ s with chunks := { s.chunks with head := some n } }, .loadHead) := by
      rw [trans, if_pos hhead]
    obtain ⟨hplace, hchunks, hphase, hkept, hwrites, -, -⟩ := go_fields hi ht hs
    refine h.link hi hplace (by rw [hchunks]) (by rw [hchunks]) ?_ hphase hkept hwrites
      (by simp [Place.tokens]) (Place.no_slot rfl) trivial
    intro c hc
    rw [hchunks] at hc
    exact Option.some.inj hc ▸ hn
  · have ht : s.trans T i (.casFirst n) = some (s, .loadHead) := by rw [trans, if_neg hhead]
    obtain ⟨hplace, hchunks, hphase, hkept, hwrites, -, -⟩ := go_fields hi ht hs
    exact h.walk hi hplace hchunks hphase hkept hwrites
      (by simp [Place.tokens]) (Place.no_slot rfl) trivial

/-- Every operation of a thread keeps the books. -/
theorem go (h : s.Booked T) (hs : s.step T (.go i) = some s') : s'.Booked T := by
  cases hi : s.place i with
  | idle =>
    rw [step, hi] at hs
    cases hs
  | loadHead => exact h.loadHead hi hs
  | loadNext c => exact h.loadNext hi hs
  | fetchAdd c => exact h.fetchAdd hi hs
  | publish c j => exact h.publish hi hs
  | acquire c j a => exact h.acquire hi hs
  | allocate =>
    exact h.allocated (p := .loadOld s.chunks.fresh) hi rfl hs
      (by simp [Place.tokens]) (by simp [Place.tokens]) fun hlt => hlt
  | loadOld n =>
    have hn := h.places i
    rw [hi] at hn
    obtain ⟨hplace, hchunks, hphase, hkept, hwrites, -, -⟩ := go_fields hi rfl hs
    exact h.walk hi hplace hchunks hphase hkept hwrites (by simp [Place.tokens])
      (by simp [Place.tokens]) hn
  | storePrev n old => exact h.storePrev hi hs
  | casHead n old => exact h.casHead hi hs
  | allocateFirst =>
    exact h.allocated (p := .casFirst s.chunks.fresh) hi rfl hs
      (by simp [Place.tokens]) (by simp [Place.tokens]) fun hlt => hlt
  | casFirst n => exact h.casFirst hi hs
  | loadNeighbour c j => exact h.loadNeighbour hi hs
  | storeOffset c j off => exact h.storeOffset hi hs
  | release c j => exact h.release hi hs
  | freed c j => exact h.freed hi hs
  | flag c => exact h.flag hi hs

/-! ### The calls -/

theorem push (h : s.Booked T) (hs : s.step T (.push i) = some s') : s'.Booked T := by
  rw [step] at hs
  split_ifs at hs with hi
  obtain rfl := Option.some.inj hs
  exact h.walk hi rfl rfl rfl rfl rfl (Place.no_slot rfl) (Place.no_slot rfl) trivial

theorem remove (h : s.Booked T) (hs : s.step T (.remove i c j) = some s') : s'.Booked T := by
  rw [step] at hs
  split_ifs at hs with hc
  obtain ⟨hi, hlive, hkept⟩ := hc
  obtain rfl := Option.some.inj hs
  generalize hs' : ({ s with
    place := update s.place i (.loadNeighbour c j)
    phase := update₂ s.phase c j .removing } : Crowd ι) = s'
  have hlive' : (s.slot c j).phase = .live := hlive
  have hslot := h.slots c j
  have hv : (s.slot c j).value ≠ none := by
    intro e
    rw [(hslot.blank e).2.1] at hlive'
    cases hlive'
  have hchunks : s'.chunks = s.chunks := by rw [← hs']
  have hphase : s'.phase = update₂ s.phase c j .removing := by rw [← hs']
  obtain ⟨hne, hself⟩ := phase_slot hphase (fun _ => by rw [hchunks]) (fun _ _ => by rw [hchunks])
    (by rw [← hs']) (by rw [← hs'])
  have hnext : ∀ c, s'.next c = s.next c := by
    intro c
    unfold Crowd.next
    rw [hchunks]
  apply h.set (p := .loadNeighbour c j) (h.touches (by rw [hchunks]) (by rw [hchunks]) hnext hne) hi
    (by rw [← hs'])
  · rw [hself]
    refine ⟨fun e => absurd e hv, (fun _ e => by cases e), ?_, hslot.destroyed⟩
    have hcount := hslot.count
    rw [hlive'] at hcount
    exact hcount
  · intro _
    rw [hnext]
    exact h.reserved c j hv
  · exact fun k _ hk => (h.of_token hk).2.1 hlive'
  · exact fun c j hmem => absurd hmem (Place.no_slot rfl c j)
  · exact fun _ _ => Place.slot_unique (List.mem_singleton_self _)
  · exact fun _ _ => Or.inr (Or.inr (List.mem_singleton_self _))
  · rw [BookedAt, hself]
    exact ⟨hv, rfl, hkept⟩

theorem drop (h : s.Booked T) (hs : s.step T (.drop c j) = some s') : s'.Booked T := by
  rw [step] at hs
  split_ifs at hs with hc
  obtain ⟨hkept, hphase⟩ := hc
  obtain rfl := Option.some.inj hs
  generalize hs' : ({ s with
    chunks := s.chunks.setItem c j (s.chunks.item c j).release
    kept := update₂ s.kept c j false } : Crowd ι) = s'
  have hphase' : (s.slot c j).phase = .live ∨ (s.slot c j).phase = .freed := hphase
  have hslot := h.slots c j
  have hv : (s.slot c j).value ≠ none := by
    intro e
    have hkept' : (s.slot c j).kept = true := hkept
    rw [(hslot.blank e).2.2] at hkept'
    cases hkept'
  have hcount : (s.chunks.item c j).refcount = 1 - (s.slot c j).phase.dropped := by
    have hcount : (s.chunks.item c j).refcount = _ := hslot.count
    rw [show (s.slot c j).kept = true from hkept] at hcount
    exact hcount
  -- the list has its own reference to an element that was not removed
  have hfew : (s.chunks.item c j).refcount = 0 ∨ (s.chunks.item c j).refcount = 1 := by
    rw [hcount]
    rcases hphase' with e | e <;> rw [e] <;> decide
  obtain ⟨hsub, hdestroyed⟩ := release_booked hfew hslot.destroyed
  have hchunks : s'.chunks = s.chunks.setItem c j (s.chunks.item c j).release := by rw [← hs']
  obtain ⟨hlinks, -, hne, hself⟩ := setItem_slot hchunks (fun _ _ _ => by rw [← hs'])
    (fun c' j' hcj => by rw [← hs']; exact update₂_of_ne hcj) (by rw [← hs'])
  have hkept' : s'.kept c j = false := by
    rw [← hs']
    exact update₂_self
  have hphases : ∀ c j, (s'.slot c j).phase = (s.slot c j).phase := by
    intro c j
    rw [← hs']
    rfl
  have hvalues : ∀ c' j', (s'.slot c' j').value = (s.slot c' j').value := by
    intro c' j'
    by_cases hcj : (c', j') = (c, j)
    · obtain ⟨rfl, rfl⟩ := Prod.mk.inj hcj
      rw [hself]
    · rw [hne c' j' hcj]
  have hplace : s'.place = s.place := by rw [← hs']
  have g : Touches T s s' c j := h.touches hlinks.head hlinks.fresh hlinks.next hne
  exact {
    head := g.head
    unused := g.unused
    slots := by
      intro c' j'
      by_cases hcj : (c', j') = (c, j)
      · obtain ⟨rfl, rfl⟩ := Prod.mk.inj hcj
        rw [hself, hkept']
        have hph : s'.phase c' j' = (s.slot c' j').phase := hphases c' j'
        refine ⟨fun e => absurd e hv, fun _ hnew => ?_, ?_, hdestroyed⟩
        · rw [hph] at hnew
          rcases hphase' with e | e <;> rw [e] at hnew <;> cases hnew
        · show (s.chunks.item c' j').release.refcount = _
          rw [hsub, hcount, hph]
          simp
      · rw [hne c' j' hcj]
        exact h.slots c' j'
    reserved := by
      intro c' j' hv'
      rw [hvalues] at hv'
      rw [hlinks.next]
      exact h.reserved c' j' hv'
    places := by
      intro k
      rw [hplace]
      refine (h.places k).keep g fun hk => ?_
      obtain ⟨-, hnlive, hnfreed⟩ := h.of_token hk
      exact hphase'.elim hnlive hnfreed
    unique := by
      rw [hplace]
      exact h.unique
    owned := by
      intro c' j' hj hlt
      rw [hlinks.next] at hlt
      rw [hphases, hplace]
      exact h.owned c' j' hj hlt }

omit [DecidableEq ι] in
theorem ofInitial : (initial ι).Booked T where
  head := nofun
  unused := fun _ _ => rfl
  slots := fun _ _ => ⟨fun _ => ⟨rfl, rfl, rfl⟩, fun hv => absurd rfl hv, rfl, rfl⟩
  reserved := fun _ _ hv => absurd rfl hv
  places := fun _ => trivial
  unique := nofun
  owned := fun _ j _ hlt => absurd hlt (Nat.not_lt_zero j)

theorem step {a : CrowdAction ι} (h : s.Booked T) (ha : s.Using a) (hs : s.step T a = some s') :
    s'.Booked T := by
  cases a with
  | push i => exact h.push hs
  | remove i c j => exact h.remove hs
  | drop c j => exact h.drop hs
  | go i => exact h.go hs
  | rbegin | look => exact ha.elim

theorem of_reaches (h : Reaches (Crowd.step T) Using (Crowd.initial ι) s) : s.Booked T :=
  h.invariant ofInitial fun _ _ _ hinv ha hs => hinv.step ha hs

/-! ### The last pointer has gone -/

omit [DecidableEq ι] in
/-- Nobody deals with the slots of the chunk any more. -/
theorem unheld_phase (h : s.Booked T) (hc : s.Unheld c) (hj : j < T) (hlt : j < s.next c) :
    (s.slot c j).phase = .live ∨ (s.slot c j).phase = .freed := by
  rcases h.owned c j hj hlt with hlive | hfreed | ⟨i, hi⟩
  · exact Or.inl hlive
  · exact Or.inr hfreed
  · refine absurd ?_ (hc.1 i)
    cases hp : s.place i <;> rw [hp] at hi <;> simp_all [Place.tokens, Place.holds]

omit [DecidableEq ι] in
/-- The element is left if it is in the list, and was destroyed if it was removed. -/
theorem unheld_destroy (h : s.Booked T) (hc : s.Unheld c) (hj : j < T) (hlt : j < s.next c) :
    (s.chunks.item c j).release.destroyed = (s.chunks.item c j).destroyed +
      if ((s.chunks.chunk c).value j).isSome = true ∧ (s.chunks.item c j).destroyed = 0 then 1
      else 0 := by
  have hslot := h.slots c j
  have hkept : (s.slot c j).kept = false := hc.2 j
  have hcount : (s.chunks.item c j).refcount = _ := hslot.count
  have hdestroyed : (s.chunks.item c j).destroyed = _ := hslot.destroyed
  have hrefcount : (s.slot c j).item.refcount = (s.chunks.item c j).refcount := rfl
  rw [hkept] at hcount
  rw [hrefcount] at hdestroyed
  show (if (s.chunks.item c j).refcount = 0 then (s.chunks.item c j).destroyed + 1
    else (s.chunks.item c j).destroyed) = _
  rcases h.unheld_phase hc hj hlt with hlive | hfreed
  · -- in the list the count is zero, and `~Item` destroys the value
    have hv : ((s.chunks.chunk c).value j).isSome = true := by
      rw [Option.isSome_iff_ne_none]
      intro e
      have hnew := (hslot.blank e).2.1
      rw [hlive] at hnew
      cases hnew
    rw [hlive] at hcount
    have hzero : (s.chunks.item c j).refcount = 0 := hcount
    rw [hzero] at hdestroyed
    have hnot : (s.chunks.item c j).destroyed = 0 := hdestroyed
    rw [if_pos hzero, if_pos ⟨hv, hnot⟩]
  · -- after a removal it is -1, and the value was destroyed then
    rw [hfreed] at hcount
    have hneg : (s.chunks.item c j).refcount = -1 := hcount
    rw [hneg] at hdestroyed
    have hone : (s.chunks.item c j).destroyed = 1 := hdestroyed
    rw [hneg, hone]
    simp

end Booked

/-- **Destroying a chunk.**  In every state that pushes and removals reach, the destructor of a
chunk to which nobody has a pointer touches its own slots only, and destroys exactly the elements
that are left in them, if and only if the chunk was not overflowed. -/
theorem destroys_own_iff [DecidableEq ι]
    (h : Reaches (Crowd.step T) Using (Crowd.initial ι) s) (hc : s.Unheld c) :
    (s.chunks.chunk c).DestroysOwn T ↔ (s.chunks.chunk c).nextItem ≤ T := by
  have hbooked := Booked.of_reaches h
  constructor
  · -- the slot `T` is visited otherwise
    intro hd
    by_contra hgt
    exact lt_irrefl T (hd.inside T (List.mem_range.mpr (not_le.mp hgt)))
  · intro hle
    refine ⟨fun j hj => (List.mem_range.mp hj).trans_le hle, fun j hv => ?_, fun j => ?_⟩
    · exact List.mem_range.mpr (hbooked.reserved c j hv).2
    · rw [Chunk.item_destroy]
      by_cases hlt : j < (s.chunks.chunk c).nextItem
      · rw [if_pos hlt]
        exact hbooked.unheld_destroy hc (hlt.trans_le hle) hlt
      · have hnone : (s.chunks.chunk c).value j = none := by
          by_contra hv
          exact hlt (hbooked.reserved c j hv).2
        rw [if_neg hlt, hnone]
        rfl

/-- A thread pushes two elements into chunks of one slot and removes the first one.  The second
push overflows the first chunk. -/
def overflowing : List (CrowdAction (Fin 1)) :=
  List.flatten [.push 0 :: .replicate 11 (.go 0), .push 0 :: .replicate 15 (.go 0),
    .remove 0 0 0 :: .replicate 5 (.go 0), [.drop 0 0, .drop 1 0]]

/-- Without threads in a call the chunk is held by the references that are kept. -/
theorem unheld_of_idle (h : s.Booked T) (hidle : ∀ i, s.place i = .idle)
    (hkept : ∀ j < T, s.kept c j = false) : s.Unheld c := by
  constructor
  · intro i
    rw [hidle i]
    exact id
  · intro j
    by_cases hj : j < T
    · exact hkept j hj
    · have hnone : (s.slot c j).value = none := by
        by_contra hv
        exact hj (h.reserved c j hv).1
      exact ((h.slots c j).blank hnone).2.2

/-- The second chunk is full, and its element is destroyed. -/
theorem destroys_own_iff_full :
    ∃ s : Crowd (Fin 1), (s.chunks.chunk 1).nextItem = 1 ∧ (s.chunks.chunk 1).DestroysOwn 1 := by
  have hrun : (exec (Crowd.step 1) Using overflowing (Crowd.initial (Fin 1))).map (fun s =>
      (s.place 0, s.kept 1 0, (s.chunks.chunk 1).nextItem)) = some (.idle, false, 1) := by
    decide +kernel
  obtain ⟨s, hs, hp⟩ := Option.map_eq_some_iff.mp hrun
  simp only [Prod.mk.injEq] at hp
  obtain ⟨hidle, hkept, hnext⟩ := hp
  have hreach := Reaches.refl.of_exec hs
  have hunheld : s.Unheld 1 := by
    apply unheld_of_idle (Booked.of_reaches hreach)
    · intro i
      rw [Subsingleton.elim i 0]
      exact hidle
    · intro j hj
      rw [Nat.lt_one_iff.mp hj]
      exact hkept
  exact ⟨s, hnext, (destroys_own_iff hreach hunheld).mpr hnext.le⟩

/-- The destructor of the first chunk visits a slot behind its only one. -/
theorem destroyed_out_of_bounds :
    ∃ s : Crowd (Fin 1), Reaches (Crowd.step 1) Using (Crowd.initial (Fin 1)) s ∧
      (∀ i, s.place i = .idle) ∧ s.Unheld 0 ∧ (s.chunks.chunk 0).deleted = true ∧
      (s.chunks.chunk 0).visits = [0, 1] ∧ ¬ (s.chunks.chunk 0).DestroysOwn 1 := by
  have hrun : (exec (Crowd.step 1) Using overflowing (Crowd.initial (Fin 1))).map (fun s =>
      (s.place 0, s.kept 0 0, (s.chunks.chunk 0).deleted, (s.chunks.chunk 0).visits)) =
        some (.idle, false, true, [0, 1]) := by
    decide +kernel
  obtain ⟨s, hs, hp⟩ := Option.map_eq_some_iff.mp hrun
  simp only [Prod.mk.injEq] at hp
  obtain ⟨hplace, hkept, hdeleted, hvisits⟩ := hp
  have hreach := Reaches.refl.of_exec hs
  have hidle : ∀ i, s.place i = .idle := by
    intro i
    rw [Subsingleton.elim i 0]
    exact hplace
  have hunheld : s.Unheld 0 := by
    apply unheld_of_idle (Booked.of_reaches hreach) hidle
    intro j hj
    rw [Nat.lt_one_iff.mp hj]
    exact hkept
  refine ⟨s, hreach, hidle, hunheld, hdeleted, hvisits, fun hd => ?_⟩
  have hlt := hd.inside 1 (by rw [hvisits]; decide)
  exact lt_irrefl 1 hlt

end Crowd

end RedGrapes.ChunkedList
