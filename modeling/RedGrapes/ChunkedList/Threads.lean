/-
RedGrapes/ChunkedList/Threads.lean

Every operation of `push` and `remove` keeps the invariant.

Most of them change one slot that the thread has the token of
(`Inv.setItem`).  The operations on the list of chunks are the others:
`fetch_add` gives a token to the thread that reserves a slot or overflows the
chunk, and only the head can still give one; the thread with the right to append
finds the head as it has loaded it, so that its exchange succeeds.
-/
import RedGrapes.ChunkedList.Invariant

namespace RedGrapes.ChunkedList

open Function Machine

section Update

variable {β : Type} {f : Nat → Nat → β} {c j c' j' : Nat} {v : β}

theorem update₂_self : update₂ f c j v c j = v := by
  unfold update₂
  rw [update_self, update_self]

theorem update₂_of_ne (h : (c', j') ≠ (c, j)) : update₂ f c j v c' j' = f c' j' := by
  unfold update₂
  rcases eq_or_ne c' c with rfl | hne
  · rw [update_self, update_of_ne]
    rintro rfl
    exact h rfl
  · rw [update_of_ne hne]

end Update

namespace Crowd

variable {ι : Type} [DecidableEq ι] {T : Nat} {s s' : Crowd ι} {l : List Nat} {i : ι} {p : Place}

omit [DecidableEq ι] in
theorem ref_le_one (x : Scan) (c j : Nat) : x.ref c j ≤ 1 := by
  unfold Scan.ref
  split
  · split <;> omega
  · split <;> omega
  · omega

omit [DecidableEq ι] in
/-- A chunk changes, but none of its slots. -/
theorem modify_slot {c₀ : Nat} {f : Chunk (ι × Nat) → Chunk (ι × Nat)}
    (hchunks : s'.chunks = s.chunks.modify c₀ f) (hvalue : ∀ b, (f b).value = b.value)
    (hitem : ∀ b, (f b).item = b.item) (hphase : s'.phase = s.phase) (hkept : s'.kept = s.kept)
    (hwrites : s'.writes = s.writes) (c j : Nat) : s'.slot c j = s.slot c j := by
  have hitem' : s'.chunks.item c j = s.chunks.item c j :=
    congrFun (Chunks.same_of_modify hchunks Chunk.item hitem c) j
  unfold slot
  rw [Chunks.same_of_modify hchunks Chunk.value hvalue, hitem', hphase, hkept, hwrites]

omit [DecidableEq ι] in
/-- Only the item of one slot changes in the chunks. -/
theorem setItem_slot {c₀ j₀ : Nat} {x : Item} (hchunks : s'.chunks = s.chunks.setItem c₀ j₀ x)
    (hphase : ∀ c j, (c, j) ≠ (c₀, j₀) → s'.phase c j = s.phase c j)
    (hkept : ∀ c j, (c, j) ≠ (c₀, j₀) → s'.kept c j = s.kept c j) (hwrites : s'.writes = s.writes) :
    SameLinks s s' ∧ (∀ c, (s'.chunks.chunk c).freedItems = (s.chunks.chunk c).freedItems) ∧
      (∀ c j, (c, j) ≠ (c₀, j₀) → s'.slot c j = s.slot c j) ∧
      s'.slot c₀ j₀ =
        ⟨(s.slot c₀ j₀).value, x, s'.phase c₀ j₀, s'.kept c₀ j₀, (s.slot c₀ j₀).writes⟩ := by
  refine ⟨⟨?_, ?_, Chunks.same_of_modify hchunks Chunk.nextItem fun _ => rfl,
    Chunks.same_of_modify hchunks Chunk.prev fun _ => rfl,
    Chunks.same_of_modify hchunks Chunk.deleted fun _ => rfl⟩,
    Chunks.same_of_modify hchunks Chunk.freedItems fun _ => rfl, ?_, ?_⟩
  · rw [hchunks]
    rfl
  · rw [hchunks]
    rfl
  · intro c j hne
    unfold slot
    rw [Chunks.same_of_modify hchunks Chunk.value fun _ => rfl, hphase c j hne,
      hkept c j hne, hwrites, hchunks, Chunks.item_setItem_of_ne hne]
  · unfold slot
    rw [Chunks.same_of_modify hchunks Chunk.value fun _ => rfl, hwrites, hchunks,
      Chunks.item_setItem_self]

/-- Thread `i` goes to the place `p` and changes an item. -/
theorem Inv.setItem (h : s.Inv T l) (c₀ j₀ : Nat) {q : Place} {x : Item} (hi : s.place i = q)
    (hgo : q.Follows p)
    (hplace : s'.place = update s.place i p) (hchunks : s'.chunks = s.chunks.setItem c₀ j₀ x)
    (hphase : ∀ c j, (c, j) ≠ (c₀, j₀) → s'.phase c j = s.phase c j)
    (hkept : ∀ c j, (c, j) ≠ (c₀, j₀) → s'.kept c j = s.kept c j) (hwrites : s'.writes = s.writes)
    (hscan : SameScan s s') (hcalls : s'.calls = s.calls)
    (hok : Slot.Ok ⟨(s.slot c₀ j₀).value, x, s'.phase c₀ j₀, s'.kept c₀ j₀, (s.slot c₀ j₀).writes⟩
      (s.scan.ref c₀ j₀))
    (hoff : x.iterOffset = (s.slot c₀ j₀).item.iterOffset ∨ (¬ (s.slot c₀ j₀).Removed ∧
      ∀ k < j₀, j₀ < k + x.iterOffset → (s.slot c₀ k).Removed))
    (hfreed : s'.phase c₀ j₀ = .freed ↔ s.phase c₀ j₀ = .freed)
    (hreturned : s.phase c₀ j₀ ≠ .new → s'.phase c₀ j₀ ≠ .new)
    (hfree : ∀ k ≠ i, .slot c₀ j₀ ∉ (s.place k).tokens)
    (htok : ∀ t ∈ p.tokens, t ∈ q.tokens ∨ t = .slot c₀ j₀ ∧ .slot c₀ j₀ ∉ q.tokens)
    (hp : Grows s s' l l → s'.PlaceOk T l i p) : s'.Inv T l := by
  obtain ⟨hlinks, hitems, hne, hself⟩ := setItem_slot hchunks hphase hkept hwrites
  refine h.setSlot c₀ j₀ hi hgo hplace hlinks hscan hcalls hne (by rw [hself])
    (by rw [hself]; exact hok) (by rw [hself]; exact hoff) hfreed.mpr hreturned ?_ hfree htok hp
  intro c
  rw [hitems, h.slots.freed c]
  refine List.countP_congr fun j _ => ?_
  rcases eq_or_ne (c, j) (c₀, j₀) with e | hcj
  · obtain ⟨rfl, rfl⟩ := Prod.mk.inj e
    rw [decide_eq_true_iff, decide_eq_true_iff]
    exact hfreed.symm
  · rw [hne c j hcj]

omit [DecidableEq ι] in
/-- The thread that has the token of a slot is the only one. -/
theorem Inv.only (h : s.Inv T l) {t : Token} (ht : t ∈ (s.place i).tokens) :
    ∀ k ≠ i, t ∉ (s.place k).tokens :=
  fun k hk hmem => hk (h.threads.unique k i t hmem ht)

/-- The state after an operation of thread `i`. -/
theorem go_fields {q : Place} {r : Crowd ι} (hi : s.place i = q) (ht : s.trans T i q = some (r, p))
    (hs : s.step T (.go i) = some s') :
    s'.place = update s.place i p ∧ s'.chunks = r.chunks ∧ s'.phase = r.phase ∧ s'.kept = r.kept ∧
      s'.writes = r.writes ∧ s'.calls = r.calls ∧ SameScan r s' := by
  rw [step, hi, ht] at hs
  obtain rfl := Option.some.inj hs
  exact ⟨rfl, rfl, rfl, rfl, rfl, rfl, rfl, rfl, rfl⟩

/-! ### The iterator that `push` returns -/

theorem Inv.acquire (h : s.Inv T l) {c j : Nat} {a : Acquire} (hi : s.place i = .acquire c j a)
    (hs : s.step T (.go i) = some s') : s'.Inv T l := by
  have hp := h.threads.ok i
  rw [hi] at hp
  obtain ⟨hv, hnew, hkept, hsafe⟩ := hp
  have hslot := h.slots.ok c j
  have hoff : (s.slot c j).item.iterOffset = 0 := hslot.present hv (.inl hnew)
  have hcount : (s.slot c j).item.refcount = (s.slot c j).kept.toNat + s.scan.ref c j := by
    have := hslot.count
    rw [hnew] at this
    simpa [Phase.dropped] using this
  have href := ref_le_one s.scan c j
  have hfree := h.only (i := i) (t := .slot c j) (by rw [hi]; simp [Place.tokens])
  have hgo : ∀ b, (Place.acquire c j a).Follows (.acquire c j b) :=
    fun b => ⟨rfl, by simp [Place.tokens], by simp [Place.searching], by simp⟩
  rw [step, hi, trans] at hs
  cases a with
  | loadOffset =>
      obtain rfl := Option.some.inj hs
      exact h.setItem c j hi (hgo _) rfl rfl (fun _ _ _ => rfl) (fun _ _ _ => rfl) rfl
        ⟨rfl, rfl, rfl⟩ rfl hslot (.inl rfl) Iff.rfl (fun e => e) hfree (fun t ht => .inl ht)
        fun g => ⟨g.present hv, hnew, hkept, hoff⟩
  | loadRefcount off =>
      obtain rfl : off = 0 := hsafe
      have hr : 0 ≤ (s.chunks.item c j).refcount := by
        show 0 ≤ (s.slot c j).item.refcount
        omega
      simp only [Acquire.step, hr, and_self, if_true] at hs
      obtain rfl := Option.some.inj hs
      exact h.setItem c j hi (hgo _) rfl rfl (fun _ _ _ => rfl) (fun _ _ _ => rfl) rfl
        ⟨rfl, rfl, rfl⟩ rfl hslot (.inl rfl) Iff.rfl (fun e => e) hfree (fun t ht => .inl ht)
        fun g => ⟨g.present hv, hnew, hkept, trivial⟩
  | fetchAdd =>
      obtain rfl := Option.some.inj hs
      -- besides the list only the scan can have a reference to a new element
      have hz : (s.slot c j).item.refcount = s.scan.ref c j := by
        rw [hkept] at hcount
        simpa [Acquire.holds] using hcount
      have hadd : (s.slot c j).item.fetchAdd.refcount = 1 + s.scan.ref c j := by
        show ((s.slot c j).item.refcount + 1).bmod wordSize = _
        rw [hz, ItemState.bmod_wordSize (by omega) (by omega)]
        omega
      have hself : (if Acquire.fetchAdd = .fetchAdd then update₂ s.kept c j true else s.kept) c j =
          true := by
        rw [if_pos rfl, update₂_self]
      refine h.setItem c j hi (hgo _) rfl rfl (fun _ _ _ => rfl) (fun c' j' hne => ?_) rfl
        ⟨rfl, rfl, rfl⟩ rfl ?_ (.inl rfl) Iff.rfl (fun e => e) hfree (fun t ht => .inl ht)
        fun g => ⟨g.present hv, hnew, hself, ?_⟩
      · show (if Acquire.fetchAdd = .fetchAdd then update₂ s.kept c j true else s.kept) c' j' = _
        rw [if_pos rfl, update₂_of_ne hne]
      · refine ⟨fun e => absurd e hv, hslot.written, hslot.present, hslot.gone, ?_⟩
        show (s.slot c j).item.fetchAdd.refcount = ((if Acquire.fetchAdd = .fetchAdd then
          update₂ s.kept c j true else s.kept) c j).toNat + _ - ((s.slot c j).phase.dropped : Int)
        rw [hself, hadd, hnew]
        simp [Phase.dropped]
      · show 0 ≤ (s.slot c j).item.refcount
        omega
  | reload old =>
      have hold : 0 ≤ old := hsafe
      have hoff' : (s.chunks.item c j).iterOffset = 0 := hoff
      simp only [Acquire.step, hold, hoff', and_self, if_true] at hs
      obtain rfl := Option.some.inj hs
      refine h.setItem (p := .idle) c j hi ⟨rfl, by simp [Place.tokens], by simp [Place.searching],
        by simp⟩ rfl rfl (fun c' j' hne => update₂_of_ne hne) (fun _ _ _ => rfl) rfl
        ⟨rfl, rfl, rfl⟩ rfl ?_ (.inl rfl) ?_ ?_ hfree (by simp [Place.tokens]) fun _ => trivial
      · refine ⟨fun e => absurd e hv, hslot.written, fun _ _ => hoff, ?_, ?_⟩
        · show update₂ s.phase c j .live c j = .released ∨ update₂ s.phase c j .live c j = .freed → _
          rw [update₂_self]
          simp
        · show (s.slot c j).item.refcount = (s.slot c j).kept.toNat + _ -
            ((update₂ s.phase c j .live c j).dropped : Int)
          rw [update₂_self, hcount]
          simp [Phase.dropped]
      · show update₂ s.phase c j .live c j = .freed ↔ (s.slot c j).phase = .freed
        rw [update₂_self, hnew]
        simp
      · show _ → update₂ s.phase c j .live c j ≠ .new
        rw [update₂_self]
        simp
  | undo off => exact absurd hsafe (by simp [Acquire.Safe])

/-! ### `remove` -/

omit [DecidableEq ι] in
/-- Nobody deals with a slot whose element is in the list or whose removal is
over. -/
theorem Inv.idle_slot (h : s.Inv T l) {c j : Nat}
    (hphase : (s.slot c j).phase = .live ∨ (s.slot c j).phase = .freed) (k : ι) :
    .slot c j ∉ (s.place k).tokens := by
  intro hk
  have hp := h.threads.ok k
  cases hplace : s.place k with
  | publish c' j' =>
      rw [hplace] at hp hk
      obtain ⟨rfl, rfl⟩ : c = c' ∧ j = j' := by simpa [Place.tokens] using hk
      have := ((h.slots.ok c j).blank hp.2.2.2.1).2.1
      rw [this] at hphase
      simp at hphase
  | acquire c' j' a | loadNeighbour c' j' | storeOffset c' j' off | release c' j' =>
      rw [hplace] at hp hk
      obtain ⟨rfl, rfl⟩ : c = c' ∧ j = j' := by simpa [Place.tokens] using hk
      rw [hp.2.1] at hphase
      simp at hphase
  | freed c' j' =>
      rw [hplace] at hp hk
      obtain ⟨rfl, rfl⟩ : c = c' ∧ j = j' := by simpa [Place.tokens] using hk
      rw [hp.2] at hphase
      simp at hphase
  | _ =>
      rw [hplace] at hk
      simp [Place.tokens] at hk

omit [DecidableEq ι] in
/-- A slot changes its phase only. -/
theorem phase_slot {c₀ j₀ : Nat} {ph : Phase} (hphase : s'.phase = update₂ s.phase c₀ j₀ ph)
    (hvalue : ∀ c, (s'.chunks.chunk c).value = (s.chunks.chunk c).value)
    (hitem : ∀ c j, s'.chunks.item c j = s.chunks.item c j) (hkept : s'.kept = s.kept)
    (hwrites : s'.writes = s.writes) :
    (∀ c j, (c, j) ≠ (c₀, j₀) → s'.slot c j = s.slot c j) ∧
      s'.slot c₀ j₀ = { s.slot c₀ j₀ with phase := ph } := by
  refine ⟨fun c j hne => ?_, ?_⟩
  · unfold slot
    rw [hvalue, hitem, hkept, hwrites, hphase, update₂_of_ne hne]
  · unfold slot
    rw [hvalue, hitem, hkept, hwrites, hphase, update₂_self]

theorem Inv.remove (h : s.Inv T l) {c j : Nat} (hs : s.step T (.remove i c j) = some s') :
    s'.Inv T l := by
  rw [step] at hs
  split_ifs at hs with hc
  obtain ⟨hi, hlive, hkept⟩ := hc
  obtain rfl := Option.some.inj hs
  have hlive' : (s.slot c j).phase = .live := hlive
  have hslot := h.slots.ok c j
  have hv : (s.slot c j).value ≠ none := by
    intro e
    rw [(hslot.blank e).2.1] at hlive'
    cases hlive'
  have hoff := hslot.present hv (.inr hlive)
  generalize hs' : ({ s with
    place := update s.place i (.loadNeighbour c j)
    phase := update₂ s.phase c j .removing } : Crowd ι) = s'
  have hchunks : s'.chunks = s.chunks := by rw [← hs']
  have hphase : s'.phase = update₂ s.phase c j .removing := by rw [← hs']
  have hkept' : s'.kept = s.kept := by rw [← hs']
  obtain ⟨hne, hself⟩ := phase_slot hphase (fun _ => by rw [hchunks]) (fun _ _ => by rw [hchunks])
    hkept' (by rw [← hs'])
  refine h.setSlot (p := .loadNeighbour c j) c j hi
    ⟨rfl, by simp [Place.tokens], by simp [Place.searching], by simp⟩ (by rw [← hs']) ?_ ?_
    (by rw [← hs']) hne (by rw [hself]) ?_ (.inl (by rw [hself])) ?_ ?_ ?_
    (fun k _ => h.idle_slot (.inl hlive') k) ?_ ?_
  · rw [← hs']
    exact ⟨rfl, rfl, fun _ => rfl, fun _ => rfl, fun _ => rfl⟩
  · rw [← hs']
    exact ⟨rfl, rfl, rfl⟩
  · rw [hself]
    refine ⟨fun e => absurd e hv, hslot.written, fun _ _ => hoff, by simp, ?_⟩
    have := hslot.count
    rw [hlive'] at this
    exact this
  · rw [hlive']
    simp
  · rw [hself]
    simp
  · intro c'
    rw [hchunks, h.slots.freed c']
    refine List.countP_congr fun j' _ => ?_
    rcases eq_or_ne (c', j') (c, j) with e | hcj
    · obtain ⟨rfl, rfl⟩ := Prod.mk.inj e
      rw [hself, hlive']
      simp
    · rw [hne c' j' hcj]
  · intro t ht
    exact .inr ⟨by simpa [Place.tokens] using ht, by simp [Place.tokens]⟩
  · intro g
    refine ⟨g.present hv, ?_, ?_, ?_⟩
    · rw [hself]
    · rw [hself]
      exact hoff
    · rw [hself]
      exact hkept

/-- The distance that `remove` is about to write. -/
theorem Inv.loadNeighbour (h : s.Inv T l) {c j : Nat} (hi : s.place i = .loadNeighbour c j)
    (hcare : s.CarefulAt (.loadNeighbour c j)) (hs : s.step T (.go i) = some s') : s'.Inv T l := by
  have hp := h.threads.ok i
  rw [hi] at hp
  obtain ⟨hv, hphase, hoff, hkept⟩ := hp
  obtain ⟨hneighbour, hword⟩ := hcare
  rw [step, hi] at hs
  obtain rfl := Option.some.inj hs
  refine h.goto hi ⟨rfl, by simp [Place.tokens], by simp [Place.searching], by simp⟩
    (fun t ht => ht) ⟨hv, hphase, hoff, hkept, hword, fun k hk hlt => ?_⟩
  -- the neighbour was removed, and its distance leads over removed slots
  unfold Chunks.removalOffset at hlt
  rw [if_neg (by omega)] at hlt
  have hle := Nat.mod_le ((s.chunks.item c (j - 1)).iterOffset + 1) wordSize
  have hvalue := hneighbour (by omega)
  have hrem : (s.slot c (j - 1)).Removed := by
    refine ⟨fun e => ?_, fun e => ?_⟩
    · have hnone : (s.chunks.chunk c).value (j - 1) = none := e
      rw [hnone] at hvalue
      cases hvalue
    · have hzero : (s.chunks.item c (j - 1)).iterOffset = 0 := e
      rw [hzero] at hle hlt
      omega
  refine h.slots.skips c (j - 1) hrem k (by omega) ?_
  show j - 1 < k + (s.chunks.item c (j - 1)).iterOffset
  omega

theorem Inv.storeOffset (h : s.Inv T l) {c j off : Nat} (hi : s.place i = .storeOffset c j off)
    (hs : s.step T (.go i) = some s') : s'.Inv T l := by
  have hp := h.threads.ok i
  rw [hi] at hp
  obtain ⟨hv, hphase, hoff, hkept, hne, hskips⟩ := hp
  have hslot := h.slots.ok c j
  have hfree := h.only (i := i) (t := .slot c j) (by rw [hi]; simp [Place.tokens])
  rw [step, hi] at hs
  obtain rfl := Option.some.inj hs
  refine h.setItem (p := .release c j) (x := (s.chunks.item c j).setOffset off) c j hi
    ⟨rfl, by simp [Place.tokens], by simp [Place.searching], by simp⟩ rfl rfl (fun _ _ _ => rfl)
    (fun _ _ _ => rfl) rfl ⟨rfl, rfl, rfl⟩ rfl ?_ (.inr ⟨fun hr => hr.2 hoff, hskips⟩) Iff.rfl
    (fun e => e) hfree (fun t ht => .inl ht) ?_
  · refine ⟨fun e => absurd e hv, hslot.written, fun _ e => ?_, fun _ => hne, hslot.count⟩
    have hphase' : s.phase c j = .removing := hphase
    rw [hphase'] at e
    simp at e
  · intro g
    refine ⟨⟨g.present hv, ?_⟩, hphase, hkept⟩
    show ((s.chunks.setItem c j _).item c j).iterOffset ≠ 0
    rw [Chunks.item_setItem_self]
    exact hne

theorem Inv.release (h : s.Inv T l) {c j : Nat} (hi : s.place i = .release c j)
    (hs : s.step T (.go i) = some s') : s'.Inv T l := by
  have hp := h.threads.ok i
  rw [hi] at hp
  obtain ⟨hrem, hphase, hkept⟩ := hp
  have hslot := h.slots.ok c j
  have hfree := h.only (i := i) (t := .slot c j) (by rw [hi]; simp [Place.tokens])
  have href := ref_le_one s.scan c j
  have hcount : (s.chunks.item c j).refcount = 1 + s.scan.ref c j := by
    have : (s.chunks.item c j).refcount = _ := hslot.count
    rw [hphase, hkept] at this
    rw [this]
    simp [Phase.dropped]
  have hthrow : (s.chunks.item c j).releaseThrows = false := by
    rw [Item.releaseThrows, decide_eq_false_iff_not]
    omega
  have hsub : (s.chunks.item c j).release.refcount = s.scan.ref c j := by
    show ((s.chunks.item c j).refcount - 1).bmod wordSize = _
    rw [hcount, ItemState.bmod_wordSize (by omega) (by omega)]
    omega
  rw [step, hi] at hs
  simp only [trans, hthrow] at hs
  obtain rfl := Option.some.inj hs
  refine h.setItem (p := .freed c j) (x := (s.chunks.item c j).release) c j hi
    ⟨rfl, by simp [Place.tokens], by simp [Place.searching], by simp⟩ rfl rfl
    (fun _ _ hne => update₂_of_ne hne) (fun _ _ _ => rfl) rfl ⟨rfl, rfl, rfl⟩ rfl ?_ (.inl rfl) ?_ ?_
    hfree (fun t ht => .inl ht) ?_
  · refine ⟨fun e => absurd e hrem.1, hslot.written, fun _ => ?_, fun _ => hrem.2, ?_⟩
    · show update₂ s.phase c j .released c j = .new ∨ update₂ s.phase c j .released c j = .live → _
      rw [update₂_self]
      simp
    · show (s.chunks.item c j).release.refcount = (s.slot c j).kept.toNat + _ -
        ((update₂ s.phase c j .released c j).dropped : Int)
      rw [update₂_self, hsub, hkept]
      simp [Phase.dropped]
  · show update₂ s.phase c j .released c j = .freed ↔ (s.slot c j).phase = .freed
    rw [update₂_self, hphase]
    simp
  · show _ → update₂ s.phase c j .released c j ≠ .new
    rw [update₂_self]
    simp
  · intro g
    exact ⟨g.present hrem.1, update₂_self⟩

theorem Inv.freed (h : s.Inv T l) {c j : Nat} (hi : s.place i = .freed c j)
    (hs : s.step T (.go i) = some s') : s'.Inv T l := by
  have hp := h.threads.ok i
  rw [hi] at hp
  obtain ⟨hv, hphase⟩ := hp
  have hslot := h.slots.ok c j
  have hj : j < T := (h.slots.reserved c j hv).2.1
  have hfree := h.only (i := i) (t := .slot c j) (by rw [hi]; simp [Place.tokens])
  obtain ⟨hplace, hchunks, hphases, hkept, hwrites, hcalls, hscan⟩ := go_fields hi rfl hs
  generalize hp : (if (s.chunks.chunk c).freedItems = T - 1 then Place.flag c else .idle) = p
    at hplace
  replace hchunks : s'.chunks =
    s.chunks.modify c fun b => { b with freedItems := b.freedItems + 1 } := hchunks
  replace hphases : s'.phase = update₂ s.phase c j .freed := hphases
  obtain ⟨hne, hself⟩ := phase_slot hphases (Chunks.same_of_modify hchunks Chunk.value fun _ => rfl)
    (fun c' j' => congrFun (Chunks.same_of_modify hchunks Chunk.item (fun _ => rfl) c') j')
    hkept hwrites
  have hcount : ∀ c', (s'.chunks.chunk c').freedItems =
        (List.range T).countP fun j' => decide ((s'.slot c' j').phase = .freed) := by
    intro c'
    rcases eq_or_ne c' c with rfl | hc
    · have hbal := countP_range_congr (n := T) (k := j)
        (p := fun j' => decide ((s'.slot c' j').phase = .freed))
        (q := fun j' => decide ((s.slot c' j').phase = .freed)) hj fun j' hj' => by
          rw [hne c' j' fun e => hj' (Prod.mk.inj e).2]
      rw [hself, hphase, ← h.slots.freed c'] at hbal
      rw [hchunks, Chunks.modify_chunk_self]
      simpa using hbal.symm
    · rw [hchunks, Chunks.modify_chunk_of_ne hc, h.slots.freed c']
      refine List.countP_congr fun j' _ => ?_
      rw [hne c' j' fun e => hc (Prod.mk.inj e).1]
  have hfollows : (Place.freed c j).Follows p ∧ p.tokens = [] := by
    rw [← hp]
    split
    · exact ⟨⟨rfl, by simp [Place.tokens], by simp [Place.searching], by simp⟩, rfl⟩
    · exact ⟨⟨rfl, by simp [Place.tokens], by simp [Place.searching], by simp⟩, rfl⟩
  refine h.setSlot c j hi hfollows.1 hplace ⟨by rw [hchunks]; rfl, by rw [hchunks]; rfl,
    Chunks.same_of_modify hchunks Chunk.nextItem fun _ => rfl,
    Chunks.same_of_modify hchunks Chunk.prev fun _ => rfl,
    Chunks.same_of_modify hchunks Chunk.deleted fun _ => rfl⟩
    ⟨hscan.scan, hscan.before, hscan.visited⟩ hcalls hne
    (by rw [hself]) ?_ (.inl (by rw [hself])) (fun _ => by rw [hself]) ?_ hcount hfree ?_ ?_
  · rw [hself]
    refine ⟨fun e => absurd e hv, hslot.written, by simp, fun _ => hslot.gone (.inl hphase), ?_⟩
    have := hslot.count
    rw [hphase] at this
    exact this
  · rw [hself]
    simp
  · rw [hfollows.2]
    simp
  · intro g
    rw [← hp]
    split
    · -- the count is the number of slots, so that all of them are freed
      rename_i hlast
      have hT : (List.range T).countP (fun j' => decide ((s'.slot c j').phase = .freed)) =
          (List.range T).length := by
        rw [← hcount c, List.length_range, hchunks, Chunks.modify_chunk_self]
        show (s.chunks.chunk c).freedItems + 1 = T
        omega
      intro j' hj'
      have := List.countP_eq_length.mp hT j' (List.mem_range.mpr hj')
      simpa using this
    · trivial

theorem Inv.flag (h : s.Inv T l) {c : Nat} (hi : s.place i = .flag c)
    (hs : s.step T (.go i) = some s') : s'.Inv T l := by
  have hp := h.threads.ok i
  rw [hi] at hp
  obtain ⟨hplace, hchunks, hphase, hkept, hwrites, hcalls, hscan⟩ := go_fields hi rfl hs
  replace hchunks : s'.chunks = s.chunks.modify c fun b => { b with deleted := true } := hchunks
  have hslot : ∀ c' j, s'.slot c' j = s.slot c' j :=
    modify_slot hchunks (fun _ => rfl) (fun _ => rfl) hphase hkept hwrites
  have hhead : s'.chunks.head = s.chunks.head := by
    rw [hchunks]
    rfl
  have hdel : ∀ c', s'.deleted c' = (s.deleted c' || decide (c' = c)) := by
    intro c'
    unfold Crowd.deleted
    rw [hchunks]
    rcases eq_or_ne c' c with rfl | hne
    · rw [Chunks.modify_chunk_self]
      simp
    · rw [Chunks.modify_chunk_of_ne hne]
      simp [hne]
  have hfresh : s'.chunks.fresh = s.chunks.fresh := by
    rw [hchunks]
    rfl
  have hnext : ∀ c', s'.next c' = s.next c' :=
    Chunks.same_of_modify hchunks Chunk.nextItem fun _ => rfl
  have g : Grows s s' l l := by
    refine .of_slots hfresh.ge (fun c' _ => (hnext c').ge) hslot fun c' _ hd => ?_
    rw [hdel, hd, Bool.true_or]
  have hprev : ∀ c', (s'.chunks.chunk c').prev = (s.chunks.chunk c').prev :=
    Chunks.same_of_modify hchunks Chunk.prev fun _ => rfl
  exact {
    chain := h.chain.mono g hhead fun c' _ => .inl (hprev c')
    slots := by
      refine h.slots.links g hslot hscan.scan
        (Chunks.same_of_modify hchunks Chunk.freedItems fun _ => rfl) fun c' hd => ?_
      rw [hdel, Bool.or_eq_true, decide_eq_true_iff] at hd
      rcases hd with hd | rfl
      · exact .inl hd
      · exact .inr hp
    elements := by
      refine h.elements.congr (fun c' j => by rw [hslot]) hcalls fun k => ?_
      rw [place_update hplace]
      split
      · rename_i e
        rw [e, hi]
        rfl
      · rfl
    threads := by
      refine h.threads.goto g hplace ?_ ?_ ?_ ?_ trivial hhead hnext (fun c' j => by rw [hslot])
        (fun _ _ n _ => hprev n) fun _ _ c' j _ => by rw [hslot]
      · rw [hi]
        simp [Place.tokens]
      · rw [hi]
        simp [Place.searching]
      · rw [hi]
        simp
      · simp [Place.tokens]
    walk := g.walk hscan.scan hscan.before hscan.visited h.walk }

/-! ### `push` up to its slot -/

/-- A push begins. -/
theorem Inv.push (h : s.Inv T l) (hs : s.step T (.push i) = some s') : s'.Inv T l := by
  rw [step] at hs
  split_ifs at hs with hi
  obtain rfl := Option.some.inj hs
  generalize hs' : ({ s with
    place := update s.place i .loadHead
    calls := update s.calls i (s.calls i + 1) } : Crowd ι) = s'
  have hslot : ∀ c j, s'.slot c j = s.slot c j := by
    intro c j
    rw [← hs']
    rfl
  have hplace : s'.place = update s.place i .loadHead := by rw [← hs']
  have hlinks : SameLinks s s' := by
    rw [← hs']
    exact ⟨rfl, rfl, fun _ => rfl, fun _ => rfl, fun _ => rfl⟩
  have hscan : SameScan s s' := by
    rw [← hs']
    exact ⟨rfl, rfl, rfl⟩
  have hcalls : ∀ k, s'.calls k = s.calls k + if k = i then 1 else 0 := by
    intro k
    rw [← hs']
    show update s.calls i (s.calls i + 1) k = _
    rcases eq_or_ne k i with rfl | hne
    · rw [update_self, if_pos rfl]
    · rw [update_of_ne hne, if_neg hne]
      rfl
  have hunpub : ∀ k, (s'.place k).unpublished = (s.place k).unpublished + if k = i then 1 else 0 := by
    intro k
    rw [place_update hplace]
    split
    · rename_i e
      rw [e, hi]
      rfl
    · rfl
  have g : Grows s s' l l := Grows.of_same hlinks hslot
  -- the push has no element yet, so that only its call is counted
  have helements : s'.Elements := {
    order := by
      intro _ _ _ _ _ _ _ h₁ h₂ hb
      rw [hslot] at h₁ h₂
      exact h.elements.order h₁ h₂ hb
    bounded := by
      intro c j k m h₁
      rw [hslot] at h₁
      have := h.elements.bounded h₁
      rw [hunpub, hcalls]
      omega
    complete := by
      intro k m hm
      rw [hunpub, hcalls] at hm
      obtain ⟨c, j, hv⟩ := h.elements.complete k m (by omega)
      exact ⟨c, j, by rw [hslot]; exact hv⟩
    begun := by
      intro k
      have := h.elements.begun k
      rw [hunpub, hcalls]
      omega }
  exact {
    chain := h.chain.mono g hlinks.head fun c _ => .inl (hlinks.prev c)
    slots := h.slots.links g hslot hscan.scan (fun c => by rw [← hs'])
      fun c hd => .inl ((hlinks.deleted c).symm.trans hd)
    elements := helements
    threads := by
      refine h.threads.goto g hplace ?_ ?_ ?_ ?_ trivial hlinks.head hlinks.next
        (fun c j => by rw [hslot]) (fun _ _ n _ => hlinks.prev n) fun _ _ c j _ => by rw [hslot]
      · rw [hi]
        simp [Place.tokens]
      · rw [hi]
        simp [Place.searching]
      · rw [hi]
        simp
      · simp [Place.tokens]
    walk := g.walk hscan.scan hscan.before hscan.visited h.walk }

theorem Inv.loadHead (h : s.Inv T l) (hi : s.place i = .loadHead)
    (hs : s.step T (.go i) = some s') : s'.Inv T l := by
  rw [step, hi, trans] at hs
  cases hhead : s.chunks.head with
  | none =>
      rw [hhead] at hs
      obtain rfl := Option.some.inj hs
      exact h.goto hi ⟨rfl, by simp [Place.tokens], by simp [Place.searching], by simp⟩
        (by simp [Place.tokens]) trivial
  | some c =>
      rw [hhead] at hs
      obtain rfl := Option.some.inj hs
      refine h.goto hi ⟨rfl, by simp [Place.tokens], by simp [Place.searching], by simp⟩
        (by simp [Place.tokens]) ?_
      have := h.chain.head
      rw [hhead] at this
      exact List.mem_of_head? this.symm

theorem Inv.loadNext (h : s.Inv T l) {c : Nat} (hi : s.place i = .loadNext c)
    (hs : s.step T (.go i) = some s') : s'.Inv T l := by
  have hp := h.threads.ok i
  rw [hi] at hp
  rw [step, hi, trans] at hs
  split at hs
  · obtain rfl := Option.some.inj hs
    exact h.goto hi ⟨rfl, by simp [Place.tokens], by simp [Place.searching], by simp⟩
      (by simp [Place.tokens]) hp
  · obtain rfl := Option.some.inj hs
    exact h.goto hi ⟨rfl, by simp [Place.tokens], by simp [Place.searching], by simp⟩
      (by simp [Place.tokens]) trivial

/-! ### Slots and chunks -/

omit [DecidableEq ι] in
/-- A slot that somebody deals with is reserved. -/
theorem Inv.reserved_of_token (h : s.Inv T l) {k : ι} {c j : Nat}
    (hk : .slot c j ∈ (s.place k).tokens) : c ∈ l ∧ j < T ∧ j < s.next c := by
  have hp := h.threads.ok k
  cases hplace : s.place k with
  | publish c' j' =>
      rw [hplace] at hp hk
      obtain ⟨rfl, rfl⟩ : c = c' ∧ j = j' := by simpa [Place.tokens] using hk
      exact ⟨hp.1, hp.2.1, hp.2.2.1⟩
  | acquire c' j' a | loadNeighbour c' j' | storeOffset c' j' off | freed c' j' =>
      rw [hplace] at hp hk
      obtain ⟨rfl, rfl⟩ : c = c' ∧ j = j' := by simpa [Place.tokens] using hk
      exact h.slots.reserved c j hp.1
  | release c' j' =>
      rw [hplace] at hp hk
      obtain ⟨rfl, rfl⟩ : c = c' ∧ j = j' := by simpa [Place.tokens] using hk
      exact h.slots.reserved c j hp.1.1
  | _ =>
      rw [hplace] at hk
      simp [Place.tokens] at hk

omit [DecidableEq ι] in
/-- A chunk that somebody is about to link is new. -/
theorem Inv.new_of_token (h : s.Inv T l) {k : ι} {n : Nat} (hk : .chunk n ∈ (s.place k).tokens) :
    n < s.chunks.fresh ∧ n ∉ l ∧ s.next n = 0 := by
  have hp := h.threads.ok k
  have happends : s.Appends T l n → n < s.chunks.fresh ∧ n ∉ l ∧ s.next n = 0 :=
    fun ha => ⟨ha.2.1, fun hn => lt_irrefl n (ha.2.2.2 n hn), ha.2.2.1⟩
  cases hplace : s.place k with
  | loadOld n' =>
      rw [hplace] at hp hk
      obtain rfl : n = n' := by simpa [Place.tokens] using hk
      exact happends hp
  | storePrev n' old | casHead n' old =>
      rw [hplace] at hp hk
      obtain rfl : n = n' := by simpa [Place.tokens] using hk
      exact happends hp.1
  | casFirst n' =>
      rw [hplace] at hp hk
      obtain rfl : n = n' := by simpa [Place.tokens] using hk
      exact ⟨hp.1, hp.2.1, hp.2.2.1⟩
  | _ =>
      rw [hplace] at hk
      simp [Place.tokens] at hk

omit [DecidableEq ι] in
/-- Whoever may append finds the head overflowed. -/
theorem Inv.overflowed_of_token (h : s.Inv T l) {k : ι} (hk : .append ∈ (s.place k).tokens) :
    ∃ c ∈ l, s.chunks.head = some c ∧ T < s.next c := by
  have hp := h.threads.ok k
  cases hplace : s.place k with
  | allocate =>
      rw [hplace] at hp
      exact hp
  | loadOld n =>
      rw [hplace] at hp
      exact hp.1
  | storePrev n old | casHead n old =>
      rw [hplace] at hp
      exact hp.1.1
  | _ =>
      rw [hplace] at hk
      simp [Place.tokens] at hk

omit [DecidableEq ι] in
/-- The head is the newest chunk. -/
theorem Inv.le_head (h : s.Inv T l) {c b : Nat} (hc : s.chunks.head = some c) (hb : b ∈ l) :
    b ≤ c := by
  have hhead := h.chain.head
  rw [hc] at hhead
  cases l with
  | nil => cases hb
  | cons a l =>
      obtain rfl : c = a := Option.some.inj hhead
      rcases List.mem_cons.mp hb with rfl | hb
      · exact le_rfl
      · exact ((List.pairwise_cons.mp h.chain.sorted).1 b hb).le

/-- A chunk has its next slot reserved, or is overflowed. -/
theorem Inv.fetchAdd (h : s.Inv T l) {c : Nat} (hi : s.place i = .fetchAdd c)
    (hs : s.step T (.go i) = some s') : s'.Inv T l := by
  have hc := h.threads.ok i
  rw [hi] at hc
  obtain ⟨hplace, hchunks, hphase, hkept, hwrites, hcalls, hscan⟩ := go_fields hi rfl hs
  replace hchunks : s'.chunks =
    s.chunks.modify c fun b => { b with nextItem := b.nextItem + 1 } := hchunks
  have hslot : ∀ c' j, s'.slot c' j = s.slot c' j :=
    modify_slot hchunks (fun _ => rfl) (fun _ => rfl) hphase hkept hwrites
  have hhead : s'.chunks.head = s.chunks.head := by
    rw [hchunks]
    rfl
  have hnext : ∀ c', s'.next c' = s.next c' + if c' = c then 1 else 0 := by
    intro c'
    unfold Crowd.next
    rw [hchunks]
    rcases eq_or_ne c' c with rfl | hne
    · rw [Chunks.modify_chunk_self, if_pos rfl]
    · rw [Chunks.modify_chunk_of_ne hne, if_neg hne]
      rfl
  have g : Grows s s' l l := by
    refine .of_slots (by rw [hchunks]; exact le_rfl) (fun c' _ => ?_) hslot
      fun c' _ hd => (Chunks.same_of_modify hchunks Chunk.deleted (fun _ => rfl) c').trans hd
    rw [hnext]
    omega
  generalize hp : (if (s.chunks.chunk c).nextItem < T then Place.publish c (s.chunks.chunk c).nextItem
    else if (s.chunks.chunk c).nextItem = T then .allocate else .loadHead) = p at hplace
  refine ⟨h.chain.mono g hhead fun c' _ =>
      .inl (Chunks.same_of_modify hchunks Chunk.prev (fun _ => rfl) c'),
    h.slots.links g hslot hscan.scan (Chunks.same_of_modify hchunks Chunk.freedItems fun _ => rfl)
      fun c' hd =>
        .inl ((Chunks.same_of_modify hchunks Chunk.deleted (fun _ => rfl) c').symm.trans hd),
    h.elements.congr (fun c' j => by rw [hslot]) hcalls ?_, ?_,
    g.walk hscan.scan hscan.before hscan.visited h.walk⟩
  · intro k
    rw [place_update hplace]
    split
    · rename_i e
      rw [e, hi, ← hp]
      split
      · rfl
      · split <;> rfl
    · rfl
  have hhead_of : s.next c ≤ T → s.chunks.head = some c := by
    intro hle
    by_contra hne
    have := h.chain.full c hc hne
    omega
  -- nobody else is about to write to a slot, so that thread `i` is not needed for it
  have hunwritten : ∀ c' ∈ l, ∀ j < T, j < s.next c' → (s'.slot c' j).value = none →
      ∃ k, s'.place k = .publish c' j := by
    intro c' hc' j hj hlt hnone
    rw [hslot] at hnone
    obtain ⟨k, hk⟩ := h.threads.unwritten c' hc' j hj hlt hnone
    refine ⟨k, ?_⟩
    rw [place_update hplace, if_neg, hk]
    rintro rfl
    rw [hi] at hk
    cases hk
  refine h.threads.step g hplace ?_ ?_ (fun _ _ c' j _ => by rw [hslot])
    (fun k _ n hn => ⟨?_, Chunks.same_of_modify hchunks Chunk.prev (fun _ => rfl) n, fun e => e⟩)
    (fun _ _ _ => ⟨hhead, rfl⟩) (fun k _ c' j m hv => by rwa [hslot] at hv) ?_ ?_ ?_
  · intro t ht
    refine .inr fun k hk => ?_
    rw [← hp] at ht
    split at ht
    · obtain rfl : t = .slot c (s.next c) := by simpa [Place.tokens, next] using ht
      exact lt_irrefl _ (h.reserved_of_token hk).2.2
    · split at ht
      · rename_i _ hT
        obtain rfl : t = .append := by simpa [Place.tokens] using ht
        obtain ⟨c', -, hc', hlt⟩ := h.overflowed_of_token hk
        have hcc : s.chunks.head = some c := hhead_of hT.le
        rw [hcc] at hc'
        obtain rfl := Option.some.inj hc'
        have hT' : s.next c = T := hT
        omega
      · simp [Place.tokens] at ht
  · rw [← hp]
    split
    · rename_i hlt
      have hcc : s.chunks.head = some c := hhead_of (le_of_lt hlt)
      have hblank : (s.slot c (s.next c)).value = none := by
        by_contra hv
        exact lt_irrefl _ (h.slots.reserved _ _ hv).2.2
      refine ⟨hc, hlt, ?_, ?_, fun c' j' m hv => ?_⟩
      · rw [hnext, if_pos rfl]
        exact Nat.lt_succ_self _
      · rw [hslot]
        exact hblank
      · rw [hslot] at hv
        obtain ⟨hc', -, hj'⟩ := h.slots.reserved c' j' (by rw [hv]; simp)
        rcases Nat.eq_or_lt_of_le (h.le_head hcc hc') with rfl | hlt'
        · exact .inr ⟨rfl, hj'⟩
        · exact .inl hlt'
    · split
      · rename_i _ hT
        refine ⟨c, hc, hhead.trans (hhead_of hT.le), ?_⟩
        rw [hnext, if_pos rfl]
        have hT' : s.next c = T := hT
        omega
      · trivial
  · rw [hnext, if_neg]
    rfl
    rintro rfl
    exact (h.new_of_token hn).2.1 hc
  · intro c' hc' hlt
    rw [hhead] at hc'
    rcases Nat.lt_or_ge T (s.next c') with hover | hle
    · obtain ⟨k, hk⟩ := h.threads.appended c' hc' hover
      refine ⟨k, ?_⟩
      rw [place_update hplace, if_neg]
      · exact hk
      · rintro rfl
        rw [hi] at hk
        simp [Place.tokens] at hk
    · -- the chunk is overflowed by this very step
      rw [hnext] at hlt
      split at hlt
      · rename_i e
        subst e
        have hT : (s.chunks.chunk c').nextItem = T := by
          show s.next c' = T
          omega
        refine ⟨i, ?_⟩
        rw [place_update hplace, if_pos rfl, ← hp, if_neg (by omega), if_pos hT]
        simp [Place.tokens]
      · omega
  · intro c' hc' hz
    rw [hhead] at hc'
    rw [hnext] at hz
    split at hz
    · omega
    · obtain ⟨k, hk⟩ := h.threads.searched c' hc' (by omega)
      rename_i hne
      -- the chunk is the head and `c` is not, so that the thread has to look again
      refine ⟨k, ?_⟩
      rw [place_update hplace]
      split
      · have hover := h.chain.full c hc (by rw [hc']; simp [hne])
        have hover' : T < (s.chunks.chunk c).nextItem := hover
        rw [← hp, if_neg (by omega), if_neg (by omega)]
        rfl
      · exact hk
  · intro c' hc' j hj hlt hnone
    rcases Nat.lt_or_ge j (s.next c') with hlt' | hge
    · exact hunwritten c' hc' j hj hlt' hnone
    · rw [hnext] at hlt
      split at hlt
      · rename_i e
        subst e
        obtain rfl : j = s.next c' := by omega
        refine ⟨i, ?_⟩
        have hj' : (s.chunks.chunk c').nextItem < T := hj
        rw [place_update hplace, if_pos rfl, ← hp, if_pos hj']
        rfl
      · omega

end Crowd

end RedGrapes.ChunkedList
