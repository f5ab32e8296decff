/-
RedGrapes/ChunkedList/Append.lean

Publishing a slot and appending a chunk keep the invariant, and with them every
operation of a thread.

A chunk that is not linked yet belongs to the thread that allocated it, so that
nothing the others rely on is in it (`Inv.offList`).  It is linked when the head is
overflowed, or when there is none (`Inv.link`).  The exchange of `append_item`
never fails: only the thread that overflowed the head may replace it.
-/
import RedGrapes.ChunkedList.Threads

namespace RedGrapes.ChunkedList

open Function Machine

/-- Nothing has happened to a slot that is not published. -/
theorem Slot.Ok.eq_init {ι : Type} {d : Slot ι} (h : d.Ok 0) (hv : d.value = none) :
    d = ⟨none, Item.init, .new, false, 0⟩ := by
  obtain ⟨hoff, hphase, hkept, hwrites, hdestroyed⟩ := h.blank hv
  have hcount := h.count
  rw [hphase, hkept] at hcount
  obtain ⟨value, ⟨off, count, destroyed⟩, phase, kept, writes⟩ := d
  obtain rfl : value = none := hv
  obtain rfl : off = 1 := hoff
  obtain rfl : count = 0 := hcount
  obtain rfl : destroyed = 0 := hdestroyed
  obtain rfl : phase = .new := hphase
  obtain rfl : kept = false := hkept
  obtain rfl : writes = 0 := hwrites
  rfl

namespace Crowd

variable {ι : Type} [DecidableEq ι] {T : Nat} {s s' : Crowd ι} {l : List Nat} {i : ι} {p : Place}

/-! ### Publication -/

omit [DecidableEq ι] in
/-- One slot gets its element. -/
theorem assign_slot {c₀ j₀ : Nat} {v : ι × Nat}
    (hchunks : s'.chunks = s.chunks.modify c₀ fun b => b.assign j₀ v) (hphase : s'.phase = s.phase)
    (hkept : s'.kept = s.kept) (hwrites : s'.writes = update₂ s.writes c₀ j₀ (s.writes c₀ j₀ + 1)) :
    (∀ c j, (c, j) ≠ (c₀, j₀) → s'.slot c j = s.slot c j) ∧
      s'.slot c₀ j₀ = ⟨some v, (s.slot c₀ j₀).item.assign, (s.slot c₀ j₀).phase,
        (s.slot c₀ j₀).kept, (s.slot c₀ j₀).writes + 1⟩ := by
  have hself : s'.chunks.chunk c₀ = (s.chunks.chunk c₀).assign j₀ v := by
    rw [hchunks, Chunks.modify_chunk_self]
  refine ⟨fun c j hne => ?_, ?_⟩
  · have hchunk : (s'.chunks.chunk c).value j = (s.chunks.chunk c).value j ∧
        (s'.chunks.chunk c).item j = (s.chunks.chunk c).item j := by
      rcases eq_or_ne c c₀ with rfl | hc
      · have hj : j ≠ j₀ := fun e => hne (by rw [e])
        rw [hself]
        exact ⟨update_of_ne hj _ _, update_of_ne hj _ _⟩
      · rw [hchunks, Chunks.modify_chunk_of_ne hc]
        exact ⟨rfl, rfl⟩
    have hitem : s'.chunks.item c j = s.chunks.item c j := hchunk.2
    unfold slot
    rw [hchunk.1, hitem, hphase, hkept, hwrites, update₂_of_ne hne]
  · have hvalue : (s'.chunks.chunk c₀).value j₀ = some v := by
      rw [hself]
      exact update_self _ _ _
    have hitem : s'.chunks.item c₀ j₀ = (s.chunks.item c₀ j₀).assign := by
      show (s'.chunks.chunk c₀).item j₀ = _
      rw [hself]
      exact update_self _ _ _
    unfold slot
    rw [hvalue, hitem, hphase, hkept, hwrites, update₂_self]

omit [DecidableEq ι] in
/-- The element of thread `i` that is published is its newest one. -/
theorem Elements.publish (h : s.Elements) {c j : Nat}
    (hold : ∀ c' j' k, (s.slot c' j').value = some (i, k) → Before c' j' c j)
    (hpub : (s.place i).unpublished = 1)
    (hne : ∀ c' j', (c', j') ≠ (c, j) → s'.slot c' j' = s.slot c' j')
    (hself : (s'.slot c j).value = some (i, s.calls i - 1)) (hnone : (s.slot c j).value = none)
    (hcalls : s'.calls = s.calls) (hi : (s'.place i).unpublished = 0)
    (hothers : ∀ k ≠ i, (s'.place k).unpublished = (s.place k).unpublished) : s'.Elements := by
  have hbegun := h.begun i
  -- the only new element is the one that thread `i` writes
  have hcases : ∀ {c' j' k m}, (s'.slot c' j').value = some (k, m) →
      (s.slot c' j').value = some (k, m) ∨ (c' = c ∧ j' = j ∧ k = i ∧ m = s.calls i - 1) := by
    intro c' j' k m hv
    rcases eq_or_ne (c', j') (c, j) with e | hcj
    · obtain ⟨rfl, rfl⟩ := Prod.mk.inj e
      rw [hself] at hv
      obtain ⟨rfl, rfl⟩ := Prod.mk.inj (Option.some.inj hv)
      exact .inr ⟨rfl, rfl, rfl, rfl⟩
    · rw [hne c' j' hcj] at hv
      exact .inl hv
  exact {
    order := by
      intro c₁ j₁ c₂ j₂ k m m' h₁ h₂ hb
      rcases hcases h₁ with h₁ | ⟨rfl, rfl, rfl, rfl⟩
      · rcases hcases h₂ with h₂ | ⟨rfl, rfl, rfl, rfl⟩
        · exact h.order h₁ h₂ hb
        · have := h.bounded h₁
          omega
      · rcases hcases h₂ with h₂ | ⟨rfl, rfl, -, rfl⟩
        · have := hold c₂ j₂ m' h₂
          unfold Before at hb this
          omega
        · unfold Before at hb
          omega
    bounded := by
      intro c' j' k m hv
      rw [hcalls]
      rcases hcases hv with hv | ⟨-, -, rfl, rfl⟩
      · have := h.bounded hv
        rcases eq_or_ne k i with rfl | hk
        · omega
        · rw [hothers k hk]
          exact this
      · omega
    complete := by
      intro k m hm
      rw [hcalls] at hm
      have hkeep : ∀ {c' j'}, (s.slot c' j').value = some (k, m) →
          (s'.slot c' j').value = some (k, m) := by
        intro c' j' hv
        rw [hne c' j']
        · exact hv
        · rintro e
          obtain ⟨rfl, rfl⟩ := Prod.mk.inj e
          rw [hnone] at hv
          cases hv
      rcases eq_or_ne k i with rfl | hk
      · rcases Nat.lt_or_ge (m + 1) (s.calls k) with hlt | hge
        · obtain ⟨c', j', hv⟩ := h.complete k m (by omega)
          exact ⟨c', j', hkeep hv⟩
        · refine ⟨c, j, ?_⟩
          rw [hself]
          congr
          omega
      · rw [hothers k hk] at hm
        obtain ⟨c', j', hv⟩ := h.complete k m hm
        exact ⟨c', j', hkeep hv⟩
    begun := by
      intro k
      rw [hcalls]
      rcases eq_or_ne k i with rfl | hk
      · omega
      · rw [hothers k hk]
        exact h.begun k }

theorem Inv.publish (h : s.Inv T l) {c j : Nat} (hi : s.place i = .publish c j)
    (hs : s.step T (.go i) = some s') : s'.Inv T l := by
  have hp := h.threads.ok i
  rw [hi] at hp
  obtain ⟨hc, hj, hlt, hnone, hold⟩ := hp
  have hslot := h.slots.ok c j
  obtain ⟨-, hnew, hkept₀, hwrites₀, -⟩ := hslot.blank hnone
  have hfree := h.only (i := i) (t := .slot c j) (by rw [hi]; simp [Place.tokens])
  obtain ⟨hplace, hchunks, hphase, hkept, hwrites, hcalls, hscan⟩ := go_fields hi rfl hs
  replace hchunks : s'.chunks = s.chunks.modify c fun b => b.assign j (i, s.calls i - 1) := hchunks
  obtain ⟨hne, hself⟩ := assign_slot hchunks hphase hkept hwrites
  have hhead : s'.chunks.head = s.chunks.head := by
    rw [hchunks]
    rfl
  have hnext : ∀ c', s'.next c' = s.next c' :=
    Chunks.same_of_modify hchunks Chunk.nextItem fun _ => rfl
  have hphases : ∀ c' j', (s'.slot c' j').phase = (s.slot c' j').phase := by
    intro c' j'
    show s'.phase c' j' = s.phase c' j'
    rw [hphase]
  have hvalue : ∀ c' j', (s.slot c' j').value ≠ none → s'.slot c' j' = s.slot c' j' := by
    intro c' j' hv
    refine hne c' j' fun e => hv ?_
    obtain ⟨rfl, rfl⟩ := Prod.mk.inj e
    exact hnone
  have g : Grows s s' l l := by
    refine ⟨fun _ hc => hc, fun _ hb => .inl hb, by rw [hchunks]; exact le_rfl,
      fun c' _ => (hnext c').ge, fun c' j' hv => by rw [hvalue c' j' hv],
      fun c' j' hr => by rw [hvalue c' j' hr.1], fun c' j' hf => by rwa [hphases],
      fun c' j' hf => by rwa [hphases],
      fun c' _ hd => (Chunks.same_of_modify hchunks Chunk.deleted (fun _ => rfl) c').trans hd⟩
  have hslots : s'.Slots T l := {
    ok := by
      intro c' j'
      rw [show s'.scan = s.scan from hscan.scan]
      rcases eq_or_ne (c', j') (c, j) with e | hcj
      · obtain ⟨rfl, rfl⟩ := Prod.mk.inj e
        rw [hself]
        refine ⟨by simp, fun _ => ?_, fun _ _ => rfl, fun e => ?_, hslot.count⟩
        · show (s.slot c' j').writes + 1 = 1
          rw [hwrites₀]
        · have : (s.slot c' j').phase = .released ∨ (s.slot c' j').phase = .freed := e
          rw [hnew] at this
          simp at this
      · rw [hne c' j' hcj]
        exact h.slots.ok c' j'
    reserved := by
      intro c' j' hv
      rw [hnext]
      rcases eq_or_ne (c', j') (c, j) with e | hcj
      · obtain ⟨rfl, rfl⟩ := Prod.mk.inj e
        exact ⟨hc, hj, hlt⟩
      · rw [hne c' j' hcj] at hv
        exact h.slots.reserved c' j' hv
    skips := by
      intro c' j' hr k hk hlt'
      -- a slot that is just published has no distance
      have hcj : (c', j') ≠ (c, j) := by
        intro e
        obtain ⟨rfl, rfl⟩ := Prod.mk.inj e
        rw [hself] at hr
        exact hr.2 rfl
      rw [hne c' j' hcj] at hr hlt'
      exact g.stays (h.slots.skips c' j' hr k hk hlt')
    freed := by
      intro c'
      rw [Chunks.same_of_modify hchunks Chunk.freedItems fun _ => rfl, h.slots.freed c']
      refine List.countP_congr fun j' _ => ?_
      rw [hphases]
    deleted := by
      intro c' hd j' hj'
      rw [hphases]
      have hdeleted : s'.deleted c' = s.deleted c' :=
        Chunks.same_of_modify hchunks Chunk.deleted (fun _ => rfl) c'
      exact h.slots.deleted c' (hdeleted.symm.trans hd) j' hj' }
  exact {
    chain := h.chain.mono g hhead fun c' _ =>
      .inl (Chunks.same_of_modify hchunks Chunk.prev (fun _ => rfl) c')
    slots := hslots
    elements := by
      refine h.elements.publish hold (by rw [hi]; rfl) hne (by rw [hself]) hnone hcalls ?_ ?_
      · rw [place_update hplace, if_pos rfl]
        rfl
      · intro k hk
        rw [place_update hplace, if_neg hk]
    threads := by
      have hkeep : ∀ k, s.place k ≠ .publish c j → s'.place k = s.place k := by
        intro k hk
        rw [place_update hplace, if_neg]
        rintro rfl
        exact hk hi
      refine h.threads.step g hplace (fun t ht => ?_) ⟨?_, ?_, ?_, trivial⟩ ?_
        (fun _ _ n _ =>
          ⟨hnext n, Chunks.same_of_modify hchunks Chunk.prev (fun _ => rfl) n, fun e => e⟩)
        (fun _ _ _ => ⟨hhead, rfl⟩) ?_ ?_ ?_ ?_
      · rw [hi]
        exact .inl ht
      · rw [hself]
        simp
      · rw [hself]
        exact hnew
      · rw [hself]
        exact hkept₀
      · intro k hk c' j' hmem
        rw [hne c' j']
        intro e
        obtain ⟨rfl, rfl⟩ := Prod.mk.inj e
        exact hfree k hk hmem
      · intro k hk c' j' m hv
        rw [← hne c' j']
        · exact hv
        · intro e
          obtain ⟨rfl, rfl⟩ := Prod.mk.inj e
          rw [hself] at hv
          exact hk (Prod.mk.inj (Option.some.inj hv)).1.symm
      · intro c' hc' hover
        rw [hhead] at hc'
        rw [hnext] at hover
        obtain ⟨k, hk⟩ := h.threads.appended c' hc' hover
        refine ⟨k, ?_⟩
        rw [hkeep k]
        · exact hk
        · intro e
          rw [e] at hk
          simp [Place.tokens] at hk
      · intro c' hc' hz
        rw [hhead] at hc'
        rw [hnext] at hz
        obtain ⟨k, hk⟩ := h.threads.searched c' hc' hz
        refine ⟨k, ?_⟩
        rw [hkeep k]
        · exact hk
        · intro e
          rw [e] at hk
          cases hk
      · intro c' hc' j' hj' hlt' hnone'
        rw [hnext] at hlt'
        rcases eq_or_ne (c', j') (c, j) with e | hcj
        · obtain ⟨rfl, rfl⟩ := Prod.mk.inj e
          rw [hself] at hnone'
          cases hnone'
        · rw [hne c' j' hcj] at hnone'
          obtain ⟨k, hk⟩ := h.threads.unwritten c' hc' j' hj' hlt' hnone'
          refine ⟨k, ?_⟩
          rw [hkeep k]
          · exact hk
          · rw [hk]
            intro e
            obtain ⟨rfl, rfl⟩ := Place.publish.inj e
            exact hcj rfl
    walk := g.walk hscan.scan hscan.before hscan.visited h.walk }

/-! ### New chunks -/

omit [DecidableEq ι] in
/-- The scan has no reference to a slot of a chunk that is not linked. -/
theorem Walk.ref_eq_zero (h : s.Walk l) {c : Nat} (hc : c ∉ l) (j : Nat) : s.scan.ref c j = 0 := by
  have hok := h.ok
  cases hscan : s.scan with
  | acquire c' j' a | visiting c' j' =>
      rw [hscan] at hok
      refine if_neg fun e => hc ?_
      rw [← e.1]
      exact hok.1
  | _ => rfl

omit [DecidableEq ι] in
/-- Nothing has happened to the slots of a chunk that is not linked. -/
theorem Inv.unused (h : s.Inv T l) {c : Nat} (hc : c ∉ l) (j : Nat) :
    s.slot c j = ⟨none, Item.init, .new, false, 0⟩ := by
  have hnone : (s.slot c j).value = none := by
    by_contra hv
    exact hc (h.slots.reserved c j hv).1
  have hslot := h.slots.ok c j
  rw [h.walk.ref_eq_zero hc] at hslot
  exact hslot.eq_init hnone

/-- Thread `i` goes to the place `p` and changes a chunk of its own that is not
linked yet. -/
theorem Inv.offList (h : s.Inv T l) (n : Nat) {q : Place} (hn : n ∉ l) (hi : s.place i = q)
    (hgo : q.Follows p) (hplace : s'.place = update s.place i p)
    (hchunk : ∀ c ≠ n, s'.chunks.chunk c = s.chunks.chunk c)
    (hslot : ∀ c j, s'.slot c j = s.slot c j) (hhead : s'.chunks.head = s.chunks.head)
    (hfresh : s.chunks.fresh ≤ s'.chunks.fresh)
    (hitems : (s'.chunks.chunk n).freedItems = (s.chunks.chunk n).freedItems)
    (hdel : s'.deleted n = true → s.deleted n = true) (hscan : SameScan s s')
    (hcalls : s'.calls = s.calls) (hfree : ∀ k ≠ i, .chunk n ∉ (s.place k).tokens)
    (htok : ∀ t ∈ p.tokens, t ∈ q.tokens ∨ t = .chunk n ∧ .chunk n ∉ q.tokens)
    (hp : s'.PlaceOk T l i p) : s'.Inv T l := by
  subst hi
  have hne : ∀ c ∈ l, c ≠ n := by
    rintro c hc rfl
    exact hn hc
  have hnext : ∀ c ≠ n, s'.next c = s.next c := by
    intro c hc
    unfold Crowd.next
    rw [hchunk c hc]
  have hdeleted : ∀ c ≠ n, s'.deleted c = s.deleted c := by
    intro c hc
    unfold Crowd.deleted
    rw [hchunk c hc]
  have hheads : ∀ c, s'.chunks.head = some c → c ∈ l := by
    intro c hc
    rw [hhead, h.chain.head] at hc
    exact List.mem_of_head? hc
  -- the chunk `n` is not in the list, which is as before
  have g : Grows s s' l l := .of_slots hfresh (fun c hc => (hnext c (hne c hc)).ge) hslot
    fun c hc hd => (hdeleted c (hne c hc)).trans hd
  exact {
    chain := h.chain.mono g hhead fun c hc => .inl (by rw [hchunk c (hne c hc)])
    slots := by
      refine h.slots.links g hslot hscan.scan ?_ ?_
      · intro c
        rcases eq_or_ne c n with rfl | hc
        · exact hitems
        · rw [hchunk c hc]
      · intro c hd
        rcases eq_or_ne c n with rfl | hc
        · exact .inl (hdel hd)
        · exact .inl ((hdeleted c hc).symm.trans hd)
    elements := by
      refine h.elements.congr (fun c j => by rw [hslot]) hcalls fun k => ?_
      rw [place_update hplace]
      split
      · rename_i e
        rw [hgo.unpublished, e]
      · rfl
    threads := by
      refine h.threads.step g hplace ?_ hp (fun _ _ c j _ => by rw [hslot]) ?_
        (fun _ _ _ => ⟨hhead, rfl⟩) (fun k _ c j m hv => by rwa [hslot] at hv) ?_ ?_ ?_
      · intro t ht
        rcases htok t ht with ht | ⟨rfl, hq⟩
        · exact .inl ht
        · refine .inr fun k hk => ?_
          rcases eq_or_ne k i with rfl | hki
          · exact hq hk
          · exact hfree k hki hk
      · intro k hk m hm
        have hmn : m ≠ n := by
          rintro rfl
          exact hfree k hk hm
        exact ⟨hnext m hmn, by rw [hchunk m hmn], fun e => e⟩
      · intro c hc hlt
        rw [hnext c (hne c (hheads c hc))] at hlt
        rw [hhead] at hc
        obtain ⟨k, hk⟩ := h.threads.appended c hc hlt
        refine ⟨k, ?_⟩
        rw [place_update hplace]
        split
        · rename_i e
          exact hgo.append (e ▸ hk)
        · exact hk
      · intro c hc hz
        rw [hnext c (hne c (hheads c hc))] at hz
        rw [hhead] at hc
        obtain ⟨k, hk⟩ := h.threads.searched c hc hz
        refine ⟨k, ?_⟩
        rw [place_update hplace]
        split
        · rename_i e
          exact hgo.searching (e ▸ hk)
        · exact hk
      · intro c hc j hj hlt hnone
        rw [hnext c (hne c hc)] at hlt
        rw [hslot] at hnone
        obtain ⟨k, hk⟩ := h.threads.unwritten c hc j hj hlt hnone
        refine ⟨k, ?_⟩
        rw [place_update hplace]
        split
        · rename_i e
          exact absurd (e ▸ hk) (hgo.publish c j)
        · exact hk
    walk := g.walk hscan.scan hscan.before hscan.visited h.walk }

/-- Thread `i` allocates a chunk. -/
theorem Inv.allocated (h : s.Inv T l) {q : Place} (hi : s.place i = q) (hgo : q.Follows p)
    (ht : s.trans T i q = some (s.allocated, p)) (hs : s.step T (.go i) = some s')
    (htok : ∀ t ∈ p.tokens, t ∈ q.tokens ∨ t = .chunk s.chunks.fresh)
    (hp : s.chunks.fresh < s'.chunks.fresh → s.chunks.fresh ∉ l →
      (s'.chunks.chunk s.chunks.fresh).prev = none → s'.next s.chunks.fresh = 0 →
      s'.chunks.head = s.chunks.head → (∀ c ∈ l, s'.next c = s.next c) → s'.PlaceOk T l i p) :
    s'.Inv T l := by
  obtain ⟨hplace, hchunks, hphase, hkept, hwrites, hcalls, hscan⟩ := go_fields hi ht hs
  have hfresh : s.chunks.fresh ∉ l := fun hn => lt_irrefl _ (h.chain.known _ hn)
  have hself : s'.chunks.chunk s.chunks.fresh = Chunk.init := by
    rw [hchunks]
    exact update_self _ _ _
  have hchunk : ∀ c ≠ s.chunks.fresh, s'.chunks.chunk c = s.chunks.chunk c := by
    intro c hc
    rw [hchunks]
    exact update_of_ne hc _ _
  have hhead : s'.chunks.head = s.chunks.head := by
    rw [hchunks]
    rfl
  have hlt : s.chunks.fresh < s'.chunks.fresh := by
    rw [hchunks]
    exact Nat.lt_succ_self _
  have hfree : ∀ k, .chunk s.chunks.fresh ∉ (s.place k).tokens :=
    fun k hk => lt_irrefl _ (h.new_of_token hk).1
  have hslot : ∀ c j, s'.slot c j = s.slot c j := by
    intro c j
    have hrest : s'.phase = s.phase ∧ s'.kept = s.kept ∧ s'.writes = s.writes :=
      ⟨hphase, hkept, hwrites⟩
    rcases eq_or_ne c s.chunks.fresh with rfl | hc
    · have hblank := h.unused hfresh j
      have hphase₀ : s.phase s.chunks.fresh j = .new := congrArg Slot.phase hblank
      have hkept₀ : s.kept s.chunks.fresh j = false := congrArg Slot.kept hblank
      have hwrites₀ : s.writes s.chunks.fresh j = 0 := congrArg Slot.writes hblank
      rw [hblank]
      unfold slot Chunks.item
      rw [hself, hrest.1, hrest.2.1, hrest.2.2, hphase₀, hkept₀, hwrites₀]
      rfl
    · unfold slot Chunks.item
      rw [hchunk c hc, hrest.1, hrest.2.1, hrest.2.2]
  refine h.offList s.chunks.fresh hfresh hi hgo hplace hchunk hslot hhead hlt.le ?_ ?_
    ⟨hscan.scan, hscan.before, hscan.visited⟩ hcalls (fun k _ => hfree k) ?_ ?_
  · -- no slot of the new chunk was freed
    rw [hself, h.slots.freed, eq_comm]
    refine List.countP_eq_zero.mpr fun j _ => ?_
    rw [h.unused hfresh j]
    simp
  · intro hd
    unfold Crowd.deleted at hd
    rw [hself] at hd
    cases hd
  · intro t ht
    rcases htok t ht with ht | rfl
    · exact .inl ht
    · refine .inr ⟨rfl, ?_⟩
      rw [← hi]
      exact hfree i
  · refine hp hlt hfresh (by rw [hself]; rfl) ?_ hhead fun c hc => ?_
    · unfold Crowd.next
      rw [hself]
      rfl
    · unfold Crowd.next
      rw [hchunk c]
      rintro rfl
      exact hfresh hc

theorem Inv.allocate (h : s.Inv T l) (hi : s.place i = .allocate)
    (hs : s.step T (.go i) = some s') : s'.Inv T l := by
  have hp := h.threads.ok i
  rw [hi] at hp
  obtain ⟨c, hcl, hc, hover⟩ := hp
  refine h.allocated (p := .loadOld s.chunks.fresh) hi
    ⟨rfl, by simp [Place.tokens], fun _ => rfl, by simp⟩ rfl hs (by simp [Place.tokens])
    fun hfresh hnot hprev hz hhead hnext => ?_
  refine ⟨⟨c, hcl, hhead.trans hc, ?_⟩, hfresh, hz, h.chain.known⟩
  rw [hnext c hcl]
  exact hover

theorem Inv.allocateFirst (h : s.Inv T l) (hi : s.place i = .allocateFirst)
    (hs : s.step T (.go i) = some s') : s'.Inv T l :=
  h.allocated (p := .casFirst s.chunks.fresh) hi
    ⟨rfl, by simp [Place.tokens], fun _ => rfl, by simp⟩ rfl hs (by simp [Place.tokens])
    fun hfresh hnot hprev hz _ _ => ⟨hfresh, hnot, hz, hprev⟩

theorem Inv.loadOld (h : s.Inv T l) {n : Nat} (hi : s.place i = .loadOld n)
    (hs : s.step T (.go i) = some s') : s'.Inv T l := by
  have hp := h.threads.ok i
  rw [hi] at hp
  rw [step, hi] at hs
  obtain rfl := Option.some.inj hs
  exact h.goto hi ⟨rfl, fun e => e, fun e => e, by simp⟩ (fun t ht => ht) ⟨hp, rfl⟩

/-- The new chunk is made to point to the head. -/
theorem Inv.storePrev (h : s.Inv T l) {n : Nat} {old : Option Nat}
    (hi : s.place i = .storePrev n old) (hs : s.step T (.go i) = some s') : s'.Inv T l := by
  have hp := h.threads.ok i
  rw [hi] at hp
  obtain ⟨⟨⟨c, hcl, hc, hover⟩, hfresh, hz, hnewer⟩, hold⟩ := hp
  obtain ⟨hplace, hchunks, hphase, hkept, hwrites, hcalls, hscan⟩ := go_fields hi rfl hs
  replace hchunks : s'.chunks = s.chunks.modify n fun b => { b with prev := old } := hchunks
  have hn : n ∉ l := fun hn => lt_irrefl n (hnewer n hn)
  have hhead : s'.chunks.head = s.chunks.head := by
    rw [hchunks]
    rfl
  have hfresh' : s'.chunks.fresh = s.chunks.fresh := by
    rw [hchunks]
    rfl
  have hnext : ∀ c', s'.next c' = s.next c' :=
    Chunks.same_of_modify hchunks Chunk.nextItem fun _ => rfl
  refine h.offList (p := .casHead n old) n hn hi ⟨rfl, fun e => e, fun e => e, by simp⟩ hplace
    (fun c' hne => ?_) (modify_slot hchunks (fun _ => rfl) (fun _ => rfl) hphase hkept hwrites)
    hhead hfresh'.ge (Chunks.same_of_modify hchunks Chunk.freedItems (fun _ => rfl) n)
    (fun hd => (Chunks.same_of_modify hchunks Chunk.deleted (fun _ => rfl) n).symm.trans hd)
    ⟨hscan.scan, hscan.before, hscan.visited⟩ hcalls
    (h.only (by rw [hi]; simp [Place.tokens])) (fun t ht => .inl ht) ?_
  · rw [hchunks, Chunks.modify_chunk_of_ne hne]
  · refine ⟨⟨⟨c, hcl, hhead.trans hc, ?_⟩, ?_, ?_, hnewer⟩, hold.trans hhead.symm, ?_⟩
    · rw [hnext]
      exact hover
    · rw [hfresh']
      exact hfresh
    · rw [hnext]
      exact hz
    · rw [hchunks, Chunks.modify_chunk_self]

/-! ### Linking a chunk -/

/-- The chunk `n` of thread `i` becomes the head. -/
theorem Inv.link (h : s.Inv T l) {n : Nat} {q : Place} (hi : s.place i = q)
    (hfresh : n < s.chunks.fresh) (hz : s.next n = 0) (hnewer : ∀ c ∈ l, c < n)
    (hprev : (s.chunks.chunk n).prev = s.chunks.head)
    (hfull : ∀ c, s.chunks.head = some c → T < s.next c) (htok : .chunk n ∈ q.tokens)
    (hsearch : q.searching = true) (happend : ∀ k ≠ i, .append ∉ (s.place k).tokens) :
    Inv T { s with
      chunks := { s.chunks with head := some n }
      place := update s.place i .loadHead } (n :: l) := by
  generalize hs' : ({ s with
    chunks := { s.chunks with head := some n }
    place := update s.place i .loadHead } : Crowd ι) = s'
  have hplace : s'.place = update s.place i .loadHead := by rw [← hs']
  have hchunk : s'.chunks.chunk = s.chunks.chunk := by rw [← hs']
  have hhead : s'.chunks.head = some n := by rw [← hs']
  have hcalls : s'.calls = s.calls := by rw [← hs']
  have hslot : ∀ c j, s'.slot c j = s.slot c j := by
    intro c j
    rw [← hs']
    rfl
  have hnext : ∀ c, s'.next c = s.next c := by
    intro c
    unfold Crowd.next
    rw [hchunk]
  have hscan : SameScan s s' := by
    rw [← hs']
    exact ⟨rfl, rfl, rfl⟩
  have hpub : q.unpublished = 1 := by
    cases q <;> first | rfl | cases hsearch
  have hnot : ∀ c j, s.place i ≠ .publish c j := by
    intro c j e
    rw [← hi, e] at hsearch
    cases hsearch
  -- the list is longer by the chunk `n`, which is newer than all of it
  have g : Grows s s' l (n :: l) := by
    refine ⟨fun c hc => List.mem_cons_of_mem _ hc, fun b hb => ?_, ?_, fun c _ => (hnext c).ge,
      fun c j _ => by rw [hslot], fun c j _ => by rw [hslot], fun c j hf => by rwa [hslot],
      fun c j hf => by rwa [hslot], fun c _ hd => ?_⟩
    · rcases List.mem_cons.mp hb with rfl | hb
      · exact .inr hnewer
      · exact .inl hb
    · rw [← hs']
    · unfold Crowd.deleted at hd ⊢
      rw [hchunk]
      exact hd
  have hchain : s'.Chain T (n :: l) := {
    head := by
      rw [hhead]
      rfl
    sorted := List.pairwise_cons.mpr ⟨hnewer, h.chain.sorted⟩
    known := by
      intro c hc
      have hfresh' : s'.chunks.fresh = s.chunks.fresh := by rw [← hs']
      rw [hfresh']
      rcases List.mem_cons.mp hc with rfl | hc
      · exact hfresh
      · exact h.chain.known c hc
    full := by
      intro c hc hne
      rw [hhead] at hne
      rw [hnext]
      rcases List.mem_cons.mp hc with rfl | hc
      · exact absurd rfl hne
      · by_cases hold : s.chunks.head = some c
        · exact hfull c hold
        · exact h.chain.full c hc hold
    prev := by
      intro c hc
      rw [hchunk]
      rcases List.mem_cons.mp hc with rfl | hc
      · -- the new chunk points to the old head, and no chunk is between them
        rw [hprev]
        cases hold : s.chunks.head with
        | none =>
            intro b hb hbc
            rcases List.mem_cons.mp hb with rfl | hb
            · exact absurd hbc (lt_irrefl b)
            · rw [h.chain.head, List.head?_eq_none_iff] at hold
              rw [hold] at hb
              cases hb
        | some p =>
            have hp : p ∈ l := by
              rw [h.chain.head] at hold
              exact List.mem_of_head? hold
            refine ⟨List.mem_cons_of_mem _ hp, hnewer p hp, fun b hb hpb hbc => ?_⟩
            rcases List.mem_cons.mp hb with rfl | hb
            · exact absurd hbc (lt_irrefl b)
            · exact absurd (h.le_head hold hb) (not_le.mpr hpb)
      · exact g.leadsBack hc (h.chain.prev c hc) }
  exact {
    chain := hchain
    slots := by
      refine h.slots.links g hslot hscan.scan (fun c => by rw [hchunk]) fun c hd => ?_
      unfold Crowd.deleted at hd ⊢
      rw [hchunk] at hd
      exact .inl hd
    elements := by
      refine h.elements.congr (fun c j => by rw [hslot]) hcalls fun k => ?_
      rw [place_update hplace]
      split
      · rename_i e
        rw [e, hi, hpub]
        rfl
      · rfl
    threads := by
      refine h.threads.step g hplace (by simp [Place.tokens]) trivial
        (fun _ _ c j _ => by rw [hslot]) ?_ (fun k hk ha => absurd ha (happend k hk))
        (fun k _ c j m hv => by rwa [hslot] at hv) ?_ ?_ ?_
      · intro k hk m hm
        refine ⟨hnext m, by rw [hchunk], fun hml => ?_⟩
        rw [List.mem_cons, not_or]
        refine ⟨?_, hml⟩
        rintro rfl
        exact h.only (by rw [hi]; exact htok) k hk hm
      · intro c hc hlt
        rw [hhead] at hc
        obtain rfl := Option.some.inj hc
        rw [hnext, hz] at hlt
        omega
      · intro c _ _
        refine ⟨i, ?_⟩
        rw [place_update hplace, if_pos rfl]
        rfl
      · intro c hc j hj hlt hnone
        rw [hnext] at hlt
        rw [hslot] at hnone
        rcases List.mem_cons.mp hc with rfl | hc
        · omega
        · obtain ⟨k, hk⟩ := h.threads.unwritten c hc j hj hlt hnone
          refine ⟨k, ?_⟩
          rw [place_update hplace, if_neg]
          · exact hk
          · rintro rfl
            exact hnot c j hk
    walk := g.walk hscan.scan hscan.before hscan.visited h.walk }

/-- The exchange of `append_item` succeeds. -/
theorem Inv.casHead (h : s.Inv T l) {n : Nat} {old : Option Nat} (hi : s.place i = .casHead n old)
    (hs : s.step T (.go i) = some s') : s'.Inv T (n :: l) := by
  have hp := h.threads.ok i
  rw [hi] at hp
  obtain ⟨⟨⟨c, hcl, hc, hover⟩, hfresh, hz, hnewer⟩, hold, hprev⟩ := hp
  rw [step, hi, trans, if_pos hold.symm] at hs
  obtain rfl := Option.some.inj hs
  refine h.link hi hfresh hz hnewer (hprev.trans hold) (fun c' hc' => ?_) (by simp [Place.tokens])
    rfl (h.only (by rw [hi]; simp [Place.tokens]))
  rw [hc] at hc'
  obtain rfl := Option.some.inj hc'
  exact hover

theorem Inv.casFirst (h : s.Inv T l) {n : Nat} (hi : s.place i = .casFirst n)
    (hs : s.step T (.go i) = some s') : ∃ l', s'.Inv T l' := by
  have hp := h.threads.ok i
  rw [hi] at hp
  obtain ⟨hfresh, hn, hz, hprev⟩ := hp
  rw [step, hi, trans] at hs
  split at hs
  · rename_i hhead
    obtain rfl := Option.some.inj hs
    have hl : l = [] := by
      rw [← List.head?_eq_none_iff, ← h.chain.head]
      exact hhead
    refine ⟨n :: l, h.link hi hfresh hz ?_ (hprev.trans hhead.symm) ?_ (by simp [Place.tokens]) rfl
      ?_⟩
    · intro c hc
      rw [hl] at hc
      cases hc
    · intro c hc
      rw [hhead] at hc
      cases hc
    · intro k _ hk
      obtain ⟨c, -, hc, -⟩ := h.overflowed_of_token hk
      rw [hhead] at hc
      cases hc
  · obtain rfl := Option.some.inj hs
    exact ⟨l, h.goto hi ⟨rfl, by simp [Place.tokens], fun _ => rfl, by simp⟩
      (by simp [Place.tokens]) trivial⟩

/-! ### All operations -/

/-- Every operation of a thread keeps the invariant. -/
theorem Inv.go (h : s.Inv T l) (hcare : s.CarefulAt (s.place i))
    (hs : s.step T (.go i) = some s') : ∃ l', s'.Inv T l' := by
  cases hi : s.place i with
  | idle =>
      rw [step, hi] at hs
      cases hs
  | loadHead => exact ⟨l, h.loadHead hi hs⟩
  | loadNext c => exact ⟨l, h.loadNext hi hs⟩
  | fetchAdd c => exact ⟨l, h.fetchAdd hi hs⟩
  | publish c j => exact ⟨l, h.publish hi hs⟩
  | acquire c j a => exact ⟨l, h.acquire hi hs⟩
  | allocate => exact ⟨l, h.allocate hi hs⟩
  | loadOld n => exact ⟨l, h.loadOld hi hs⟩
  | storePrev n old => exact ⟨l, h.storePrev hi hs⟩
  | casHead n old => exact ⟨n :: l, h.casHead hi hs⟩
  | allocateFirst => exact ⟨l, h.allocateFirst hi hs⟩
  | casFirst n => exact h.casFirst hi hs
  | loadNeighbour c j =>
      rw [hi] at hcare
      exact ⟨l, h.loadNeighbour hi hcare hs⟩
  | storeOffset c j off => exact ⟨l, h.storeOffset hi hs⟩
  | release c j => exact ⟨l, h.release hi hs⟩
  | freed c j => exact ⟨l, h.freed hi hs⟩
  | flag c => exact ⟨l, h.flag hi hs⟩

/-- An iterator that a push returned is dropped. -/
theorem Inv.drop (h : s.Inv T l) {c j : Nat} (hs : s.step T (.drop c j) = some s') :
    s'.Inv T l := by
  rw [step] at hs
  split_ifs at hs with hc
  obtain ⟨hkept, hphase⟩ := hc
  obtain rfl := Option.some.inj hs
  generalize hs' : ({ s with
    chunks := s.chunks.setItem c j (s.chunks.item c j).release
    kept := update₂ s.kept c j false } : Crowd ι) = s'
  have hslot := h.slots.ok c j
  have hv : (s.slot c j).value ≠ none := by
    intro e
    have hkept' : (s.slot c j).kept = true := hkept
    rw [(hslot.blank e).2.2.1] at hkept'
    cases hkept'
  have hfree := h.idle_slot hphase
  have href := ref_le_one s.scan c j
  have hdropped : (s.slot c j).phase.dropped ≤ 1 := by
    cases (s.slot c j).phase <;> decide
  -- the reference that is dropped is still counted
  have hcount : (s.chunks.item c j).refcount = 1 + s.scan.ref c j - (s.slot c j).phase.dropped := by
    have : (s.chunks.item c j).refcount = _ := hslot.count
    rw [this, show (s.slot c j).kept = true from hkept]
    simp
  have hchunks : s'.chunks = s.chunks.setItem c j (s.chunks.item c j).release := by rw [← hs']
  obtain ⟨hlinks, hitems, hne, hself⟩ := setItem_slot hchunks (fun _ _ _ => by rw [← hs'])
    (fun c' j' hcj => by rw [← hs']; exact update₂_of_ne hcj) (by rw [← hs'])
  have hphases : s'.phase = s.phase := by rw [← hs']
  have hscan : SameScan s s' := by
    rw [← hs']
    exact ⟨rfl, rfl, rfl⟩
  have hvalue : (s'.slot c j).value = (s.slot c j).value := by rw [hself]
  have hphase' : (s'.slot c j).phase = (s.slot c j).phase := by
    show s'.phase c j = s.phase c j
    rw [hphases]
  have hok : (s'.slot c j).Ok (s'.scan.ref c j) := by
    rw [hself, hscan.scan]
    have hkept' : s'.kept c j = false := by
      rw [← hs']
      exact update₂_self
    refine ⟨fun e => absurd e hv, hslot.written, ?_, ?_, ?_⟩
    · rw [hphases]
      exact hslot.present
    · rw [hphases]
      exact hslot.gone
    · show ((s.chunks.item c j).refcount - 1).bmod wordSize = _
      rw [hkept', hphases, hcount, ItemState.bmod_wordSize (by omega) (by omega)]
      show _ = ((false.toNat : Int) + _ - ((s.slot c j).phase.dropped : Int))
      simp only [Bool.toNat_false]
      omega
  have hfreed : ∀ c', (s'.chunks.chunk c').freedItems =
      (List.range T).countP fun j' => decide ((s'.slot c' j').phase = .freed) := by
    intro c'
    rw [hitems, h.slots.freed c']
    refine List.countP_congr fun j' _ => ?_
    rw [show (s'.slot c' j').phase = (s.slot c' j').phase from congrFun (congrFun hphases c') j']
  obtain ⟨hslots, g⟩ := h.slots.set c j hlinks.next hlinks.deleted hne hvalue hok
    (fun c' j' _ => by rw [hscan.scan]) (.inl (by rw [hself]; rfl))
    (fun e => hphase'.trans e) (fun e => by rwa [hphase']) hfreed hlinks.fresh
  have hvalues : ∀ c' j', (s'.slot c' j').value = (s.slot c' j').value := by
    intro c' j'
    rcases eq_or_ne (c', j') (c, j) with e | hcj
    · obtain ⟨rfl, rfl⟩ := Prod.mk.inj e
      exact hvalue
    · rw [hne c' j' hcj]
  refine ⟨h.chain.mono g hlinks.head fun c' _ => .inl (hlinks.prev c'), hslots,
    h.elements.congr hvalues (by rw [← hs']) (fun k => by rw [← hs']),
    h.threads.stay g (by rw [← hs']) hlinks.head hlinks.next hvalues (fun _ n _ => hlinks.prev n)
      fun k c' j' hk => ?_, g.walk hscan.scan hscan.before hscan.visited h.walk⟩
  rw [hne c' j']
  intro e
  obtain ⟨rfl, rfl⟩ := Prod.mk.inj e
  exact hfree k hk

end Crowd

end RedGrapes.ChunkedList
