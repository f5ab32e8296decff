/-
RedGrapes/ChunkedList/Walk.lean

Every step of the scan keeps the invariant, and so a scan misses nothing.

The scan moves backward, and the slots it has still to come by (`Pending`) become
fewer.  A step may leave out a slot only if nothing that was there before the scan
is in it: a distance leads over removed slots, a pointer over deleted chunks, and
behind the last item of a chunk there are only slots that were reserved later.

Two more things have to be excluded, and the code does not exclude them: a removal
that copies the distance of a slot that is not published yet, and a chunk without
a reserved slot, at which the scan ends.  `Careful` is about both, about distances
that do not fit their word, and about the counts of removed items that
`acquire` takes for those of live ones.
-/
import RedGrapes.ChunkedList.Append

namespace RedGrapes.ChunkedList

open Function Machine

/-- The operations that `acquire` has still to do. -/
def Acquire.left : Acquire → Nat
  | .loadOffset => 5
  | .loadRefcount _ => 4
  | .fetchAdd => 3
  | .reload _ => 2
  | .undo _ => 1

/-- How far the scan is from its end: the chunk, the part of the work on it, the
slot or chunk in that part, and the operations left there. -/
def Scan.rank : Scan → ℕ ×ₗ ℕ ×ₗ ℕ ×ₗ ℕ
  | .lastItem c => toLex (c + 1, toLex (3, toLex (0, 0)))
  | .acquire c j a => toLex (c + 1, toLex (2, toLex (j, a.left)))
  | .visiting c j => toLex (c + 1, toLex (2, toLex (j, 0)))
  | .loadPrev c q => toLex (c + 1, toLex (1, toLex (q, 1)))
  | .checkDeleted c none => toLex (c + 1, toLex (1, toLex (0, 0)))
  | .checkDeleted c (some p) => toLex (c + 1, toLex (1, toLex (p, 2)))
  | .storePrev c _ => toLex (c + 1, toLex (0, toLex (1, 0)))
  | .readPrev c => toLex (c + 1, toLex (0, toLex (0, 0)))
  | _ => toLex (0, toLex (0, toLex (0, 0)))

namespace Crowd

variable {ι : Type} {T : Nat} {s s' : Crowd ι} {l : List Nat}

/-! ### What a step of the scan may do -/

/-- The scan goes on to another place and leaves out only what it may. -/
theorem Walk.move (h : s.Walk l) (g : Grows s s' l l) (hbefore : s'.before = s.before)
    (hvisited : s'.visited = s.visited) (hstarted : s.scan ≠ .waiting) (hwaiting : s'.scan ≠ .waiting)
    (hok : s'.ScanOk l s'.scan) (hpending : ∀ c j, Pending s'.scan c j → Pending s.scan c j)
    (hskip : ∀ c j, s.before c j = true → Pending s.scan c j → ¬ Pending s'.scan c j →
      (s.slot c j).Removed) : s'.Walk l where
  ok := hok
  unvisited e := absurd e hwaiting
  nodup := by
    rw [hvisited]
    exact h.nodup
  passed q hq hp := by
    rw [hvisited] at hq
    exact h.passed q hq (hpending _ _ hp)
  complete _ c j hb hz := by
    rw [hbefore] at hb
    rw [hvisited]
    have hz' : (s.slot c j).item.iterOffset = 0 := by
      by_contra hne
      rw [g.removed c j ⟨(h.seen c j hb).1, hne⟩] at hz
      exact hne hz
    rcases h.complete hstarted c j hb hz' with hv | hp
    · exact .inl hv
    · by_cases hp' : Pending s'.scan c j
      · exact .inr hp'
      · exact absurd hz' (hskip c j hb hp hp').2
  seen := by
    rw [hbefore]
    exact fun c j hb => ⟨g.present (h.seen c j hb).1, g.returned c j (h.seen c j hb).2⟩

/-- The scan goes on to another place and changes at most a count. -/
theorem Inv.look (h : s.Inv T l) (c₀ j₀ : Nat) {x : Item}
    (hchunks : s'.chunks = s.chunks.setItem c₀ j₀ x) (hplace : s'.place = s.place)
    (hcalls : s'.calls = s.calls) (hphase : s'.phase = s.phase) (hkept : s'.kept = s.kept)
    (hwrites : s'.writes = s.writes) (hoff : x.iterOffset = (s.slot c₀ j₀).item.iterOffset)
    (hdestroyed : (s.slot c₀ j₀).value = none → x.destroyed = (s.slot c₀ j₀).item.destroyed)
    (hcount : x.refcount =
      (s.slot c₀ j₀).kept.toNat + s'.scan.ref c₀ j₀ - (s.slot c₀ j₀).phase.dropped)
    (href : ∀ c j, (c, j) ≠ (c₀, j₀) → s'.scan.ref c j = s.scan.ref c j)
    (hwalk : Grows s s' l l → s'.Walk l) : s'.Inv T l := by
  obtain ⟨hlinks, hitems, hne, hself⟩ := setItem_slot hchunks (fun _ _ _ => by rw [hphase])
    (fun _ _ _ => by rw [hkept]) hwrites
  rw [hphase, hkept] at hself
  have hslot := h.slots.ok c₀ j₀
  have hok : (s'.slot c₀ j₀).Ok (s'.scan.ref c₀ j₀) := by
    rw [hself]
    refine ⟨fun e => ?_, hslot.written, fun hv hp => ?_, fun hp => ?_, hcount⟩
    · obtain ⟨ho, hp, hk, hw, hd⟩ := hslot.blank e
      exact ⟨hoff.trans ho, hp, hk, hw, (hdestroyed e).trans hd⟩
    · exact hoff.trans (hslot.present hv hp)
    · rw [hoff]
      exact hslot.gone hp
  have hvalue : (s'.slot c₀ j₀).value = (s.slot c₀ j₀).value := by rw [hself]
  have hphases : ∀ c j, (s'.slot c j).phase = (s.slot c j).phase :=
    fun c j => congrFun (congrFun hphase c) j
  have hfreed : ∀ c, (s'.chunks.chunk c).freedItems =
      (List.range T).countP fun j => decide ((s'.slot c j).phase = .freed) := by
    intro c
    rw [hitems, h.slots.freed c]
    refine List.countP_congr fun j _ => ?_
    rw [hphases]
  obtain ⟨hslots, g⟩ := h.slots.set c₀ j₀ hlinks.next hlinks.deleted hne hvalue hok href
    (.inl (by rw [hself]; exact hoff)) (fun e => by rwa [hphases]) (fun e => by rwa [hphases])
    hfreed hlinks.fresh
  have hview : ∀ c j, (s'.slot c j).view = (s.slot c j).view := by
    intro c j
    rcases eq_or_ne (c, j) (c₀, j₀) with e | hcj
    · obtain ⟨rfl, rfl⟩ := Prod.mk.inj e
      rw [hself, Slot.view]
      show (_, x.iterOffset, _, _) = _
      rw [hoff]
      rfl
    · rw [hne c j hcj]
  have hvalues : ∀ c j, (s'.slot c j).value = (s.slot c j).value :=
    fun c j => (Prod.mk.inj (hview c j)).1
  exact ⟨h.chain.mono g hlinks.head fun c _ => .inl (hlinks.prev c), hslots,
    h.elements.congr hvalues hcalls fun k => by rw [hplace],
    h.threads.stay g hplace hlinks.head hlinks.next hvalues (fun _ n _ => hlinks.prev n)
      fun _ c j _ => hview c j, hwalk g⟩

/-- The scan goes on to another place and changes nothing else. -/
theorem Inv.turn (h : s.Inv T l) (x : Scan) (vs : List (Nat × Nat)) (bs : Nat → Nat → Bool)
    (href : ∀ c j, x.ref c j = s.scan.ref c j)
    (hwalk : Grows s { s with scan := x, visited := vs, before := bs } l l →
      Walk { s with scan := x, visited := vs, before := bs } l) :
    Inv T { s with scan := x, visited := vs, before := bs } l := by
  have hlinks : SameLinks s { s with scan := x, visited := vs, before := bs } :=
    ⟨rfl, rfl, fun _ => rfl, fun _ => rfl, fun _ => rfl⟩
  have g : Grows s { s with scan := x, visited := vs, before := bs } l l :=
    Grows.of_same hlinks fun _ _ => rfl
  refine ⟨h.chain.mono g rfl fun c _ => .inl rfl, ⟨fun c j => ?_, h.slots.reserved, h.slots.skips,
    h.slots.freed, h.slots.deleted⟩, h.elements.congr (fun _ _ => rfl) rfl fun _ => rfl,
    h.threads.stay g rfl rfl (fun _ => rfl) (fun _ _ => rfl) (fun _ _ _ => rfl)
      fun _ _ _ _ => rfl, hwalk g⟩
  show (s.slot c j).Ok (x.ref c j)
  rw [href]
  exact h.slots.ok c j

/-- The scan goes on to the place `y`. -/
theorem Inv.pass (h : s.Inv T l) {x y : Scan} (hx : s.scan = x) (hstarted : x ≠ .waiting)
    (hwaiting : y ≠ .waiting) (href : ∀ c j, y.ref c j = x.ref c j) (hok : s.ScanOk l y)
    (hpending : ∀ c j, Pending y c j → Pending x c j)
    (hskip : ∀ c j, s.before c j = true → Pending x c j → ¬ Pending y c j → (s.slot c j).Removed) :
    Inv T { s with scan := y } l := by
  subst hx
  exact h.turn y s.visited s.before href fun g =>
    h.walk.move g rfl rfl hstarted hwaiting (g.scanOk rfl hok) hpending hskip

/-! ### The chunks -/

variable [DecidableEq ι]

theorem Inv.rbegin (h : s.Inv T l) (hs : s.step T .rbegin = some s') : s'.Inv T l := by
  rw [step] at hs
  split_ifs at hs with hwaiting
  obtain rfl := Option.some.inj hs
  have hseen : ∀ c j, decide (s.phase c j ≠ .new) = true →
      (s.slot c j).value ≠ none ∧ (s.slot c j).phase ≠ .new := by
    intro c j hb
    have hp : (s.slot c j).phase ≠ .new := of_decide_eq_true hb
    exact ⟨fun e => hp ((h.slots.ok c j).blank e).2.1, hp⟩
  have hvisited : s.visited = [] := h.walk.unvisited hwaiting
  refine h.turn _ s.visited (fun c j => decide (s.phase c j ≠ .new)) ?_ fun g => ?_
  · intro c j
    rw [hwaiting]
    cases s.chunks.head <;> rfl
  · refine ⟨?_, fun _ => hvisited, h.walk.nodup, ?_, ?_, hseen⟩
    · dsimp only
      cases hhead : s.chunks.head with
      | none => trivial
      | some c =>
          rw [h.chain.head] at hhead
          exact List.mem_of_head? hhead
    · intro q hq
      rw [show s.visited = [] from hvisited] at hq
      cases hq
    · intro _ c j hb _
      have hc := (h.slots.reserved c j (hseen c j hb).1).1
      refine .inr ?_
      dsimp only
      cases hhead : s.chunks.head with
      | none =>
          rw [h.chain.head, List.head?_eq_none_iff] at hhead
          rw [hhead] at hc
          cases hc
      | some c' => exact h.le_head hhead hc

omit [DecidableEq ι] in
/-- What was there before the scan is in a slot of a linked chunk. -/
theorem Inv.before_reserved (h : s.Inv T l) {c j : Nat} (hb : s.before c j = true) :
    c ∈ l ∧ j < T ∧ j < s.next c :=
  h.slots.reserved c j (h.walk.seen c j hb).1

omit [DecidableEq ι] in
/-- What was in a deleted chunk is removed. -/
theorem Inv.before_deleted (h : s.Inv T l) {c j : Nat} (hb : s.before c j = true)
    (hd : s.deleted c = true) : (s.slot c j).Removed :=
  ⟨(h.walk.seen c j hb).1, (h.slots.ok c j).gone
    (.inr (h.slots.deleted c hd j (h.before_reserved hb).2.1))⟩

/-- The scan begins with a chunk. -/
theorem Inv.lastItem (h : s.Inv T l) {c : Nat} (hx : s.scan = .lastItem c)
    (hcare : s.CarefulLook (.lastItem c)) (hs : s.step T .look = some s') : s'.Inv T l := by
  have hok := h.walk.ok
  rw [hx] at hok
  have hnext : s.next c ≠ 0 := hcare
  rw [step, hx, Crowd.look] at hs
  cases hlast : (s.chunks.chunk c).getLastItem T with
  | none =>
      rw [hlast] at hs
      obtain rfl := Option.some.inj hs
      refine h.pass hx (by simp) (by simp) (fun _ _ => rfl) trivial (fun _ _ hp => hp.elim) ?_
      intro c' j' hb _ _
      -- there are no slots at all
      have hT : j' < T := (h.before_reserved hb).2.1
      have hmin : min (s.next c) T = 0 := by
        unfold Chunk.getLastItem at hlast
        split at hlast
        · rename_i e
          exact e
        · cases hlast
      omega
  | some j =>
      rw [hlast] at hs
      obtain rfl := Option.some.inj hs
      have hmin : min (s.next c) T = j + 1 := by
        unfold Chunk.getLastItem at hlast
        split at hlast
        · cases hlast
        · rename_i e
          rw [← Option.some.inj hlast]
          exact e
      refine h.pass hx (by simp) (by simp) (fun c' j' => by simp [Scan.ref, Acquire.holds])
        ⟨hok, by simp [Acquire.holds], trivial⟩ ?_ ?_
      · intro c' j' hp
        simp only [Pending] at hp ⊢
        omega
      · intro c' j' hb hp hp'
        simp only [Pending] at hp hp'
        obtain ⟨-, hj, hlt⟩ := h.before_reserved hb
        obtain rfl : c' = c := by omega
        omega

theorem Inv.loadPrev (h : s.Inv T l) {c q : Nat} (hx : s.scan = .loadPrev c q)
    (hs : s.step T .look = some s') : s'.Inv T l := by
  have hok := h.walk.ok
  rw [hx] at hok
  obtain ⟨hc, hq, hqc, hd⟩ := hok
  rw [step, hx] at hs
  obtain rfl := Option.some.inj hs
  refine h.pass hx (by simp) (by simp) (fun _ _ => rfl) ⟨hc, ?_⟩ (fun _ _ e => e)
    fun _ _ _ hp hp' => absurd hp hp'
  have hprev := h.chain.prev q hq
  cases hp : (s.chunks.chunk q).prev with
  | none =>
      rw [hp] at hprev
      intro b hb hbc
      rcases Nat.lt_or_ge b q with hlt | hge
      · exact hprev b hb hlt
      · exact hd b hb hge hbc
  | some p =>
      rw [hp] at hprev
      obtain ⟨hpl, hpq, hbetween⟩ := hprev
      refine ⟨hpl, hpq.trans_le hqc, fun b hb hpb hbc => ?_⟩
      rcases Nat.lt_or_ge b q with hlt | hge
      · exact hbetween b hb hpb hlt
      · exact hd b hb hge hbc

theorem Inv.checkDeleted (h : s.Inv T l) {c : Nat} {p : Option Nat}
    (hx : s.scan = .checkDeleted c p) (hs : s.step T .look = some s') : s'.Inv T l := by
  have hok := h.walk.ok
  rw [hx] at hok
  obtain ⟨hc, hback⟩ := hok
  rw [step, hx] at hs
  cases p with
  | none =>
      obtain rfl := Option.some.inj hs
      exact h.pass hx (by simp) (by simp) (fun _ _ => rfl) ⟨hc, hback⟩ (fun _ _ e => e)
        fun _ _ _ hp hp' => absurd hp hp'
  | some p =>
      obtain ⟨hpl, hpc, hbetween⟩ := hback
      rw [Crowd.look] at hs
      split at hs
      · rename_i hdel
        obtain rfl := Option.some.inj hs
        refine h.pass hx (by simp) (by simp) (fun _ _ => rfl) ⟨hc, hpl, hpc.le, ?_⟩ (fun _ _ e => e)
          fun _ _ _ hp hp' => absurd hp hp'
        intro b hb hpb hbc
        rcases Nat.eq_or_lt_of_le hpb with rfl | hlt
        · exact hdel
        · exact hbetween b hb hlt hbc
      · obtain rfl := Option.some.inj hs
        exact h.pass hx (by simp) (by simp) (fun _ _ => rfl) ⟨hc, hpl, hpc, hbetween⟩
          (fun _ _ e => e) fun _ _ _ hp hp' => absurd hp hp'

theorem Inv.readPrev (h : s.Inv T l) {c : Nat} (hx : s.scan = .readPrev c)
    (hs : s.step T .look = some s') : s'.Inv T l := by
  have hc := h.walk.ok
  rw [hx] at hc
  have hprev := h.chain.prev c hc
  rw [step, hx, Crowd.look] at hs
  cases hp : (s.chunks.chunk c).prev with
  | none =>
      rw [hp] at hs hprev
      obtain rfl := Option.some.inj hs
      refine h.pass hx (by simp) (by simp) (fun _ _ => rfl) trivial (fun _ _ hp => hp.elim) ?_
      intro c' j' hb hlt _
      exact h.before_deleted hb (hprev c' (h.before_reserved hb).1 hlt)
  | some p =>
      rw [hp] at hs hprev
      obtain rfl := Option.some.inj hs
      obtain ⟨hpl, hpc, hbetween⟩ := hprev
      refine h.pass hx (by simp) (by simp) (fun _ _ => rfl) hpl (fun c' _ hle => ?_) ?_
      · exact lt_of_le_of_lt hle hpc
      · intro c' j' hb hlt hnot
        exact h.before_deleted hb (hbetween c' (h.before_reserved hb).1 (not_le.mp hnot) hlt)

/-- The pointer of a chunk is moved over the deleted ones. -/
theorem Inv.storePrevScan (h : s.Inv T l) {c : Nat} {p : Option Nat} (hx : s.scan = .storePrev c p)
    (hs : s.step T .look = some s') : s'.Inv T l := by
  have hok := h.walk.ok
  rw [hx] at hok
  obtain ⟨hc, hback⟩ := hok
  rw [step, hx] at hs
  obtain rfl := Option.some.inj hs
  generalize hs' : ({ s with
    chunks := s.chunks.modify c fun b => { b with prev := p }
    scan := .readPrev c } : Crowd ι) = s'
  have hchunks : s'.chunks = s.chunks.modify c fun b => { b with prev := p } := by rw [← hs']
  have hscan : s'.scan = .readPrev c := by rw [← hs']
  have hhead : s'.chunks.head = s.chunks.head := by
    rw [hchunks]
    rfl
  have hplace : s'.place = s.place := by rw [← hs']
  have hslot : ∀ c' j, s'.slot c' j = s.slot c' j :=
    modify_slot hchunks (fun _ => rfl) (fun _ => rfl) (by rw [← hs']) (by rw [← hs'])
      (by rw [← hs'])
  have hnext : ∀ c', s'.next c' = s.next c' :=
    Chunks.same_of_modify hchunks Chunk.nextItem fun _ => rfl
  have hdel : ∀ c', s'.deleted c' = s.deleted c' :=
    Chunks.same_of_modify hchunks Chunk.deleted fun _ => rfl
  have hne : ∀ c', c' ≠ c → (s'.chunks.chunk c').prev = (s.chunks.chunk c').prev := by
    intro c' hc'
    rw [hchunks, Chunks.modify_chunk_of_ne hc']
  have g : Grows s s' l l := .of_slots (by rw [← hs']; exact le_rfl) (fun c' _ => (hnext c').ge)
    hslot fun c' _ hd => (hdel c').trans hd
  have hslots : s'.Slots T l := {
    ok := by
      intro c' j
      have href : s'.scan.ref c' j = s.scan.ref c' j := by
        rw [hscan, hx]
        rfl
      rw [hslot, href]
      exact h.slots.ok c' j
    reserved := by
      intro c' j hv
      rw [hslot] at hv
      rw [hnext]
      exact h.slots.reserved c' j hv
    skips := by
      intro c' j hr k hk hlt
      rw [hslot] at hr hlt ⊢
      exact h.slots.skips c' j hr k hk hlt
    freed := by
      intro c'
      rw [Chunks.same_of_modify hchunks Chunk.freedItems fun _ => rfl, h.slots.freed c']
      simp only [hslot]
    deleted := by
      intro c' hd j hj
      rw [hslot]
      exact h.slots.deleted c' ((hdel c').symm.trans hd) j hj }
  exact {
    chain := by
      refine h.chain.mono g hhead fun c' _ => ?_
      rcases eq_or_ne c' c with rfl | hc'
      · refine .inr ?_
        rw [hchunks, Chunks.modify_chunk_self]
        exact g.leadsBack hc hback
      · exact .inl (hne c' hc')
    slots := hslots
    elements := h.elements.congr (fun c' j => by rw [hslot]) (by rw [← hs']) fun k => by rw [hplace]
    threads := by
      refine h.threads.stay g hplace hhead hnext (fun c' j => by rw [hslot]) (fun k n hk => ?_)
        fun _ c' j _ => by rw [hslot]
      -- a new chunk is not linked, so it is not the one that is changed
      refine hne n ?_
      rintro rfl
      exact (h.new_of_token hk).2.1 hc
    walk := by
      refine h.walk.move g (by rw [← hs']) (by rw [← hs']) (by rw [hx]; simp) (by rw [hscan]; simp)
        ?_ ?_ ?_
      · rw [hscan]
        exact hc
      · rw [hscan, hx]
        exact fun _ _ e => e
      · rw [hscan, hx]
        exact fun _ _ _ hp hp' => absurd hp hp' }

/-! ### The items of a chunk -/

omit [DecidableEq ι] in
/-- A distance leads over slots that the scan may leave out. -/
theorem Inv.barred (h : s.Inv T l) (c j : Nat) : s.Barred c j (s.slot c j).item.iterOffset := by
  intro k hk hlt hb
  by_cases hv : (s.slot c j).value = none
  · -- the slot is not published, so that its distance is one
    rw [((h.slots.ok c j).blank hv).1] at hlt
    obtain rfl : k = j := by omega
    exact absurd hv (h.walk.seen c k hb).1
  · refine h.slots.skips c j ⟨hv, fun e => ?_⟩ k hk hlt
    rw [e] at hlt
    omega

omit [DecidableEq ι] in
/-- Where the scan goes by a distance. -/
theorem jump_ok {c j d : Nat} {a : Acquire} {y : Scan} (hc : c ∈ l) (hbar : s.Barred c j (d + 1))
    (hy : d + 1 ≤ j ∧ y = .acquire c (j - (d + 1)) .loadOffset ∨ j < d + 1 ∧ y = .loadPrev c c) :
    s.ScanOk l y ∧ (∀ c' j', y.ref c' j' = 0) ∧ y ≠ .waiting ∧
      (∀ c' j', Pending y c' j' → Pending (.acquire c j a) c' j') ∧
      ∀ c' j', s.before c' j' = true → Pending (.acquire c j a) c' j' → ¬ Pending y c' j' →
        (s.slot c' j').Removed := by
  rcases hy with ⟨hle, rfl⟩ | ⟨hlt, rfl⟩
  · refine ⟨⟨hc, by simp [Acquire.holds], trivial⟩, by simp [Scan.ref, Acquire.holds], by simp,
      fun c' j' hp => ?_, fun c' j' hb hp hp' => ?_⟩
    · simp only [Pending] at hp ⊢
      omega
    · simp only [Pending] at hp hp'
      obtain rfl : c' = c := by omega
      exact hbar j' (by omega) (by omega) hb
  · refine ⟨⟨hc, hc, le_rfl, fun b _ hcb hbc => by omega⟩, fun _ _ => rfl, by simp,
      fun c' j' hp => .inl hp, fun c' j' hb hp hp' => ?_⟩
    simp only [Pending] at hp hp'
    obtain rfl : c' = c := by omega
    exact hbar j' (by omega) (by omega) hb

omit [DecidableEq ι] in
theorem ref_acquire (c j : Nat) (a : Acquire) :
    (Scan.acquire c j a).ref c j = a.holds.toNat := by
  cases ha : a.holds <;> simp [Scan.ref, ha]

omit [DecidableEq ι] in
theorem ref_acquire_of_ne {c j c' j' : Nat} (a : Acquire) (h : (c', j') ≠ (c, j)) :
    (Scan.acquire c j a).ref c' j' = 0 := by
  refine if_neg fun e => h ?_
  rw [e.1, e.2.1]

theorem Inv.acquireScan (h : s.Inv T l) {c j : Nat} {a : Acquire} (hx : s.scan = .acquire c j a)
    (hcare : s.CarefulLook (.acquire c j a)) (hs : s.step T .look = some s') : s'.Inv T l := by
  have hok := h.walk.ok
  rw [hx] at hok
  obtain ⟨hc, hheld, ha⟩ := hok
  have hslot := h.slots.ok c j
  have hcount := hslot.count
  rw [hx, ref_acquire] at hcount
  have hdropped : (s.slot c j).phase.dropped ≤ 1 := by
    cases (s.slot c j).phase <;> decide
  have hkept := Bool.toNat_le (s.slot c j).kept
  rw [step, hx] at hs
  cases a with
  | loadOffset =>
      obtain rfl := Option.some.inj hs
      refine h.look c j rfl rfl rfl rfl rfl rfl rfl (fun _ => rfl) ?_ ?_ fun g => ?_
      · rw [ref_acquire]
        exact hcount
      · intro c' j' hne
        rw [hx, ref_acquire_of_ne _ hne, ref_acquire_of_ne _ hne]
      · refine h.walk.move g rfl rfl (by rw [hx]; simp) (by simp) ?_ ?_ ?_
        · refine g.scanOk rfl ⟨hc, by simp [Acquire.holds], fun e hv => ?_, h.barred c j⟩
          have hone := (hslot.blank hv).1
          have hzero : (s.slot c j).item.iterOffset = 0 := e
          omega
        · rw [hx]
          exact fun _ _ e => e
        · rw [hx]
          exact fun _ _ _ hp hp' => absurd hp hp'
  | loadRefcount off =>
      cases off with
      | zero =>
          -- the item looks alive
          have hr : 0 ≤ (s.chunks.item c j).refcount := hcare
          simp only [Crowd.look, Acquire.step, hr, and_self, if_true] at hs
          obtain rfl := Option.some.inj hs
          refine h.look c j rfl rfl rfl rfl rfl rfl rfl (fun _ => rfl) ?_ ?_ fun g => ?_
          · rw [ref_acquire]
            exact hcount
          · intro c' j' hne
            rw [hx, ref_acquire_of_ne _ hne, ref_acquire_of_ne _ hne]
          · refine h.walk.move g rfl rfl (by rw [hx]; simp) (by simp) ?_ ?_ ?_
            · exact g.scanOk rfl ⟨hc, by simp [Acquire.holds], ha.1 rfl⟩
            · rw [hx]
              exact fun _ _ e => e
            · rw [hx]
              exact fun _ _ _ hp hp' => absurd hp hp'
      | succ d =>
          -- the item is removed, and the scan jumps over what its offset spans
          have hstep : Acquire.step (s.chunks.item c j) (.loadRefcount (d + 1)) =
              (s.chunks.item c j, .inr (d + 1)) := by
            simp [Acquire.step]
          obtain ⟨y, hy, hsy⟩ : ∃ y, (d + 1 ≤ j ∧ y = .acquire c (j - (d + 1)) .loadOffset ∨
              j < d + 1 ∧ y = .loadPrev c c) ∧ s' = { s with
                chunks := s.chunks.setItem c j (s.chunks.item c j), scan := y } := by
            simp only [Crowd.look, hstep] at hs
            split at hs
            · rename_i hle
              exact ⟨_, .inl ⟨hle, rfl⟩, (Option.some.inj hs).symm⟩
            · rename_i hle
              exact ⟨_, .inr ⟨not_le.mp hle, rfl⟩, (Option.some.inj hs).symm⟩
          subst hsy
          obtain ⟨hoky, href, hwaiting, hpending, hskip⟩ := jump_ok hc ha.2 hy
          refine h.look c j rfl rfl rfl rfl rfl rfl rfl (fun _ => rfl) ?_ ?_ fun g => ?_
          · rw [href]
            exact hcount
          · intro c' j' hne
            rw [hx, ref_acquire_of_ne _ hne, href]
          · refine h.walk.move g rfl rfl (by rw [hx]; simp) hwaiting (g.scanOk rfl hoky) ?_ ?_
            · rw [hx]
              exact hpending
            · rw [hx]
              exact hskip
  | fetchAdd =>
      obtain rfl := Option.some.inj hs
      have hr : (s.slot c j).item.refcount =
          (s.slot c j).kept.toNat - ((s.slot c j).phase.dropped : Int) := by
        rw [hcount]
        simp [Acquire.holds]
      refine h.look c j rfl rfl rfl rfl rfl rfl rfl (fun _ => rfl) ?_ ?_ fun g => ?_
      · rw [ref_acquire]
        show ((s.slot c j).item.refcount + 1).bmod wordSize = _
        rw [ItemState.bmod_wordSize (by omega) (by omega), hr]
        simp only [Acquire.holds, Bool.toNat_true]
        omega
      · intro c' j' hne
        rw [hx, ref_acquire_of_ne _ hne, ref_acquire_of_ne _ hne]
      · refine h.walk.move g rfl rfl (by rw [hx]; simp) (by simp) ?_ ?_ ?_
        · refine g.scanOk rfl ⟨hc, fun _ => ha, fun hneg => ⟨ha, hslot.gone ?_⟩⟩
          -- a negative count without a reference is that of a removed element
          have hneg' : (s.slot c j).item.refcount < 0 := hneg
          have hd : (s.slot c j).phase.dropped = 1 := by omega
          cases hp : (s.slot c j).phase with
          | released => exact .inl rfl
          | freed => exact .inr rfl
          | _ =>
              rw [hp] at hd
              cases hd
        · rw [hx]
          exact fun _ _ e => e
        · rw [hx]
          exact fun _ _ _ hp hp' => absurd hp hp'
  | reload old =>
      have hv := hheld rfl
      by_cases hlive : 0 ≤ old ∧ (s.chunks.item c j).iterOffset = 0
      · simp only [Crowd.look, Acquire.step, hlive, and_self, if_true] at hs
        obtain rfl := Option.some.inj hs
        refine h.look c j rfl rfl rfl rfl rfl rfl rfl (fun _ => rfl) ?_ ?_ fun g => ?_
        · rw [show (Scan.visiting c j).ref c j = 1 from if_pos ⟨rfl, rfl⟩]
          exact hcount
        · intro c' j' hne
          rw [hx, ref_acquire_of_ne _ hne]
          refine if_neg fun e => hne ?_
          rw [e.1, e.2]
        · refine ⟨g.scanOk (x := .visiting c j) rfl ⟨hc, hv⟩, by simp, ?_, ?_, ?_, ?_⟩
          · refine List.nodup_cons.mpr ⟨fun hmem => h.walk.passed _ hmem ?_, h.walk.nodup⟩
            rw [hx]
            exact .inr ⟨rfl, le_rfl⟩
          · intro q hq hp
            simp only [Pending] at hp
            rcases List.mem_cons.mp hq with rfl | hq
            · omega
            · refine h.walk.passed q hq ?_
              rw [hx]
              simp only [Pending]
              omega
          · intro _ c' j' hb hz
            have hz' : (s.slot c' j').item.iterOffset = 0 := by
              by_contra hne
              rw [g.removed c' j' ⟨(h.walk.seen c' j' hb).1, hne⟩] at hz
              exact hne hz
            rcases h.walk.complete (by rw [hx]; simp) c' j' hb hz' with hvis | hp
            · exact .inl (List.mem_cons_of_mem _ hvis)
            · rw [hx] at hp
              simp only [Pending] at hp ⊢
              rcases eq_or_ne (c', j') (c, j) with e | hne
              · refine .inl ?_
                rw [e]
                exact List.mem_cons_self
              · refine .inr ?_
                have : ¬ (c' = c ∧ j' = j) := fun e => hne (by rw [e.1, e.2])
                omega
          · exact fun c' j' hb =>
              ⟨g.present (h.walk.seen c' j' hb).1, g.returned c' j' (h.walk.seen c' j' hb).2⟩
      · simp only [Crowd.look, Acquire.step, hlive, if_false] at hs
        obtain rfl := Option.some.inj hs
        -- removed between the two looks: the reference is given up again
        have hrem : (s.slot c j).Removed := by
          refine ⟨hv, fun hz => hlive ⟨?_, hz⟩⟩
          by_contra hneg
          exact (ha (not_le.mp hneg)).2 hz
        refine h.look c j rfl rfl rfl rfl rfl rfl rfl (fun _ => rfl) ?_ ?_ fun g => ?_
        · rw [ref_acquire]
          exact hcount
        · intro c' j' hne
          rw [hx, ref_acquire_of_ne _ hne, ref_acquire_of_ne _ hne]
        · refine h.walk.move g rfl rfl (by rw [hx]; simp) (by simp) ?_ ?_ ?_
          · exact g.scanOk rfl ⟨hc, fun _ => hv, hrem.2, h.barred c j⟩
          · rw [hx]
            exact fun _ _ e => e
          · rw [hx]
            exact fun _ _ _ hp hp' => absurd hp hp'
  | undo off =>
      -- the reference is given up, and the scan jumps as it would have done before
      obtain ⟨hne₀, hbar⟩ := ha
      obtain ⟨d, rfl⟩ := Nat.exists_eq_succ_of_ne_zero hne₀
      have hv := hheld rfl
      have hr : (s.slot c j).item.refcount =
          (s.slot c j).kept.toNat + 1 - ((s.slot c j).phase.dropped : Int) := by
        rw [hcount]
        simp [Acquire.holds]
      obtain ⟨y, hy, hsy⟩ : ∃ y, (d + 1 ≤ j ∧ y = .acquire c (j - (d + 1)) .loadOffset ∨
          j < d + 1 ∧ y = .loadPrev c c) ∧ s' = { s with
            chunks := s.chunks.setItem c j (s.chunks.item c j).fetchSub, scan := y } := by
        simp only [Crowd.look, Acquire.step] at hs
        split at hs
        · rename_i hle
          exact ⟨_, .inl ⟨hle, rfl⟩, (Option.some.inj hs).symm⟩
        · rename_i hle
          exact ⟨_, .inr ⟨not_le.mp hle, rfl⟩, (Option.some.inj hs).symm⟩
      subst hsy
      obtain ⟨hoky, href, hwaiting, hpending, hskip⟩ := jump_ok hc hbar hy
      refine h.look c j rfl rfl rfl rfl rfl rfl rfl (fun _ => rfl) ?_ ?_ fun g => ?_
      · rw [href]
        show ((s.slot c j).item.refcount - 1).bmod wordSize = _
        rw [ItemState.bmod_wordSize (by omega) (by omega), hr]
        push_cast
        omega
      · intro c' j' hne
        rw [hx, ref_acquire_of_ne _ hne, href]
      · refine h.walk.move g rfl rfl (by rw [hx]; simp) hwaiting (g.scanOk rfl hoky) ?_ ?_
        · rw [hx]
          exact hpending
        · rw [hx]
          exact hskip

/-- The scan drops its iterator and goes on. -/
theorem Inv.visiting (h : s.Inv T l) {c j : Nat} (hx : s.scan = .visiting c j)
    (hs : s.step T .look = some s') : s'.Inv T l := by
  have hok := h.walk.ok
  rw [hx] at hok
  obtain ⟨hc, hv⟩ := hok
  have hcount := (h.slots.ok c j).count
  rw [hx, show (Scan.visiting c j).ref c j = 1 from if_pos ⟨rfl, rfl⟩] at hcount
  have hdropped : (s.slot c j).phase.dropped ≤ 1 := by
    cases (s.slot c j).phase <;> decide
  have hkept := Bool.toNat_le (s.slot c j).kept
  have hthrow : (s.chunks.item c j).releaseThrows = false := by
    rw [Item.releaseThrows, decide_eq_false_iff_not]
    have : (s.chunks.item c j).refcount = _ := hcount
    omega
  rw [step, hx] at hs
  simp only [Crowd.look, hthrow] at hs
  obtain rfl := Option.some.inj hs
  have honward : s.ScanOk l (onward c j) ∧ (∀ c' j', (onward c j).ref c' j' = 0) ∧
      onward c j ≠ .waiting ∧
      ∀ c' j', Pending (onward c j) c' j' ↔ Pending (.visiting c j) c' j' := by
    cases j with
    | zero =>
        refine ⟨⟨hc, hc, le_rfl, fun b _ hcb hbc => by omega⟩, fun _ _ => rfl, by simp [onward],
          fun c' j' => ?_⟩
        simp only [onward, Pending]
        omega
    | succ j =>
        refine ⟨⟨hc, by simp [Acquire.holds], trivial⟩,
          by simp [onward, Scan.ref, Acquire.holds], by simp [onward], fun c' j' => ?_⟩
        simp only [onward, Pending]
        omega
  obtain ⟨hoky, href, hwaiting, hpending⟩ := honward
  refine h.look c j rfl rfl rfl rfl rfl rfl rfl (fun e => absurd e hv) ?_ ?_ fun g => ?_
  · show ((s.slot c j).item.refcount - 1).bmod wordSize =
      (s.slot c j).kept.toNat + ((onward c j).ref c j : Int) - (s.slot c j).phase.dropped
    rw [href, ItemState.bmod_wordSize (by omega) (by omega), hcount]
    push_cast
    omega
  · intro c' j' hne
    show (onward c j).ref c' j' = _
    rw [hx, href, eq_comm]
    refine if_neg fun e => hne ?_
    rw [e.1, e.2]
  · refine h.walk.move g rfl rfl (by rw [hx]; simp) hwaiting (g.scanOk rfl hoky) ?_ ?_
    · rw [hx]
      exact fun c' j' => (hpending c' j').mp
    · rw [hx]
      exact fun c' j' _ hp hp' => absurd ((hpending c' j').mpr hp) hp'

/-! ### The scan comes to an end -/

omit [DecidableEq ι] in
theorem look_isSome {x : Scan} (hwaiting : x ≠ .waiting) (hdone : x ≠ .done) (hthrown : x ≠ .thrown) :
    ∃ s₁, s.look T x = some s₁ := by
  cases x with
  | waiting => exact absurd rfl hwaiting
  | done => exact absurd rfl hdone
  | thrown => exact absurd rfl hthrown
  | lastItem c =>
      rw [Crowd.look]
      split
      · exact ⟨_, rfl⟩
      · exact ⟨_, rfl⟩
  | acquire c j a =>
      simp only [Crowd.look]
      split
      · exact ⟨_, rfl⟩
      · exact ⟨_, rfl⟩
      · split
        · exact ⟨_, rfl⟩
        · exact ⟨_, rfl⟩
  | visiting c j | loadPrev c q => exact ⟨_, rfl⟩
  | checkDeleted c p => cases p <;> exact ⟨_, rfl⟩
  | storePrev c p => exact ⟨_, rfl⟩
  | readPrev c =>
      rw [Crowd.look]
      split
      · exact ⟨_, rfl⟩
      · exact ⟨_, rfl⟩

/-- `acquire` has fewer operations left after each of them. -/
theorem left_lt {a b : Acquire} {x : Item} (h : (a.step x).2 = .inl b) : b.left < a.left := by
  cases a with
  | loadOffset =>
      obtain rfl := Sum.inl.inj h
      exact Nat.lt_succ_self 4
  | loadRefcount off =>
      simp only [Acquire.step] at h
      split at h
      · obtain rfl := Sum.inl.inj h
        exact Nat.lt_succ_self 3
      · cases h
  | fetchAdd =>
      obtain rfl := Sum.inl.inj h
      exact Nat.lt_succ_self 2
  | reload old =>
      simp only [Acquire.step] at h
      split at h
      · cases h
      · obtain rfl := Sum.inl.inj h
        exact Nat.lt_succ_self 1
  | undo off => cases h

omit [DecidableEq ι] in
/-- Each operation of the scan brings it nearer to its end. -/
theorem Inv.rank_lt (h : s.Inv T l) (hs : s.look T s.scan = some s') :
    s'.scan.rank < s.scan.rank := by
  have hok := h.walk.ok
  cases hx : s.scan with
  | waiting | done | thrown =>
      rw [hx] at hs
      cases hs
  | lastItem c =>
      rw [hx, Crowd.look] at hs
      split at hs
      · obtain rfl := Option.some.inj hs
        simp [Scan.rank, Prod.Lex.lt_iff]
      · obtain rfl := Option.some.inj hs
        simp [Scan.rank, Prod.Lex.lt_iff]
  | acquire c j a =>
      rw [hx] at hs
      simp only [Crowd.look] at hs
      split at hs
      · rename_i b hstep
        obtain rfl := Option.some.inj hs
        simp [Scan.rank, Prod.Lex.lt_iff, left_lt hstep]
      · obtain rfl := Option.some.inj hs
        have hleft : 0 < a.left := by
          cases a <;> exact Nat.succ_pos _
        simp [Scan.rank, Prod.Lex.lt_iff, hleft]
      · rename_i d _
        split at hs
        · obtain rfl := Option.some.inj hs
          have hlt : j - (d + 1) < j := by omega
          simp [Scan.rank, Prod.Lex.lt_iff, hlt]
        · obtain rfl := Option.some.inj hs
          simp [Scan.rank, Prod.Lex.lt_iff]
  | visiting c j =>
      rw [hx] at hs
      obtain rfl := Option.some.inj hs
      show (if _ then Scan.thrown else onward c j).rank < _
      split
      · simp [Scan.rank, Prod.Lex.lt_iff]
      · cases j <;> simp [onward, Scan.rank, Prod.Lex.lt_iff]
  | loadPrev c q =>
      rw [hx] at hs hok
      obtain rfl := Option.some.inj hs
      have hprev := h.chain.prev q hok.2.1
      show (Scan.checkDeleted c (s.chunks.chunk q).prev).rank < _
      cases hp : (s.chunks.chunk q).prev with
      | none =>
          simp only [Scan.rank, Prod.Lex.lt_iff, ofLex_toLex]
          rcases Nat.eq_zero_or_pos q with rfl | hq
          · simp
          · simp [hq]
      | some p =>
          rw [hp] at hprev
          simp [Scan.rank, Prod.Lex.lt_iff, hprev.2.1]
  | checkDeleted c p =>
      rw [hx] at hs
      cases p with
      | none =>
          obtain rfl := Option.some.inj hs
          simp [Scan.rank, Prod.Lex.lt_iff]
      | some p =>
          obtain rfl := Option.some.inj hs
          show (if _ then Scan.loadPrev c p else Scan.storePrev c (some p)).rank < _
          split <;> simp [Scan.rank, Prod.Lex.lt_iff]
  | storePrev c p =>
      rw [hx] at hs
      obtain rfl := Option.some.inj hs
      simp [Scan.rank, Prod.Lex.lt_iff]
  | readPrev c =>
      rw [hx] at hok hs
      have hprev := h.chain.prev c hok
      rw [Crowd.look] at hs
      split at hs
      · obtain rfl := Option.some.inj hs
        simp [Scan.rank, Prod.Lex.lt_iff]
      · rename_i p hp
        obtain rfl := Option.some.inj hs
        rw [hp] at hprev
        simp [Scan.rank, Prod.Lex.lt_iff, hprev.2.1]

/-! ### Runs -/

omit [DecidableEq ι] in
theorem Inv.initial (T : Nat) (ι : Type) : (Crowd.initial ι).Inv T [] where
  chain := ⟨rfl, List.Pairwise.nil, by simp, by simp, by simp⟩
  slots := by
    have hslot : ∀ c j, (Crowd.initial ι).slot c j = ⟨none, Item.init, .new, false, 0⟩ :=
      fun _ _ => rfl
    refine ⟨fun c j => ?_, fun c j hv => absurd rfl hv, fun c j hr => absurd rfl hr.1, fun c => ?_,
      fun c hd => by cases hd⟩
    · rw [hslot]
      exact ⟨fun _ => ⟨rfl, rfl, rfl, rfl, rfl⟩, fun e => absurd rfl e, fun e => absurd rfl e,
        by simp, rfl⟩
    · simp only [hslot]
      simp
      rfl
  elements := by
    refine ⟨fun h₁ => ?_, fun h₁ => ?_, fun i k hk => ?_, fun _ => le_rfl⟩
    · cases h₁
    · cases h₁
    · exact absurd hk (Nat.not_lt_zero _)
  threads := by
    refine ⟨fun _ _ _ hk => ?_, fun _ => trivial, fun _ hc => ?_, fun _ hc => ?_, by simp⟩
    · cases hk
    · cases hc
    · cases hc
  walk := ⟨trivial, fun _ => rfl, List.nodup_nil, by simp [Crowd.initial],
    fun e => absurd rfl e, fun _ _ hb => by cases hb⟩

/-- **Every careful step keeps the invariant.** -/
theorem Inv.step_inv (h : s.Inv T l) {a : CrowdAction ι} (hcare : s.Careful a)
    (hs : s.step T a = some s') : ∃ l', s'.Inv T l' := by
  cases a with
  | push i => exact ⟨l, h.push hs⟩
  | remove i c j => exact ⟨l, h.remove hs⟩
  | drop c j => exact ⟨l, h.drop hs⟩
  | go i => exact h.go hcare hs
  | rbegin => exact ⟨l, h.rbegin hs⟩
  | look =>
      have hcare' : s.CarefulLook s.scan := hcare
      refine ⟨l, ?_⟩
      cases hx : s.scan with
      | lastItem c => exact h.lastItem hx (hx ▸ hcare') hs
      | acquire c j a => exact h.acquireScan hx (hx ▸ hcare') hs
      | visiting c j => exact h.visiting hx hs
      | loadPrev c q => exact h.loadPrev hx hs
      | checkDeleted c p => exact h.checkDeleted hx hs
      | storePrev c p => exact h.storePrevScan hx hs
      | readPrev c => exact h.readPrev hx hs
      | _ =>
          rw [step, hx] at hs
          cases hs

theorem inv_of_reaches (h : Reaches (step T) Careful (Crowd.initial ι) s) : ∃ l, s.Inv T l :=
  h.invariant (I := fun s : Crowd ι => ∃ l, s.Inv T l) ⟨[], Inv.initial T ι⟩
    fun _ _ _ ⟨_, hi⟩ hcare hs => hi.step_inv hcare hs

/-- **A concurrent scan misses nothing.**  In every run of careful steps the scan
does not throw, it comes nearer to its end with each of its operations, and when it
has ended it has visited every element whose push had returned before it began and
that is not removed, each once. -/
theorem scan_misses_nothing (h : Reaches (step T) Careful (Crowd.initial ι) s) :
    s.scan ≠ .thrown ∧ (∀ p, s.visited.count p ≤ 1) ∧
      (s.scan ≠ .waiting → s.scan ≠ .done →
        ∃ s', s.step T .look = some s' ∧ s'.scan.rank < s.scan.rank) ∧
      (s.scan = .done → ∀ c j, s.before c j = true → (s.chunks.item c j).iterOffset = 0 →
        s.visited.count (c, j) = 1) := by
  obtain ⟨l, hi⟩ := inv_of_reaches h
  have hthrown : s.scan ≠ .thrown := by
    intro e
    have hok := hi.walk.ok
    rw [e] at hok
    exact hok
  refine ⟨hthrown, List.nodup_iff_count_le_one.mp hi.walk.nodup, fun hwaiting hdone => ?_, ?_⟩
  · obtain ⟨s', hs'⟩ := look_isSome (s := s) (T := T) hwaiting hdone hthrown
    exact ⟨s', hs', hi.rank_lt hs'⟩
  · intro hdone c j hb hz
    rcases hi.walk.complete (by rw [hdone]; simp) c j hb hz with hv | hp
    · exact List.count_eq_one_of_mem hi.walk.nodup hv
    · rw [hdone] at hp
      exact hp.elim

/-- Two elements are pushed.  The one of thread 1 is removed after the scan has come
by its slot, and thread 0 is about to push a third one into a new chunk. -/
theorem scan_misses_nothing_two :
    ∃ s : Crowd (Fin 2), Reaches (step 2) Careful (Crowd.initial (Fin 2)) s ∧ s.scan = .done ∧
      s.before 0 0 = true ∧ (s.chunks.item 0 0).iterOffset = 0 ∧ s.visited.count (0, 0) = 1 := by
  have hrun : (exec (step 2) Careful
      (List.flatten [[.push 0], List.replicate 11 (.go 0), [.push 1], List.replicate 8 (.go 1),
        [.rbegin], List.replicate 5 .look, [.remove 1 0 1], List.replicate 4 (.go 1),
        [.push 0], List.replicate 4 (.go 0), List.replicate 10 .look])
      (Crowd.initial (Fin 2))).map (fun s => (s.scan, s.before 0 0, (s.chunks.item 0 0).iterOffset)) =
        some (.done, true, 0) := by
    decide +kernel
  obtain ⟨s, hs, hp⟩ := Option.map_eq_some_iff.mp hrun
  obtain ⟨hdone, hp⟩ := Prod.mk.inj hp
  obtain ⟨hb, hz⟩ := Prod.mk.inj hp
  have hreach := Reaches.refl.of_exec hs
  exact ⟨s, hreach, hdone, hb, hz, (scan_misses_nothing hreach).2.2.2 hdone 0 0 hb hz⟩

/-- The head is a new chunk, and its first slot is not reserved yet: the scan ends
at once and does not come by the full chunk behind it. -/
theorem scan_ends_at_empty_chunk :
    ∃ s : Crowd (Fin 2), Reaches (step 1) (fun _ _ => True) (Crowd.initial (Fin 2)) s ∧
      s.scan = .done ∧ s.before 0 0 = true ∧ (s.chunks.item 0 0).iterOffset = 0 ∧
      s.visited.count (0, 0) = 0 := by
  have hrun : (exec (step 1) (fun _ _ => True)
      (List.flatten [[.push 0], List.replicate 11 (.go 0), [.push 1], List.replicate 7 (.go 1),
        [.rbegin, .look]])
      (Crowd.initial (Fin 2))).map (fun s => (s.scan, s.before 0 0, (s.chunks.item 0 0).iterOffset,
        s.visited.count (0, 0))) = some (.done, true, 0, 0) := by
    decide +kernel
  obtain ⟨s, hs, hp⟩ := Option.map_eq_some_iff.mp hrun
  obtain ⟨hdone, hp⟩ := Prod.mk.inj hp
  obtain ⟨hb, hp⟩ := Prod.mk.inj hp
  obtain ⟨hz, hv⟩ := Prod.mk.inj hp
  exact ⟨s, Reaches.refl.of_exec hs, hdone, hb, hz, hv⟩

/-- Thread 1 removes its element while the slot in front of it is reserved and not
published: the distance it writes leads over that slot too, and the scan does not
come by the element that is published there. -/
theorem scan_jumps_over_neighbour :
    ∃ s : Crowd (Fin 2), Reaches (step 2) (fun _ _ => True) (Crowd.initial (Fin 2)) s ∧
      s.scan = .done ∧ s.before 0 0 = true ∧ (s.chunks.item 0 0).iterOffset = 0 ∧
      s.visited.count (0, 0) = 0 := by
  have hrun : (exec (step 2) (fun _ _ => True)
      (List.flatten [[.push 0], List.replicate 6 (.go 0), [.push 1], List.replicate 8 (.go 1),
        [.remove 1 0 1], List.replicate 4 (.go 1), List.replicate 5 (.go 0), [.rbegin],
        List.replicate 7 .look])
      (Crowd.initial (Fin 2))).map (fun s => (s.scan, s.before 0 0, (s.chunks.item 0 0).iterOffset,
        s.visited.count (0, 0))) = some (.done, true, 0, 0) := by
    decide +kernel
  obtain ⟨s, hs, hp⟩ := Option.map_eq_some_iff.mp hrun
  obtain ⟨hdone, hp⟩ := Prod.mk.inj hp
  obtain ⟨hb, hp⟩ := Prod.mk.inj hp
  obtain ⟨hz, hv⟩ := Prod.mk.inj hp
  exact ⟨s, Reaches.refl.of_exec hs, hdone, hb, hz, hv⟩

end Crowd

end RedGrapes.ChunkedList
