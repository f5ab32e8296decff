/-
RedGrapes/Memory/Bytes.lean

The blocks that any number of threads hold at one time do not overlap.

`occupied c a` counts the blocks of chunk `c` that the address `a` belongs to, among those in use
at any place: returned by `allocate`, reserved and not counted yet, or on their way through
`deallocate`.  A chunk hands out its addresses downwards, so below `next_addr` nothing is
occupied, and a bump takes a block from there (`Bytes.bump`).  All other steps move blocks from
one place to another, or give one back (`trans_keeps`).

What keeps the chunks apart is `Inv` of `Memory/Reclaim.lean`: a chunk with a block in use is not
flagged, so its memory is not used again.
-/
import RedGrapes.Memory.Reclaim

namespace RedGrapes.Memory

open Function Machine

/-- The block contains the byte at the address `a`. -/
def Held.contains (a : Nat) (x : Held) : Bool :=
  decide (x.blk.ptr ≤ a ∧ a < x.blk.ptr + x.blk.len)

/-- The block belongs to chunk `c` and contains the byte at the address `a`. -/
def Held.covers (c a : Nat) (x : Held) : Bool := x.owner == c && x.contains a

/-- The block that a thread is giving back, or has reserved. -/
def Place.blocks (p : Place) : List Held := p.held.toList ++ p.reserved.toList

namespace Arena

variable {ι : Type} [Fintype ι]

/-- How many blocks in use of chunk `c` the address belongs to. -/
def occupied (s : Arena ι) (c a : Nat) : Nat :=
  s.live.countP (Held.covers c a) + s.lost.countP (Held.covers c a) +
    weigh (fun p => p.blocks.countP (Held.covers c a)) s.place

/-- How many blocks in use contain the byte at the address. -/
def users (s : Arena ι) (a : Nat) : Nat :=
  s.live.countP (Held.contains a) + s.lost.countP (Held.contains a) +
    weigh (fun p => p.blocks.countP (Held.contains a)) s.place

/-- What is handed out lies between `next_addr` and the upper limit, and is handed out once. -/
structure Bytes (s : Arena ι) : Prop where
  once : ∀ c < s.fresh, ∀ a, s.occupied c a ≤ 1
  free : ∀ c < s.fresh, ∀ a, a < (s.node c).item.nextAddr → s.occupied c a = 0
  below : ∀ c < s.fresh, ∀ a, (s.node c).item.upperLimit ≤ a → s.occupied c a = 0

variable {L : Layout} {capacity : Nat} {s s' : Arena ι} {p : Place} {c a : Nat}

omit [Fintype ι] in
/-- A block that a thread has is in use. -/
theorem uses_of_mem_blocks {x : Held} {j : ι} (hx : x ∈ (s.place j).blocks) : s.Uses x := by
  rcases List.mem_append.mp hx with hx | hx
  · exact .inr (.inr ⟨j, .inl (Option.mem_toList.mp hx)⟩)
  · exact .inr (.inr ⟨j, .inr (Option.mem_toList.mp hx)⟩)

/-- An occupied address belongs to a block in use. -/
theorem exists_uses_of_occupied (h : 0 < s.occupied c a) :
    ∃ x, s.Uses x ∧ x.covers c a = true := by
  rcases Nat.eq_zero_or_pos (s.live.countP (Held.covers c a)) with h1 | h1
  · rcases Nat.eq_zero_or_pos (s.lost.countP (Held.covers c a)) with h2 | h2
    · unfold occupied at h
      have hw : 0 < weigh (fun p => p.blocks.countP (Held.covers c a)) s.place := by omega
      obtain ⟨j, hj⟩ := exists_of_weigh_pos hw
      obtain ⟨x, hx, hcov⟩ := List.countP_pos_iff.mp hj
      exact ⟨x, uses_of_mem_blocks hx, hcov⟩
    · obtain ⟨x, hx, hcov⟩ := List.countP_pos_iff.mp h2
      exact ⟨x, .inr (.inl hx), hcov⟩
  · obtain ⟨x, hx, hcov⟩ := List.countP_pos_iff.mp h1
    exact ⟨x, .inl hx, hcov⟩

/-- A block in use occupies its addresses. -/
theorem one_le_occupied {x : Held} (hx : s.Uses x) (hcov : x.covers c a = true) :
    1 ≤ s.occupied c a := by
  unfold occupied
  rcases hx with hx | hx | ⟨j, hx⟩
  · have := List.countP_pos_iff.mpr ⟨x, hx, hcov⟩
    omega
  · have := List.countP_pos_iff.mpr ⟨x, hx, hcov⟩
    omega
  · have hmem : x ∈ (s.place j).blocks := by
      rcases hx with hx | hx
      · exact List.mem_append_left _ (Option.mem_toList.mpr hx)
      · exact List.mem_append_right _ (Option.mem_toList.mpr hx)
    have hpos := List.countP_pos_iff.mpr ⟨x, hmem, hcov⟩
    have := le_weigh (fun p : Place => p.blocks.countP (Held.covers c a)) s.place j
    omega

variable [DecidableEq ι] {i : ι}

/-- The count when thread `i` goes to another place, in the form that balances. -/
theorem occupied_update (hplace : s'.place = update s.place i p) (c a : Nat) :
    s'.occupied c a + (s.live.countP (Held.covers c a) + s.lost.countP (Held.covers c a) +
        (s.place i).blocks.countP (Held.covers c a)) =
      s.occupied c a + (s'.live.countP (Held.covers c a) + s'.lost.countP (Held.covers c a) +
        p.blocks.countP (Held.covers c a)) := by
  have hw := weigh_update (fun p : Place => p.blocks.countP (Held.covers c a)) s.place i p
  unfold occupied
  rw [hplace]
  omega

/-! ### Steps -/

/-- After a step of a thread at `p` no more blocks are held than before, and the limits and
`next_addr` of all chunks are the same. -/
structure Keeps (s : Arena ι) (p : Place) (r : Arena ι × Place) : Prop where
  fresh : r.1.fresh = s.fresh
  node : ∀ c, (r.1.node c).item.nextAddr = (s.node c).item.nextAddr ∧
    (r.1.node c).item.upperLimit = (s.node c).item.upperLimit
  held : ∀ f : Held → Bool, r.1.live.countP f + r.1.lost.countP f + r.2.blocks.countP f ≤
    s.live.countP f + s.lost.countP f + p.blocks.countP f

omit [Fintype ι] [DecidableEq ι] in
theorem setNode_limits (s : Arena ι) (k : Nat) {g : Node → Node}
    (hg : ∀ x, (g x).item.nextAddr = x.item.nextAddr ∧ (g x).item.upperLimit = x.item.upperLimit)
    (c : Nat) : ((s.setNode k g).node c).item.nextAddr = (s.node c).item.nextAddr ∧
      ((s.setNode k g).node c).item.upperLimit = (s.node c).item.upperLimit := by
  rw [setNode_node]
  split
  · rename_i e
    rw [e]
    exact hg _
  · exact ⟨rfl, rfl⟩

omit [Fintype ι] [DecidableEq ι] in
/-- A step that changes one chunk, but not its limits and its `next_addr`. -/
theorem Keeps.set {q : Place} {k : Nat} {g : Node → Node}
    (hg : ∀ x, (g x).item.nextAddr = x.item.nextAddr ∧ (g x).item.upperLimit = x.item.upperLimit)
    (hblocks : ∀ f, q.blocks.countP f ≤ p.blocks.countP f) : Keeps s p (s.setNode k g, q) :=
  ⟨rfl, setNode_limits s k hg, fun f => Nat.add_le_add_left (hblocks f) _⟩

omit [Fintype ι] [DecidableEq ι] in
/-- A step that only reads, or changes the head. -/
theorem Keeps.read {q : Place} {o : Option Nat} (hblocks : q.blocks = p.blocks) :
    Keeps s p ({ s with head := o }, q) :=
  ⟨rfl, fun _ => ⟨rfl, rfl⟩, fun f => by rw [hblocks]⟩

omit [Fintype ι] [DecidableEq ι] in
/-- All steps but a bump and the making of a chunk. -/
theorem trans_keeps (s : Arena ι) {base : Nat} (hbump : ∀ size c, p ≠ .bump size c)
    (hnew : ∀ size, p ≠ .newChunk size) : Keeps s p (s.trans L capacity base p) := by
  have hread : ∀ {q : Place}, q.blocks = p.blocks → Keeps s p (s, q) := fun h =>
    Keeps.read (o := s.head) h
  cases p with
  | bump size c => exact absurd rfl (hbump size c)
  | newChunk size => exact absurd rfl (hnew size)
  | idle => exact hread rfl
  | loadHead size =>
      simp only [trans]
      cases s.head <;> exact hread rfl
  | countUp x =>
      -- the block goes from the thread to `live`
      refine ⟨rfl, setNode_limits s x.owner (g := fun y => { y with item := y.item.countUp })
        fun y => ⟨rfl, rfl⟩, fun f => le_of_eq ?_⟩
      simp only [trans, setNode, Place.blocks, Place.held, Place.reserved, Option.toList_none,
        Option.toList_some, List.nil_append, List.countP_nil, List.countP_cons]
      omega
  | loadOld size c => exact hread rfl
  | storePrev size c old => exact Keeps.set (fun _ => ⟨rfl, rfl⟩) fun f => le_rfl
  | cas size c old =>
      simp only [trans]
      split
      · exact Keeps.read rfl
      · exact hread rfl
  | prevHead x => exact hread rfl
  | itHead x prev => exact hread rfl
  | visit x prev it =>
      cases it with
      | none =>
          refine ⟨rfl, fun c => ⟨rfl, rfl⟩, fun f => le_of_eq ?_⟩
          simp only [trans, Place.blocks, Place.held, Place.reserved, Option.toList_none,
            Option.toList_some, List.append_nil, List.countP_nil, List.countP_cons]
          omega
      | some c =>
          simp only [trans]
          split <;> exact hread rfl
  | countDown x prev c =>
      -- the block is given back
      have hlimits : ∀ y : Node, y.item.countDown.nextAddr = y.item.nextAddr ∧
          y.item.countDown.upperLimit = y.item.upperLimit := fun y =>
        ⟨BumpAllocator.countDown_nextAddr, BumpAllocator.countDown_upperLimit⟩
      simp only [trans]
      split <;> exact Keeps.set hlimits fun f => Nat.zero_le _
  | testFull prev c =>
      simp only [trans]
      split <;> exact hread rfl
  | flag prev c =>
      simp only [trans]
      cases prev <;> exact Keeps.set (fun _ => ⟨rfl, rfl⟩) fun f => le_rfl
  | loadPrev k c => exact hread rfl
  | skip k c q =>
      cases q with
      | none => exact hread rfl
      | some q =>
          simp only [trans]
          split <;> exact hread rfl
  | storeSkip k c q =>
      simp only [trans]
      cases k <;> exact Keeps.set (fun _ => ⟨rfl, rfl⟩) fun f => le_rfl
  | advance x c => exact hread rfl

omit [DecidableEq ι] in
/-- Nothing more is occupied, in chunks with the same limits. -/
theorem Bytes.of_le (h : Bytes s) (hfresh : s'.fresh = s.fresh)
    (hnode : ∀ c, (s'.node c).item.nextAddr ≤ (s.node c).item.nextAddr ∧
      (s'.node c).item.upperLimit = (s.node c).item.upperLimit)
    (hle : ∀ c a, s'.occupied c a ≤ s.occupied c a) : Bytes s' where
  once := fun c hc a => (hle c a).trans (h.once c (hfresh ▸ hc) a)
  free := fun c hc a ha => Nat.le_zero.mp
    ((hle c a).trans (h.free c (hfresh ▸ hc) a (ha.trans_le (hnode c).1)).le)
  below := fun c hc a ha => Nat.le_zero.mp
    ((hle c a).trans (h.below c (hfresh ▸ hc) a ((hnode c).2 ▸ ha)).le)

/-- A step of thread `i` that keeps what is held. -/
theorem Bytes.keep (h : Bytes s) {r : Arena ι × Place} (hk : Keeps s (s.place i) r)
    (hplace : s'.place = update s.place i r.2) (hlive : s'.live = r.1.live)
    (hlost : s'.lost = r.1.lost) (hfresh : s'.fresh = r.1.fresh) (hnode : s'.node = r.1.node) :
    Bytes s' := by
  refine h.of_le (hfresh.trans hk.fresh) (fun c => ?_) fun c a => ?_
  · rw [hnode]
    exact ⟨(hk.node c).1.le, (hk.node c).2⟩
  · have hup := occupied_update hplace c a
    have hheld := hk.held (Held.covers c a)
    rw [hlive, hlost] at hup
    omega

/-- A bump takes a block from below `next_addr`, or takes `next_addr` down in vain. -/
theorem Bytes.bump (h : Bytes s) {size c : Nat} (hc : c < s.fresh)
    (hi : s.place i = .bump size c) (hroom : size ≤ (s.node c).item.nextAddr)
    (hle : (s.node c).item.nextAddr ≤ (s.node c).item.upperLimit)
    (hsub : ((s.node c).item.fetchSub size).nextAddr = (s.node c).item.nextAddr - size)
    (hplace : s'.place = update s.place i p) (hlive : s'.live = s.live) (hlost : s'.lost = s.lost)
    (hfresh : s'.fresh = s.fresh)
    (hnode : s'.node = (s.setNode c fun y => { y with item := (s.node c).item.fetchSub size }).node)
    (hp : p.blocks = [] ∨ p.blocks = [⟨c, ⟨(s.node c).item.nextAddr - size, size⟩⟩]) :
    Bytes s' := by
  have hitem : ∀ k, (s'.node k).item.upperLimit = (s.node k).item.upperLimit ∧
      (s'.node k).item.nextAddr ≤ (s.node k).item.nextAddr ∧
      (k = c → (s'.node k).item.nextAddr = (s.node c).item.nextAddr - size) := by
    intro k
    rw [hnode, setNode_node]
    split
    · rename_i e
      rw [e]
      exact ⟨BumpAllocator.fetchSub_upperLimit, by rw [hsub]; omega, fun _ => hsub⟩
    · exact ⟨rfl, le_rfl, fun e => absurd e ‹_›⟩
  have hcount : ∀ k a, s'.occupied k a = s.occupied k a + p.blocks.countP (Held.covers k a) := by
    intro k a
    have hup := occupied_update hplace k a
    have hnil : (s.place i).blocks = [] := by rw [hi]; rfl
    rw [hlive, hlost, hnil, List.countP_nil] at hup
    omega
  rcases hp with hp | hp
  · refine h.of_le hfresh (fun k => ⟨(hitem k).2.1, (hitem k).1⟩) fun k a => ?_
    rw [hcount, hp, List.countP_nil, Nat.add_zero]
  · -- the new block was not occupied
    have hnew : ∀ k a, p.blocks.countP (Held.covers k a) = 0 ∨
        (p.blocks.countP (Held.covers k a) = 1 ∧ k = c ∧
          (s.node c).item.nextAddr - size ≤ a ∧ a < (s.node c).item.nextAddr) := by
      intro k a
      rw [hp, List.countP_singleton]
      split
      · rename_i hcov
        simp only [Held.covers, Held.contains, Bool.and_eq_true, beq_iff_eq,
          decide_eq_true_eq] at hcov
        exact .inr ⟨rfl, hcov.1.symm, hcov.2.1, by omega⟩
      · exact .inl rfl
    refine ⟨fun k hk a => ?_, fun k hk a ha => ?_, fun k hk a ha => ?_⟩
    · rw [hcount]
      rcases hnew k a with h0 | ⟨h1, rfl, -, hlt⟩
      · rw [h0]
        exact h.once k (hfresh ▸ hk) a
      · rw [h1, h.free k (hfresh ▸ hk) a hlt]
    · rw [hcount]
      have hzero := h.free k (hfresh ▸ hk) a (ha.trans_le (hitem k).2.1)
      rcases hnew k a with h0 | ⟨-, rfl, hge, -⟩
      · omega
      · have := (hitem k).2.2 rfl
        omega
    · rw [hcount]
      rw [(hitem k).1] at ha
      have hzero := h.below k (hfresh ▸ hk) a ha
      rcases hnew k a with h0 | ⟨-, rfl, -, hlt⟩
      · omega
      · omega

/-- Nothing of a new chunk is occupied. -/
theorem Bytes.newChunk (h : Bytes s) (hI : Inv L capacity s) {size : Nat}
    (hi : s.place i = .newChunk size) {x : Node} (hplace : s'.place = update s.place i p)
    (hp : p.blocks = []) (hlive : s'.live = s.live) (hlost : s'.lost = s.lost)
    (hfresh : s'.fresh = s.fresh + 1) (hnode : s'.node = (s.setNode s.fresh fun _ => x).node) :
    Bytes s' := by
  have hcount : ∀ k a, s'.occupied k a = s.occupied k a := by
    intro k a
    have hup := occupied_update hplace k a
    have hnil : (s.place i).blocks = [] := by rw [hi]; rfl
    rw [hlive, hlost, hnil, hp, List.countP_nil] at hup
    omega
  have hzero : ∀ a, s.occupied s.fresh a = 0 := by
    intro a
    by_contra hne
    obtain ⟨y, hy, hcov⟩ := exists_uses_of_occupied (Nat.pos_iff_ne_zero.mpr hne)
    have hown : y.owner = s.fresh := by
      simp only [Held.covers, Bool.and_eq_true, beq_iff_eq] at hcov
      exact hcov.1
    have := (hI.inside y hy).1
    omega
  have hcases : ∀ k, k < s'.fresh → (k < s.fresh ∧ s'.node k = s.node k) ∨ k = s.fresh := by
    intro k hk
    by_cases e : k = s.fresh
    · exact .inr e
    · refine .inl ⟨by omega, ?_⟩
      rw [hnode, setNode_node, if_neg e]
  refine ⟨fun k hk a => ?_, fun k hk a ha => ?_, fun k hk a ha => ?_⟩
  all_goals
    rw [hcount]
    rcases hcases k hk with ⟨hk', e⟩ | rfl
  · exact h.once k hk' a
  · rw [hzero]
    exact Nat.zero_le 1
  · exact h.free k hk' a (e ▸ ha)
  · exact hzero a
  · exact h.below k hk' a (e ▸ ha)
  · exact hzero a

theorem Bytes.go (h : Bytes s) (hI : Inv L capacity s) {base : Nat}
    (hcare : Careful s (.go i base)) :
    Bytes { (s.trans L capacity base (s.place i)).1 with
      place := update s.place i (s.trans L capacity base (s.place i)).2 } := by
  by_cases hbump : ∃ size c, s.place i = .bump size c
  · obtain ⟨size, c, hp⟩ := hbump
    have hroom : size ≤ (s.node c).item.nextAddr := by
      simpa only [Careful, CarefulAt, hp] using hcare
    have hc : c < s.fresh := (hI.refs i c (by rw [hp]; simp [Place.refs])).1
    have hsub := hI.fetchSub_nextAddr hc hroom
    rw [hp]
    refine h.bump hc hp hroom (hI.limits c hc).2.2.2 hsub rfl rfl rfl rfl rfl ?_
    simp only [trans, hsub]
    split
    · exact .inr rfl
    · exact .inl rfl
  by_cases hnew : ∃ size, s.place i = .newChunk size
  · obtain ⟨size, hp⟩ := hnew
    rw [hp]
    exact h.newChunk hI hp rfl rfl rfl rfl rfl rfl
  · push Not at hbump hnew
    exact h.keep (trans_keeps s hbump hnew) rfl rfl rfl rfl rfl

theorem Bytes.step (h : Bytes s) (hI : Inv L capacity s) {a : ArenaAction ι}
    (hcare : Careful s a) (hs : s.step L capacity a = some s') : Bytes s' := by
  cases a with
  | allocate i n =>
      obtain ⟨⟨hi, -⟩, hs⟩ := Option.ite_none_right_eq_some.mp hs
      obtain rfl := Option.some.inj hs
      refine h.keep (i := i) (r := (s, .loadHead (roundupToPoweroftwo n))) ?_ rfl rfl rfl rfl rfl
      rw [hi]
      exact Keeps.read (o := s.head) rfl
  | deallocate i j =>
      simp only [Arena.step] at hs
      split at hs
      · cases hs
      · rename_i x hx
        obtain ⟨hi, hs⟩ := Option.ite_none_right_eq_some.mp hs
        obtain rfl := Option.some.inj hs
        obtain ⟨hj, hget⟩ := List.getElem?_eq_some_iff.mp hx
        refine h.of_le rfl (fun c => ⟨le_rfl, rfl⟩) fun c a => le_of_eq ?_
        have hup := @occupied_update ι _ s { s with
          place := update s.place i (.prevHead x), live := s.live.eraseIdx j } _ _ i rfl c a
        have hperm := (List.getElem_cons_eraseIdx_perm hj).countP_eq (Held.covers c a)
        rw [hget, List.countP_cons] at hperm
        rw [hi] at hup
        simp only [Place.blocks, Place.held, Place.reserved, Option.toList_none, Option.toList_some,
          List.append_nil, List.countP_nil, List.countP_singleton] at hup
        omega
  | go i base =>
      simp only [Arena.step] at hs
      split at hs
      · cases hs
      · obtain rfl := Option.some.inj hs
        exact h.go hI hcare
  | free c =>
      obtain rfl := Option.some.inj hs
      exact h.of_le rfl (fun k => by rw [setNode_node]; split <;> simp_all) fun k a => le_rfl

omit [DecidableEq ι] in
theorem Bytes.initial : Bytes (initial ι) :=
  ⟨fun _ hc => absurd hc (Nat.not_lt_zero _), fun _ hc => absurd hc (Nat.not_lt_zero _),
    fun _ hc => absurd hc (Nat.not_lt_zero _)⟩

/-! ### Blocks of all chunks -/

omit [DecidableEq ι] in
/-- A block in use ends within its chunk. -/
theorem Bytes.le_upper (h : Bytes s) (hI : Inv L capacity s) {x : Held} (hx : s.Uses x) :
    x.blk.ptr + x.blk.len ≤ (s.node x.owner).item.upperLimit := by
  obtain ⟨hown, -, hlt⟩ := hI.inside x hx
  by_contra hgt
  -- its last byte would be beyond the limit
  have hcov : x.covers x.owner (s.node x.owner).item.upperLimit = true := by
    simp only [Held.covers, Held.contains, beq_self_eq_true, Bool.true_and, decide_eq_true_eq]
    omega
  have hzero := h.below x.owner hown _ le_rfl
  have hone := one_le_occupied hx hcov
  omega

omit [DecidableEq ι] in
/-- Two blocks in use that share a byte are of the same chunk. -/
theorem Bytes.owner_eq (h : Bytes s) (hI : Inv L capacity s) {x y : Held} (hx : s.Uses x)
    (hy : s.Uses y) (hxa : x.contains a = true) (hya : y.contains a = true) :
    x.owner = y.owner := by
  by_contra hne
  have hd := hI.apart x.owner y.owner (hI.open_of_uses hx) (hI.open_of_uses hy) hne
  obtain ⟨hlow, hup, -, -⟩ := hI.limits x.owner (hI.inside x hx).1
  obtain ⟨hlow', hup', -, -⟩ := hI.limits y.owner (hI.inside y hy).1
  have hin := hI.inside x hx
  have hin' := hI.inside y hy
  have hle := h.le_upper hI hx
  have hle' := h.le_upper hI hy
  simp only [Held.contains, decide_eq_true_eq] at hxa hya
  simp only [Block.Disjoint] at hd
  omega

omit [DecidableEq ι] in
/-- No byte belongs to two blocks in use. -/
theorem Bytes.users_le (h : Bytes s) (hI : Inv L capacity s) (a : Nat) : s.users a ≤ 1 := by
  by_cases hfree : ∃ x, s.Uses x ∧ x.contains a = true
  · obtain ⟨x, hx, hxa⟩ := hfree
    -- all of them are of the chunk of `x`
    have hcount : ∀ l : List Held, (∀ y ∈ l, s.Uses y) →
        l.countP (Held.contains a) = l.countP (Held.covers x.owner a) := by
      intro l hl
      refine List.countP_congr fun y hy => ?_
      simp only [Held.covers, Bool.and_eq_true, beq_iff_eq, iff_and_self]
      exact fun hya => h.owner_eq hI (hl y hy) hx hya hxa
    have heq : s.users a = s.occupied x.owner a := by
      unfold users occupied
      rw [hcount s.live fun y hy => .inl hy, hcount s.lost fun y hy => .inr (.inl hy)]
      congr 1
      exact Finset.sum_congr rfl fun j _ => hcount _ fun y hy => uses_of_mem_blocks hy
    rw [heq]
    exact h.once x.owner (hI.inside x hx).1 a
  · have hzero : ∀ l : List Held, (∀ y ∈ l, s.Uses y) → l.countP (Held.contains a) = 0 := by
      intro l hl
      exact List.countP_eq_zero.mpr fun y hy hya => hfree ⟨y, hl y hy, hya⟩
    have hplaces : weigh (fun p => p.blocks.countP (Held.contains a)) s.place = 0 :=
      weigh_eq_zero fun j => hzero _ fun y hy => uses_of_mem_blocks hy
    unfold users
    rw [hzero s.live fun y hy => .inl hy, hzero s.lost fun y hy => .inr (.inl hy), hplaces]
    exact Nat.zero_le 1

end Arena

end RedGrapes.Memory
