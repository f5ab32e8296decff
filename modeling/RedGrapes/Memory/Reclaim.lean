/-
RedGrapes/Memory/Reclaim.lean

`ChunkedBumpAlloc::allocate` and `deallocate` by any number of threads, one
atomic step at a time, with the list operations of `util/atomic_list.hpp` they
use: `append_item`, `skip_deleted_prev`, the backward iterator.

A chunk is flagged deleted by a `deallocate` that has taken the count from one
to zero and then finds the chunk full.  Reserving an address and counting it
are two steps, so the count may be zero while an address is reserved, and it
may be counted again between the two tests.  `chunk_flagged_unused` says that
nothing else goes wrong: if the count is zero and nobody is between the two
steps of an allocation whenever a test finds the chunk full, no flagged chunk
has a block in use.

The memory of a chunk is freed when it is flagged and nothing points to it any
more; then the backing allocator may return its region again.
-/
import RedGrapes.Lib.Machine
import RedGrapes.Memory.BumpAllocator

namespace RedGrapes.Memory

open Function Machine

/-! ### The model -/

/-- `ItemControlBlock`. -/
structure Node where
  base : Nat
  item : BumpAllocator
  deleted : Bool
  prev : Option Nat
  freed : Bool

/-- A block in use and the chunk it was taken from. -/
structure Held where
  owner : Nat
  blk : Block
deriving DecidableEq

/-- The places in `allocate` and `deallocate` before an atomic step.  In the
places of `skip_deleted_prev` the first argument is the block whose search goes
on afterwards; there is none after `prev.optimize()`. -/
inductive Place
  | idle
  | loadHead (size : Nat)
  | bump (size c : Nat)
  | countUp (x : Held)
  | newChunk (size : Nat)
  | loadOld (size c : Nat)
  | storePrev (size c : Nat) (old : Option Nat)
  | cas (size c : Nat) (old : Option Nat)
  | prevHead (x : Held)
  | itHead (x : Held) (prev : Option Nat)
  | visit (x : Held) (prev it : Option Nat)
  | countDown (x : Held) (prev : Option Nat) (c : Nat)
  | testFull (prev : Option Nat) (c : Nat)
  | flag (prev : Option Nat) (c : Nat)
  | loadPrev (k : Option Held) (c : Nat)
  | skip (k : Option Held) (c : Nat) (p : Option Nat)
  | storeSkip (k : Option Held) (c : Nat) (p : Option Nat)
  | advance (x : Held) (c : Nat)
deriving DecidableEq

/-- The allocator and its threads.  `live` are the blocks returned by `allocate`
and not passed to `deallocate`; `lost` those that `deallocate` did not find. -/
structure Arena (ι : Type) where
  node : Nat → Node
  head : Option Nat
  fresh : Nat
  place : ι → Place
  live : List Held
  lost : List Held

inductive ArenaAction (ι : Type)
  | allocate (i : ι) (n : Nat)
  | deallocate (i : ι) (j : Nat)
  | go (i : ι) (base : Nat)
  | free (c : Nat)

namespace Arena

variable {ι : Type}

/-- Change one chunk. -/
def setNode (s : Arena ι) (c : Nat) (f : Node → Node) : Arena ι :=
  { s with node := update s.node c (f (s.node c)) }

/-- The next atomic step of a thread at a place: the shared state and the place
after it.  `base` is the region the backing allocator returns. -/
def trans (L : Layout) (capacity : Nat) (s : Arena ι) (base : Nat) : Place → Arena ι × Place
  | .idle => (s, .idle)
  | .loadHead size => (s, match s.head with
    | none => .newChunk size
    | some c => .bump size c)
  | .bump size c =>
      let b := (s.node c).item.fetchSub size
      (s.setNode c fun x => { x with item := b },
        if b.lowerLimit ≤ b.nextAddr then .countUp ⟨c, ⟨b.nextAddr, size⟩⟩ else .newChunk size)
  | .countUp x =>
      ({ s.setNode x.owner fun y => { y with item := y.item.countUp } with live := x :: s.live },
        .idle)
  | .newChunk size =>
      ({ s.setNode s.fresh fun _ => ⟨base, .init ⟨base + L.controlblockSize + L.sizeofBumpAllocator,
          capacity - L.controlblockSize - L.sizeofBumpAllocator⟩, false, none, false⟩ with
        fresh := s.fresh + 1 }, .loadOld size s.fresh)
  | .loadOld size c => (s, .storePrev size c s.head)
  | .storePrev size c old => (s.setNode c fun x => { x with prev := old }, .cas size c old)
  | .cas size c old =>
      if s.head = old then ({ s with head := some c }, .loadHead size) else (s, .loadOld size c)
  | .prevHead x => (s, .itHead x s.head)
  | .itHead x prev => (s, .visit x prev s.head)
  | .visit x _ none => ({ s with lost := x :: s.lost }, .idle)
  | .visit x prev (some c) =>
      (s, if (s.node c).item.owns x.blk then .countDown x prev c else .loadPrev (some x) c)
  | .countDown _ prev c =>
      (s.setNode c fun y => { y with item := y.item.countDown },
        if (s.node c).item.count = 1 then .testFull prev c else .idle)
  | .testFull prev c => (s, if (s.node c).item.full then .flag prev c else .idle)
  | .flag prev c =>
      (s.setNode c fun x => { x with deleted := true }, match prev with
      | none => .idle
      | some p => .loadPrev none p)
  | .loadPrev k c => (s, .skip k c (s.node c).prev)
  | .skip k c none => (s, .storeSkip k c none)
  | .skip k c (some p) =>
      (s, if (s.node p).deleted then .skip k c (s.node p).prev else .storeSkip k c (some p))
  | .storeSkip k c p =>
      (s.setNode c fun x => { x with prev := p }, match k with
      | none => .idle
      | some x => .advance x c)
  | .advance x c => (s, .visit x (some c) (s.node c).prev)

end Arena

namespace Place

/-- The chunks a place refers to. -/
def refs : Place → List Nat
  | .bump _ c => [c]
  | .loadOld _ c => [c]
  | .storePrev _ c old => c :: old.toList
  | .cas _ c old => c :: old.toList
  | .itHead _ prev => prev.toList
  | .visit _ prev it => prev.toList ++ it.toList
  | .countDown _ prev c => c :: prev.toList
  | .testFull prev c => c :: prev.toList
  | .flag prev c => c :: prev.toList
  | .loadPrev _ c => [c]
  | .skip _ c p => c :: p.toList
  | .storeSkip _ c p => c :: p.toList
  | .advance _ c => [c]
  | _ => []

/-- The block that is being given back. -/
def held : Place → Option Held
  | .prevHead x => some x
  | .itHead x _ => some x
  | .visit x _ _ => some x
  | .countDown x _ _ => some x
  | .loadPrev k _ => k
  | .skip k _ _ => k
  | .storeSkip k _ _ => k
  | .advance x _ => some x
  | _ => none

/-- The block that is reserved and not counted yet. -/
def reserved : Place → Option Held
  | .countUp x => some x
  | _ => none

/-- The size of the request that is being served. -/
def size : Place → Option Nat
  | .loadHead n => some n
  | .bump n _ => some n
  | .newChunk n => some n
  | .loadOld n _ => some n
  | .storePrev n _ _ => some n
  | .cas n _ _ => some n
  | _ => none

end Place

namespace Arena

variable {ι : Type} [DecidableEq ι]

/-- A thread that is not in an operation may call one.  Requests are of at least one byte. -/
def step (L : Layout) (capacity : Nat) (s : Arena ι) : ArenaAction ι → Option (Arena ι)
  | .allocate i n =>
      if s.place i = .idle ∧ 1 ≤ roundupToPoweroftwo n ∧ roundupToPoweroftwo n ≤ capacity then
        some { s with place := update s.place i (.loadHead (roundupToPoweroftwo n)) }
      else none
  | .deallocate i j => match s.live[j]? with
    | none => none
    | some x =>
        if s.place i = .idle then
          some { s with place := update s.place i (.prevHead x), live := s.live.eraseIdx j }
        else none
  | .go i base =>
      let r := s.trans L capacity base (s.place i)
      if s.place i = .idle then none else some { r.1 with place := update s.place i r.2 }
  | .free c => some (s.setNode c fun x => { x with freed := true })

/-- No chunk and no thread. -/
def initial (ι : Type) : Arena ι where
  node _ := ⟨0, ⟨0, 0, 0, 0⟩, false, none, false⟩
  head := none
  fresh := 0
  place _ := .idle
  live := []
  lost := []

/-! ### Assumptions and the condition -/

/-- A chunk whose memory is in use. -/
def Open (s : Arena ι) (c : Nat) : Prop := c < s.fresh ∧ (s.node c).freed = false

/-- The backing allocator returns memory that is not in use. -/
def Supplies (L : Layout) (capacity : Nat) (s : Arena ι) (base : Nat) : Place → Prop
  | .newChunk _ => base + (capacity + L.controlblockSize) ≤ addrSize ∧
      ∀ c < s.fresh, (s.node c).freed = false →
        Block.Disjoint ⟨base, capacity + L.controlblockSize⟩
          ⟨(s.node c).base, capacity + L.controlblockSize⟩
  | _ => True

/-- The memory of a chunk is freed when it is flagged and nothing points to it. -/
def Legal (L : Layout) (capacity : Nat) (s : Arena ι) : ArenaAction ι → Prop
  | .go i base => s.Supplies L capacity base (s.place i)
  | .free c => c < s.fresh ∧ (s.node c).deleted = true ∧ s.head ≠ some c ∧
      (∀ i, c ∉ (s.place i).refs) ∧
      ∀ c' < s.fresh, (s.node c').freed = false → (s.node c').prev ≠ some c
  | .allocate _ _ => True
  | .deallocate _ _ => True

/-- The count of chunk `c` is zero and nobody is about to count a block of it. -/
def Uncounted (s : Arena ι) (c : Nat) : Prop :=
  (s.node c).item.count = 0 ∧ ∀ i, (s.place i).reserved.map Held.owner ≠ some c

/-- A test finds a chunk full only while it has no block, and neither `next_addr`
nor `count` wraps. -/
def CarefulAt (s : Arena ι) : Place → Prop
  | .bump size c => size ≤ (s.node c).item.nextAddr
  | .countUp x => (s.node x.owner).item.count + 1 < countSize
  | .testFull _ c => (s.node c).item.full = true → s.Uncounted c
  | _ => True

def Careful (s : Arena ι) : ArenaAction ι → Prop
  | .go i _ => s.CarefulAt (s.place i)
  | .allocate _ _ => True
  | .deallocate _ _ => True
  | .free _ => True

section Decide

variable [Fintype ι] (L : Layout) (capacity : Nat) (s : Arena ι)

instance (base : Nat) (p : Place) : Decidable (s.Supplies L capacity base p) := by
  cases p <;> dsimp only [Supplies] <;> infer_instance

instance (c : Nat) : Decidable (s.Uncounted c) := inferInstanceAs (Decidable (_ ∧ _))

instance (p : Place) : Decidable (s.CarefulAt p) := by
  cases p <;> dsimp only [CarefulAt] <;> infer_instance

instance : ∀ a, Decidable (Legal L capacity s a)
  | .go i base => inferInstanceAs (Decidable (s.Supplies L capacity base (s.place i)))
  | .free _ => inferInstanceAs (Decidable (_ ∧ _ ∧ _ ∧ _ ∧ _))
  | .allocate _ _ => inferInstanceAs (Decidable True)
  | .deallocate _ _ => inferInstanceAs (Decidable True)

instance : ∀ a, Decidable (Careful s a)
  | .go i _ => inferInstanceAs (Decidable (s.CarefulAt (s.place i)))
  | .allocate _ _ => inferInstanceAs (Decidable True)
  | .deallocate _ _ => inferInstanceAs (Decidable True)
  | .free _ => inferInstanceAs (Decidable True)

end Decide

/-! ### Blocks in use -/

/-- A block is reserved and not given back. -/
def Uses (s : Arena ι) (x : Held) : Prop :=
  x ∈ s.live ∨ x ∈ s.lost ∨ ∃ i, (s.place i).held = some x ∨ (s.place i).reserved = some x

/-- Whether a block is one of chunk `c`. -/
def isIn (c : Nat) (x : Option Held) : Nat := if x.map Held.owner = some c then 1 else 0

variable [Fintype ι]

/-- The number of counted blocks of chunk `c`. -/
def counted (s : Arena ι) (c : Nat) : Nat :=
  s.live.countP (fun x => x.owner == c) + s.lost.countP (fun x => x.owner == c) +
    weigh (fun p => isIn c p.held) s.place

/-- The number of blocks of chunk `c` that are reserved and not counted. -/
def pending (s : Arena ι) (c : Nat) : Nat := weigh (fun p => isIn c p.reserved) s.place

/-- Chunk `c` has no block and will never have one again. -/
def Unused (s : Arena ι) (c : Nat) : Prop :=
  s.counted c = 0 ∧ s.pending c = 0 ∧ (s.node c).item.nextAddr ≤ (s.node c).item.lowerLimit

/-- What holds in every state that is reached with care. -/
structure Inv (L : Layout) (capacity : Nat) (s : Arena ι) : Prop where
  refs : ∀ i, ∀ c ∈ (s.place i).refs, s.Open c
  head : ∀ c, s.head = some c → s.Open c
  prev : ∀ c, s.Open c → ∀ p, (s.node c).prev = some p → s.Open p
  freed : ∀ c, (s.node c).freed = true → (s.node c).deleted = true
  limits : ∀ c < s.fresh,
    (s.node c).item.lowerLimit = (s.node c).base + L.controlblockSize + L.sizeofBumpAllocator ∧
    (s.node c).item.upperLimit = (s.node c).base + capacity ∧
    (s.node c).base + (capacity + L.controlblockSize) ≤ addrSize ∧
    (s.node c).item.nextAddr ≤ (s.node c).item.upperLimit
  apart : ∀ c c', s.Open c → s.Open c' → c ≠ c' →
    Block.Disjoint ⟨(s.node c).base, capacity + L.controlblockSize⟩
      ⟨(s.node c').base, capacity + L.controlblockSize⟩
  inside : ∀ x, s.Uses x → x.owner < s.fresh ∧
    (s.node x.owner).item.lowerLimit ≤ x.blk.ptr ∧ x.blk.ptr < (s.node x.owner).item.upperLimit
  size : ∀ i n, (s.place i).size = some n → 1 ≤ n
  owner : ∀ i x prev c, s.place i = .countDown x prev c → c = x.owner
  count : ∀ c < s.fresh, (s.node c).item.count = s.counted c
  deleted : ∀ c < s.fresh, (s.node c).deleted = true → s.Unused c
  flag : ∀ i prev c, s.place i = .flag prev c → s.Unused c
  small : ∀ c < s.fresh, (s.node c).item.count < countSize

section Steps

variable {L : Layout} {capacity : Nat} {s s' : Arena ι} {i : ι} {p : Place}

omit [DecidableEq ι] in
/-- A block in use is counted or pending. -/
theorem one_le_of_uses {x : Held} (hx : s.Uses x) : 1 ≤ s.counted x.owner + s.pending x.owner := by
  have hone : isIn x.owner (some x) = 1 := if_pos rfl
  unfold counted pending
  rcases hx with hx | hx | ⟨i, hi | hi⟩
  · have : 0 < s.live.countP fun y => y.owner == x.owner :=
      List.countP_pos_iff.mpr ⟨x, hx, by simp⟩
    omega
  · have : 0 < s.lost.countP fun y => y.owner == x.owner :=
      List.countP_pos_iff.mpr ⟨x, hx, by simp⟩
    omega
  · have := le_weigh (fun p : Place => isIn x.owner p.held) s.place i
    simp only [hi, hone] at this
    omega
  · have := le_weigh (fun p : Place => isIn x.owner p.reserved) s.place i
    simp only [hi, hone] at this
    omega

omit [DecidableEq ι] in
theorem exists_uses_of_counted {c : Nat} (h : 0 < s.counted c) : ∃ x, s.Uses x ∧ x.owner = c := by
  have hlist : ∀ {l : List Held}, 0 < l.countP (fun x => x.owner == c) → ∃ x ∈ l, x.owner = c := by
    intro l hl
    obtain ⟨x, hx, hxo⟩ := List.countP_pos_iff.mp hl
    exact ⟨x, hx, by simpa using hxo⟩
  unfold counted at h
  rcases Nat.eq_zero_or_pos (s.live.countP fun x => x.owner == c) with h1 | h1
  · rcases Nat.eq_zero_or_pos (s.lost.countP fun x => x.owner == c) with h2 | h2
    · have hw : 0 < weigh (fun p => isIn c p.held) s.place := by omega
      obtain ⟨j, hj⟩ := exists_of_weigh_pos hw
      rcases hheld : (s.place j).held with _ | x
      · simp [hheld, isIn] at hj
      · refine ⟨x, .inr (.inr ⟨j, .inl hheld⟩), ?_⟩
        by_contra hno
        simp [hheld, isIn, hno] at hj
    · obtain ⟨x, hx, hxo⟩ := hlist h2
      exact ⟨x, .inr (.inl hx), hxo⟩
  · obtain ⟨x, hx, hxo⟩ := hlist h1
    exact ⟨x, .inl hx, hxo⟩

omit [DecidableEq ι] in
theorem Unused.not_uses {c : Nat} (h : s.Unused c) {x : Held} (hx : s.Uses x) : x.owner ≠ c := by
  rintro rfl
  have hone := one_le_of_uses hx
  have hzero := h.1
  have hzero' := h.2.1
  omega

omit [DecidableEq ι] in
/-- The chunk of a block in use is neither flagged nor freed. -/
theorem Inv.open_of_uses (h : Inv L capacity s) {x : Held} (hx : s.Uses x) : s.Open x.owner := by
  refine ⟨(h.inside x hx).1, ?_⟩
  by_contra hf
  have hdel := h.freed x.owner (by simpa using hf)
  exact (h.deleted x.owner (h.inside x hx).1 hdel).not_uses hx rfl

omit [Fintype ι] in
theorem place_update (hplace : s'.place = update s.place i p) (j : ι) :
    s'.place j = if j = i then p else s.place j := by
  rw [hplace]
  rcases eq_or_ne j i with rfl | hne
  · rw [update_self, if_pos rfl]
  · rw [update_of_ne hne, if_neg hne]

/-- A step of the thread `i` to the place `p`: no chunk appears or is freed, limits
stay and `next_addr` goes down.  What is left to show is that the blocks are
counted, that an unused chunk stays so, and that only such chunks are flagged. -/
theorem Inv.move (h : Inv L capacity s) (hplace : s'.place = update s.place i p)
    (hfresh : s'.fresh = s.fresh)
    (hnode : ∀ c, (s'.node c).base = (s.node c).base ∧ (s'.node c).freed = (s.node c).freed ∧
      (s'.node c).item.lowerLimit = (s.node c).item.lowerLimit ∧
      (s'.node c).item.upperLimit = (s.node c).item.upperLimit ∧
      (s'.node c).item.nextAddr ≤ (s.node c).item.nextAddr)
    (hhead : ∀ c, s'.head = some c → s.Open c)
    (hprev : ∀ c, s.Open c → ∀ q, (s'.node c).prev = some q → s.Open q)
    (hrefs : ∀ c ∈ p.refs, s.Open c) (hsize : ∀ n, p.size = some n → 1 ≤ n)
    (howner : ∀ x prev c, p = .countDown x prev c → c = x.owner)
    (hinside : ∀ x, s'.Uses x → x.owner < s.fresh ∧
      (s.node x.owner).item.lowerLimit ≤ x.blk.ptr ∧ x.blk.ptr < (s.node x.owner).item.upperLimit)
    (hcount : ∀ c < s.fresh, (s'.node c).item.count = s'.counted c)
    (hsmall : ∀ c < s.fresh, (s'.node c).item.count < countSize)
    (hunused : ∀ c, s.Unused c → s'.counted c = 0 ∧ s'.pending c = 0)
    (hdel : ∀ c, (s'.node c).deleted = true → (s.node c).deleted = true ∨ s.Unused c)
    (hdel' : ∀ c, (s.node c).deleted = true → (s'.node c).deleted = true)
    (hflag : ∀ prev c, p = .flag prev c → s.Unused c) : Inv L capacity s' := by
  have hopen : ∀ c, s'.Open c ↔ s.Open c := by
    intro c
    unfold Open
    rw [hfresh, (hnode c).2.1]
  have hat := place_update hplace
  -- an unused chunk stays so: nobody counts, and `next_addr` only goes down
  have hstays : ∀ c, s.Unused c → s'.Unused c := by
    intro c hc
    refine ⟨(hunused c hc).1, (hunused c hc).2, ?_⟩
    rw [(hnode c).2.2.1]
    exact (hnode c).2.2.2.2.trans hc.2.2
  exact {
    refs := by
      intro j c hc
      rw [hopen]
      rw [hat] at hc
      split at hc
      · exact hrefs c hc
      · exact h.refs j c hc
    head := by
      intro c hc
      rw [hopen]
      exact hhead c hc
    prev := by
      intro c hc q hq
      rw [hopen] at hc ⊢
      exact hprev c hc q hq
    freed := by
      intro c hc
      rw [(hnode c).2.1] at hc
      exact hdel' c (h.freed c hc)
    limits := by
      intro c hc
      obtain ⟨h1, h2, h3, h4⟩ := h.limits c (hfresh ▸ hc)
      rw [(hnode c).1, (hnode c).2.2.1, (hnode c).2.2.2.1]
      exact ⟨h1, h2, h3, (hnode c).2.2.2.2.trans h4⟩
    apart := by
      intro c c' hc hc' hne
      rw [(hnode c).1, (hnode c').1]
      exact h.apart c c' ((hopen c).mp hc) ((hopen c').mp hc') hne
    inside := by
      intro x hx
      rw [hfresh, (hnode x.owner).2.2.1, (hnode x.owner).2.2.2.1]
      exact hinside x hx
    size := by
      intro j n hn
      rw [hat] at hn
      split at hn
      · exact hsize n hn
      · exact h.size j n hn
    owner := by
      intro j x prev c hj
      rw [hat] at hj
      split at hj
      · exact howner x prev c hj
      · exact h.owner j x prev c hj
    count := by
      intro c hc
      exact hcount c (hfresh ▸ hc)
    deleted := by
      intro c hc hd
      rcases hdel c hd with hd | hd
      · exact hstays c (h.deleted c (hfresh ▸ hc) hd)
      · exact hstays c hd
    flag := by
      intro j prev c hj
      rw [hat] at hj
      split at hj
      · exact hstays c (hflag prev c hj)
      · exact hstays c (h.flag j prev c hj)
    small := by
      intro c hc
      exact hsmall c (hfresh ▸ hc) }

/-- The blocks in use when no block changes hands. -/
theorem uses_congr (hplace : s'.place = update s.place i p) (hlive : s'.live = s.live)
    (hlost : s'.lost = s.lost) (hheld : p.held = (s.place i).held)
    (hres : p.reserved = (s.place i).reserved) :
    (∀ x, s'.Uses x ↔ s.Uses x) ∧ (∀ c, s'.counted c = s.counted c) ∧
      ∀ c, s'.pending c = s.pending c := by
  have hat := place_update hplace
  have hheld' : ∀ j, (s'.place j).held = (s.place j).held := by
    intro j
    rw [hat]
    split
    · rename_i e
      rw [hheld, e]
    · rfl
  have hres' : ∀ j, (s'.place j).reserved = (s.place j).reserved := by
    intro j
    rw [hat]
    split
    · rename_i e
      rw [hres, e]
    · rfl
  refine ⟨fun x => ?_, fun c => ?_, fun c => ?_⟩
  · unfold Uses
    rw [hlive, hlost]
    simp only [hheld', hres']
  · unfold counted weigh
    rw [hlive, hlost]
    simp only [hheld']
  · unfold pending weigh
    simp only [hres']

/-- The thread goes on with the same block in its hands, and at most links and
flags of the chunks change. -/
theorem Inv.relink (h : Inv L capacity s) (hplace : s'.place = update s.place i p)
    (hlive : s'.live = s.live) (hlost : s'.lost = s.lost) (hfresh : s'.fresh = s.fresh)
    (hnode : ∀ c, (s'.node c).base = (s.node c).base ∧ (s'.node c).freed = (s.node c).freed ∧
      (s'.node c).item = (s.node c).item)
    (hhead : ∀ c, s'.head = some c → s.Open c)
    (hprev : ∀ c, s.Open c → ∀ q, (s'.node c).prev = some q → s.Open q)
    (hrefs : ∀ c ∈ p.refs, s.Open c) (hheld : p.held = (s.place i).held)
    (hres : p.reserved = (s.place i).reserved) (hsize : ∀ n, p.size = some n → 1 ≤ n)
    (howner : ∀ x prev c, p = .countDown x prev c → c = x.owner)
    (hdel : ∀ c, (s'.node c).deleted = true → (s.node c).deleted = true ∨ s.Unused c)
    (hdel' : ∀ c, (s.node c).deleted = true → (s'.node c).deleted = true)
    (hflag : ∀ prev c, p = .flag prev c → s.Unused c) : Inv L capacity s' := by
  obtain ⟨huses, hcounted, hpending⟩ := uses_congr hplace hlive hlost hheld hres
  refine h.move hplace hfresh ?_ hhead hprev hrefs hsize howner ?_ ?_ ?_ ?_ hdel hdel' hflag
  · intro c
    rw [(hnode c).2.2]
    exact ⟨(hnode c).1, (hnode c).2.1, rfl, rfl, le_rfl⟩
  · intro x hx
    exact h.inside x ((huses x).mp hx)
  · intro c hc
    rw [(hnode c).2.2, hcounted]
    exact h.count c hc
  · intro c hc
    rw [(hnode c).2.2]
    exact h.small c hc
  · intro c hc
    rw [hcounted, hpending]
    exact ⟨hc.1, hc.2.1⟩

/-- The thread goes on to `p` and the shared state stays as it is. -/
theorem Inv.read (h : Inv L capacity s) (hrefs : ∀ c ∈ p.refs, s.Open c)
    (hheld : p.held = (s.place i).held) (hres : p.reserved = (s.place i).reserved)
    (hsize : ∀ n, p.size = some n → 1 ≤ n)
    (howner : ∀ x prev c, p = .countDown x prev c → c = x.owner)
    (hflag : ∀ prev c, p = .flag prev c → s.Unused c) :
    Inv L capacity { s with place := update s.place i p } :=
  h.relink rfl rfl rfl rfl (fun _ => ⟨rfl, rfl, rfl⟩) h.head h.prev hrefs hheld hres hsize howner
    (fun _ hc => .inl hc) (fun _ hc => hc) hflag

/-! ### Steps that change a count -/

omit [DecidableEq ι] [Fintype ι] in
theorem setNode_node (s : Arena ι) (c : Nat) (f : Node → Node) (j : Nat) :
    (s.setNode c f).node j = if j = c then f (s.node c) else s.node j := by
  show update s.node c (f (s.node c)) j = _
  split
  · rename_i e
    rw [e, update_self]
  · rename_i hne
    rw [update_of_ne hne]

@[simp] theorem isIn_none (c : Nat) : isIn c none = 0 := rfl

@[simp] theorem isIn_some (c : Nat) (x : Held) :
    isIn c (some x) = if x.owner = c then 1 else 0 := by
  simp [isIn]

/-- The counts when thread `i` goes to another place, in the form that
balances. -/
theorem counted_update (hplace : s'.place = update s.place i p) (c : Nat) :
    s'.counted c + isIn c (s.place i).held + s.live.countP (fun x => x.owner == c) +
        s.lost.countP (fun x => x.owner == c) =
      s.counted c + isIn c p.held + s'.live.countP (fun x => x.owner == c) +
        s'.lost.countP (fun x => x.owner == c) := by
  have hw := weigh_update (fun p : Place => isIn c p.held) s.place i p
  unfold counted
  rw [hplace]
  omega

theorem pending_update (hplace : s'.place = update s.place i p) (c : Nat) :
    s'.pending c + isIn c (s.place i).reserved = s.pending c + isIn c p.reserved := by
  unfold pending
  rw [hplace]
  exact weigh_update (fun p : Place => isIn c p.reserved) s.place i p

omit [Fintype ι] in
/-- Whoever has a block in use had it before, or got it in this step. -/
theorem uses_update (hplace : s'.place = update s.place i p) {x : Held} (hx : s'.Uses x) :
    x ∈ s'.live ∨ x ∈ s'.lost ∨ p.held = some x ∨ p.reserved = some x ∨ s.Uses x := by
  rcases hx with hx | hx | ⟨j, hx⟩
  · exact .inl hx
  · exact .inr (.inl hx)
  · rw [place_update hplace] at hx
    split at hx
    · rcases hx with hx | hx
      · exact .inr (.inr (.inl hx))
      · exact .inr (.inr (.inr (.inl hx)))
    · exact .inr (.inr (.inr (.inr (.inr (.inr ⟨j, hx⟩)))))

/-- The bump allocator of chunk `c` changes, and the links stay. -/
theorem Inv.setItem (h : Inv L capacity s) {c : Nat} {b : BumpAllocator}
    (hplace : s'.place = update s.place i p) (hfresh : s'.fresh = s.fresh) (hhead : s'.head = s.head)
    (hnode : ∀ j, s'.node j = if j = c then { s.node c with item := b } else s.node j)
    (hlow : b.lowerLimit = (s.node c).item.lowerLimit)
    (hup : b.upperLimit = (s.node c).item.upperLimit)
    (hnext : b.nextAddr ≤ (s.node c).item.nextAddr)
    (hrefs : ∀ c ∈ p.refs, s.Open c) (hsize : ∀ n, p.size = some n → 1 ≤ n)
    (howner : ∀ x prev c, p ≠ .countDown x prev c) (hflag : ∀ prev c, p ≠ .flag prev c)
    (hinside : ∀ x, s'.Uses x → x.owner < s.fresh ∧
      (s.node x.owner).item.lowerLimit ≤ x.blk.ptr ∧ x.blk.ptr < (s.node x.owner).item.upperLimit)
    (hsame : ∀ j < s.fresh, j ≠ c → s'.counted j = s.counted j)
    (hcount : b.count = s'.counted c) (hsmall : b.count < countSize)
    (hunused : ∀ j, s.Unused j → s'.counted j = 0 ∧ s'.pending j = 0) : Inv L capacity s' := by
  refine h.move hplace hfresh ?_ (fun j hj => h.head j (hhead ▸ hj)) ?_ hrefs hsize
    (fun x prev j e => absurd e (howner x prev j)) hinside ?_ ?_ hunused ?_ ?_
    fun prev j e => absurd e (hflag prev j)
  · intro j
    rw [hnode]
    split
    · rename_i e
      subst e
      exact ⟨rfl, rfl, hlow, hup, hnext⟩
    · exact ⟨rfl, rfl, rfl, rfl, le_rfl⟩
  · intro j hj q hq
    refine h.prev j hj q ?_
    rw [hnode] at hq
    split at hq
    · rename_i e
      rw [e]
      exact hq
    · exact hq
  · intro j hj
    rw [hnode]
    rcases eq_or_ne j c with rfl | hne
    · rw [if_pos rfl]
      exact hcount
    · rw [if_neg hne, hsame j hj hne]
      exact h.count j hj
  · intro j hj
    rw [hnode]
    split
    · exact hsmall
    · exact h.small j hj
  · intro j hj
    rw [hnode] at hj
    split at hj
    · rename_i e
      rw [e]
      exact .inl hj
    · exact .inl hj
  · intro j hj
    rw [hnode]
    split
    · rename_i e
      rw [e] at hj
      exact hj
    · exact hj

omit [DecidableEq ι] in
/-- The address of a bump does not wrap. -/
theorem Inv.fetchSub_nextAddr (h : Inv L capacity s) {size c : Nat} (hc : c < s.fresh)
    (hroom : size ≤ (s.node c).item.nextAddr) :
    ((s.node c).item.fetchSub size).nextAddr = (s.node c).item.nextAddr - size := by
  obtain ⟨hlow, hup, hend, hle⟩ := h.limits c hc
  have hcb : 512 ≤ L.controlblockSize := Nat.le_add_left _ _
  exact BumpAllocator.fetchSub_nextAddr hroom (by omega)

/-- A bump reserves a block, or takes `next_addr` down in vain. -/
theorem Inv.bump (h : Inv L capacity s) {size c : Nat} (hi : s.place i = .bump size c)
    (hroom : size ≤ (s.node c).item.nextAddr) (hplace : s'.place = update s.place i p)
    (hfresh : s'.fresh = s.fresh) (hhead : s'.head = s.head) (hlive : s'.live = s.live)
    (hlost : s'.lost = s.lost)
    (hnode : ∀ j, s'.node j =
      if j = c then { s.node c with item := (s.node c).item.fetchSub size } else s.node j)
    (hp : p = if (s.node c).item.lowerLimit ≤ (s.node c).item.nextAddr - size then
      .countUp ⟨c, ⟨(s.node c).item.nextAddr - size, size⟩⟩ else .newChunk size) :
    Inv L capacity s' := by
  have hopen : s.Open c := h.refs i c (by rw [hi]; simp [Place.refs])
  have hpos : 1 ≤ size := h.size i size (by rw [hi]; rfl)
  obtain ⟨hlow, hup, hend, hle⟩ := h.limits c hopen.1
  have hnext := h.fetchSub_nextAddr hopen.1 hroom
  have hheld : p.held = none := by
    rw [hp]
    split <;> rfl
  have hcounted : ∀ j, s'.counted j = s.counted j := by
    intro j
    have := counted_update hplace j
    rw [hlive, hlost, hheld, hi] at this
    simp only [Place.held, isIn_none] at this
    omega
  have hpending : ∀ j, s'.pending j = s.pending j + isIn j p.reserved := by
    intro j
    have := pending_update hplace j
    rw [hi] at this
    simpa [Place.reserved] using this
  refine h.setItem hplace hfresh hhead hnode (by simp) (by simp) (by omega) ?_ ?_ ?_ ?_ ?_
    (fun j _ _ => hcounted j) ?_ ?_ ?_
  · intro j hj
    rw [hp] at hj
    split at hj <;> simp [Place.refs] at hj
  · intro n hn
    rw [hp] at hn
    split at hn
    · cases hn
    · obtain rfl : size = n := Option.some.inj hn
      exact hpos
  · intro x prev j e
    rw [hp] at e
    split at e <;> cases e
  · intro prev j e
    rw [hp] at e
    split at e <;> cases e
  · intro x hx
    rcases uses_update hplace hx with hx | hx | hx | hx | hx
    · exact h.inside x (.inl (hlive ▸ hx))
    · exact h.inside x (.inr (.inl (hlost ▸ hx)))
    · rw [hheld] at hx
      cases hx
    · rw [hp] at hx
      split at hx
      · rename_i hfit
        obtain rfl := Option.some.inj hx
        refine ⟨hopen.1, hfit, ?_⟩
        show (s.node c).item.nextAddr - size < (s.node c).item.upperLimit
        omega
      · cases hx
    · exact h.inside x hx
  · rw [BumpAllocator.fetchSub_count, hcounted]
    exact h.count c hopen.1
  · rw [BumpAllocator.fetchSub_count]
    exact h.small c hopen.1
  · intro j hj
    rw [hcounted, hpending]
    refine ⟨hj.1, ?_⟩
    -- an unused chunk is full, so the bump cannot be one on it that succeeds
    have hzero : isIn j p.reserved = 0 := by
      rw [hp]
      split
      · rename_i hfit
        have hne : c ≠ j := by
          rintro rfl
          have := hj.2.2
          omega
        simp [Place.reserved, hne]
      · rfl
    rw [hj.2.1, hzero]

/-- A reserved block is counted and returned. -/
theorem Inv.countUp (h : Inv L capacity s) {x : Held} (hi : s.place i = .countUp x)
    (hsmall : (s.node x.owner).item.count + 1 < countSize)
    (hplace : s'.place = update s.place i .idle) (hfresh : s'.fresh = s.fresh)
    (hhead : s'.head = s.head) (hlive : s'.live = x :: s.live) (hlost : s'.lost = s.lost)
    (hnode : ∀ j, s'.node j =
      if j = x.owner then { s.node x.owner with item := (s.node x.owner).item.countUp }
      else s.node j) : Inv L capacity s' := by
  have hres : (s.place i).reserved = some x := by rw [hi]; rfl
  have huses : s.Uses x := .inr (.inr ⟨i, .inr hres⟩)
  have hcounted : ∀ j, s'.counted j = s.counted j + if x.owner = j then 1 else 0 := by
    intro j
    have := counted_update hplace j
    rw [hlive, hlost, hi] at this
    simp only [Place.held, isIn_none, List.countP_cons, beq_iff_eq] at this
    omega
  have hpending : ∀ j, s'.pending j ≤ s.pending j := by
    intro j
    have := pending_update hplace j
    simp only [Place.reserved, isIn_none] at this
    omega
  refine h.setItem hplace hfresh hhead hnode (by simp) (by simp) (by simp) (by simp [Place.refs])
    (by simp [Place.size]) (by simp) (by simp) ?_ ?_ ?_ ?_ ?_
  · intro y hy
    rcases uses_update hplace hy with hy | hy | hy | hy | hy
    · rw [hlive] at hy
      rcases List.mem_cons.mp hy with rfl | hy
      · exact h.inside y huses
      · exact h.inside y (.inl hy)
    · exact h.inside y (.inr (.inl (hlost ▸ hy)))
    · cases hy
    · cases hy
    · exact h.inside y hy
  · intro j _ hne
    rw [hcounted, if_neg hne.symm]
    rfl
  · rw [BumpAllocator.countUp_count hsmall, hcounted, if_pos rfl, h.count _ (h.inside x huses).1]
  · rw [BumpAllocator.countUp_count hsmall]
    exact hsmall
  · intro j hj
    have hne : x.owner ≠ j := hj.not_uses huses
    rw [hcounted, if_neg hne, hj.1]
    have := hpending j
    have hz := hj.2.1
    exact ⟨rfl, by omega⟩

/-- A block is given back to its chunk. -/
theorem Inv.countDown (h : Inv L capacity s) {x : Held} {prev : Option Nat} {c : Nat}
    (hi : s.place i = .countDown x prev c) (hplace : s'.place = update s.place i p)
    (hfresh : s'.fresh = s.fresh) (hhead : s'.head = s.head) (hlive : s'.live = s.live)
    (hlost : s'.lost = s.lost)
    (hnode : ∀ j, s'.node j =
      if j = c then { s.node c with item := (s.node c).item.countDown } else s.node j)
    (hp : p = if (s.node c).item.count = 1 then .testFull prev c else .idle) :
    Inv L capacity s' := by
  have hheld : (s.place i).held = some x := by rw [hi]; rfl
  have huses : s.Uses x := .inr (.inr ⟨i, .inl hheld⟩)
  have howner : c = x.owner := h.owner i x prev c hi
  have hpheld : p.held = none := by
    rw [hp]
    split <;> rfl
  have hpres : p.reserved = none := by
    rw [hp]
    split <;> rfl
  -- the block that is given back is counted no longer
  have hcounted : ∀ j, s'.counted j + (if x.owner = j then 1 else 0) = s.counted j := by
    intro j
    have := counted_update hplace j
    rw [hlive, hlost, hpheld, hheld] at this
    simp only [isIn_none, isIn_some] at this
    omega
  have hpending : ∀ j, s'.pending j = s.pending j := by
    intro j
    have := pending_update hplace j
    rw [hpres, hi] at this
    simpa [Place.reserved] using this
  have hlt : c < s.fresh := howner ▸ (h.inside x huses).1
  have hc := h.count c hlt
  have hself := hcounted c
  rw [if_pos howner.symm] at hself
  have hdown : (s.node c).item.countDown.count = (s.node c).item.count - 1 :=
    BumpAllocator.countDown_count (by omega) (h.small c hlt)
  refine h.setItem hplace hfresh hhead hnode (by simp) (by simp) (by simp) ?_ ?_ ?_ ?_ ?_ ?_ ?_ ?_ ?_
  · intro j hj
    refine h.refs i j ?_
    rw [hi]
    rw [hp] at hj
    split at hj
    · exact hj
    · simp [Place.refs] at hj
  · intro n hn
    rw [hp] at hn
    split at hn <;> cases hn
  · intro y q j e
    rw [hp] at e
    split at e <;> cases e
  · intro q j e
    rw [hp] at e
    split at e <;> cases e
  · intro y hy
    rcases uses_update hplace hy with hy | hy | hy | hy | hy
    · exact h.inside y (.inl (hlive ▸ hy))
    · exact h.inside y (.inr (.inl (hlost ▸ hy)))
    · rw [hpheld] at hy
      cases hy
    · rw [hpres] at hy
      cases hy
    · exact h.inside y hy
  · intro j _ hne
    have := hcounted j
    rw [if_neg (howner ▸ hne.symm)] at this
    omega
  · rw [hdown]
    omega
  · have := h.small c hlt
    omega
  · intro j hj
    have := hcounted j
    have hz := hj.1
    rw [hpending]
    exact ⟨by omega, hj.2.1⟩

/-- A block passes from one hand to another and its chunk does not change. -/
theorem Inv.pass (h : Inv L capacity s) (hplace : s'.place = update s.place i p)
    (hfresh : s'.fresh = s.fresh) (hhead : s'.head = s.head) (hnode : s'.node = s.node)
    (hrefs : p.refs = []) (hsize : p.size = none) (hres : p.reserved = none)
    (hold : (s.place i).reserved = none)
    (howner : ∀ x prev c, p ≠ .countDown x prev c) (hflag : ∀ prev c, p ≠ .flag prev c)
    (huses : ∀ x, s'.Uses x → s.Uses x) (hcounted : ∀ j, s'.counted j = s.counted j) :
    Inv L capacity s' := by
  have hpending : ∀ j, s'.pending j = s.pending j := by
    intro j
    have := pending_update hplace j
    rw [hres, hold] at this
    simpa using this
  refine h.move hplace hfresh ?_ (fun j hj => h.head j (hhead ▸ hj)) ?_ (by simp [hrefs])
    (by simp [hsize]) (fun x prev j e => absurd e (howner x prev j))
    (fun x hx => h.inside x (huses x hx)) ?_ ?_ ?_ ?_ ?_ fun prev j e => absurd e (hflag prev j)
  · intro c
    rw [hnode]
    exact ⟨rfl, rfl, rfl, rfl, le_rfl⟩
  · intro c hc q hq
    rw [hnode] at hq
    exact h.prev c hc q hq
  · intro c hc
    rw [hnode, hcounted]
    exact h.count c hc
  · intro c hc
    rw [hnode]
    exact h.small c hc
  · intro c hc
    rw [hcounted, hpending]
    exact ⟨hc.1, hc.2.1⟩
  · intro c hc
    rw [hnode] at hc
    exact .inl hc
  · intro c hc
    rw [hnode]
    exact hc

/-- A search comes to the end of the list. -/
theorem Inv.lose (h : Inv L capacity s) {x : Held} {prev : Option Nat}
    (hi : s.place i = .visit x prev none) (hplace : s'.place = update s.place i .idle)
    (hfresh : s'.fresh = s.fresh) (hhead : s'.head = s.head) (hnode : s'.node = s.node)
    (hlive : s'.live = s.live) (hlost : s'.lost = x :: s.lost) : Inv L capacity s' := by
  have hheld : (s.place i).held = some x := by rw [hi]; rfl
  refine h.pass hplace hfresh hhead hnode rfl rfl rfl (by rw [hi]; rfl) (by simp) (by simp) ?_ ?_
  · intro y hy
    rcases uses_update hplace hy with hy | hy | hy | hy | hy
    · exact .inl (hlive ▸ hy)
    · rw [hlost] at hy
      rcases List.mem_cons.mp hy with rfl | hy
      · exact .inr (.inr ⟨i, .inl hheld⟩)
      · exact .inr (.inl hy)
    · cases hy
    · cases hy
    · exact hy
  · intro j
    have := counted_update hplace j
    rw [hheld, hlive, hlost] at this
    simp only [Place.held, isIn_none, isIn_some, List.countP_cons, beq_iff_eq] at this
    omega

/-- A live block is passed to `deallocate`. -/
theorem Inv.giveBack (h : Inv L capacity s) {x : Held} {j : Nat} (hi : s.place i = .idle)
    (hx : s.live[j]? = some x) (hplace : s'.place = update s.place i (.prevHead x))
    (hfresh : s'.fresh = s.fresh) (hhead : s'.head = s.head) (hnode : s'.node = s.node)
    (hlive : s'.live = s.live.eraseIdx j) (hlost : s'.lost = s.lost) : Inv L capacity s' := by
  have hmem : x ∈ s.live := List.mem_of_getElem? hx
  have hperm : (x :: s.live.eraseIdx j).Perm s.live := by
    obtain ⟨hjl, hget⟩ := List.getElem?_eq_some_iff.mp hx
    rw [← hget]
    exact List.getElem_cons_eraseIdx_perm hjl
  refine h.pass hplace hfresh hhead hnode rfl rfl rfl (by rw [hi]; rfl) (by simp) (by simp) ?_ ?_
  · intro y hy
    rcases uses_update hplace hy with hy | hy | hy | hy | hy
    · rw [hlive] at hy
      exact .inl ((List.eraseIdx_sublist _ _).mem hy)
    · exact .inr (.inl (hlost ▸ hy))
    · obtain rfl := Option.some.inj hy
      exact .inl hmem
    · cases hy
    · exact hy
  · intro k
    have := counted_update hplace k
    have hcount := hperm.countP_eq fun y => y.owner == k
    rw [List.countP_cons] at hcount
    rw [hi, hlive, hlost] at this
    simp only [Place.held, isIn_none, isIn_some, beq_iff_eq] at this hcount
    omega

/-- A chunk appears. -/
theorem Inv.newChunk (h : Inv L capacity s) {size base : Nat}
    (hfit : L.controlblockSize + L.sizeofBumpAllocator ≤ capacity)
    (hi : s.place i = .newChunk size)
    (hbase : base + (capacity + L.controlblockSize) ≤ addrSize)
    (hapart : ∀ c, s.Open c → Block.Disjoint ⟨base, capacity + L.controlblockSize⟩
      ⟨(s.node c).base, capacity + L.controlblockSize⟩)
    (hplace : s'.place = update s.place i (.loadOld size s.fresh))
    (hfresh : s'.fresh = s.fresh + 1) (hhead : s'.head = s.head)
    (hlive : s'.live = s.live) (hlost : s'.lost = s.lost)
    (hnode : ∀ j, s'.node j = if j = s.fresh then
      ⟨base, .init ⟨base + L.controlblockSize + L.sizeofBumpAllocator,
        capacity - L.controlblockSize - L.sizeofBumpAllocator⟩, false, none, false⟩
      else s.node j) : Inv L capacity s' := by
  obtain ⟨huses, hcounted, hpending⟩ :=
    uses_congr hplace hlive hlost (by rw [hi]; rfl) (by rw [hi]; rfl)
  have hold : ∀ j, j < s.fresh → s'.node j = s.node j := fun j hj => by
    rw [hnode, if_neg (Nat.ne_of_lt hj)]
  have hnew : s'.node s.fresh = _ := (hnode s.fresh).trans (if_pos rfl)
  have hcases : ∀ j < s'.fresh, j = s.fresh ∨ j < s.fresh := by
    intro j hj
    omega
  have hopen : ∀ j, s.Open j → s'.Open j := by
    intro j hj
    refine ⟨by rw [hfresh]; exact Nat.lt_succ_of_lt hj.1, ?_⟩
    rw [hold j hj.1]
    exact hj.2
  have hopen' : ∀ j, s'.Open j → j = s.fresh ∨ s.Open j := by
    intro j hj
    rcases hcases j hj.1 with e | hlt
    · exact .inl e
    · exact .inr ⟨hlt, by rw [← hold j hlt]; exact hj.2⟩
  have hfreshOpen : s'.Open s.fresh := ⟨by rw [hfresh]; exact Nat.lt_succ_self _, by rw [hnew]⟩
  have hunused : ∀ c < s.fresh, s.Unused c → s'.Unused c := by
    intro c hc hu
    unfold Unused
    rw [hcounted, hpending, hold c hc]
    exact hu
  -- no block was taken from a chunk that did not exist
  have hnone : s.counted s.fresh = 0 := by
    by_contra hne
    obtain ⟨x, hx, hxo⟩ := exists_uses_of_counted (Nat.pos_of_ne_zero hne)
    have := (h.inside x hx).1
    omega
  have hat := place_update hplace
  exact {
    refs := by
      intro j c hc
      rw [hat] at hc
      split at hc
      · obtain rfl : c = s.fresh := by simpa [Place.refs] using hc
        exact hfreshOpen
      · exact hopen c (h.refs j c hc)
    head := by
      intro c hc
      exact hopen c (h.head c (hhead ▸ hc))
    prev := by
      intro c hc q hq
      rcases hopen' c hc with rfl | hc
      · rw [hnew] at hq
        cases hq
      · rw [hold c hc.1] at hq
        exact hopen q (h.prev c hc q hq)
    freed := by
      intro c hc
      rw [hnode] at hc ⊢
      split at hc
      · cases hc
      · rename_i hne
        rw [if_neg hne]
        exact h.freed c hc
    limits := by
      intro c hc
      rcases hcases c hc with rfl | hlt
      · rw [hnew]
        refine ⟨rfl, ?_, hbase, ?_⟩
        · simp only [BumpAllocator.init]
          omega
        · exact le_rfl
      · rw [hold c hlt]
        exact h.limits c hlt
    apart := by
      intro c c' hc hc' hne
      rcases hopen' c hc with rfl | hc
      · rcases hopen' c' hc' with rfl | hc'
        · exact absurd rfl hne
        · rw [hnew, hold c' hc'.1]
          exact hapart c' hc'
      · rcases hopen' c' hc' with rfl | hc'
        · rw [hnew, hold c hc.1]
          exact (hapart c hc).symm
        · rw [hold c hc.1, hold c' hc'.1]
          exact h.apart c c' hc hc' hne
    inside := by
      intro x hx
      have hin := h.inside x ((huses x).mp hx)
      rw [hold _ hin.1]
      exact ⟨by omega, hin.2⟩
    size := by
      intro j n hn
      rw [hat] at hn
      split at hn
      · exact h.size i n (by rw [hi]; exact hn)
      · exact h.size j n hn
    owner := by
      intro j x prev c hj
      rw [hat] at hj
      split at hj
      · cases hj
      · exact h.owner j x prev c hj
    count := by
      intro c hc
      rw [hcounted]
      rcases hcases c hc with rfl | hlt
      · rw [hnew, hnone]
        rfl
      · rw [hold c hlt]
        exact h.count c hlt
    deleted := by
      intro c hc hdel
      rcases hcases c hc with rfl | hlt
      · rw [hnew] at hdel
        cases hdel
      · rw [hold c hlt] at hdel
        exact hunused c hlt (h.deleted c hlt hdel)
    flag := by
      intro j prev c hj
      rw [hat] at hj
      split at hj
      · cases hj
      · have hlt : c < s.fresh := (h.refs j c (by rw [hj]; simp [Place.refs])).1
        exact hunused c hlt (h.flag j prev c hj)
    small := by
      intro c hc
      rcases hcases c hc with rfl | hlt
      · rw [hnew]
        exact Nat.zero_lt_succ _
      · rw [hold c hlt]
        exact h.small c hlt }

omit [DecidableEq ι] in
/-- The memory of a flagged chunk that nothing points to is freed. -/
theorem Inv.free (h : Inv L capacity s) {c : Nat} (hdel : (s.node c).deleted = true)
    (hhead : s.head ≠ some c) (hrefs : ∀ i, c ∉ (s.place i).refs)
    (hprev : ∀ c', s.Open c' → (s.node c').prev ≠ some c) :
    Inv L capacity (s.setNode c fun x => { x with freed := true }) := by
  have hnode := setNode_node s c fun x => { x with freed := true }
  have hitem : ∀ j, ((s.setNode c fun x => { x with freed := true }).node j).item =
      (s.node j).item := by
    intro j
    rw [hnode]
    split
    · rename_i e
      rw [e]
    · rfl
  have hbase : ∀ j, ((s.setNode c fun x => { x with freed := true }).node j).base =
      (s.node j).base := by
    intro j
    rw [hnode]
    split
    · rename_i e
      rw [e]
    · rfl
  -- the chunk closes, and no other does
  have hopen : ∀ j, (s.setNode c fun x => { x with freed := true }).Open j ↔ s.Open j ∧ j ≠ c := by
    intro j
    unfold Open
    rw [hnode]
    rcases eq_or_ne j c with rfl | hne
    · simp
    · simp only [ne_eq, hne, not_false_eq_true, and_true]
      exact Iff.rfl
  exact {
    refs := by
      intro j k hk
      refine (hopen k).mpr ⟨h.refs j k hk, ?_⟩
      rintro rfl
      exact hrefs j hk
    head := by
      intro k hk
      refine (hopen k).mpr ⟨h.head k hk, ?_⟩
      rintro rfl
      exact hhead hk
    prev := by
      intro k hk q hq
      obtain ⟨hk', hne⟩ := (hopen k).mp hk
      rw [hnode, if_neg hne] at hq
      refine (hopen q).mpr ⟨h.prev k hk' q hq, ?_⟩
      rintro rfl
      exact hprev k hk' hq
    freed := by
      intro k hk
      rw [hnode] at hk ⊢
      split at hk
      · rename_i e
        rw [if_pos e]
        exact hdel
      · rename_i hne
        rw [if_neg hne]
        exact h.freed k hk
    limits := by
      intro k hk
      rw [hbase, hitem]
      exact h.limits k hk
    apart := by
      intro k k' hk hk' hne
      rw [hbase, hbase]
      exact h.apart k k' ((hopen k).mp hk).1 ((hopen k').mp hk').1 hne
    inside := by
      intro x hx
      rw [hitem]
      exact h.inside x hx
    size := h.size
    owner := h.owner
    count := by
      intro k hk
      rw [hitem]
      exact h.count k hk
    deleted := by
      intro k hk hd
      unfold Unused
      rw [hitem]
      refine h.deleted k hk ?_
      rw [hnode] at hd
      split at hd
      · rename_i e
        rw [e]
        exact hdel
      · exact hd
    flag := by
      intro j prev k hj
      unfold Unused
      rw [hitem]
      exact h.flag j prev k hj
    small := by
      intro k hk
      rw [hitem]
      exact h.small k hk }

omit [DecidableEq ι] in
/-- The block of a search is owned by no other chunk in use. -/
theorem Inv.owner_of_owns (h : Inv L capacity s) {x : Held} (hx : s.Uses x) {c : Nat}
    (hc : s.Open c) (howns : (s.node c).item.owns x.blk = true) : c = x.owner := by
  by_contra hne
  have hd := h.apart c x.owner hc (h.open_of_uses hx) hne
  obtain ⟨hlow, hup, -, -⟩ := h.limits c hc.1
  obtain ⟨hlow', hup', -, -⟩ := h.limits x.owner (h.inside x hx).1
  have hin := h.inside x hx
  have ho : (s.node c).item.lowerLimit ≤ x.blk.ptr ∧ x.blk.ptr < (s.node c).item.upperLimit :=
    of_decide_eq_true howns
  simp only [Block.Disjoint] at hd
  omega

omit [DecidableEq ι] in
/-- A test that finds an uncounted chunk full has found an unused chunk. -/
theorem Inv.unused_of_uncounted (h : Inv L capacity s) {c : Nat} (hc : c < s.fresh)
    (hfull : (s.node c).item.full = true) (hu : s.Uncounted c) : s.Unused c := by
  refine ⟨?_, ?_, of_decide_eq_true hfull⟩
  · rw [← h.count c hc]
    exact hu.1
  · exact weigh_eq_zero fun j => if_neg (hu.2 j)

omit [DecidableEq ι] [Fintype ι] in
theorem mem_toList_open {o : Option Nat} (ho : ∀ c, o = some c → s.Open c) :
    ∀ c ∈ o.toList, s.Open c := by
  intro c hc
  exact ho c (by simpa using hc)

omit [DecidableEq ι] [Fintype ι] in
/-- Writing the link of a chunk changes nothing else of it. -/
theorem setNode_prev (s : Arena ι) (c : Nat) (o : Option Nat) (j : Nat) :
    ((s.setNode c fun x => { x with prev := o }).node j).base = (s.node j).base ∧
      ((s.setNode c fun x => { x with prev := o }).node j).freed = (s.node j).freed ∧
      ((s.setNode c fun x => { x with prev := o }).node j).item = (s.node j).item ∧
      ((s.setNode c fun x => { x with prev := o }).node j).deleted = (s.node j).deleted ∧
      ((s.setNode c fun x => { x with prev := o }).node j).prev =
        if j = c then o else (s.node j).prev := by
  rw [setNode_node]
  rcases eq_or_ne j c with rfl | hne
  · simp
  · simp [hne]

/-- The thread goes on after it has written the link of a chunk. -/
theorem Inv.link (h : Inv L capacity s) {c : Nat} {o : Option Nat}
    (ho : ∀ q ∈ o.toList, s.Open q) (hrefs : ∀ c ∈ p.refs, s.Open c)
    (hheld : p.held = (s.place i).held) (hres : p.reserved = (s.place i).reserved)
    (hsize : ∀ n, p.size = some n → 1 ≤ n)
    (howner : ∀ x prev c, p = .countDown x prev c → c = x.owner)
    (hflag : ∀ prev c, p = .flag prev c → s.Unused c) :
    Inv L capacity { s.setNode c (fun x => { x with prev := o }) with
      place := update s.place i p } := by
  have hnode := setNode_prev s c o
  refine h.relink rfl rfl rfl rfl (fun j => ⟨(hnode j).1, (hnode j).2.1, (hnode j).2.2.1⟩) h.head
    ?_ hrefs hheld hres hsize howner ?_ ?_ hflag
  · intro j hj q hq
    have hq' : ((s.setNode c fun x => { x with prev := o }).node j).prev = some q := hq
    rw [(hnode j).2.2.2.2] at hq'
    split at hq'
    · exact ho q (by simp [hq'])
    · exact h.prev j hj q hq'
  · intro j hj
    have hj' : ((s.setNode c fun x => { x with prev := o }).node j).deleted = true := hj
    rw [(hnode j).2.2.2.1] at hj'
    exact .inl hj'
  · intro j hj
    show ((s.setNode c fun x => { x with prev := o }).node j).deleted = true
    rw [(hnode j).2.2.2.1]
    exact hj

/-- A chunk is flagged. -/
theorem Inv.setDeleted (h : Inv L capacity s) {prev : Option Nat} {c : Nat}
    (hi : s.place i = .flag prev c) (hrefs : ∀ c ∈ p.refs, s.Open c) (hheld : p.held = none)
    (hres : p.reserved = none) (hsize : p.size = none)
    (howner : ∀ x prev c, p ≠ .countDown x prev c) (hflag : ∀ prev c, p ≠ .flag prev c) :
    Inv L capacity { s.setNode c (fun x => { x with deleted := true }) with
      place := update s.place i p } := by
  have hnode := setNode_node s c fun x => { x with deleted := true }
  refine h.relink rfl rfl rfl rfl ?_ h.head ?_ hrefs (by rw [hheld, hi]; rfl) (by rw [hres, hi]; rfl)
    (by simp [hsize]) (fun x q j e => absurd e (howner x q j)) ?_ ?_
    fun q j e => absurd e (hflag q j)
  · intro j
    show ((s.setNode c fun x => { x with deleted := true }).node j).base = _ ∧
      ((s.setNode c fun x => { x with deleted := true }).node j).freed = _ ∧
      ((s.setNode c fun x => { x with deleted := true }).node j).item = _
    rw [hnode]
    rcases eq_or_ne j c with rfl | hne
    · simp
    · simp [hne]
  · intro j hj q hq
    have hq' : ((s.setNode c fun x => { x with deleted := true }).node j).prev = some q := hq
    rw [hnode] at hq'
    refine h.prev j hj q ?_
    split at hq'
    · rename_i e
      rw [e]
      exact hq'
    · exact hq'
  · intro j hj
    have hj' : ((s.setNode c fun x => { x with deleted := true }).node j).deleted = true := hj
    rw [hnode] at hj'
    split at hj'
    · rename_i e
      rw [e]
      exact .inr (h.flag i prev c hi)
    · exact .inl hj'
  · intro j hj
    show ((s.setNode c fun x => { x with deleted := true }).node j).deleted = true
    rw [hnode]
    split
    · rfl
    · exact hj

/-- A step of one thread, place by place. -/
theorem Inv.go (h : Inv L capacity s) {base : Nat}
    (hfit : L.controlblockSize + L.sizeofBumpAllocator ≤ capacity)
    (hlegal : Legal L capacity s (.go i base)) (hcare : Careful s (.go i base)) :
    Inv L capacity { (s.trans L capacity base (s.place i)).1 with
      place := update s.place i (s.trans L capacity base (s.place i)).2 } := by
  have hrefs := h.refs i
  have hsize := h.size i
  have hhead := mem_toList_open h.head
  have hnext : ∀ {c}, s.Open c → ∀ q ∈ (s.node c).prev.toList, s.Open q := fun hc =>
    mem_toList_open (h.prev _ hc)
  cases hp : s.place i with
  | idle =>
      exact h.read (p := .idle) (by simp [Place.refs]) (by rw [hp]) (by rw [hp])
        (by simp [Place.size]) (by simp) (by simp)
  | loadHead size =>
      rw [hp] at hsize
      have hcases : (s.trans L capacity base (.loadHead size)).2 = .newChunk size ∨
          ∃ c, s.head = some c ∧ (s.trans L capacity base (.loadHead size)).2 = .bump size c := by
        simp only [trans]
        cases s.head with
        | none => exact .inl rfl
        | some c => exact .inr ⟨c, rfl, rfl⟩
      show Inv L capacity { s with
        place := update s.place i (s.trans L capacity base (.loadHead size)).2 }
      rcases hcases with e | ⟨c, hh, e⟩
      · rw [e]
        exact h.read (p := .newChunk size) (by simp [Place.refs]) (by rw [hp]; rfl)
          (by rw [hp]; rfl) hsize (by simp) (by simp)
      · rw [e]
        exact h.read (p := .bump size c) (by simpa [Place.refs] using h.head c hh)
          (by rw [hp]; rfl) (by rw [hp]; rfl) hsize (by simp) (by simp)
  | bump size c =>
      -- with room in the chunk `next_addr` does not wrap around
      have hroom : size ≤ (s.node c).item.nextAddr := by
        simpa only [Careful, CarefulAt, hp] using hcare
      have hopen : s.Open c := hrefs c (by rw [hp]; simp [Place.refs])
      refine h.bump hp hroom rfl rfl rfl rfl rfl
        (setNode_node s c fun y => { y with item := (s.node c).item.fetchSub size }) ?_
      show (if ((s.node c).item.fetchSub size).lowerLimit ≤
        ((s.node c).item.fetchSub size).nextAddr then
          Place.countUp ⟨c, ⟨((s.node c).item.fetchSub size).nextAddr, size⟩⟩ else .newChunk size) = _
      rw [BumpAllocator.fetchSub_lowerLimit, h.fetchSub_nextAddr hopen.1 hroom]
  | countUp x =>
      have hsmall : (s.node x.owner).item.count + 1 < countSize := by
        simpa only [Careful, CarefulAt, hp] using hcare
      exact h.countUp hp hsmall rfl rfl rfl rfl rfl
        (setNode_node s x.owner fun y => { y with item := y.item.countUp })
  | newChunk size =>
      -- the memory that is supplied lies apart from all open chunks
      obtain ⟨hbase, hapart⟩ : base + (capacity + L.controlblockSize) ≤ addrSize ∧
          ∀ c < s.fresh, (s.node c).freed = false → Block.Disjoint ⟨base, capacity + L.controlblockSize⟩
            ⟨(s.node c).base, capacity + L.controlblockSize⟩ := by
        simpa only [Legal, Supplies, hp] using hlegal
      exact h.newChunk hfit hp hbase (fun c hc => hapart c hc.1 hc.2) rfl rfl rfl rfl rfl
        (setNode_node s s.fresh fun _ =>
          ⟨base, .init ⟨base + L.controlblockSize + L.sizeofBumpAllocator,
            capacity - L.controlblockSize - L.sizeofBumpAllocator⟩, false, none, false⟩)
  | loadOld size c =>
      rw [hp] at hsize hrefs
      refine h.read (p := .storePrev size c s.head) ?_ (by rw [hp]; rfl) (by rw [hp]; rfl) hsize
        (by simp) (by simp)
      exact List.forall_mem_cons.mpr ⟨hrefs c (by simp [Place.refs]), hhead⟩
  | storePrev size c old =>
      rw [hp] at hsize hrefs
      exact h.link (p := .cas size c old) (fun q hq => hrefs q (by simp [Place.refs, hq])) hrefs
        (by rw [hp]; rfl) (by rw [hp]; rfl) hsize (by simp) (by simp)
  | cas size c old =>
      rw [hp] at hsize hrefs
      have hc : s.Open c := hrefs c (by simp [Place.refs])
      simp only [trans]
      split
      · refine h.relink rfl rfl rfl rfl (fun _ => ⟨rfl, rfl, rfl⟩) ?_ h.prev (by simp [Place.refs])
          (by rw [hp]; rfl) (by rw [hp]; rfl) hsize (by simp) (fun _ hd => .inl hd) (fun _ hd => hd)
          (by simp)
        intro j hj
        obtain rfl : c = j := Option.some.inj hj
        exact hc
      · exact h.read (p := .loadOld size c) (by simpa [Place.refs] using hc) (by rw [hp]; rfl)
          (by rw [hp]; rfl) hsize (by simp) (by simp)
  | prevHead x =>
      exact h.read (p := .itHead x s.head) hhead (by rw [hp]; rfl) (by rw [hp]; rfl)
        (by simp [Place.size]) (by simp) (by simp)
  | itHead x prev =>
      rw [hp] at hrefs
      refine h.read (p := .visit x prev s.head) ?_ (by rw [hp]; rfl) (by rw [hp]; rfl)
        (by simp [Place.size]) (by simp) (by simp)
      exact List.forall_mem_append.mpr ⟨hrefs, hhead⟩
  | visit x prev it =>
      have huses : s.Uses x := .inr (.inr ⟨i, .inl (by rw [hp]; rfl)⟩)
      rw [hp] at hrefs
      cases it with
      | none => exact h.lose hp rfl rfl rfl rfl rfl rfl
      | some c =>
          have hc : s.Open c := hrefs c (by simp [Place.refs])
          simp only [trans]
          split
          · rename_i howns
            refine h.read (p := .countDown x prev c) ?_ (by rw [hp]; rfl) (by rw [hp]; rfl)
              (by simp [Place.size]) ?_ (by simp)
            · refine List.forall_mem_cons.mpr ⟨hc, fun q hq => hrefs q ?_⟩
              exact List.mem_append_left _ hq
            · intro y q j e
              obtain ⟨rfl, -, rfl⟩ : x = y ∧ prev = q ∧ c = j := by simpa using e
              exact h.owner_of_owns huses hc howns
          · exact h.read (p := .loadPrev (some x) c) (by simpa [Place.refs] using hc)
              (by rw [hp]; rfl) (by rw [hp]; rfl) (by simp [Place.size]) (by simp) (by simp)
  | countDown x prev c =>
      exact h.countDown hp rfl rfl rfl rfl rfl
        (setNode_node s c fun y => { y with item := y.item.countDown }) rfl
  | testFull prev c =>
      rw [hp] at hrefs
      have hc : s.Open c := hrefs c (by simp [Place.refs])
      have hu : (s.node c).item.full = true → s.Uncounted c := by
        simpa only [Careful, CarefulAt, hp] using hcare
      simp only [trans]
      split
      · rename_i hfull
        refine h.read (p := .flag prev c) hrefs (by rw [hp]; rfl) (by rw [hp]; rfl)
          (by simp [Place.size]) (by simp) ?_
        intro q j e
        obtain ⟨-, rfl⟩ : prev = q ∧ c = j := by simpa using e
        exact h.unused_of_uncounted hc.1 hfull (hu hfull)
      · exact h.read (p := .idle) (by simp [Place.refs]) (by rw [hp]; rfl) (by rw [hp]; rfl)
          (by simp [Place.size]) (by simp) (by simp)
  | flag prev c =>
      rw [hp] at hrefs
      cases prev with
      | none =>
          exact h.setDeleted (p := .idle) hp (by simp [Place.refs]) rfl rfl rfl (by simp) (by simp)
      | some q =>
          refine h.setDeleted (p := .loadPrev none q) hp ?_ rfl rfl rfl (by simp) (by simp)
          simpa [Place.refs] using hrefs q (by simp [Place.refs])
  | loadPrev k c =>
      rw [hp] at hrefs
      have hc : s.Open c := hrefs c (by simp [Place.refs])
      refine h.read (p := .skip k c (s.node c).prev) ?_ (by rw [hp]; rfl) (by rw [hp]; rfl)
        (by simp [Place.size]) (by simp) (by simp)
      exact List.forall_mem_cons.mpr ⟨hc, hnext hc⟩
  | skip k c q =>
      rw [hp] at hrefs
      have hc : s.Open c := hrefs c (by simp [Place.refs])
      cases q with
      | none =>
          exact h.read (p := .storeSkip k c none) hrefs (by rw [hp]; rfl) (by rw [hp]; rfl)
            (by simp [Place.size]) (by simp) (by simp)
      | some q =>
          have hq : s.Open q := hrefs q (by simp [Place.refs])
          simp only [trans]
          split
          · refine h.read (p := .skip k c (s.node q).prev) ?_ (by rw [hp]; rfl) (by rw [hp]; rfl)
              (by simp [Place.size]) (by simp) (by simp)
            exact List.forall_mem_cons.mpr ⟨hc, hnext hq⟩
          · exact h.read (p := .storeSkip k c (some q)) hrefs (by rw [hp]; rfl) (by rw [hp]; rfl)
              (by simp [Place.size]) (by simp) (by simp)
  | storeSkip k c q =>
      rw [hp] at hrefs
      have hc : s.Open c := hrefs c (by simp [Place.refs])
      have hq : ∀ j ∈ q.toList, s.Open j := fun j hj => hrefs j (by simp [Place.refs, hj])
      cases k with
      | none =>
          exact h.link (p := .idle) hq (by simp [Place.refs]) (by rw [hp]; rfl) (by rw [hp]; rfl)
            (by simp [Place.size]) (by simp) (by simp)
      | some x =>
          exact h.link (p := .advance x c) hq (by simpa [Place.refs] using hc) (by rw [hp]; rfl)
            (by rw [hp]; rfl) (by simp [Place.size]) (by simp) (by simp)
  | advance x c =>
      rw [hp] at hrefs
      have hc : s.Open c := hrefs c (by simp [Place.refs])
      refine h.read (p := .visit x (some c) (s.node c).prev) ?_ (by rw [hp]; rfl) (by rw [hp]; rfl)
        (by simp [Place.size]) (by simp) (by simp)
      refine List.forall_mem_append.mpr ⟨?_, hnext hc⟩
      simpa using hc

omit [DecidableEq ι] in
theorem Inv.initial : Inv L capacity (initial ι) where
  refs _ _ hc := by cases hc
  head _ hc := by cases hc
  prev _ hc := absurd hc.1 (Nat.not_lt_zero _)
  freed _ hc := by cases hc
  limits _ hc := absurd hc (Nat.not_lt_zero _)
  apart _ _ hc := absurd hc.1 (Nat.not_lt_zero _)
  inside x hx := by
    rcases hx with hx | hx | ⟨i, hx | hx⟩ <;> cases hx
  size _ _ hn := by cases hn
  owner _ _ _ _ hp := by cases hp
  count _ hc := absurd hc (Nat.not_lt_zero _)
  deleted _ hc := absurd hc (Nat.not_lt_zero _)
  flag _ _ _ hp := by cases hp
  small _ hc := absurd hc (Nat.not_lt_zero _)

theorem Inv.step (h : Inv L capacity s) {a : ArenaAction ι}
    (hfit : L.controlblockSize + L.sizeofBumpAllocator ≤ capacity)
    (hlegal : Legal L capacity s a) (hcare : Careful s a)
    (hs : s.step L capacity a = some s') : Inv L capacity s' := by
  cases a with
  | allocate i n =>
      simp only [Arena.step] at hs
      split at hs
      · rename_i hok
        obtain rfl := Option.some.inj hs
        refine h.read (p := .loadHead (roundupToPoweroftwo n)) (by simp [Place.refs])
          (by rw [hok.1]; rfl) (by rw [hok.1]; rfl) ?_ (by simp) (by simp)
        intro m hm
        obtain rfl := Option.some.inj hm
        exact hok.2.1
      · cases hs
  | deallocate i j =>
      simp only [Arena.step] at hs
      split at hs
      · cases hs
      · rename_i x hx
        split at hs
        · rename_i hi
          obtain rfl := Option.some.inj hs
          exact h.giveBack hi hx rfl rfl rfl rfl rfl rfl
        · cases hs
  | go i base =>
      simp only [Arena.step] at hs
      split at hs
      · cases hs
      · obtain rfl := Option.some.inj hs
        exact h.go hfit hlegal hcare
  | free c =>
      simp only [Arena.step] at hs
      obtain rfl := Option.some.inj hs
      obtain ⟨-, hdel, hhead, hrefs, hprev⟩ := hlegal
      exact h.free hdel hhead hrefs fun c' hc' => hprev c' hc'.1 hc'.2

end Steps

/-- No chunk is flagged deleted while a block that was reserved in it has not
been given back. -/
theorem chunk_flagged_unused (L : Layout) (capacity : Nat)
    (hfit : L.controlblockSize + L.sizeofBumpAllocator ≤ capacity) {s : Arena ι}
    (hr : Reaches (step L capacity) (fun s a => Legal L capacity s a ∧ Careful s a) (initial ι) s)
    {x : Held} (hx : s.Uses x) : (s.node x.owner).deleted = false := by
  have hi : Inv L capacity s :=
    hr.invariant Inv.initial fun _ _ _ h hok hs => h.step hfit hok.1 hok.2 hs
  by_contra hdel
  exact (hi.deleted x.owner (hi.inside x hx).1 (by simpa using hdel)).not_uses hx rfl

/-- `n` steps of thread `i`. -/
def goes (i : Fin 3) (base n : Nat) : List (ArenaAction (Fin 3)) := List.replicate n (.go i base)

/-- The first chunk is flagged after its block was given back; a block of the
second chunk is in use. -/
theorem chunk_flagged_unused_second_chunk :
    ∃ s : Arena (Fin 3), Reaches (step ⟨48, 32⟩ 65536)
        (fun s a => Legal ⟨48, 32⟩ 65536 s a ∧ Careful s a) (initial (Fin 3)) s ∧
      (s.node 0).deleted = true ∧ ∃ x, s.Uses x ∧ x.owner = 1 ∧ (s.node x.owner).deleted = false := by
  have hrun : (exec (step ⟨48, 32⟩ 65536) (fun s a => Legal ⟨48, 32⟩ 65536 s a ∧ Careful s a)
      (List.flatten [.allocate 0 20000 :: goes 0 262144 8, .allocate 2 20000 :: goes 2 524288 9,
        .deallocate 0 1 :: goes 0 0 12]) (initial (Fin 3))).map
        (fun s => ((s.node 0).deleted, s.live.map Held.owner)) = some (true, [1]) := by
    decide +kernel
  obtain ⟨s, hs, hp⟩ := Option.map_eq_some_iff.mp hrun
  have hreach := Reaches.refl.of_exec hs
  obtain ⟨hdel, hlive⟩ := Prod.mk.inj hp
  obtain ⟨x, hx, hxo⟩ := List.map_eq_singleton_iff.mp hlive
  have huses : s.Uses x := .inl (by simp [hx])
  exact ⟨s, hreach, hdel, x, huses, hxo, chunk_flagged_unused ⟨48, 32⟩ 65536 (by decide) hreach huses⟩

/-- One thread has reserved a block and not counted it, another one has found the
chunk too small, and the third gives back the only counted block. -/
theorem chunk_flagged_in_use :
    ∃ s : Arena (Fin 3), Reaches (step ⟨48, 32⟩ 65536) (Legal ⟨48, 32⟩ 65536) (initial (Fin 3)) s ∧
      ∃ x, s.Uses x ∧ (s.node x.owner).deleted = true := by
  have hrun : (exec (step ⟨48, 32⟩ 65536) (Legal ⟨48, 32⟩ 65536)
      (List.flatten [.allocate 0 20000 :: goes 0 262144 8, .allocate 1 16384 :: goes 1 0 2,
        .allocate 2 20000 :: goes 2 0 2, .deallocate 0 0 :: goes 0 0 6]) (initial (Fin 3))).map
        (fun s => ((s.node 0).deleted, ((s.place 1).reserved.map Held.owner))) =
          some (true, some 0) := by
    decide +kernel
  obtain ⟨s, hs, hp⟩ := Option.map_eq_some_iff.mp hrun
  obtain ⟨hdel, hres⟩ := Prod.mk.inj hp
  obtain ⟨x, hx, hxo⟩ := Option.map_eq_some_iff.mp hres
  exact ⟨s, Reaches.refl.of_exec hs, x, .inr (.inr ⟨1, .inr hx⟩), by rw [hxo]; exact hdel⟩

end Arena

end RedGrapes.Memory
