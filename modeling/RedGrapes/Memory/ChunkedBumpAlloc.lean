/-
RedGrapes/Memory/ChunkedBumpAlloc.lean

`ChunkedBumpAlloc` (`memory/chunked_bump_alloc.hpp`) over the linked list of
chunks of `util/atomic_list.hpp`, run by one thread.

Chunks are numbered in the order of their allocation.  `linked` is the chain of
`prev` pointers from the head on; a chunk that is flagged deleted stays in it
until an iteration comes by (`skipDeleted`).  The head may be flagged too.

The backing allocator is the environment: a call of `allocate` is given the
region it will return.  The region has to be disjoint from those of the chunks
that are still linked; the memory of the others is free again.

The theorem is `allocator_sound`: live blocks are disjoint, every chunk counts
its live blocks, `deallocate` finds the chunk of a block by its address, and no
chunk is flagged that has a live block.
-/
import RedGrapes.Lib.Machine
import RedGrapes.Memory.BumpAllocator

namespace RedGrapes.Memory

open Function Machine

/-! ### Chunks in a list -/

/-- `ItemControlBlock` of the chunk in the region at `base`. -/
structure Chunk where
  base : Nat
  deleted : Bool
  item : BumpAllocator

/-- The allocator.  Chunks from `fresh` on do not exist yet. -/
structure ChunkedBumpAlloc where
  chunk : Nat → Chunk
  linked : List Nat
  fresh : Nat

namespace ChunkedBumpAlloc

/-- The constructor: there is no chunk. -/
def init : ChunkedBumpAlloc := ⟨fun _ => ⟨0, false, ⟨0, 0, 0, 0⟩⟩, [], 0⟩

/-- `AtomicList::allocate_item`: a new chunk in the region at `base` becomes the
head. -/
def allocateItem (L : Layout) (s : ChunkedBumpAlloc) (base : Nat) : ChunkedBumpAlloc where
  chunk := update s.chunk s.fresh ⟨base, false, .init (L.usable base)⟩
  linked := s.fresh :: s.linked
  fresh := s.fresh + 1

/-- Put the bump allocator of chunk `k` back. -/
def setItem (s : ChunkedBumpAlloc) (k : Nat) (b : BumpAllocator) : ChunkedBumpAlloc :=
  { s with chunk := update s.chunk k { s.chunk k with item := b } }

/-- One round of the loop of `allocate`: the block from the head, with the number
of its chunk, unless there is no head or it refuses. -/
def attempt (s : ChunkedBumpAlloc) (size : Nat) : Option (Nat × Block) × ChunkedBumpAlloc :=
  match s.linked with
  | [] => (none, s)
  | k :: _ =>
      let r := (s.chunk k).item.allocate size
      (if r.1.isSome then some (k, r.1) else none, s.setItem k r.2)

/-- The loop.  `bases` are the regions the backing allocator returns; a round
without a block uses up one of them. -/
def allocateLoop (L : Layout) (size : Nat) :
    List Nat → ChunkedBumpAlloc → Option (Nat × Block × ChunkedBumpAlloc)
  | [], s => match s.attempt size with
    | (some (k, blk), s) => some (k, blk, s)
    | (none, _) => none
  | base :: bases, s => match s.attempt size with
    | (some (k, blk), s) => some (k, blk, s)
    | (none, s) => allocateLoop L size bases (s.allocateItem L base)

/-- `allocate`.  An oversized request has no result here; the source returns the
null block. -/
def allocate (L : Layout) (s : ChunkedBumpAlloc) (n : Nat) (bases : List Nat) :
    Option (Nat × Block × ChunkedBumpAlloc) :=
  if roundupToPoweroftwo n ≤ Layout.chunkSize then
    allocateLoop L (roundupToPoweroftwo n) bases s
  else none

/-- `skip_deleted_prev`, on the chunks behind the one it is called on. -/
def skipDeleted (s : ChunkedBumpAlloc) (rest : List Nat) : List Nat :=
  rest.dropWhile fun k => (s.chunk k).deleted

/-- `deallocate` empties chunk `k` and finds it full. -/
def erases (s : ChunkedBumpAlloc) (k : Nat) : Bool :=
  decide ((s.chunk k).item.deallocate.1 = 1) && (s.chunk k).item.deallocate.2.full

/-- The loop of `deallocate` behind the chunk `prev`: the chunks that stay
linked behind it, and the chunk that owns the block.  A step of the iterator
skips deleted chunks, and `prev.optimize()` unlinks the erased chunk. -/
def walk (s : ChunkedBumpAlloc) (blk : Block) : List Nat → List Nat × Option Nat
  | [] => ([], none)
  | k :: rest =>
      if (s.chunk k).deleted then s.walk blk rest
      else if (s.chunk k).item.owns blk then
        (if s.erases k then s.skipDeleted rest else k :: rest, some k)
      else (k :: (s.walk blk rest).1, (s.walk blk rest).2)

/-- The whole loop.  `prev` starts at the head, which is looked at even if it is
deleted and is never unlinked. -/
def search (s : ChunkedBumpAlloc) (blk : Block) : List Nat × Option Nat :=
  match s.linked with
  | [] => ([], none)
  | k :: rest =>
      if (s.chunk k).item.owns blk then
        (k :: if s.erases k then s.skipDeleted rest else rest, some k)
      else (k :: (s.walk blk rest).1, (s.walk blk rest).2)

/-- The chunk after one of its blocks was given back. -/
def release (s : ChunkedBumpAlloc) (k : Nat) : Chunk :=
  { s.chunk k with
    item := (s.chunk k).item.deallocate.2
    deleted := (s.chunk k).deleted || s.erases k }

/-- `deallocate`. -/
def deallocate (s : ChunkedBumpAlloc) (blk : Block) : ChunkedBumpAlloc :=
  match (s.search blk).2 with
  | none => { s with linked := (s.search blk).1 }
  | some k => { s with chunk := update s.chunk k (s.release k), linked := (s.search blk).1 }

end ChunkedBumpAlloc

/-! ### Runs -/

/-- A block that was allocated and not given back, the chunk it was taken from
and the size it was requested with. -/
structure Live where
  owner : Nat
  blk : Block
  requested : Nat
deriving DecidableEq

structure Heap where
  alloc : ChunkedBumpAlloc
  live : List Live

/-- Calls of `allocate`, with the region the backing allocator has next, and of
`deallocate` for one of the live blocks. -/
inductive HeapOp
  | allocate (n base : Nat)
  | deallocate (i : Nat)

namespace Heap

def init : Heap := ⟨.init, []⟩

def step (L : Layout) (h : Heap) : HeapOp → Option Heap
  | .allocate n base =>
      (h.alloc.allocate L n [base]).map fun r => ⟨r.2.2, ⟨r.1, r.2.1, n⟩ :: h.live⟩
  | .deallocate i =>
      (h.live[i]?).map fun x => ⟨h.alloc.deallocate x.blk, h.live.eraseIdx i⟩

/-- What is assumed of the calls and of the backing allocator. -/
def Legal (L : Layout) (h : Heap) : HeapOp → Prop
  | .allocate n base => 1 ≤ n ∧ n ≤ 32768 ∧ 65536 ≤ base ∧ base + L.chunkAllocsize ≤ addrSize ∧
      ∀ k ∈ h.alloc.linked,
        Block.Disjoint ⟨base, L.chunkAllocsize⟩ ⟨(h.alloc.chunk k).base, L.chunkAllocsize⟩
  | .deallocate _ => True

instance (L : Layout) (h : Heap) : ∀ op, Decidable (Legal L h op)
  | .allocate _ _ => inferInstanceAs (Decidable (_ ∧ _ ∧ _ ∧ _ ∧ ∀ k ∈ h.alloc.linked, _))
  | .deallocate _ => inferInstanceAs (Decidable True)

/-! ### The invariant -/

/-- The live blocks of chunk `k`. -/
def blocksIn (h : Heap) (k : Nat) : List Live := h.live.filter fun x => x.owner == k

/-- What holds between the rounds of `allocate` as well.  `room` says that the
live blocks of a chunk fit above `next_addr`; with it a counter cannot wrap. -/
structure Base (L : Layout) (h : Heap) : Prop where
  nodup : h.alloc.linked.Nodup
  created : ∀ k ∈ h.alloc.linked, k < h.alloc.fresh
  unlinked : ∀ k < h.alloc.fresh, k ∉ h.alloc.linked → (h.alloc.chunk k).deleted = true
  limits : ∀ k < h.alloc.fresh,
    (h.alloc.chunk k).item.lowerLimit = (L.usable (h.alloc.chunk k).base).ptr ∧
    (h.alloc.chunk k).item.upperLimit =
      (L.usable (h.alloc.chunk k).base).ptr + (L.usable (h.alloc.chunk k).base).len
  placed : ∀ k < h.alloc.fresh, 65536 ≤ (h.alloc.chunk k).base ∧
    (h.alloc.chunk k).base + L.chunkAllocsize ≤ addrSize
  apart : ∀ k ∈ h.alloc.linked, ∀ k' ∈ h.alloc.linked, k ≠ k' →
    Block.Disjoint ⟨(h.alloc.chunk k).base, L.chunkAllocsize⟩
      ⟨(h.alloc.chunk k').base, L.chunkAllocsize⟩
  next_le : ∀ k < h.alloc.fresh,
    (h.alloc.chunk k).item.nextAddr ≤ (h.alloc.chunk k).item.upperLimit
  flagged : ∀ k < h.alloc.fresh, (h.alloc.chunk k).deleted = true →
    (h.alloc.chunk k).item.nextAddr ≤ (h.alloc.chunk k).item.lowerLimit
  owner : ∀ x ∈ h.live, x.owner ∈ h.alloc.linked ∧ (h.alloc.chunk x.owner).deleted = false
  inside : ∀ x ∈ h.live, (h.alloc.chunk x.owner).item.lowerLimit ≤ x.blk.ptr ∧
    (h.alloc.chunk x.owner).item.nextAddr ≤ x.blk.ptr ∧
    x.blk.ptr + x.blk.len ≤ (h.alloc.chunk x.owner).item.upperLimit
  length : ∀ x ∈ h.live, 1 ≤ x.blk.len ∧ x.requested ≤ x.blk.len
  disjoint : h.live.Pairwise fun x y => Block.Disjoint x.blk y.blk
  count : ∀ k < h.alloc.fresh, (h.alloc.chunk k).item.count = (h.blocksIn k).length
  room : ∀ k < h.alloc.fresh, ((h.blocksIn k).map fun x => x.blk.len).sum +
    max (h.alloc.chunk k).item.nextAddr (h.alloc.chunk k).item.lowerLimit ≤
      (h.alloc.chunk k).item.upperLimit

/-- Between the calls the head has not refused a request. -/
structure Inv (L : Layout) (h : Heap) : Prop extends Base L h where
  head : ∀ k, h.alloc.linked.head? = some k →
    (h.alloc.chunk k).item.lowerLimit ≤ (h.alloc.chunk k).item.nextAddr

section Invariant

variable {L : Layout} {h h' : Heap} {k n base size : Nat}

/-- The usable part of a region, in numbers. -/
theorem usable_bounds (hL : L.Small) (base : Nat) :
    base ≤ (L.usable base).ptr ∧ (L.usable base).ptr + (L.usable base).len = base + 65536 ∧
      32768 < (L.usable base).len ∧ (L.usable base).len ≤ 65024 := by
  unfold Layout.Small Layout.controlblockSize at hL
  simp only [Layout.usable, Layout.chunkSize, Layout.controlblockSize]
  omega

theorem length_le_sum {l : List Live} (hl : ∀ x ∈ l, 1 ≤ x.blk.len) :
    l.length ≤ (l.map fun x => x.blk.len).sum := by
  induction l with
  | nil => exact le_rfl
  | cons x l ih =>
      have hx := hl x (by simp)
      have hrest := ih fun y hy => hl y (by simp [hy])
      simp only [List.length_cons, List.map_cons, List.sum_cons]
      omega

theorem mem_blocksIn {x : Live} : x ∈ h.blocksIn k ↔ x ∈ h.live ∧ x.owner = k := by
  simp [blocksIn]

/-- The counter of a chunk is far from wrapping. -/
theorem Base.count_lt (hb : Base L h) (hL : L.Small) (hk : k < h.alloc.fresh) :
    (h.blocksIn k).length + max (h.alloc.chunk k).item.nextAddr
      (h.alloc.chunk k).item.lowerLimit ≤ (h.alloc.chunk k).item.upperLimit ∧
    (h.blocksIn k).length + 1 < countSize := by
  have hsum := length_le_sum fun x (hx : x ∈ h.blocksIn k) => (hb.length x (mem_blocksIn.mp hx).1).1
  have hroom := hb.room k hk
  obtain ⟨hlow, hup⟩ := hb.limits k hk
  obtain ⟨-, hu, -, hlt⟩ := usable_bounds hL (h.alloc.chunk k).base
  have hmax : (h.alloc.chunk k).item.lowerLimit ≤ max (h.alloc.chunk k).item.nextAddr
    (h.alloc.chunk k).item.lowerLimit := le_max_right _ _
  refine ⟨by omega, ?_⟩
  show (h.blocksIn k).length + 1 < 65536
  omega

/-- Two linked chunks that own the same address are the same chunk. -/
theorem Base.owner_unique (hb : Base L h) (hL : L.Small) {k' a : Nat}
    (hk : k ∈ h.alloc.linked) (hk' : k' ∈ h.alloc.linked)
    (ha : (h.alloc.chunk k).item.lowerLimit ≤ a ∧ a < (h.alloc.chunk k).item.upperLimit)
    (ha' : (h.alloc.chunk k').item.lowerLimit ≤ a ∧ a < (h.alloc.chunk k').item.upperLimit) :
    k = k' := by
  by_contra hne
  have hd := hb.apart k hk k' hk' hne
  obtain ⟨hlow, hup⟩ := hb.limits k (hb.created k hk)
  obtain ⟨hlow', hup'⟩ := hb.limits k' (hb.created k' hk')
  obtain ⟨hge, hend, -, -⟩ := usable_bounds hL (h.alloc.chunk k).base
  obtain ⟨hge', hend', -, -⟩ := usable_bounds hL (h.alloc.chunk k').base
  have hsize : 65536 ≤ L.chunkAllocsize := Nat.le_add_right _ _
  simp only [Block.Disjoint] at hd
  omega

/-! ### Allocation -/

theorem inv_init : Inv L init where
  nodup := List.nodup_nil
  created _ hk := by cases hk
  unlinked _ hk := by cases hk
  limits _ hk := by cases hk
  placed _ hk := by cases hk
  apart _ hk := by cases hk
  next_le _ hk := by cases hk
  flagged _ hk := by cases hk
  owner _ hx := by cases hx
  inside _ hx := by cases hx
  length _ hx := by cases hx
  disjoint := List.Pairwise.nil
  count _ hk := by cases hk
  room _ hk := by cases hk
  head _ hk := by cases hk

/-- The heap with another bump allocator in chunk `k`. -/
def withItem (h : Heap) (k : Nat) (b : BumpAllocator) (live : List Live) : Heap :=
  ⟨h.alloc.setItem k b, live⟩

theorem setItem_chunk {s : ChunkedBumpAlloc} {b : BumpAllocator} {j : Nat} :
    (s.setItem k b).chunk j = if j = k then { s.chunk k with item := b } else s.chunk j := by
  show update s.chunk k _ j = _
  split
  · rename_i e
    rw [e, update_self]
  · rename_i hne
    rw [update_of_ne hne]

/-- A refused request only takes `next_addr` down. -/
theorem Base.refuse (hb : Base L h) {b : BumpAllocator}
    (hnext : b.nextAddr ≤ (h.alloc.chunk k).item.nextAddr)
    (hcount : b.count = (h.alloc.chunk k).item.count)
    (hlow : b.lowerLimit = (h.alloc.chunk k).item.lowerLimit)
    (hup : b.upperLimit = (h.alloc.chunk k).item.upperLimit) :
    Base L (h.withItem k b h.live) := by
  have hchunk : ∀ j, ((h.withItem k b h.live).alloc.chunk j).base = (h.alloc.chunk j).base ∧
      ((h.withItem k b h.live).alloc.chunk j).deleted = (h.alloc.chunk j).deleted ∧
      ((h.withItem k b h.live).alloc.chunk j).item.lowerLimit =
        (h.alloc.chunk j).item.lowerLimit ∧
      ((h.withItem k b h.live).alloc.chunk j).item.upperLimit =
        (h.alloc.chunk j).item.upperLimit ∧
      ((h.withItem k b h.live).alloc.chunk j).item.count = (h.alloc.chunk j).item.count ∧
      ((h.withItem k b h.live).alloc.chunk j).item.nextAddr ≤ (h.alloc.chunk j).item.nextAddr := by
    intro j
    simp only [withItem, setItem_chunk]
    split
    · rename_i e
      subst e
      exact ⟨rfl, rfl, hlow, hup, hcount, hnext⟩
    · exact ⟨rfl, rfl, rfl, rfl, rfl, le_rfl⟩
  exact {
    nodup := hb.nodup
    created := hb.created
    unlinked := by
      intro j hj hnot
      rw [(hchunk j).2.1]
      exact hb.unlinked j hj hnot
    limits := by
      intro j hj
      rw [(hchunk j).1, (hchunk j).2.2.1, (hchunk j).2.2.2.1]
      exact hb.limits j hj
    placed := by
      intro j hj
      rw [(hchunk j).1]
      exact hb.placed j hj
    apart := by
      intro i hi j hj hne
      rw [(hchunk i).1, (hchunk j).1]
      exact hb.apart i hi j hj hne
    next_le := by
      intro j hj
      rw [(hchunk j).2.2.2.1]
      exact (hchunk j).2.2.2.2.2.trans (hb.next_le j hj)
    flagged := by
      intro j hj hdel
      rw [(hchunk j).2.1] at hdel
      rw [(hchunk j).2.2.1]
      exact (hchunk j).2.2.2.2.2.trans (hb.flagged j hj hdel)
    owner := by
      intro x hx
      rw [(hchunk x.owner).2.1]
      exact hb.owner x hx
    inside := by
      intro x hx
      obtain ⟨h1, h2, h3⟩ := hb.inside x hx
      rw [(hchunk x.owner).2.2.1, (hchunk x.owner).2.2.2.1]
      exact ⟨h1, (hchunk x.owner).2.2.2.2.2.trans h2, h3⟩
    length := hb.length
    disjoint := hb.disjoint
    count := by
      intro j hj
      rw [(hchunk j).2.2.2.2.1]
      exact hb.count j hj
    room := by
      intro j hj
      rw [(hchunk j).2.2.1, (hchunk j).2.2.2.1]
      have hroom := hb.room j hj
      have hle := max_le_max_right (h.alloc.chunk j).item.lowerLimit (hchunk j).2.2.2.2.2
      have hblocks : (h.withItem k b h.live).blocksIn j = h.blocksIn j := rfl
      rw [hblocks]
      omega }

/-- A fresh chunk becomes the head. -/
theorem Base.allocateItem (hb : Base L h) (hbase : 65536 ≤ base)
    (hend : base + L.chunkAllocsize ≤ addrSize)
    (hfresh : ∀ k ∈ h.alloc.linked,
      Block.Disjoint ⟨base, L.chunkAllocsize⟩ ⟨(h.alloc.chunk k).base, L.chunkAllocsize⟩) :
    Inv L ⟨h.alloc.allocateItem L base, h.live⟩ := by
  have hnew : (h.alloc.allocateItem L base).chunk h.alloc.fresh =
      ⟨base, false, .init (L.usable base)⟩ := update_self _ _ _
  have hold : ∀ j, j ≠ h.alloc.fresh →
      (h.alloc.allocateItem L base).chunk j = h.alloc.chunk j := fun j hj => update_of_ne hj _ _
  have hlinked : ∀ j ∈ h.alloc.linked, j ≠ h.alloc.fresh := fun j hj =>
    Nat.ne_of_lt (hb.created j hj)
  have hempty : Heap.blocksIn ⟨h.alloc.allocateItem L base, h.live⟩ h.alloc.fresh = [] := by
    refine List.filter_eq_nil_iff.mpr fun x hx => ?_
    simpa using hlinked _ (hb.owner x hx).1
  have hcases : ∀ j < h.alloc.fresh + 1, j = h.alloc.fresh ∨ j < h.alloc.fresh ∧ j ≠ h.alloc.fresh := by
    intro j hj
    omega
  exact {
    nodup := List.nodup_cons.mpr ⟨fun hmem => hlinked _ hmem rfl, hb.nodup⟩
    created := by
      intro j hj
      rcases List.mem_cons.mp hj with rfl | hj
      · exact Nat.lt_succ_self _
      · exact Nat.lt_succ_of_lt (hb.created j hj)
    unlinked := by
      intro j hj hnot
      rcases hcases j hj with rfl | ⟨hlt, hne⟩
      · exact absurd List.mem_cons_self hnot
      · show ((h.alloc.allocateItem L base).chunk j).deleted = true
        rw [hold j hne]
        exact hb.unlinked j hlt fun hmem => hnot (List.mem_cons_of_mem _ hmem)
    limits := by
      intro j hj
      rcases hcases j hj with rfl | ⟨hlt, hne⟩
      · simp only [hnew]
        exact ⟨rfl, rfl⟩
      · simp only [hold j hne]
        exact hb.limits j hlt
    placed := by
      intro j hj
      rcases hcases j hj with rfl | ⟨hlt, hne⟩
      · simp only [hnew]
        exact ⟨hbase, hend⟩
      · simp only [hold j hne]
        exact hb.placed j hlt
    apart := by
      intro i hi j hj hne
      rcases List.mem_cons.mp hi with rfl | hi
      · rcases List.mem_cons.mp hj with rfl | hj
        · exact absurd rfl hne
        · simp only [hnew, hold j (hlinked j hj)]
          exact hfresh j hj
      · rcases List.mem_cons.mp hj with rfl | hj
        · simp only [hnew, hold i (hlinked i hi)]
          exact (hfresh i hi).symm
        · simp only [hold i (hlinked i hi), hold j (hlinked j hj)]
          exact hb.apart i hi j hj hne
    next_le := by
      intro j hj
      rcases hcases j hj with rfl | ⟨hlt, hne⟩
      · simp only [hnew]
        exact le_rfl
      · simp only [hold j hne]
        exact hb.next_le j hlt
    flagged := by
      intro j hj
      rcases hcases j hj with rfl | ⟨hlt, hne⟩
      · simp [hnew]
      · simp only [hold j hne]
        exact hb.flagged j hlt
    owner := by
      intro x hx
      have hx' := hb.owner x hx
      simp only [hold _ (hlinked _ hx'.1)]
      exact ⟨List.mem_cons_of_mem _ hx'.1, hx'.2⟩
    inside := by
      intro x hx
      simp only [hold _ (hlinked _ (hb.owner x hx).1)]
      exact hb.inside x hx
    length := hb.length
    disjoint := hb.disjoint
    count := by
      intro j hj
      rcases hcases j hj with rfl | ⟨hlt, hne⟩
      · simp only [hnew, hempty]
        rfl
      · simp only [hold j hne]
        exact hb.count j hlt
    room := by
      intro j hj
      rcases hcases j hj with rfl | ⟨hlt, hne⟩
      · simp only [hnew, hempty, BumpAllocator.init, List.map_nil, List.sum_nil]
        omega
      · simp only [hold j hne]
        exact hb.room j hlt
    head := by
      intro j hj
      obtain rfl : h.alloc.fresh = j := by simpa [ChunkedBumpAlloc.allocateItem] using hj
      simp only [hnew]
      exact Nat.le_add_right _ _ }

/-- The head has room for the block. -/
theorem Inv.take (hi : Inv L h) (hL : L.Small) {rest : List Nat}
    (hk : h.alloc.linked = k :: rest) (hpos : 1 ≤ size) (hn : n ≤ size) {b : BumpAllocator}
    (hfit : (h.alloc.chunk k).item.lowerLimit + size ≤ (h.alloc.chunk k).item.nextAddr)
    (hnext : b.nextAddr = (h.alloc.chunk k).item.nextAddr - size)
    (hcount : b.count = (h.alloc.chunk k).item.count + 1)
    (hlow : b.lowerLimit = (h.alloc.chunk k).item.lowerLimit)
    (hup : b.upperLimit = (h.alloc.chunk k).item.upperLimit) :
    Inv L (h.withItem k b (⟨k, ⟨b.nextAddr, size⟩, n⟩ :: h.live)) := by
  have hmem : k ∈ h.alloc.linked := hk ▸ List.mem_cons_self
  have hlt := hi.created k hmem
  have halive : (h.alloc.chunk k).deleted = false := by
    by_contra hne
    have := hi.flagged k hlt (by simpa using hne)
    omega
  have hchunk : ∀ j, (h.withItem k b (⟨k, ⟨b.nextAddr, size⟩, n⟩ :: h.live)).alloc.chunk j =
      if j = k then { h.alloc.chunk k with item := b } else h.alloc.chunk j := fun j => setItem_chunk
  have hsame : ∀ j, j ≠ k → (h.withItem k b (⟨k, ⟨b.nextAddr, size⟩, n⟩ :: h.live)).alloc.chunk j =
      h.alloc.chunk j := fun j hj => by rw [hchunk, if_neg hj]
  have hself : (h.withItem k b (⟨k, ⟨b.nextAddr, size⟩, n⟩ :: h.live)).alloc.chunk k =
      { h.alloc.chunk k with item := b } := by rw [hchunk, if_pos rfl]
  have hbase : ∀ j, ((h.withItem k b (⟨k, ⟨b.nextAddr, size⟩, n⟩ :: h.live)).alloc.chunk j).base =
      (h.alloc.chunk j).base := by
    intro j
    rcases eq_or_ne j k with rfl | hne
    · rw [hself]
    · rw [hsame j hne]
  have hblocks : (h.withItem k b (⟨k, ⟨b.nextAddr, size⟩, n⟩ :: h.live)).blocksIn k =
      ⟨k, ⟨b.nextAddr, size⟩, n⟩ :: h.blocksIn k := by
    simp [blocksIn, withItem]
  have hblocks' : ∀ j, j ≠ k →
      (h.withItem k b (⟨k, ⟨b.nextAddr, size⟩, n⟩ :: h.live)).blocksIn j = h.blocksIn j := by
    intro j hj
    simp [blocksIn, withItem, hj.symm]
  have hnle := hi.next_le k hlt
  exact {
    nodup := hi.nodup
    created := hi.created
    unlinked := by
      intro j hj hnot
      rw [hsame j fun e => hnot (e ▸ hmem)]
      exact hi.unlinked j hj hnot
    limits := by
      intro j hj
      rw [hbase]
      rcases eq_or_ne j k with rfl | hne
      · rw [hself]
        simp only [hlow, hup]
        exact hi.limits j hj
      · rw [hsame j hne]
        exact hi.limits j hj
    placed := by
      intro j hj
      rw [hbase]
      exact hi.placed j hj
    apart := by
      intro i hi' j hj hne
      rw [hbase, hbase]
      exact hi.apart i hi' j hj hne
    next_le := by
      intro j hj
      rcases eq_or_ne j k with rfl | hne
      · rw [hself]
        simp only [hup]
        omega
      · rw [hsame j hne]
        exact hi.next_le j hj
    flagged := by
      intro j hj hdel
      rcases eq_or_ne j k with rfl | hne
      · rw [hself] at hdel
        simp [halive] at hdel
      · rw [hsame j hne] at hdel ⊢
        exact hi.flagged j hj hdel
    owner := by
      intro x hx
      rcases List.mem_cons.mp hx with rfl | hx
      · refine ⟨hmem, ?_⟩
        rw [hself]
        exact halive
      · refine ⟨(hi.owner x hx).1, ?_⟩
        rcases eq_or_ne x.owner k with e | hne
        · rw [e, hself]
          exact halive
        · rw [hsame _ hne]
          exact (hi.owner x hx).2
    inside := by
      intro x hx
      rcases List.mem_cons.mp hx with rfl | hx
      · rw [hself]
        simp only [hlow, hup]
        omega
      · have hin := hi.inside x hx
        rcases eq_or_ne x.owner k with e | hne
        · rw [e] at hin ⊢
          rw [hself]
          simp only [hlow, hup]
          omega
        · rw [hsame _ hne]
          exact hin
    length := by
      intro x hx
      rcases List.mem_cons.mp hx with rfl | hx
      · exact ⟨hpos, hn⟩
      · exact hi.length x hx
    disjoint := by
      refine List.pairwise_cons.mpr ⟨fun x hx => ?_, hi.disjoint⟩
      have hin := hi.inside x hx
      have hlen := (hi.length x hx).1
      rcases eq_or_ne x.owner k with e | hne
      · -- the blocks of the same chunk lie above `next_addr`
        rw [e] at hin
        left
        show b.nextAddr + size ≤ x.blk.ptr
        omega
      · -- blocks that meet would lie in one chunk
        by_contra hover
        simp only [Block.Disjoint, not_or, not_le] at hover
        have hmeet : ∃ a, (h.alloc.chunk x.owner).item.lowerLimit ≤ a ∧
            a < (h.alloc.chunk x.owner).item.upperLimit ∧
            (h.alloc.chunk k).item.lowerLimit ≤ a ∧ a < (h.alloc.chunk k).item.upperLimit := by
          refine ⟨max x.blk.ptr b.nextAddr, ?_⟩
          omega
        obtain ⟨a, h1, h2, h3, h4⟩ := hmeet
        exact hne (hi.owner_unique hL (hi.owner x hx).1 hmem ⟨h1, h2⟩ ⟨h3, h4⟩)
    count := by
      intro j hj
      rcases eq_or_ne j k with rfl | hne
      · rw [hself, hblocks]
        simp only [hcount, List.length_cons]
        rw [hi.count j hj]
      · rw [hsame j hne, hblocks' j hne]
        exact hi.count j hj
    room := by
      intro j hj
      have hroom := hi.room j hj
      rcases eq_or_ne j k with rfl | hne
      · rw [hself, hblocks]
        simp only [hlow, hup, List.map_cons, List.sum_cons]
        omega
      · rw [hsame j hne, hblocks' j hne]
        exact hroom
    head := by
      intro j hj
      obtain rfl : k = j := by
        have hj' : h.alloc.linked.head? = some j := hj
        rw [hk] at hj'
        exact Option.some.inj hj'
      rw [hself]
      simp only [hlow]
      omega }

/-- The address of a bump on the head does not wrap. -/
theorem Inv.fetchSub_head (hi : Inv L h) (hL : L.Small) {rest : List Nat}
    (hk : h.alloc.linked = k :: rest) (hsize : size ≤ 32768) :
    65536 ≤ (h.alloc.chunk k).item.lowerLimit ∧
      ((h.alloc.chunk k).item.fetchSub size).nextAddr = (h.alloc.chunk k).item.nextAddr - size := by
  have hlt := hi.created k (hk ▸ List.mem_cons_self)
  have hhead := hi.head k (by rw [hk]; rfl)
  obtain ⟨hlow, hup⟩ := hi.limits k hlt
  obtain ⟨hge, hend, -, -⟩ := usable_bounds hL (h.alloc.chunk k).base
  have hplace := hi.placed k hlt
  have hnext := hi.next_le k hlt
  have hsz : 65536 + 512 ≤ L.chunkAllocsize := by
    simp only [Layout.chunkAllocsize, Layout.chunkSize, Layout.controlblockSize]
    omega
  exact ⟨by omega, BumpAllocator.fetchSub_nextAddr (by omega) (by omega)⟩

/-- A round of the loop in which the head has room. -/
theorem Inv.attempt_fit (hi : Inv L h) (hL : L.Small) {rest : List Nat}
    (hk : h.alloc.linked = k :: rest) (hpos : 1 ≤ size) (hsize : size ≤ 32768) (hn : n ≤ size)
    (hfit : (h.alloc.chunk k).item.lowerLimit + size ≤ (h.alloc.chunk k).item.nextAddr) :
    ∃ blk s, h.alloc.attempt size = (some (k, blk), s) ∧ Inv L ⟨s, ⟨k, blk, n⟩ :: h.live⟩ := by
  obtain ⟨hbig, hnext⟩ := hi.fetchSub_head hL hk hsize
  have hlt := hi.created k (hk ▸ List.mem_cons_self)
  have halloc : (h.alloc.chunk k).item.allocate size =
      (⟨((h.alloc.chunk k).item.fetchSub size).nextAddr, size⟩,
        ((h.alloc.chunk k).item.fetchSub size).countUp) := by
    unfold BumpAllocator.allocate
    rw [if_pos (by rw [hnext]; omega)]
  have hsome : Block.isSome ⟨((h.alloc.chunk k).item.fetchSub size).nextAddr, size⟩ = true := by
    simp only [Block.isSome, hnext]
    exact decide_eq_true (by omega)
  refine ⟨⟨((h.alloc.chunk k).item.fetchSub size).nextAddr, size⟩,
    h.alloc.setItem k ((h.alloc.chunk k).item.fetchSub size).countUp, ?_, ?_⟩
  · simp only [ChunkedBumpAlloc.attempt, hk, halloc, hsome, if_true]
  · have hcount := (hi.count_lt hL hlt).2
    rw [← hi.count k hlt] at hcount
    have hinv := hi.take hL hk hpos hn (b := ((h.alloc.chunk k).item.fetchSub size).countUp) hfit
      (by rw [BumpAllocator.countUp_nextAddr, hnext])
      (by rw [BumpAllocator.countUp_count (by rwa [BumpAllocator.fetchSub_count]),
        BumpAllocator.fetchSub_count])
      (by simp) (by simp)
    rwa [BumpAllocator.countUp_nextAddr] at hinv

/-- A round in which the head refuses. -/
theorem Inv.attempt_refuse (hi : Inv L h) (hL : L.Small) {rest : List Nat}
    (hk : h.alloc.linked = k :: rest) (hsize : size ≤ 32768)
    (hfit : ¬ (h.alloc.chunk k).item.lowerLimit + size ≤ (h.alloc.chunk k).item.nextAddr) :
    ∃ b, h.alloc.attempt size = (none, h.alloc.setItem k b) ∧ Base L (h.withItem k b h.live) := by
  obtain ⟨hbig, hnext⟩ := hi.fetchSub_head hL hk hsize
  have hhead := hi.head k (by rw [hk]; rfl)
  have halloc : (h.alloc.chunk k).item.allocate size =
      (.null, (h.alloc.chunk k).item.fetchSub size) := by
    unfold BumpAllocator.allocate
    rw [if_neg (by rw [hnext]; omega)]
  refine ⟨(h.alloc.chunk k).item.fetchSub size, ?_,
    hi.toBase.refuse ?_ (by simp) (by simp) (by simp)⟩
  · simp only [ChunkedBumpAlloc.attempt, hk, halloc]
    rfl
  · rw [hnext]
    exact Nat.sub_le _ _

/-- A fresh head has room for every request. -/
theorem Inv.attempt_fresh (hL : L.Small) {s : ChunkedBumpAlloc}
    (hi : Inv L ⟨s.allocateItem L base, h.live⟩) (hpos : 1 ≤ size) (hsize : size ≤ 32768)
    (hn : n ≤ size) :
    ∃ blk s', (s.allocateItem L base).attempt size = (some (s.fresh, blk), s') ∧
      Inv L ⟨s', ⟨s.fresh, blk, n⟩ :: h.live⟩ := by
  refine hi.attempt_fit hL rfl hpos hsize hn ?_
  have hnew : (s.allocateItem L base).chunk s.fresh = ⟨base, false, .init (L.usable base)⟩ :=
    update_self _ _ _
  show ((s.allocateItem L base).chunk s.fresh).item.lowerLimit + size ≤
    ((s.allocateItem L base).chunk s.fresh).item.nextAddr
  rw [hnew]
  have := (usable_bounds hL base).2.2.1
  simp only [BumpAllocator.init]
  omega

/-- `allocate` returns a block, after at most one new chunk. -/
theorem Inv.allocate (hi : Inv L h) (hL : L.Small) (hok : Legal L h (.allocate n base)) :
    ∃ h', step L h (.allocate n base) = some h' ∧ Inv L h' := by
  obtain ⟨hn, hn', hbase, hend, hfresh⟩ := hok
  obtain ⟨hle, hsize⟩ := roundupToPoweroftwo_bounds hn hn'
  have hpos : 1 ≤ roundupToPoweroftwo n := hn.trans hle
  have hcap : roundupToPoweroftwo n ≤ Layout.chunkSize := hsize.trans (by decide)
  simp only [step, ChunkedBumpAlloc.allocate, if_pos hcap, ChunkedBumpAlloc.allocateLoop]
  rcases hk : h.alloc.linked with _ | ⟨k, rest⟩
  · have hnone : h.alloc.attempt (roundupToPoweroftwo n) = (none, h.alloc) := by
      simp only [ChunkedBumpAlloc.attempt, hk]
    have hi' := hi.toBase.allocateItem hbase hend hfresh
    obtain ⟨blk, s, hs, hinv⟩ := hi'.attempt_fresh hL hpos hsize hle
    simp only [hnone, hs, Option.map_some]
    exact ⟨_, rfl, hinv⟩
  · by_cases hfit : (h.alloc.chunk k).item.lowerLimit + roundupToPoweroftwo n ≤
        (h.alloc.chunk k).item.nextAddr
    · obtain ⟨blk, s, hs, hinv⟩ := hi.attempt_fit hL hk hpos hsize hle hfit
      simp only [hs, Option.map_some]
      exact ⟨_, rfl, hinv⟩
    · obtain ⟨b, hb, hbaseInv⟩ := hi.attempt_refuse hL hk hsize hfit
      have hi' : Inv L ⟨(h.alloc.setItem k b).allocateItem L base, h.live⟩ := by
        refine hbaseInv.allocateItem hbase hend fun j hj => ?_
        have hj' := hfresh j hj
        have hsame : ((h.withItem k b h.live).alloc.chunk j).base = (h.alloc.chunk j).base := by
          simp only [withItem, setItem_chunk]
          split
          · rename_i e
            rw [e]
          · rfl
        rw [hsame]
        exact hj'
      obtain ⟨blk, s, hs, hinv⟩ := Inv.attempt_fresh hL hi' hpos hsize hle
      simp only [hb, hs, Option.map_some]
      exact ⟨_, rfl, hinv⟩

/-! ### Deallocation -/

section Search

variable {s : ChunkedBumpAlloc} {blk : Block} {l : List Nat} {j : Nat}

/-- The walk finds the one chunk that owns the address. -/
theorem walk_found (hk : k ∈ l) (halive : (s.chunk k).deleted = false)
    (howns : (s.chunk k).item.owns blk = true)
    (honly : ∀ j ∈ l, (s.chunk j).item.owns blk = true → j = k) : (s.walk blk l).2 = some k := by
  induction l with
  | nil => cases hk
  | cons a l ih =>
      have hrest : k ≠ a → (s.walk blk l).2 = some k := by
        intro hne
        exact ih ((List.mem_cons.mp hk).resolve_left hne)
          fun j hj hj' => honly j (List.mem_cons_of_mem _ hj) hj'
      rcases eq_or_ne k a with rfl | hne
      · simp [ChunkedBumpAlloc.walk, halive, howns]
      · have hnot : (s.chunk a).item.owns blk = false := by
          by_contra h
          exact hne (honly a List.mem_cons_self (by simpa using h)).symm
        rcases hdel : (s.chunk a).deleted with _ | _
        · simpa [ChunkedBumpAlloc.walk, hdel, hnot] using hrest hne
        · simpa [ChunkedBumpAlloc.walk, hdel] using hrest hne

theorem skipDeleted_sublist : (s.skipDeleted l).Sublist l := List.dropWhile_sublist _

theorem walk_sublist : (s.walk blk l).1.Sublist l := by
  induction l with
  | nil => exact List.Sublist.refl _
  | cons a l ih =>
      simp only [ChunkedBumpAlloc.walk]
      split
      · exact ih.cons a
      · split
        · split
          · exact skipDeleted_sublist.cons a
          · exact List.Sublist.refl _
        · exact ih.cons_cons a

theorem mem_skipDeleted (hj : j ∈ l) (halive : (s.chunk j).deleted = false) :
    j ∈ s.skipDeleted l := by
  induction l with
  | nil => cases hj
  | cons a l ih =>
      rcases List.mem_cons.mp hj with rfl | hj
      · simp [ChunkedBumpAlloc.skipDeleted, halive]
      · rcases hdel : (s.chunk a).deleted with _ | _
        · simp [ChunkedBumpAlloc.skipDeleted, hdel, hj]
        · have hskip : s.skipDeleted (a :: l) = s.skipDeleted l := by
            simp [ChunkedBumpAlloc.skipDeleted, hdel]
          rw [hskip]
          exact ih hj

/-- The walk unlinks deleted chunks and the one it erases. -/
theorem mem_walk (hj : j ∈ l) (halive : (s.chunk j).deleted = false)
    (hkeep : ¬ ((s.chunk j).item.owns blk = true ∧ s.erases j = true)) :
    j ∈ (s.walk blk l).1 := by
  induction l with
  | nil => cases hj
  | cons a l ih =>
      simp only [ChunkedBumpAlloc.walk]
      rcases List.mem_cons.mp hj with rfl | hj
      · rw [if_neg (by simp [halive])]
        split
        · rename_i howns
          rw [if_neg fun h => hkeep ⟨howns, h⟩]
          exact List.mem_cons_self
        · exact List.mem_cons_self
      · split
        · exact ih hj
        · split
          · split
            · exact mem_skipDeleted hj halive
            · exact List.mem_cons_of_mem _ hj
          · exact List.mem_cons_of_mem _ (ih hj)

theorem search_found (hk : k ∈ s.linked) (halive : (s.chunk k).deleted = false)
    (howns : (s.chunk k).item.owns blk = true)
    (honly : ∀ j ∈ s.linked, (s.chunk j).item.owns blk = true → j = k) :
    (s.search blk).2 = some k := by
  unfold ChunkedBumpAlloc.search
  rcases hl : s.linked with _ | ⟨a, l⟩
  · rw [hl] at hk
    cases hk
  · rw [hl] at hk honly
    simp only
    split
    · rename_i h
      rw [honly a List.mem_cons_self h]
    · rename_i h
      have hne : k ≠ a := by
        rintro rfl
        exact h howns
      exact walk_found ((List.mem_cons.mp hk).resolve_left hne) halive howns
        fun j hj hj' => honly j (List.mem_cons_of_mem _ hj) hj'

theorem search_sublist : (s.search blk).1.Sublist s.linked := by
  unfold ChunkedBumpAlloc.search
  rcases s.linked with _ | ⟨a, l⟩
  · exact List.Sublist.refl _
  · simp only
    split
    · refine List.Sublist.cons_cons a ?_
      split
      · exact skipDeleted_sublist
      · exact List.Sublist.refl _
    · exact walk_sublist.cons_cons a

theorem search_head : (s.search blk).1.head? = s.linked.head? := by
  unfold ChunkedBumpAlloc.search
  rcases s.linked with _ | ⟨a, l⟩
  · rfl
  · simp only
    split <;> rfl

theorem mem_search (hj : j ∈ s.linked) (halive : (s.chunk j).deleted = false)
    (hkeep : ¬ ((s.chunk j).item.owns blk = true ∧ s.erases j = true)) :
    j ∈ (s.search blk).1 := by
  unfold ChunkedBumpAlloc.search
  rcases hl : s.linked with _ | ⟨a, l⟩
  · rw [hl] at hj
    cases hj
  · rw [hl] at hj
    simp only
    rcases List.mem_cons.mp hj with rfl | hj
    · split <;> exact List.mem_cons_self
    · split
      · refine List.mem_cons_of_mem _ ?_
        split
        · exact mem_skipDeleted hj halive
        · exact hj
      · exact List.mem_cons_of_mem _ (mem_walk hj halive hkeep)

end Search

/-- A block is owned by its chunk, and by no other linked chunk. -/
theorem Base.owns_iff (hb : Base L h) (hL : L.Small) {x : Live} (hx : x ∈ h.live)
    (hk : k ∈ h.alloc.linked) : (h.alloc.chunk k).item.owns x.blk = true ↔ k = x.owner := by
  obtain ⟨h1, -, h3⟩ := hb.inside x hx
  have hlen := (hb.length x hx).1
  have hown : (h.alloc.chunk x.owner).item.lowerLimit ≤ x.blk.ptr ∧
      x.blk.ptr < (h.alloc.chunk x.owner).item.upperLimit := ⟨h1, by omega⟩
  simp only [BumpAllocator.owns, decide_eq_true_eq]
  constructor
  · intro ha
    exact hb.owner_unique hL hk (hb.owner x hx).1 ha hown
  · rintro rfl
    exact hown

/-- `deallocate` finds the chunk a block was taken from. -/
theorem Base.found (hb : Base L h) (hL : L.Small) {x : Live} (hx : x ∈ h.live) :
    (h.alloc.search x.blk).2 = some x.owner := by
  obtain ⟨hlinked, halive⟩ := hb.owner x hx
  exact search_found hlinked halive ((hb.owns_iff hL hx hlinked).mpr rfl)
    fun j hj hj' => (hb.owns_iff hL hx hj).mp hj'

/-- What is left of the blocks of a chunk when one block is taken out. -/
theorem perm_blocks {live live' : List Live} {x : Live} (hperm : (x :: live').Perm live)
    (j : Nat) : (live.filter fun y => y.owner == j).Perm
      (if x.owner = j then x :: live'.filter fun y => y.owner == j
        else live'.filter fun y => y.owner == j) := by
  refine (hperm.filter _).symm.trans ?_
  rw [List.filter_cons]
  simp only [beq_iff_eq]
  exact List.Perm.refl _

/-- What `deallocate` changes once the chunk is found. -/
theorem deallocate_chunk {s : ChunkedBumpAlloc} {blk : Block} (hf : (s.search blk).2 = some k)
    (j : Nat) : ((s.deallocate blk).chunk j).base = (s.chunk j).base ∧
      ((s.deallocate blk).chunk j).item.lowerLimit = (s.chunk j).item.lowerLimit ∧
      ((s.deallocate blk).chunk j).item.upperLimit = (s.chunk j).item.upperLimit ∧
      ((s.deallocate blk).chunk j).item.nextAddr = (s.chunk j).item.nextAddr ∧
      ((s.deallocate blk).chunk j).deleted = ((s.chunk j).deleted || (decide (j = k) && s.erases k)) ∧
      ((s.deallocate blk).chunk j).item.count =
        if j = k then (s.chunk k).item.countDown.count else (s.chunk j).item.count := by
  have hchunk : (s.deallocate blk).chunk j = if j = k then s.release k else s.chunk j := by
    simp only [ChunkedBumpAlloc.deallocate, hf]
    split
    · rename_i e
      rw [e, update_self]
    · rename_i hne
      rw [update_of_ne hne]
  rw [hchunk]
  rcases eq_or_ne j k with rfl | hne
  · simp only [if_true, ChunkedBumpAlloc.release, BumpAllocator.deallocate,
      BumpAllocator.countDown_lowerLimit, BumpAllocator.countDown_upperLimit,
      BumpAllocator.countDown_nextAddr, decide_true, Bool.true_and, and_self]
  · simp [hne]

theorem Inv.deallocate (hi : Inv L h) (hL : L.Small) {i : Nat} {x : Live}
    (hx : h.live[i]? = some x) : Inv L ⟨h.alloc.deallocate x.blk, h.live.eraseIdx i⟩ := by
  have hmem : x ∈ h.live := List.mem_of_getElem? hx
  obtain ⟨hlinked, halive⟩ := hi.owner x hmem
  have hlt := hi.created x.owner hlinked
  -- the search finds the chunk that the block was taken from
  have hfound := hi.found hL hmem
  have hown := fun j (hj : j ∈ h.alloc.linked) => hi.owns_iff hL hmem hj
  have hsub : ∀ y ∈ h.live.eraseIdx i, y ∈ h.live := fun y hy => (List.eraseIdx_sublist _ _).mem hy
  have hperm : (x :: h.live.eraseIdx i).Perm h.live := by
    obtain ⟨hil, hget⟩ := List.getElem?_eq_some_iff.mp hx
    rw [← hget]
    exact List.getElem_cons_eraseIdx_perm hil
  have hlen : ∀ j, (h.blocksIn j).length =
      (if x.owner = j then 1 else 0) + ((h.live.eraseIdx i).filter fun y => y.owner == j).length := by
    intro j
    rw [blocksIn, (perm_blocks hperm j).length_eq]
    split
    · rw [List.length_cons, Nat.add_comm]
    · rw [Nat.zero_add]
  have hsum : ∀ j, ((h.blocksIn j).map fun y => y.blk.len).sum =
      (if x.owner = j then x.blk.len else 0) +
        (((h.live.eraseIdx i).filter fun y => y.owner == j).map fun y => y.blk.len).sum := by
    intro j
    rw [blocksIn, ((perm_blocks hperm j).map fun y => y.blk.len).sum_eq]
    split
    · rw [List.map_cons, List.sum_cons]
    · rw [Nat.zero_add]
  have hchunk := deallocate_chunk hfound
  have hlist : (h.alloc.deallocate x.blk).linked = (h.alloc.search x.blk).1 := by
    simp only [ChunkedBumpAlloc.deallocate, hfound]
  have hfresh : (h.alloc.deallocate x.blk).fresh = h.alloc.fresh := by
    simp only [ChunkedBumpAlloc.deallocate, hfound]
  have hlinked' : ∀ {j}, j ∈ (h.alloc.deallocate x.blk).linked → j ∈ h.alloc.linked := by
    intro j hj
    rw [hlist] at hj
    exact search_sublist.mem hj
  have hcount := hi.count_lt hL hlt
  -- a chunk that is erased has no other live block
  have hlast : h.alloc.erases x.owner = true → ∀ y ∈ h.live.eraseIdx i, y.owner ≠ x.owner := by
    intro he y hy e
    have hone : (h.alloc.chunk x.owner).item.count = 1 := by
      simp only [ChunkedBumpAlloc.erases, BumpAllocator.deallocate, Bool.and_eq_true] at he
      exact of_decide_eq_true he.1
    have hpos : 0 < ((h.live.eraseIdx i).filter fun z => z.owner == x.owner).length :=
      List.length_pos_of_mem (List.mem_filter.mpr ⟨hy, by simpa using e⟩)
    have hl := hlen x.owner
    rw [hi.count _ hlt] at hone
    simp only [if_true] at hl
    omega
  have hstay : ∀ j ∈ h.alloc.linked, (h.alloc.chunk j).deleted = false →
      (j = x.owner → h.alloc.erases x.owner = false) → j ∈ (h.alloc.deallocate x.blk).linked := by
    intro j hj hd hne
    rw [hlist]
    refine mem_search hj hd fun ⟨ho, he⟩ => ?_
    have e := (hown j hj).mp ho
    rw [e, hne e] at he
    cases he
  exact {
    nodup := by
      show (h.alloc.deallocate x.blk).linked.Nodup
      rw [hlist]
      exact hi.nodup.sublist search_sublist
    created := by
      intro j hj
      show j < (h.alloc.deallocate x.blk).fresh
      rw [hfresh]
      exact hi.created j (hlinked' hj)
    unlinked := by
      intro j hj hnot
      have hj' : j < h.alloc.fresh := hfresh ▸ hj
      show ((h.alloc.deallocate x.blk).chunk j).deleted = true
      rw [(hchunk j).2.2.2.2.1]
      by_contra hfalse
      simp only [Bool.or_eq_true, Bool.and_eq_true, decide_eq_true_eq, not_or, not_and,
        Bool.not_eq_true] at hfalse
      refine hnot (hstay j ?_ hfalse.1 hfalse.2)
      by_contra hun
      have := hi.unlinked j hj' hun
      rw [hfalse.1] at this
      cases this
    limits := by
      intro j hj
      show ((h.alloc.deallocate x.blk).chunk j).item.lowerLimit = _ ∧ _
      rw [(hchunk j).1, (hchunk j).2.1, (hchunk j).2.2.1]
      exact hi.limits j (hfresh ▸ hj)
    placed := by
      intro j hj
      show 65536 ≤ ((h.alloc.deallocate x.blk).chunk j).base ∧ _
      rw [(hchunk j).1]
      exact hi.placed j (hfresh ▸ hj)
    apart := by
      intro j hj j' hj' hne
      show Block.Disjoint ⟨((h.alloc.deallocate x.blk).chunk j).base, _⟩
        ⟨((h.alloc.deallocate x.blk).chunk j').base, _⟩
      rw [(hchunk j).1, (hchunk j').1]
      exact hi.apart j (hlinked' hj) j' (hlinked' hj') hne
    next_le := by
      intro j hj
      show ((h.alloc.deallocate x.blk).chunk j).item.nextAddr ≤ _
      rw [(hchunk j).2.2.1, (hchunk j).2.2.2.1]
      exact hi.next_le j (hfresh ▸ hj)
    flagged := by
      intro j hj hdel
      have hdel' : ((h.alloc.deallocate x.blk).chunk j).deleted = true := hdel
      show ((h.alloc.deallocate x.blk).chunk j).item.nextAddr ≤ _
      rw [(hchunk j).2.1, (hchunk j).2.2.2.1]
      rw [(hchunk j).2.2.2.2.1, Bool.or_eq_true, Bool.and_eq_true, decide_eq_true_eq] at hdel'
      rcases hdel' with hdel' | ⟨rfl, he⟩
      · exact hi.flagged j (hfresh ▸ hj) hdel'
      · simp only [ChunkedBumpAlloc.erases, BumpAllocator.deallocate, BumpAllocator.full,
          Bool.and_eq_true, decide_eq_true_eq, BumpAllocator.countDown_nextAddr,
          BumpAllocator.countDown_lowerLimit] at he
        exact he.2
    owner := by
      intro y hy
      obtain ⟨hyl, hya⟩ := hi.owner y (hsub y hy)
      have hkeep : y.owner = x.owner → h.alloc.erases x.owner = false := by
        intro e
        by_contra he
        exact hlast (by simpa using he) y hy e
      refine ⟨hstay y.owner hyl hya hkeep, ?_⟩
      show ((h.alloc.deallocate x.blk).chunk y.owner).deleted = false
      rw [(hchunk y.owner).2.2.2.2.1, hya]
      rcases eq_or_ne y.owner x.owner with e | hne
      · simp [hkeep e]
      · simp [hne]
    inside := by
      intro y hy
      show ((h.alloc.deallocate x.blk).chunk y.owner).item.lowerLimit ≤ _ ∧
        ((h.alloc.deallocate x.blk).chunk y.owner).item.nextAddr ≤ _ ∧
        _ ≤ ((h.alloc.deallocate x.blk).chunk y.owner).item.upperLimit
      rw [(hchunk y.owner).2.1, (hchunk y.owner).2.2.1, (hchunk y.owner).2.2.2.1]
      exact hi.inside y (hsub y hy)
    length := fun y hy => hi.length y (hsub y hy)
    disjoint := hi.disjoint.sublist (List.eraseIdx_sublist _ _)
    count := by
      intro j hj
      have hj' : j < h.alloc.fresh := hfresh ▸ hj
      show ((h.alloc.deallocate x.blk).chunk j).item.count =
        ((h.live.eraseIdx i).filter fun y => y.owner == j).length
      have hl := hlen j
      have hc := hi.count j hj'
      rw [(hchunk j).2.2.2.2.2]
      rcases eq_or_ne j x.owner with rfl | hne
      · simp only [if_true] at hl ⊢
        rw [BumpAllocator.countDown_count (by omega) (by omega)]
        omega
      · simp only [if_neg hne, if_neg hne.symm] at hl ⊢
        omega
    room := by
      intro j hj
      have hj' : j < h.alloc.fresh := hfresh ▸ hj
      have hr := hi.room j hj'
      rw [hsum j] at hr
      show (((h.live.eraseIdx i).filter fun y => y.owner == j).map fun y => y.blk.len).sum +
        max ((h.alloc.deallocate x.blk).chunk j).item.nextAddr
          ((h.alloc.deallocate x.blk).chunk j).item.lowerLimit ≤
        ((h.alloc.deallocate x.blk).chunk j).item.upperLimit
      rw [(hchunk j).2.1, (hchunk j).2.2.1, (hchunk j).2.2.2.1]
      omega
    head := by
      intro j hj
      have hj' : (h.alloc.deallocate x.blk).linked.head? = some j := hj
      rw [hlist, search_head] at hj'
      show ((h.alloc.deallocate x.blk).chunk j).item.lowerLimit ≤ _
      rw [(hchunk j).2.1, (hchunk j).2.2.2.1]
      exact hi.head j hj' }

end Invariant

/-! ### Soundness -/

theorem Inv.of_reaches {L : Layout} (hL : L.Small) {h : Heap}
    (hr : Reaches (step L) (Legal L) init h) : Inv L h := by
  refine hr.invariant inv_init fun h op h' hi hok hs => ?_
  cases op with
  | allocate n base =>
      obtain ⟨h₁, hs₁, hi₁⟩ := hi.allocate hL hok
      obtain rfl : h₁ = h' := Option.some.inj (hs₁.symm.trans hs)
      exact hi₁
  | deallocate i =>
      obtain ⟨x, hx, rfl⟩ := Option.map_eq_some_iff.mp hs
      exact hi.deallocate hL hx

/-- The allocator keeps its promises in the state `h`. -/
structure Sound (L : Layout) (h : Heap) : Prop where
  /-- Live blocks do not overlap and are as long as requested. -/
  disjoint : h.live.Pairwise fun x y => Block.Disjoint x.blk y.blk
  length : ∀ x ∈ h.live, x.requested ≤ x.blk.len
  /-- Each lies in the usable range of its chunk and of no other chunk that is not
  deleted. -/
  owned : ∀ x ∈ h.live, ∀ k, (k < h.alloc.fresh ∧ (h.alloc.chunk k).deleted = false ∧
      (h.alloc.chunk k).item.lowerLimit ≤ x.blk.ptr ∧
      x.blk.ptr + x.blk.len ≤ (h.alloc.chunk k).item.upperLimit) ↔ k = x.owner
  counted : ∀ k < h.alloc.fresh, (h.alloc.chunk k).item.count = (h.blocksIn k).length
  found : ∀ x ∈ h.live, (h.alloc.search x.blk).2 = some x.owner
  erased : ∀ k, (h.alloc.chunk k).deleted = true → h.blocksIn k = []
  /-- The next request is served. -/
  served : ∀ n base, Legal L h (.allocate n base) → (step L h (.allocate n base)).isSome = true

/-- Every sequential run of `allocate` and `deallocate` is sound. -/
theorem allocator_sound (L : Layout) (hL : L.Small) {h : Heap}
    (hr : Reaches (step L) (Legal L) init h) : Sound L h := by
  have hi := Inv.of_reaches hL hr
  refine ⟨hi.disjoint, fun x hx => (hi.length x hx).2, ?_, hi.count, fun x hx => hi.found hL hx,
    ?_, ?_⟩
  · intro x hx k
    obtain ⟨hlinked, halive⟩ := hi.owner x hx
    obtain ⟨h1, -, h3⟩ := hi.inside x hx
    constructor
    · rintro ⟨hk, hd, hlow, hup⟩
      have hkl : k ∈ h.alloc.linked := by
        by_contra hun
        rw [hi.unlinked k hk hun] at hd
        cases hd
      have hlen := (hi.length x hx).1
      refine (hi.owns_iff hL hx hkl).mp (decide_eq_true ⟨hlow, ?_⟩)
      omega
    · rintro rfl
      exact ⟨hi.created _ hlinked, halive, h1, h3⟩
  · intro k hdel
    refine List.filter_eq_nil_iff.mpr fun x hx e => ?_
    obtain rfl : x.owner = k := by simpa using e
    rw [(hi.owner x hx).2] at hdel
    cases hdel
  · intro n base hok
    obtain ⟨h', hs, -⟩ := hi.allocate hL hok
    rw [hs]
    rfl

/-- A large and a small block from one chunk; when the large one is given back,
another large one still needs a second chunk. -/
theorem allocator_sound_two_chunks :
    ∃ h : Heap, Reaches (step ⟨48, 32⟩) (Legal ⟨48, 32⟩) init h ∧
      (h.live.length, h.alloc.fresh) = (2, 2) ∧ Sound ⟨48, 32⟩ h := by
  have hrun : (exec (step ⟨48, 32⟩) (Legal ⟨48, 32⟩) [.allocate 20000 262144, .allocate 100 524288,
      .deallocate 1, .allocate 32768 524288] init).map
        (fun h => (h.live.length, h.alloc.fresh)) = some (2, 2) := by
    decide +kernel
  obtain ⟨h, hs, hp⟩ := Option.map_eq_some_iff.mp hrun
  have hreach := Reaches.refl.of_exec hs
  exact ⟨h, hreach, hp, allocator_sound ⟨48, 32⟩ (by decide) hreach⟩

end Heap

end RedGrapes.Memory
