/-
RedGrapes/Memory/Retry.lean

When the loop of `ChunkedBumpAlloc::allocate` comes to an end.

A request is admitted if its rounded size is at most the capacity of a chunk, and
then it is tried on the head until there is a block, each time with a new chunk.
The control block and the management object are taken off the capacity, so that a
new chunk has less room than that: a request in between is refused by every new
chunk, and the loop does not end.

The chunk size is a parameter here, and the computations on it wrap as in
the source; `usable_eq` is the case of the default size.
-/
import RedGrapes.Memory.ChunkedBumpAlloc

namespace RedGrapes.Memory

open Function

/-! ### The loop with any chunk size -/

/-- The sizes of the objects in a chunk and the `chunk_size` of the constructor. -/
structure Sizes extends Layout where
  chunkCapacity : Nat

namespace Sizes

variable (Z : Sizes)

/-- What is not available of a chunk. -/
def management : Nat := Z.controlblockSize + Z.sizeofBumpAllocator

/-- `get_chunk_allocsize`. -/
def allocsize : Nat := Z.chunkCapacity + Z.controlblockSize

/-- The block that the constructor of `ItemControlBlock` passes on. -/
def usable (base : Nat) : Block :=
  ⟨(base + Z.management) % addrSize, (Z.chunkCapacity + addrSize - Z.management % addrSize) % addrSize⟩

/-- The bump allocator of a new chunk in the region at `base`. -/
def newItem (base : Nat) : BumpAllocator :=
  ⟨((Z.usable base).ptr + (Z.usable base).len) % addrSize, 0, (Z.usable base).ptr,
    ((Z.usable base).ptr + (Z.usable base).len) % addrSize⟩

end Sizes

namespace ChunkedBumpAlloc

variable {Z : Sizes} {s s' : ChunkedBumpAlloc} {size n base : Nat} {bases : Nat → Nat}

/-- `allocate_item`. -/
def newChunk (Z : Sizes) (s : ChunkedBumpAlloc) (base : Nat) : ChunkedBumpAlloc where
  chunk := update s.chunk s.fresh ⟨base, false, Z.newItem base⟩
  linked := s.fresh :: s.linked
  fresh := s.fresh + 1

/-- The loop of `allocate`, for at most `fuel` rounds.  The `i`-th chunk is given the
region at `bases i`. -/
def retry (Z : Sizes) (size : Nat) (bases : Nat → Nat) :
    Nat → ChunkedBumpAlloc → Option (Block × ChunkedBumpAlloc)
  | 0, _ => none
  | fuel + 1, s => match s.attempt size with
    | (some (_, blk), s) => some (blk, s)
    | (none, s) => retry Z size bases fuel (s.newChunk Z (bases s.fresh))

/-- `allocate`: an oversized request is answered by the null block and an error
message. -/
def allocateWith (Z : Sizes) (bases : Nat → Nat) (fuel : Nat) (s : ChunkedBumpAlloc) (n : Nat) :
    Option (Block × ChunkedBumpAlloc) :=
  if roundupToPoweroftwo n ≤ Z.chunkCapacity then retry Z (roundupToPoweroftwo n) bases fuel s
  else some (.null, s)

/-- `next_addr` of the head leaves room for the request. -/
def HeadFits (s : ChunkedBumpAlloc) (size : Nat) : Prop :=
  ∃ k ∈ s.linked.head?, (s.chunk k).item.lowerLimit ≤ ((s.chunk k).item.fetchSub size).nextAddr ∧
    ((s.chunk k).item.fetchSub size).nextAddr ≠ 0

/-! ### One round -/

theorem attempt_of_headFits (h : s.HeadFits size) :
    ∃ k blk s', s.attempt size = (some (k, blk), s') ∧ blk.isSome = true := by
  obtain ⟨k, hk, hle, hne⟩ := h
  obtain ⟨rest, hl⟩ := List.head?_eq_some_iff.mp hk
  have hsome : Block.isSome ⟨((s.chunk k).item.fetchSub size).nextAddr, size⟩ = true :=
    decide_eq_true hne
  refine ⟨k, ⟨((s.chunk k).item.fetchSub size).nextAddr, size⟩,
    s.setItem k ((s.chunk k).item.fetchSub size).countUp, ?_, hsome⟩
  simp only [attempt, hl, BumpAllocator.allocate, if_pos hle, hsome, if_true]

theorem attempt_of_not_headFits (h : ¬ s.HeadFits size) :
    ∃ s', s.attempt size = (none, s') ∧ s'.fresh = s.fresh := by
  cases hl : s.linked with
  | nil => exact ⟨s, by simp only [attempt, hl], rfl⟩
  | cons k rest =>
      have hnone : ((s.chunk k).item.allocate size).1.isSome = false := by
        unfold BumpAllocator.allocate
        split
        · rename_i hle
          refine decide_eq_false fun hne => h ⟨k, ?_, hle, hne⟩
          rw [hl]
          rfl
        · rfl
      refine ⟨s.setItem k ((s.chunk k).item.allocate size).2, ?_, rfl⟩
      simp only [attempt, hl, hnone]
      rfl

/-- What is assumed of the backing allocator: it returns a region, and the objects
at the front of a chunk do not reach the end of the address space. -/
def Supplies (Z : Sizes) (bases : Nat → Nat) : Prop :=
  ∀ i, 0 < bases i ∧ bases i + Z.allocsize + Z.management < addrSize

/-- The limits of a new chunk.  They are in the wrong order if the management data
does not fit. -/
theorem newItem_limits (hend : base + Z.allocsize + Z.management < addrSize) :
    (Z.newItem base).lowerLimit = base + Z.management ∧
      (Z.newItem base).nextAddr = base + Z.chunkCapacity := by
  have hptr : (base + Z.management) % addrSize = base + Z.management :=
    Nat.mod_eq_of_lt (by unfold Sizes.allocsize at hend; omega)
  have hmod : Z.management % addrSize = Z.management := Nat.mod_eq_of_lt (by omega)
  refine ⟨hptr, ?_⟩
  show ((base + Z.management) % addrSize +
    (Z.chunkCapacity + addrSize - Z.management % addrSize) % addrSize) % addrSize = _
  rw [hptr, hmod]
  unfold Sizes.allocsize at hend
  rcases Nat.lt_or_ge Z.chunkCapacity Z.management with hlt | hge
  · rw [Nat.mod_eq_of_lt (by omega : Z.chunkCapacity + addrSize - Z.management < addrSize),
      show base + Z.management + (Z.chunkCapacity + addrSize - Z.management) =
        base + Z.chunkCapacity + addrSize by omega, Nat.add_mod_right]
    exact Nat.mod_eq_of_lt (by omega)
  · rw [show Z.chunkCapacity + addrSize - Z.management = Z.chunkCapacity - Z.management + addrSize by
      omega, Nat.add_mod_right, Nat.mod_eq_of_lt (by omega : Z.chunkCapacity - Z.management < addrSize),
      show base + Z.management + (Z.chunkCapacity - Z.management) = base + Z.chunkCapacity by omega]
    exact Nat.mod_eq_of_lt (by omega)

/-- A new chunk has room for the request exactly if the request and the management
data fit into the capacity. -/
theorem newChunk_headFits_iff (hsize : size ≤ Z.chunkCapacity) (hbase : 0 < base)
    (hend : base + Z.allocsize + Z.management < addrSize) :
    (s.newChunk Z base).HeadFits size ↔ size + Z.management ≤ Z.chunkCapacity := by
  have hnew : (s.newChunk Z base).chunk s.fresh = ⟨base, false, Z.newItem base⟩ := update_self _ _ _
  obtain ⟨hlow, hnext⟩ := newItem_limits hend
  have hsub : ((Z.newItem base).fetchSub size).nextAddr = base + Z.chunkCapacity - size := by
    unfold Sizes.allocsize at hend
    rw [BumpAllocator.fetchSub_nextAddr (by omega) (by omega), hnext]
  have hhead : (s.newChunk Z base).linked.head? = some s.fresh := rfl
  unfold HeadFits
  rw [hhead]
  constructor
  · rintro ⟨k, hk, hle, -⟩
    obtain rfl : s.fresh = k := Option.some.inj hk
    rw [hnew] at hle
    simp only [hlow, hsub] at hle
    omega
  · intro hfit
    refine ⟨s.fresh, rfl, ?_, ?_⟩
    · rw [hnew]
      simp only [hlow, hsub]
      omega
    · rw [hnew]
      simp only [hsub]
      omega

/-- The default chunk size. -/
theorem usable_eq (L : Layout) (hL : L.Small) (hend : base + 131072 < addrSize) :
    (Sizes.mk L Layout.chunkSize).usable base = L.usable base := by
  have hM : (Sizes.mk L Layout.chunkSize).management < 32768 := hL
  have hC : Layout.chunkSize = 65536 := rfl
  have hMdef : (Sizes.mk L Layout.chunkSize).management = L.controlblockSize + L.sizeofBumpAllocator :=
    rfl
  unfold Sizes.usable Layout.usable
  rw [hMdef] at hM ⊢
  simp only [hC]
  rw [Nat.mod_eq_of_lt (by omega : base + (L.controlblockSize + L.sizeofBumpAllocator) < addrSize),
    Nat.mod_eq_of_lt (by omega : L.controlblockSize + L.sizeofBumpAllocator < addrSize),
    show 65536 + addrSize - (L.controlblockSize + L.sizeofBumpAllocator) =
      65536 - L.controlblockSize - L.sizeofBumpAllocator + addrSize by omega, Nat.add_mod_right,
    Nat.mod_eq_of_lt (by omega : 65536 - L.controlblockSize - L.sizeofBumpAllocator < addrSize),
    Nat.add_assoc]

/-! ### All rounds -/

/-- If the head refuses the request and a new chunk has no room for it, no round
succeeds. -/
theorem retry_eq_none (hsupply : Supplies Z bases) (hsize : size ≤ Z.chunkCapacity)
    (hbig : Z.chunkCapacity < size + Z.management) (hhead : ¬ s.HeadFits size) (fuel : Nat) :
    retry Z size bases fuel s = none := by
  induction fuel generalizing s with
  | zero => rfl
  | succ fuel ih =>
      obtain ⟨s', hs', -⟩ := attempt_of_not_headFits hhead
      rw [retry, hs']
      refine ih ?_
      obtain ⟨hbase, hend⟩ := hsupply s'.fresh
      rw [newChunk_headFits_iff hsize hbase hend]
      omega

/-- Otherwise the second round succeeds at the latest. -/
theorem retry_eq_some (hsupply : Supplies Z bases) (hsize : size ≤ Z.chunkCapacity)
    (h : size + Z.management ≤ Z.chunkCapacity ∨ s.HeadFits size) :
    ∃ blk s', retry Z size bases 2 s = some (blk, s') ∧ blk.isSome = true := by
  by_cases hhead : s.HeadFits size
  · obtain ⟨k, blk, s', hs', hsome⟩ := attempt_of_headFits hhead
    exact ⟨blk, s', by rw [retry, hs'], hsome⟩
  · obtain ⟨s₁, hs₁, -⟩ := attempt_of_not_headFits hhead
    obtain ⟨hbase, hend⟩ := hsupply s₁.fresh
    have hnew := (newChunk_headFits_iff (s := s₁) hsize hbase hend).mpr (h.resolve_right hhead)
    obtain ⟨k, blk, s', hs', hsome⟩ := attempt_of_headFits hnew
    refine ⟨blk, s', ?_, hsome⟩
    rw [retry, hs₁]
    simp only [retry, hs']

/-- `allocate` returns: a block that is not null, or the null block if the request
exceeds the capacity. -/
def Returns (Z : Sizes) (bases : Nat → Nat) (s : ChunkedBumpAlloc) (n : Nat) : Prop :=
  ∃ fuel blk s', allocateWith Z bases fuel s n = some (blk, s') ∧
    (blk.isSome = true ∨ blk = .null ∧ Z.chunkCapacity < roundupToPoweroftwo n)

/-- `allocate` returns exactly if the rounded request exceeds the capacity, fits into
it together with the management data, or fits into the head. -/
theorem allocate_returns_iff (Z : Sizes) (bases : Nat → Nat) (hsupply : Supplies Z bases)
    (s : ChunkedBumpAlloc) (n : Nat) :
    Returns Z bases s n ↔ (Z.chunkCapacity < roundupToPoweroftwo n ∨
      roundupToPoweroftwo n + Z.management ≤ Z.chunkCapacity ∨
      s.HeadFits (roundupToPoweroftwo n)) := by
  rcases Nat.lt_or_ge Z.chunkCapacity (roundupToPoweroftwo n) with hlt | hge
  · refine ⟨fun _ => .inl hlt, fun _ => ⟨0, .null, s, ?_, .inr ⟨rfl, hlt⟩⟩⟩
    rw [allocateWith, if_neg (by omega)]
  · constructor
    · rintro ⟨fuel, blk, s', hs, -⟩
      rw [allocateWith, if_pos hge] at hs
      by_contra hnot
      push Not at hnot
      rw [retry_eq_none hsupply hge hnot.2.1 hnot.2.2] at hs
      cases hs
    · intro h
      obtain ⟨blk, s', hs, hsome⟩ := retry_eq_some hsupply hge (h.resolve_left (by omega))
      exact ⟨2, blk, s', by rw [allocateWith, if_pos hge]; exact hs, .inl hsome⟩

/-- The sizes of a usual compiler, with the default chunk size. -/
def usual : Sizes := ⟨⟨32, 32⟩, Layout.chunkSize⟩

/-- A backing allocator with regions of 128 KiB, of which it has a thousand. -/
def regions (i : Nat) : Nat := i % 1000 * 131072 + 131072

theorem supplies_regions : Supplies usual regions := by
  intro i
  have hlt : i % 1000 < 1000 := Nat.mod_lt i (by decide)
  have hall : usual.allocsize + usual.management = 66656 := rfl
  have hroom : 1000 * 131072 + 66656 < addrSize := by
    rw [addrSize_eq]
    decide
  unfold regions
  omega

/-- A request of 1000 bytes on an empty allocator. -/
theorem allocate_returns_iff_small :
    Returns usual regions .init 1000 := by
  refine (allocate_returns_iff usual regions supplies_regions .init 1000).mpr (.inr (.inl ?_))
  decide +kernel

/-- A request of 40000 bytes is rounded up to the capacity.  It is admitted, and no
chunk has room for it. -/
theorem allocate_never_returns :
    ¬ Returns usual regions .init 40000 ∧
      ∀ fuel, allocateWith usual regions fuel
        .init 40000 = none := by
  have hround : roundupToPoweroftwo 40000 = 65536 := by decide +kernel
  have hnone : ∀ fuel, allocateWith usual regions
      fuel .init 40000 = none := by
    intro fuel
    rw [allocateWith, if_pos (by rw [hround]; decide)]
    refine retry_eq_none supplies_regions (by rw [hround]; decide) (by rw [hround]; decide) ?_ fuel
    rintro ⟨k, hk, -⟩
    cases hk
  refine ⟨?_, hnone⟩
  rintro ⟨fuel, blk, s', hs, -⟩
  rw [hnone] at hs
  cases hs

end ChunkedBumpAlloc

end RedGrapes.Memory
