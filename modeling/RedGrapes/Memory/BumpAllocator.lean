/-
RedGrapes/Memory/BumpAllocator.lean

One chunk of the task allocator: `memory/block.hpp`, `memory/bump_allocator.hpp`
and the layout of a chunk that `AtomicList::allocate_item` and
`ItemControlBlock` (`util/atomic_list.hpp`) set up.

A chunk hands out addresses from its upper to its lower limit.  A request that
does not fit is refused, but it still takes `next_addr` down.  Addresses are
`uintptr_t`, so `next_addr` is a number modulo `2^64`; a chunk that lies above
64 KiB does not come near zero (`fetchSub_nextAddr`).
-/
import RedGrapes.Lib.HighBit

namespace RedGrapes.Memory

open HighBit

/-- The range of `uintptr_t` and `size_t`.  It is not meant to be unfolded; the
fields of an allocator are read off by the lemmas below. -/
@[irreducible] def addrSize : Nat := 2 ^ 64

theorem addrSize_eq : addrSize = 18446744073709551616 := by
  unfold addrSize
  norm_num

/-- The range of the counter of a chunk, a `uint16_t`. -/
def countSize : Nat := 65536

/-! ### Blocks -/

structure Block where
  ptr : Nat
  len : Nat
deriving DecidableEq

namespace Block

/-- `Block::null`. -/
def null : Block := ⟨0, 0⟩

/-- `operator bool`. -/
def isSome (b : Block) : Bool := decide (b.ptr ≠ 0)

/-- No address belongs to both. -/
def Disjoint (a b : Block) : Prop := a.ptr + a.len ≤ b.ptr ∨ b.ptr + b.len ≤ a.ptr

instance (a b : Block) : Decidable (Disjoint a b) := inferInstanceAs (Decidable (_ ∨ _))

theorem Disjoint.symm {a b : Block} (h : Disjoint a b) : Disjoint b a := Or.symm h

end Block

/-! ### Bump allocators -/

structure BumpAllocator where
  nextAddr : Nat
  count : Nat
  lowerLimit : Nat
  upperLimit : Nat
deriving DecidableEq

namespace BumpAllocator

/-- The constructor from a block. -/
def init (blk : Block) : BumpAllocator := ⟨blk.ptr + blk.len, 0, blk.ptr, blk.ptr + blk.len⟩

def full (b : BumpAllocator) : Bool := decide (b.nextAddr ≤ b.lowerLimit)

def owns (b : BumpAllocator) (blk : Block) : Bool :=
  decide (b.lowerLimit ≤ blk.ptr ∧ blk.ptr < b.upperLimit)

/-- `next_addr.fetch_sub(n_bytes)`. -/
def fetchSub (b : BumpAllocator) (n : Nat) : BumpAllocator :=
  { b with nextAddr := (b.nextAddr + addrSize - n % addrSize) % addrSize }

/-- `count++`. -/
def countUp (b : BumpAllocator) : BumpAllocator := { b with count := (b.count + 1) % countSize }

/-- `count.fetch_sub(1)`. -/
def countDown (b : BumpAllocator) : BumpAllocator :=
  { b with count := (b.count + countSize - 1) % countSize }

/-- `allocate`: the block, and the allocator afterwards. -/
def allocate (b : BumpAllocator) (n : Nat) : Block × BumpAllocator :=
  if b.lowerLimit ≤ (b.fetchSub n).nextAddr then (⟨(b.fetchSub n).nextAddr, n⟩, (b.fetchSub n).countUp)
  else (.null, b.fetchSub n)

/-- `deallocate`: the number of allocations before, and the allocator
afterwards. -/
def deallocate (b : BumpAllocator) : Nat × BumpAllocator := (b.count, b.countDown)

variable {b : BumpAllocator} {n : Nat}

section Fields

@[simp] theorem fetchSub_count : (b.fetchSub n).count = b.count := by cases b; rfl
@[simp] theorem fetchSub_lowerLimit : (b.fetchSub n).lowerLimit = b.lowerLimit := by cases b; rfl
@[simp] theorem fetchSub_upperLimit : (b.fetchSub n).upperLimit = b.upperLimit := by cases b; rfl
@[simp] theorem countUp_nextAddr : b.countUp.nextAddr = b.nextAddr := by cases b; rfl
@[simp] theorem countUp_lowerLimit : b.countUp.lowerLimit = b.lowerLimit := by cases b; rfl
@[simp] theorem countUp_upperLimit : b.countUp.upperLimit = b.upperLimit := by cases b; rfl
@[simp] theorem countDown_nextAddr : b.countDown.nextAddr = b.nextAddr := by cases b; rfl
@[simp] theorem countDown_lowerLimit : b.countDown.lowerLimit = b.lowerLimit := by cases b; rfl
@[simp] theorem countDown_upperLimit : b.countDown.upperLimit = b.upperLimit := by cases b; rfl

end Fields

/-- As long as `next_addr` stays above zero, it goes down by `n`. -/
theorem fetchSub_nextAddr (hn : n ≤ b.nextAddr) (hlt : b.nextAddr < addrSize) :
    (b.fetchSub n).nextAddr = b.nextAddr - n := by
  show (b.nextAddr + addrSize - n % addrSize) % addrSize = b.nextAddr - n
  have hmod : n % addrSize = n := Nat.mod_eq_of_lt (by omega)
  rw [hmod, show b.nextAddr + addrSize - n = b.nextAddr - n + addrSize by omega,
    Nat.add_mod_right, Nat.mod_eq_of_lt (by omega)]

theorem countUp_count (h : b.count + 1 < countSize) : b.countUp.count = b.count + 1 :=
  Nat.mod_eq_of_lt h

theorem countDown_count (hpos : 0 < b.count) (h : b.count < countSize) :
    b.countDown.count = b.count - 1 := by
  show (b.count + countSize - 1) % countSize = b.count - 1
  rw [show b.count + countSize - 1 = b.count - 1 + countSize by omega, Nat.add_mod_right,
    Nat.mod_eq_of_lt (by omega)]

end BumpAllocator

/-! ### The size of a request -/

/-- `ChunkedBumpAlloc::roundup_to_poweroftwo`. -/
def roundupToPoweroftwo (s : Nat) : Nat :=
  let s := (s + addrSize - 1) % addrSize
  let s := s ||| s >>> 0x1
  let s := s ||| s >>> 0x2
  let s := s ||| s >>> 0x4
  let s := s ||| s >>> 0x8
  let s := s ||| s >>> 0x10
  let s := s ||| s >>> 0x20
  (s + 1) % addrSize

/-- Six shifts fill all 64 places below the highest bit of the predecessor. -/
theorem roundupToPoweroftwo_eq (n : Nat) :
    roundupToPoweroftwo n = 2 ^ ((n + addrSize - 1) % addrSize).size % addrSize := by
  have hlt : (n + addrSize - 1) % addrSize < 2 ^ 64 := by
    rw [addrSize_eq]
    exact Nat.mod_lt _ (by decide)
  unfold roundupToPoweroftwo
  generalize (n + addrSize - 1) % addrSize = s at hlt
  -- each shift doubles the width
  have h2 := (Spread.start s).shift (le_refl 1)
  have h4 := h2.shift (le_refl 2)
  have h8 := h4.shift (le_refl 4)
  have h16 := h8.shift (le_refl 8)
  have h32 := h16.shift (le_refl 16)
  have h64 := h32.shift (le_refl 32)
  show (_ + 1) % addrSize = _
  rw [h64.eq_pred hlt, Nat.sub_add_cancel Nat.one_le_two_pow]

/-- A size that is not zero and has a power of two above it in 64 bits. -/
theorem roundupToPoweroftwo_of_le {n : Nat} (h : 1 ≤ n) (h' : n ≤ 2 ^ 63) :
    roundupToPoweroftwo n = 2 ^ (n - 1).size := by
  have hpred : (n + addrSize - 1) % addrSize = n - 1 := by
    rw [show n + addrSize - 1 = n - 1 + addrSize by omega, Nat.add_mod_right]
    exact Nat.mod_eq_of_lt (by rw [addrSize_eq]; omega)
  have hpow : 2 ^ (n - 1).size ≤ 2 ^ 63 :=
    Nat.pow_le_pow_right Nat.two_pos ((le_two_pow_iff h).mp h')
  rw [roundupToPoweroftwo_eq, hpred, Nat.mod_eq_of_lt]
  rw [addrSize_eq]
  omega

/-- The other sizes have a predecessor of 64 bits, and the increment overflows. -/
theorem roundupToPoweroftwo_of_pred {n : Nat} (h : 2 ^ 63 ≤ (n + addrSize - 1) % addrSize) :
    roundupToPoweroftwo n = 0 := by
  have hlow : 63 < ((n + addrSize - 1) % addrSize).size := Nat.lt_size.mpr h
  have hhigh : ((n + addrSize - 1) % addrSize).size ≤ 64 := by
    rw [Nat.size_le, addrSize_eq]
    exact Nat.mod_lt _ (by decide)
  have hsize : ((n + addrSize - 1) % addrSize).size = 64 := by omega
  rw [roundupToPoweroftwo_eq, hsize, addrSize_eq]
  norm_num

/-- `roundup_to_poweroftwo` returns the least power of two that is not less than its argument,
and zero if there is none in 64 bits or if the argument is zero. -/
theorem roundupToPoweroftwo_exact (n : Nat) (hn : n < addrSize) :
    (1 ≤ n → n ≤ 2 ^ 63 → IsLeast {p | p.isPowerOfTwo ∧ n ≤ p} (roundupToPoweroftwo n)) ∧
      (n = 0 ∨ 2 ^ 63 < n → roundupToPoweroftwo n = 0) := by
  constructor
  · intro h h'
    rw [roundupToPoweroftwo_of_le h h']
    exact isLeast_two_pow_size_pred h
  · intro h
    apply roundupToPoweroftwo_of_pred
    rw [addrSize_eq] at hn ⊢
    rcases h with rfl | h <;> omega

/-- At a size of 33 bytes, and at the first one that overflows. -/
theorem roundupToPoweroftwo_exact_limits :
    IsLeast {p | p.isPowerOfTwo ∧ 33 ≤ p} (roundupToPoweroftwo 33) ∧
      roundupToPoweroftwo (2 ^ 63 + 1) = 0 := by
  constructor
  · exact (roundupToPoweroftwo_exact 33 (by rw [addrSize_eq]; decide)).1 (by decide) (by decide)
  · exact (roundupToPoweroftwo_exact (2 ^ 63 + 1) (by rw [addrSize_eq]; decide)).2
      (Or.inr (by decide))

example : roundupToPoweroftwo 33 = 64 := by decide +kernel

/-- A request of at most half a chunk is not rounded up beyond it. -/
theorem roundupToPoweroftwo_bounds {n : Nat} (h : 1 ≤ n) (h' : n ≤ 32768) :
    n ≤ roundupToPoweroftwo n ∧ roundupToPoweroftwo n ≤ 32768 := by
  rw [roundupToPoweroftwo_of_le h (by omega)]
  constructor
  · exact (le_two_pow_iff h).mpr le_rfl
  · exact Nat.pow_le_pow_right Nat.two_pos ((le_two_pow_iff (k := 15) h).mp h')

/-! ### The layout of a chunk -/

/-- The sizes the compiler gives to the objects at the front of a chunk. -/
structure Layout where
  sizeofItemControlBlock : Nat
  sizeofBumpAllocator : Nat

namespace Layout

/-- `REDGRAPES_ALLOC_CHUNKSIZE`, the default chunk size and capacity. -/
def chunkSize : Nat := 64 * 1024

variable (L : Layout)

/-- `get_controlblock_size`. -/
def controlblockSize : Nat := L.sizeofItemControlBlock + 512

/-- `get_chunk_allocsize`. -/
def chunkAllocsize : Nat := chunkSize + L.controlblockSize

/-- `allocate_item` and the constructor of `ItemControlBlock`: the usable part of
the region at `base`. -/
def usable (base : Nat) : Block :=
  ⟨base + L.controlblockSize + L.sizeofBumpAllocator,
    chunkSize - L.controlblockSize - L.sizeofBumpAllocator⟩

/-- Control block and management object take less than half of a chunk. -/
def Small : Prop := L.controlblockSize + L.sizeofBumpAllocator < 32768

instance : Decidable L.Small := inferInstanceAs (Decidable (_ < _))

end Layout

end RedGrapes.Memory
