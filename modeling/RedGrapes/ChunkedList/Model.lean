/-
RedGrapes/ChunkedList/Model.lean

`ChunkedList` (`util/chunked_list.hpp`) over the list of its chunks
(`AtomicList`, `util/atomic_list.hpp`): the data, and the operations as a
single thread runs them.

A chunk has the slots `0, …, T - 1`, and a pointer into it is the number of a
slot; a pointer in front of the first slot is no slot.  Chunks are numbered as
they are allocated.  The loops of the source take the number of rounds they may
need as an argument and fail with `endless` when it is used up.

The memory of a chunk is not modelled: a chunk stays where it is after the last
pointer to it has gone.
-/
import RedGrapes.ChunkedList.Item

namespace RedGrapes.ChunkedList

open Function

/-! ### Chunks -/

/-- `iter_offset = off`. -/
def Item.setOffset (x : Item) (off : Nat) : Item := { x with iterOffset := off }

/-- `acquire` with nobody else at the item. -/
def Item.acquire (x : Item) : Item × Nat :=
  if x.iterOffset = 0 ∧ 0 ≤ x.refcount then
    if 0 ≤ x.refcount ∧ x.fetchAdd.iterOffset = 0 then (x.fetchAdd, 0)
    else (x.fetchAdd.fetchSub, x.fetchAdd.iterOffset)
  else (x, x.iterOffset)

/-- The operations of `acquire` one after the other. -/
inductive Acquire.Runs : Item → Acquire → Item → Nat → Prop
  | returns {x y : Item} {a : Acquire} {off : Nat} (h : a.step x = (y, .inr off)) : Runs x a y off
  | goes {x y z : Item} {a b : Acquire} {off : Nat} (h : a.step x = (y, .inl b))
      (hr : Runs y b z off) : Runs x a z off

/-- `Item.acquire` is what the atomic operations of `acquire` amount to. -/
theorem Item.acquire_runs (x : Item) : Acquire.Runs x .loadOffset x.acquire.1 x.acquire.2 := by
  refine .goes (b := .loadRefcount x.iterOffset) rfl ?_
  unfold Item.acquire
  split
  · rename_i h
    refine .goes (y := x) (b := .fetchAdd) (by simp [Acquire.step, h]) ?_
    refine .goes (b := .reload x.refcount) rfl ?_
    split
    · rename_i h'
      exact .returns (by simp [Acquire.step, h'])
    · rename_i h'
      exact .goes (b := .undo x.fetchAdd.iterOffset) (by simp [Acquire.step, h']) (.returns rfl)
  · rename_i h
    exact .returns (by simp [Acquire.step, h])

/-- `Chunk` with the flag and the pointer of its `ItemControlBlock`. -/
structure Chunk (V : Type) where
  item : Nat → Item
  value : Nat → Option V
  nextItem : Nat
  freedItems : Nat
  deleted : Bool
  prev : Option Nat

namespace Chunk

variable {V : Type}

def init : Chunk V := ⟨fun _ => Item.init, fun _ => none, 0, 0, false, none⟩

def setItem (b : Chunk V) (j : Nat) (x : Item) : Chunk V := { b with item := update b.item j x }

/-- `*next_item = item`. -/
def assign (b : Chunk V) (j : Nat) (v : V) : Chunk V :=
  { b with item := update b.item j (b.item j).assign, value := update b.value j (some v) }

/-- `get_last_item`: no slot if none is reserved. -/
def getLastItem (T : Nat) (b : Chunk V) : Option Nat :=
  match min b.nextItem T with
  | 0 => none
  | j + 1 => some j

end Chunk

/-- `chunks`, with the number of chunks allocated so far. -/
structure Chunks (V : Type) where
  chunk : Nat → Chunk V
  head : Option Nat
  fresh : Nat

/-- `ItemAccess`, the state of an iterator: `slot` and `hasItem` are packed in `cur_item`. -/
structure ItemAccess where
  chunk : Option Nat
  slot : Option Nat
  hasItem : Bool
deriving DecidableEq

/-- What ends an operation before its time. -/
inductive Fault
  | thrown
  | asserted
  | nullptr
  | endless
deriving DecidableEq

namespace ItemAccess

/-- `rend`. -/
def rend : ItemAccess := ⟨none, none, false⟩

/-- `is_valid_idx`, with the place it is true of. -/
def index (T : Nat) (it : ItemAccess) : Option (Nat × Nat) :=
  match it.chunk, it.slot with
  | some c, some j => if j < T then some (c, j) else none
  | _, _ => none

/-- More items than there are in the chunk of the iterator and the older ones. -/
def rounds (T : Nat) (it : ItemAccess) : Nat :=
  match it.chunk with
  | some c => (c + 1) * T + 1
  | none => 1

end ItemAccess

namespace Chunks

variable {V : Type}

def empty : Chunks V := ⟨fun _ => Chunk.init, none, 0⟩

def modify (s : Chunks V) (c : Nat) (f : Chunk V → Chunk V) : Chunks V :=
  { s with chunk := update s.chunk c (f (s.chunk c)) }

def setItem (s : Chunks V) (c j : Nat) (x : Item) : Chunks V := s.modify c fun b => b.setItem j x

def item (s : Chunks V) (c j : Nat) : Item := (s.chunk c).item j

/-! ### The list of chunks -/

/-- `allocate_item`: a new chunk in front of the head. -/
def allocateItem (s : Chunks V) : Chunks V where
  chunk := update s.chunk s.fresh { Chunk.init with prev := s.head }
  head := some s.fresh
  fresh := s.fresh + 1

/-- `try_allocate_first_item`: a new chunk that becomes the head if there is
none. -/
def tryAllocateFirstItem (s : Chunks V) : Chunks V where
  chunk := update s.chunk s.fresh Chunk.init
  head := s.head <|> some s.fresh
  fresh := s.fresh + 1

/-- The loop of `skip_deleted_prev`. -/
def skipDeleted (s : Chunks V) : Nat → Option Nat → Except Fault (Option Nat)
  | _, none => .ok none
  | 0, some _ => .error .endless
  | fuel + 1, some p =>
      if (s.chunk p).deleted then skipDeleted s fuel (s.chunk p).prev else .ok (some p)

/-- `++chunk`, which unlinks the deleted chunks it comes over. -/
def nextChunk (s : Chunks V) (c : Nat) : Except Fault (Chunks V × Option Nat) := do
  let p ← s.skipDeleted (c + 1) (s.chunk c).prev
  return (s.modify c fun b => { b with prev := p }, p)

/-- An iterator at the last item of a chunk. -/
def lastOf (s : Chunks V) (T : Nat) : Option Nat → ItemAccess
  | some c => ⟨some c, (s.chunk c).getLastItem T, false⟩
  | none => ItemAccess.rend

/-! ### Iterators -/

/-- `acquire_next_item`. -/
def acquireLoop (T : Nat) : Nat → Chunks V → ItemAccess → Except Fault (Chunks V × ItemAccess)
  | 0, _, _ => .error .endless
  | fuel + 1, s, it =>
      match it.index T with
      | none => .ok (s, { it with slot := none })
      | some (c, j) =>
          let s₁ := s.setItem c j (s.item c j).acquire.1
          match (s.item c j).acquire.2 with
          | 0 => .ok (s₁, { it with hasItem := true })
          | off + 1 =>
              if off + 1 ≤ j then acquireLoop T fuel s₁ ⟨some c, some (j - (off + 1)), false⟩
              else do
                let (s₂, p) ← s₁.nextChunk c
                acquireLoop T fuel s₂ (s₂.lastOf T p)

def acquireNextItem (T : Nat) (s : Chunks V) (it : ItemAccess) : Except Fault (Chunks V × ItemAccess) :=
  acquireLoop T (it.rounds T) s it

/-- `ItemAccess::release`. -/
def release (T : Nat) (s : Chunks V) (it : ItemAccess) : Except Fault (Chunks V × ItemAccess) :=
  if it.hasItem then
    match it.index T with
    | none => .error .asserted
    | some (c, j) =>
        if (s.item c j).releaseThrows then .error .thrown
        else .ok (s.setItem c j (s.item c j).release, { it with hasItem := false })
  else .ok (s, it)

/-- `operator++`. -/
def advance (T : Nat) (s : Chunks V) (it : ItemAccess) : Except Fault (Chunks V × ItemAccess) := do
  let (s, it) ← s.release T it
  match it.chunk, it.slot with
  | some c, some (j + 1) => s.acquireNextItem T ⟨some c, some j, false⟩
  | some c, some 0 =>
      let (s, p) ← s.nextChunk c
      s.acquireNextItem T (s.lastOf T p)
  | _, _ => .error .nullptr

/-- `operator*`. -/
def read (T : Nat) (s : Chunks V) (it : ItemAccess) : Except Fault V :=
  match it.index T with
  | none => .error .asserted
  | some (c, j) =>
      match (s.chunk c).value j with
      | some v => .ok v
      | none => .error .asserted

def rbegin (T : Nat) (s : Chunks V) : Except Fault (Chunks V × ItemAccess) :=
  s.acquireNextItem T (s.lastOf T s.head)

/-- What an iterator visits until it is at the end. -/
def visitLoop (T : Nat) : Nat → Chunks V → ItemAccess → Except Fault (Chunks V × ItemAccess × List V)
  | 0, _, _ => .error .endless
  | fuel + 1, s, it =>
      match it.slot with
      | none => .ok (s, it, [])
      | some _ => do
          let v ← s.read T it
          let (s, it) ← s.advance T it
          let (s, it, vs) ← visitLoop T fuel s it
          return (s, it, v :: vs)

def visit (T : Nat) (s : Chunks V) (it : ItemAccess) : Except Fault (Chunks V × ItemAccess × List V) :=
  visitLoop T (it.rounds T) s it

/-- `for(auto it = rbegin(); it != rend(); ++it)`. -/
def scan (T : Nat) (s : Chunks V) : Except Fault (Chunks V × List V) := do
  let (s, it) ← s.rbegin T
  let (s, _, vs) ← s.visit T it
  return (s, vs)

/-! ### Operations -/

/-- The rounds of the loop of `push`. -/
def pushLoop (T : Nat) : Nat → Chunks V → V → Except Fault (Chunks V × ItemAccess)
  | 0, _, _ => .error .endless
  | fuel + 1, s, v =>
      match s.head with
      | none => pushLoop T fuel s.tryAllocateFirstItem v
      | some c =>
          let next := (s.chunk c).nextItem
          if next ≤ T then
            let s₁ := s.modify c fun b => { b with nextItem := next + 1 }
            if next < T then
              if (s.item c next).iterOffset ≠ 0 ∧ (s.item c next).refcount = 0 then
                acquireNextItem T (s₁.modify c fun b => b.assign next v) ⟨some c, some next, false⟩
              else .error .asserted
            else if next = T then pushLoop T fuel s₁.allocateItem v
            else pushLoop T fuel s₁ v
          else pushLoop T fuel s v

def push (T : Nat) (s : Chunks V) (v : V) : Except Fault (Chunks V × ItemAccess) := s.pushLoop T 2 v

/-- The offset that `remove` writes. -/
def removalOffset (s : Chunks V) (c j : Nat) : Nat :=
  if j = 0 then 1 else ((s.item c (j - 1)).iterOffset + 1) % wordSize

/-- `release_chunk`. -/
def releaseChunk (T : Nat) (s : Chunks V) (c : Nat) : Chunks V :=
  s.modify c fun b =>
    { b with
      freedItems := b.freedItems + 1
      deleted := b.deleted || b.freedItems == T - 1 }

def remove (T : Nat) (s : Chunks V) (pos : ItemAccess) : Except Fault (Chunks V) :=
  match pos.index T with
  | none => .error .thrown
  | some (c, j) =>
      let s₁ := s.setItem c j ((s.item c j).setOffset (s.removalOffset c j))
      if (s₁.item c j).releaseThrows then .error .thrown
      else .ok ((s₁.setItem c j (s₁.item c j).release).releaseChunk T c)

/-- The loop of `erase`. -/
def eraseLoop [BEq V] (T : Nat) (v : V) : Nat → Chunks V → ItemAccess → Except Fault (Chunks V)
  | 0, _, _ => .error .endless
  | fuel + 1, s, it =>
      match it.slot with
      | none => .ok s
      | some _ => do
          let w ← s.read T it
          let s ← (if w == v then s.remove T it else pure s)
          let (s, it) ← s.advance T it
          eraseLoop T v fuel s it

def erase [BEq V] (T : Nat) (s : Chunks V) (v : V) : Except Fault (Chunks V) := do
  let (s, it) ← s.rbegin T
  eraseLoop T v (it.rounds T) s it

end Chunks

end RedGrapes.ChunkedList
