/-
RedGrapes/ChunkedList/Concurrent.lean

A `ChunkedList` that any number of threads push to and remove from, with one
backward scan, one atomic operation at a time.

A push reserves a slot with `fetch_add`, publishes it with `iter_offset = 0` and
returns an iterator that holds it; the thread that overflows a chunk appends the
next one.  `remove` is called with the iterator that a push returned.  The scan
does what `for(auto it = rbegin(); it != rend(); ++it)` does.

The elements are the calls of `push`: `(i, k)` is the `k`-th of thread `i`.
What the threads know of the list is in their places; what only the proofs need
is in `phase`, `kept`, `writes`, `before` and `visited`.
-/
import RedGrapes.ChunkedList.Sequential

namespace RedGrapes.ChunkedList

open Function Machine

/-! ### The model -/

/-- The places in `push` and `remove` before an atomic operation. -/
inductive Place
  | idle
  | loadHead
  | loadNext (c : Nat)
  | fetchAdd (c : Nat)
  | publish (c j : Nat)
  | acquire (c j : Nat) (a : Acquire)
  | allocate
  | loadOld (n : Nat)
  | storePrev (n : Nat) (old : Option Nat)
  | casHead (n : Nat) (old : Option Nat)
  | allocateFirst
  | casFirst (n : Nat)
  | loadNeighbour (c j : Nat)
  | storeOffset (c j off : Nat)
  | release (c j : Nat)
  | freed (c j : Nat)
  | flag (c : Nat)
deriving DecidableEq

/-- The places in the scan before an atomic operation.  In the places of
`skip_deleted_prev` the first argument is the chunk whose pointer is moved. -/
inductive Scan
  | waiting
  | lastItem (c : Nat)
  | acquire (c j : Nat) (a : Acquire)
  | visiting (c j : Nat)
  | loadPrev (c q : Nat)
  | checkDeleted (c : Nat) (p : Option Nat)
  | storePrev (c : Nat) (p : Option Nat)
  | readPrev (c : Nat)
  | done
  | thrown
deriving DecidableEq

/-- What has happened to the element in a slot: its push has not returned, it is
in the list, `remove` was called, its reference is given up, its slot is counted
in `freed_items`. -/
inductive Phase
  | new
  | live
  | removing
  | released
  | freed
deriving DecidableEq

/-- The list and its users.  `kept` are the slots whose push still has its
reference, `before` those whose push had returned when the scan began. -/
structure Crowd (ι : Type) where
  chunks : Chunks (ι × Nat)
  place : ι → Place
  calls : ι → Nat
  writes : Nat → Nat → Nat
  phase : Nat → Nat → Phase
  kept : Nat → Nat → Bool
  scan : Scan
  before : Nat → Nat → Bool
  visited : List (Nat × Nat)

inductive CrowdAction (ι : Type)
  | push (i : ι)
  | remove (i : ι) (c j : Nat)
  | drop (c j : Nat)
  | go (i : ι)
  | rbegin
  | look

/-- Change a table at one place. -/
def update₂ {β : Type} (f : Nat → Nat → β) (c j : Nat) (v : β) : Nat → Nat → β :=
  update f c (update (f c) j v)

/-- Whether an `acquire` has its increment on the count. -/
def Acquire.holds : Acquire → Bool
  | .reload _ => true
  | .undo _ => true
  | _ => false

namespace Crowd

variable {ι : Type}

/-- A new chunk that is not linked yet. -/
def allocated (s : Crowd ι) : Crowd ι :=
  { s with chunks :=
      { s.chunks with
        chunk := update s.chunks.chunk s.chunks.fresh Chunk.init
        fresh := s.chunks.fresh + 1 } }

/-- The next atomic operation of thread `i` at a place: the shared state and the
place after it. -/
def trans (T : Nat) (s : Crowd ι) (i : ι) : Place → Option (Crowd ι × Place)
  | .idle => none
  | .loadHead => match s.chunks.head with
    | none => some (s, .allocateFirst)
    | some c => some (s, .loadNext c)
  | .loadNext c =>
      some (s, if (s.chunks.chunk c).nextItem ≤ T then .fetchAdd c else .loadHead)
  | .fetchAdd c =>
      let next := (s.chunks.chunk c).nextItem
      some ({ s with chunks := s.chunks.modify c fun b => { b with nextItem := b.nextItem + 1 } },
        if next < T then .publish c next else if next = T then .allocate else .loadHead)
  | .publish c j =>
      some ({ s with
          chunks := s.chunks.modify c fun b => b.assign j (i, s.calls i - 1)
          writes := update₂ s.writes c j (s.writes c j + 1) },
        .acquire c j .loadOffset)
  | .acquire c j a =>
      let s₁ := { s with
        chunks := s.chunks.setItem c j (a.step (s.chunks.item c j)).1
        kept := if a = .fetchAdd then update₂ s.kept c j true else s.kept }
      match (a.step (s.chunks.item c j)).2 with
      | .inl b => some (s₁, .acquire c j b)
      | .inr 0 => some ({ s₁ with phase := update₂ s.phase c j .live }, .idle)
      | .inr (_ + 1) => none
  | .allocate => some (s.allocated, .loadOld s.chunks.fresh)
  | .loadOld n => some (s, .storePrev n s.chunks.head)
  | .storePrev n old =>
      some ({ s with chunks := s.chunks.modify n fun b => { b with prev := old } }, .casHead n old)
  | .casHead n old =>
      if s.chunks.head = old then
        some ({ s with chunks := { s.chunks with head := some n } }, .loadHead)
      else some (s, .loadOld n)
  | .allocateFirst => some (s.allocated, .casFirst s.chunks.fresh)
  | .casFirst n =>
      if s.chunks.head = none then
        some ({ s with chunks := { s.chunks with head := some n } }, .loadHead)
      else some (s, .loadHead)
  | .loadNeighbour c j => some (s, .storeOffset c j (s.chunks.removalOffset c j))
  | .storeOffset c j off =>
      some ({ s with chunks := s.chunks.setItem c j ((s.chunks.item c j).setOffset off) },
        .release c j)
  | .release c j =>
      let s₁ := { s with chunks := s.chunks.setItem c j (s.chunks.item c j).release }
      if (s.chunks.item c j).releaseThrows then some (s₁, .idle)
      else some ({ s₁ with phase := update₂ s.phase c j .released }, .freed c j)
  | .freed c j =>
      some ({ s with
          chunks := s.chunks.modify c fun b => { b with freedItems := b.freedItems + 1 }
          phase := update₂ s.phase c j .freed },
        if (s.chunks.chunk c).freedItems = T - 1 then .flag c else .idle)
  | .flag c =>
      some ({ s with chunks := s.chunks.modify c fun b => { b with deleted := true } }, .idle)

/-- Where the scan goes on after the slot `j` of chunk `c`. -/
def onward (c : Nat) : Nat → Scan
  | 0 => .loadPrev c c
  | j + 1 => .acquire c j .loadOffset

/-- The next atomic operation of the scan. -/
def look (T : Nat) (s : Crowd ι) : Scan → Option (Crowd ι)
  | .waiting => none
  | .lastItem c => match (s.chunks.chunk c).getLastItem T with
    | none => some { s with scan := .done }
    | some j => some { s with scan := .acquire c j .loadOffset }
  | .acquire c j a =>
      let s₁ := { s with chunks := s.chunks.setItem c j (a.step (s.chunks.item c j)).1 }
      match (a.step (s.chunks.item c j)).2 with
      | .inl b => some { s₁ with scan := .acquire c j b }
      | .inr 0 => some { s₁ with scan := .visiting c j, visited := (c, j) :: s.visited }
      | .inr (d + 1) =>
          if d + 1 ≤ j then some { s₁ with scan := .acquire c (j - (d + 1)) .loadOffset }
          else some { s₁ with scan := .loadPrev c c }
  | .visiting c j =>
      some { s with
        chunks := s.chunks.setItem c j (s.chunks.item c j).release
        scan := if (s.chunks.item c j).releaseThrows then .thrown else onward c j }
  | .loadPrev c q => some { s with scan := .checkDeleted c (s.chunks.chunk q).prev }
  | .checkDeleted c none => some { s with scan := .storePrev c none }
  | .checkDeleted c (some p) =>
      some { s with
        scan := if (s.chunks.chunk p).deleted then .loadPrev c p else .storePrev c (some p) }
  | .storePrev c p =>
      some { s with
        chunks := s.chunks.modify c fun b => { b with prev := p }
        scan := .readPrev c }
  | .readPrev c => match (s.chunks.chunk c).prev with
    | none => some { s with scan := .done }
    | some p => some { s with scan := .lastItem p }
  | .done => none
  | .thrown => none

variable [DecidableEq ι]

def step (T : Nat) (s : Crowd ι) : CrowdAction ι → Option (Crowd ι)
  | .push i =>
      if s.place i = .idle then
        some { s with
          place := update s.place i .loadHead
          calls := update s.calls i (s.calls i + 1) }
      else none
  | .remove i c j =>
      if s.place i = .idle ∧ s.phase c j = .live ∧ s.kept c j = true then
        some { s with
          place := update s.place i (.loadNeighbour c j)
          phase := update₂ s.phase c j .removing }
      else none
  | .drop c j =>
      if s.kept c j = true ∧ (s.phase c j = .live ∨ s.phase c j = .freed) then
        some { s with
          chunks := s.chunks.setItem c j (s.chunks.item c j).release
          kept := update₂ s.kept c j false }
      else none
  | .go i => (s.trans T i (s.place i)).map fun r => { r.1 with place := update s.place i r.2 }
  | .rbegin =>
      if s.scan = .waiting then
        some { s with
          before := fun c j => decide (s.phase c j ≠ .new)
          scan := match s.chunks.head with
            | none => .done
            | some c => .lastItem c }
      else none
  | .look => s.look T s.scan

/-- An empty list that nobody uses. -/
def initial (ι : Type) : Crowd ι where
  chunks := Chunks.empty
  place _ := .idle
  calls _ := 0
  writes _ _ := 0
  phase _ _ := .new
  kept _ _ := false
  scan := .waiting
  before _ _ := false
  visited := []

/-! ### The condition -/

/-- `remove` reads the distance of a neighbour that is published, and writes a
distance that fits its word. -/
def CarefulAt (s : Crowd ι) : Place → Prop
  | .loadNeighbour c j =>
      (j ≠ 0 → ((s.chunks.chunk c).value (j - 1)).isSome = true) ∧ s.chunks.removalOffset c j ≠ 0
  | _ => True

/-- The scan does not find a chunk without a reserved slot, and no negative count
at an item it takes for a live one. -/
def CarefulLook (s : Crowd ι) : Scan → Prop
  | .lastItem c => (s.chunks.chunk c).nextItem ≠ 0
  | .acquire c j (.loadRefcount 0) => 0 ≤ (s.chunks.item c j).refcount
  | _ => True

def Careful (s : Crowd ι) : CrowdAction ι → Prop
  | .go i => s.CarefulAt (s.place i)
  | .look => s.CarefulLook s.scan
  | _ => True

omit [DecidableEq ι] in
instance (s : Crowd ι) (p : Place) : Decidable (s.CarefulAt p) := by
  cases p <;> dsimp only [CarefulAt] <;> infer_instance

omit [DecidableEq ι] in
instance (s : Crowd ι) (x : Scan) : Decidable (s.CarefulLook x) := by
  unfold CarefulLook
  split <;> infer_instance

omit [DecidableEq ι] in
instance (s : Crowd ι) : ∀ a, Decidable (s.Careful a)
  | .go i => inferInstanceAs (Decidable (s.CarefulAt (s.place i)))
  | .look => inferInstanceAs (Decidable (s.CarefulLook s.scan))
  | .push _ => inferInstanceAs (Decidable True)
  | .remove _ _ _ => inferInstanceAs (Decidable True)
  | .drop _ _ => inferInstanceAs (Decidable True)
  | .rbegin => inferInstanceAs (Decidable True)

end Crowd

end RedGrapes.ChunkedList
