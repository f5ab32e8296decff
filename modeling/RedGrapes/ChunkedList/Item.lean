/-
RedGrapes/ChunkedList/Item.lean

One slot of a `ChunkedList` (`util/chunked_list.hpp`): the atomics
`iter_offset` and `refcount`, and the functions `acquire` and `release` on
them, one atomic operation at a time.

`acquire` looks at the offset, looks at the count, increments the count and
looks at the offset again.  `remove` writes the offset and gives up the
reference the item starts with.  Whoever takes the count from zero to minus
one runs the destructor of the value.

Two windows are open:

* between the first two loads the item may be removed and destroyed; `acquire`
  then reads a negative count and returns the offset `0` it has read before.
  In all other runs `held_item_alive` holds.
* a failing `acquire` that has incremented the count keeps the last `release`
  from seeing zero, and takes its increment back without running the
  destructor.  In all other runs `removed_item_reclaimed` holds.
-/
import RedGrapes.Lib.Machine

namespace RedGrapes.ChunkedList

open Machine Function

/-! ### Items -/

/-- The range of `iter_offset_t = uint16_t` and of `refcount_t = int16_t`. -/
def wordSize : Nat := 65536

/-- `Item`.  `destroyed` counts the runs of the destructor of the value. -/
structure Item where
  iterOffset : Nat
  refcount : Int
  destroyed : Nat
deriving DecidableEq

namespace Item

/-- The constructor: the slot is not initialised yet. -/
def init : Item := ⟨1, 0, 0⟩

/-- `operator=` publishes the slot. -/
def assign (x : Item) : Item := { x with iterOffset := 0 }

/-- `refcount.fetch_add(1)`. -/
def fetchAdd (x : Item) : Item := { x with refcount := (x.refcount + 1).bmod wordSize }

/-- `refcount.fetch_sub(1)`. -/
def fetchSub (x : Item) : Item := { x with refcount := (x.refcount - 1).bmod wordSize }

/-- `release`: `fetch_sub`, and the destructor if the count was zero. -/
def release (x : Item) : Item :=
  { x.fetchSub with destroyed := if x.refcount = 0 then x.destroyed + 1 else x.destroyed }

/-- `release` throws if the count was negative. -/
def releaseThrows (x : Item) : Bool := decide (x.refcount < 0)

end Item

/-- The places in `acquire` before one of its atomic operations. -/
inductive Acquire
  | loadOffset
  | loadRefcount (off : Nat)
  | fetchAdd
  | reload (oldRefcount : Int)
  | undo (off : Nat)
deriving DecidableEq

/-- The next atomic operation of `acquire`, and the place after it or the value
it returns. -/
def Acquire.step (x : Item) : Acquire → Item × (Acquire ⊕ Nat)
  | loadOffset => (x, .inl (.loadRefcount x.iterOffset))
  | loadRefcount off => (x, if off = 0 ∧ 0 ≤ x.refcount then .inl .fetchAdd else .inr off)
  | fetchAdd => (x.fetchAdd, .inl (.reload x.refcount))
  | reload oldRefcount =>
      (x, if 0 ≤ oldRefcount ∧ x.iterOffset = 0 then .inr 0 else .inl (.undo x.iterOffset))
  | undo off => (x.fetchSub, .inr off)

/-! ### The threads around one item -/

/-- An iterator that comes by the item. -/
inductive Iter
  | idle
  | acquiring (a : Acquire)
  | holding
deriving DecidableEq

/-- The places in `remove`. -/
inductive Remover
  | waiting
  | stored
  | finished
deriving DecidableEq

/-- A published item, the iterators `ι` and the thread that removes it.
`thrown` counts the calls of `release` that throw. -/
structure ItemState (ι : Type) where
  item : Item
  thrown : Nat
  iter : ι → Iter
  remover : Remover

inductive ItemAction (ι : Type)
  | start (i : ι)
  | go (i : ι)
  | release (i : ι)
  | store (offset : Nat)
  | drop

namespace ItemState

variable {ι : Type} [DecidableEq ι]

omit [DecidableEq ι] in
/-- `release` by an iterator or by `remove`. -/
def afterRelease (s : ItemState ι) : ItemState ι :=
  { s with
    item := s.item.release
    thrown := if s.item.releaseThrows then s.thrown + 1 else s.thrown }

/-- Where an iterator is after an operation of `acquire`. -/
def afterAcquire : Acquire ⊕ Nat → Iter
  | .inl a => .acquiring a
  | .inr 0 => .holding
  | .inr (_ + 1) => .idle

def step (s : ItemState ι) : ItemAction ι → Option (ItemState ι)
  | .start i => match s.iter i with
    | .idle => some { s with iter := update s.iter i (.acquiring .loadOffset) }
    | _ => none
  | .go i => match s.iter i with
    | .acquiring a => some { s with
        item := (a.step s.item).1
        iter := update s.iter i (afterAcquire (a.step s.item).2) }
    | _ => none
  | .release i => match s.iter i with
    | .holding => some { s.afterRelease with iter := update s.iter i .idle }
    | _ => none
  | .store offset =>
      if s.remover = .waiting ∧ 0 < offset ∧ offset < wordSize then
        some { s with item := { s.item with iterOffset := offset }, remover := .stored }
      else none
  | .drop => match s.remover with
    | .stored => some { s.afterRelease with remover := .finished }
    | _ => none

/-- A published item that no iterator points at. -/
def initial (ι : Type) : ItemState ι where
  item := Item.init.assign
  thrown := 0
  iter _ := .idle
  remover := .waiting

/-! ### What a step does -/

/-- The steps, with the outcome of each load decided. -/
inductive Move (s : ItemState ι) : ItemAction ι → ItemState ι → Prop
  | start {i : ι} (hi : s.iter i = .idle) :
      Move s (.start i) { s with iter := update s.iter i (.acquiring .loadOffset) }
  | loadOffset {i : ι} (hi : s.iter i = .acquiring .loadOffset) :
      Move s (.go i) { s with
        iter := update s.iter i (.acquiring (.loadRefcount s.item.iterOffset)) }
  | gone {i : ι} {off : Nat} (hi : s.iter i = .acquiring (.loadRefcount (off + 1))) :
      Move s (.go i) { s with iter := update s.iter i .idle }
  | alive {i : ι} (hi : s.iter i = .acquiring (.loadRefcount 0)) (hr : 0 ≤ s.item.refcount) :
      Move s (.go i) { s with iter := update s.iter i (.acquiring .fetchAdd) }
  | dead {i : ι} (hi : s.iter i = .acquiring (.loadRefcount 0)) (hr : s.item.refcount < 0) :
      Move s (.go i) { s with iter := update s.iter i .holding }
  | fetchAdd {i : ι} (hi : s.iter i = .acquiring .fetchAdd) :
      Move s (.go i) { s with
        item := s.item.fetchAdd
        iter := update s.iter i (.acquiring (.reload s.item.refcount)) }
  | won {i : ι} {old : Int} (hi : s.iter i = .acquiring (.reload old)) (hold : 0 ≤ old)
      (hoff : s.item.iterOffset = 0) :
      Move s (.go i) { s with iter := update s.iter i .holding }
  | lost {i : ι} {old : Int} (hi : s.iter i = .acquiring (.reload old))
      (h : ¬ (0 ≤ old ∧ s.item.iterOffset = 0)) :
      Move s (.go i) { s with
        iter := update s.iter i (.acquiring (.undo s.item.iterOffset)) }
  | undo {i : ι} {off : Nat} (hi : s.iter i = .acquiring (.undo off)) :
      Move s (.go i) { s with
        item := s.item.fetchSub
        iter := update s.iter i (afterAcquire (.inr off)) }
  | release {i : ι} (hi : s.iter i = .holding) :
      Move s (.release i) { s.afterRelease with iter := update s.iter i .idle }
  | store {offset : Nat} (hr : s.remover = .waiting) (hpos : 0 < offset) :
      Move s (.store offset) { s with
        item := { s.item with iterOffset := offset }
        remover := .stored }
  | drop (hr : s.remover = .stored) :
      Move s .drop { s.afterRelease with remover := .finished }

theorem move_of_go {s : ItemState ι} {i : ι} {a : Acquire} (hi : s.iter i = .acquiring a) :
    Move s (.go i) { s with
      item := (a.step s.item).1
      iter := update s.iter i (afterAcquire (a.step s.item).2) } := by
  cases a with
  | loadOffset => exact .loadOffset hi
  | loadRefcount off =>
      cases off with
      | zero =>
          rcases Int.lt_or_le s.item.refcount 0 with hr | hr
          · simpa [Acquire.step, afterAcquire, not_le.mpr hr] using Move.dead hi hr
          · simpa [Acquire.step, afterAcquire, hr] using Move.alive hi hr
      | succ off => simpa [Acquire.step, afterAcquire] using Move.gone hi
  | fetchAdd => exact .fetchAdd hi
  | reload old =>
      by_cases h : 0 ≤ old ∧ s.item.iterOffset = 0
      · simpa [Acquire.step, afterAcquire, h] using Move.won hi h.1 h.2
      · simpa only [Acquire.step, afterAcquire, if_neg h] using Move.lost hi h
  | undo off => exact .undo hi

theorem step_move {s s' : ItemState ι} {a : ItemAction ι} (h : s.step a = some s') :
    Move s a s' := by
  cases a with
  | start i =>
      simp only [step] at h
      split at h
      · rename_i hi
        obtain rfl := Option.some.inj h
        exact .start hi
      · cases h
  | go i =>
      simp only [step] at h
      split at h
      · rename_i a hi
        obtain rfl := Option.some.inj h
        exact move_of_go hi
      · cases h
  | release i =>
      simp only [step] at h
      split at h
      · rename_i hi
        obtain rfl := Option.some.inj h
        exact .release hi
      · cases h
  | store offset =>
      simp only [step] at h
      split at h
      · rename_i hr
        obtain rfl := Option.some.inj h
        exact .store hr.1 hr.2.1
      · cases h
  | drop =>
      simp only [step] at h
      split at h
      · rename_i hr
        obtain rfl := Option.some.inj h
        exact .drop hr
      · cases h

/-! ### References -/

/-- An iterator that is not idle. -/
def active : Iter → Nat
  | .idle => 0
  | _ => 1

/-- An iterator whose increment is on the count. -/
def refs : Iter → Nat
  | .acquiring (.reload _) => 1
  | .acquiring (.undo _) => 1
  | .holding => 1
  | _ => 0

theorem refs_le_active (x : Iter) : refs x ≤ active x := by
  rcases x with _ | a | _
  · exact le_rfl
  · cases a <;> simp [refs, active]
  · exact le_rfl

/-- The reference that `remove` gives up. -/
def dropped : Remover → Nat
  | .finished => 1
  | _ => 0

variable [Fintype ι]

/-- There are fewer than `2^15` iterators at a time. -/
def few (s : ItemState ι) : ItemAction ι → Bool
  | .start _ => decide (weigh active s.iter + 1 < 32768)
  | _ => true

/-- An `acquire` that has read the offset `0` is about to read a negative
count. -/
def readsDead (s : ItemState ι) : ItemAction ι → Bool
  | .go i => match s.iter i with
    | .acquiring (.loadRefcount off) => decide (off = 0 ∧ s.item.refcount < 0)
    | _ => false
  | _ => false

/-- A failing `acquire` is about to take back the last reference of a value
that is not destroyed. -/
def undoesLast (s : ItemState ι) : ItemAction ι → Bool
  | .go i => match s.iter i with
    | .acquiring (.undo _) => decide (s.item.refcount = 0 ∧ s.item.destroyed = 0)
    | _ => false
  | _ => false

/-! ### A held item is alive -/

/-- What holds as long as no `acquire` takes a negative count for a live item:
the count is the number of references, and the value is destroyed when the last
one is gone. -/
structure Alive (s : ItemState ι) : Prop where
  count : s.item.refcount = weigh refs s.iter - dropped s.remover
  few : weigh active s.iter < 32768
  offset : s.item.iterOffset = 0 ↔ s.remover = .waiting
  negative : ∀ i old, s.iter i = .acquiring (.reload old) → old < 0 → s.remover ≠ .waiting
  undone : ∀ i off, s.iter i = .acquiring (.undo off) → off ≠ 0
  dead : 0 < s.item.destroyed → s.remover = .finished ∧ ∀ i, s.iter i ≠ .holding
  once : s.item.destroyed ≤ 1
  quiet : s.thrown = 0

section Invariants

variable {s s' : ItemState ι} {a : ItemAction ι} {i : ι}

theorem bmod_wordSize {x : Int} (h : -32768 ≤ x) (h' : x < 32768) : x.bmod wordSize = x := by
  refine Int.bmod_eq_of_le ?_ ?_
  · show -(65536 / 2 : Int) ≤ x
    omega
  · show x < (65536 + 1) / 2
    omega

omit [DecidableEq ι] in
theorem weigh_refs_le (s : ItemState ι) : weigh refs s.iter ≤ weigh active s.iter :=
  weigh_mono refs_le_active

/-- An iterator goes to another place, and the count goes with its reference. -/
theorem Alive.iterate (h : s.Alive) {x : Item} {p : Iter}
    (hoff : x.iterOffset = s.item.iterOffset) (hdes : x.destroyed = s.item.destroyed)
    (hcount : x.refcount + refs (s.iter i) = s.item.refcount + refs p)
    (hfew : weigh active (update s.iter i p) < 32768)
    (hneg : ∀ old, p = .acquiring (.reload old) → old < 0 → s.remover ≠ .waiting)
    (hundo : ∀ off, p = .acquiring (.undo off) → off ≠ 0)
    (hhold : p = .holding → s.item.destroyed = 0) :
    Alive { s with item := x, iter := update s.iter i p } where
  count := by
    have hw := weigh_update refs s.iter i p
    have hc := h.count
    show x.refcount = weigh refs (update s.iter i p) - dropped s.remover
    omega
  few := hfew
  offset := by
    rw [← h.offset, ← hoff]
  negative j old hj hlt := by
    rcases eq_or_ne j i with rfl | hne
    · exact hneg old (by simpa using hj) hlt
    · exact h.negative j old (by simpa [hne] using hj) hlt
  undone j off hj := by
    rcases eq_or_ne j i with rfl | hne
    · exact hundo off (by simpa using hj)
    · exact h.undone j off (by simpa [hne] using hj)
  dead hpos := by
    have hpos' : 0 < s.item.destroyed := by
      rw [← hdes]
      exact hpos
    refine ⟨(h.dead hpos').1, fun j hj => ?_⟩
    rcases eq_or_ne j i with rfl | hne
    · have := hhold (by simpa using hj)
      omega
    · exact (h.dead hpos').2 j (by simpa [hne] using hj)
  once := by
    show x.destroyed ≤ 1
    rw [hdes]
    exact h.once
  quiet := h.quiet

omit [DecidableEq ι] in
/-- The count stays within the range of `refcount_t`. -/
theorem Alive.range (h : s.Alive) : -1 ≤ s.item.refcount ∧ s.item.refcount < 32768 := by
  have hc := h.count
  have hle := weigh_refs_le s
  have hlt := h.few
  have hd : dropped s.remover ≤ 1 := by
    cases s.remover <;> simp [dropped]
  omega

/-- A place that counts the iterator only if the old one did. -/
theorem Alive.few_update (h : s.Alive) {p : Iter} (hp : active p ≤ active (s.iter i)) :
    weigh active (update s.iter i p) < 32768 := by
  have hw := weigh_update active s.iter i p
  have hlt := h.few
  omega

omit [DecidableEq ι] in
theorem Alive.initial : Alive (initial ι) where
  count := by
    have hz : weigh refs (fun _ : ι => Iter.idle) = 0 := weigh_eq_zero fun _ => rfl
    show (0 : Int) = weigh refs (fun _ : ι => Iter.idle) - (0 : Nat)
    rw [hz]
    rfl
  few := by
    have hz : weigh active (fun _ : ι => Iter.idle) = 0 := weigh_eq_zero fun _ => rfl
    show weigh active (fun _ : ι => Iter.idle) < 32768
    omega
  offset := ⟨fun _ => rfl, fun _ => rfl⟩
  negative _ _ h := by cases h
  undone _ _ h := by cases h
  dead h := by cases h
  once := Nat.zero_le 1
  quiet := rfl

omit [DecidableEq ι] in
/-- `release` by somebody who holds a reference: the count is not negative, and
zero only for the last reference. -/
theorem Alive.releases (h : s.Alive) {it : ι → Iter} {r : Remover}
    (hcount : weigh refs s.iter - dropped s.remover = weigh refs it - dropped r + (1 : Int))
    (hle : (dropped r : Int) ≤ weigh refs it + 1)
    (hfew : weigh active it ≤ weigh active s.iter)
    (hrem : r = .waiting ↔ s.remover = .waiting)
    (hiter : ∀ j, it j = s.iter j ∨ it j = .idle)
    (halive : s.item.destroyed = 0) :
    Alive { s.afterRelease with iter := it, remover := r } := by
  have hc := h.count
  have hr := h.range
  have hnonneg : 0 ≤ s.item.refcount := by omega
  have hsub : s.item.fetchSub.refcount = s.item.refcount - 1 := by
    show (s.item.refcount - 1).bmod wordSize = _
    exact bmod_wordSize (by omega) (by omega)
  have hold : ∀ {j p}, p ≠ .idle → it j = p → s.iter j = p := by
    intro j p hp hj
    rcases hiter j with e | e
    · rw [← e]
      exact hj
    · exact absurd (e.symm.trans hj).symm hp
  exact {
    count := by
      show s.item.fetchSub.refcount = weigh refs it - dropped r
      rw [hsub]
      omega
    few := by
      show weigh active it < 32768
      have := h.few
      omega
    offset := by
      show s.item.iterOffset = 0 ↔ r = .waiting
      rw [hrem]
      exact h.offset
    negative := by
      intro j old hj hlt
      have := h.negative j old (hold (by simp) hj) hlt
      exact fun e => this (hrem.mp e)
    undone := by
      intro j off hj
      exact h.undone j off (hold (by simp) hj)
    dead := by
      intro hpos
      have hpos' : 0 < if s.item.refcount = 0 then s.item.destroyed + 1 else s.item.destroyed :=
        hpos
      split at hpos'
      · rename_i hz
        -- the count is zero before: only the reference of `remove` has been given up
        have hw : weigh refs it + 1 = dropped r := by omega
        have hfin : r = .finished := by
          cases r <;> simp [dropped] at hw ⊢
        refine ⟨hfin, fun j hj => ?_⟩
        have hone : refs (it j) ≤ weigh refs it := le_weigh refs it j
        rw [show it j = .holding from hj] at hone
        rw [hfin] at hw
        simp only [refs, dropped] at hone hw
        omega
      · omega
    once := by
      show (if s.item.refcount = 0 then s.item.destroyed + 1 else s.item.destroyed) ≤ 1
      split <;> omega
    quiet := by
      show (if s.item.releaseThrows = true then s.thrown + 1 else s.thrown) = 0
      have hthrow : s.item.releaseThrows = false := decide_eq_false (by omega)
      rw [hthrow]
      exact h.quiet }

theorem Alive.step (h : s.Alive) (hfew : s.few a = true) (hok : s.readsDead a = false)
    (hs : s.step a = some s') : s'.Alive := by
  have hc := h.count
  have hr := h.range
  cases step_move hs with
  | @start i hi =>
      have hw := weigh_update active s.iter i (.acquiring .loadOffset)
      have hlt : weigh active s.iter + 1 < 32768 := by simpa [ItemState.few] using hfew
      rw [hi] at hw
      simp only [active] at hw
      exact h.iterate rfl rfl (by rw [hi]; rfl) (by omega) (by simp) (by simp) (by simp)
  | @loadOffset i hi =>
      exact h.iterate rfl rfl (by rw [hi]; rfl) (h.few_update (by rw [hi]; exact le_rfl)) (by simp)
        (by simp) (by simp)
  | @gone i off hi =>
      exact h.iterate rfl rfl (by rw [hi]; rfl) (h.few_update (Nat.zero_le _)) (by simp) (by simp)
        (by simp)
  | @alive i hi _ =>
      exact h.iterate rfl rfl (by rw [hi]; rfl) (h.few_update (by rw [hi]; exact le_rfl)) (by simp)
        (by simp) (by simp)
  | @dead i hi hneg =>
      simp [readsDead, hi, hneg] at hok
  | @fetchAdd i hi =>
      have hroom : weigh refs s.iter < 32767 := by
        have hw := weigh_update active s.iter i .idle
        have hle : weigh refs (update s.iter i .idle) ≤ weigh active (update s.iter i .idle) :=
          weigh_mono refs_le_active
        have hwr := weigh_update refs s.iter i .idle
        have hlt := h.few
        rw [hi] at hw hwr
        simp only [active, refs] at hw hwr
        omega
      have hadd : s.item.fetchAdd.refcount = s.item.refcount + 1 :=
        bmod_wordSize (by omega) (by omega)
      refine h.iterate rfl rfl ?_ (h.few_update (by rw [hi]; exact le_rfl)) ?_ (by simp) (by simp)
      · rw [hadd, hi]
        simp [refs]
      · intro old e hlt
        obtain rfl : s.item.refcount = old := by simpa using e
        intro hwait
        rw [hwait] at hc
        simp only [dropped] at hc
        omega
  | @won i old hi hold hoff =>
      refine h.iterate rfl rfl (by rw [hi]; rfl) (h.few_update (by rw [hi]; exact le_rfl)) (by simp)
        (by simp) fun _ => ?_
      -- the offset is still zero, so the item is not removed
      by_contra hne
      have := (h.dead (by omega)).1
      rw [h.offset.mp hoff] at this
      cases this
  | @lost i old hi hnot =>
      refine h.iterate rfl rfl (by rw [hi]; rfl) (h.few_update (by rw [hi]; exact le_rfl)) (by simp)
        ?_ (by simp)
      intro off e
      obtain rfl : s.item.iterOffset = off := by simpa using e
      intro hz
      have hlt : old < 0 := by
        by_contra hge
        exact hnot ⟨by omega, hz⟩
      exact h.negative i old hi hlt (h.offset.mp hz)
  | @undo i off hi =>
      have hne := h.undone i off hi
      have hpos : 1 ≤ weigh refs s.iter := by
        have := le_weigh refs s.iter i
        rw [hi] at this
        exact this
      have hsub : s.item.fetchSub.refcount = s.item.refcount - 1 :=
        bmod_wordSize (by omega) (by omega)
      obtain ⟨off, rfl⟩ := Nat.exists_eq_succ_of_ne_zero hne
      refine h.iterate rfl rfl ?_ (h.few_update (Nat.zero_le _)) ?_ ?_ ?_
      · rw [hsub, hi]
        simp [refs, afterAcquire]
      · simp [afterAcquire]
      · simp [afterAcquire]
      · simp [afterAcquire]
  | @release i hi =>
      have hw := weigh_update refs s.iter i .idle
      have hwa := weigh_update active s.iter i .idle
      rw [hi] at hw hwa
      simp only [refs, active] at hw hwa
      have hd : dropped s.remover ≤ 1 := by
        cases s.remover <;> simp [dropped]
      show Alive { s.afterRelease with iter := update s.iter i .idle, remover := s.remover }
      refine h.releases (by omega) (by omega) (by omega) Iff.rfl ?_ ?_
      · intro j
        rcases eq_or_ne j i with rfl | hne
        · exact .inr (update_self _ _ _)
        · exact .inl (update_of_ne hne _ _)
      · by_contra hne
        exact (h.dead (by omega)).2 i hi
  | @store offset hwait hpos =>
      have hns : s.item.destroyed = 0 := by
        by_contra hne
        have := (h.dead (by omega)).1
        rw [hwait] at this
        cases this
      exact {
        count := by
          rw [hwait] at hc
          exact hc
        few := h.few
        offset := by
          show offset = 0 ↔ Remover.stored = .waiting
          simp only [reduceCtorEq, iff_false]
          omega
        negative := by
          intro j old hj hlt
          simp
        undone := h.undone
        dead := fun hpos' => absurd hns (Nat.pos_iff_ne_zero.mp hpos')
        once := h.once
        quiet := h.quiet }
  | drop hst =>
      have hns : s.item.destroyed = 0 := by
        by_contra hne
        have := (h.dead (by omega)).1
        rw [hst] at this
        cases this
      show Alive { s.afterRelease with iter := s.iter, remover := .finished }
      refine h.releases ?_ ?_ le_rfl ?_ (fun j => .inl rfl) hns
      · rw [hst]
        simp [dropped]
      · simp [dropped]
      · rw [hst]
        simp

/-- As long as no `acquire` that has read the offset `0` reads a negative count,
a held item is not destroyed, no `release` throws and the value is destroyed at
most once. -/
theorem held_item_alive {s : ItemState ι}
    (h : Reaches step (fun s a => s.few a = true ∧ s.readsDead a = false) (initial ι) s) :
    (∀ i, s.iter i = .holding → s.item.destroyed = 0) ∧ s.thrown = 0 ∧ s.item.destroyed ≤ 1 := by
  have hinv : s.Alive := h.invariant Alive.initial fun _ _ _ hi hok hs => hi.step hok.1 hok.2 hs
  refine ⟨fun i hi => ?_, hinv.quiet, hinv.once⟩
  by_contra hne
  exact (hinv.dead (by omega)).2 i hi

/-- `acquire` from its start to its result `0`. -/
def acquired (i : Fin 2) : List (ItemAction (Fin 2)) := [.start i, .go i, .go i, .go i, .go i]

/-- The item is removed while an iterator holds it. -/
theorem held_item_alive_removed_under_iterator :
    ∃ s : ItemState (Fin 2), Reaches step (fun s a => s.few a = true ∧ s.readsDead a = false)
        (ItemState.initial (Fin 2)) s ∧
      s.iter 0 = .holding ∧ s.remover = .finished ∧ s.item.destroyed = 0 := by
  have hrun : (exec step (fun s a => s.few a = true ∧ s.readsDead a = false)
      (acquired 0 ++ [.store 1, .drop]) (ItemState.initial (Fin 2))).map
        (fun s => (s.iter 0, s.remover)) = some (.holding, .finished) := by
    decide +kernel
  obtain ⟨s, hs, hp⟩ := Option.map_eq_some_iff.mp hrun
  have hreach := Reaches.refl.of_exec hs
  obtain ⟨hi, hr⟩ := Prod.mk.inj hp
  exact ⟨s, hreach, hi, hr, (held_item_alive hreach).1 0 hi⟩

/-- The item is removed and destroyed between the two loads of `acquire`, which
then returns `0`; the `release` that belongs to it throws. -/
theorem destroyed_item_acquired :
    ∃ s s' : ItemState (Fin 2), Reaches step (fun s a => s.few a = true) (ItemState.initial (Fin 2)) s ∧
      s.iter 0 = .holding ∧ s.item.destroyed = 1 ∧ s.step (.release 0) = some s' ∧ s'.thrown = 1 := by
  have hrun : ((exec step (fun s a => s.few a = true) [.start 0, .go 0, .store 1, .drop, .go 0]
      (ItemState.initial (Fin 2))).bind fun s => (s.step (.release 0)).map fun s' =>
        (s.iter 0, s.item.destroyed, s'.thrown)) = some (.holding, 1, 1) := by
    decide +kernel
  obtain ⟨s, hs, hrest⟩ := Option.bind_eq_some_iff.mp hrun
  obtain ⟨s', hs', hp⟩ := Option.map_eq_some_iff.mp hrest
  obtain ⟨hi, hp⟩ := Prod.mk.inj hp
  obtain ⟨hd, ht⟩ := Prod.mk.inj hp
  exact ⟨s, s', Reaches.refl.of_exec hs, hi, hd, hs', ht⟩

/-! ### A removed item is reclaimed -/

omit [DecidableEq ι] in
/-- What holds as long as no failing `acquire` takes back the last reference:
while the value lives, the count is the number of references and not
negative. -/
structure Counted (s : ItemState ι) : Prop where
  few : weigh active s.iter < 32768
  count : s.item.destroyed = 0 →
    s.item.refcount = weigh refs s.iter - dropped s.remover ∧ 0 ≤ s.item.refcount
  negative : ∀ i old, s.iter i = .acquiring (.reload old) → old < 0 → 0 < s.item.destroyed
  undone : ∀ i, s.iter i = .acquiring (.undo 0) → 0 < s.item.destroyed

theorem Counted.iterate (h : s.Counted) {x : Item} {p : Iter}
    (hdes : x.destroyed = s.item.destroyed)
    (hcount : s.item.destroyed = 0 →
      x.refcount + refs (s.iter i) = s.item.refcount + refs p ∧ 0 ≤ x.refcount)
    (hfew : weigh active (update s.iter i p) < 32768)
    (hneg : ∀ old, p = .acquiring (.reload old) → old < 0 → 0 < s.item.destroyed)
    (hundo : p = .acquiring (.undo 0) → 0 < s.item.destroyed) :
    Counted { s with item := x, iter := update s.iter i p } where
  few := hfew
  count hz := by
    have hz' : s.item.destroyed = 0 := by
      rw [← hdes]
      exact hz
    have hw := weigh_update refs s.iter i p
    obtain ⟨hc, -⟩ := h.count hz'
    obtain ⟨hx, hnonneg⟩ := hcount hz'
    refine ⟨?_, hnonneg⟩
    show x.refcount = weigh refs (update s.iter i p) - dropped s.remover
    omega
  negative j old hj hlt := by
    show 0 < x.destroyed
    rw [hdes]
    rcases eq_or_ne j i with rfl | hne
    · exact hneg old (by simpa using hj) hlt
    · exact h.negative j old (by simpa [hne] using hj) hlt
  undone j hj := by
    show 0 < x.destroyed
    rw [hdes]
    rcases eq_or_ne j i with rfl | hne
    · exact hundo (by simpa using hj)
    · exact h.undone j (by simpa [hne] using hj)

theorem Counted.few_update (h : s.Counted) {p : Iter} (hp : active p ≤ active (s.iter i)) :
    weigh active (update s.iter i p) < 32768 := by
  have hw := weigh_update active s.iter i p
  have hlt := h.few
  omega

omit [DecidableEq ι] in
theorem Counted.initial : Counted (initial ι) where
  few := Alive.initial.few
  count _ := ⟨Alive.initial.count, le_rfl⟩
  negative _ _ h := by cases h
  undone _ h := by cases h

omit [DecidableEq ι] in
/-- A `release` that does not find zero leaves the value alive and the count
balanced. -/
theorem Counted.releases (h : s.Counted) {it : ι → Iter} {r : Remover}
    (hcount : weigh refs s.iter - dropped s.remover = weigh refs it - dropped r + (1 : Int))
    (hfew : weigh active it ≤ weigh active s.iter)
    (hiter : ∀ j, it j = s.iter j ∨ it j = .idle) :
    Counted { s.afterRelease with iter := it, remover := r } := by
  have hold : ∀ {j p}, p ≠ .idle → it j = p → s.iter j = p := by
    intro j p hp hj
    rcases hiter j with e | e
    · rw [← e]
      exact hj
    · exact absurd (e.symm.trans hj).symm hp
  have hmono : 0 < s.item.destroyed → 0 < s.item.release.destroyed := by
    intro hpos
    show 0 < if s.item.refcount = 0 then s.item.destroyed + 1 else s.item.destroyed
    split <;> omega
  exact {
    few := by
      show weigh active it < 32768
      have := h.few
      omega
    count := by
      intro hz
      have hz' : (if s.item.refcount = 0 then s.item.destroyed + 1 else s.item.destroyed) = 0 := hz
      split at hz'
      · omega
      · rename_i hne
        obtain ⟨hc, hnonneg⟩ := h.count hz'
        have hlt := h.few
        have hle := weigh_refs_le s
        have hsub : s.item.release.refcount = s.item.refcount - 1 :=
          bmod_wordSize (by omega) (by omega)
        show s.item.release.refcount = weigh refs it - dropped r ∧ 0 ≤ s.item.release.refcount
        omega
    negative := by
      intro j old hj hlt
      exact hmono (h.negative j old (hold (by simp) hj) hlt)
    undone := by
      intro j hj
      exact hmono (h.undone j (hold (by simp) hj)) }

theorem Counted.step (h : s.Counted) (hfew : s.few a = true) (hok : s.undoesLast a = false)
    (hs : s.step a = some s') : s'.Counted := by
  have hle := weigh_refs_le s
  have hlt := h.few
  cases step_move hs with
  | @start i hi =>
      have hw := weigh_update active s.iter i (.acquiring .loadOffset)
      have hroom : weigh active s.iter + 1 < 32768 := by simpa [ItemState.few] using hfew
      rw [hi] at hw
      simp only [active] at hw
      exact h.iterate rfl (fun hz => ⟨by rw [hi]; rfl, (h.count hz).2⟩) (by omega) (by simp) (by simp)
  | @loadOffset i hi =>
      exact h.iterate rfl (fun hz => ⟨by rw [hi]; rfl, (h.count hz).2⟩)
        (h.few_update (by rw [hi]; exact le_rfl)) (by simp) (by simp)
  | @gone i off hi =>
      exact h.iterate rfl (fun hz => ⟨by rw [hi]; rfl, (h.count hz).2⟩)
        (h.few_update (Nat.zero_le _)) (by simp) (by simp)
  | @alive i hi _ =>
      exact h.iterate rfl (fun hz => ⟨by rw [hi]; rfl, (h.count hz).2⟩)
        (h.few_update (by rw [hi]; exact le_rfl)) (by simp) (by simp)
  | @dead i hi hneg =>
      -- the count is negative, so the value is already destroyed
      refine h.iterate rfl (fun hz => ?_) (h.few_update (by rw [hi]; exact le_rfl)) (by simp)
        (by simp)
      have := (h.count hz).2
      omega
  | @fetchAdd i hi =>
      have hroom : weigh refs s.iter < 32767 := by
        have hw := weigh_update active s.iter i .idle
        have hwr := weigh_update refs s.iter i .idle
        have hle' : weigh refs (update s.iter i .idle) ≤ weigh active (update s.iter i .idle) :=
          weigh_mono refs_le_active
        rw [hi] at hw hwr
        simp only [active, refs] at hw hwr
        omega
      refine h.iterate rfl (fun hz => ?_) (h.few_update (by rw [hi]; exact le_rfl)) ?_ (by simp)
      · obtain ⟨hc, hnonneg⟩ := h.count hz
        have hadd : s.item.fetchAdd.refcount = s.item.refcount + 1 :=
          bmod_wordSize (by omega) (by omega)
        rw [hadd, hi]
        simp only [refs]
        omega
      · intro old e hneg
        obtain rfl : s.item.refcount = old := by simpa using e
        by_contra hne
        have := (h.count (by omega)).2
        omega
  | @won i old hi hold hoff =>
      exact h.iterate rfl (fun hz => ⟨by rw [hi]; rfl, (h.count hz).2⟩)
        (h.few_update (by rw [hi]; exact le_rfl)) (by simp) (by simp)
  | @lost i old hi hnot =>
      refine h.iterate rfl (fun hz => ⟨by rw [hi]; rfl, (h.count hz).2⟩)
        (h.few_update (by rw [hi]; exact le_rfl)) (by simp) ?_
      intro e
      have hz : s.item.iterOffset = 0 := by simpa using e
      have hneg : old < 0 := by
        by_contra hge
        exact hnot ⟨by omega, hz⟩
      exact h.negative i old hi hneg
  | @undo i off hi =>
      have hp : ∀ q, afterAcquire (.inr off) ≠ .acquiring q := by
        cases off <;> simp [afterAcquire]
      refine h.iterate rfl (fun hz => ?_) (h.few_update ?_) (fun old e => absurd e (hp _))
        fun e => absurd e (hp _)
      · obtain ⟨hc, hnonneg⟩ := h.count hz
        have hne : s.item.refcount ≠ 0 := by simpa [undoesLast, hi, hz] using hok
        have hoff : off ≠ 0 := by
          rintro rfl
          have := h.undone i hi
          omega
        obtain ⟨off, rfl⟩ := Nat.exists_eq_succ_of_ne_zero hoff
        have hsub : s.item.fetchSub.refcount = s.item.refcount - 1 :=
          bmod_wordSize (by omega) (by omega)
        rw [hsub, hi]
        simp only [refs, afterAcquire]
        omega
      · rw [hi]
        cases off <;> simp [afterAcquire, active]
  | @release i hi =>
      have hw := weigh_update refs s.iter i .idle
      have hwa := weigh_update active s.iter i .idle
      rw [hi] at hw hwa
      simp only [refs, active] at hw hwa
      show Counted { s.afterRelease with iter := update s.iter i .idle, remover := s.remover }
      refine h.releases (by omega) (by omega) fun j => ?_
      rcases eq_or_ne j i with rfl | hne
      · exact .inr (update_self _ _ _)
      · exact .inl (update_of_ne hne _ _)
  | @store offset hwait hpos =>
      refine ⟨h.few, fun hz => ?_, h.negative, h.undone⟩
      have := h.count hz
      rw [hwait] at this
      exact this
  | drop hst =>
      show Counted { s.afterRelease with iter := s.iter, remover := .finished }
      refine h.releases ?_ le_rfl fun j => .inl rfl
      rw [hst]
      simp [dropped]

/-- As long as no failing `acquire` takes back the last reference of a living
value, a removed item that no iterator is at has been destroyed. -/
theorem removed_item_reclaimed {s : ItemState ι}
    (h : Reaches step (fun s a => s.few a = true ∧ s.undoesLast a = false) (initial ι) s)
    (hremoved : s.remover = .finished) (hidle : ∀ i, s.iter i = .idle) :
    0 < s.item.destroyed := by
  have hinv : s.Counted :=
    h.invariant Counted.initial fun _ _ _ hi hok hs => hi.step hok.1 hok.2 hs
  have hz : weigh refs s.iter = 0 := weigh_eq_zero fun i => by rw [hidle i]; rfl
  by_contra hne
  obtain ⟨hc, hnonneg⟩ := hinv.count (by omega)
  rw [hremoved, hz] at hc
  simp only [dropped] at hc
  omega

/-- The last iterator releases the item after it was removed. -/
theorem removed_item_reclaimed_by_iterator :
    ∃ s : ItemState (Fin 2), Reaches step (fun s a => s.few a = true ∧ s.undoesLast a = false)
        (ItemState.initial (Fin 2)) s ∧
      s.remover = .finished ∧ (∀ i, s.iter i = .idle) ∧ 0 < s.item.destroyed := by
  have hrun : (exec step (fun s a => s.few a = true ∧ s.undoesLast a = false)
      (acquired 0 ++ [.store 1, .drop, .release 0]) (ItemState.initial (Fin 2))).map
        (fun s => (s.remover, s.iter 0, s.iter 1)) = some (.finished, .idle, .idle) := by
    decide +kernel
  obtain ⟨s, hs, hp⟩ := Option.map_eq_some_iff.mp hrun
  have hreach := Reaches.refl.of_exec hs
  obtain ⟨hr, hp⟩ := Prod.mk.inj hp
  obtain ⟨h0, h1⟩ := Prod.mk.inj hp
  have hidle : ∀ i, s.iter i = .idle := by
    intro i
    match i with
    | 0 => exact h0
    | 1 => exact h1
  exact ⟨s, hreach, hr, hidle, removed_item_reclaimed hreach hr hidle⟩

/-- The item is removed while `acquire` has its increment on the count: `remove`
finds one, `acquire` goes back to minus one, and nobody destroys the value. -/
theorem removed_item_leaked :
    ∃ s : ItemState (Fin 2), Reaches step (fun s a => s.few a = true) (ItemState.initial (Fin 2)) s ∧
      s.remover = .finished ∧ (∀ i, s.iter i = .idle) ∧ s.item.destroyed = 0 := by
  have hrun : (exec step (fun s a => s.few a = true)
      [.start 0, .go 0, .go 0, .go 0, .store 1, .drop, .go 0, .go 0] (ItemState.initial (Fin 2))).map
        (fun s => (s.remover, s.iter 0, s.iter 1, s.item.destroyed)) =
          some (.finished, .idle, .idle, 0) := by
    decide +kernel
  obtain ⟨s, hs, hp⟩ := Option.map_eq_some_iff.mp hrun
  obtain ⟨hr, hp⟩ := Prod.mk.inj hp
  obtain ⟨h0, hp⟩ := Prod.mk.inj hp
  obtain ⟨h1, hd⟩ := Prod.mk.inj hp
  refine ⟨s, Reaches.refl.of_exec hs, hr, fun i => ?_, hd⟩
  match i with
  | 0 => exact h0
  | 1 => exact h1

end Invariants

end ItemState

end RedGrapes.ChunkedList
