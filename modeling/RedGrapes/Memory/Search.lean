/-
RedGrapes/Memory/Search.lean

`deallocate` finds the chunk of its block, whatever other threads do to the list.

The allocator uses the list of chunks in a certain way: `allocate` appends chunks, `deallocate`
goes through the list with two iterators, flags a chunk and moves one link.  So every run of the
allocator is a run of the list of `Memory/AtomicList.lean`, with two of its threads for each
thread here (`Follows.step`), and the invariant of the list holds of the allocator.  The ranks of
the chunks say how far a search has come: the chunk of the block is below the iterator
(`Ahead`), because it is not flagged and links pass over flagged chunks only.

* `allocator_concurrent` — what the allocator promises to any number of threads: no byte belongs
  to two blocks in use, every block lies in the memory of its chunk, which has not been given
  back, and every `deallocate` finds that chunk.
-/
import RedGrapes.Memory.Bytes
import RedGrapes.Memory.AtomicList
import RedGrapes.Lib.Simulation

namespace RedGrapes.Memory

open Function Machine Links

/-! ### The list below the allocator -/

namespace Place

/-- The place in the list of the iterator `it`, or of the new chunk. -/
def onIt : Place → AtomicList.Place
  | .loadOld _ c => .loadHead c
  | .storePrev _ c old => .storePrev c old
  | .cas _ c old => .swap c old
  | .loadPrev (some _) c => .loadPrev c true
  | .skip (some _) c p => .test c true p
  | .storeSkip (some _) c p => .store c true p
  | .advance _ c => .next c
  | _ => .idle

/-- The place in the list of the iterator `prev`. -/
def onPrev : Place → AtomicList.Place
  | .loadPrev none c => .loadPrev c false
  | .skip none c p => .test c false p
  | .storeSkip none c p => .store c false p
  | _ => .idle

/-- Where the two iterators are. -/
def Iters (it prev : Option Nat) : Place → Prop
  | .itHead _ q => prev = q
  | .visit _ q c => it = c ∧ prev = q
  | .countDown _ q c => it = some c ∧ prev = q
  | .testFull q c => it = some c ∧ prev = q
  | .flag q c => it = some c ∧ prev = q
  | .loadPrev (some _) c => prev = some c
  | .skip (some _) c _ => prev = some c
  | .storeSkip (some _) c _ => prev = some c
  | .advance _ c => prev = some c
  | _ => True

end Place

namespace Arena

variable {ι : Type}

/-- The list of the allocator, with the threads `(i, false)` and `(i, true)` for the iterators
`it` and `prev` of thread `i`. -/
structure Follows (s : Arena ι) (l : AtomicList.State (ι × Bool)) : Prop where
  head : l.head = s.head
  prev : ∀ c, l.prev c = (s.node c).prev
  deleted : ∀ c, l.deleted c = (s.node c).deleted
  fresh : l.fresh = s.fresh
  places : ∀ i, l.place (i, false) = (s.place i).onIt ∧ l.place (i, true) = (s.place i).onPrev
  iters : ∀ i, (s.place i).Iters (l.iter (i, false)) (l.iter (i, true))
  unused : ∀ c, s.fresh ≤ c → (s.node c).deleted = false

variable [DecidableEq ι] {L : Layout} {capacity : Nat} {s s' : Arena ι}
  {l l' : AtomicList.State (ι × Bool)} {i : ι} {p : Place}

/-- Thread `i` goes to the place `p`, and so do its two threads in the list. -/
theorem Follows.go (h : Follows s l) (hplace : s'.place = update s.place i p)
    (hhead : l'.head = s'.head) (hprev : ∀ c, l'.prev c = (s'.node c).prev)
    (hdeleted : ∀ c, l'.deleted c = (s'.node c).deleted) (hfresh : l'.fresh = s'.fresh)
    (hothers : ∀ j b, j ≠ i → l'.place (j, b) = l.place (j, b) ∧ l'.iter (j, b) = l.iter (j, b))
    (hi : l'.place (i, false) = p.onIt ∧ l'.place (i, true) = p.onPrev)
    (hiters : p.Iters (l'.iter (i, false)) (l'.iter (i, true)))
    (hunused : ∀ c, s'.fresh ≤ c → (s'.node c).deleted = false) : Follows s' l' where
  head := hhead
  prev := hprev
  deleted := hdeleted
  fresh := hfresh
  places := by
    intro j
    rw [place_update hplace]
    split
    · rename_i e
      exact e ▸ hi
    · rename_i e
      rw [(hothers j false e).1, (hothers j true e).1]
      exact h.places j
  iters := by
    intro j
    rw [place_update hplace]
    split
    · rename_i e
      exact e ▸ hiters
    · rename_i e
      rw [(hothers j false e).2, (hothers j true e).2]
      exact h.iters j
  unused := hunused

/-- A step that the list does not see. -/
theorem Follows.silent (h : Follows s l) (hplace : s'.place = update s.place i p)
    (hhead : s'.head = s.head) (hnode : ∀ c, (s'.node c).prev = (s.node c).prev ∧
      (s'.node c).deleted = (s.node c).deleted) (hfresh : s'.fresh = s.fresh)
    (hi : p.onIt = (s.place i).onIt ∧ p.onPrev = (s.place i).onPrev)
    (hiters : p.Iters (l.iter (i, false)) (l.iter (i, true))) : Follows s' l := by
  refine h.go hplace (h.head.trans hhead.symm) (fun c => (h.prev c).trans (hnode c).1.symm)
    (fun c => (h.deleted c).trans (hnode c).2.symm) (h.fresh.trans hfresh.symm)
    (fun _ _ _ => ⟨rfl, rfl⟩) ?_ hiters fun c hc => ?_
  · rw [hi.1, hi.2]
    exact h.places i
  · rw [(hnode c).2]
    exact h.unused c (hfresh ▸ hc)

omit [DecidableEq ι] in
theorem pair_ne {j : ι} {b b' : Bool} (hj : j ≠ i) : (j, b) ≠ (i, b') := fun e =>
  hj (congrArg Prod.fst e)

/-- A step that changes nothing but the place of one thread of the list. -/
theorem Follows.goto (h : Follows s l) (b : Bool) {pc : AtomicList.Place}
    (hplace : s'.place = update s.place i p) (hhead : s'.head = s.head) (hnode : s'.node = s.node)
    (hfresh : s'.fresh = s.fresh)
    (hi : p.onIt = (if b then (s.place i).onIt else pc) ∧
      p.onPrev = (if b then pc else (s.place i).onPrev))
    (hiters : p.Iters (l.iter (i, false)) (l.iter (i, true))) : Follows s' (l.goto (i, b) pc) := by
  refine h.go hplace (h.head.trans hhead.symm) (fun c => hnode ▸ h.prev c)
    (fun c => hnode ▸ h.deleted c) (h.fresh.trans hfresh.symm)
    (fun j b' hj => ⟨update_of_ne (pair_ne hj) .., rfl⟩) ?_ hiters
    fun c hc => hnode ▸ h.unused c (hfresh ▸ hc)
  rw [hi.1, hi.2]
  cases b with
  | false => exact ⟨update_self .., (update_of_ne (by simp) ..).trans (h.places i).2⟩
  | true => exact ⟨(update_of_ne (by simp) ..).trans (h.places i).1, update_self ..⟩

/-- A step that also stores a link. -/
theorem Follows.setPrev (h : Follows s l) (b : Bool) {pc : AtomicList.Place} {c : Nat}
    {q : Option Nat} (hplace : s'.place = update s.place i p) (hhead : s'.head = s.head)
    (hnode : s'.node = (s.setNode c fun x => { x with prev := q }).node)
    (hfresh : s'.fresh = s.fresh)
    (hi : p.onIt = (if b then (s.place i).onIt else pc) ∧
      p.onPrev = (if b then pc else (s.place i).onPrev))
    (hiters : p.Iters (l.iter (i, false)) (l.iter (i, true))) :
    Follows s' ((l.setPrev c q).goto (i, b) pc) := by
  have hset : ∀ k, (s'.node k).prev = update l.prev c q k ∧
      (s'.node k).deleted = (s.node k).deleted := by
    intro k
    rw [hnode, setNode_node, update_apply]
    split
    · rename_i e
      rw [e]
      exact ⟨rfl, rfl⟩
    · exact ⟨(h.prev k).symm, rfl⟩
  refine h.go hplace (h.head.trans hhead.symm) (fun k => (hset k).1.symm)
    (fun k => (h.deleted k).trans (hset k).2.symm) (h.fresh.trans hfresh.symm)
    (fun j b' hj => ⟨update_of_ne (pair_ne hj) .., rfl⟩) ?_ hiters
    fun k hk => (hset k).2.trans (h.unused k (hfresh ▸ hk))
  rw [hi.1, hi.2]
  cases b with
  | false => exact ⟨update_self .., (update_of_ne (by simp) ..).trans (h.places i).2⟩
  | true => exact ⟨(update_of_ne (by simp) ..).trans (h.places i).1, update_self ..⟩

/-! ### A step of a thread and a run of the list -/

/-- Thread `i` makes its next step. -/
def moved (L : Layout) (capacity base : Nat) (s : Arena ι) (i : ι) : Arena ι :=
  { (s.trans L capacity base (s.place i)).1 with
    place := update s.place i (s.trans L capacity base (s.place i)).2 }

/-- The list has a run to a state that the allocator follows then. -/
def Matched (l : AtomicList.State (ι × Bool)) (s' : Arena ι) : Prop :=
  ∃ l', Reaches AtomicList.State.step (fun _ _ => True) l l' ∧ Follows s' l'

variable {base size c : Nat} {x : Held} {q old prev it : Option Nat} {k : Option Held}

theorem moved_eq {t : Arena ι} {p' : Place} (hp : s.place i = p)
    (ht : s.trans L capacity base p = (t, p')) :
    s.moved L capacity base i = { t with place := update s.place i p' } := by
  simp only [moved, hp, ht]

/-- The list makes one step of one of the two threads. -/
theorem Matched.run (i : ι) (b : Bool) (hs : l.stepThread (i, b) = some l') (h : Follows s' l') :
    Matched l s' :=
  ⟨l', .single (a := .run (i, b)) trivial hs, h⟩

/-- A step between places that look the same in the list. -/
theorem Follows.quiet (h : Follows s l) {p' : Place} (hp : s.place i = p)
    (ht : s.trans L capacity base p = (s, p')) (hi : p'.onIt = p.onIt ∧ p'.onPrev = p.onPrev)
    (hiters : p'.Iters (l.iter (i, false)) (l.iter (i, true))) :
    Matched l (s.moved L capacity base i) := by
  rw [moved_eq hp ht]
  rw [← hp] at hi
  exact ⟨l, .refl, h.silent rfl rfl (fun _ => ⟨rfl, rfl⟩) rfl hi hiters⟩

/-- Such a step that also stores to the allocator of a chunk. -/
theorem Follows.setItem (h : Follows s l) {t : Arena ι} {p' : Place} {b : BumpAllocator}
    (hp : s.place i = p) (ht : s.trans L capacity base p = (t, p')) (hhead : t.head = s.head)
    (hfresh : t.fresh = s.fresh) (hnode : t.node = (s.setNode c fun y => { y with item := b }).node)
    (hi : p'.onIt = p.onIt ∧ p'.onPrev = p.onPrev)
    (hiters : p'.Iters (l.iter (i, false)) (l.iter (i, true))) :
    Matched l (s.moved L capacity base i) := by
  rw [moved_eq hp ht]
  rw [← hp] at hi
  refine ⟨l, .refl, h.silent rfl hhead (fun d => ?_) hfresh hi hiters⟩
  show (t.node d).prev = _ ∧ (t.node d).deleted = _
  rw [hnode, setNode_node]
  split
  · rename_i e
    rw [e]
    exact ⟨rfl, rfl⟩
  · exact ⟨rfl, rfl⟩

/-! ### The steps of `allocate` -/

theorem Follows.loadHead (h : Follows s l) (hp : s.place i = .loadHead size) :
    Matched l (s.moved L capacity base i) := by
  cases hhead : s.head with
  | none =>
      have ht : s.trans L capacity base (.loadHead size) = (s, .newChunk size) := by
        simp only [Arena.trans, hhead]
      exact h.quiet hp ht ⟨rfl, rfl⟩ trivial
  | some c =>
      have ht : s.trans L capacity base (.loadHead size) = (s, .bump size c) := by
        simp only [Arena.trans, hhead]
      exact h.quiet hp ht ⟨rfl, rfl⟩ trivial

theorem Follows.bump (h : Follows s l) (hp : s.place i = .bump size c) :
    Matched l (s.moved L capacity base i) := by
  refine h.setItem (c := c) (b := (s.node c).item.fetchSub size) hp rfl rfl rfl rfl ?_ ?_
  · split
    · exact ⟨rfl, rfl⟩
    · exact ⟨rfl, rfl⟩
  · split
    · trivial
    · trivial

/-- Memory for the chunk is taken, and it is going to be appended. -/
theorem Follows.newChunk (h : Follows s l) (hl : l.Inv) (hp : s.place i = .newChunk size) :
    Matched l (s.moved L capacity base i) := by
  have hpl := h.places i
  rw [hp] at hpl
  rw [moved_eq hp rfl]
  have hnode : ∀ c, ((s.setNode s.fresh fun _ => ⟨base, .init ⟨base + L.controlblockSize +
      L.sizeofBumpAllocator, capacity - L.controlblockSize - L.sizeofBumpAllocator⟩, false,
      none, false⟩).node c).prev = l.prev c ∧
      ((s.setNode s.fresh fun _ => ⟨base, .init ⟨base + L.controlblockSize +
        L.sizeofBumpAllocator, capacity - L.controlblockSize - L.sizeofBumpAllocator⟩, false,
        none, false⟩).node c).deleted = l.deleted c := by
    intro c
    rw [setNode_node]
    split
    · rename_i e
      subst e
      refine ⟨(hl.unused _ h.fresh.le).2.symm, ?_⟩
      rw [h.deleted]
      exact (h.unused _ le_rfl).symm
    · exact ⟨(h.prev c).symm, (h.deleted c).symm⟩
  refine ⟨l.allocate.goto (i, false) (.loadHead l.fresh),
    .single (a := .allocateItem (i, false)) trivial ?_, ?_⟩
  · simp only [AtomicList.State.step, hpl.1, Place.onIt, if_true]
  · refine h.go (p := .loadOld size s.fresh) rfl h.head (fun c => (hnode c).1.symm)
      (fun c => (hnode c).2.symm) (congrArg (· + 1) h.fresh)
      (fun j b hj => ⟨update_of_ne (pair_ne hj) .., rfl⟩) ⟨?_, ?_⟩ trivial fun c hc => ?_
    · rw [← h.fresh]
      exact update_self ..
    · exact (update_of_ne (by simp) ..).trans hpl.2
    · have hlt : s.fresh ≤ c := Nat.le_of_succ_le hc
      exact (hnode c).2.trans ((h.deleted c).trans (h.unused c hlt))

theorem Follows.loadOld (h : Follows s l) (hp : s.place i = .loadOld size c) :
    Matched l (s.moved L capacity base i) := by
  have hpl := h.places i
  rw [hp] at hpl
  rw [moved_eq hp rfl]
  have hstep : l.stepThread (i, false) = some (l.goto (i, false) (.storePrev c l.head)) := by
    simp only [AtomicList.State.stepThread, hpl.1, Place.onIt]
  refine .run i false hstep ?_
  refine h.goto (p := .storePrev size c s.head) false rfl rfl rfl rfl ?_ trivial
  rw [hp, h.head]
  exact ⟨rfl, rfl⟩

theorem Follows.storePrev (h : Follows s l) (hp : s.place i = .storePrev size c old) :
    Matched l (s.moved L capacity base i) := by
  have hpl := h.places i
  rw [hp] at hpl
  rw [moved_eq hp rfl]
  have hstep : l.stepThread (i, false) =
      some ((l.setPrev c old).goto (i, false) (.swap c old)) := by
    simp only [AtomicList.State.stepThread, hpl.1, Place.onIt]
  refine .run i false hstep ?_
  refine h.setPrev (p := .cas size c old) false rfl rfl rfl rfl ?_ trivial
  rw [hp]
  exact ⟨rfl, rfl⟩

theorem Follows.cas (h : Follows s l) (hp : s.place i = .cas size c old) :
    Matched l (s.moved L capacity base i) := by
  have hpl := h.places i
  rw [hp] at hpl
  by_cases hhead : s.head = old
  · rw [moved_eq hp (if_pos hhead)]
    have hstep : l.stepThread (i, false) =
        some (((l.goto (i, false) .idle).push c).setIter (i, false) old) := by
      simp only [AtomicList.State.stepThread, hpl.1, Place.onIt, h.head, hhead, if_true]
    refine .run i false hstep ?_
    exact h.go (p := .loadHead size) rfl rfl h.prev h.deleted h.fresh
      (fun j b hj => ⟨update_of_ne (pair_ne hj) .., update_of_ne (pair_ne hj) ..⟩)
      ⟨update_self .., (update_of_ne (by simp) ..).trans hpl.2⟩ trivial h.unused
  · rw [moved_eq hp (if_neg hhead)]
    have hstep : l.stepThread (i, false) = some (l.goto (i, false) (.loadHead c)) := by
      simp only [AtomicList.State.stepThread, hpl.1, Place.onIt, h.head, hhead, if_false]
    refine .run i false hstep ?_
    refine h.goto (p := .loadOld size c) false rfl rfl rfl rfl ?_ trivial
    rw [hp]
    exact ⟨rfl, rfl⟩

/-! ### The steps of the search in `deallocate` -/

theorem Follows.prevHead (h : Follows s l) (hp : s.place i = .prevHead x) :
    Matched l (s.moved L capacity base i) := by
  have hpl := h.places i
  rw [hp] at hpl
  rw [moved_eq hp rfl]
  refine ⟨l.setIter (i, true) l.head, .single (a := .rbegin (i, true)) trivial ?_, ?_⟩
  · simp only [AtomicList.State.step, hpl.2, Place.onPrev, if_true]
  · refine h.go (p := .itHead x s.head) rfl h.head h.prev h.deleted h.fresh
      (fun j b hj => ⟨rfl, update_of_ne (pair_ne hj) ..⟩) hpl ?_ h.unused
    exact (update_self ..).trans h.head

theorem Follows.itHead (h : Follows s l) (hp : s.place i = .itHead x prev) :
    Matched l (s.moved L capacity base i) := by
  have hpl := h.places i
  have hit := h.iters i
  rw [hp] at hpl hit
  rw [moved_eq hp rfl]
  refine ⟨l.setIter (i, false) l.head, .single (a := .rbegin (i, false)) trivial ?_, ?_⟩
  · simp only [AtomicList.State.step, hpl.1, Place.onIt, if_true]
  · refine h.go (p := .visit x prev s.head) rfl h.head h.prev h.deleted h.fresh
      (fun j b hj => ⟨rfl, update_of_ne (pair_ne hj) ..⟩) hpl ⟨?_, ?_⟩ h.unused
    · exact (update_self ..).trans h.head
    · exact (update_of_ne (by simp) ..).trans hit

/-- If the chunk does not own the block, `prev` takes the place of `it`, which goes on. -/
theorem Follows.visit (h : Follows s l) (hp : s.place i = .visit x prev it) :
    Matched l (s.moved L capacity base i) := by
  have hpl := h.places i
  have hit := h.iters i
  rw [hp] at hpl hit
  cases it with
  | none =>
      rw [moved_eq hp rfl]
      refine ⟨l, .refl, h.silent (p := .idle) rfl rfl (fun _ => ⟨rfl, rfl⟩) rfl ?_ trivial⟩
      rw [hp]
      exact ⟨rfl, rfl⟩
  | some c =>
      by_cases howns : (s.node c).item.owns x.blk = true
      · have ht : s.trans L capacity base (.visit x prev (some c)) = (s, .countDown x prev c) := by
          simp only [Arena.trans, if_pos howns]
        exact h.quiet hp ht ⟨rfl, rfl⟩ hit
      · have ht : s.trans L capacity base (.visit x prev (some c)) = (s, .loadPrev (some x) c) := by
          simp only [Arena.trans, if_neg howns]
        rw [moved_eq hp ht]
        let l₁ := l.setIter (i, true) (l.iter (i, false))
        have hcopy : l.step (.copy (i, true) (i, false)) = some l₁ := if_pos hpl.2
        have hiter : l₁.iter (i, false) = some c := (update_of_ne (by simp) ..).trans hit.1
        have hnext : l₁.step (.increment (i, false)) =
            some (l₁.goto (i, false) (.loadPrev c true)) := by
          simp only [AtomicList.State.step, hiter]
          exact if_pos hpl.1
        refine ⟨_, .tail (.single trivial hcopy) trivial hnext, ?_⟩
        refine h.go (p := .loadPrev (some x) c) rfl h.head h.prev h.deleted h.fresh
          (fun j b hj => ⟨update_of_ne (pair_ne hj) .., update_of_ne (pair_ne hj) ..⟩)
          ⟨update_self .., (update_of_ne (by simp) ..).trans hpl.2⟩ ?_ h.unused
        exact (update_self ..).trans hit.1

theorem Follows.countDown (h : Follows s l) (hp : s.place i = .countDown x prev c) :
    Matched l (s.moved L capacity base i) := by
  have hit := h.iters i
  rw [hp] at hit
  refine h.setItem (c := c) (b := (s.node c).item.countDown) hp rfl rfl rfl rfl ?_ ?_
  · split
    · exact ⟨rfl, rfl⟩
    · exact ⟨rfl, rfl⟩
  · split
    · exact hit
    · trivial

theorem Follows.testFull (h : Follows s l) (hp : s.place i = .testFull prev c) :
    Matched l (s.moved L capacity base i) := by
  have hit := h.iters i
  rw [hp] at hit
  refine h.quiet hp rfl ?_ ?_
  · split
    · exact ⟨rfl, rfl⟩
    · exact ⟨rfl, rfl⟩
  · split
    · exact hit
    · trivial

theorem Follows.advance (h : Follows s l) (hp : s.place i = .advance x c) :
    Matched l (s.moved L capacity base i) := by
  have hpl := h.places i
  have hit := h.iters i
  rw [hp] at hpl hit
  rw [moved_eq hp rfl]
  have hstep : l.stepThread (i, false) =
      some ((l.setIter (i, false) (l.prev c)).goto (i, false) .idle) := by
    simp only [AtomicList.State.stepThread, hpl.1, Place.onIt]
  refine .run i false hstep ?_
  refine h.go (p := .visit x (some c) (s.node c).prev) rfl h.head h.prev h.deleted h.fresh
    (fun j b hj => ⟨update_of_ne (pair_ne hj) .., update_of_ne (pair_ne hj) ..⟩)
    ⟨update_self .., (update_of_ne (by simp) ..).trans hpl.2⟩ ⟨?_, ?_⟩ h.unused
  · exact (update_self ..).trans (h.prev c)
  · exact (update_of_ne (by simp) ..).trans hit

/-! ### Flagging a chunk and moving a link over it -/

theorem Follows.flag (h : Follows s l) (hl : l.Inv) (hp : s.place i = .flag prev c) :
    Matched l (s.moved L capacity base i) := by
  have hpl := h.places i
  have hit := h.iters i
  rw [hp] at hpl hit
  rw [moved_eq hp rfl]
  have hc : c < s.fresh := h.fresh ▸ hl.lt_fresh (hl.iters _ _ hit.1)
  have herase : l.step (.erase (i, false)) = some (l.flag c) := by
    simp only [AtomicList.State.step, hit.1]
    exact if_pos hpl.1
  have hdel : ∀ d, (l.flag c).prev d = ((s.setNode c fun x => { x with deleted := true }).node
        d).prev ∧ (l.flag c).deleted d =
      ((s.setNode c fun x => { x with deleted := true }).node d).deleted := by
    intro d
    rw [setNode_node]
    simp only [AtomicList.State.flag, update_apply]
    split
    · rename_i e
      rw [e]
      exact ⟨h.prev c, rfl⟩
    · exact ⟨h.prev d, h.deleted d⟩
  have hunused : ∀ d, s.fresh ≤ d →
      ((s.setNode c fun x => { x with deleted := true }).node d).deleted = false := by
    intro d hd
    rw [setNode_node, if_neg (by omega)]
    exact h.unused d hd
  cases prev with
  | none =>
      refine ⟨l.flag c, .single trivial herase, ?_⟩
      exact h.go (p := .idle) rfl h.head (fun d => (hdel d).1) (fun d => (hdel d).2) h.fresh
        (fun _ _ _ => ⟨rfl, rfl⟩) hpl trivial hunused
  | some q =>
      -- `prev.optimize()` begins
      have hopt : (l.flag c).step (.optimize (i, true)) =
          some ((l.flag c).goto (i, true) (.loadPrev q false)) := by
        have hiter : (l.flag c).iter (i, true) = some q := hit.2
        simp only [AtomicList.State.step, hiter]
        exact if_pos hpl.2
      refine ⟨_, .tail (.single trivial herase) trivial hopt, ?_⟩
      exact h.go (p := .loadPrev none q) rfl h.head (fun d => (hdel d).1) (fun d => (hdel d).2)
        h.fresh (fun j b hj => ⟨update_of_ne (pair_ne hj) .., rfl⟩)
        ⟨(update_of_ne (by simp) ..).trans hpl.1, update_self ..⟩ trivial hunused

theorem Follows.loadPrev (h : Follows s l) (hp : s.place i = .loadPrev k c) :
    Matched l (s.moved L capacity base i) := by
  have hpl := h.places i
  have hit := h.iters i
  rw [hp] at hpl hit
  rw [moved_eq hp rfl]
  cases k with
  | none =>
      have hstep : l.stepThread (i, true) = some (l.goto (i, true) (.test c false (l.prev c))) := by
        simp only [AtomicList.State.stepThread, hpl.2, Place.onPrev]
      refine .run i true hstep ?_
      refine h.goto (p := .skip none c (s.node c).prev) true rfl rfl rfl rfl ?_ trivial
      rw [hp, h.prev]
      exact ⟨rfl, rfl⟩
  | some x =>
      have hstep : l.stepThread (i, false) =
          some (l.goto (i, false) (.test c true (l.prev c))) := by
        simp only [AtomicList.State.stepThread, hpl.1, Place.onIt]
      refine .run i false hstep ?_
      refine h.goto (p := .skip (some x) c (s.node c).prev) false rfl rfl rfl rfl ?_ hit
      rw [hp, h.prev]
      exact ⟨rfl, rfl⟩

/-- The thread of the list that is in `skip_deleted_prev` goes to a place there. -/
theorem Follows.gotoSkip (h : Follows s l) {p' : Place} {pc : AtomicList.Place}
    (hp : s.place i = .skip k c q)
    (hpc : p'.onIt = (if k.isNone then (Place.skip k c q).onIt else pc) ∧
      p'.onPrev = (if k.isNone then pc else (Place.skip k c q).onPrev))
    (hiters : ∀ a b, (Place.skip k c q).Iters a b → p'.Iters a b) :
    Follows { s with place := update s.place i p' } (l.goto (i, k.isNone) pc) := by
  rw [← hp] at hpc hiters
  exact h.goto k.isNone rfl rfl rfl rfl hpc (hiters _ _ (h.iters i))

theorem Follows.skip (h : Follows s l) (hp : s.place i = .skip k c q) :
    Matched l (s.moved L capacity base i) := by
  have hpl := h.places i
  rw [hp] at hpl
  have hpc : l.place (i, k.isNone) = .test c k.isSome q := by
    cases k with
    | none => exact hpl.2
    | some x => exact hpl.1
  cases q with
  | none =>
      rw [moved_eq hp rfl]
      have hstep : l.stepThread (i, k.isNone) =
          some (l.goto (i, k.isNone) (.store c k.isSome none)) := by
        simp only [AtomicList.State.stepThread, hpc]
      refine .run i k.isNone hstep ?_
      refine h.gotoSkip hp ?_ ?_
      · cases k <;> exact ⟨rfl, rfl⟩
      · cases k <;> exact fun _ _ hit => hit
  | some q =>
      have htest : l.stepThread (i, k.isNone) = some (l.goto (i, k.isNone)
          (if (s.node q).deleted then .follow c k.isSome q
            else .store c k.isSome (some q))) := by
        simp only [AtomicList.State.stepThread, hpc, h.deleted]
      by_cases hdel : (s.node q).deleted = true
      · -- the list tests the deleted chunk and follows its link in two steps
        have ht : s.trans L capacity base (.skip k c (some q)) =
            (s, .skip k c (s.node q).prev) := by
          simp only [Arena.trans, if_pos hdel]
        rw [moved_eq hp ht]
        rw [if_pos hdel] at htest
        have hfollow : (l.goto (i, k.isNone) (.follow c k.isSome q)).stepThread (i, k.isNone) =
            some (l.goto (i, k.isNone) (.test c k.isSome (l.prev q))) := by
          simp only [AtomicList.State.stepThread, AtomicList.State.goto, update_self, update_idem]
        refine ⟨_, .tail (.single (a := .run (i, k.isNone)) trivial htest)
          (a := .run (i, k.isNone)) trivial hfollow, ?_⟩
        refine h.gotoSkip hp ?_ ?_
        · rw [h.prev]
          cases k <;> exact ⟨rfl, rfl⟩
        · cases k <;> exact fun _ _ hit => hit
      · have ht : s.trans L capacity base (.skip k c (some q)) = (s, .storeSkip k c (some q)) := by
          simp only [Arena.trans, if_neg hdel]
        rw [moved_eq hp ht]
        rw [if_neg hdel] at htest
        refine .run i k.isNone htest ?_
        refine h.gotoSkip hp ?_ ?_
        · cases k <;> exact ⟨rfl, rfl⟩
        · cases k <;> exact fun _ _ hit => hit

theorem Follows.storeSkip (h : Follows s l) (hp : s.place i = .storeSkip k c q) :
    Matched l (s.moved L capacity base i) := by
  have hpl := h.places i
  have hit := h.iters i
  rw [hp] at hpl hit
  rw [moved_eq hp rfl]
  cases k with
  | none =>
      have hstep : l.stepThread (i, true) = some ((l.setPrev c q).goto (i, true) .idle) := by
        simp only [AtomicList.State.stepThread, hpl.2, Place.onPrev]
        rfl
      refine .run i true hstep ?_
      refine h.setPrev (p := .idle) true rfl rfl rfl rfl ?_ trivial
      rw [hp]
      exact ⟨rfl, rfl⟩
  | some x =>
      have hstep : l.stepThread (i, false) = some ((l.setPrev c q).goto (i, false) (.next c)) := by
        simp only [AtomicList.State.stepThread, hpl.1, Place.onIt]
        rfl
      refine .run i false hstep ?_
      refine h.setPrev (p := .advance x c) false rfl rfl rfl rfl ?_ hit
      rw [hp]
      exact ⟨rfl, rfl⟩

/-! ### Every step is a run of the list -/

/-- A step of a thread of the allocator. -/
theorem Follows.trans (h : Follows s l) (hl : l.Inv) (base : Nat) :
    Matched l (s.moved L capacity base i) := by
  cases hp : s.place i with
  | idle => exact h.quiet hp rfl ⟨rfl, rfl⟩ trivial
  | loadHead size => exact h.loadHead hp
  | bump size c => exact h.bump hp
  | countUp x => exact h.setItem (c := x.owner) hp rfl rfl rfl rfl ⟨rfl, rfl⟩ trivial
  | newChunk size => exact h.newChunk hl hp
  | loadOld size c => exact h.loadOld hp
  | storePrev size c old => exact h.storePrev hp
  | cas size c old => exact h.cas hp
  | prevHead x => exact h.prevHead hp
  | itHead x prev => exact h.itHead hp
  | visit x prev it => exact h.visit hp
  | countDown x prev c => exact h.countDown hp
  | testFull prev c => exact h.testFull hp
  | flag prev c => exact h.flag hl hp
  | loadPrev k c => exact h.loadPrev hp
  | skip k c q => exact h.skip hp
  | storeSkip k c q => exact h.storeSkip hp
  | advance x c => exact h.advance hp

/-- Every step of the allocator is a run of the list. -/
theorem Follows.step (h : Follows s l) (hl : l.Inv) {a : ArenaAction ι}
    (hs : s.step L capacity a = some s') : Matched l s' := by
  cases a with
  | allocate i n =>
      obtain ⟨⟨hi, -⟩, hs⟩ := Option.ite_none_right_eq_some.mp hs
      obtain rfl := Option.some.inj hs
      exact ⟨l, .refl, h.silent rfl rfl (fun _ => ⟨rfl, rfl⟩) rfl
        (by rw [hi]; exact ⟨rfl, rfl⟩) trivial⟩
  | deallocate i j =>
      simp only [Arena.step] at hs
      split at hs
      · cases hs
      · obtain ⟨hi, hs⟩ := Option.ite_none_right_eq_some.mp hs
        obtain rfl := Option.some.inj hs
        exact ⟨l, .refl, h.silent rfl rfl (fun _ => ⟨rfl, rfl⟩) rfl
          (by rw [hi]; exact ⟨rfl, rfl⟩) trivial⟩
  | go i base =>
      simp only [Arena.step] at hs
      split at hs
      · cases hs
      · obtain rfl := Option.some.inj hs
        exact h.trans hl base
  | free c =>
      obtain rfl := Option.some.inj hs
      have hkeep : ∀ k, ((s.setNode c fun x => { x with freed := true }).node k).prev =
          (s.node k).prev ∧
          ((s.setNode c fun x => { x with freed := true }).node k).deleted =
            (s.node k).deleted := by
        intro k
        rw [setNode_node]
        split
        · rename_i e
          rw [e]
          exact ⟨rfl, rfl⟩
        · exact ⟨rfl, rfl⟩
      exact ⟨l, .refl, {
        head := h.head
        prev := fun k => (h.prev k).trans (hkeep k).1.symm
        deleted := fun k => (h.deleted k).trans (hkeep k).2.symm
        fresh := h.fresh
        places := h.places
        iters := h.iters
        unused := fun k hk => (hkeep k).2.trans (h.unused k hk) }⟩

end Arena

/-! ### How far a search has come -/

/-- The chunk of the block in hand has been appended, and it is at the iterator or below; behind
the test of `owns` it is strictly below. -/
def Place.Ahead (rank : Nat → Nat) : Place → Prop
  | .bump _ c => 0 < rank c
  | .countUp x | .prevHead x | .itHead x _ | .countDown x _ _ => 0 < rank x.owner
  | .visit x _ it => 0 < rank x.owner ∧ rank x.owner ≤ height rank it
  | .loadPrev (some x) c | .skip (some x) c _ | .storeSkip (some x) c _ | .advance x c =>
      0 < rank x.owner ∧ rank x.owner < rank c
  | _ => True

/-- The ranks of appended chunks do not change. -/
theorem Place.Ahead.mono {rank rank' : Nat → Nat} {p : Place} (h : p.Ahead rank)
    (hrank : ∀ c, 0 < rank c → rank' c = rank c) : p.Ahead rank' := by
  have hpos : ∀ c, 0 < rank c → 0 < rank' c := fun c hc => (hrank c hc).symm ▸ hc
  have hlt : ∀ c d, 0 < rank c ∧ rank c < rank d → 0 < rank' c ∧ rank' c < rank' d := by
    intro c d ⟨hc, hcd⟩
    rw [hrank c hc, hrank d (hc.trans hcd)]
    exact ⟨hc, hcd⟩
  cases p with
  | bump size c => exact hpos c h
  | countUp x | prevHead x | itHead x q | countDown x q c => exact hpos x.owner h
  | visit x q it =>
      obtain ⟨hx, hle⟩ := h
      refine ⟨hpos x.owner hx, ?_⟩
      cases it with
      | none => exact absurd hx (not_lt.mpr hle)
      | some c =>
          rw [height_some] at hle ⊢
          rw [hrank x.owner hx, hrank c (hx.trans_le hle)]
          exact hle
  | loadPrev k c | skip k c q | storeSkip k c q =>
      cases k with
      | none => trivial
      | some x => exact hlt x.owner c h
  | advance x c => exact hlt x.owner c h
  | _ => trivial

namespace Arena

variable {ι : Type}

/-- Every search is still before its chunk, and none has failed. -/
structure Found (s : Arena ι) (rank : Nat → Nat) : Prop where
  live : ∀ x ∈ s.live, 0 < rank x.owner
  lost : s.lost = []
  ahead : ∀ i, (s.place i).Ahead rank

section Steps

variable [Fintype ι] [DecidableEq ι] {L : Layout} {capacity : Nat} {s s' : Arena ι}
  {l l' : AtomicList.State (ι × Bool)} {i : ι} {x : Held}

omit [DecidableEq ι] in
/-- A good link from above does not pass over the chunk of a block in use. -/
theorem Follows.le_height (h : Follows s l) (hI : Inv L capacity s) (hx : s.Uses x) {n : Nat}
    {q : Option Nat} (hlink : Link l.rank l.Dead n q) (hn : l.rank x.owner < n) :
    l.rank x.owner ≤ height l.rank q := by
  by_contra hlt
  have hdead : (s.node x.owner).deleted = true :=
    (h.deleted x.owner).symm.trans (hlink.gap x.owner (not_le.mp hlt) hn)
  exact (hI.deleted x.owner (hI.inside x hx).1 hdead).not_uses hx rfl

omit [DecidableEq ι] in
/-- A chunk that does not own the block is not its chunk. -/
theorem Follows.lt_of_not_owns (hl : l.Inv) (hI : Inv L capacity s) (hx : s.Uses x) {c : Nat}
    (hpos : 0 < l.rank x.owner) (hle : l.rank x.owner ≤ l.rank c)
    (howns : ¬ (s.node c).item.owns x.blk = true) : l.rank x.owner < l.rank c := by
  refine hle.lt_of_ne fun e => howns ?_
  obtain rfl := hl.inj x.owner c hpos e
  exact decide_eq_true (hI.inside x hx).2

omit [DecidableEq ι] in
/-- A step of a thread leaves its search before its chunk. -/
theorem Found.trans (hf : Found s l.rank) (h : Follows s l) (hl : l.Inv) (hI : Inv L capacity s)
    (base : Nat) (i : ι) :
    (s.trans L capacity base (s.place i)).2.Ahead l.rank ∧
      (s.trans L capacity base (s.place i)).1.lost = [] ∧
      ∀ x ∈ (s.trans L capacity base (s.place i)).1.live, 0 < l.rank x.owner := by
  have ha := hf.ahead i
  have huses : ∀ {x}, (s.place i).held = some x → s.Uses x := fun hx => .inr (.inr ⟨i, .inl hx⟩)
  -- steps that change neither of the two lists of blocks
  have hsame : ∀ {r : Arena ι × Place}, r.1.live = s.live → r.1.lost = s.lost →
      r.2.Ahead l.rank → r.2.Ahead l.rank ∧ r.1.lost = [] ∧ ∀ x ∈ r.1.live, 0 < l.rank x.owner :=
    fun hlive hlost hr => ⟨hr, hlost.trans hf.lost, hlive ▸ hf.live⟩
  cases hp : s.place i with
  | loadHead size =>
      refine hsame rfl rfl ?_
      simp only [Arena.trans]
      split
      · trivial
      · rename_i c hc
        exact hl.head_appended c (h.head.trans hc)
  | bump size c =>
      rw [hp] at ha
      refine hsame rfl rfl ?_
      simp only [Arena.trans]
      split
      · exact ha
      · trivial
  | countUp x =>
      rw [hp] at ha
      refine ⟨trivial, hf.lost, fun y hy => ?_⟩
      rcases List.mem_cons.mp hy with rfl | hy
      · exact ha
      · exact hf.live y hy
  | cas size c old =>
      simp only [Arena.trans]
      split
      · exact hsame rfl rfl trivial
      · exact hsame rfl rfl trivial
  | itHead x prev =>
      -- the chunk is below the head
      rw [hp] at ha
      refine hsame rfl rfl ⟨ha, ?_⟩
      rw [← h.head]
      exact h.le_height hI (huses (by rw [hp]; rfl)) hl.top (Nat.lt_succ_of_le (hl.bound _))
  | visit x prev it =>
      rw [hp] at ha
      cases it with
      | none => exact absurd ha.1 (not_lt.mpr ha.2)
      | some c =>
          refine hsame rfl rfl ?_
          simp only [Arena.trans]
          split
          · exact ha.1
          · exact ⟨ha.1, Follows.lt_of_not_owns hl hI (huses (by rw [hp]; rfl)) ha.1 ha.2 ‹_›⟩
  | countDown x prev c =>
      refine hsame rfl rfl ?_
      simp only [Arena.trans]
      split <;> trivial
  | testFull prev c =>
      refine hsame rfl rfl ?_
      simp only [Arena.trans]
      split <;> trivial
  | flag prev c =>
      refine hsame rfl rfl ?_
      cases prev <;> trivial
  | loadPrev k c =>
      rw [hp] at ha
      refine hsame rfl rfl ?_
      cases k <;> exact ha
  | skip k c q =>
      rw [hp] at ha
      cases q with
      | none =>
          refine hsame rfl rfl ?_
          cases k <;> exact ha
      | some q =>
          refine hsame rfl rfl ?_
          simp only [Arena.trans]
          split <;> cases k <;> exact ha
  | storeSkip k c q =>
      rw [hp] at ha
      refine hsame rfl rfl ?_
      cases k <;> exact ha
  | advance x c =>
      -- the link of a chunk above does not pass over it
      rw [hp] at ha
      refine hsame rfl rfl ⟨ha.1, ?_⟩
      rw [← h.prev]
      exact h.le_height hI (huses (by rw [hp]; rfl)) (hl.link c (ha.1.trans ha.2)) ha.2
  | prevHead x =>
      rw [hp] at ha
      exact hsame rfl rfl ha
  | _ => exact hsame rfl rfl trivial

omit [Fintype ι] [DecidableEq ι] in
theorem Found.mono {rank rank' : Nat → Nat} (hf : Found s rank)
    (hrank : ∀ c, 0 < rank c → rank' c = rank c) : Found s rank' where
  live := fun x hx => (hrank x.owner (hf.live x hx)).symm ▸ hf.live x hx
  lost := hf.lost
  ahead := fun i => (hf.ahead i).mono hrank

theorem Found.step (hf : Found s l.rank) (h : Follows s l) (hl : l.Inv) (hI : Inv L capacity s)
    {a : ArenaAction ι} (hs : s.step L capacity a = some s') : Found s' l.rank := by
  have hahead : ∀ {i : ι} {p : Place}, s'.place = update s.place i p → p.Ahead l.rank →
      ∀ j, (s'.place j).Ahead l.rank := by
    intro i p hplace hp j
    rw [place_update hplace]
    split
    · exact hp
    · exact hf.ahead j
  cases a with
  | allocate i n =>
      obtain ⟨-, hs⟩ := Option.ite_none_right_eq_some.mp hs
      obtain rfl := Option.some.inj hs
      exact ⟨hf.live, hf.lost, hahead rfl trivial⟩
  | deallocate i j =>
      simp only [Arena.step] at hs
      split at hs
      · cases hs
      · rename_i x hx
        obtain ⟨-, hs⟩ := Option.ite_none_right_eq_some.mp hs
        obtain rfl := Option.some.inj hs
        exact ⟨fun y hy => hf.live y (List.mem_of_mem_eraseIdx hy), hf.lost,
          hahead rfl (hf.live x (List.mem_of_getElem? hx))⟩
  | go i base =>
      simp only [Arena.step] at hs
      split at hs
      · cases hs
      · obtain rfl := Option.some.inj hs
        obtain ⟨hp, hlost, hlive⟩ := hf.trans h hl hI base i
        exact ⟨hlive, hlost, hahead rfl hp⟩
  | free c =>
      obtain rfl := Option.some.inj hs
      exact ⟨hf.live, hf.lost, hf.ahead⟩

end Steps

/-! ### What the allocator promises -/

/-- Any number of threads allocate and deallocate, with care for the three ways in which the
counts can go wrong.  Then no byte belongs to two blocks in use, every block lies in the memory of
its chunk, behind the control block and the management object, and the memory has not been given
back; a `deallocate` takes its block back from that chunk and never fails to find it. -/
theorem allocator_concurrent [Fintype ι] [DecidableEq ι] (L : Layout) (capacity : Nat)
    (hfit : L.controlblockSize + L.sizeofBumpAllocator ≤ capacity) {s : Arena ι}
    (hr : Reaches (step L capacity) (fun s a => Legal L capacity s a ∧ Careful s a) (initial ι) s) :
    (∀ a, s.users a ≤ 1) ∧
      (∀ x, s.Uses x → (s.node x.owner).freed = false ∧
        (s.node x.owner).base + L.controlblockSize + L.sizeofBumpAllocator ≤ x.blk.ptr ∧
        x.blk.ptr + x.blk.len ≤ (s.node x.owner).base + capacity) ∧
      (∀ i x prev c, s.place i = .countDown x prev c → c = x.owner) ∧ s.lost = [] := by
  have hall : Inv L capacity s ∧ Bytes s ∧
      ∃ l : AtomicList.State (ι × Bool), l.Reachable ∧ Follows s l ∧ Found s l.rank := by
    refine hr.invariant (I := fun s => Inv L capacity s ∧ Bytes s ∧
      ∃ l : AtomicList.State (ι × Bool), l.Reachable ∧ Follows s l ∧ Found s l.rank) ?_ ?_
    · refine ⟨Inv.initial, Bytes.initial, .init, .refl, ?_, ?_⟩
      · exact ⟨rfl, fun _ => rfl, fun _ => rfl, rfl, fun _ => ⟨rfl, rfl⟩, fun _ => trivial,
          fun _ _ => rfl⟩
      · exact ⟨fun _ hx => absurd hx List.not_mem_nil, rfl, fun _ => trivial⟩
    · rintro s a s' ⟨hI, hB, l, hl, hfollow, hfound⟩ ⟨hlegal, hcare⟩ hs
      have hlInv := AtomicList.State.Inv.of_reachable hl
      obtain ⟨l', hrun, hfollow'⟩ := hfollow.step hlInv hs
      refine ⟨hI.step hfit hlegal hcare hs, hB.step hI hcare hs, l', hl.trans hrun, hfollow', ?_⟩
      exact (hfound.step hfollow hlInv hI hs).mono (AtomicList.State.Inv.rank_run hlInv hrun)
  obtain ⟨hI, hB, l, -, -, hfound⟩ := hall
  refine ⟨hB.users_le hI, fun x hx => ?_, hI.owner, hfound.lost⟩
  obtain ⟨hlow, hup, -, -⟩ := hI.limits x.owner (hI.inside x hx).1
  have hle := hB.le_upper hI hx
  exact ⟨(hI.open_of_uses hx).2, hlow ▸ (hI.inside x hx).2.1, hup ▸ hle⟩

/-- One thread fills the first chunk, another one a second chunk; then the first block is given
back, and the search goes past the second chunk. -/
theorem allocator_concurrent_two_chunks :
    ∃ s : Arena (Fin 3), (s.node 0).deleted = true ∧ s.live.map Held.owner = [1] ∧
      (∀ a, s.users a ≤ 1) ∧ s.lost = [] := by
  have hrun : (exec (step ⟨48, 32⟩ 65536) (fun s a => Legal ⟨48, 32⟩ 65536 s a ∧ Careful s a)
      (List.flatten [.allocate 0 20000 :: goes 0 262144 8, .allocate 2 20000 :: goes 2 524288 9,
        .deallocate 0 1 :: goes 0 0 12]) (initial (Fin 3))).map
        (fun s => ((s.node 0).deleted, s.live.map Held.owner)) = some (true, [1]) := by
    decide +kernel
  obtain ⟨s, hs, hp⟩ := Option.map_eq_some_iff.mp hrun
  obtain ⟨hdel, hlive⟩ := Prod.mk.inj hp
  have hpromise := allocator_concurrent ⟨48, 32⟩ 65536 (by decide) (Reaches.refl.of_exec hs)
  exact ⟨s, hdel, hlive, hpromise.1, hpromise.2.2.2⟩

end Arena

end RedGrapes.Memory
