/-
RedGrapes/Memory/AtomicList.lean

The lock-free list of chunks of `util/atomic_list.hpp`, run by any number of threads one atomic
step at a time: `append_item` with its retries, `try_append_first_item`, `erase`, and the
iterators, which move `prev` links over deleted chunks (`skip_deleted_prev`).

A chunk keeps its name: shared pointers hold it while anyone can still compare or follow a
pointer to it, so its memory is not used again before that.

Several iterators may store to the same `prev` at once, each with a target it found earlier, and
such a store may bring a link back to a chunk that has been deleted meanwhile.  What stays true
of every link, stored or only held by a thread, is that it passes over deleted chunks only
(`Links.Link`), for a deleted chunk remains deleted and remains linked.  The ghost field `rank`
numbers the chunks in the order of appending.
-/
import RedGrapes.Lib.Machine
import RedGrapes.Lib.Links

namespace RedGrapes.AtomicList

open Function Machine Links Relation

/-! ### The machine -/

/-- Places of a thread.  In `append_item` of chunk `n` it loads `head`, stores `prev` and
compares and swaps; `try_append_first_item` has the last of these only.  In `skip_deleted_prev`
of chunk `c` it loads `prev`, tests what it found, follows its `prev`, and stores the result;
`inc` says that `operator++` has called, which then reads `prev` itself. -/
inductive Place
  | idle
  | loadHead (n : Nat)
  | storePrev (n : Nat) (old : Option Nat)
  | swap (n : Nat) (old : Option Nat)
  | swapFirst (n : Nat)
  | loadPrev (c : Nat) (inc : Bool)
  | test (c : Nat) (inc : Bool) (p : Option Nat)
  | follow (c : Nat) (inc : Bool) (p : Nat)
  | store (c : Nat) (inc : Bool) (p : Option Nat)
  | next (c : Nat)
deriving DecidableEq

/-- The chunk that the thread is about to append. -/
def Place.floating : Place → Option Nat
  | loadHead n | storePrev n _ | swap n _ | swapFirst n => some n
  | _ => none

/-- The list, its chunks, and the threads with an iterator each. -/
structure State (Tid : Type) where
  head : Option Nat
  prev : Nat → Option Nat
  deleted : Nat → Bool
  /-- The next chunk to be allocated. -/
  fresh : Nat
  iter : Tid → Option Nat
  place : Tid → Place
  /-- Which of the appended chunks this is, from 1 on; 0 if it has not been appended. -/
  rank : Nat → Nat
  length : Nat

/-- A thread calls one of the operations, copies the iterator of another, or goes on. -/
inductive Action (Tid : Type)
  | allocateItem (i : Tid)
  | tryAllocateFirstItem (i : Tid)
  | rbegin (i : Tid)
  | copy (i j : Tid)
  | optimize (i : Tid)
  | increment (i : Tid)
  | erase (i : Tid)
  | run (i : Tid)

namespace State

variable {Tid : Type}

/-- The list starts empty. -/
def init : State Tid where
  head := none
  prev := fun _ => none
  deleted := fun _ => false
  fresh := 0
  iter := fun _ => none
  place := fun _ => .idle
  rank := fun _ => 0
  length := 0

def goto [DecidableEq Tid] (s : State Tid) (i : Tid) (pc : Place) : State Tid :=
  { s with place := update s.place i pc }

def setIter [DecidableEq Tid] (s : State Tid) (i : Tid) (c : Option Nat) : State Tid :=
  { s with iter := update s.iter i c }

def setPrev (s : State Tid) (c : Nat) (p : Option Nat) : State Tid :=
  { s with prev := update s.prev c p }

/-- Memory for a chunk, whose `prev` is null and which is not deleted. -/
def allocate (s : State Tid) : State Tid := { s with fresh := s.fresh + 1 }

/-- The effect of a compare-and-swap of `head` that succeeds. -/
def push (s : State Tid) (n : Nat) : State Tid :=
  { s with head := some n, rank := update s.rank n (s.length + 1), length := s.length + 1 }

/-- `ItemControlBlock::erase`. -/
def flag (s : State Tid) (c : Nat) : State Tid := { s with deleted := update s.deleted c true }

/-- The next atomic step of a thread in an operation. -/
def stepThread [DecidableEq Tid] (s : State Tid) (i : Tid) : Option (State Tid) :=
  match s.place i with
  | .idle => none
  | .loadHead n => some (s.goto i (.storePrev n s.head))
  | .storePrev n old => some ((s.setPrev n old).goto i (.swap n old))
  | .swap n old =>
      -- the iterator returned is at the previous head
      if s.head = old then some (((s.goto i .idle).push n).setIter i old)
      else some (s.goto i (.loadHead n))
  | .swapFirst n =>
      if s.head = none then some ((s.goto i .idle).push n) else some (s.goto i .idle)
  | .loadPrev c inc => some (s.goto i (.test c inc (s.prev c)))
  | .test c inc none => some (s.goto i (.store c inc none))
  | .test c inc (some p) =>
      some (s.goto i (if s.deleted p then .follow c inc p else .store c inc (some p)))
  | .follow c inc p => some (s.goto i (.test c inc (s.prev p)))
  | .store c inc p => some ((s.setPrev c p).goto i (if inc then .next c else .idle))
  | .next c => some ((s.setIter i (s.prev c)).goto i .idle)

/-- A thread that is not in an operation may call one. -/
def step [DecidableEq Tid] (s : State Tid) : Action Tid → Option (State Tid)
  | .allocateItem i =>
      if s.place i = .idle then some (s.allocate.goto i (.loadHead s.fresh)) else none
  | .tryAllocateFirstItem i =>
      if s.place i = .idle then some (s.allocate.goto i (.swapFirst s.fresh)) else none
  | .rbegin i => if s.place i = .idle then some (s.setIter i s.head) else none
  | .copy i j => if s.place i = .idle then some (s.setIter i (s.iter j)) else none
  | .optimize i =>
      if s.place i = .idle then
        match s.iter i with
        | none => some s
        | some c => some (s.goto i (.loadPrev c false))
      else none
  | .increment i =>
      if s.place i = .idle then
        match s.iter i with
        | none => some s
        | some c => some (s.goto i (.loadPrev c true))
      else none
  | .erase i =>
      if s.place i = .idle then
        match s.iter i with
        | none => none
        | some c => some (s.flag c)
      else none
  | .run i => s.stepThread i

def Reachable [DecidableEq Tid] (s : State Tid) : Prop := Reaches step (fun _ _ => True) init s

/-- A chunk that has been appended to the list. -/
def Appended (s : State Tid) (c : Nat) : Prop := 0 < s.rank c

def Dead (s : State Tid) (c : Nat) : Prop := s.deleted c = true

/-! ### The invariant -/

/-- Chunk `n` is allocated and not yet appended. -/
def Floats (s : State Tid) (n : Nat) : Prop := s.rank n = 0 ∧ n < s.fresh

/-- A link that leads from `c` to `p`, whether it is stored or not. -/
def LinkFrom (s : State Tid) (c : Nat) (p : Option Nat) : Prop := Link s.rank s.Dead (s.rank c) p

/-- What a thread knows at its place. -/
def Knows (s : State Tid) : Place → Prop
  | .idle => True
  | .loadHead n => s.Floats n
  | .storePrev n old => s.Floats n ∧ ∀ q, old = some q → s.Appended q
  | .swap n old => s.Floats n ∧ s.prev n = old
  | .swapFirst n => s.Floats n ∧ s.prev n = none
  | .loadPrev c _ | .next c => s.Appended c
  | .test c _ p | .store c _ p => s.Appended c ∧ s.LinkFrom c p
  | .follow c _ p => s.Appended c ∧ s.LinkFrom c (some p) ∧ s.Dead p

/-- The links of the list are good, floating chunks belong to one thread each, and every thread
knows what its place needs. -/
structure Inv (s : State Tid) : Prop where
  bound : ∀ c, s.rank c ≤ s.length
  inj : ∀ c d, 0 < s.rank c → s.rank c = s.rank d → c = d
  top : Link s.rank s.Dead (s.length + 1) s.head
  link : ∀ c, s.Appended c → s.LinkFrom c (s.prev c)
  prevs : ∀ c q, s.prev c = some q → s.Appended q
  unused : ∀ n, s.fresh ≤ n → s.rank n = 0 ∧ s.prev n = none
  iters : ∀ i c, s.iter i = some c → s.Appended c
  places : ∀ i, s.Knows (s.place i)
  own : ∀ i j n, (s.place i).floating = some n → (s.place j).floating = some n → i = j

variable {s s' : State Tid} {i j : Tid} {c n : Nat} {pc : Place} {p : Option Nat}

theorem Knows.floats (h : s.Knows pc) (hn : pc.floating = some n) : s.Floats n := by
  cases pc <;> cases hn <;> first | exact h | exact h.1

/-- What a thread knows stays true when links and deleted chunks stay, and its own chunk does. -/
theorem Knows.keep (h : s.Knows pc) (happ : ∀ c, s.Appended c → s'.Appended c)
    (hlink : ∀ c p, s.Appended c → s.LinkFrom c p → s'.LinkFrom c p)
    (hdead : ∀ c, s.Dead c → s'.Dead c)
    (hfloat : ∀ n, pc.floating = some n → s.Floats n → s'.Floats n ∧ s'.prev n = s.prev n) :
    s'.Knows pc := by
  cases pc with
  | idle => trivial
  | loadHead n => exact (hfloat n rfl h).1
  | storePrev n old => exact ⟨(hfloat n rfl h.1).1, fun q hq => happ q (h.2 q hq)⟩
  | swap n old | swapFirst n =>
    obtain ⟨hn, hprev⟩ := hfloat n rfl h.1
    exact ⟨hn, hprev.trans h.2⟩
  | loadPrev c inc => exact happ c h
  | test c inc p => exact ⟨happ c h.1, hlink c p h.1 h.2⟩
  | follow c inc p => exact ⟨happ c h.1, hlink c (some p) h.1 h.2.1, hdead p h.2.2⟩
  | store c inc p => exact ⟨happ c h.1, hlink c p h.1 h.2⟩
  | next c => exact happ c h

namespace Inv

theorem ofInit : Inv (init : State Tid) where
  bound := fun _ => le_rfl
  inj := fun _ _ h => absurd h (lt_irrefl 0)
  top := ⟨nofun, Nat.zero_lt_one, fun _ h => absurd h (lt_irrefl 0)⟩
  link := fun _ h => absurd h (lt_irrefl 0)
  prevs := nofun
  unused := fun _ _ => ⟨rfl, rfl⟩
  iters := nofun
  places := fun _ => trivial
  own := nofun

/-- The head, if there is one, has been appended. -/
theorem head_appended (h : Inv s) : ∀ q, s.head = some q → s.Appended q := h.top.placed

theorem lt_fresh (h : Inv s) (hc : s.Appended c) : c < s.fresh := by
  by_contra hle
  exact absurd (h.unused c (not_lt.mp hle)).1 (Nat.ne_of_gt hc)

/-- Nobody has the new chunk yet. -/
theorem fresh_not_floating (h : Inv s) (j : Tid) : (s.place j).floating ≠ some s.fresh :=
  fun hj => absurd ((h.places j).floats hj).2 (lt_irrefl _)

/-- A new chunk has no `prev` yet. -/
theorem allocate_knows (h : Inv s) : s.allocate.Floats s.fresh ∧ s.allocate.prev s.fresh = none :=
  ⟨⟨(h.unused s.fresh le_rfl).1, Nat.lt_succ_self _⟩, (h.unused s.fresh le_rfl).2⟩

theorem allocate (h : Inv s) : Inv s.allocate where
  bound := h.bound
  inj := h.inj
  top := h.top
  link := h.link
  prevs := h.prevs
  unused := fun n hn => h.unused n (Nat.le_of_succ_le hn)
  iters := h.iters
  places := fun j => (h.places j).keep (fun _ h => h) (fun _ _ _ h => h) (fun _ h => h)
    (fun _ _ h => ⟨⟨h.1, Nat.lt_succ_of_lt h.2⟩, rfl⟩)
  own := h.own

theorem flag (h : Inv s) : Inv (s.flag c) := by
  have hdead : ∀ x, s.Dead x → (s.flag c).Dead x := by
    intro x hx
    simp only [State.Dead, State.flag, update_apply]
    split_ifs
    · rfl
    · exact hx
  exact {
    bound := h.bound
    inj := h.inj
    top := h.top.mono hdead
    link := fun x hx => (h.link x hx).mono hdead
    prevs := h.prevs
    unused := h.unused
    iters := h.iters
    places := by
      intro j
      exact (h.places j).keep (fun _ h => h) (fun _ _ _ h => h.mono hdead) hdead
        (fun _ _ h => ⟨h, rfl⟩)
    own := h.own }

/-- A store to the `prev` of a chunk.  If the chunk is in the list the link has to be good, and
otherwise nobody else may rely on its `prev`. -/
theorem setPrev (h : Inv s) (hc : c < s.fresh) (hp : ∀ q, p = some q → s.Appended q)
    (hlink : s.Appended c → s.LinkFrom c p)
    (hfloat : ∀ j, (s.place j).floating = some c → s.Floats c → (s.setPrev c p).Knows (s.place j)) :
    Inv (s.setPrev c p) where
  bound := h.bound
  inj := h.inj
  top := h.top
  link := by
    intro x hx
    by_cases hxc : x = c
    · have hself : (s.setPrev c p).prev x = p := by rw [hxc]; exact update_self ..
      rw [hself]
      rw [hxc] at hx ⊢
      exact hlink hx
    · have hother : (s.setPrev c p).prev x = s.prev x := update_of_ne hxc ..
      rw [hother]
      exact h.link x hx
  prevs := by
    intro x q hx
    simp only [State.setPrev, update_apply] at hx
    split_ifs at hx with hxc
    · exact hp q hx
    · exact h.prevs x q hx
  unused := by
    intro n hn
    have hnc : n ≠ c := by
      rintro rfl
      exact absurd hc (not_lt.mpr hn)
    exact ⟨(h.unused n hn).1, (update_of_ne hnc ..).trans (h.unused n hn).2⟩
  iters := h.iters
  places := by
    intro j
    by_cases hj : (s.place j).floating = some c
    · exact hfloat j hj ((h.places j).floats hj)
    · refine (h.places j).keep (fun _ h => h) (fun _ _ _ h => h) (fun _ h => h) ?_
      intro n hn hfl
      have hnc : n ≠ c := by
        rintro rfl
        exact hj hn
      exact ⟨hfl, update_of_ne hnc ..⟩
  own := h.own

/-- A chunk that is linked to the head becomes the head. -/
theorem push (h : Inv s) (hn : s.Floats n) (hprev : s.prev n = s.head)
    (hown : ∀ j, (s.place j).floating ≠ some n) : Inv (s.push n) := by
  have happ : ∀ c, s.Appended c → c ≠ n ∧ (s.push n).rank c = s.rank c := by
    intro c hc
    have hcn : c ≠ n := by
      rintro rfl
      exact absurd hn.1 (Nat.ne_of_gt hc)
    exact ⟨hcn, update_of_ne hcn ..⟩
  have hself : (s.push n).rank n = s.length + 1 := update_self ..
  have hlink : ∀ c p, s.Appended c → s.LinkFrom c p → (s.push n).LinkFrom c p := by
    intro c p hc hp
    have hle : s.rank c ≤ s.length + 1 := Nat.le_succ_of_le (h.bound c)
    unfold LinkFrom
    rw [(happ c hc).2]
    exact hp.place hn.1 hle
  have happ' : ∀ c, s.Appended c → (s.push n).Appended c := by
    intro c hc
    unfold Appended
    rw [(happ c hc).2]
    exact hc
  have hcases : ∀ c, (s.push n).Appended c → c = n ∨ s.Appended c := by
    intro c hc
    by_cases hcn : c = n
    · exact Or.inl hcn
    · have hrank : (s.push n).rank c = s.rank c := update_of_ne hcn ..
      rw [Appended, hrank] at hc
      exact Or.inr hc
  exact {
    bound := by
      intro c
      by_cases hcn : c = n
      · rw [hcn, hself]
        rfl
      · have hrank : (s.push n).rank c = s.rank c := update_of_ne hcn ..
        rw [hrank]
        exact Nat.le_succ_of_le (h.bound c)
    inj := by
      intro c d hc hcd
      have hd : (s.push n).Appended d := by rw [Appended, ← hcd]; exact hc
      rcases hcases c hc with rfl | hc' <;> rcases hcases d hd with rfl | hd'
      · rfl
      · have hle := h.bound d
        rw [hself, (happ d hd').2] at hcd
        omega
      · have hle := h.bound c
        rw [hself, (happ c hc').2] at hcd
        omega
      · rw [(happ c hc').2, (happ d hd').2] at hcd
        exact h.inj c d hc' hcd
    -- nothing is above the new head
    top := Link.of_top (Nat.succ_pos _)
    link := by
      intro c hc
      rcases hcases c hc with rfl | hc'
      · -- the link of the new chunk is the one that led to the old head from above
        unfold LinkFrom
        rw [hself]
        show Link (s.push c).rank s.Dead (s.length + 1) (s.prev c)
        rw [hprev]
        exact h.top.place hn.1 le_rfl
      · exact hlink c _ hc' (h.link c hc')
    prevs := fun c q hq => happ' q (h.prevs c q hq)
    unused := by
      intro m hm
      have hmn : m ≠ n := by
        rintro rfl
        exact absurd hn.2 (not_lt.mpr hm)
      exact ⟨(update_of_ne hmn ..).trans (h.unused m hm).1, (h.unused m hm).2⟩
    iters := fun j c hj => happ' c (h.iters j c hj)
    places := by
      intro j
      refine (h.places j).keep happ' hlink (fun _ h => h) ?_
      intro m hm hfl
      have hmn : m ≠ n := by
        rintro rfl
        exact hown j hm
      exact ⟨⟨(update_of_ne hmn ..).trans hfl.1, hfl.2⟩, rfl⟩
    own := h.own }

variable [DecidableEq Tid]

/-- A thread goes to another place, where its chunk is its old one, or nobody's. -/
theorem goto (h : Inv s) (hpc : s.Knows pc)
    (hown : ∀ n, pc.floating = some n → ∀ j, j ≠ i → (s.place j).floating ≠ some n) :
    Inv (s.goto i pc) where
  bound := h.bound
  inj := h.inj
  top := h.top
  link := h.link
  prevs := h.prevs
  unused := h.unused
  iters := h.iters
  places := by
    intro j
    by_cases hj : j = i
    · have hself : (s.goto i pc).place j = pc := by rw [hj]; exact update_self ..
      rw [hself]
      exact hpc
    · have hother : (s.goto i pc).place j = s.place j := update_of_ne hj ..
      rw [hother]
      exact h.places j
  own := by
    intro j k n hj hk
    simp only [State.goto, update_apply] at hj hk
    split_ifs at hj hk with hji hki hki
    · exact hji.trans hki.symm
    · exact absurd hk (hown n hj k hki)
    · exact absurd hj (hown n hk j hji)
    · exact h.own j k n hj hk

/-- A place without a chunk of its own. -/
theorem goto_of_none (h : Inv s) (hpc : s.Knows pc) (hnone : pc.floating = none) :
    Inv (s.goto i pc) :=
  h.goto hpc fun _ hn => absurd (hnone.symm.trans hn) nofun

/-- The thread keeps its chunk. -/
theorem goto_of_same (h : Inv s) (hpc : s.Knows pc) (hi : (s.place i).floating = pc.floating) :
    Inv (s.goto i pc) :=
  h.goto hpc fun n hn j hj hn' => hj (h.own j i n hn' (hi.trans hn))

/-- Nobody else has the chunk of a thread, and once it goes on nobody has. -/
theorem not_floating_of_idle (h : Inv s) (hi : (s.place i).floating = some n) (j : Tid) :
    ((s.goto i .idle).place j).floating ≠ some n := by
  intro hj
  simp only [State.goto, update_apply] at hj
  split_ifs at hj with hji
  · cases hj
  · exact hji (h.own j i n hj hi)

theorem setIter (h : Inv s) (hp : ∀ c, p = some c → s.Appended c) : Inv (s.setIter i p) where
  bound := h.bound
  inj := h.inj
  top := h.top
  link := h.link
  prevs := h.prevs
  unused := h.unused
  iters := by
    intro j c hj
    simp only [State.setIter, update_apply] at hj
    split_ifs at hj with hji
    · exact hp c hj
    · exact h.iters j c hj
  places := fun j => (h.places j).keep (fun _ h => h) (fun _ _ _ h => h) (fun _ h => h)
    (fun _ _ h => ⟨h, rfl⟩)
  own := h.own

theorem stepThread (h : Inv s) (hstep : s.stepThread i = some s') : Inv s' := by
  have hi := h.places i
  cases hpc : s.place i with
  | idle =>
    simp only [State.stepThread, hpc] at hstep
    cases hstep
  -- `append_item` loads the head
  | loadHead n =>
    simp only [State.stepThread, hpc] at hstep
    rw [hpc] at hi
    cases hstep
    exact h.goto_of_same ⟨hi, h.head_appended⟩ (by rw [hpc]; rfl)
  -- it stores the link of its chunk, which nobody else has
  | storePrev n old =>
    simp only [State.stepThread, hpc] at hstep
    rw [hpc] at hi
    cases hstep
    have hset : Inv (s.setPrev n old) := by
      apply h.setPrev hi.1.2 hi.2
      · exact fun hn => absurd hi.1.1 (Nat.ne_of_gt hn)
      · intro j hj hfl
        have hji : j = i := h.own j i n hj (by rw [hpc]; rfl)
        rw [hji, hpc]
        exact hi
    refine hset.goto_of_same ⟨hi.1, update_self ..⟩ ?_
    show (s.place i).floating = some n
    rw [hpc]
    rfl
  -- it exchanges the head: the link of its chunk still leads there
  | swap n old =>
    simp only [State.stepThread, hpc] at hstep
    rw [hpc] at hi
    split_ifs at hstep with hhead
    · cases hstep
      have hfree := h.not_floating_of_idle (i := i) (n := n) (by rw [hpc]; rfl)
      have hidle : Inv (s.goto i .idle) := h.goto_of_none trivial rfl
      have hpush := hidle.push hi.1 (hi.2.trans hhead.symm) hfree
      refine hpush.setIter ?_
      rintro c rfl
      exact hpush.prevs n c hi.2
    · cases hstep
      exact h.goto_of_same hi.1 (by rw [hpc]; rfl)
  -- `try_append_first_item`
  | swapFirst n =>
    simp only [State.stepThread, hpc] at hstep
    rw [hpc] at hi
    have hidle : Inv (s.goto i .idle) := h.goto_of_none trivial rfl
    split_ifs at hstep with hhead
    · cases hstep
      have hfree := h.not_floating_of_idle (i := i) (n := n) (by rw [hpc]; rfl)
      exact hidle.push hi.1 (hi.2.trans hhead.symm) hfree
    · cases hstep
      exact hidle
  -- `skip_deleted_prev` loads the link of its chunk
  | loadPrev c inc =>
    simp only [State.stepThread, hpc] at hstep
    rw [hpc] at hi
    cases hstep
    exact h.goto_of_none ⟨hi, h.link c hi⟩ rfl
  | test c inc p =>
    rw [hpc] at hi
    cases p with
    | none =>
      simp only [State.stepThread, hpc] at hstep
      cases hstep
      exact h.goto_of_none hi rfl
    | some p =>
      simp only [State.stepThread, hpc] at hstep
      cases hstep
      split_ifs with hdel
      · exact h.goto_of_none ⟨hi.1, hi.2, hdel⟩ rfl
      · exact h.goto_of_none hi rfl
  | follow c inc p =>
    simp only [State.stepThread, hpc] at hstep
    rw [hpc] at hi
    cases hstep
    obtain ⟨hc, hlink, hdead⟩ := hi
    -- `p` is deleted, and its own link takes the place of the one that leads to it
    have hp : s.Appended p := hlink.placed p rfl
    exact h.goto_of_none ⟨hc, hlink.skip h.inj hdead (h.link p hp)⟩ rfl
  -- it stores what it has found, whatever the link is by now
  | store c inc p =>
    simp only [State.stepThread, hpc] at hstep
    rw [hpc] at hi
    cases hstep
    have hset : Inv (s.setPrev c p) := by
      apply h.setPrev (h.lt_fresh hi.1) hi.2.placed (fun _ => hi.2)
      intro j _ hfl
      exact absurd hfl.1 (Nat.ne_of_gt hi.1)
    cases inc
    · exact hset.goto_of_none trivial rfl
    · exact hset.goto_of_none hi.1 rfl
  | next c =>
    simp only [State.stepThread, hpc] at hstep
    cases hstep
    exact (h.setIter (h.prevs c)).goto_of_none trivial rfl

theorem step {a : Action Tid} (h : Inv s) (hstep : s.step a = some s') : Inv s' := by
  cases a with
  | run i => exact h.stepThread hstep
  | allocateItem i =>
    obtain ⟨_, ⟨⟩⟩ := Option.ite_none_right_eq_some.mp hstep
    refine h.allocate.goto h.allocate_knows.1 ?_
    rintro n ⟨⟩ j _
    exact h.fresh_not_floating j
  | tryAllocateFirstItem i =>
    obtain ⟨_, ⟨⟩⟩ := Option.ite_none_right_eq_some.mp hstep
    refine h.allocate.goto h.allocate_knows ?_
    rintro n ⟨⟩ j _
    exact h.fresh_not_floating j
  | rbegin i =>
    obtain ⟨_, ⟨⟩⟩ := Option.ite_none_right_eq_some.mp hstep
    exact h.setIter h.head_appended
  | copy i j =>
    obtain ⟨_, ⟨⟩⟩ := Option.ite_none_right_eq_some.mp hstep
    exact h.setIter (h.iters j)
  | optimize i | increment i =>
    obtain ⟨_, hstep⟩ := Option.ite_none_right_eq_some.mp hstep
    cases hiter : s.iter i with
    | none =>
      simp only [hiter] at hstep
      cases hstep
      exact h
    | some c =>
      simp only [hiter] at hstep
      cases hstep
      exact h.goto_of_none (h.iters i c hiter) rfl
  | erase i =>
    obtain ⟨_, hstep⟩ := Option.ite_none_right_eq_some.mp hstep
    cases hiter : s.iter i with
    | none =>
      simp only [hiter] at hstep
      cases hstep
    | some c =>
      simp only [hiter] at hstep
      cases hstep
      exact h.flag

/-- A step numbers at most a chunk that had no number. -/
theorem rank_step {a : Action Tid} (h : Inv s) (hstep : s.step a = some s') (hc : s.Appended c) :
    s'.rank c = s.rank c := by
  have hpush : ∀ {t : State Tid} {n : Nat}, t.rank = s.rank → s.rank n = 0 →
      (t.push n).rank c = s.rank c := by
    intro t n ht hn
    have hcn : c ≠ n := by
      rintro rfl
      exact absurd hn (Nat.ne_of_gt hc)
    exact (update_of_ne hcn ..).trans (congrFun ht c)
  cases a with
  | run i =>
    have hi := h.places i
    change s.stepThread i = some s' at hstep
    cases hpc : s.place i with
    | idle =>
      simp only [State.stepThread, hpc] at hstep
      cases hstep
    -- only the exchange of the head numbers a chunk
    | swap n old | swapFirst n =>
      simp only [State.stepThread, hpc] at hstep
      rw [hpc] at hi
      split_ifs at hstep
      · cases hstep
        exact hpush rfl hi.1.1
      · cases hstep
        rfl
    | test c inc p =>
      cases p <;> simp only [State.stepThread, hpc] at hstep <;> cases hstep <;> rfl
    | loadHead | storePrev | loadPrev | follow | store | next =>
      simp only [State.stepThread, hpc] at hstep
      cases hstep
      rfl
  | allocateItem i | tryAllocateFirstItem i | rbegin i | copy i j =>
    obtain ⟨_, ⟨⟩⟩ := Option.ite_none_right_eq_some.mp hstep
    rfl
  | optimize i | increment i | erase i =>
    obtain ⟨_, hstep⟩ := Option.ite_none_right_eq_some.mp hstep
    cases hiter : s.iter i <;> simp only [hiter] at hstep <;> cases hstep <;> rfl

/-- A run leaves the numbers of the appended chunks as they are. -/
theorem rank_run (h : Inv s) (hrun : Reaches State.step (fun _ _ => True) s s') :
    ∀ c, s.Appended c → s'.rank c = s.rank c := by
  have hall : Inv s' ∧ ∀ c, s.Appended c → s'.rank c = s.rank c := by
    refine hrun.invariant (I := fun t => Inv t ∧ ∀ c, s.Appended c → t.rank c = s.rank c)
      ⟨h, fun _ _ => rfl⟩ ?_
    rintro t a t' ⟨ht, hrank⟩ - hstep
    refine ⟨ht.step hstep, fun c hc => ?_⟩
    have htc : t.Appended c := by
      unfold Appended
      rw [hrank c hc]
      exact hc
    exact (ht.rank_step hstep htc).trans (hrank c hc)
  exact hall.2

theorem of_reachable (h : s.Reachable) : Inv s :=
  h.invariant ofInit fun _ _ _ hinv _ hstep => hinv.step hstep

end Inv

/-! ### No chunk is lost -/

/-- Following one `prev` link. -/
def Prev (s : State Tid) (c d : Nat) : Prop := s.prev c = some d

/-- In every reachable state every chunk that was appended and is not deleted is found from
`head`, and along a chain of `prev` links each chunk was appended before the one it was reached
from. -/
theorem no_chunk_lost [DecidableEq Tid] {s : State Tid} (h : s.Reachable) :
    (∀ c, s.Appended c → s.deleted c = false →
      ∃ q, s.head = some q ∧ ReflTransGen s.Prev q c) ∧
    ∀ c d, TransGen s.Prev c d → s.Appended d ∧ (s.Appended c → s.rank d < s.rank c) := by
  have hinv := Inv.of_reachable h
  constructor
  · intro c hc hlive
    have hnot : ¬ s.Dead c := by
      unfold Dead
      rw [hlive]
      exact Bool.false_ne_true
    exact exists_chain hinv.inj hinv.link hc hnot hinv.top (Nat.lt_succ_of_le (hinv.bound c))
  · intro c d hcd
    refine ⟨?_, fun hc => (rank_lt_of_chain hinv.link hc hcd).2⟩
    obtain ⟨b, _, hbd⟩ := TransGen.tail'_iff.mp hcd
    exact hinv.prevs b d hbd

/-- One iterator is about to store a `prev` while another flags that chunk and moves the link over
it; the store brings the deleted chunk back, and the one below it is found all the same. -/
theorem no_chunk_lost_stale :
    ∃ s : State Bool, s.prev 2 = some 1 ∧ s.deleted 1 = true ∧
      ∃ q, s.head = some q ∧ ReflTransGen s.Prev q 0 := by
  have hrun : ((exec step (fun _ _ => True)
      (List.flatten [.tryAllocateFirstItem false :: .replicate 1 (.run false),
        .allocateItem false :: .replicate 3 (.run false),
        .allocateItem false :: .replicate 3 (.run false),
        .rbegin true :: .increment true :: .replicate 2 (.run true),
        .erase false :: .rbegin false :: .optimize false :: .replicate 5 (.run false),
        .replicate 1 (.run true)])
      (init : State Bool)).map fun s =>
        (s.prev 2, s.deleted 1, s.rank 0, s.deleted 0)) = some (some 1, true, 1, false) := by
    decide +kernel
  obtain ⟨s, hs, h⟩ := Option.map_eq_some_iff.mp hrun
  simp only [Prod.mk.injEq] at h
  obtain ⟨hprev, hdel, hrank, hlive⟩ := h
  have happ : s.Appended 0 := by
    unfold Appended
    rw [hrank]
    exact Nat.one_pos
  exact ⟨s, hprev, hdel, (no_chunk_lost (Reaches.refl.of_exec hs)).1 0 happ hlive⟩

end State

end RedGrapes.AtomicList
