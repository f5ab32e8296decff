/-
RedGrapes/Runtime/PauseEdges.lean

Successors that depend on the pre-event of a task that pauses (`add_dependency` with
`task_dependency_type`, `sg_pause`, `notify_followers`).

An entry of the follower list of an event stays there.  The pre-event of a task that pauses is
reached once for every time it is executed: `sg_pause` stores 1 into a counter that was at
zero.  So entries that are in the list when the task pauses have been notified and will be
notified again (`entry_notified_twice`), which takes a second unit off the successor's counter
for one edge.

Each entry is notified exactly once (`entry_notified_once`) in the runs in which

* `sg_pause` finds the list of the pre-event empty: the successors came after the last pause;
* the thread of the event does not notify the pre-event between the push of `add_follower` and
  `up`: it would reach the pre-event of a task that is not executed, or activate the task
  twice;
* no successor is between its check and its push when the list is walked: its entry would be
  missed.
-/
import RedGrapes.Runtime.PauseHolder

namespace RedGrapes.Runtime

open Function Machine

namespace WorkerPc

/-- The worker is in `notify_followers` of the pre-event. -/
def isNotifying : WorkerPc → Bool
  | .snapshot _ => true
  | .loop _ _ => true
  | _ => false

/-- The worker is about to walk the list of the pre-event. -/
def isSnapshot : WorkerPc → Bool
  | .snapshot _ => true
  | _ => false

def isStore : WorkerPc → Bool
  | .store _ => true
  | _ => false

end WorkerPc

def EventPc.isSnapshot : EventPc → Bool
  | .snapshot _ => true
  | _ => false

namespace Pausing

variable {Tid : Type} [DecidableEq Tid]

/-- The condition on the steps. -/
def OnePass (s : Pausing Tid) : PauseAction Tid → Prop
  | .run i => ((s.workers i).isStore = true → s.followers = []) ∧
      ((s.workers i).isSnapshot = true → s.adding = [])
  | .event x => ((s.events x).isFetching = true →
        ∀ i, s.workers i ≠ .count x ∧ s.workers i ≠ .up x) ∧
      ((s.events x).isSnapshot = true → s.adding = [])
  | _ => True

instance [Fintype Tid] : ∀ (s : Pausing Tid) (a : PauseAction Tid), Decidable (s.OnePass a)
  | s, .run i => inferInstanceAs (Decidable (((s.workers i).isStore = true → s.followers = []) ∧
      ((s.workers i).isSnapshot = true → s.adding = [])))
  | s, .event x => inferInstanceAs (Decidable (((s.events x).isFetching = true →
        ∀ i, s.workers i ≠ .count x ∧ s.workers i ≠ .up x) ∧
      ((s.events x).isSnapshot = true → s.adding = [])))
  | _, .take _ => isTrue trivial
  | _, .yield _ _ => isTrue trivial
  | _, .finish _ => isTrue trivial
  | _, .reach _ => isTrue trivial
  | _, .depend _ => isTrue trivial

omit [DecidableEq Tid] in
theorem OnePass.notBeforeUp {s : Pausing Tid} {a : PauseAction Tid} (h : s.OnePass a) :
    s.NotBeforeUp a := by
  cases a with
  | event x => exact fun hf i => (h.1 hf i).2
  | take i | run i | yield i x | finish i | reach x | depend j => trivial

/-! ### The list of the pre-event -/

/-- How far the entries of the list are notified. -/
inductive Listed (s : Pausing Tid) : Prop
  /-- The pre-event is not reached, and no entry is notified. -/
  | waiting (hcounter : s.counter ≠ 0) (hworkers : ∀ i, (s.workers i).isNotifying = false)
      (hnotified : ∀ f, s.notified f = 0)
  /-- A worker has reached it and is about to walk the list. -/
  | reached (hcounter : s.counter = 0) (i : Tid) (k : After) (hi : s.workers i = .snapshot k)
      (hnotified : ∀ f, s.notified f = 0)
  /-- A worker walks the list, which does not grow any more. -/
  | walking (hcounter : s.counter = 0) (i : Tid) (todo : List Nat) (k : After)
      (hi : s.workers i = .loop todo k) (hadding : s.adding = []) (hnodup : todo.Nodup)
      (htodo : ∀ f ∈ todo, f < s.followers.length)
      (hnotified : ∀ f, s.notified f = if f < s.followers.length ∧ f ∉ todo then 1 else 0)
  /-- All entries are notified. -/
  | walked (hcounter : s.counter = 0) (hworkers : ∀ i, (s.workers i).isNotifying = false)
      (hadding : s.adding = [])
      (hnotified : ∀ f, s.notified f = if f < s.followers.length then 1 else 0)

omit [DecidableEq Tid] in
/-- It depends on the list, its entries and the places of the workers only. -/
theorem Listed.congr {s s' : Pausing Tid} (h : Listed s) (hc : s'.counter = s.counter)
    (hw : s'.workers = s.workers) (hn : s'.notified = s.notified)
    (hf : s'.followers = s.followers) (ha : s'.adding = s.adding) : Listed s' := by
  obtain ⟨b, c, f, n, r, w, e, t, a, m, o, v⟩ := s
  obtain ⟨b', c', f', n', r', w', e', t', a', m', o', v'⟩ := s'
  subst hc hw hn hf ha
  rcases h with ⟨h1, h2, h3⟩ | ⟨h1, i, k, h2, h3⟩ | ⟨h1, i, todo, k, h2, h3, h4, h5, h6⟩ |
      ⟨h1, h2, h3, h4⟩
  · exact .waiting h1 h2 h3
  · exact .reached h1 i k h2 h3
  · exact .walking h1 i todo k h2 h3 h4 h5 h6
  · exact .walked h1 h2 h3 h4

/-- What every run keeps in which each entry is notified once. -/
structure Edges (s : Pausing Tid) : Prop where
  listed : Listed s
  /-- No thread of an event reaches the pre-event. -/
  quiet : ∀ x, (s.events x).isNotifying = false
  counted : ∀ i x, s.workers i = .count x → s.owed (some x) = 1

omit [DecidableEq Tid] in
theorem edges_initial (bodyFirst : Bool) : Edges (initial bodyFirst : Pausing Tid) where
  listed := .waiting (by simp [initial]) (fun _ => rfl) fun _ => rfl
  quiet := fun _ => rfl
  counted := fun i x hi => by cases hi

namespace Edges

variable {s s' : Pausing Tid} {p : Holder Tid}

omit [DecidableEq Tid] in
/-- An entry is notified at most once, and once when the pre-event is reached and nobody walks
its list. -/
theorem notified (h : Edges s) {f : Nat} (hf : f < s.followers.length) :
    s.notified f ≤ 1 ∧ (s.counter = 0 → (∀ i, (s.workers i).isNotifying = false) →
      s.notified f = 1) := by
  rcases h.listed with ⟨hc, -, hn⟩ | ⟨-, i, k, hi, hn⟩ | ⟨-, i, todo, k, hi, -, -, -, hn⟩ |
      ⟨-, -, -, hn⟩
  · exact ⟨by rw [hn]; omega, fun h0 => absurd h0 hc⟩
  · refine ⟨by rw [hn]; omega, fun _ hw => ?_⟩
    have := hw i
    rw [hi] at this
    cases this
  · refine ⟨by rw [hn]; split_ifs <;> omega, fun _ hw => ?_⟩
    have := hw i
    rw [hi] at this
    cases this
  · rw [hn, if_pos hf]
    exact ⟨le_rfl, fun _ _ => rfl⟩

omit [DecidableEq Tid] in
/-- As long as the pre-event is not reached, no entry is notified. -/
theorem of_pos (h : Edges s) (hc : s.counter ≠ 0) :
    (∀ i, (s.workers i).isNotifying = false) ∧ ∀ f, s.notified f = 0 := by
  rcases h.listed with ⟨-, hw, hn⟩ | ⟨h0, -⟩ | ⟨h0, -⟩ | ⟨h0, -⟩
  · exact ⟨hw, hn⟩
  · exact absurd h0 hc
  · exact absurd h0 hc
  · exact absurd h0 hc

omit [DecidableEq Tid] in
/-- When it is reached and nobody walks the list, all entries are notified. -/
theorem of_zero (h : Edges s) (hc : s.counter = 0)
    (hw : ∀ i, (s.workers i).isNotifying = false) :
    s.adding = [] ∧ ∀ f, s.notified f = if f < s.followers.length then 1 else 0 := by
  rcases h.listed with ⟨hpos, -⟩ | ⟨-, i, k, hi, -⟩ | ⟨-, i, todo, k, hi, -⟩ | ⟨-, -, ha, hn⟩
  · exact absurd hc hpos
  · have := hw i
    rw [hi] at this
    cases this
  · have := hw i
    rw [hi] at this
    cases this
  · exact ⟨ha, hn⟩

variable {i : Tid} {pc : WorkerPc}

/-- Only the worker that has the task can be in `notify_followers`. -/
theorem isNotifying_update (hH : Holds s (.worker i)) (hpc : pc.isNotifying = false) (j : Tid) :
    (update s.workers i pc j).isNotifying = false := by
  rw [update_apply]
  split_ifs with hj
  · exact hpc
  · rw [hH.idle_of_ne hj]
    rfl

theorem eq_count_update (hH : Holds s (.worker i)) {j : Tid} {x : Nat}
    (hj : update s.workers i pc j = .count x) : pc = .count x := by
  rw [update_apply] at hj
  split_ifs at hj with hji
  · exact hj
  · rw [hH.idle_of_ne hji] at hj
    cases hj

/-- A step of the worker before the pre-event is reached. -/
theorem goWaiting (h : Edges s) (hH : Holds s (.worker i)) (hc : s.counter ≠ 0)
    (hc' : s'.counter ≠ 0) (hn : s'.notified = s.notified) (he : s'.events = s.events)
    (hw : s'.workers = update s.workers i pc) (hpc : pc.isNotifying = false)
    (hcount : ∀ x, pc = .count x → s'.owed (some x) = 1) : Edges s' where
  listed := by
    refine .waiting hc' ?_ ?_
    · rw [hw]
      exact isNotifying_update hH hpc
    · rw [hn]
      exact (h.of_pos hc).2
  quiet := by
    rw [he]
    exact h.quiet
  counted := by
    intro j x hj
    rw [hw] at hj
    exact hcount x (eq_count_update hH hj)

/-- A step of the worker after the list was walked. -/
theorem goWalked (h : Edges s) (hH : Holds s (.worker i)) (hc : s.counter = 0)
    (hold : (s.workers i).isNotifying = false) (hc' : s'.counter = 0)
    (hn : s'.notified = s.notified) (hf : s'.followers = s.followers)
    (ha : s'.adding = s.adding) (he : s'.events = s.events)
    (hw : s'.workers = update s.workers i pc) (hpc : pc.isNotifying = false)
    (hcount : ∀ x, pc ≠ .count x) : Edges s' := by
  have hall : ∀ j, (s.workers j).isNotifying = false := by
    intro j
    by_cases hj : j = i
    · rw [hj]
      exact hold
    · rw [hH.idle_of_ne hj]
      rfl
  obtain ⟨hadding, hnotified⟩ := h.of_zero hc hall
  exact {
    listed := by
      refine .walked hc' ?_ ?_ ?_
      · rw [hw]
        exact isNotifying_update hH hpc
      · rw [ha, hadding]
      · rw [hn, hf]
        exact hnotified
    quiet := by
      rw [he]
      exact h.quiet
    counted := by
      intro j x hj
      rw [hw] at hj
      exact absurd (eq_count_update hH hj) (hcount x) }

/-- The worker is about to walk the list. -/
theorem snapshot {k : After} (h : Edges s) (hH : Holds s (.worker i))
    (hi : s.workers i = .snapshot k) (hadding : s.adding = []) :
    Edges (s.goto i (.loop s.list k)) where
  listed := by
    have hcounter := hH.counter
    simp only [value, hi] at hcounter
    have hn : ∀ f, s.notified f = 0 := by
      rcases h.listed with ⟨hpos, -⟩ | ⟨-, j, k', hj, hn⟩ | ⟨-, j, todo, k', hj, -⟩ | ⟨-, hw, -⟩
      · exact absurd hcounter hpos
      · exact hn
      · have hji : j = i := by
          by_contra hne
          rw [hH.idle_of_ne hne] at hj
          cases hj
        rw [hji, hi] at hj
        cases hj
      · have := hw i
        rw [hi] at this
        cases this
    refine .walking hcounter i s.list k (update_self _ _ _) hadding ?_ ?_ ?_
    · exact List.nodup_reverse.mpr List.nodup_range
    · intro f hf
      exact List.mem_range.mp (List.mem_reverse.mp hf)
    · intro f
      refine (hn f).trans (if_neg ?_).symm
      rintro ⟨hlt, hnot⟩
      exact hnot (List.mem_reverse.mpr (List.mem_range.mpr hlt))
  quiet := h.quiet
  counted := fun j x hj => by cases eq_count_update hH hj

omit [DecidableEq Tid] in
/-- What a worker that walks the list has done so far. -/
theorem of_loop {todo : List Nat} {k : After} (h : Edges s) (hH : Holds s (.worker i))
    (hi : s.workers i = .loop todo k) :
    s.adding = [] ∧ todo.Nodup ∧ (∀ f ∈ todo, f < s.followers.length) ∧
      ∀ f, s.notified f = if f < s.followers.length ∧ f ∉ todo then 1 else 0 := by
  have hcounter := hH.counter
  simp only [value, hi] at hcounter
  have hsame : ∀ {j : Tid} {pc : WorkerPc}, s.workers j = pc → pc ≠ .idle → pc = .loop todo k := by
    intro j pc hj hne
    by_cases hji : j = i
    · rw [← hj, hji, hi]
    · rw [hH.idle_of_ne hji] at hj
      exact absurd hj.symm hne
  rcases h.listed with ⟨hpos, -⟩ | ⟨-, j, k', hj, -⟩ | ⟨-, j, todo', k', hj, ha, hnd, hlt, hn⟩ |
      ⟨-, hw, -⟩
  · exact absurd hcounter hpos
  · cases hsame hj (by simp)
  · cases hsame hj (by simp)
    exact ⟨ha, hnd, hlt, hn⟩
  · have := hw i
    rw [hi] at this
    cases this

/-- One entry is notified. -/
theorem notifyOne {f : Nat} {todo : List Nat} {k : After} (h : Edges s) (hH : Holds s (.worker i))
    (hi : s.workers i = .loop (f :: todo) k) : Edges ((s.notifyEntry f).goto i (.loop todo k)) where
  listed := by
    have hcounter := hH.counter
    simp only [value, hi] at hcounter
    obtain ⟨hadding, hnodup, hlt, hn⟩ := h.of_loop hH hi
    obtain ⟨hf, hnodup'⟩ := List.nodup_cons.mp hnodup
    refine .walking hcounter i todo k (update_self _ _ _) hadding hnodup'
      (fun g hg => hlt g (List.mem_cons_of_mem _ hg)) ?_
    intro g
    show update s.notified f (s.notified f + 1) g = _
    rw [update_apply]
    split_ifs with hg hc hc
    · rw [hn, if_neg (by simp)]
    · rw [hg] at hc
      exact absurd ⟨hlt f List.mem_cons_self, hf⟩ hc
    · refine (hn g).trans (if_pos ⟨hc.1, ?_⟩)
      exact fun hmem => (List.mem_cons.mp hmem).elim hg hc.2
    · refine (hn g).trans (if_neg ?_)
      rintro ⟨hglt, hgmem⟩
      exact hc ⟨hglt, fun hmem => hgmem (List.mem_cons_of_mem _ hmem)⟩
  quiet := h.quiet
  counted := fun j x hj => by cases eq_count_update hH hj

theorem resume_isNotifying (k : After) : (resume k).isNotifying = false := by
  cases k <;> rfl

theorem resume_ne_count (k : After) (x : Nat) : resume k ≠ .count x := by
  cases k <;> simp [resume]

/-- The list is walked. -/
theorem endLoop {k : After} (h : Edges s) (hH : Holds s (.worker i))
    (hi : s.workers i = .loop [] k) : Edges (s.goto i (resume k)) where
  listed := by
    have hcounter := hH.counter
    simp only [value, hi] at hcounter
    obtain ⟨hadding, -, -, hn⟩ := h.of_loop hH hi
    simp only [List.not_mem_nil, not_false_eq_true, and_true] at hn
    exact .walked hcounter (isNotifying_update hH (resume_isNotifying k)) hadding hn
  quiet := h.quiet
  counted := fun j x hj => absurd (eq_count_update hH hj) (resume_ne_count k x)

/-- `sg_pause` finds the list empty. -/
theorem store {x : Nat} (h : Edges s) (hH : Holds s (.worker i)) (hi : s.workers i = .store x)
    (hempty : s.followers = []) :
    Edges (({ s with counter := 1, pausedOn := some x, activated := 0 } : Pausing Tid).goto i
      (.check x)) where
  listed := by
    have hcounter := hH.counter
    simp only [value, hi] at hcounter
    have hall : ∀ j, (s.workers j).isNotifying = false := by
      intro j
      by_cases hj : j = i
      · rw [hj, hi]
        rfl
      · rw [hH.idle_of_ne hj]
        rfl
    obtain ⟨-, hn⟩ := h.of_zero hcounter hall
    refine .waiting Nat.one_ne_zero (isNotifying_update (s := s) hH rfl) ?_
    intro f
    refine (hn f).trans (if_neg ?_)
    rw [hempty]
    exact Nat.not_lt_zero f
  quiet := h.quiet
  counted := fun j y hj => by cases eq_count_update (s := s) hH hj

/-- The `fetch_sub` of the worker, whatever it leaves in the counter. -/
theorem fetch {k : After} (h : Edges s) (hH : Holds s (.worker i)) (hi : s.workers i = .fetch k)
    (n : Nat) :
    Edges (({ s with counter := n } : Pausing Tid).goto i
      (if n = 1 then .activate k else if n = 0 then .snapshot k else resume k)) := by
  have hcounter := hH.counter
  simp only [value, hi] at hcounter
  have hpos : s.counter ≠ 0 := by
    rw [hcounter]
    cases k <;> simp [WorkerPc.value]
  by_cases h0 : n = 0
  · -- the pre-event is reached, and no entry is notified yet
    rw [h0]
    exact {
      listed := .reached rfl i k (update_self _ _ _) (h.of_pos hpos).2
      quiet := h.quiet
      counted := fun j y hj => by cases eq_count_update (s := s) hH hj }
  · refine h.goWaiting hH hpos h0 rfl rfl rfl ?_ ?_
    · split_ifs
      · rfl
      · exact resume_isNotifying k
    · intro x hx
      split_ifs at hx
      exact absurd hx (resume_ne_count k x)

theorem stepWorker (h : Edges s) (hH : Holds s p) (hok : s.OnePass (.run i))
    (hs : s.stepWorker i = some s') : Edges s' := by
  -- a worker that does not hold the task is idle
  have hp : p = .worker i := by
    by_contra hne
    have hidle := hH.idle i hne
    simp [Pausing.stepWorker, hidle] at hs
  subst hp
  have hcounter := hH.counter
  simp only [value] at hcounter
  unfold Pausing.stepWorker at hs
  split at hs
  · cases hs
  · cases hs
  · next k hi =>
      cases hs
      exact h.fetch hH hi s.fetched
  · next k hi =>
      cases hs
      rw [hi] at hcounter
      have hpos : s.counter ≠ 0 := by
        rw [hcounter]
        exact Nat.one_ne_zero
      refine h.goWaiting hH hpos hpos rfl rfl rfl (resume_isNotifying k) ?_
      intro x hx
      exact absurd hx (resume_ne_count k x)
  · next k hi =>
      cases hs
      exact h.snapshot hH hi (hok.2 (by rw [hi]; rfl))
  · next k hi =>
      cases hs
      exact h.endLoop hH hi
  · next f todo k hi =>
      cases hs
      exact h.notifyOne hH hi
  · next x hi =>
      cases hs
      exact h.store hH hi (hok.1 (by rw [hi]; rfl))
  · next x hi =>
      cases hs
      rw [hi] at hcounter
      have hpos : s.counter ≠ 0 := by
        rw [hcounter]
        exact Nat.one_ne_zero
      refine h.goWaiting hH hpos hpos rfl rfl rfl ?_ ?_
      · split_ifs <;> rfl
      · intro y hy
        split_ifs at hy
  · next x hi =>
      cases hs
      rw [hi] at hcounter
      have hpos : s.counter ≠ 0 := by
        rw [hcounter]
        exact Nat.one_ne_zero
      refine h.goWaiting hH hpos hpos rfl rfl rfl rfl ?_
      rintro y ⟨⟩
      have hby : s.owedBy (.worker i) = none := by
        show (s.workers i).owedBy = none
        rw [hi]
        rfl
      have hone := Holds.owed_push s x
      rw [hH.owed_of_none hby x] at hone
      exact hone
  · next x hi =>
      cases hs
      have hone := h.counted i x hi
      rw [hi] at hcounter
      change s.counter = s.owed (some x) at hcounter
      have hraised : s.raised = s.counter + 1 := Holds.raised_eq (by omega)
      refine h.goWaiting hH (by omega) ?_ rfl rfl rfl rfl (fun y hy => by cases hy)
      show s.raised ≠ 0
      omega
  · next x hi =>
      cases hs
      have howed := hH.owed
      simp only [Pausing.owedBy, hi] at howed
      change s.owed (some x) ≤ 1 at howed
      rw [hi] at hcounter
      change s.counter = 1 + s.owed (some x) at hcounter
      have hraised : s.raised = s.counter + 1 := Holds.raised_eq (by omega)
      refine h.goWaiting hH (by omega) ?_ rfl rfl rfl rfl (fun y hy => by cases hy)
      show s.raised ≠ 0
      omega

omit [DecidableEq Tid] in
/-- A step of the thread of an event that does not touch the pre-event. -/
theorem eventKeep {x : Nat} {pc : EventPc} (h : Edges s) (hc : s'.counter = s.counter)
    (hw : s'.workers = s.workers) (hn : s'.notified = s.notified)
    (hf : s'.followers = s.followers) (ha : s'.adding = s.adding)
    (he : s'.events = update s.events x pc) (ht : s'.entries = s.entries)
    (hm : s'.missed = s.missed) (hpc : pc.isNotifying = false) (howes : s'.owes x = s.owes x) :
    Edges s' where
  listed := h.listed.congr hc hw hn hf ha
  quiet := by
    intro y
    rw [he, update_apply]
    split_ifs
    · exact hpc
    · exact h.quiet y
  counted := by
    intro i y hi
    rw [hw] at hi
    have hold := h.counted i y hi
    have hy : s'.owes y = s.owes y := by
      by_cases hyx : y = x
      · rw [hyx]
        exact howes
      · simp only [owes, he, ht, update_of_ne hyx]
    show s'.owes y + s'.missed = 1
    rw [hy, hm]
    exact hold

omit [DecidableEq Tid] in
/-- The `fetch_sub` of the thread of an event does not reach the pre-event. -/
theorem eventFetch {x n : Nat} (h : Edges s) (hH : Holds s p) (hx : s.events x = .walk (n + 1))
    (hok : ∀ i, s.workers i ≠ .count x ∧ s.workers i ≠ .up x) :
    Edges (({ s with counter := s.fetched } : Pausing Tid).eventGoto x
      (if s.fetched = 1 then .activate n else if s.fetched = 0 then .snapshot n else .walk n)) := by
  obtain ⟨hby, -, -, hone⟩ := hH.owedBy_of_walk hx
  have hcounter := hH.counter
  -- the counter is at two or three, and no worker is about to increment it
  have hvals : (s.counter = 2 ∨ s.counter = 3) ∧ ∀ i y, s.workers i ≠ .count y := by
    cases p with
    | queued | waking y | done => cases hby
    | waiting y =>
        cases hby
        refine ⟨Or.inl ?_, fun i y hi => ?_⟩
        · rw [hcounter]
          show 1 + s.owed (some x) = 2
          rw [hone]
        · rw [hH.idle i (by simp)] at hi
          cases hi
    | worker j =>
        have hby : (s.workers j).owedBy = some x := hby
        simp only [value] at hcounter
        rw [hby, hone] at hcounter
        rcases WorkerPc.owedBy_eq_some hby with hw | hw | hw
        · exact absurd hw (hok j).1
        · exact absurd hw (hok j).2
        · rw [hw] at hcounter
          refine ⟨Or.inr hcounter, fun i y hi => ?_⟩
          by_cases hij : i = j
          · rw [hij, hw] at hi
            cases hi
          · rw [hH.idle_of_ne hij] at hi
            cases hi
  obtain ⟨hc, hcount⟩ := hvals
  have hfetched : s.fetched = 1 ∨ s.fetched = 2 := by
    rcases hc with hc | hc
    · exact Or.inl (Holds.fetched_eq hc (by omega))
    · exact Or.inr (Holds.fetched_eq hc (by omega))
  obtain ⟨hw, hn⟩ := h.of_pos (by omega)
  exact {
    listed := by
      refine .waiting ?_ hw hn
      show s.fetched ≠ 0
      omega
    quiet := by
      intro y
      show (update s.events x _ y).isNotifying = false
      rw [update_apply]
      split_ifs with hy h1 h0
      · rfl
      · omega
      · rfl
      · exact h.quiet y
    counted := fun i y hi => absurd hi (hcount i y) }

omit [DecidableEq Tid] in
/-- A step of the thread of an event. -/
theorem stepEvent {x : Nat} (h : Edges s) (hH : Holds s p) (hok : s.OnePass (.event x))
    (hs : s.stepEvent x = some s') : Edges s' := by
  have hquiet := h.quiet x
  unfold Pausing.stepEvent at hs
  split at hs
  · cases hs
  · next he =>
      cases hs
      refine h.eventKeep rfl rfl rfl rfl rfl rfl rfl rfl rfl ?_
      simp [owes, eventGoto, he]
  · cases hs
  · next n he =>
      cases hs
      exact h.eventFetch hH he (hok.1 (by rw [he]; rfl))
  · next n he =>
      cases hs
      refine h.eventKeep rfl rfl rfl rfl rfl rfl rfl rfl rfl ?_
      simp [owes, eventGoto, he]
  · next n he =>
      rw [he] at hquiet
      cases hquiet
  · next n he =>
      rw [he] at hquiet
      cases hquiet
  · next f todo n he =>
      rw [he] at hquiet
      cases hquiet

omit [DecidableEq Tid] in
/-- A step of a successor. -/
theorem stepDepend (h : Edges s) (j : Nat) : Edges (s.stepDepend j) := by
  unfold Pausing.stepDepend
  split_ifs with hmem hc
  · refine ⟨?_, h.quiet, h.counted⟩
    rcases h.listed with ⟨h1, h2, h3⟩ | ⟨h1, i, k, h2, h3⟩ | ⟨h1, i, todo, k, h2, h3, -⟩ |
        ⟨h1, h2, h3, -⟩
    · exact .waiting h1 h2 h3
    · exact .reached h1 i k h2 h3
    · rw [h3] at hmem
      cases hmem
    · rw [h3] at hmem
      cases hmem
  · exact h
  · obtain ⟨hw, hn⟩ := h.of_pos hc
    exact ⟨.waiting hc hw hn, h.quiet, h.counted⟩

/-- A step from a place outside of a pause, before or after the pre-event is reached. -/
theorem goBody (h : Edges s) (hH : Holds s p) (hi : s.workers i = .body)
    (hc : s'.counter = s.counter) (hn : s'.notified = s.notified)
    (hf : s'.followers = s.followers) (ha : s'.adding = s.adding) (he : s'.events = s.events)
    (hw : s'.workers = update s.workers i pc) (hpc : pc.isNotifying = false)
    (hcount : ∀ x, pc ≠ .count x) : Edges s' := by
  obtain ⟨rfl, -⟩ := hH.worker_of_body hi
  by_cases h0 : s.counter = 0
  · refine h.goWalked hH h0 ?_ (hc.trans h0) hn hf ha he hw hpc hcount
    rw [hi]
    rfl
  · exact h.goWaiting hH h0 (hc ▸ h0) hn he hw hpc fun x hx => absurd hx (hcount x)

/-- A worker takes the task from a ready queue. -/
theorem take (h : Edges s) (hH : Holds s .queued) :
    Edges (({ s with ready := s.ready - 1 } : Pausing Tid).goto i
      (if s.bodyFirst then .body else .fetch .body)) := by
  have hpos : s.counter ≠ 0 := by
    rw [hH.counter]
    exact Nat.one_ne_zero
  have hplaces : ∀ j, update s.workers i (if s.bodyFirst then .body else .fetch .body) j = .idle ∨
      update s.workers i (if s.bodyFirst then .body else .fetch .body) j = .body ∨
      update s.workers i (if s.bodyFirst then .body else .fetch .body) j = .fetch .body := by
    intro j
    rw [update_apply]
    split_ifs with hj hb
    · exact Or.inr (Or.inl rfl)
    · exact Or.inr (Or.inr rfl)
    · exact Or.inl (hH.idle j (by simp))
  exact {
    listed := by
      refine .waiting hpos ?_ (h.of_pos hpos).2
      intro j
      rcases hplaces j with hj | hj | hj <;> exact congrArg WorkerPc.isNotifying hj
    quiet := h.quiet
    counted := by
      intro j x hj
      rcases hplaces j with hj' | hj' | hj' <;> cases hj'.symm.trans hj }

theorem step {a : PauseAction Tid} (h : Edges s) (hH : Holds s p) (hok : s.OnePass a)
    (hs : s.step a = some s') : Edges s' := by
  cases a with
  | run i => exact h.stepWorker hH hok hs
  | event x => exact h.stepEvent hH hok hs
  | depend j =>
      cases hs
      exact h.stepDepend j
  | reach x =>
      simp only [Pausing.step] at hs
      split at hs
      · next he =>
          cases hs
          refine h.eventKeep rfl rfl rfl rfl rfl rfl rfl rfl rfl ?_
          simp [owes, eventGoto, he]
      · cases hs
  | yield i x =>
      simp only [Pausing.step] at hs
      split at hs
      · next hc =>
          cases hs
          refine h.goBody hH hc.1 rfl rfl rfl rfl rfl rfl ?_ ?_
          · split_ifs <;> rfl
          · intro y
            split_ifs <;> simp
      · cases hs
  | finish i =>
      simp only [Pausing.step] at hs
      split at hs
      · next hc =>
          cases hs
          refine h.goBody hH hc rfl rfl rfl rfl rfl rfl ?_ ?_
          · split_ifs <;> rfl
          · intro y
            split_ifs <;> simp
      · cases hs
  | take i =>
      simp only [Pausing.step] at hs
      split at hs
      · next hc =>
          cases hs
          obtain rfl := hH.queued_of_ready hc.2
          exact h.take hH
      · cases hs

end Edges

/-! ### Runs -/

/-- The pre-event is reached, and nobody is in `notify_followers` on it. -/
def PassOver (s : Pausing Tid) : Prop :=
  s.counter = 0 ∧ (∀ i, (s.workers i).isNotifying = false) ∧
    ∀ x, (s.events x).isNotifying = false

/-- **Each edge is consumed once.**  In every run in which `sg_pause` finds the follower list
of the pre-event empty, the thread of an event does not notify the pre-event between the push
and `up`, and no successor is between its check and its push when the list is walked, every
entry of the list is notified at most once, and exactly once when the pre-event is reached and
the walk is over. -/
theorem entry_notified_once {bodyFirst : Bool} {s : Pausing Tid}
    (hs : Reaches step OnePass (initial bodyFirst) s) {f : Nat} (hf : f < s.followers.length) :
    s.notified f ≤ 1 ∧ (s.PassOver → s.notified f = 1) := by
  have hboth : (∃ p, Holds s p) ∧ Edges s := by
    refine hs.invariant (I := fun s => (∃ p, Holds s p) ∧ Edges s)
      ⟨⟨_, holds_initial bodyFirst⟩, edges_initial bodyFirst⟩ ?_
    rintro s a s' ⟨⟨p, hH⟩, h⟩ hok hstep
    exact ⟨hH.step hok.notBeforeUp hstep, h.step hH hok hstep⟩
  obtain ⟨hle, hone⟩ := hboth.2.notified hf
  exact ⟨hle, fun hover => hone hover.1 hover.2.1⟩

/-! ### Runs of the CUDA worker -/

/-- The worker `i` takes the task, its body yields on the event `x`, and the worker notifies
the pre-event and its `n` followers and pauses. -/
def pauseOn (i : Fin 1) (x n : Nat) : List (PauseAction (Fin 1)) :=
  .take i :: .yield i x :: .replicate (n + 9) (.run i)

/-- The event `x` is reached, and its thread activates the task. -/
def wake (x : Nat) : List (PauseAction (Fin 1)) := .reach x :: .replicate 3 (.event x)

/-- A successor adds itself to the pre-event while the task is paused, and the task is
finished. -/
theorem entry_notified_once_finished :
    ∃ s : Pausing (Fin 1), Reaches step OnePass (initial true) s ∧ s.followers = [7] ∧
      s.counter = 0 ∧ s.notified 0 ≤ 1 := by
  have hrun : ((exec step OnePass (List.flatten [pauseOn 0 0 0, [.depend 7, .depend 7], wake 0,
      [.take 0, .finish 0], .replicate 4 (.run 0)]) (initial true)).map
        fun s => (s.followers, s.counter)) = some ([7], 0) := by
    decide +kernel
  obtain ⟨s, hs, h⟩ := Option.map_eq_some_iff.mp hrun
  simp only [Prod.mk.injEq] at h
  have hreach : Reaches step OnePass (initial true) s := Reaches.refl.of_exec hs
  refine ⟨s, hreach, h.1, h.2, (entry_notified_once hreach ?_).1⟩
  rw [h.1]
  exact Nat.zero_lt_one

/-- The task pauses again after it has notified the successor, and notifies it once more when
it is resumed. -/
theorem entry_notified_twice :
    ¬ ∀ (bodyFirst : Bool) (s : Pausing (Fin 1)),
      Reaches step (fun _ _ => True) (initial bodyFirst) s → ∀ f, f < s.followers.length →
        s.notified f ≤ 1 ∧ (s.PassOver → s.notified f = 1) := by
  intro hclaim
  have hrun : ((exec step (fun _ _ => True) (List.flatten [pauseOn 0 0 0, [.depend 7, .depend 7],
      wake 0, pauseOn 0 1 1, wake 1, [.take 0, .finish 0], .replicate 4 (.run 0)])
        (initial true)).map fun s => (s.followers, s.notified 0)) = some ([7], 2) := by
    decide +kernel
  obtain ⟨s, hs, h⟩ := Option.map_eq_some_iff.mp hrun
  simp only [Prod.mk.injEq] at h
  have hlt : 0 < s.followers.length := by
    rw [h.1]
    exact Nat.zero_lt_one
  have := (hclaim true s (Reaches.refl.of_exec hs) 0 hlt).1
  omega

end Pausing

end RedGrapes.Runtime
