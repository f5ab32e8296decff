/-
RedGrapes/Lib/Schedule.lean

What a scheduler of conflicting jobs is for.

Jobs are submitted one after the other, from outside or by a job that is running, their parent.
Two jobs of one parent may conflict.  A job starts when the earlier jobs it conflicts with have
been released, and a job that has finished is released when its children have been.

* `Schedule.Inv.released_of_started` — of two conflicting jobs of one parent, the earlier and
  everything below it is released before anything below the later has started.
-/
import RedGrapes.Lib.Machine

namespace Machine

/-! ### The abstract scheduler -/

/-- What the scheduler knows of a job: who has submitted it, and which jobs it conflicts with. -/
structure JobRules (J : Type*) where
  parent : J → Option ℕ
  conflict : J → J → Prop

/-- The jobs in the order of submission, and which of them have started, finished and been
released. -/
structure Schedule (J : Type*) where
  jobs : List J
  started : Set ℕ
  finished : Set ℕ
  released : Set ℕ

inductive JobAction (J : Type*)
  | submit (j : J)
  | start (t : ℕ)
  | finish (t : ℕ)
  | release (t : ℕ)

namespace Schedule

variable {J : Type*} (R : JobRules J)

def empty : Schedule J := ⟨[], ∅, ∅, ∅⟩

/-- The parent is running. -/
def MaySubmit (s : Schedule J) (j : J) : Prop :=
  ∀ u, R.parent j = some u → u ∈ s.started ∧ u ∉ s.finished

/-- The earlier jobs that `t` conflicts with are released. -/
def MayStart (s : Schedule J) (t : ℕ) : Prop :=
  t ∉ s.started ∧ ∃ j, s.jobs[t]? = some j ∧
    ∀ i k, i < t → s.jobs[i]? = some k → R.parent k = R.parent j → R.conflict k j → i ∈ s.released

/-- The job has finished, and its children are released. -/
def MayRelease (s : Schedule J) (t : ℕ) : Prop :=
  t ∈ s.finished ∧ t ∉ s.released ∧
    ∀ u j, s.jobs[u]? = some j → R.parent j = some t → u ∈ s.released

open Classical in
noncomputable def step (s : Schedule J) : JobAction J → Option (Schedule J)
  | .submit j => if s.MaySubmit R j then some { s with jobs := s.jobs ++ [j] } else none
  | .start t => if s.MayStart R t then some { s with started := insert t s.started } else none
  | .finish t =>
      if t ∈ s.started ∧ t ∉ s.finished then some { s with finished := insert t s.finished }
      else none
  | .release t =>
      if s.MayRelease R t then some { s with released := insert t s.released } else none

variable {R} {s s' : Schedule J} {a : JobAction J} {t u : ℕ}

theorem step_cases (h : s.step R a = some s') :
    (∃ j, a = .submit j ∧ s.MaySubmit R j ∧ s' = { s with jobs := s.jobs ++ [j] }) ∨
      (∃ t, a = .start t ∧ s.MayStart R t ∧ s' = { s with started := insert t s.started }) ∨
      (∃ t, a = .finish t ∧ (t ∈ s.started ∧ t ∉ s.finished) ∧
        s' = { s with finished := insert t s.finished }) ∨
      ∃ t, a = .release t ∧ s.MayRelease R t ∧ s' = { s with released := insert t s.released } := by
  cases a <;> simp only [step, Option.ite_none_right_eq_some, Option.some.injEq] at h
  · exact .inl ⟨_, rfl, h.1, h.2.symm⟩
  · exact .inr (.inl ⟨_, rfl, h.1, h.2.symm⟩)
  · exact .inr (.inr (.inl ⟨_, rfl, h.1, h.2.symm⟩))
  · exact .inr (.inr (.inr ⟨_, rfl, h.1, h.2.symm⟩))

/-! ### Its invariant -/

/-- Job `t` was submitted by job `u`. -/
def Child (R : JobRules J) (s : Schedule J) (u t : ℕ) : Prop :=
  ∃ j, s.jobs[t]? = some j ∧ R.parent j = some u

/-- `t` is `u` or below it. -/
def Below (R : JobRules J) (s : Schedule J) : ℕ → ℕ → Prop := Relation.ReflTransGen (s.Child R)

structure Inv (R : JobRules J) (s : Schedule J) : Prop where
  submitted : ∀ t ∈ s.started, t < s.jobs.length
  started : s.finished ⊆ s.started
  finished : s.released ⊆ s.finished
  /-- A parent has started before its children, … -/
  parent : ∀ u t, s.Child R u t → u ∈ s.started
  /-- … and is released after them. -/
  children : ∀ u t, s.Child R u t → u ∈ s.released → t ∈ s.released
  order : ∀ t ∈ s.started, ∀ i j k, i < t → s.jobs[i]? = some k → s.jobs[t]? = some j →
    R.parent k = R.parent j → R.conflict k j → i ∈ s.released

namespace Inv

theorem step (h : Inv R s) (hs : s.step R a = some s') : Inv R s' := by
  obtain ⟨j, rfl, hj, rfl⟩ | ⟨t, rfl, ht, rfl⟩ | ⟨t, rfl, ht, rfl⟩ | ⟨t, rfl, ht, rfl⟩ :=
    step_cases hs
  · -- the new job is the last one
    have hold : ∀ i k, i < s.jobs.length → (s.jobs ++ [j])[i]? = some k → s.jobs[i]? = some k :=
      fun i k hi hk => by rwa [List.getElem?_append_left hi] at hk
    have hnew : ∀ t k, ¬ t < s.jobs.length → (s.jobs ++ [j])[t]? = some k → k = j := by
      intro t k ht hk
      rw [List.getElem?_append_right (by omega), List.getElem?_singleton] at hk
      split_ifs at hk
      exact (Option.some.inj hk).symm
    exact {
      submitted := fun t ht => by
        have := h.submitted t ht
        simp only [List.length_append, List.length_singleton]
        omega
      started := h.started
      finished := h.finished
      parent := by
        rintro u t ⟨k, hk, hu⟩
        by_cases ht : t < s.jobs.length
        · exact h.parent u t ⟨k, hold t k ht hk, hu⟩
        · exact (hj u (hnew t k ht hk ▸ hu)).1
      children := by
        rintro u t ⟨k, hk, hu⟩ hrel
        by_cases ht : t < s.jobs.length
        · exact h.children u t ⟨k, hold t k ht hk, hu⟩ hrel
        · exact absurd (h.finished hrel) (hj u (hnew t k ht hk ▸ hu)).2
      order := by
        intro t ht i k k' hi hk hk' hpar hconf
        have hlt := h.submitted t ht
        exact h.order t ht i k k' hi (hold i k' (hi.trans hlt) hk) (hold t k hlt hk') hpar hconf }
  · obtain ⟨hnot, j, hj, hbefore⟩ := ht
    have hlt := (List.getElem?_eq_some_iff.mp hj).1
    exact {
      submitted := by
        intro i hi
        rcases hi with rfl | hi
        · exact hlt
        · exact h.submitted i hi
      started := h.started.trans (Set.subset_insert _ _)
      finished := h.finished
      parent := fun u i hc => Set.mem_insert_of_mem _ (h.parent u i hc)
      children := h.children
      order := by
        intro i hi m k k' hm hk hk' hpar hconf
        rcases hi with rfl | hi
        · obtain rfl : k = j := Option.some.inj (hk'.symm.trans hj)
          exact hbefore m k' hm hk hpar hconf
        · exact h.order i hi m k k' hm hk hk' hpar hconf }
  · exact {
      submitted := h.submitted
      started := Set.insert_subset ht.1 h.started
      finished := h.finished.trans (Set.subset_insert _ _)
      parent := h.parent
      children := h.children
      order := h.order }
  · obtain ⟨hfin, hnot, hchildren⟩ := ht
    exact {
      submitted := h.submitted
      started := h.started
      finished := Set.insert_subset hfin h.finished
      parent := h.parent
      children := by
        rintro u i ⟨k, hk, hu⟩ hrel
        rcases hrel with rfl | hrel
        · exact Set.mem_insert_of_mem _ (hchildren i k hk hu)
        · exact Set.mem_insert_of_mem _ (h.children u i ⟨k, hk, hu⟩ hrel)
      order := fun i hi m k k' hm hk hk' hpar hconf =>
        Set.mem_insert_of_mem _ (h.order i hi m k k' hm hk hk' hpar hconf) }

theorem empty : Inv R (Schedule.empty : Schedule J) where
  submitted := fun t ht => ht.elim
  started := Set.empty_subset _
  finished := Set.empty_subset _
  parent := fun u t hc => by
    obtain ⟨j, hj, -⟩ := hc
    simp [Schedule.empty] at hj
  children := fun u t hc => by
    obtain ⟨j, hj, -⟩ := hc
    simp [Schedule.empty] at hj
  order := fun t ht => ht.elim

/-! ### Whole subtrees -/

theorem started_of_below (h : Inv R s) (ht : s.Below R u t) (hstart : t ∈ s.started) :
    u ∈ s.started := by
  induction ht with
  | refl => exact hstart
  | tail _ hc ih => exact ih (h.parent _ _ hc)

theorem released_of_below (h : Inv R s) (ht : s.Below R u t) (hrel : u ∈ s.released) :
    t ∈ s.released := by
  induction ht with
  | refl => exact hrel
  | tail _ hc ih => exact h.children _ _ hc ih

/-- Nothing below a job starts before everything below an earlier conflicting one is released. -/
theorem released_of_started (h : Inv R s) {i j x y : ℕ} {k l : J} (hij : i < j)
    (hi : s.jobs[i]? = some k) (hj : s.jobs[j]? = some l) (hpar : R.parent k = R.parent l)
    (hconf : R.conflict k l) (hx : s.Below R i x) (hy : s.Below R j y) (hstart : y ∈ s.started) :
    x ∈ s.released :=
  h.released_of_below hx (h.order j (h.started_of_below hy hstart) i l k hij hi hj hpar hconf)

end Inv

theorem inv_of_reaches (hs : Reaches (step R) (fun _ _ => True) Schedule.empty s) : Inv R s :=
  hs.invariant Inv.empty fun _ _ _ h _ hs => h.step hs

end Schedule

end Machine
