/-
RedGrapes/Lib/Prune.lean

Pruned precedence relations.  `R` is the full relation of pairs that have to
stay in order, `E` the edges that are kept.  An edge may be left out when a
later element `p` stands in for it: `i` still precedes `p`, and `p` has a kept
edge to `j`.  Over a well-founded order this loses nothing:

* `transGen_prune_iff` — `E` and `R` have the same transitive closure;
* `finished_of_prune` — a schedule that respects the kept edges respects all
  of `R`, even when edges from finished elements were never added.
-/
import Mathlib

namespace Prune

open Relation

variable {α : Type*} [LT α] [WellFoundedLT α] {R E : α → α → Prop}

/-- Pruning keeps the transitive closure. -/
theorem transGen_prune_iff (hE : ∀ i j, E i j → R i j)
    (hR : ∀ i j, R i j → E i j ∨ ∃ p < j, R i p ∧ E p j) {i j : α} :
    TransGen E i j ↔ TransGen R i j := by
  have single : ∀ j i, R i j → TransGen E i j := by
    intro j
    induction j using WellFoundedLT.induction with
    | ind j ih =>
      intro i hij
      rcases hR i j hij with h | ⟨p, hp, hip, hpj⟩
      · exact TransGen.single h
      · exact (ih p hp i hip).tail hpj
  constructor
  · exact fun h => TransGen.mono hE _ _ h
  · intro h
    induction h with
    | single h => exact single _ _ h
    | tail _ h ih => exact ih.trans (single _ _ h)

/-- Respecting the kept edges is enough: if `j` starts only after the sources
of its kept edges have finished, it starts only after all `R`-predecessors
have. -/
theorem finished_of_prune {started finished : α → Prop}
    (hfin : ∀ p, finished p → started p)
    (hE : ∀ p j, E p j → started j → finished p)
    (hR : ∀ i j, R i j → started j →
      finished i ∨ E i j ∨ ∃ p < j, R i p ∧ (finished p ∨ E p j))
    {i j : α} (hij : R i j) (hj : started j) : finished i := by
  induction j using WellFoundedLT.induction with
  | ind j ih =>
    rcases hR i j hij hj with h | h | ⟨p, hp, hip, hpj⟩
    · exact h
    · exact hE i j h hj
    · have hfp : finished p := hpj.elim id fun h => hE p j h hj
      exact ih p hp hip (hfin p hfp)

end Prune
