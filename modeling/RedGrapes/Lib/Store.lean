/-
RedGrapes/Lib/Store.lean

Transformations of a store, one after the other.

`Keeps f k` says that `f` does not change the entry `k`, `Ignores f k` that it
does not look at it either.  Both carry over to a sequence of transformations,
and a sequence may be changed at one place when the result up to that place
stays the same (`foldl_range_congr`).
-/
import Mathlib

namespace Store

open Function

variable {κ β ι : Type*} [DecidableEq κ]

/-- `f` leaves the entry `k` as it is. -/
def Keeps (f : (κ → β) → κ → β) (k : κ) : Prop := ∀ σ, f σ k = σ k

/-- `f` neither changes the entry `k` nor depends on it. -/
def Ignores (f : (κ → β) → κ → β) (k : κ) : Prop := ∀ σ v, f (update σ k v) = update (f σ) k v

section Sequence

variable {g : ι → (κ → β) → κ → β} {l : List ι} {k : κ}

omit [DecidableEq κ] in
theorem Keeps.foldl (h : ∀ i ∈ l, Keeps (g i) k) : Keeps (fun σ => l.foldl (fun σ i => g i σ) σ) k := by
  intro σ
  induction l generalizing σ with
  | nil => rfl
  | cons i l ih =>
      have hl := ih (fun j hj => h j (List.mem_cons_of_mem i hj)) (g i σ)
      exact hl.trans (h i List.mem_cons_self σ)

theorem Ignores.foldl (h : ∀ i ∈ l, Ignores (g i) k) :
    Ignores (fun σ => l.foldl (fun σ i => g i σ) σ) k := by
  intro σ v
  induction l generalizing σ with
  | nil => rfl
  | cons i l ih =>
      have hl := ih (fun j hj => h j (List.mem_cons_of_mem i hj)) (g i σ)
      show l.foldl (fun σ i => g i σ) (g i (update σ k v)) = _
      rw [h i List.mem_cons_self]
      exact hl

end Sequence

omit [DecidableEq κ] in
/-- A sequence that differs at one place only gives the same result when it
does so up to that place. -/
theorem foldl_range_congr {g g' : Nat → (κ → β) → κ → β} {σ σ' : κ → β} {n t : Nat} (ht : t < n)
    (hg : ∀ i, i ≠ t → g' i = g i)
    (h : g' t ((List.range t).foldl (fun σ i => g i σ) σ') =
      g t ((List.range t).foldl (fun σ i => g i σ) σ)) :
    (List.range n).foldl (fun σ i => g' i σ) σ' = (List.range n).foldl (fun σ i => g i σ) σ := by
  have hcongr : ∀ (l : List Nat), t ∉ l → ∀ τ,
      l.foldl (fun σ i => g' i σ) τ = l.foldl (fun σ i => g i σ) τ := by
    intro l hl τ
    refine List.foldl_ext _ _ _ fun τ i hi => ?_
    rw [hg i fun e => hl (e ▸ hi)]
  obtain ⟨m, rfl⟩ : ∃ m, n = t + 1 + m := ⟨n - (t + 1), by omega⟩
  rw [List.range_add, List.range_succ, List.foldl_append, List.foldl_append, List.foldl_append,
    List.foldl_append, List.foldl_cons, List.foldl_nil, List.foldl_cons, List.foldl_nil,
    hcongr (List.range t) (by simp), h]
  exact hcongr _ (by simp; omega) _

end Store
