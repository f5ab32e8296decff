/-
RedGrapes/Lib/Layers.lean

Runs that come to an end.

A measure in layers is a pair in the lexicographic order whose second part may again be such a
pair.  A step that lowers a layer may do what it likes to the layers after it (`layer_here`) and
must not raise the layers before it (`layer_after`).  Such layers are
sums of weights, over the frames of a pool (`load`), a list or the values of a function.

If every step lowers a well-founded measure, no run is infinite (`Descends.finite`), and from
every state some run comes to a state in which no step is possible (`Descends.exists_last`).  A run
may also be infinite because of steps that leave a measure as it is; then all steps are such steps
from some point on (`exists_forall_not`).
-/
import RedGrapes.Lib.Machine
import Mathlib.Data.Prod.Lex

namespace Machine

/-! ### Layers -/

section Layers

variable {α β : Type*} [PartialOrder α] [Preorder β] {a a' : α} {b b' : β}

theorem layer_here (h : a' < a) : toLex (a', b') < toLex (a, b) :=
  Prod.Lex.toLex_lt_toLex.mpr (.inl h)

theorem layer_after (h : a' ≤ a) (h' : b' < b) : toLex (a', b') < toLex (a, b) :=
  Prod.Lex.toLex_lt_toLex'.mpr ⟨h, fun _ => h'⟩

end Layers

/-! ### Weights of frames -/

section Load

variable {F : Type*} {w : F → Nat} {M : Multiset F}

/-- The weight of all frames of a pool. -/
def load (w : F → Nat) (M : Multiset F) : Nat := (M.map w).sum

theorem load_coe_add (l : List F) : load w (↑l + M) = (l.map w).sum + load w M := by
  simp [load]

/-- One entry of a list is replaced by another. -/
theorem sum_map_set {α : Type*} (w : α → Nat) {l : List α} {i : Nat} {a : α} (b : α)
    (hi : l[i]? = some a) : ((l.set i b).map w).sum + w a = (l.map w).sum + w b := by
  induction l generalizing i with
  | nil => simp at hi
  | cons x l ih =>
      cases i with
      | zero =>
          obtain rfl : x = a := by simpa using hi
          simp only [List.set_cons_zero, List.map_cons, List.sum_cons]
          omega
      | succ i =>
          have := ih (by simpa using hi)
          simp only [List.set_cons_succ, List.map_cons, List.sum_cons]
          omega

/-- One value of a function is replaced by another. -/
theorem sum_range_update {α : Type*} (w : α → Nat) (g : Nat → α) {n i : Nat} (hi : i < n) (b : α) :
    ∑ j ∈ Finset.range n, w (Function.update g i b j) + w (g i) =
      ∑ j ∈ Finset.range n, w (g j) + w b := by
  have hmem := Finset.mem_range.mpr hi
  rw [← Finset.add_sum_erase _ _ hmem, ← Finset.add_sum_erase _ (fun j => w (g j)) hmem,
    Function.update_self]
  have hrest : ∑ j ∈ (Finset.range n).erase i, w (Function.update g i b j) =
      ∑ j ∈ (Finset.range n).erase i, w (g j) := by
    refine Finset.sum_congr rfl fun j hj => ?_
    rw [Function.update_of_ne (Finset.ne_of_mem_erase hj)]
  rw [hrest]
  omega

end Load

/-! ### Runs -/

section Runs

variable {S A β : Type*} {step : S → A → Option S} {ok : S → A → Prop} {I : S → Prop}
  {r : β → β → Prop} {μ : S → β}

/-- The steps that meet `ok` keep the invariant and lower the measure. -/
structure Descends (step : S → A → Option S) (ok : S → A → Prop) (I : S → Prop) (r : β → β → Prop)
    (μ : S → β) : Prop where
  wf : WellFounded r
  keep : ∀ s a s', I s → ok s a → step s a = some s' → I s'
  lower : ∀ s a s', I s → ok s a → step s a = some s' → r (μ s') (μ s)

namespace Descends

/-- No run is infinite. -/
theorem finite (h : Descends step ok I r μ) (run : ℕ → S) (act : ℕ → A) (h₀ : I (run 0))
    (hrun : ∀ n, ok (run n) (act n) ∧ step (run n) (act n) = some (run (n + 1))) : False := by
  have hI : ∀ n, I (run n) := by
    intro n
    induction n with
    | zero => exact h₀
    | succ n ih => exact h.keep _ _ _ ih (hrun n).1 (hrun n).2
  -- a least measure on the run is lowered by the next step
  obtain ⟨-, ⟨n, rfl⟩, hmin⟩ :=
    h.wf.has_min (Set.range fun n => μ (run n)) ⟨_, 0, rfl⟩
  exact hmin _ ⟨n + 1, rfl⟩ (h.lower _ _ _ (hI n) (hrun n).1 (hrun n).2)

/-- Every state leads to one in which no step is possible. -/
theorem exists_last (h : Descends step ok I r μ) {s₀ : S} (h₀ : I s₀) :
    ∃ s, Reaches step ok s₀ s ∧ I s ∧ ∀ a, ok s a → step s a = none := by
  induction hx : μ s₀ using h.wf.induction generalizing s₀ with
  | _ x ih =>
      subst hx
      by_cases hlast : ∀ a, ok s₀ a → step s₀ a = none
      · exact ⟨s₀, .refl, h₀, hlast⟩
      push Not at hlast
      obtain ⟨a, hok, hne⟩ := hlast
      obtain ⟨s₁, hs₁⟩ := Option.ne_none_iff_exists'.mp hne
      obtain ⟨s, hs, hI, hend⟩ := ih _ (h.lower _ _ _ h₀ hok hs₁) (h.keep _ _ _ h₀ hok hs₁) rfl
      exact ⟨s, (Reaches.refl.tail hok hs₁).trans hs, hI, hend⟩

end Descends

end Runs

/-! ### Runs that go on -/

/-- If no step raises a measure and the steps `P` lower it, such steps end. -/
theorem exists_forall_not {μ : ℕ → ℕ} {P : ℕ → Prop} {n₀ : ℕ}
    (hle : ∀ n, n₀ ≤ n → μ (n + 1) ≤ μ n) (hlt : ∀ n, n₀ ≤ n → P n → μ (n + 1) < μ n) :
    ∃ m, n₀ ≤ m ∧ ∀ n, m ≤ n → ¬ P n := by
  classical
  -- the least value that the measure takes from `n₀` on
  have hex : ∃ v, ∃ m, n₀ ≤ m ∧ μ m = v := ⟨μ n₀, n₀, le_rfl, rfl⟩
  obtain ⟨m, hm, hv⟩ := Nat.find_spec hex
  refine ⟨m, hm, fun n hn hP => ?_⟩
  have hdown : μ n ≤ μ m := Nat.le_induction le_rfl
    (fun k hk ih => (hle k (hm.trans hk)).trans ih) n hn
  have hnext : μ (n + 1) < Nat.find hex := (hlt n (hm.trans hn) hP).trans_le (hdown.trans hv.le)
  exact Nat.find_min hex hnext ⟨n + 1, by omega, rfl⟩

section Forever

variable {S A : Type*} {step : S → A → Option S} {ok : S → A → Prop}

/-- The actions of a list, and then one action for ever. -/
def script (as : List A) (b : A) (n : ℕ) : A := as.getD n b

/-- The states under a sequence of actions. -/
def trace (step : S → A → Option S) (a : ℕ → A) (s : S) : ℕ → S
  | 0 => s
  | n + 1 => (step (trace step a s n) (a n)).getD (trace step a s n)

theorem trace_succ (a : ℕ → A) (s : S) (n : ℕ) :
    trace step a s (n + 1) = trace step (fun n => a (n + 1)) ((step s (a 0)).getD s) n := by
  induction n with
  | zero => rfl
  | succ n ih => rw [trace, ih, trace]

/-- A run of a list goes on for ever with an action that can always be done. -/
theorem trace_spec [∀ s a, Decidable (ok s a)] {I : S → Prop} {as : List A} {b : A} {s₀ s : S}
    (h : exec step ok as s₀ = some s) (hI : I s)
    (hb : ∀ s, I s → ok s b ∧ ∃ s', step s b = some s' ∧ I s') (n : ℕ) :
    ok (trace step (script as b) s₀ n) (script as b n) ∧
      step (trace step (script as b) s₀ n) (script as b n) =
        some (trace step (script as b) s₀ (n + 1)) ∧
      (as.length ≤ n → I (trace step (script as b) s₀ n)) := by
  induction as generalizing s₀ n with
  | nil =>
      obtain rfl := Option.some.inj h
      have hall : ∀ n, I (trace step (script [] b) s₀ n) := by
        intro n
        induction n with
        | zero => exact hI
        | succ n ih =>
            obtain ⟨-, s', hs, hI'⟩ := hb _ ih
            rw [trace, show script [] b n = b from rfl, hs]
            exact hI'
      obtain ⟨hok, s', hs, -⟩ := hb _ (hall n)
      refine ⟨hok, ?_, fun _ => hall n⟩
      rw [trace, show script [] b n = b from rfl, hs]
      rfl
  | cons a as ih =>
      simp only [exec] at h
      split_ifs at h with hok
      obtain ⟨s₁, h₁, h₂⟩ := Option.bind_eq_some_iff.mp h
      have hshift : ∀ n, trace step (script (a :: as) b) s₀ (n + 1) =
          trace step (script as b) s₁ n := by
        intro n
        rw [trace_succ, show script (a :: as) b 0 = a from rfl, h₁]
        rfl
      cases n with
      | zero =>
          refine ⟨hok, ?_, fun hle => absurd hle (Nat.not_succ_le_zero _)⟩
          rw [hshift]
          exact h₁
      | succ n =>
          rw [hshift, hshift]
          obtain ⟨h1, h2, h3⟩ := ih h₂ n
          exact ⟨h1, h2, fun hle => h3 (Nat.le_of_succ_le_succ hle)⟩

end Forever

end Machine
