/-
RedGrapes/Lib/Simulation.lean

Simulation along a map of states.  Each step of the one machine is a run of the other, of any
length, so the map takes runs to runs; a step that the other machine does not see is the run of
length zero.

`Steps` is a run as the sequence of its states, where a statement can speak of every step.
-/
import RedGrapes.Lib.Machine

namespace Machine

/-- The states `g` and actions `a` are `N` steps that meet the condition. -/
def Steps {S A : Type*} (step : S → A → Option S) (ok : S → A → Prop) (g : ℕ → S) (a : ℕ → A)
    (N : ℕ) : Prop :=
  ∀ n < N, ok (g n) (a n) ∧ step (g n) (a n) = some (g (n + 1))

theorem Steps.reaches {S A : Type*} {step : S → A → Option S} {ok : S → A → Prop} {g : ℕ → S}
    {a : ℕ → A} {N n : ℕ} (h : Steps step ok g a N) (hn : n ≤ N) :
    Reaches step ok (g 0) (g n) := by
  induction n with
  | zero => exact .refl
  | succ n ih =>
      obtain ⟨hok, hs⟩ := h n hn
      exact (ih (Nat.le_of_succ_le hn)).tail hok hs

/-- The states under a list of actions are such a run. -/
theorem Steps.of_exec {S A : Type*} [Inhabited A] {step : S → A → Option S} {ok : S → A → Prop}
    [∀ s a, Decidable (ok s a)] {as : List A} {s₀ s : S} (h : exec step ok as s₀ = some s) :
    ∃ g a, Steps step ok g a as.length ∧ g 0 = s₀ ∧ g as.length = s := by
  induction as generalizing s₀ with
  | nil => exact ⟨fun _ => s₀, fun _ => default, fun _ hn => absurd hn (Nat.not_lt_zero _), rfl,
      Option.some.inj h⟩
  | cons b as ih =>
      simp only [exec] at h
      split_ifs at h with hok
      obtain ⟨s₁, h₁, h₂⟩ := Option.bind_eq_some_iff.mp h
      obtain ⟨g, a, hg, hg0, hgN⟩ := ih h₂
      refine ⟨fun n => if n = 0 then s₀ else g (n - 1), fun n => if n = 0 then b else a (n - 1),
        fun n hn => ?_, if_pos rfl, ?_⟩
      · cases n with
        | zero =>
            rw [← hg0] at h₁
            exact ⟨hok, h₁⟩
        | succ n => exact hg n (Nat.lt_of_succ_lt_succ hn)
      · exact hgN

end Machine

namespace Machine.Reaches

variable {S A T B : Type*} {step : S → A → Option S} {ok : S → A → Prop} {s₀ s : S}
  {step' : T → B → Option T} {ok' : T → B → Prop} {I : S → Prop} {f : S → T}

/-- One step that meets the condition. -/
theorem single {s' : S} {a : A} (hok : ok s a) (h : step s a = some s') : Reaches step ok s s' :=
  .tail .refl hok h

theorem of_eq {s' : S} (h : s = s') : Reaches step ok s s' := h ▸ .refl

/-- If an invariant of the first machine is all the simulation needs, a run is taken to a run. -/
theorem simulate (h₀ : I s₀)
    (hstep : ∀ s a s', I s → ok s a → step s a = some s' →
      I s' ∧ Reaches step' ok' (f s) (f s')) (hs : Reaches step ok s₀ s) :
    I s ∧ Reaches step' ok' (f s₀) (f s) := by
  induction hs with
  | refl => exact ⟨h₀, .refl⟩
  | tail _ hok hs ih =>
      obtain ⟨hI, hrun⟩ := ih
      obtain ⟨hI', hrun'⟩ := hstep _ _ _ hI hok hs
      exact ⟨hI', hrun.trans hrun'⟩

end Machine.Reaches
