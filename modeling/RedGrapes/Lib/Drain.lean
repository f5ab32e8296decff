/-
RedGrapes/Lib/Drain.lean

Counters on the nodes of a graph.  Taking one unit off a node may leave its
counter at zero; then the node *fires* and takes one unit off every node its list
`out` names, and so on.

`Drained out c todo c' fired` says that taking one unit off each node of `todo`
has led from the counters `c` to `c'` and made the nodes `fired` fire, in this
order.  It does not say in which order the units were taken, and it does not have to:
the counters and the nodes that fire depend on neither the order of `todo` nor that of
the lists `out` (`Drained.perm`, `Drained.counter_eq`).  The argument is that a node
fires when the nodes that fired before have taken its last unit; by induction these
also fire in the other order, and the node has no unit left there.

`Covered out S c todo` says that the counters have units for all that is still to be
taken: the debts `todo` and the lists of all nodes that may still fire.
-/
import Mathlib

namespace Drain

variable {E : Type*} [DecidableEq E] {out out' : E → List E} {c c₁ c₂ : E → Nat}
  {todo todo₁ todo₂ fired fired₁ fired₂ : List E} {x y : E}

/-! ### Units passed on -/

/-- The units that the nodes `l` take off `x` when they fire. -/
def passed (out : E → List E) (l : List E) (x : E) : Nat := (l.map fun y => (out y).count x).sum

@[simp] theorem passed_nil : passed out [] x = 0 := rfl

@[simp] theorem passed_cons (l : List E) :
    passed out (y :: l) x = (out y).count x + passed out l x := rfl

@[simp] theorem passed_append (l l' : List E) :
    passed out (l ++ l') x = passed out l x + passed out l' x := by
  unfold passed
  rw [List.map_append, List.sum_append]

theorem passed_congr (h : ∀ y, (out y).Perm (out' y)) (l : List E) :
    passed out l x = passed out' l x := by
  unfold passed
  congr 1
  exact List.map_congr_left fun y _ => (h y).count_eq x

theorem passed_perm {l l' : List E} (h : l.Perm l') : passed out l x = passed out l' x :=
  (h.map _).sum_eq

/-- More nodes take more units. -/
theorem passed_le {l l' : List E} (hnodup : l.Nodup) (hsub : l ⊆ l') :
    passed out l x ≤ passed out l' x := by
  obtain ⟨l'', hperm, hsubl⟩ := List.subperm_of_subset hnodup hsub
  rw [← passed_perm hperm]
  exact (hsubl.map _).sum_le_sum fun _ _ => Nat.zero_le _

/-! ### Draining -/

/-- Taking one unit off each node of `todo` has led from `c` to `c'`, and the nodes
`fired` have fired in this order. -/
structure Drained (out : E → List E) (c : E → Nat) (todo : List E) (c' : E → Nat)
    (fired : List E) : Prop where
  nodup : fired.Nodup
  balance : ∀ x, c x = c' x + todo.count x + passed out fired x
  fired_iff : ∀ x, x ∈ fired ↔ c x ≠ 0 ∧ c' x = 0
  order : ∀ l y r, fired = l ++ y :: r → c y ≤ todo.count y + passed out l y

namespace Drained

theorem nil : Drained out c [] c [] where
  nodup := List.nodup_nil
  balance x := by simp
  fired_iff x := by simp
  order l y r h := by simp at h

/-- A node that keeps a unit does not fire. -/
theorem keep (h : 2 ≤ c x) : Drained out c [x] (Function.update c x (c x - 1)) [] where
  nodup := List.nodup_nil
  balance y := by
    by_cases e : y = x
    · subst e
      simp
      omega
    · simp [e, Ne.symm e]
  fired_iff y := by
    by_cases e : y = x
    · subst e
      simp
      omega
    · simp [e]
  order l y r h := by simp at h

theorem eq_update (h : Drained out c [x] c₁ []) : c₁ = Function.update c x (c x - 1) := by
  funext y
  have hb := h.balance y
  by_cases e : y = x
  · subst e
    simp at hb
    rw [Function.update_self]
    omega
  · simp [Ne.symm e] at hb
    rw [Function.update_of_ne e, hb]

/-- A node whose last unit is taken fires. -/
theorem fire (h : c x = 1) (hd : Drained out (Function.update c x 0) (out x) c₁ fired) :
    Drained out c [x] c₁ (x :: fired) where
  nodup := by
    refine List.nodup_cons.mpr ⟨fun hx => ?_, hd.nodup⟩
    exact ((hd.fired_iff x).mp hx).1 (Function.update_self ..)
  balance y := by
    have hb := hd.balance y
    by_cases e : y = x
    · subst e
      rw [Function.update_self] at hb
      rw [passed_cons, List.count_singleton_self]
      omega
    · rw [Function.update_of_ne e] at hb
      rw [passed_cons, List.count_singleton, if_neg (by simpa using Ne.symm e)]
      omega
  fired_iff y := by
    by_cases e : y = x
    · subst e
      have hb := hd.balance y
      rw [Function.update_self] at hb
      simp [h]
      omega
    · have := hd.fired_iff y
      rw [Function.update_of_ne e] at this
      simp [e, this]
  order l y r heq := by
    cases l with
    | nil =>
        obtain ⟨rfl, -⟩ := List.cons.inj heq
        simp [h]
    | cons z l =>
        obtain ⟨rfl, rfl⟩ := List.cons.inj heq
        have ho := hd.order l y r rfl
        by_cases e : y = x
        · subst e
          simp [h]
        · rw [Function.update_of_ne e] at ho
          rw [passed_cons]
          omega

/-- Taking more units afterwards. -/
theorem append (h₁ : Drained out c todo₁ c₁ fired₁) (h₂ : Drained out c₁ todo₂ c₂ fired₂) :
    Drained out c (todo₁ ++ todo₂) c₂ (fired₁ ++ fired₂) where
  nodup := by
    refine List.Nodup.append h₁.nodup h₂.nodup fun x hx₁ hx₂ => ?_
    exact ((h₂.fired_iff x).mp hx₂).1 ((h₁.fired_iff x).mp hx₁).2
  balance x := by
    have hb₁ := h₁.balance x
    have hb₂ := h₂.balance x
    rw [List.count_append, passed_append]
    omega
  fired_iff x := by
    have hb₁ := h₁.balance x
    have hb₂ := h₂.balance x
    rw [List.mem_append, h₁.fired_iff, h₂.fired_iff]
    omega
  order l y r heq := by
    have hb₁ := h₁.balance y
    rw [List.count_append]
    rcases List.append_eq_append_iff.mp heq with ⟨m, rfl, hm⟩ | ⟨m, hm, hm'⟩
    · -- `y` fires in the second part
      have ho := h₂.order m y r hm
      rw [passed_append]
      omega
    · cases m with
      | nil =>
          simp only [List.append_nil, List.nil_append] at hm hm'
          subst hm
          have ho := h₂.order [] y r hm'.symm
          rw [passed_nil] at ho
          omega
      | cons z m =>
          obtain ⟨rfl, -⟩ := List.cons.inj hm'
          have ho := h₁.order l y m hm
          omega

/-! ### Independence of the order -/

section Unique

variable (h₁ : Drained out c todo₁ c₁ fired₁) (h₂ : Drained out' c todo₂ c₂ fired₂)
  (hout : ∀ y, (out y).Perm (out' y)) (htodo : todo₁.Perm todo₂)

include h₁ h₂ hout htodo

/-- What fires in one order fires in the other. -/
theorem subset : fired₁ ⊆ fired₂ := by
  -- induction over the nodes in the order in which they fire
  have hprefix : ∀ l, l <+: fired₁ → l ⊆ fired₂ := by
    intro l
    induction l using List.reverseRecOn with
    | nil => exact fun _ => List.nil_subset _
    | append_singleton l y ih =>
        rintro ⟨r, hr⟩
        rw [List.append_assoc, List.singleton_append] at hr
        have hl := ih ⟨y :: r, hr⟩
        have hnodup : l.Nodup := (hr ▸ h₁.nodup).of_append_left
        have hle := h₁.order l y r hr.symm
        have hmore : passed out l y ≤ passed out' fired₂ y := by
          rw [passed_congr hout]
          exact passed_le hnodup hl
        have hb := h₂.balance y
        rw [htodo.count_eq] at hle
        have hy : y ∈ fired₁ := hr ▸ List.mem_append_right _ List.mem_cons_self
        have hmem : y ∈ fired₂ := (h₂.fired_iff y).mpr ⟨((h₁.fired_iff y).mp hy).1, by omega⟩
        intro z hz
        rcases List.mem_append.mp hz with hz | hz
        · exact hl hz
        · rw [List.mem_singleton.mp hz]
          exact hmem
  exact hprefix fired₁ List.prefix_rfl

theorem perm : fired₁.Perm fired₂ :=
  (List.perm_ext_iff_of_nodup h₁.nodup h₂.nodup).mpr fun _ =>
    ⟨fun hx => h₁.subset h₂ hout htodo hx,
      fun hx => h₂.subset h₁ (fun y => (hout y).symm) htodo.symm hx⟩

theorem counter_eq : c₁ = c₂ := by
  funext x
  have hb₁ := h₁.balance x
  have hb₂ := h₂.balance x
  have hpassed : passed out fired₁ x = passed out' fired₂ x := by
    rw [passed_congr hout, passed_perm (h₁.perm h₂ hout htodo)]
  rw [htodo.count_eq] at hb₁
  omega

end Unique

end Drained

/-! ### Enough units -/

section Covered

variable {S : Finset E}

/-- The units of `x` that nodes of `S` which may still fire will take. -/
def owed (out : E → List E) (S : Finset E) (c : E → Nat) (x : E) : Nat :=
  ∑ e ∈ S with c e ≠ 0, (out e).count x

/-- Every counter has units for `todo` and for all lists of nodes that may still
fire. -/
def Covered (out : E → List E) (S : Finset E) (c : E → Nat) (todo : List E) : Prop :=
  ∀ x, todo.count x + owed out S c x ≤ c x

/-- The nodes of `S` that may still fire. -/
def openNodes (S : Finset E) (c : E → Nat) : Nat := (S.filter fun e => c e ≠ 0).card

theorem filter_keep (h : 2 ≤ c x) :
    (S.filter fun e => Function.update c x (c x - 1) e ≠ 0) = S.filter fun e => c e ≠ 0 := by
  refine Finset.filter_congr fun e _ => ?_
  by_cases he : e = x
  · subst he
    rw [Function.update_self]
    omega
  · rw [Function.update_of_ne he]

theorem filter_fire : (S.filter fun e => Function.update c x 0 e ≠ 0) =
    (S.filter fun e => c e ≠ 0).erase x := by
  ext e
  by_cases he : e = x
  · subst he
    simp
  · simp [he]

theorem owed_fire (h : c x = 1) (hS : x ∉ S → out x = []) (y : E) :
    owed out S c y = (out x).count y + owed out S (Function.update c x 0) y := by
  unfold owed
  rw [filter_fire]
  by_cases hx : x ∈ S
  · exact (Finset.add_sum_erase _ _ (Finset.mem_filter.mpr ⟨hx, by omega⟩)).symm
  · rw [hS hx, Finset.erase_eq_of_notMem fun hmem => hx (Finset.mem_filter.mp hmem).1]
    simp

namespace Covered

theorem pos (h : Covered out S c (x :: todo)) : 0 < c x := by
  have := h x
  rw [List.count_cons_self] at this
  omega

theorem keep (h : Covered out S c (x :: todo)) (hx : 2 ≤ c x) :
    Covered out S (Function.update c x (c x - 1)) todo := by
  intro y
  have hy := h y
  unfold owed at hy ⊢
  rw [filter_keep hx]
  by_cases e : y = x
  · subst e
    rw [List.count_cons_self] at hy
    rw [Function.update_self]
    omega
  · rw [List.count_cons_of_ne (Ne.symm e)] at hy
    rw [Function.update_of_ne e]
    exact hy

/-- A node that fires owes its list. -/
theorem fire (h : Covered out S c (x :: todo)) (hx : c x = 1) (hS : x ∉ S → out x = []) :
    Covered out S (Function.update c x 0) (out x ++ todo) := by
  intro y
  have hy := h y
  rw [owed_fire hx hS] at hy
  rw [List.count_append]
  by_cases e : y = x
  · subst e
    rw [List.count_cons_self] at hy
    rw [Function.update_self]
    omega
  · rw [List.count_cons_of_ne (Ne.symm e)] at hy
    rw [Function.update_of_ne e]
    omega

end Covered

theorem openNodes_fire (h : c x ≠ 0) (hx : x ∈ S) :
    openNodes S (Function.update c x 0) + 1 = openNodes S c := by
  unfold openNodes
  rw [filter_fire]
  exact Finset.card_erase_add_one (Finset.mem_filter.mpr ⟨hx, h⟩)

/-- Draining opens no node. -/
theorem Drained.openNodes_le (h : Drained out c todo c₁ fired) : openNodes S c₁ ≤ openNodes S c := by
  refine Finset.card_le_card fun e he => ?_
  obtain ⟨hS, hne⟩ := Finset.mem_filter.mp he
  have hb := h.balance e
  exact Finset.mem_filter.mpr ⟨hS, by omega⟩

end Covered

end Drain
