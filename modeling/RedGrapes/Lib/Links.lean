/-
RedGrapes/Lib/Links.lean

Backward links that leave dead nodes out.  Nodes are ranked by the order in which they were
placed, from 1 on; a node of rank 0 has not been placed.  A link from height `n` to `p` leaves
out what lies between, and it is good (`Link`) when all of that is dead.  So a link may be old
or may be moved over dead nodes, but as long as every placed node has a good link, no live node
below the top gets lost:

* `Link.skip` moves a link over a dead node;
* `Link.place` keeps it when a node is placed above;
* `exists_chain` follows the links from the top to any live node;
* `rank_lt_of_chain` says that ranks fall along a chain.
-/
import Mathlib.Logic.Relation
import Mathlib.Order.Nat

namespace Links

open Function Relation

variable {α : Type*} {rank : α → Nat} {dead dead' : α → Prop} {n : Nat} {p : Option α} {q : α}

/-- The height of the end of a link; nothing is below the end of the list. -/
def height (rank : α → Nat) : Option α → Nat
  | none => 0
  | some q => rank q

@[simp] theorem height_none : height rank none = 0 := rfl

@[simp] theorem height_some : height rank (some q) = rank q := rfl

/-- A link from height `n` to `p`: it leads down to a placed node, or to the end of the list,
and all nodes in between are dead. -/
structure Link (rank : α → Nat) (dead : α → Prop) (n : Nat) (p : Option α) : Prop where
  placed : ∀ q, p = some q → 0 < rank q
  down : height rank p < n
  gap : ∀ x, height rank p < rank x → rank x < n → dead x

namespace Link

theorem mono (h : Link rank dead n p) (hd : ∀ x, dead x → dead' x) : Link rank dead' n p where
  placed := h.placed
  down := h.down
  gap := fun x hx hn => hd x (h.gap x hx hn)

/-- A link to a dead node may lead where the link of that node leads. -/
theorem skip (inj : ∀ c d, 0 < rank c → rank c = rank d → c = d) (h : Link rank dead n (some q))
    (hq : dead q) (h' : Link rank dead (rank q) p) : Link rank dead n p where
  placed := h'.placed
  down := lt_trans h'.down h.down
  gap := by
    intro x hx hn
    rcases lt_trichotomy (rank x) (rank q) with hlt | heq | hgt
    · exact h'.gap x hx hlt
    · have hxq : x = q := (inj q x (h.placed q rfl) heq.symm).symm
      rwa [hxq]
    · exact h.gap x hgt hn

variable [DecidableEq α] {c : α} {top : Nat}

/-- Placing a node on top leaves a link alone. -/
theorem place (h : Link rank dead n p) (hc : rank c = 0) (hn : n ≤ top) :
    Link (update rank c top) dead n p := by
  have hheight : height (update rank c top) p = height rank p := by
    cases p with
    | none => rfl
    | some q =>
      have hq : q ≠ c := by
        rintro rfl
        exact absurd (h.placed q rfl) (by omega)
      exact update_of_ne hq ..
  constructor
  · rintro q rfl
    rw [height_some, height_some] at hheight
    rw [hheight]
    exact h.placed q rfl
  · rw [hheight]
    exact h.down
  · intro x hx hlt
    have hxc : x ≠ c := by
      rintro rfl
      rw [update_self] at hlt
      omega
    rw [hheight, update_of_ne hxc] at hx
    rw [update_of_ne hxc] at hlt
    exact h.gap x hx hlt

/-- A link to the node on top, from just above it. -/
theorem of_top (htop : 0 < top) : Link (update rank c top) dead (top + 1) (some c) := by
  constructor
  · intro q hq
    rw [← Option.some.inj hq, update_self]
    exact htop
  · rw [height_some, update_self]
    exact Nat.lt_succ_self top
  · intro x hx hlt
    rw [height_some, update_self] at hx
    omega

end Link

/-! ### Following the links -/

variable {prev : α → Option α}

/-- Every live node below a good link is found by following the links of the placed nodes. -/
theorem exists_chain (inj : ∀ c d, 0 < rank c → rank c = rank d → c = d)
    (hlink : ∀ c, 0 < rank c → Link rank dead (rank c) (prev c)) {x : α} (hx : 0 < rank x)
    (hlive : ¬ dead x) (h : Link rank dead n p) (hn : rank x < n) :
    ∃ q, p = some q ∧ ReflTransGen (fun c d => prev c = some d) q x := by
  induction n using Nat.strong_induction_on generalizing p with
  | _ n ih =>
    have hle : rank x ≤ height rank p := by
      by_contra hlt
      exact hlive (h.gap x (not_le.mp hlt) hn)
    cases p with
    | none => exact absurd hle (not_le.mpr hx)
    | some q =>
      rw [height_some] at hle
      refine ⟨q, rfl, ?_⟩
      rcases hle.eq_or_lt with heq | hlt
      · rw [inj x q hx heq]
      · -- the link of `q` starts lower, and `x` is below it
        obtain ⟨q', hq', hchain⟩ := ih (rank q) h.down (hlink q (h.placed q rfl)) hlt
        exact ReflTransGen.head hq' hchain

/-- Ranks fall along a chain of links. -/
theorem rank_lt_of_chain (hlink : ∀ c, 0 < rank c → Link rank dead (rank c) (prev c)) {c d : α}
    (hc : 0 < rank c) (h : TransGen (fun c d => prev c = some d) c d) :
    0 < rank d ∧ rank d < rank c := by
  have step : ∀ {a b : α}, 0 < rank a → prev a = some b → 0 < rank b ∧ rank b < rank a := by
    intro a b ha hab
    have hdown := (hlink a ha).down
    rw [hab, height_some] at hdown
    exact ⟨(hlink a ha).placed b hab, hdown⟩
  induction h with
  | single h => exact step hc h
  | tail _ h ih =>
    obtain ⟨hpos, hlt⟩ := step ih.1 h
    exact ⟨hpos, lt_trans hlt ih.2⟩

end Links
