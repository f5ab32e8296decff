/-
RedGrapes/Lib/Offer.lean

Offering candidates one after the other until one is taken.  Whether a candidate is taken may
depend on the calls before, so the list of calls is passed on, the latest first.

The first candidate is called first (`exists_first`), the candidates called are a prefix of the
list (`exists_prefix`), and a candidate is called if and only if all before it are declined
(`mem_calls_iff`).
-/
import Mathlib.Data.List.Basic

namespace Offer

variable {ι α : Type*} (f : List (ι × Option α) → ι → Option α)

/-- Offer the candidates until `f` takes one: its answer, and the calls. -/
def offer : List ι → List (ι × Option α) → Option α × List (ι × Option α)
  | [], calls => (none, calls)
  | i :: l, calls =>
      match f calls i with
      | some x => (some x, (i, some x) :: calls)
      | none => offer l ((i, none) :: calls)

/-- `f` declines all the candidates, offered in this order after `calls`. -/
def Declines : List (ι × Option α) → List ι → Prop
  | _, [] => True
  | calls, i :: l => f calls i = none ∧ Declines ((i, none) :: calls) l

variable {f} {i : ι} {l l' : List ι} {calls : List (ι × Option α)}

theorem offer_of_some {x : α} (h : f calls i = some x) :
    offer f (i :: l) calls = (some x, (i, some x) :: calls) := by
  rw [offer, h]

theorem offer_of_none (h : f calls i = none) :
    offer f (i :: l) calls = offer f l ((i, none) :: calls) := by
  rw [offer, h]

theorem offer_append (l l' : List ι) (calls : List (ι × Option α)) :
    offer f (l ++ l') calls =
      match offer f l calls with
      | (some x, calls) => (some x, calls)
      | (none, calls) => offer f l' calls := by
  induction l generalizing calls with
  | nil => rfl
  | cons i l ih =>
    rw [List.cons_append]
    cases h : f calls i with
    | some x => rw [offer_of_some h, offer_of_some h]
    | none => rw [offer_of_none h, offer_of_none h, ih]

/-- New calls stand before the earlier ones. -/
theorem exists_append (l : List ι) (calls : List (ι × Option α)) :
    ∃ new, (offer f l calls).2 = new ++ calls := by
  induction l generalizing calls with
  | nil => exact ⟨[], rfl⟩
  | cons i l ih =>
    cases h : f calls i with
    | some x =>
      rw [offer_of_some h]
      exact ⟨[(i, some x)], rfl⟩
    | none =>
      obtain ⟨new, hnew⟩ := ih ((i, none) :: calls)
      rw [offer_of_none h, hnew]
      exact ⟨new ++ [(i, none)], by rw [List.append_assoc]; rfl⟩

/-- The first candidate is called first. -/
theorem exists_first (i : ι) (l : List ι) :
    ∃ new x, (offer f (i :: l) []).2 = new ++ [(i, x)] := by
  cases h : f [] i with
  | some x =>
    rw [offer_of_some h]
    exact ⟨[], some x, rfl⟩
  | none =>
    obtain ⟨new, hnew⟩ := exists_append (f := f) l [(i, none)]
    rw [offer_of_none h]
    exact ⟨new, none, hnew⟩

/-- The candidates called are a prefix of the list. -/
theorem exists_prefix (l : List ι) (calls : List (ι × Option α)) :
    ∃ m, m <+: l ∧ (offer f l calls).2.map Prod.fst = m.reverse ++ calls.map Prod.fst := by
  induction l generalizing calls with
  | nil => exact ⟨[], List.nil_prefix, rfl⟩
  | cons i l ih =>
    cases h : f calls i with
    | some x =>
      refine ⟨[i], ⟨l, rfl⟩, ?_⟩
      rw [offer_of_some h]
      rfl
    | none =>
      obtain ⟨m, hm, hcalls⟩ := ih ((i, none) :: calls)
      refine ⟨i :: m, List.cons_prefix_cons.mpr ⟨rfl, hm⟩, ?_⟩
      rw [offer_of_none h, hcalls, List.reverse_cons, List.append_assoc]
      rfl

/-- A candidate is called if and only if all before it are declined. -/
theorem mem_calls_iff :
    i ∈ (offer f l calls).2.map Prod.fst ↔
      i ∈ calls.map Prod.fst ∨ ∃ before after, l = before ++ i :: after ∧ Declines f calls before := by
  induction l generalizing calls with
  | nil => simp [offer]
  | cons j l ih =>
    have hhead : j = i → ∃ before after, j :: l = before ++ i :: after ∧ Declines f calls before := by
      rintro rfl
      exact ⟨[], l, rfl, trivial⟩
    constructor
    · intro hi
      cases h : f calls j with
      | some x =>
        rw [offer_of_some h, List.map_cons, List.mem_cons] at hi
        rcases hi with rfl | hi
        · exact Or.inr (hhead rfl)
        · exact Or.inl hi
      | none =>
        rw [offer_of_none h, ih, List.map_cons, List.mem_cons] at hi
        rcases hi with (rfl | hi) | ⟨before, after, rfl, hdecl⟩
        · exact Or.inr (hhead rfl)
        · exact Or.inl hi
        · exact Or.inr ⟨j :: before, after, rfl, h, hdecl⟩
    · intro hi
      cases h : f calls j with
      | some x =>
        rw [offer_of_some h, List.map_cons, List.mem_cons]
        rcases hi with hi | ⟨before, after, heq, hdecl⟩
        · exact Or.inr hi
        · cases before with
          | nil => exact Or.inl (List.cons_eq_cons.mp heq).1.symm
          | cons j' before =>
            -- `j` comes first and is taken
            have hj := (List.cons_eq_cons.mp heq).1
            rw [← hj] at hdecl
            exact absurd (h.symm.trans hdecl.1) nofun
      | none =>
        rw [offer_of_none h, ih, List.map_cons, List.mem_cons]
        rcases hi with hi | ⟨before, after, heq, hdecl⟩
        · exact Or.inl (Or.inr hi)
        · cases before with
          | nil => exact Or.inl (Or.inl (List.cons_eq_cons.mp heq).1.symm)
          | cons j' before =>
            obtain ⟨rfl, rfl⟩ := List.cons_eq_cons.mp heq
            exact Or.inr ⟨before, after, rfl, hdecl.2⟩

end Offer
