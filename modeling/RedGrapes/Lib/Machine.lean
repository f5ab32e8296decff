/-
RedGrapes/Lib/Machine.lean

Runs of a deterministic step function under a condition on the steps, and
pools of threads.

`Reaches step ok s₀ s` says that `s` is reached from `s₀` by steps that all
meet `ok`.  `exec` runs a list of actions, so that a concrete run can be
evaluated (`Reaches.of_exec`).

A thread is a stack of frames, and the frames of all threads form one
multiset (`frames`).  A step of one thread replaces some frames on top of its
stack by others and leaves the rest of the pool alone (`frames_update`).

Frames may hold tokens: the right to go on with something, which only one
thread may have.  `tally` counts the copies of a token in the pool, and `Held`
says that everything stands at exactly one place and has one token there as
long as the place is in somebody's hand; a step that moves one thing from one
place to the next keeps it (`Held.replace`).
-/
import Mathlib

namespace Machine

/-! ### Runs -/

section Runs

variable {S A : Type*} {step : S → A → Option S} {ok : S → A → Prop} {s₀ : S}

/-- The states reached from `s₀` by steps that meet `ok`. -/
inductive Reaches (step : S → A → Option S) (ok : S → A → Prop) (s₀ : S) : S → Prop
  | refl : Reaches step ok s₀ s₀
  | tail {s s' : S} {a : A} :
      Reaches step ok s₀ s → ok s a → step s a = some s' → Reaches step ok s₀ s'

namespace Reaches

/-- What holds at the start and is kept by every step holds in every state
reached. -/
theorem invariant {I : S → Prop} (h₀ : I s₀)
    (hstep : ∀ s a s', I s → ok s a → step s a = some s' → I s') {s : S}
    (h : Reaches step ok s₀ s) : I s := by
  induction h with
  | refl => exact h₀
  | tail _ hok hs ih => exact hstep _ _ _ ih hok hs

theorem mono {ok' : S → A → Prop} (h : ∀ s a, ok s a → ok' s a) {s : S}
    (hs : Reaches step ok s₀ s) : Reaches step ok' s₀ s := by
  induction hs with
  | refl => exact refl
  | tail _ hok hs ih => exact ih.tail (h _ _ hok) hs

theorem trans {s s' : S} (h : Reaches step ok s₀ s) (h' : Reaches step ok s s') :
    Reaches step ok s₀ s' := by
  induction h' with
  | refl => exact h
  | tail _ hok hs ih => exact ih.tail hok hs

end Reaches

/-- Run a list of actions. -/
def exec (step : S → A → Option S) (ok : S → A → Prop) [∀ s a, Decidable (ok s a)] :
    List A → S → Option S
  | [], s => some s
  | a :: as, s => if ok s a then (step s a).bind (exec step ok as) else none

theorem Reaches.of_exec [∀ s a, Decidable (ok s a)] {as : List A} {s s' : S}
    (hs : Reaches step ok s₀ s) (h : exec step ok as s = some s') : Reaches step ok s₀ s' := by
  induction as generalizing s with
  | nil =>
      simp only [exec, Option.some.injEq] at h
      exact h ▸ hs
  | cons a as ih =>
      simp only [exec] at h
      split_ifs at h with hok
      obtain ⟨s₁, h₁, h₂⟩ := Option.bind_eq_some_iff.mp h
      exact ih (hs.tail hok h₁) h₂

end Runs

/-! ### Pools of threads -/

section Pool

variable {ι F : Type*} [Fintype ι] [DecidableEq ι]

/-- All frames on the stacks of the threads. -/
def frames (th : ι → List F) : Multiset F := ∑ i, (th i : Multiset F)

omit [DecidableEq ι] in
theorem mem_frames {th : ι → List F} {f : F} : f ∈ frames th ↔ ∃ i, f ∈ th i := by
  simp [frames, Multiset.mem_sum]

/-- What a thread's top frames leave over does not change when they are
replaced. -/
theorem frames_update {th : ι → List F} {i : ι} {old rest : List F} (h : th i = old ++ rest) :
    ∃ M : Multiset F, frames th = ↑old + M ∧
      ∀ new : List F, frames (Function.update th i (new ++ rest)) = ↑new + M := by
  refine ⟨rest + ∑ j ∈ Finset.univ.erase i, (th j : Multiset F), ?_, fun new => ?_⟩
  · rw [frames, ← Finset.add_sum_erase _ _ (Finset.mem_univ i), h, ← Multiset.coe_add, add_assoc]
  · rw [frames, ← Finset.add_sum_erase _ _ (Finset.mem_univ i), Function.update_self,
      ← Multiset.coe_add, add_assoc]
    congr 2
    refine Finset.sum_congr rfl fun j hj => ?_
    rw [Function.update_of_ne (Finset.ne_of_mem_erase hj)]

end Pool

/-! ### Counting over a pool -/

section Weigh

variable {ι P : Type*} [Fintype ι] [DecidableEq ι] {w w' : P → Nat} {th : ι → P} {i : ι}

/-- The sum of a weight over the places of all threads. -/
def weigh (w : P → Nat) (th : ι → P) : Nat := ∑ i, w (th i)

/-- One thread goes to another place, in the form that balances. -/
theorem weigh_update (w : P → Nat) (th : ι → P) (i : ι) (p : P) :
    weigh w (Function.update th i p) + w (th i) = weigh w th + w p := by
  unfold weigh
  rw [← Finset.add_sum_erase _ _ (Finset.mem_univ i),
    ← Finset.add_sum_erase Finset.univ (fun j => w (th j)) (Finset.mem_univ i),
    Function.update_self]
  have hrest : ∑ j ∈ Finset.univ.erase i, w (Function.update th i p j) =
      ∑ j ∈ Finset.univ.erase i, w (th j) := by
    refine Finset.sum_congr rfl fun j hj => ?_
    rw [Function.update_of_ne (Finset.ne_of_mem_erase hj)]
  rw [hrest]
  omega

omit [DecidableEq ι] in
theorem le_weigh (w : P → Nat) (th : ι → P) (i : ι) : w (th i) ≤ weigh w th :=
  Finset.single_le_sum (f := fun i => w (th i)) (fun _ _ => Nat.zero_le _) (Finset.mem_univ i)

omit [DecidableEq ι] in
theorem weigh_mono (h : ∀ p, w p ≤ w' p) : weigh w th ≤ weigh w' th :=
  Finset.sum_le_sum fun i _ => h (th i)

omit [DecidableEq ι] in
theorem weigh_eq_zero (h : ∀ i, w (th i) = 0) : weigh w th = 0 :=
  Finset.sum_eq_zero fun i _ => h i

omit [DecidableEq ι] in
theorem exists_of_weigh_pos (h : 0 < weigh w th) : ∃ i, 0 < w (th i) := by
  obtain ⟨i, -, hi⟩ := Finset.exists_ne_zero_of_sum_ne_zero (Nat.pos_iff_ne_zero.mp h)
  exact ⟨i, Nat.pos_of_ne_zero hi⟩

end Weigh

/-! ### Tokens -/

section Tally

variable {F K : Type*} [BEq K] {g : F → List K} {M : Multiset F} {f : F} {k : K}

/-- How often the frames of a pool hold the token `k`. -/
def tally (g : F → List K) (M : Multiset F) (k : K) : Nat := (M.map fun f => (g f).count k).sum

theorem tally_cons : tally g (f ::ₘ M) k = (g f).count k + tally g M k := by
  simp [tally]

theorem tally_coe_add (l : List F) :
    tally g (↑l + M) k = (l.flatMap g).count k + tally g M k := by
  induction l with
  | nil => simp
  | cons f l ih =>
      rw [← Multiset.cons_coe, Multiset.cons_add, tally_cons, ih, List.flatMap_cons,
        List.count_append, add_assoc]

theorem tally_pos [LawfulBEq K] (hf : f ∈ M) (hk : k ∈ g f) : 0 < tally g M k := by
  obtain ⟨N, rfl⟩ := Multiset.exists_cons_of_mem hf
  rw [tally_cons]
  have : 0 < (g f).count k := List.count_pos_iff.mpr hk
  omega

theorem exists_of_tally_pos [LawfulBEq K] (h : 0 < tally g M k) : ∃ f ∈ M, k ∈ g f := by
  by_contra hne
  push Not at hne
  have hz : tally g M k = 0 := by
    refine Multiset.sum_eq_zero fun n hn => ?_
    obtain ⟨f, hf, rfl⟩ := Multiset.mem_map.mp hn
    exact List.count_eq_zero.mpr (hne f hf)
  omega

/-- Replacing one element of a list, in the form that balances. -/
theorem countP_set_add {α : Type*} {p : α → Bool} {l : List α} {a b : α} {i : Nat}
    (hi : l[i]? = some a) :
    (l.set i b).countP p + (p a).toNat = l.countP p + (p b).toNat := by
  obtain ⟨hlt, hget⟩ := List.getElem?_eq_some_iff.mp hi
  have hpos : (p a).toNat ≤ l.countP p := by
    cases ha : p a with
    | false => simp
    | true => exact List.countP_pos_iff.mpr ⟨a, List.mem_of_getElem? hi, ha⟩
  rw [List.countP_set hlt, hget]
  cases ha : p a <;> cases hb : p b <;> simp_all

/-- Changing a predicate at one number, in the form that balances. -/
theorem countP_range_congr {p q : Nat → Bool} {n k : Nat} (hk : k < n)
    (h : ∀ i, i ≠ k → p i = q i) :
    (List.range n).countP p + (q k).toNat = (List.range n).countP q + (p k).toNat := by
  have hmem : k ∈ List.range n := List.mem_range.mpr hk
  have hrest : ((List.range n).erase k).countP p = ((List.range n).erase k).countP q := by
    refine List.countP_congr fun i hi => ?_
    rw [h i (List.nodup_range.mem_erase_iff.mp hi).1]
  rw [(List.perm_cons_erase hmem).countP_eq p, (List.perm_cons_erase hmem).countP_eq q,
    List.countP_cons, List.countP_cons, hrest]
  cases p k <;> cases q k <;> simp

end Tally

/-! ### Tokens of things that go from place to place -/

section Held

variable {α β : Type*} [BEq α] [LawfulBEq α] [BEq β] [LawfulBEq β] {hand : β → Bool}
  {st : α → β} {x y : α → β → Nat} {a : α} {b b' : β}

/-- The token of `a` at the place `b`, if that place is in somebody's hand. -/
def token (hand : β → Bool) (a : α) (b : β) : List (α × β) := if hand b then [(a, b)] else []

/-- Everything stands at one place, and `x` counts its token there. -/
def Held (hand : β → Bool) (st : α → β) (x : α → β → Nat) : Prop :=
  ∀ a b, x a b = (st a == b && hand b).toNat

theorem count_token_self (a : α) (b c : β) :
    (token hand a b).count (a, c) = (b == c && hand c).toNat := by
  by_cases e : b = c
  · subst e
    cases hb : hand b <;> simp [token, hb]
  · have hbc : (b == c) = false := by simpa using e
    cases hb : hand b <;> simp [token, hb, e, hbc]

theorem count_token_of_ne {a a' : α} {b c : β} (h : a' ≠ a) :
    (token hand a b).count (a', c) = 0 := by
  unfold token
  split_ifs <;> simp [Ne.symm h]

namespace Held

omit [BEq α] [LawfulBEq α] in
theorem eq_of_pos (h : Held hand st x) (hx : 0 < x a b) : st a = b := by
  rw [h a b] at hx
  by_contra hne
  have hb : (st a == b) = false := by simpa using hne
  simp [hb] at hx

variable [DecidableEq α]

/-- What goes from one place to another changes its token. -/
theorem advance (h : Held hand st fun a' c => (token hand a b).count (a', c) + y a' c)
    (ha : st a = b) :
    Held hand (Function.update st a b') fun a' c => (token hand a b').count (a', c) + y a' c := by
  intro a' c
  have hc : (token hand a b).count (a', c) + y a' c = (st a' == c && hand c).toNat := h a' c
  by_cases e : a' = a
  · subst e
    -- the old token was the only one of `a'`, so the rest holds none of them
    have hy : y a' c = 0 := by
      have hone : (st a' == c && hand c).toNat = (token hand a' b).count (a', c) := by
        rw [ha, count_token_self]
      omega
    show (token hand a' b').count (a', c) + y a' c = _
    rw [hy, count_token_self, Function.update_self, add_zero]
  · simp only [count_token_of_ne e, zero_add] at hc ⊢
    rw [hc, Function.update_of_ne e]

/-- The same with the tokens that stay given as `y`. -/
theorem go (h : Held hand st x) (y : α → β → Nat) (hb : hand b = true)
    (hx : ∀ a' c, x a' c = (token hand a b).count (a', c) + y a' c) {x' : α → β → Nat}
    (hx' : ∀ a' c, x' a' c = (token hand a b').count (a', c) + y a' c) :
    Held hand (Function.update st a b') x' := by
  obtain rfl : x = _ := funext fun a' => funext (hx a')
  obtain rfl : x' = _ := funext fun a' => funext (hx' a')
  refine h.advance (h.eq_of_pos ?_)
  rw [count_token_self, hb]
  simp

/-- The same for a frame that holds nothing but the token. -/
theorem replace {l l' : List (α × β)}
    (h : Held hand st fun a' c => l.count (a', c) + y a' c) (hb : hand b = true)
    (hl : l = token hand a b) (hl' : l' = token hand a b') :
    Held hand (Function.update st a b') fun a' c => l'.count (a', c) + y a' c :=
  h.go y hb (fun a' c => by rw [hl]) fun a' c => by rw [hl']

/-- What was in nobody's hand gets its first token. -/
theorem appear (h : Held hand st x) (ha : hand (st a) = false) {x' : α → β → Nat}
    (hx' : ∀ a' c, x' a' c = (token hand a b').count (a', c) + x a' c) :
    Held hand (Function.update st a b') x' := by
  obtain rfl : x' = _ := funext fun a' => funext (hx' a')
  refine advance (b := st a) ?_ rfl
  intro a' c
  simpa [token, ha] using h a' c

end Held

end Held

end Machine
