/-
RedGrapes/Lib/Replay.lean

A log of operations, replayed in another order.

Every entry of the log belongs to at most one part.  If an entry commutes with every later one
that belongs to an earlier part, the whole log does what its parts do one after the other
(`play_parts`).  Nothing is asked of two entries of one part, so each part keeps its own order.

The proof takes the last part out of the log: its entries can be moved, one by one, behind all
others (`play_filter`).
-/
import Mathlib

namespace Replay

open Function

variable {E σ : Type*} {act : E → σ → σ} {l : List E}

/-- The entries of a log one after the other. -/
def play (act : E → σ → σ) (l : List E) (d : σ) : σ := l.foldl (fun d e => act e d) d

theorem play_nil (d : σ) : play act [] d = d := rfl

theorem play_cons (e : E) (d : σ) : play act (e :: l) d = play act l (act e d) := rfl

theorem play_append (l l' : List E) (d : σ) : play act (l ++ l') d = play act l' (play act l d) :=
  List.foldl_append

/-- What commutes with all entries commutes with the log. -/
theorem commute_play {f : σ → σ} (h : ∀ e ∈ l, Function.Commute f (act e)) (d : σ) :
    play act l (f d) = f (play act l d) := by
  induction l generalizing d with
  | nil => rfl
  | cons e l ih =>
      rw [play_cons, play_cons, ← (h e List.mem_cons_self).eq d]
      exact ih (fun e' he' => h e' (List.mem_cons_of_mem e he')) (act e d)

/-- The entries with a property can go last if they commute with the later ones without it. -/
theorem play_filter {p : E → Bool}
    (h : l.Pairwise fun a b => p a = true → p b = false → Function.Commute (act a) (act b)) (d : σ) :
    play act l d = play act (l.filter p) (play act (l.filter fun e => !p e) d) := by
  induction l generalizing d with
  | nil => rfl
  | cons e l ih =>
      obtain ⟨he, hl⟩ := List.pairwise_cons.mp h
      rw [play_cons, ih hl]
      cases hp : p e with
      | false => rw [List.filter_cons_of_neg (by simp [hp]), List.filter_cons_of_pos (by simp [hp]),
          play_cons]
      | true =>
          rw [List.filter_cons_of_pos hp, List.filter_cons_of_neg (by simp [hp]), play_cons]
          congr 1
          refine commute_play (fun e' he' => ?_) d
          obtain ⟨hmem, hnot⟩ := List.mem_filter.mp he'
          exact he e' hmem hp (by simpa using hnot)

/-- A log does what its parts do one after the other. -/
theorem play_parts {part : ℕ → E → Prop} [∀ i e, Decidable (part i e)] {n : ℕ}
    (hone : ∀ e ∈ l, ∀ i j, part i e → part j e → i = j) (hex : ∀ e ∈ l, ∃ i < n, part i e)
    (h : l.Pairwise fun a b => ∀ i j, part i a → part j b → j < i →
      Function.Commute (act a) (act b)) (d : σ) :
    play act l d = (List.range n).foldl (fun d i => play act (l.filter fun e => part i e) d) d := by
  induction n generalizing l d with
  | zero =>
      rcases l with - | ⟨e, l⟩
      · rfl
      · obtain ⟨i, hi, -⟩ := hex e List.mem_cons_self
        omega
  | succ n ih =>
      have hsub : (l.filter fun e => !decide (part n e)).Sublist l := List.filter_sublist
      -- the entries of the last part go last
      rw [play_filter (p := fun e => decide (part n e)), List.range_succ, List.foldl_append,
        List.foldl_cons, List.foldl_nil]
      · congr 1
        rw [ih (fun e he => hone e (hsub.subset he)) ?_ (h.sublist hsub) d]
        · -- nothing is lost of the other parts
          refine List.foldl_ext _ _ _ fun d i hi => ?_
          rw [List.filter_filter]
          congr 1
          refine List.filter_congr fun e he => ?_
          by_cases hpart : part i e
          · have hne : ¬ part n e := fun hn => by
              have := hone e he i n hpart hn
              have := List.mem_range.mp hi
              omega
            simp [hpart, hne]
          · simp [hpart]
        · intro e he
          obtain ⟨hmem, hnot⟩ := List.mem_filter.mp he
          obtain ⟨i, hi, hpart⟩ := hex e hmem
          have hne : i ≠ n := by
            rintro rfl
            simp [hpart] at hnot
          exact ⟨i, by omega, hpart⟩
      · refine h.imp_of_mem fun {a b} _ hb hab ha hnb => ?_
        obtain ⟨j, hj, hpart⟩ := hex b hb
        have hne : j ≠ n := by
          rintro rfl
          simp [hpart] at hnb
        exact hab n j (by simpa using ha) hpart (by omega)

end Replay
