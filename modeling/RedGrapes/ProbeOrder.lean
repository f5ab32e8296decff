/-
RedGrapes/ProbeOrder.lean

The order in which `probe_by_value` (`util/bitfield.hpp`) offers the bits of one content to `f`,
and what its start position comes to.

On words that do not change the search offers the bits it finds, in a fixed order, until `f`
takes one (`probeByValue_eq_offer`).  The comments promise that "elements following `start_idx`
are preferred over preceding ones" and name the first part searched the second half of the word.
But its mask, `~first_mask`, has the bits below the start bit, and `exclude_start` takes the
start bit out of this mask, which never had it.  So the preceding bits come first, and the start
bit comes right after them (`found`).
-/
import RedGrapes.Bitfield
import RedGrapes.Lib.Offer

namespace RedGrapes.Bitfield

open Offer

variable {α : Type} {words : Nat → BitVec 64} {f : List (Nat × Option α) → Nat → Option α}
  {expectedValue : Bool}

/-! ### The bits found, in order -/

/-- The indices that the search of a part finds; an index is an `unsigned`. -/
def matching (words : Nat → BitVec 64) (expectedValue : Bool) (part : Nat × BitVec 64) : List Nat :=
  ((List.range 64).filter fun k =>
      part.2.getLsbD k && ((words part.1).getLsbD k == expectedValue)).map fun k =>
    (part.1 * 64 + k) % 2 ^ 32

/-- The least member of a filtered range comes first, and then the others. -/
theorem filter_range_least {p : Nat → Bool} {n k : Nat} (hk : k < n) (hp : p k = true)
    (hlow : ∀ i < k, p i = false) :
    (List.range n).filter p = k :: (List.range n).filter fun i => p i && !decide (i = k) := by
  induction n with
  | zero => exact absurd hk (Nat.not_lt_zero k)
  | succ n ih =>
    rw [List.range_succ, List.filter_append, List.filter_append]
    rcases (Nat.le_of_lt_succ hk).eq_or_lt with rfl | hlt
    · -- `k` is the last of the range
      have hnone : ∀ q : Nat → Bool, (∀ i < k, q i = false) → (List.range k).filter q = [] := by
        intro q hq
        apply List.filter_eq_nil_iff.mpr
        intro i hi
        rw [hq i (List.mem_range.mp hi)]
        exact Bool.false_ne_true
      rw [hnone p hlow, hnone _ fun i hi => by rw [hlow i hi, Bool.false_and]]
      simp [hp]
    · have hne : n ≠ k := Nat.ne_of_gt hlt
      rw [ih hlt, List.cons_append]
      simp [hne, List.filter_cons]

/-- The lowest bit of the mask that is found comes first, and then those of the mask without it. -/
theorem matching_cons {j k : Nat} {mask : BitVec 64} (hk : k < 64) (hmask : mask.getLsbD k = true)
    (hbit : (words j).getLsbD k = expectedValue)
    (hlow : ∀ i < k, (mask.getLsbD i && ((words j).getLsbD i == expectedValue)) = false) :
    matching words expectedValue (j, mask) =
      (j * 64 + k) % 2 ^ 32 :: matching words expectedValue (j, mask &&& ~~~(1#64 <<< k)) := by
  have hp : (mask.getLsbD k && ((words j).getLsbD k == expectedValue)) = true := by
    rw [hmask, hbit, beq_self_eq_true]
    rfl
  unfold matching
  rw [filter_range_least hk hp hlow, List.map_cons]
  simp only [LowBit.getLsbD_clear, Bool.and_right_comm]

/-- On fixed words the search of a part offers what it finds, in order. -/
theorem probeChunkByValue_eq_offer {j : Nat} (fuel : Nat) (mask : BitVec 64) (p : Probe α)
    (hfuel : bits mask < fuel) :
    ∃ t, probeChunkByValue (fun _ => words) f expectedValue j fuel mask p =
      some ((offer f (matching words expectedValue (j, mask)) p.calls).1,
        ⟨t, (offer f (matching words expectedValue (j, mask)) p.calls).2⟩) := by
  induction fuel generalizing mask p with
  | zero => exact absurd hfuel (Nat.not_lt_zero _)
  | succ fuel ih =>
    generalize hfield : (if expectedValue then words j else ~~~(words j)) &&& mask = maskedField
    have hmasked : ∀ k < 64, maskedField.getLsbD k =
        (mask.getLsbD k && ((words j).getLsbD k == expectedValue)) := by
      intro k hk
      rw [← hfield, BitVec.getLsbD_and, getLsbD_field _ hk, Bool.and_comm]
      rfl
    by_cases hzero : maskedField = 0#64
    · have hnil : matching words expectedValue (j, mask) = [] := by
        rw [matching, List.map_eq_nil_iff]
        apply List.filter_eq_nil_iff.mpr
        intro k hk
        rw [← hmasked k (List.mem_range.mp hk), hzero]
        simp
      refine ⟨p.time + 1, ?_⟩
      rw [hnil]
      simp only [probeChunkByValue, hfield, hzero]
      rfl
    · obtain ⟨hk, hset⟩ := firstOneIdx_spec hzero
      have hlow := firstOneIdx_lowest hzero
      generalize hkdef : firstOneIdx maskedField = k at hk hset hlow
      rw [hmasked k hk, Bool.and_eq_true, beq_iff_eq] at hset
      have hcons := matching_cons hk hset.1 hset.2 fun i hi => by
        rw [← hmasked i (hi.trans hk)]
        exact hlow i hi
      -- the next round has one bit of the mask less
      have hfewer := bits_clear hk hset.1
      rw [hcons]
      simp only [probeChunkByValue, hfield, hkdef, if_pos (show k < bitfieldLen from hk)]
      rw [if_neg (show ¬ maskedField = 0 from hzero), show j * bitfieldLen = j * 64 from rfl]
      cases hx : f p.calls ((j * 64 + k) % 2 ^ 32) with
      | some x =>
        refine ⟨p.time + 1, ?_⟩
        rw [offer_of_some hx]
      | none =>
        obtain ⟨t, hrun⟩ := ih (mask &&& ~~~(1#64 <<< k))
          ⟨p.time + 1, ((j * 64 + k) % 2 ^ 32, none) :: p.calls⟩ (by omega)
        refine ⟨t, ?_⟩
        rw [offer_of_none hx]
        exact hrun

/-- And so does the search of all parts. -/
theorem probeParts_eq_offer {fuel : Nat} (hfuel : 64 < fuel) (l : List (Nat × BitVec 64))
    (p : Probe α) :
    ∃ t, probeParts (fun _ => words) f expectedValue fuel l p =
      some ((offer f (l.flatMap fun part => matching words expectedValue (part.1 % 2 ^ 32, part.2))
        p.calls).1, ⟨t, (offer f (l.flatMap fun part =>
          matching words expectedValue (part.1 % 2 ^ 32, part.2)) p.calls).2⟩) := by
  induction l generalizing p with
  | nil => exact ⟨p.time, rfl⟩
  | cons part l ih =>
    obtain ⟨j, mask⟩ := part
    obtain ⟨t, hrun⟩ := @probeChunkByValue_eq_offer α words f expectedValue (j % 2 ^ 32) fuel mask p
      ((bits_le mask).trans_lt hfuel)
    rw [probeParts, hrun, List.flatMap_cons, offer_append]
    cases hoffer : offer f (matching words expectedValue (j % 2 ^ 32, mask)) p.calls with
    | mk r calls =>
      cases r with
      | some x => exact ⟨t, rfl⟩
      | none => exact ih ⟨t, calls⟩

/-- The bit `idx` has the expected value. -/
def Matches (words : Nat → BitVec 64) (expectedValue : Bool) (idx : Nat) : Prop :=
  (words (idx / 64)).getLsbD (idx % 64) = expectedValue

/-- The indices below the size of the word `field` with the expected value, in increasing order;
`keep` chooses among the bits.  An index is an `unsigned`, and so is the number of a word. -/
def foundIn (words : Nat → BitVec 64) (expectedValue : Bool) (size field : Nat) (keep : Nat → Bool) :
    List Nat :=
  ((List.range 64).filter fun k => (keep k && decide (field * 64 + k < size)) &&
      ((words (field % 2 ^ 32)).getLsbD k == expectedValue)).map fun k =>
    (field % 2 ^ 32 * 64 + k) % 2 ^ 32

/-- What `probe_by_value` finds, in order: in the start word first the bits below the start bit
and then the others, and then the bits of the words that follow. -/
def found (words : Nat → BitVec 64) (expectedValue : Bool) (size startIdx : Nat) : List Nat :=
  foundIn words expectedValue size (startIdx / 64) (fun k => decide (k < startIdx % 64)) ++
    (foundIn words expectedValue size (startIdx / 64) (fun k => decide (startIdx % 64 ≤ k)) ++
      (List.range (ceilDiv size bitfieldLen - 1)).flatMap fun b =>
        foundIn words expectedValue size ((startIdx / 64 + (b + 1)) % ceilDiv size bitfieldLen)
          fun _ => true)

variable {size startIdx : Nat}

/-- A part finds the bits of its mask. -/
theorem matching_eq_foundIn {field : Nat} {mask : BitVec 64} {keep : Nat → Bool}
    (hmask : ∀ k < 64, mask.getLsbD k = (keep k && decide (field * 64 + k < size))) :
    matching words expectedValue (field % 2 ^ 32, mask) =
      foundIn words expectedValue size field keep := by
  unfold matching foundIn
  congr 1
  apply List.filter_congr
  intro k hk
  rw [hmask k (List.mem_range.mp hk)]

/-- The parts of the search find the bits in the order of `found`. -/
theorem flatMap_parts (hstart : startIdx < size) (excludeStart : Bool) :
    ((parts size startIdx excludeStart).flatMap fun part =>
      matching words expectedValue (part.1 % 2 ^ 32, part.2)) =
      found words expectedValue size startIdx := by
  have hfield : startIdx / bitfieldLen < ceilDiv size bitfieldLen := div_lt_ceilDiv hstart
  -- the padding takes the bits from `size` on out of the mask
  have hsecond : ∀ k < 64, (padding size (startIdx / bitfieldLen)
      (~~~(BitVec.allOnes 64 <<< (startIdx % bitfieldLen)))).getLsbD k =
        (decide (k < startIdx % 64) && decide (startIdx / 64 * 64 + k < size)) := by
    intro k hk
    rw [getLsbD_padding hfield _ hk, BitVec.getLsbD_not, LowBit.getLsbD_high]
    simp only [hk, decide_true, Bool.true_and, Bool.not_not]
    rfl
  unfold parts found
  rw [List.flatMap_cons, List.flatMap_cons, List.flatMap_map]
  congr 1
  · cases excludeStart with
    | false => exact matching_eq_foundIn hsecond
    | true =>
      -- the start bit that is taken out is not in this part
      refine matching_eq_foundIn fun k hk => ?_
      rw [if_pos rfl, LowBit.getLsbD_clear, hsecond k hk]
      rcases Nat.lt_or_ge k (startIdx % 64) with hlt | hge
      · have hne : k ≠ startIdx % bitfieldLen := Nat.ne_of_lt hlt
        rw [decide_eq_false hne, Bool.not_false, Bool.and_true]
        rfl
      · rw [decide_eq_false (not_lt.mpr hge), Bool.false_and, Bool.false_and, Bool.false_and]
  · congr 1
    · refine matching_eq_foundIn fun k hk => ?_
      rw [getLsbD_padding hfield _ hk, LowBit.getLsbD_high]
      simp only [hk, decide_true, Bool.true_and, ← decide_not, not_lt]
      rfl
    · refine List.flatMap_congr fun b hb => matching_eq_foundIn fun k hk => ?_
      rw [getLsbD_padding (Nat.mod_lt _ (Nat.zero_lt_of_lt hfield)) _ hk, BitVec.getLsbD_allOnes,
        decide_eq_true hk]

/-- **The search on fixed words.**  It offers what it finds, in order, until `f` takes one. -/
theorem probeByValue_eq_offer {fuel : Nat} (hstart : startIdx < size) (hfuel : 64 < fuel)
    (excludeStart : Bool) :
    ∃ t, probeByValue (fun _ => words) f expectedValue fuel size startIdx excludeStart =
      some ((offer f (found words expectedValue size startIdx) []).1,
        ⟨t, (offer f (found words expectedValue size startIdx) []).2⟩) := by
  rw [probeByValue, if_neg (not_le.mpr hstart), ← flatMap_parts hstart excludeStart]
  exact probeParts_eq_offer hfuel _ _

/-- What is found in the start word, whose indices all are below `2 ^ 32`. -/
theorem mem_foundIn_start (hword : startIdx < 2 ^ 32) {keep : Nat → Bool} {idx : Nat} :
    idx ∈ foundIn words expectedValue size (startIdx / 64) keep ↔
      idx / 64 = startIdx / 64 ∧ keep (idx % 64) = true ∧ idx < size ∧
        Matches words expectedValue idx := by
  -- neither the number of the word nor an index of its bits wraps around
  have hfield : startIdx / 64 % 2 ^ 32 = startIdx / 64 := Nat.mod_eq_of_lt (by omega)
  unfold foundIn Matches
  simp only [List.mem_map, List.mem_filter, List.mem_range, Bool.and_eq_true, decide_eq_true_eq,
    beq_iff_eq, hfield]
  constructor
  · rintro ⟨k, ⟨hk, ⟨hkeep, hsize⟩, hbit⟩, rfl⟩
    have hidx : (startIdx / 64 * 64 + k) % 2 ^ 32 = startIdx / 64 * 64 + k :=
      Nat.mod_eq_of_lt (by omega)
    have hdiv : (startIdx / 64 * 64 + k) / 64 = startIdx / 64 := by omega
    have hmod : (startIdx / 64 * 64 + k) % 64 = k := by omega
    rw [hidx, hdiv, hmod]
    exact ⟨rfl, hkeep, hsize, hbit⟩
  · rintro ⟨hdiv, hkeep, hsize, hbit⟩
    have hidx : startIdx / 64 * 64 + idx % 64 = idx := by omega
    refine ⟨idx % 64, ⟨Nat.mod_lt _ (by decide), ⟨hkeep, by rwa [hidx]⟩, by rwa [← hdiv]⟩, ?_⟩
    rw [hidx]
    exact Nat.mod_eq_of_lt (by omega)

/-! ### The start position -/

/-- What the start position promises about the calls, the latest first: the start index is not
offered when it is excluded, and when an index of its word before it is offered, all those after
it with the expected value have been. -/
structure HonoursStart (words : Nat → BitVec 64) (expectedValue : Bool) (size startIdx : Nat)
    (excludeStart : Bool) (calls : List (Nat × Option α)) : Prop where
  excluded : excludeStart = true → startIdx ∉ calls.map Prod.fst
  following : ∀ later a x earlier, calls = later ++ (a, x) :: earlier →
    a / 64 = startIdx / 64 → a < startIdx → ∀ b < size, b / 64 = startIdx / 64 → startIdx < b →
      Matches words expectedValue b → b ∈ earlier.map Prod.fst

/-- A list that begins with all of `l` before anything outside of it. -/
theorem subset_of_prefix {l l' m : List Nat} {a : Nat} (h : m ++ [a] <+: l ++ l') (ha : a ∉ l) :
    ∀ b ∈ l, b ∈ m := by
  intro b hb
  rcases List.prefix_or_prefix_of_prefix h (List.prefix_append l l') with hml | hlm
  · exact absurd (hml.subset (List.mem_append_right m (List.mem_singleton_self a))) ha
  · rcases List.prefix_concat_iff.mp hlm with rfl | hlm
    · exact absurd (List.mem_append_right m (List.mem_singleton_self a)) ha
    · exact hlm.subset hb

/-- If there is a bit before the start bit, such a bit is offered first of all. -/
theorem first_call_below (hstart : startIdx < size) (hword : startIdx < 2 ^ 32) {a : Nat}
    (ha : a < startIdx) (hdiv : a / 64 = startIdx / 64) (hmatch : Matches words expectedValue a) :
    ∃ later i x, (offer f (found words expectedValue size startIdx) []).2 = later ++ [(i, x)] ∧
      i / 64 = startIdx / 64 ∧ i < startIdx := by
  have hmem : a ∈ foundIn words expectedValue size (startIdx / 64)
      (fun k => decide (k < startIdx % 64)) := by
    refine (mem_foundIn_start hword).mpr ⟨hdiv, ?_, ha.trans hstart, hmatch⟩
    rw [decide_eq_true_eq]
    omega
  -- so the part of the bits below is not empty, and its first bit is offered first
  obtain ⟨i, below, hbelow⟩ := List.exists_cons_of_ne_nil (List.ne_nil_of_mem hmem)
  have hi : i ∈ foundIn words expectedValue size (startIdx / 64)
      (fun k => decide (k < startIdx % 64)) := by
    rw [hbelow]
    exact List.mem_cons_self
  obtain ⟨hidiv, hlow, -, -⟩ := (mem_foundIn_start hword).mp hi
  rw [decide_eq_true_eq] at hlow
  unfold found
  rw [hbelow, List.cons_append]
  obtain ⟨later, x, hcalls⟩ := exists_first (f := f) i _
  exact ⟨later, i, x, hcalls, hidiv, by omega⟩

/-- If there is none, all bits after the start bit are offered before anything else of its word. -/
theorem offered_of_none_below (hword : startIdx < 2 ^ 32)
    (hnone : ∀ a < startIdx, a / 64 = startIdx / 64 → ¬ Matches words expectedValue a)
    {later earlier : List (Nat × Option α)} {a : Nat} {x : Option α}
    (hsplit : (offer f (found words expectedValue size startIdx) []).2 = later ++ (a, x) :: earlier)
    (ha : a < startIdx) (hadiv : a / 64 = startIdx / 64) {b : Nat} (hb : b < size)
    (hdiv : b / 64 = startIdx / 64) (hlt : startIdx < b) (hmatch : Matches words expectedValue b) :
    b ∈ earlier.map Prod.fst := by
  -- the part of the bits below is empty, and the search begins with those above
  have hempty : foundIn words expectedValue size (startIdx / 64)
      (fun k => decide (k < startIdx % 64)) = [] := by
    apply List.eq_nil_iff_forall_not_mem.mpr
    intro i hi
    obtain ⟨hidiv, hlow, -, himatch⟩ := (mem_foundIn_start hword).mp hi
    rw [decide_eq_true_eq] at hlow
    exact hnone i (by omega) hidiv himatch
  -- the calls are a prefix of what is found
  obtain ⟨called, hprefix, hcalls⟩ :=
    exists_prefix (f := f) (found words expectedValue size startIdx) []
  have hcalled : called = (earlier.map Prod.fst).reverse ++ [a] ++ (later.map Prod.fst).reverse := by
    rw [List.map_nil, List.append_nil] at hcalls
    rw [← List.reverse_reverse called, ← hcalls, hsplit]
    simp
  rw [hcalled, found, hempty, List.nil_append] at hprefix
  have hmem : b ∈ (earlier.map Prod.fst).reverse := by
    apply subset_of_prefix ((List.prefix_append _ _).trans hprefix)
    · intro ha'
      obtain ⟨-, hhigh, -, -⟩ := (mem_foundIn_start hword).mp ha'
      rw [decide_eq_true_eq] at hhigh
      omega
    · refine (mem_foundIn_start hword).mpr ⟨hdiv, ?_, hb, hmatch⟩
      rw [decide_eq_true_eq]
      omega
  exact List.mem_reverse.mp hmem

/-- The bits after the start bit are offered before those before it if and only if the word does
not have both. -/
theorem following_first_iff (hstart : startIdx < size) (hword : startIdx < 2 ^ 32) :
    (∀ later a x earlier, (offer f (found words expectedValue size startIdx) []).2 =
        later ++ (a, x) :: earlier → a / 64 = startIdx / 64 → a < startIdx → ∀ b < size,
        b / 64 = startIdx / 64 → startIdx < b → Matches words expectedValue b →
          b ∈ earlier.map Prod.fst) ↔
      (∀ a < startIdx, a / 64 = startIdx / 64 → ¬ Matches words expectedValue a) ∨
        ∀ b < size, b / 64 = startIdx / 64 → startIdx < b → ¬ Matches words expectedValue b := by
  constructor
  · intro h
    refine or_iff_not_imp_left.mpr fun hsome b hb hbdiv hlt hbmatch => hsome ?_
    intro a ha hadiv hamatch
    -- at the first call no other has been before
    obtain ⟨later, i, x, hcalls, hidiv, hi⟩ :=
      first_call_below (f := f) hstart hword ha hadiv hamatch
    exact absurd (h later i x [] hcalls hidiv hi b hb hbdiv hlt hbmatch) List.not_mem_nil
  · intro hone later a x earlier hsplit hadiv ha b hb hbdiv hlt hbmatch
    have hnone : ∀ a < startIdx, a / 64 = startIdx / 64 → ¬ Matches words expectedValue a :=
      hone.resolve_right fun h => h b hb hbdiv hlt hbmatch
    exact offered_of_none_below hword hnone hsplit ha hadiv hb hbdiv hlt hbmatch

/-- **When the start position is honoured.**  The search on fixed words ends.  It prefers the bits
after the start bit if and only if the word does not have bits of the expected value on both
sides of it; and it offers the start index, excluded or not, if and only if `f` declines all that
is found before. -/
theorem probe_honours_start_iff (words : Nat → BitVec 64)
    (f : List (Nat × Option α) → Nat → Option α) (expectedValue excludeStart : Bool)
    {fuel size startIdx : Nat} (hstart : startIdx < size) (hword : startIdx < 2 ^ 32)
    (hfuel : 64 < fuel) :
    ∃ r q, probeByValue (fun _ => words) f expectedValue fuel size startIdx excludeStart =
        some (r, q) ∧
      (HonoursStart words expectedValue size startIdx excludeStart q.calls ↔
        ((∀ a < startIdx, a / 64 = startIdx / 64 → ¬ Matches words expectedValue a) ∨
          ∀ b < size, b / 64 = startIdx / 64 → startIdx < b → ¬ Matches words expectedValue b) ∧
        (excludeStart = true → ∀ before after,
          found words expectedValue size startIdx = before ++ startIdx :: after →
            ¬ Declines f [] before)) := by
  obtain ⟨t, hrun⟩ := @probeByValue_eq_offer α words f expectedValue size startIdx fuel hstart hfuel
    excludeStart
  refine ⟨_, _, hrun, ?_⟩
  have hcalled : startIdx ∉ (offer f (found words expectedValue size startIdx) []).2.map Prod.fst ↔
      ∀ before after, found words expectedValue size startIdx = before ++ startIdx :: after →
        ¬ Declines f [] before := by
    rw [mem_calls_iff]
    simp
  rw [← following_first_iff (f := f) hstart hword, ← hcalled]
  exact ⟨fun h => ⟨h.following, h.excluded⟩, fun h => ⟨h.2, h.1⟩⟩

/-- Ten bits, all of the expected value, searched from the first one. -/
theorem probe_honours_start_first :
    ∃ r q, probeByValue (fun _ _ => 0#64) (fun _ _ => (none : Option Nat)) false 65 10 0 false =
        some (r, q) ∧ HonoursStart (fun _ => 0#64) false 10 0 false q.calls := by
  obtain ⟨r, q, hrun, hiff⟩ := @probe_honours_start_iff Nat (fun _ => 0#64) (fun _ _ => none) false
    false 65 10 0 (by decide) (by decide) (by decide)
  exact ⟨r, q, hrun, hiff.mpr ⟨Or.inl fun a ha => absurd ha (Nat.not_lt_zero a), nofun⟩⟩

/-- Worker 1 of four busy ones looks for a task in the queues of the others, which are all empty.
It is offered worker 0 first, and then itself. -/
theorem start_offered :
    ∃ q, probeByValue (fun _ _ => 0#64) (fun _ _ => (none : Option Nat)) false 65 4 1 true =
        some (none, q) ∧ q.calls.map Prod.fst = [3, 2, 1, 0] ∧
      ¬ HonoursStart (fun _ => 0#64) false 4 1 true q.calls ∧
      ¬ HonoursStart (fun _ => 0#64) false 4 1 false q.calls := by
  have hrun : probeByValue (fun _ _ => 0#64) (fun _ _ => (none : Option Nat)) false 65 4 1 true =
      some (none, ⟨6, [(3, none), (2, none), (1, none), (0, none)]⟩) := by
    rfl
  refine ⟨_, hrun, rfl, fun h => h.excluded rfl (by decide), fun h => ?_⟩
  exact absurd (h.following [(3, none), (2, none), (1, none)] 0 none [] rfl rfl (by decide) 2
    (by decide) rfl (by decide) rfl) List.not_mem_nil

end RedGrapes.Bitfield
