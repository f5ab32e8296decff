/-
RedGrapes/Bitfield.lean

Searching an `AtomicBitfield` (`util/bitfield.hpp`) while others change it.

The words are read one at a time, and every read may find other bits: `reads t j` is
what the `t`-th read of the search finds in the word `j`.  The candidate function may
answer as it likes, also depending on the calls before.

`probe_by_value` searches a list of parts of words (`probeParts`): the start word
below and from the start bit on, then the other words in turn.  The parts are
disjoint and together all indices below the size.  Within a part a bit that was tried
is taken out of the mask, so that the search of a part ends after at most as
many calls as its mask has bits.
-/
import RedGrapes.Lib.LowBit
import RedGrapes.Lib.Machine

namespace RedGrapes.Bitfield

/-! ### The search -/

/-- `bitfield_len`. -/
def bitfieldLen : Nat := 64

/-- `ceil_div`. -/
def ceilDiv (a b : Nat) : Nat := (a + b - 1) / b

/-- `first_one_idx`. -/
def firstOneIdx (v : BitVec 64) : Nat :=
  let v := v &&& -v
  let c := 64
  let c := if v ≠ 0 then c - 1 else c
  let c := if v &&& 0x00000000FFFFFFFF ≠ 0 then c - 32 else c
  let c := if v &&& 0x0000FFFF0000FFFF ≠ 0 then c - 16 else c
  let c := if v &&& 0x00FF00FF00FF00FF ≠ 0 then c - 8 else c
  let c := if v &&& 0x0F0F0F0F0F0F0F0F ≠ 0 then c - 4 else c
  let c := if v &&& 0x3333333333333333 ≠ 0 then c - 2 else c
  if v &&& 0x5555555555555555 ≠ 0 then c - 1 else c

/-- How far a search is: the number of reads and the calls of `f` with their answers,
the latest first. -/
structure Probe (α : Type) where
  time : Nat
  calls : List (Nat × Option α)

section Search

variable {α : Type} (reads : Nat → Nat → BitVec 64) (f : List (Nat × Option α) → Nat → Option α)
  (expectedValue : Bool)

/-- `probe_chunk_by_value`, for at most `fuel` rounds of its loop.  The parameter `j`
and the index are of type `unsigned`. -/
def probeChunkByValue (j : Nat) :
    Nat → BitVec 64 → Probe α → Option (Option α × Probe α)
  | 0, _, _ => none
  | fuel + 1, mask, p =>
      let word := reads p.time j
      let field := if expectedValue then word else ~~~word
      let maskedField := field &&& mask
      if maskedField = 0 then some (none, { p with time := p.time + 1 })
      else
        let k := firstOneIdx maskedField
        if k < bitfieldLen then
          let idx := (j * bitfieldLen + k) % 2 ^ 32
          let x := f p.calls idx
          let p := ⟨p.time + 1, (idx, x) :: p.calls⟩
          match x with
          | some x => some (some x, p)
          | none => probeChunkByValue j fuel (mask &&& ~~~(1#64 <<< k)) p
        else probeChunkByValue j fuel mask { p with time := p.time + 1 }

/-- Search one part after the other: `if(auto x = probe_chunk_by_value(..)) return x;`. -/
def probeParts (fuel : Nat) :
    List (Nat × BitVec 64) → Probe α → Option (Option α × Probe α)
  | [], p => some (none, p)
  | (j, mask) :: parts, p =>
      match probeChunkByValue reads f expectedValue (j % 2 ^ 32) fuel mask p with
      | none => none
      | some (some x, p) => some (some x, p)
      | some (none, p) => probeParts fuel parts p

/-- The mask of the bits of the word `field` that are below the size. -/
def padding (size field : Nat) (mask : BitVec 64) : BitVec 64 :=
  if field = ceilDiv size bitfieldLen - 1 ∧ size % bitfieldLen ≠ 0 then
    mask &&& ((1#64 <<< (size % bitfieldLen)) - 1#64)
  else mask

/-- The parts that `probe_by_value` searches. -/
def parts (size startIdx : Nat) (excludeStart : Bool) : List (Nat × BitVec 64) :=
  let startFieldIdx := startIdx / bitfieldLen
  let firstMask := BitVec.allOnes 64 <<< (startIdx % bitfieldLen)
  let secondMask := padding size startFieldIdx (~~~firstMask)
  let secondMask := if excludeStart then secondMask &&& ~~~(1#64 <<< (startIdx % bitfieldLen))
    else secondMask
  (startFieldIdx, secondMask) :: (startFieldIdx, padding size startFieldIdx firstMask) ::
    (List.range (ceilDiv size bitfieldLen - 1)).map fun b =>
      let fieldIdx := (startFieldIdx + (b + 1)) % ceilDiv size bitfieldLen
      (fieldIdx, padding size fieldIdx (BitVec.allOnes 64))

/-- `probe_by_value`, from its first read on. -/
def probeByValue (fuel size startIdx : Nat) (excludeStart : Bool) : Option (Option α × Probe α) :=
  if size ≤ startIdx then some (none, ⟨0, []⟩)
  else probeParts reads f expectedValue fuel (parts size startIdx excludeStart) ⟨0, []⟩

end Search

/-! ### The first set bit -/

/-- Of a single bit `first_one_idx` finds the index. -/
theorem firstOneIdx_eq {v : BitVec 64} {k : Nat} (hk : k < 64) (h : v &&& -v = BitVec.twoPow 64 k) :
    firstOneIdx v = k := by
  have hall : ∀ k : Fin 64, ∀ v : BitVec 64, v &&& -v = BitVec.twoPow 64 k → firstOneIdx v = k := by
    intro k v h
    unfold firstOneIdx
    rw [h]
    clear h
    revert k
    decide +kernel
  exact hall ⟨k, hk⟩ v h

/-- `first_one_idx` finds a set bit. -/
theorem firstOneIdx_spec {v : BitVec 64} (h : v ≠ 0#64) :
    firstOneIdx v < 64 ∧ v.getLsbD (firstOneIdx v) = true := by
  obtain ⟨k, hk, hset, hlow⟩ := LowBit.exists_and_neg_eq_twoPow v h
  rw [firstOneIdx_eq hk hlow]
  exact ⟨hk, hset⟩

/-- It is the lowest. -/
theorem firstOneIdx_lowest {v : BitVec 64} (h : v ≠ 0#64) :
    ∀ i < firstOneIdx v, v.getLsbD i = false := by
  obtain ⟨k, hk, _, hlow⟩ := LowBit.exists_and_neg_eq_twoPow v h
  rw [firstOneIdx_eq hk hlow]
  exact LowBit.getLsbD_of_lt h hk hlow

/-! ### What a search has tried -/

section Tried

variable {α : Type} {reads : Nat → Nat → BitVec 64} {f : List (Nat × Option α) → Nat → Option α}
  {expectedValue : Bool} {S S₁ S₂ : Nat → Prop} {p q q' : Probe α} {r : Option α}

/-- The value of a bit at a read. -/
def bitAt (reads : Nat → Nat → BitVec 64) (t idx : Nat) : Bool :=
  (reads t (idx / bitfieldLen)).getLsbD (idx % bitfieldLen)

/-- Every call has the answer that `f` gives after the calls before it. -/
def Answered (f : List (Nat × Option α) → Nat → Option α) : List (Nat × Option α) → Prop
  | [] => True
  | (idx, x) :: calls => x = f calls idx ∧ Answered f calls

/-- What the search of the indices `S` has done between `p` and `q`: it has tried some
of them, each once; it has ended at the first one that `f` takes; and if there is
none, `f` has declined all that had the expected value at every read. -/
structure Tried (reads : Nat → Nat → BitVec 64) (f : List (Nat × Option α) → Nat → Option α)
    (expectedValue : Bool) (S : Nat → Prop) (p q : Probe α) (r : Option α)
    (new : List (Nat × Option α)) : Prop where
  time : p.time ≤ q.time
  calls : q.calls = new ++ p.calls
  inside : ∀ e ∈ new, S e.1
  nodup : (new.map Prod.fst).Nodup
  answered : Answered f p.calls → Answered f q.calls
  taken : ∀ x, r = some x → ∃ idx l, new = (idx, some x) :: l ∧ ∀ e ∈ l, e.2 = none
  declined : r = none → ∀ e ∈ new, e.2 = none
  complete : r = none → ∀ idx, S idx →
    (∀ t, p.time ≤ t → t < q.time → bitAt reads t idx = expectedValue) → idx ∈ new.map Prod.fst

namespace Tried

variable {new new₁ new₂ : List (Nat × Option α)}

theorem congr (h : Tried reads f expectedValue S₁ p q r new) (hS : ∀ idx, S₁ idx ↔ S idx) :
    Tried reads f expectedValue S p q r new :=
  ⟨h.time, h.calls, fun e he => (hS _).mp (h.inside e he), h.nodup, h.answered, h.taken,
    h.declined, fun hr idx hidx => h.complete hr idx ((hS idx).mpr hidx)⟩

/-- A search that has succeeded is also one of more indices. -/
theorem widen {x : α} (h : Tried reads f expectedValue S₁ p q (some x) new)
    (hS : ∀ idx, S₁ idx → S idx) : Tried reads f expectedValue S p q (some x) new :=
  ⟨h.time, h.calls, fun e he => hS _ (h.inside e he), h.nodup, h.answered, h.taken, by simp,
    by simp⟩

/-- A search without success goes on with other indices. -/
theorem trans (h₁ : Tried reads f expectedValue S₁ p q none new₁)
    (h₂ : Tried reads f expectedValue S₂ q q' r new₂) (hdisj : ∀ idx, S₁ idx → ¬ S₂ idx) :
    Tried reads f expectedValue (fun idx => S₁ idx ∨ S₂ idx) p q' r (new₂ ++ new₁) where
  time := h₁.time.trans h₂.time
  calls := by rw [h₂.calls, h₁.calls, List.append_assoc]
  inside e he := by
    rcases List.mem_append.mp he with he | he
    · exact .inr (h₂.inside e he)
    · exact .inl (h₁.inside e he)
  nodup := by
    rw [List.map_append]
    refine List.Nodup.append h₂.nodup h₁.nodup ?_
    intro idx hidx hidx'
    obtain ⟨e, he, rfl⟩ := List.mem_map.mp hidx
    obtain ⟨e', he', heq⟩ := List.mem_map.mp hidx'
    refine hdisj e'.1 (h₁.inside e' he') ?_
    rw [heq]
    exact h₂.inside e he
  answered h := h₂.answered (h₁.answered h)
  taken x hr := by
    obtain ⟨idx, l, rfl, hl⟩ := h₂.taken x hr
    refine ⟨idx, l ++ new₁, List.cons_append, fun e he => ?_⟩
    rcases List.mem_append.mp he with he | he
    · exact hl e he
    · exact h₁.declined rfl e he
  declined hr e he := by
    rcases List.mem_append.mp he with he | he
    · exact h₂.declined hr e he
    · exact h₁.declined rfl e he
  complete hr idx hidx hbit := by
    rw [List.map_append, List.mem_append]
    rcases hidx with hidx | hidx
    · exact .inr (h₁.complete rfl idx hidx fun t ht ht' => hbit t ht (ht'.trans_le h₂.time))
    · exact .inl (h₂.complete hr idx hidx fun t ht ht' => hbit t (h₁.time.trans ht) ht')

end Tried

/-! ### One part -/

/-- The index `idx` belongs to the bits `part.2` of the word `part.1`. -/
def InPart (part : Nat × BitVec 64) (idx : Nat) : Prop :=
  idx / bitfieldLen = part.1 ∧ part.2.getLsbD (idx % bitfieldLen) = true

/-- The number of bits of a mask. -/
def bits (mask : BitVec 64) : Nat := (List.range 64).countP mask.getLsbD

theorem bits_clear {mask : BitVec 64} {k : Nat} (hk : k < 64) (h : mask.getLsbD k = true) :
    bits (mask &&& ~~~(1#64 <<< k)) < bits mask := by
  have hbal := Machine.countP_range_congr (n := 64) (p := (mask &&& ~~~(1#64 <<< k)).getLsbD)
    (q := mask.getLsbD) hk fun i hi => by
      rw [LowBit.getLsbD_clear]
      simp [hi]
  rw [LowBit.getLsbD_clear, h] at hbal
  simp at hbal
  unfold bits
  omega

theorem bits_le (mask : BitVec 64) : bits mask ≤ 64 := by
  have := List.countP_le_length (p := mask.getLsbD) (l := List.range 64)
  rwa [List.length_range] at this

/-- Whether the bit `k` of a word counts as found. -/
theorem getLsbD_field (word : BitVec 64) {k : Nat} (hk : k < 64) :
    (if expectedValue then word else ~~~word).getLsbD k = decide (word.getLsbD k = expectedValue) := by
  cases expectedValue
  · simp [hk]
  · simp

/-- The search of one part ends, and it has tried its bits. -/
theorem probeChunkByValue_spec {j : Nat} (hj : j * 64 + 63 < 2 ^ 32) (fuel : Nat)
    (mask : BitVec 64) (p : Probe α) (hfuel : bits mask < fuel) :
    ∃ r q new, probeChunkByValue reads f expectedValue j fuel mask p = some (r, q) ∧
      Tried reads f expectedValue (InPart (j, mask)) p q r new := by
  induction fuel generalizing mask p with
  | zero => omega
  | succ fuel ih =>
      generalize hfield : (if expectedValue then reads p.time j else ~~~(reads p.time j)) &&& mask =
        maskedField
      have hmasked : ∀ k < 64, maskedField.getLsbD k =
          (decide ((reads p.time j).getLsbD k = expectedValue) && mask.getLsbD k) := by
        intro k hk
        rw [← hfield, BitVec.getLsbD_and, getLsbD_field _ hk]
      by_cases hzero : maskedField = 0#64
      · -- no bit of the mask has the expected value at this read
        refine ⟨none, { p with time := p.time + 1 }, [], ?_, Nat.le_succ _, rfl, by simp, by simp,
          id, by simp, by simp, fun _ idx hidx hbit => ?_⟩
        · simp only [probeChunkByValue, hfield, hzero]
          rfl
        · have hk : idx % 64 < 64 := Nat.mod_lt _ (by decide)
          have hfound := hmasked (idx % 64) hk
          have hval : (reads p.time j).getLsbD (idx % 64) = expectedValue := by
            have := hbit p.time le_rfl (Nat.lt_succ_self _)
            rwa [bitAt, hidx.1] at this
          rw [hzero, hval, show mask.getLsbD (idx % 64) = true from hidx.2] at hfound
          simp at hfound
      · obtain ⟨hk, hset⟩ := firstOneIdx_spec hzero
        have hmask : mask.getLsbD (firstOneIdx maskedField) = true := by
          have := hmasked _ hk
          rw [hset] at this
          exact (Bool.and_eq_true_iff.mp this.symm).2
        generalize hkdef : firstOneIdx maskedField = k at hk hset hmask
        have hidx : (j * bitfieldLen + k) % 2 ^ 32 = j * 64 + k :=
          Nat.mod_eq_of_lt (by unfold bitfieldLen; omega)
        have hdiv : (j * 64 + k) / bitfieldLen = j := by
          unfold bitfieldLen
          omega
        have hmod : (j * 64 + k) % bitfieldLen = k := by
          unfold bitfieldLen
          omega
        have hin : InPart (j, mask) (j * 64 + k) := ⟨hdiv, by rw [hmod]; exact hmask⟩
        have hstep : probeChunkByValue reads f expectedValue j (fuel + 1) mask p =
            match f p.calls (j * 64 + k) with
            | some x => some (some x, ⟨p.time + 1, (j * 64 + k, some x) :: p.calls⟩)
            | none => probeChunkByValue reads f expectedValue j fuel (mask &&& ~~~(1#64 <<< k))
                ⟨p.time + 1, (j * 64 + k, none) :: p.calls⟩ := by
          simp only [probeChunkByValue, hfield, hkdef, hidx, if_pos (show k < bitfieldLen from hk)]
          rw [if_neg (show ¬ maskedField = 0 from hzero)]
          cases f p.calls (j * 64 + k) <;> rfl
        rw [hstep]
        cases hx : f p.calls (j * 64 + k) with
        | some x =>
            refine ⟨some x, _, [(j * 64 + k, some x)], rfl, Nat.le_succ _, rfl, ?_, by simp,
              fun h => ⟨hx.symm, h⟩, by simp, by simp, by simp⟩
            intro e he
            rw [List.mem_singleton.mp he]
            exact hin
        | none =>
            have hfewer := bits_clear hk hmask
            obtain ⟨r, q, new, hrun, htried⟩ := ih (mask &&& ~~~(1#64 <<< k))
              ⟨p.time + 1, (j * 64 + k, none) :: p.calls⟩ (by omega)
            have hone : Tried reads f expectedValue (fun idx => idx = j * 64 + k) p
                ⟨p.time + 1, (j * 64 + k, none) :: p.calls⟩ none [(j * 64 + k, none)] :=
              ⟨Nat.le_succ _, rfl, by simp, by simp, fun h => ⟨hx.symm, h⟩, by simp, by simp,
                by simp⟩
            refine ⟨r, q, _, hrun, (hone.trans htried ?_).congr fun idx => ?_⟩
            · rintro idx rfl ⟨-, hbit⟩
              rw [hmod, LowBit.getLsbD_clear] at hbit
              simp at hbit
            · unfold InPart
              simp only [LowBit.getLsbD_clear]
              constructor
              · rintro (rfl | ⟨h, hbit⟩)
                · exact hin
                · exact ⟨h, (Bool.and_eq_true_iff.mp hbit).1⟩
              · rintro ⟨h, hbit⟩
                by_cases hkk : idx % bitfieldLen = k
                · refine .inl ?_
                  unfold bitfieldLen at h hkk
                  omega
                · exact .inr ⟨h, by simp [hbit, hkk]⟩

/-! ### All parts -/

/-- The parts are searched one after the other; none has an index of another. -/
theorem probeParts_spec {fuel : Nat} (hfuel : 64 < fuel) (l : List (Nat × BitVec 64)) (p : Probe α)
    (hword : ∀ part ∈ l, part.1 * 64 + 63 < 2 ^ 32)
    (hdisj : l.Pairwise fun part part' => ∀ idx, InPart part idx → ¬ InPart part' idx) :
    ∃ r q new, probeParts reads f expectedValue fuel l p = some (r, q) ∧
      Tried reads f expectedValue (fun idx => ∃ part ∈ l, InPart part idx) p q r new := by
  induction l generalizing p with
  | nil =>
      exact ⟨none, p, [], rfl, le_rfl, rfl, by simp, by simp, id, by simp, by simp, by simp⟩
  | cons part l ih =>
      obtain ⟨j, mask⟩ := part
      have hj : j * 64 + 63 < 2 ^ 32 := hword (j, mask) List.mem_cons_self
      have hj' : j % 2 ^ 32 = j := Nat.mod_eq_of_lt (by omega)
      obtain ⟨r, q, new, hrun, htried⟩ : ∃ r q new,
          probeChunkByValue reads f expectedValue j fuel mask p = some (r, q) ∧
            Tried reads f expectedValue (InPart (j, mask)) p q r new :=
        probeChunkByValue_spec hj fuel mask p ((bits_le mask).trans_lt hfuel)
      have hcons : ∀ idx, (∃ part ∈ (j, mask) :: l, InPart part idx) ↔
          InPart (j, mask) idx ∨ ∃ part ∈ l, InPart part idx := by
        intro idx
        simp
      rw [probeParts, hj', hrun]
      cases r with
      | some x =>
          exact ⟨some x, q, new, rfl, htried.widen fun idx h => (hcons idx).mpr (.inl h)⟩
      | none =>
          obtain ⟨hhead, htail⟩ := List.pairwise_cons.mp hdisj
          obtain ⟨r, q', new', hrun', htried'⟩ := ih q
            (fun part hpart => hword part (List.mem_cons_of_mem _ hpart)) htail
          refine ⟨r, q', new' ++ new, hrun', ?_⟩
          refine (htried.trans htried' ?_).congr fun idx => (hcons idx).symm
          rintro idx h ⟨part, hpart, h'⟩
          exact hhead part hpart idx h h'

end Tried

/-! ### The parts of the search -/

section Parts

variable {size startIdx field : Nat} {excludeStart : Bool}

theorem div_lt_ceilDiv {idx : Nat} (h : idx < size) :
    idx / bitfieldLen < ceilDiv size bitfieldLen := by
  unfold ceilDiv bitfieldLen
  omega

/-- The padding keeps the bits of indices below the size. -/
theorem getLsbD_padding (hfield : field < ceilDiv size bitfieldLen) (mask : BitVec 64) {k : Nat}
    (hk : k < 64) :
    (padding size field mask).getLsbD k = (mask.getLsbD k && decide (field * 64 + k < size)) := by
  unfold ceilDiv bitfieldLen at hfield
  unfold padding ceilDiv bitfieldLen
  split
  next hlast =>
    have hlow : size % 64 < 64 := Nat.mod_lt _ (by decide)
    rw [BitVec.getLsbD_and, LowBit.getLsbD_low hlow]
    congr 1
    rw [decide_eq_decide]
    omega
  next hlast =>
    have hbelow : field * 64 + k < size := by omega
    simp [hbelow]

theorem inPart_padding (hfield : field < ceilDiv size bitfieldLen) {mask : BitVec 64} {idx : Nat} :
    InPart (field, padding size field mask) idx ↔
      idx / 64 = field ∧ mask.getLsbD (idx % 64) = true ∧ idx < size := by
  have hk : idx % 64 < 64 := Nat.mod_lt _ (by decide)
  show idx / 64 = field ∧ (padding size field mask).getLsbD (idx % 64) = true ↔ _
  rw [getLsbD_padding hfield mask hk, Bool.and_eq_true, decide_eq_true_eq]
  refine and_congr_right fun hword => and_congr_right fun _ => ?_
  rw [← hword, Nat.div_add_mod']

/-- The part below the start bit; the start bit itself, which `exclude_start` takes
out, is not in it. -/
theorem inPart_second (hstart : startIdx < size) {idx : Nat} :
    InPart (startIdx / bitfieldLen,
      let secondMask := padding size (startIdx / bitfieldLen)
        (~~~(BitVec.allOnes 64 <<< (startIdx % bitfieldLen)))
      if excludeStart then secondMask &&& ~~~(1#64 <<< (startIdx % bitfieldLen)) else secondMask) idx ↔
      idx / 64 = startIdx / 64 ∧ idx % 64 < startIdx % 64 ∧ idx < size := by
  have hfield : startIdx / bitfieldLen < ceilDiv size bitfieldLen := div_lt_ceilDiv hstart
  have hk : idx % 64 < 64 := Nat.mod_lt _ (by decide)
  have hmask : (~~~(BitVec.allOnes 64 <<< (startIdx % bitfieldLen))).getLsbD (idx % 64) = true ↔
      idx % 64 < startIdx % 64 := by
    rw [BitVec.getLsbD_not, LowBit.getLsbD_high]
    simp only [hk, decide_true, Bool.true_and, Bool.not_not, decide_eq_true_eq]
    exact Iff.rfl
  have hplain : InPart (startIdx / bitfieldLen, padding size (startIdx / bitfieldLen)
      (~~~(BitVec.allOnes 64 <<< (startIdx % bitfieldLen)))) idx ↔ _ := inPart_padding hfield
  rw [hmask] at hplain
  cases excludeStart with
  | false => exact hplain
  | true =>
      rw [show startIdx / 64 = startIdx / bitfieldLen from rfl, ← hplain]
      unfold InPart
      refine and_congr_right fun hword => ?_
      simp only [if_true, LowBit.getLsbD_clear, Bool.and_eq_true]
      refine and_iff_left_of_imp fun hbit => ?_
      have hlt := (hplain.mp ⟨hword, hbit⟩).2.1
      simp only [Bool.not_eq_true', decide_eq_false_iff_not]
      exact Nat.ne_of_lt hlt

theorem inPart_first (hstart : startIdx < size) {idx : Nat} :
    InPart (startIdx / bitfieldLen, padding size (startIdx / bitfieldLen)
        (BitVec.allOnes 64 <<< (startIdx % bitfieldLen))) idx ↔
      idx / 64 = startIdx / 64 ∧ startIdx % 64 ≤ idx % 64 ∧ idx < size := by
  have hfield : startIdx / bitfieldLen < ceilDiv size bitfieldLen := div_lt_ceilDiv hstart
  have hk : idx % 64 < 64 := Nat.mod_lt _ (by decide)
  rw [inPart_padding hfield, LowBit.getLsbD_high]
  simp only [hk, decide_true, Bool.true_and, Bool.not_eq_true', decide_eq_false_iff_not, not_lt]
  exact Iff.rfl

theorem inPart_other (hn : field < ceilDiv size bitfieldLen) {idx : Nat} :
    InPart (field, padding size field (BitVec.allOnes 64)) idx ↔ idx / 64 = field ∧ idx < size := by
  have hk : idx % 64 < 64 := Nat.mod_lt _ (by decide)
  rw [inPart_padding hn, BitVec.getLsbD_allOnes]
  simp [hk]

/-- Going on from a word, one wraps around at the last. -/
theorem add_mod_cases {n s c : Nat} (hs : s < n) (hc : c < n) :
    ((s + c) % n = s + c ∧ s + c < n) ∨ ((s + c) % n = s + c - n ∧ n ≤ s + c) := by
  rcases Nat.lt_or_ge (s + c) n with h | h
  · exact .inl ⟨Nat.mod_eq_of_lt h, h⟩
  · refine .inr ⟨?_, h⟩
    rw [Nat.mod_eq_sub_mod h, Nat.mod_eq_of_lt (by omega)]

/-- The words searched after the start word are the other words, each once. -/
theorem parts_disjoint (hstart : startIdx < size) :
    (parts size startIdx excludeStart).Pairwise
      fun part part' => ∀ idx, InPart part idx → ¬ InPart part' idx := by
  have hfield : startIdx / bitfieldLen < ceilDiv size bitfieldLen := div_lt_ceilDiv hstart
  have hother : ∀ b < ceilDiv size bitfieldLen - 1, ∀ idx,
      InPart ((startIdx / bitfieldLen + (b + 1)) % ceilDiv size bitfieldLen,
        padding size ((startIdx / bitfieldLen + (b + 1)) % ceilDiv size bitfieldLen)
          (BitVec.allOnes 64)) idx →
      idx / 64 = (startIdx / bitfieldLen + (b + 1)) % ceilDiv size bitfieldLen := by
    intro b hb idx h
    exact ((inPart_other (Nat.mod_lt _ (by omega))).mp h).1
  have hne : ∀ b < ceilDiv size bitfieldLen - 1,
      (startIdx / bitfieldLen + (b + 1)) % ceilDiv size bitfieldLen ≠ startIdx / 64 := by
    intro b hb
    have hwrap := add_mod_cases hfield (c := b + 1) (by omega)
    unfold bitfieldLen at *
    omega
  unfold parts
  refine .cons ?_ (.cons ?_ ?_)
  · intro part hpart idx h
    have hhere := (inPart_second hstart).mp h
    rcases List.mem_cons.mp hpart with rfl | hpart
    · rw [inPart_first hstart]
      omega
    · obtain ⟨b, hb, rfl⟩ := List.mem_map.mp hpart
      intro h'
      have hb := List.mem_range.mp hb
      exact hne b hb ((hother b hb idx h').symm.trans hhere.1)
  · intro part hpart idx h h'
    have hhere := (inPart_first hstart).mp h
    obtain ⟨b, hb, rfl⟩ := List.mem_map.mp hpart
    have hb := List.mem_range.mp hb
    exact hne b hb ((hother b hb idx h').symm.trans hhere.1)
  · rw [List.pairwise_map]
    refine List.Pairwise.imp_of_mem ?_ List.pairwise_lt_range
    intro b b' hb hb' hlt idx h h'
    have hb := List.mem_range.mp hb
    have hb' := List.mem_range.mp hb'
    have hsame := (hother b hb idx h).symm.trans (hother b' hb' idx h')
    have hwrap := add_mod_cases hfield (c := b + 1) (by omega)
    have hwrap' := add_mod_cases hfield (c := b' + 1) (by omega)
    omega

/-- Together the parts are the indices below the size. -/
theorem exists_part_iff (hstart : startIdx < size) (idx : Nat) :
    (∃ part ∈ parts size startIdx excludeStart, InPart part idx) ↔ idx < size := by
  have hfield : startIdx / bitfieldLen < ceilDiv size bitfieldLen := div_lt_ceilDiv hstart
  constructor
  · rintro ⟨part, hpart, h⟩
    rcases List.mem_cons.mp hpart with rfl | hpart
    · exact ((inPart_second hstart).mp h).2.2
    rcases List.mem_cons.mp hpart with rfl | hpart
    · exact ((inPart_first hstart).mp h).2.2
    · obtain ⟨b, hb, rfl⟩ := List.mem_map.mp hpart
      exact ((inPart_other (Nat.mod_lt _ (Nat.zero_lt_of_lt hfield))).mp h).2
  · intro hidx
    by_cases hword : idx / 64 = startIdx / 64
    · rcases Nat.lt_or_ge (idx % 64) (startIdx % 64) with hbit | hbit
      · exact ⟨_, List.mem_cons_self, (inPart_second hstart).mpr ⟨hword, hbit, hidx⟩⟩
      · exact ⟨_, List.mem_cons_of_mem _ List.mem_cons_self,
          (inPart_first hstart).mpr ⟨hword, hbit, hidx⟩⟩
    · -- the word `idx / 64` comes `b + 1` words after the start word
      have hidxWord : idx / 64 < ceilDiv size bitfieldLen := div_lt_ceilDiv hidx
      obtain ⟨b, hb, hwrap⟩ : ∃ b < ceilDiv size bitfieldLen - 1,
          (startIdx / bitfieldLen + (b + 1)) % ceilDiv size bitfieldLen = idx / 64 := by
        have hfield' : startIdx / 64 < ceilDiv size bitfieldLen := hfield
        rcases Nat.lt_or_ge (startIdx / 64) (idx / 64) with hlt | hge
        · refine ⟨idx / 64 - startIdx / 64 - 1, by omega, ?_⟩
          have hsum : startIdx / bitfieldLen + (idx / 64 - startIdx / 64 - 1 + 1) = idx / 64 := by
            unfold bitfieldLen
            omega
          rw [hsum, Nat.mod_eq_of_lt hidxWord]
        · refine ⟨idx / 64 + ceilDiv size bitfieldLen - startIdx / 64 - 1, by omega, ?_⟩
          have hsum : startIdx / bitfieldLen +
              (idx / 64 + ceilDiv size bitfieldLen - startIdx / 64 - 1 + 1) =
              idx / 64 + ceilDiv size bitfieldLen := by
            unfold bitfieldLen at *
            omega
          rw [hsum, Nat.add_mod_right, Nat.mod_eq_of_lt hidxWord]
      refine ⟨_, List.mem_cons_of_mem _ (List.mem_cons_of_mem _
        (List.mem_map.mpr ⟨b, List.mem_range.mpr hb, rfl⟩)), ?_⟩
      exact (inPart_other (Nat.mod_lt _ (by omega))).mpr ⟨hwrap.symm, hidx⟩

theorem parts_word (hstart : startIdx < size) {part : Nat × BitVec 64}
    (h : part ∈ parts size startIdx excludeStart) : part.1 < ceilDiv size bitfieldLen := by
  have hfield : startIdx / bitfieldLen < ceilDiv size bitfieldLen := div_lt_ceilDiv hstart
  rcases List.mem_cons.mp h with rfl | h
  · exact hfield
  rcases List.mem_cons.mp h with rfl | h
  · exact hfield
  · obtain ⟨b, hb, rfl⟩ := List.mem_map.mp h
    exact Nat.mod_lt _ (Nat.zero_lt_of_lt hfield)

end Parts

/-! ### The whole search -/

/-- The search ends, whatever the reads find and `f` answers.  It calls `f` on
indices below the size, on none twice, and gives back the first answer that is not
`nullopt`; and if there is none, `f` has declined every index that had the expected value
at all reads. -/
theorem probe_by_value_sound_complete {α : Type} (reads : Nat → Nat → BitVec 64)
    (f : List (Nat × Option α) → Nat → Option α) (expectedValue excludeStart : Bool)
    {fuel size startIdx : Nat} (hsize : size ≤ 2 ^ 32 - 64) (hstart : startIdx < size)
    (hfuel : 64 < fuel) :
    ∃ r q, probeByValue reads f expectedValue fuel size startIdx excludeStart = some (r, q) ∧
      (∀ e ∈ q.calls, e.1 < size) ∧ (q.calls.map Prod.fst).Nodup ∧ Answered f q.calls ∧
      (∀ x, r = some x → ∃ idx l, q.calls = (idx, some x) :: l ∧ ∀ e ∈ l, e.2 = none) ∧
      (r = none → (∀ e ∈ q.calls, e.2 = none) ∧ ∀ idx < size, idx ≠ startIdx →
        (∀ t < q.time, bitAt reads t idx = expectedValue) → (idx, none) ∈ q.calls) := by
  have hword : ∀ part ∈ parts size startIdx excludeStart, part.1 * 64 + 63 < 2 ^ 32 := by
    intro part hpart
    have := parts_word hstart hpart
    unfold ceilDiv bitfieldLen at this
    omega
  obtain ⟨r, q, new, hrun, htried⟩ : ∃ r q new,
      probeParts reads f expectedValue fuel (parts size startIdx excludeStart) ⟨0, []⟩ = some (r, q) ∧
        Tried reads f expectedValue (fun idx => ∃ part ∈ parts size startIdx excludeStart,
          InPart part idx) ⟨0, []⟩ q r new :=
    probeParts_spec hfuel _ _ hword (parts_disjoint hstart)
  have htried := htried.congr (exists_part_iff hstart)
  have hcalls : q.calls = new := by rw [htried.calls, List.append_nil]
  refine ⟨r, q, ?_, ?_, ?_, htried.answered trivial, ?_, fun hr => ⟨?_, ?_⟩⟩
  · rw [probeByValue, if_neg (Nat.not_le.mpr hstart), hrun]
  · rw [hcalls]
    exact htried.inside
  · rw [hcalls]
    exact htried.nodup
  · rw [hcalls]
    exact htried.taken
  · rw [hcalls]
    exact htried.declined hr
  · intro idx hidx _ hbit
    rw [hcalls]
    obtain ⟨e, he, rfl⟩ := List.mem_map.mp
      (htried.complete hr idx hidx fun t _ ht => hbit t ht)
    rw [← htried.declined hr e he]
    exact he

/-- Ten bits, all zero, of which the caller, the last, takes only the first. -/
theorem probe_by_value_ten :
    ∃ r q, probeByValue (fun _ _ => 0#64)
        (fun _ idx => if idx = 0 then some idx else none) false 65 10 9 true =
          some (r, q) ∧
      (∀ e ∈ q.calls, e.1 < 10) ∧ (q.calls.map Prod.fst).Nodup ∧
      Answered (fun _ idx => if idx = 0 then some idx else none) q.calls ∧
      (∀ x, r = some x → ∃ idx l, q.calls = (idx, some x) :: l ∧ ∀ e ∈ l, e.2 = none) ∧
      (r = none → (∀ e ∈ q.calls, e.2 = none) ∧ ∀ idx < 10, idx ≠ 9 →
        (∀ t < q.time, bitAt (fun _ _ => 0#64) t idx = false) → (idx, none) ∈ q.calls) :=
  probe_by_value_sound_complete _ _ false true (by decide) (by decide) (by decide)

end RedGrapes.Bitfield
