/-
RedGrapes/Memory/EmptyChunks.lean

Which empty chunks a `ChunkedBumpAlloc` gives back.

A chunk is flagged only by a call of `deallocate` that takes the last block out of
it and finds it full.  A chunk is full as soon as it has refused a request, so that
every chunk behind the head is full, and the last block taken out of it flags it.
What is missed is a head that is empty *when* it refuses a request: nobody comes by
it again (`empty_chunk_kept`).  Without such requests every empty chunk behind
the head is flagged (`empty_chunks_given_back`).
-/
import RedGrapes.Memory.ChunkedBumpAlloc

namespace RedGrapes.Memory

open Function Machine

/-! ### One round of `allocate` -/

namespace ChunkedBumpAlloc

variable {s s' : ChunkedBumpAlloc} {size : Nat} {r : Option (Nat × Block)}

/-- An attempt touches the bump allocator of the head only. -/
theorem attempt_frame (h : s.attempt size = (r, s')) :
    s'.linked = s.linked ∧ s'.fresh = s.fresh ∧
      (∀ j, (s'.chunk j).deleted = (s.chunk j).deleted) ∧
      (∀ j, s.linked.head? ≠ some j → s'.chunk j = s.chunk j) ∧
      ∀ k blk, r = some (k, blk) → s.linked.head? = some k := by
  unfold attempt at h
  split at h
  · rename_i hl
    obtain ⟨rfl, rfl⟩ := Prod.mk.inj h
    exact ⟨rfl, rfl, fun _ => rfl, fun _ _ => rfl, fun _ _ e => by cases e⟩
  · rename_i k rest hl
    obtain ⟨hr, rfl⟩ := Prod.mk.inj h
    refine ⟨rfl, rfl, fun j => ?_, fun j hj => ?_, fun k' blk e => ?_⟩
    · rw [Heap.setItem_chunk]
      split
      · rename_i e
        rw [e]
      · rfl
    · rw [Heap.setItem_chunk, if_neg]
      rintro rfl
      exact hj (by rw [hl]; rfl)
    · rw [hl]
      rw [e] at hr
      split at hr
      · rw [(Prod.mk.inj (Option.some.inj hr)).1]
        rfl
      · cases hr

/-- A chunk that has refused a request is full. -/
theorem attempt_full {k : Nat} (h : s.attempt size = (none, s')) (hk : s.linked.head? = some k)
    (hpos : 0 < (s.chunk k).item.lowerLimit) :
    (s'.chunk k).item.nextAddr ≤ (s'.chunk k).item.lowerLimit := by
  unfold attempt at h
  split at h
  · rename_i hl
    rw [hl] at hk
    cases hk
  · rename_i k' rest hl
    rw [hl] at hk
    obtain rfl : k' = k := Option.some.inj hk
    obtain ⟨hr, rfl⟩ := Prod.mk.inj h
    rw [Heap.setItem_chunk, if_pos rfl]
    simp only [BumpAllocator.allocate] at hr ⊢
    split at hr
    · rename_i hle
      -- a block at a null pointer would lie below the lower limit
      rw [if_pos] at hr
      · cases hr
      · exact decide_eq_true (by simp only; omega)
    · rename_i hle
      rw [if_neg hle]
      simp only [BumpAllocator.fetchSub_lowerLimit]
      omega

end ChunkedBumpAlloc

namespace Heap

/-! ### The condition -/

/-- A request finds room in the head, or the head has a live block or is flagged. -/
def Spends (h : Heap) : HeapOp → Prop
  | .allocate n _ => ∀ k ∈ h.alloc.linked.head?,
      (h.alloc.chunk k).item.lowerLimit + roundupToPoweroftwo n ≤ (h.alloc.chunk k).item.nextAddr ∨
        h.blocksIn k ≠ [] ∨ (h.alloc.chunk k).deleted = true
  | .deallocate _ => True

instance (h : Heap) : ∀ op, Decidable (h.Spends op)
  | .allocate _ _ => inferInstanceAs (Decidable (∀ k ∈ h.alloc.linked.head?, _))
  | .deallocate _ => inferInstanceAs (Decidable True)

/-- Behind the head every chunk is full, and flagged if it is empty. -/
def Spent (h : Heap) : Prop :=
  ∀ k < h.alloc.fresh, h.alloc.linked.head? ≠ some k →
    (h.alloc.chunk k).item.nextAddr ≤ (h.alloc.chunk k).item.lowerLimit ∧
      (h.blocksIn k = [] → (h.alloc.chunk k).deleted = true)

variable {L : Layout} {h h' : Heap} {k n base : Nat}

/-- The rounds of `allocate`: the head has room, or a new chunk is made the head. -/
theorem allocate_cases (hs : step L h (.allocate n base) = some h') :
    (∃ k blk s, h.alloc.attempt (roundupToPoweroftwo n) = (some (k, blk), s) ∧
      h' = ⟨s, ⟨k, blk, n⟩ :: h.live⟩) ∨
    ∃ s k blk s', h.alloc.attempt (roundupToPoweroftwo n) = (none, s) ∧
      (s.allocateItem L base).attempt (roundupToPoweroftwo n) = (some (k, blk), s') ∧
      h' = ⟨s', ⟨k, blk, n⟩ :: h.live⟩ := by
  obtain ⟨⟨k, blk, s'⟩, hr, rfl⟩ := Option.map_eq_some_iff.mp hs
  unfold ChunkedBumpAlloc.allocate at hr
  split_ifs at hr
  rw [ChunkedBumpAlloc.allocateLoop] at hr
  split at hr
  · rename_i k' blk' s hfirst
    obtain ⟨rfl, hrest⟩ := Prod.mk.inj (Option.some.inj hr)
    obtain ⟨rfl, rfl⟩ := Prod.mk.inj hrest
    exact .inl ⟨k', blk', s, hfirst, rfl⟩
  · rename_i s hfirst
    rw [ChunkedBumpAlloc.allocateLoop] at hr
    split at hr
    · rename_i k' blk' s₁ hsecond
      obtain ⟨rfl, hrest⟩ := Prod.mk.inj (Option.some.inj hr)
      obtain ⟨rfl, rfl⟩ := Prod.mk.inj hrest
      exact .inr ⟨s, k', blk', s₁, hfirst, hsecond, rfl⟩
    · cases hr

theorem blocksIn_cons {x : Live} {s : ChunkedBumpAlloc} {live : List Live} (hne : x.owner ≠ k) :
    blocksIn ⟨s, x :: live⟩ k = live.filter fun y => y.owner == k := by
  show (x :: live).filter (fun y => y.owner == k) = _
  rw [List.filter_cons_of_neg (by simpa using hne)]

/-- The head of a heap lies above the null pointer. -/
theorem Inv.lowerLimit_pos (hi : Inv L h) (hL : L.Small) (hk : k < h.alloc.fresh) :
    0 < (h.alloc.chunk k).item.lowerLimit := by
  have hlow := (hi.limits k hk).1
  have hge := (usable_bounds hL (h.alloc.chunk k).base).1
  have hplaced := (hi.placed k hk).1
  omega

/-- A head with room does not refuse. -/
theorem Inv.not_refused (hi : Inv L h) (hL : L.Small) (hok : Legal L h (.allocate n base))
    (hk : h.alloc.linked.head? = some k) (hfit : (h.alloc.chunk k).item.lowerLimit +
      roundupToPoweroftwo n ≤ (h.alloc.chunk k).item.nextAddr) {s : ChunkedBumpAlloc} :
    h.alloc.attempt (roundupToPoweroftwo n) ≠ (none, s) := by
  obtain ⟨hle, hsize⟩ := roundupToPoweroftwo_bounds hok.1 hok.2.1
  obtain ⟨rest, hl⟩ := List.head?_eq_some_iff.mp hk
  obtain ⟨blk, s₁, hs, -⟩ := hi.attempt_fit hL hl (hok.1.trans hle) hsize hle hfit
  rw [hs]
  intro e
  cases (Prod.mk.inj e).1

/-! ### Every call keeps it -/

theorem Spent.allocate (hsp : Spent h) (hi : Inv L h) (hL : L.Small)
    (hok : Legal L h (.allocate n base)) (hcare : h.Spends (.allocate n base))
    (hs : step L h (.allocate n base) = some h') : Spent h' := by
  rcases allocate_cases hs with ⟨k, blk, s, hfirst, rfl⟩ | ⟨s, k, blk, s', hfirst, hsecond, rfl⟩
  · -- the head has room
    obtain ⟨hlinked, hfresh, hdel, hchunk, hhead⟩ := ChunkedBumpAlloc.attempt_frame hfirst
    intro j hj hne
    replace hj : j < s.fresh := hj
    replace hne : s.linked.head? ≠ some j := hne
    rw [hlinked] at hne
    rw [hfresh] at hj
    show (s.chunk j).item.nextAddr ≤ (s.chunk j).item.lowerLimit ∧ _
    rw [hchunk j hne, blocksIn_cons]
    · exact hsp j hj hne
    · rintro rfl
      exact hne (hhead _ _ rfl)
  · -- the head refuses, or there is none
    obtain ⟨hlinked, hfresh, hdel, hchunk, -⟩ := ChunkedBumpAlloc.attempt_frame hfirst
    obtain ⟨hlinked', hfresh', hdel', hchunk', hhead'⟩ := ChunkedBumpAlloc.attempt_frame hsecond
    obtain rfl : s.fresh = k := Option.some.inj (hhead' _ _ rfl)
    intro j hj hne
    replace hj : j < s'.fresh := hj
    replace hne : s'.linked.head? ≠ some j := hne
    rw [hlinked'] at hne
    rw [hfresh'] at hj
    have hnew : j ≠ s.fresh := by
      rintro rfl
      exact hne rfl
    have hj' : j < h.alloc.fresh := by
      rw [← hfresh]
      have : j < s.fresh + 1 := hj
      omega
    have hsame : s'.chunk j = s.chunk j := by
      rw [hchunk' j hne]
      exact update_of_ne hnew _ _
    show (s'.chunk j).item.nextAddr ≤ (s'.chunk j).item.lowerLimit ∧ _
    rw [hsame, blocksIn_cons (Ne.symm hnew)]
    by_cases hold : h.alloc.linked.head? = some j
    · refine ⟨ChunkedBumpAlloc.attempt_full hfirst hold (hi.lowerLimit_pos hL hj'), fun hempty => ?_⟩
      rw [hdel]
      rcases hcare j hold with hfit | hlive | hflag
      · exact absurd hfirst (hi.not_refused hL hok hold hfit)
      · exact absurd hempty hlive
      · exact hflag
    · rw [hchunk j hold]
      exact hsp j hj' hold

theorem Spent.deallocate (hsp : Spent h) (hi : Inv L h) (hL : L.Small) {i : Nat} {x : Live}
    (hx : h.live[i]? = some x) : Spent ⟨h.alloc.deallocate x.blk, h.live.eraseIdx i⟩ := by
  have hmem : x ∈ h.live := List.mem_of_getElem? hx
  obtain ⟨hlinked, halive⟩ := hi.owner x hmem
  have hfound := hi.found hL hmem
  have hperm : (x :: h.live.eraseIdx i).Perm h.live := by
    obtain ⟨hil, hget⟩ := List.getElem?_eq_some_iff.mp hx
    rw [← hget]
    exact List.getElem_cons_eraseIdx_perm hil
  have hhead : (h.alloc.deallocate x.blk).linked.head? = h.alloc.linked.head? := by
    simp only [ChunkedBumpAlloc.deallocate, hfound]
    exact search_head
  have hfresh : (h.alloc.deallocate x.blk).fresh = h.alloc.fresh := by
    simp only [ChunkedBumpAlloc.deallocate, hfound]
  intro j hj hne
  replace hj : j < (h.alloc.deallocate x.blk).fresh := hj
  replace hne : (h.alloc.deallocate x.blk).linked.head? ≠ some j := hne
  rw [hfresh] at hj
  rw [hhead] at hne
  obtain ⟨hfull, hflag⟩ := hsp j hj hne
  obtain ⟨-, hlow, -, hnext, hdel, -⟩ := deallocate_chunk hfound j
  refine ⟨?_, fun hempty => ?_⟩
  · show ((h.alloc.deallocate x.blk).chunk j).item.nextAddr ≤
      ((h.alloc.deallocate x.blk).chunk j).item.lowerLimit
    rw [hnext, hlow]
    exact hfull
  · show ((h.alloc.deallocate x.blk).chunk j).deleted = true
    replace hempty : (h.live.eraseIdx i).filter (fun y => y.owner == j) = [] := hempty
    have hblocks := (perm_blocks hperm j).length_eq
    rw [hdel]
    rcases eq_or_ne j x.owner with rfl | hjx
    · -- the last block is taken out of a chunk that is full
      rw [if_pos rfl, hempty] at hblocks
      have hone : (h.alloc.chunk x.owner).item.count = 1 := (hi.count _ hj).trans hblocks
      have herases : h.alloc.erases x.owner = true := by
        simp only [ChunkedBumpAlloc.erases, BumpAllocator.deallocate, BumpAllocator.full, hone,
          BumpAllocator.countDown_nextAddr, BumpAllocator.countDown_lowerLimit, decide_true,
          Bool.true_and, decide_eq_true_eq]
        exact hfull
      rw [herases]
      simp
    · rw [if_neg (Ne.symm hjx), hempty] at hblocks
      rw [hflag (List.length_eq_zero_iff.mp hblocks)]
      rfl

/-- **Empty chunks are given back.**  In every run in which no request is refused by
an empty head, every chunk behind the head that holds no live block is flagged. -/
theorem empty_chunks_given_back (L : Layout) (hL : L.Small) {h : Heap}
    (hr : Reaches (step L) (fun h op => Legal L h op ∧ h.Spends op) init h) :
    ∀ k < h.alloc.fresh, h.alloc.linked.head? ≠ some k → h.blocksIn k = [] →
      (h.alloc.chunk k).deleted = true := by
  have hinv : Inv L h ∧ Spent h := by
    refine hr.invariant (I := fun h => Inv L h ∧ Spent h)
      ⟨inv_init, fun _ hk => by cases hk⟩ ?_
    rintro h op h' ⟨hi, hsp⟩ ⟨hok, hcare⟩ hs
    cases op with
    | allocate n base =>
        obtain ⟨h₁, hs₁, hi₁⟩ := hi.allocate hL hok
        obtain rfl : h₁ = h' := Option.some.inj (hs₁.symm.trans hs)
        exact ⟨hi₁, hsp.allocate hi hL hok hcare hs⟩
    | deallocate i =>
        obtain ⟨x, hx, rfl⟩ := Option.map_eq_some_iff.mp hs
        exact ⟨hi.deallocate hL hx, hsp.deallocate hi hL hx⟩
  intro k hk hne hempty
  exact (hinv.2 k hk hne).2 hempty

/-- A chunk is left with a live block, and flagged when the block is given back. -/
theorem empty_chunks_given_back_two :
    ∃ h : Heap, Reaches (step ⟨32, 32⟩) (fun h op => Legal ⟨32, 32⟩ h op ∧ h.Spends op) init h ∧
      h.alloc.linked.head? ≠ some 0 ∧ h.blocksIn 0 = [] ∧ (h.alloc.chunk 0).deleted = true := by
  have hrun : (exec (step ⟨32, 32⟩) (fun h op => Legal ⟨32, 32⟩ h op ∧ h.Spends op)
      [.allocate 32768 262144, .allocate 32768 524288, .deallocate 1] init).map
        (fun h => (h.alloc.linked.head?, h.blocksIn 0, h.alloc.fresh)) = some (some 1, [], 2) := by
    decide +kernel
  obtain ⟨h, hs, hp⟩ := Option.map_eq_some_iff.mp hrun
  obtain ⟨hhead, hp⟩ := Prod.mk.inj hp
  obtain ⟨hempty, hfresh⟩ := Prod.mk.inj hp
  have hreach := Reaches.refl.of_exec hs
  have hne : h.alloc.linked.head? ≠ some 0 := by
    rw [hhead]
    simp
  exact ⟨h, hreach, hne, hempty, empty_chunks_given_back ⟨32, 32⟩ (by decide) hreach 0
    (by rw [hfresh]; decide) hne hempty⟩

/-! ### What is missed -/

/-- An empty head that refuses a request is left behind, and it is not flagged. -/
theorem empty_chunk_left (hi : Inv L h) (hL : L.Small) (hok : Legal L h (.allocate n base))
    (hcare : ¬ h.Spends (.allocate n base)) (hs : step L h (.allocate n base) = some h') :
    ∃ k < h'.alloc.fresh, h'.alloc.linked.head? ≠ some k ∧ h'.blocksIn k = [] ∧
      (h'.alloc.chunk k).deleted = false := by
  simp only [Spends] at hcare
  push Not at hcare
  obtain ⟨k, hk, hfit, hempty, hflag⟩ := hcare
  have hlt := hi.created k (List.mem_of_head? hk)
  rcases allocate_cases hs with ⟨k', blk, s, hfirst, rfl⟩ | ⟨s, k', blk, s', hfirst, hsecond, rfl⟩
  · -- the head has no room
    obtain ⟨hle, hsize⟩ := roundupToPoweroftwo_bounds hok.1 hok.2.1
    obtain ⟨rest, hl⟩ := List.head?_eq_some_iff.mp hk
    obtain ⟨b, hb, -⟩ := hi.attempt_refuse hL hl hsize (not_le.mpr hfit)
    rw [hb] at hfirst
    cases (Prod.mk.inj hfirst).1
  · obtain ⟨hlinked, hfresh, hdel, -, -⟩ := ChunkedBumpAlloc.attempt_frame hfirst
    obtain ⟨hlinked', hfresh', hdel', hchunk', hhead'⟩ := ChunkedBumpAlloc.attempt_frame hsecond
    obtain rfl : s.fresh = k' := Option.some.inj (hhead' _ _ rfl)
    have hne : k ≠ s.fresh := by
      rw [hfresh]
      exact Nat.ne_of_lt hlt
    refine ⟨k, ?_, ?_, ?_, ?_⟩
    · show k < s'.fresh
      rw [hfresh']
      show k < s.fresh + 1
      omega
    · show s'.linked.head? ≠ some k
      rw [hlinked']
      intro e
      exact hne (Option.some.inj e).symm
    · rw [blocksIn_cons (Ne.symm hne)]
      exact hempty
    · show (s'.chunk k).deleted = false
      rw [hdel', ← Bool.not_eq_true, show (s.allocateItem L base).chunk k = s.chunk k from
        update_of_ne hne _ _, hdel]
      exact hflag

/-- A block of half a chunk is allocated, given back and allocated again: the first
chunk is empty and behind the head, and it is not flagged. -/
theorem empty_chunk_kept :
    ∃ h : Heap, Reaches (step ⟨32, 32⟩) (Legal ⟨32, 32⟩) init h ∧ 0 < h.alloc.fresh ∧
      h.alloc.linked.head? ≠ some 0 ∧ h.blocksIn 0 = [] ∧ (h.alloc.chunk 0).deleted = false := by
  have hrun : (exec (step ⟨32, 32⟩) (Legal ⟨32, 32⟩)
      [.allocate 32768 262144, .deallocate 0, .allocate 32768 524288] init).map
        (fun h => (h.alloc.linked.head?, h.blocksIn 0, h.alloc.fresh, (h.alloc.chunk 0).deleted)) =
          some (some 1, [], 2, false) := by
    decide +kernel
  obtain ⟨h, hs, hp⟩ := Option.map_eq_some_iff.mp hrun
  obtain ⟨hhead, hp⟩ := Prod.mk.inj hp
  obtain ⟨hempty, hp⟩ := Prod.mk.inj hp
  obtain ⟨hfresh, hflag⟩ := Prod.mk.inj hp
  refine ⟨h, Reaches.refl.of_exec hs, ?_, ?_, hempty, hflag⟩
  · rw [hfresh]
    decide
  · rw [hhead]
    simp

end Heap

end RedGrapes.Memory
