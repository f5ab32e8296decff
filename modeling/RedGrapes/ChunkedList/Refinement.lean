/-
RedGrapes/ChunkedList/Refinement.lean

A `ChunkedList` is a list with tombstones, as long as its operations run one at
a time.

`remove`, `push` and `erase` get the lemma that says what the chunks represent
afterwards.  A `Session` is a list together with the iterators its users keep;
`Tombstones` is the same over a plain list.  `session_refines` says that every
sequence of operations visits the same values in both, and returns.

The count of an item is a signed 16-bit word.  A scan needs one reference more
than the iterators that are kept, so that one of them less than the word holds
is too many (`scan_throws`).
-/
import RedGrapes.ChunkedList.Sequential

namespace RedGrapes.ChunkedList

open Function

variable {V : Type}

/-! ### Removal -/

/-- The `k`-th value is removed. -/
def bury (es : List (V × Bool)) (k : Nat) : List (V × Bool) := es.modify k fun e => (e.1, true)

section Bury

variable {es es' : List (V × Bool)} {k : Nat}

theorem length_bury : (bury es k).length = es.length := List.length_modify _ _ _

theorem getElem?_bury_self : (bury es k)[k]? = es[k]?.map fun e => (e.1, true) := by
  simp [bury]

theorem getElem?_bury_of_ne {i : Nat} (h : i ≠ k) : (bury es k)[i]? = es[i]? := by
  simp [bury, Ne.symm h]

theorem gone_bury_self (hk : k < es.length) : gone (bury es k) k = true := by
  simp [gone, getElem?_bury_self, List.getElem?_eq_getElem hk]

theorem gone_bury_of_ne {i : Nat} (h : i ≠ k) : gone (bury es k) i = gone es i := by
  rw [gone, getElem?_bury_of_ne h, gone]

theorem gone_bury_of_gone {i : Nat} (h : gone es i = true) : gone (bury es k) i = true := by
  rcases eq_or_ne i k with rfl | hne
  · exact gone_bury_self (lt_of_gone h)
  · rw [gone_bury_of_ne hne]
    exact h

theorem value_bury (i : Nat) : (bury es k)[i]?.map Prod.fst = es[i]?.map Prod.fst := by
  rcases eq_or_ne i k with rfl | hne
  · rw [getElem?_bury_self, Option.map_map]
    rfl
  · rw [getElem?_bury_of_ne hne]

theorem Dead.mono {T a : Nat} (hsub : ∀ i, gone es i = true → gone es' i = true)
    (h : Dead T es a) : Dead T es' a := fun j hj => hsub _ (h j hj)

theorem Behind.mono {T a : Nat} {chain : Nat → Nat} {p : Option Nat}
    (hsub : ∀ i, gone es i = true → gone es' i = true) (h : Behind T chain es a p) :
    Behind T chain es' a p := by
  cases p with
  | none => exact fun b hb => (h b hb).mono hsub
  | some q =>
      obtain ⟨b, hb, hq, hd⟩ := h
      exact ⟨b, hb, hq, fun c hc hc' => (hd c hc hc').mono hsub⟩

theorem dead_iff_countP {T a : Nat} :
    Dead T es a ↔ (List.range T).countP (fun j => gone es (a * T + j)) = T := by
  have hall := List.countP_eq_length (p := fun j => gone es (a * T + j)) (l := List.range T)
  rw [List.length_range] at hall
  rw [hall]
  simp [Dead]

end Bury

namespace Holds

variable {T m : Nat} {chain : Nat → Nat} {s : Chunks V} {es : List (V × Bool)}
  {refs : Nat → Nat}

/-- The distance that `remove` writes leads over removed slots only. -/
theorem skips_removalOffset (h : Holds T chain m s es refs) (hT : 0 < T) (hword : T < wordSize)
    {k : Nat} (hk : k < es.length) :
    Skips T (bury es k) k (s.removalOffset (chain (k / T)) (k % T)) := by
  have hself : gone (bury es k) k = true := gone_bury_self hk
  have hlt := Nat.mod_lt k hT
  have hdm := Nat.div_add_mod' k T
  unfold Chunks.removalOffset
  split
  · refine .inr ⟨Nat.one_pos, by omega, fun i hi => ?_⟩
    obtain rfl : i = 0 := by omega
    exact hself
  · rename_i hne
    obtain ⟨hdiv, hmod⟩ := div_mod_of_lt (T := T) (a := k / T) (j := k % T - 1) (by omega)
    rw [show k / T * T + (k % T - 1) = k - 1 by omega] at hdiv hmod
    have hoff := h.offset (k - 1) (by omega)
    rw [hdiv, hmod] at hoff
    generalize (s.item (chain (k / T)) (k % T - 1)).iterOffset = off at hoff ⊢
    have hle : off ≤ k % T := by
      rcases hoff with ⟨hz, -⟩ | ⟨-, hle, -⟩
      · omega
      · omega
    rw [Nat.mod_eq_of_lt (by omega)]
    refine .inr ⟨Nat.succ_pos off, by omega, fun i hi => ?_⟩
    cases i with
    | zero => exact hself
    | succ i =>
        rcases hoff with ⟨hz, -⟩ | ⟨-, -, hgone⟩
        · omega
        · have := hgone i (by omega)
          rw [show k - (i + 1) = k - 1 - i by omega]
          exact gone_bury_of_gone this

/-- The item that `remove` leaves at the place `(c, j)`. -/
def removedItem (s : Chunks V) (c j : Nat) : Item :=
  ((s.item c j).setOffset (s.removalOffset c j)).release

/-- The chunks after `remove` at the place `(c, j)`. -/
def removed (T : Nat) (s : Chunks V) (c j : Nat) : Chunks V :=
  ((s.setItem c j ((s.item c j).setOffset (s.removalOffset c j))).setItem c j
    (removedItem s c j)).releaseChunk T c

theorem setItem_same {β : Type} (g : Chunk V → β) (hg : ∀ b j x, g (Chunk.setItem b j x) = g b)
    (c j c' : Nat) (x : Item) : g ((s.setItem c j x).chunk c') = g (s.chunk c') :=
  Chunks.modify_same g (hg _ _ _) c'

theorem removed_same {β : Type} (g : Chunk V → β) (hitem : ∀ b j x, g (Chunk.setItem b j x) = g b)
    (hfreed : ∀ (b : Chunk V) n d, g { b with freedItems := n, deleted := d } = g b) (c j c' : Nat) :
    g ((removed T s c j).chunk c') = g (s.chunk c') := by
  unfold removed Chunks.releaseChunk
  rw [Chunks.modify_same g (hfreed _ _ _), setItem_same g hitem, setItem_same g hitem]

theorem removed_item (c j c' j' : Nat) :
    (removed T s c j).item c' j' =
      if (c', j') = (c, j) then removedItem s c j else s.item c' j' := by
  have hchunk : ∀ t : Chunks V, (t.releaseChunk T c).item c' j' = t.item c' j' := by
    intro t
    show ((t.modify c _).chunk c').item j' = (t.chunk c').item j'
    rw [Chunks.modify_same Chunk.item rfl]
  unfold removed
  rw [hchunk]
  split
  · rename_i e
    obtain ⟨rfl, rfl⟩ := Prod.mk.inj e
    exact Chunks.item_setItem_self
  · rename_i hne
    rw [Chunks.item_setItem_of_ne hne, Chunks.item_setItem_of_ne hne]

/-- The chunk of the removed slot counts it. -/
theorem removed_freed (c j : Nat) :
    ((removed T s c j).chunk c).freedItems = (s.chunk c).freedItems + 1 ∧
      ((removed T s c j).chunk c).deleted =
        ((s.chunk c).deleted || (s.chunk c).freedItems == T - 1) := by
  unfold removed Chunks.releaseChunk
  rw [Chunks.modify_chunk_self]
  dsimp only
  rw [setItem_same Chunk.freedItems fun _ _ _ => rfl, setItem_same Chunk.freedItems fun _ _ _ => rfl,
    setItem_same Chunk.deleted fun _ _ _ => rfl, setItem_same Chunk.deleted fun _ _ _ => rfl]
  exact ⟨rfl, rfl⟩

theorem removed_chunk_of_ne {c c' : Nat} (j : Nat) (h : c' ≠ c) :
    ((removed T s c j).chunk c') = s.chunk c' := by
  unfold removed Chunks.releaseChunk
  rw [Chunks.modify_chunk_of_ne h, Chunks.setItem, Chunks.modify_chunk_of_ne h, Chunks.setItem,
    Chunks.modify_chunk_of_ne h]

/-- Burying a value that is there adds one to the tombstones of its chunk. -/
theorem countP_bury {k : Nat} (hT : 0 < T) (hk : live es k = true) (a : Nat) :
    (List.range T).countP (fun j => gone (bury es k) (a * T + j)) =
      (List.range T).countP (fun j => gone es (a * T + j)) + if a = k / T then 1 else 0 := by
  have hlt := lt_of_live hk
  have hgone : gone es k = false := by
    have := live_eq_not_gone hlt
    rw [hk] at this
    simpa using this.symm
  split
  · rename_i ha
    have hdm := Nat.div_add_mod' k T
    have hcount := Machine.countP_range_congr (n := T) (k := k % T)
      (p := fun j => gone (bury es k) (a * T + j)) (q := fun j => gone es (a * T + j))
      (Nat.mod_lt k hT) fun j hj => by
        rw [gone_bury_of_ne]
        rw [ha]
        omega
    rw [ha, hdm, hgone, gone_bury_self hlt, ← ha] at hcount
    simpa using hcount
  · rename_i ha
    rw [Nat.add_zero]
    refine List.countP_congr fun j hj => ?_
    rw [gone_bury_of_ne]
    rintro rfl
    exact ha (div_mod_of_lt (List.mem_range.mp hj)).1.symm

/-- `remove` puts a tombstone. -/
theorem remove_spec (h : Holds T chain m s es refs) (hT : 0 < T) (hword : T < wordSize) {k : Nat}
    (hk : live es k = true) (hpos : 0 < refs k) (hroom : refs k < 32768) :
    ∃ s', s.remove T (access T chain (some k)) = .ok s' ∧
      Holds T chain m s' (bury es k) refs := by
  have hlt := lt_of_live hk
  have hgone : gone es k = false := by
    have := live_eq_not_gone hlt
    rw [hk] at this
    simpa using this.symm
  have hcount : (s.item (chain (k / T)) (k % T)).refcount = refs k := by
    simpa [hgone] using h.count k hlt
  have hsub : (removedItem s (chain (k / T)) (k % T)).refcount = refs k - 1 := by
    show ((s.item (chain (k / T)) (k % T)).refcount - 1).bmod wordSize = _
    rw [hcount]
    exact ItemState.bmod_wordSize (by omega) (by omega)
  have hne : ∀ i, i ≠ k → (removed T s (chain (k / T)) (k % T)).item (chain (i / T)) (i % T) =
      s.item (chain (i / T)) (i % T) := by
    intro i hi
    rw [removed_item, if_neg (h.place_ne hi)]
  -- somebody holds the element, so the release does not throw
  have hremove : s.remove T (access T chain (some k)) =
      .ok (removed T s (chain (k / T)) (k % T)) := by
    have hthrow : (s.item (chain (k / T)) (k % T)).releaseThrows = false := by
      rw [Item.releaseThrows, decide_eq_false_iff_not, hcount]
      omega
    rw [Chunks.remove, access, index_eq hT]
    dsimp only
    rw [Chunks.item_setItem_self]
    show (if (s.item (chain (k / T)) (k % T)).releaseThrows then _ else _) = _
    rw [hthrow]
    rfl
  refine ⟨removed T s (chain (k / T)) (k % T), hremove, ?_⟩
  exact {
    mono := h.mono
    fresh := h.fresh
    head := h.head
    upper := by
      rw [length_bury]
      exact h.upper
    lower := by
      rw [length_bury]
      exact h.lower
    full := by
      intro a ha
      rw [removed_same Chunk.nextItem (fun _ _ _ => rfl) fun _ _ _ => rfl]
      exact h.full a ha
    last := by
      intro a ha
      rw [removed_same Chunk.nextItem (fun _ _ _ => rfl) fun _ _ _ => rfl, length_bury]
      exact h.last a ha
    value := by
      intro i hi
      rw [length_bury] at hi
      rw [removed_same Chunk.value (fun _ _ _ => rfl) fun _ _ _ => rfl, value_bury]
      exact h.value i hi
    count := by
      intro i hi
      rw [length_bury] at hi
      rcases eq_or_ne i k with rfl | hi'
      · rw [removed_item, if_pos rfl, hsub, gone_bury_self hlt]
        rfl
      · rw [hne i hi', gone_bury_of_ne hi']
        exact h.count i hi
    offset := by
      intro i hi
      rw [length_bury] at hi
      rcases eq_or_ne i k with rfl | hi'
      · rw [removed_item, if_pos rfl]
        exact h.skips_removalOffset hT hword hlt
      · rw [hne i hi']
        rcases h.offset i hi with ⟨hz, hg⟩ | ⟨hp, hle, hg⟩
        · refine .inl ⟨hz, ?_⟩
          rw [gone_bury_of_ne hi']
          exact hg
        · exact .inr ⟨hp, hle, fun n hn => gone_bury_of_gone (hg n hn)⟩
    room := by
      intro i hi him
      rw [length_bury] at hi
      rw [hne i (by omega)]
      exact h.room i hi him
    unused := by
      intro i hi
      rw [length_bury] at hi
      exact h.unused i hi
    freed := by
      intro a ha
      rw [countP_bury hT hk a, ← h.freed a ha]
      rcases eq_or_ne a (k / T) with rfl | hne'
      · rw [if_pos rfl]
        exact (removed_freed _ _).1
      · rw [removed_chunk_of_ne _ fun e => hne' (h.mono.injective e), if_neg hne']
        rfl
    deleted := by
      intro a ha
      rw [dead_iff_countP, countP_bury hT hk a, ← h.freed a ha]
      rcases eq_or_ne a (k / T) with rfl | hne'
      · have hnot : (s.chunk (chain (k / T))).deleted = false := by
          rw [Bool.eq_false_iff]
          intro hdel
          have := (h.deleted _ ha).mp hdel
          rw [gone_of_dead hT this] at hgone
          cases hgone
        rw [(removed_freed _ _).2, hnot, if_pos rfl, Bool.false_or, beq_iff_eq]
        omega
      · rw [removed_chunk_of_ne _ fun e => hne' (h.mono.injective e), if_neg hne', h.deleted a ha,
          dead_iff_countP, h.freed a ha]
        rfl
    prev := by
      intro a ha
      rw [removed_same Chunk.prev (fun _ _ _ => rfl) fun _ _ _ => rfl]
      exact (h.prev a ha).mono fun i => gone_bury_of_gone }

/-! ### Insertion -/

theorem gone_of_length_le {k : Nat} (h : es.length ≤ k) : gone es k = false := by
  simp [gone, List.getElem?_eq_none h]

theorem gone_append (v : V) : gone (es ++ [(v, false)]) = gone es := by
  funext k
  rcases lt_trichotomy k es.length with hlt | rfl | hgt
  · simp [gone, List.getElem?_append_left hlt]
  · simp [gone]
  · rw [gone_of_length_le hgt.le, gone_of_length_le (by simpa using hgt)]

/-- A new chunk is put in front when all the others are full. -/
theorem allocateItem_spec (h : Holds T chain m s es refs) (hT : 0 < T)
    (hfull : es.length = m * T) : Holds T chain (m + 1) s.allocateItem es refs := by
  have hfresh : chain m = s.fresh := h.fresh 0
  have hnew : s.allocateItem.chunk (chain m) = { Chunk.init with prev := s.head } := by
    rw [hfresh]
    exact update_self _ _ _
  have hold : ∀ a < m, s.allocateItem.chunk (chain a) = s.chunk (chain a) := by
    intro a ha
    refine update_of_ne ?_ _ _
    rw [← hfresh]
    exact (h.mono ha).ne
  have hitem : ∀ k, k < es.length → s.allocateItem.item (chain (k / T)) (k % T) =
      s.item (chain (k / T)) (k % T) := by
    intro k hk
    show (s.allocateItem.chunk (chain (k / T))).item (k % T) = _
    rw [hold _ (h.div_lt hT hk)]
    rfl
  -- nothing in the new chunk has been removed
  have hempty : ∀ j, gone es (m * T + j) = false := fun j => gone_of_length_le (by omega)
  exact {
    mono := h.mono
    fresh := by
      intro a
      rw [Nat.add_assoc, h.fresh]
      show s.fresh + (1 + a) = s.fresh + 1 + a
      omega
    head := by
      show some s.fresh = some (chain m)
      rw [hfresh]
    upper := by
      rw [hfull]
      exact Nat.mul_le_mul_right T (Nat.le_succ m)
    lower := hfull.ge
    full := by
      intro a ha
      rw [hold a (by omega)]
      rcases Nat.lt_or_ge (a + 1) m with hlt | hge
      · exact h.full a hlt
      · obtain rfl : m = a + 1 := by omega
        rw [h.last a rfl, hfull, Nat.succ_mul]
        omega
    last := by
      intro a ha
      obtain rfl : a = m := by omega
      rw [hnew, hfull, Nat.sub_self]
      rfl
    value := by
      intro k hk
      rw [hold _ (h.div_lt hT hk)]
      exact h.value k hk
    count := by
      intro k hk
      rw [hitem k hk]
      exact h.count k hk
    offset := by
      intro k hk
      rw [hitem k hk]
      exact h.offset k hk
    room := by
      intro k hk hkm
      have hdiv : k / T = m := by
        have := (Nat.le_div_iff_mul_le hT).mpr (hfull ▸ hk)
        omega
      show (s.allocateItem.chunk (chain (k / T))).item (k % T) = _
      rw [hdiv, hnew]
      rfl
    unused := h.unused
    freed := by
      intro a ha
      rcases Nat.eq_or_lt_of_le (Nat.le_of_lt_succ ha) with rfl | hlt
      · rw [hnew]
        simp [hempty, Chunk.init]
      · rw [hold a hlt]
        exact h.freed a hlt
    deleted := by
      intro a ha
      rcases Nat.eq_or_lt_of_le (Nat.le_of_lt_succ ha) with rfl | hlt
      · rw [hnew]
        refine ⟨fun e => (by cases e), fun hdead => ?_⟩
        have := hdead 0 hT
        rw [hempty] at this
        cases this
      · rw [hold a hlt]
        exact h.deleted a hlt
    prev := by
      intro a ha
      rcases Nat.eq_or_lt_of_le (Nat.le_of_lt_succ ha) with rfl | hlt
      · rw [hnew]
        show Behind T chain es a s.head
        rw [h.head]
        split
        · rename_i hz
          intro b hb
          omega
        · exact ⟨a - 1, by omega, rfl, fun c hc hc' => by omega⟩
      · rw [hold a hlt]
        exact h.prev a hlt }

/-- A chunk that is not the newest may be overshot. -/
theorem overshoot (h : Holds T chain m s es refs) {a n : Nat} (ha : a + 1 < m) (hn : T ≤ n) :
    Holds T chain m (s.modify (chain a) fun b => { b with nextItem := n }) es refs :=
  h.modify (fun _ => rfl) (fun _ => rfl) (fun _ => rfl) (fun _ => rfl) (fun _ => hn)
    (fun e => absurd e (by omega)) (h.prev a)

/-- A value is written to the next slot of the newest chunk. -/
theorem assign_spec (h : Holds T chain m s es refs) (hT : 0 < T) {a : Nat} (ha : a + 1 = m)
    (hlt : es.length < m * T) (v : V) :
    Holds T chain m ((s.modify (chain a) fun b => { b with nextItem := es.length % T + 1 }).modify
      (chain a) fun b => b.assign (es.length % T) v) (es ++ [(v, false)]) refs := by
  -- there is room, so the value goes into the newest chunk
  have hdiv : es.length / T = a := by
    have hle := (Nat.le_div_iff_mul_le hT).mpr h.lower
    have := (Nat.div_lt_iff_lt_mul hT).mpr hlt
    omega
  have hdm := Nat.div_add_mod' es.length T
  rw [hdiv] at hdm
  generalize hs' : ((s.modify (chain a) fun b => { b with nextItem := es.length % T + 1 }).modify
      (chain a) fun b => b.assign (es.length % T) v) = s'
  have hself : s'.chunk (chain a) =
      { s.chunk (chain a) with nextItem := es.length % T + 1 }.assign (es.length % T) v := by
    rw [← hs', Chunks.modify_chunk_self, Chunks.modify_chunk_self]
  have hne : ∀ c, c ≠ chain a → s'.chunk c = s.chunk c := by
    intro c hc
    rw [← hs', Chunks.modify_chunk_of_ne hc, Chunks.modify_chunk_of_ne hc]
  have hitem : ∀ k, k ≠ es.length →
      s'.item (chain (k / T)) (k % T) = s.item (chain (k / T)) (k % T) := by
    intro k hk
    show (s'.chunk (chain (k / T))).item (k % T) = (s.chunk (chain (k / T))).item (k % T)
    rcases eq_or_ne (k / T) a with e | hka
    · rw [e, hself]
      refine update_of_ne (fun e' => hk ?_) _ _
      rw [← Nat.div_add_mod' k T, e, e', hdm]
    · rw [hne _ fun e => hka (h.mono.injective e)]
  have hvalue : ∀ k, k ≠ es.length →
      (s'.chunk (chain (k / T))).value (k % T) = (s.chunk (chain (k / T))).value (k % T) := by
    intro k hk
    rcases eq_or_ne (k / T) a with e | hka
    · rw [e, hself]
      refine update_of_ne (fun e' => hk ?_) _ _
      rw [← Nat.div_add_mod' k T, e, e', hdm]
    · rw [hne _ fun e => hka (h.mono.injective e)]
  have hfield : ∀ {β : Type} (g : Chunk V → β),
      (∀ (b : Chunk V) n j, g ({ b with nextItem := n }.assign j v) = g b) →
      ∀ b, g (s'.chunk b) = g (s.chunk b) := by
    intro β g hg b
    rcases eq_or_ne b (chain a) with rfl | hb
    · rw [hself]
      exact hg _ _ _
    · rw [hne b hb]
  have hnew : s'.item (chain (es.length / T)) (es.length % T) = Item.init.assign := by
    rw [hdiv]
    show (s'.chunk (chain a)).item (es.length % T) = _
    rw [hself]
    show update (s.chunk (chain a)).item (es.length % T)
      ((s.chunk (chain a)).item (es.length % T)).assign (es.length % T) = _
    rw [update_self]
    have := h.room es.length le_rfl (by omega)
    rw [hdiv] at this
    exact congrArg Item.assign this
  have hlen : (es ++ [(v, false)]).length = es.length + 1 := by simp
  have hfresh : s'.fresh = s.fresh := by
    rw [← hs']
    rfl
  have hhead : s'.head = s.head := by
    rw [← hs']
    rfl
  exact {
    mono := h.mono
    fresh := by
      rw [hfresh]
      exact h.fresh
    head := by
      rw [hhead]
      exact h.head
    upper := by
      rw [hlen]
      exact hlt
    lower := by
      rw [hlen]
      exact h.lower.trans (Nat.le_succ _)
    full := by
      intro b hb
      rw [hne _ fun e => by have := h.mono.injective e; omega]
      exact h.full b hb
    last := by
      intro b hb
      obtain rfl : b = a := by omega
      rw [hself, hlen]
      show es.length % T + 1 = _
      omega
    value := by
      intro k hk
      rcases eq_or_ne k es.length with rfl | hk'
      · rw [hdiv, hself]
        show update (s.chunk (chain a)).value (es.length % T) (some v) (es.length % T) = _
        rw [update_self]
        simp
      · rw [hvalue k hk', List.getElem?_append_left (by omega)]
        exact h.value k (by omega)
    count := by
      intro k hk
      rw [gone_append]
      rcases eq_or_ne k es.length with rfl | hk'
      · rw [hnew, h.unused es.length le_rfl, gone_of_length_le le_rfl]
        rfl
      · rw [hitem k hk']
        exact h.count k (by omega)
    offset := by
      intro k hk
      show Skips T (es ++ [(v, false)]) k _
      unfold Skips
      rw [gone_append]
      rcases eq_or_ne k es.length with rfl | hk'
      · rw [hnew]
        exact .inl ⟨rfl, gone_of_length_le le_rfl⟩
      · rw [hitem k hk']
        exact h.offset k (by omega)
    room := by
      intro k hk hkm
      rw [hlen] at hk
      rw [hitem k (by omega)]
      exact h.room k (by omega) hkm
    unused := by
      intro k hk
      rw [hlen] at hk
      exact h.unused k (by omega)
    freed := by
      intro b hb
      rw [hfield Chunk.freedItems fun _ _ _ => rfl, gone_append]
      exact h.freed b hb
    deleted := by
      intro b hb
      rw [hfield Chunk.deleted fun _ _ _ => rfl, h.deleted b hb, Dead, Dead, gone_append]
    prev := by
      intro b hb
      rw [hfield Chunk.prev fun _ _ _ => rfl]
      refine (h.prev b hb).mono fun i hi => ?_
      rw [gone_append]
      exact hi }

/-- A round of `push` that finds room. -/
theorem pushLoop_room (h : Holds T chain m s es refs) (hT : 0 < T)
    (hroom : ∀ i, refs i < 32767) (hlt : es.length < m * T) (fuel : Nat) (v : V) :
    ∃ s', s.pushLoop T (fuel + 1) v = .ok (s', access T chain (some es.length)) ∧
      Holds T chain m s' (es ++ [(v, false)]) (update refs es.length 1) := by
  obtain ⟨a, rfl⟩ : ∃ a, m = a + 1 := by
    refine ⟨m - 1, ?_⟩
    have : m ≠ 0 := by
      rintro rfl
      omega
    omega
  have hhead : s.head = some (chain a) := h.head
  have hlow : a * T ≤ es.length := h.lower
  have hdiv : es.length / T = a := by
    have hle := (Nat.le_div_iff_mul_le hT).mpr hlow
    have := (Nat.div_lt_iff_lt_mul hT).mpr hlt
    omega
  have hdm := Nat.div_add_mod' es.length T
  have hmod := Nat.mod_lt es.length hT
  have hnext : (s.chunk (chain a)).nextItem = es.length % T := by
    rw [h.last a rfl, ← hdiv]
    omega
  have hinit := h.room es.length le_rfl (by omega)
  rw [hdiv] at hinit
  have hlive : live (es ++ [(v, false)]) es.length = true := by simp [live]
  obtain ⟨s', hs', h'⟩ := (h.assign_spec hT rfl hlt v).acquireNextItem_spec hT hroom
    (k := es.length) (by simp)
  rw [lastLive_of_live hlive] at hs' h'
  refine ⟨s', ?_, ?_⟩
  · rw [Chunks.pushLoop, hhead]
    dsimp only
    rw [hnext, if_pos (by omega), if_pos hmod, hinit, if_pos ⟨by simp [Item.init], rfl⟩]
    rw [seek, hdiv] at hs'
    exact hs'
  · rw [bump, h.unused es.length le_rfl] at h'
    exact h'

/-- `push` puts the value at the end. -/
theorem push_spec (h : Holds T chain m s es refs) (hT : 0 < T) (hroom : ∀ i, refs i < 32767)
    (v : V) :
    ∃ s' m', s.push T v = .ok (s', access T chain (some es.length)) ∧
      Holds T chain m' s' (es ++ [(v, false)]) (update refs es.length 1) ∧
      (m' - 1) * T < (es ++ [(v, false)]).length := by
  have hlen : (es ++ [(v, false)]).length = es.length + 1 := by simp
  rcases Nat.lt_or_ge es.length (m * T) with hlt | hge
  · obtain ⟨s', hs', h'⟩ := h.pushLoop_room hT hroom hlt 1 v
    exact ⟨s', m, hs', h', by have := h.lower; omega⟩
  · have hfull : es.length = m * T := le_antisymm h.upper hge
    have hroom' : es.length < (m + 1) * T := by
      rw [hfull]
      exact Nat.mul_lt_mul_of_pos_right (Nat.lt_succ_self m) hT
    have htight : (m + 1 - 1) * T < (es ++ [(v, false)]).length := by
      rw [Nat.add_sub_cancel, hlen]
      omega
    have halloc := h.allocateItem_spec hT hfull
    cases m with
    | zero =>
        have hhead : s.head = none := h.head
        have hfirst : s.tryAllocateFirstItem = s.allocateItem := by
          rw [Chunks.tryAllocateFirstItem, Chunks.allocateItem, hhead]
          rfl
        obtain ⟨s', hs', h'⟩ := halloc.pushLoop_room hT hroom hroom' 0 v
        refine ⟨s', 0 + 1, ?_, h', htight⟩
        rw [Chunks.push, Chunks.pushLoop, hhead]
        dsimp only
        rw [hfirst]
        exact hs'
    | succ a =>
        have hhead : s.head = some (chain a) := h.head
        have hnext : (s.chunk (chain a)).nextItem = T := by
          rw [h.last a rfl, hfull, Nat.succ_mul]
          omega
        have hcomm : (s.modify (chain a) fun b => { b with nextItem := T + 1 }).allocateItem =
            s.allocateItem.modify (chain a) fun b => { b with nextItem := T + 1 } := by
          have hfresh : chain (a + 1) = s.fresh := h.fresh 0
          have hne : chain a ≠ s.fresh := by
            rw [← hfresh]
            exact (h.mono (Nat.lt_succ_self a)).ne
          have hchunk : s.allocateItem.chunk (chain a) = s.chunk (chain a) := update_of_ne hne _ _
          rw [Chunks.modify, Chunks.modify, hchunk, Chunks.allocateItem, Chunks.allocateItem]
          rw [update_comm hne.symm]
        obtain ⟨s', hs', h'⟩ := (halloc.overshoot (a := a) (n := T + 1) (by omega)
          (Nat.le_succ T)).pushLoop_room hT hroom hroom' 0 v
        refine ⟨s', a + 1 + 1, ?_, h', htight⟩
        rw [Chunks.push, Chunks.pushLoop, hhead]
        dsimp only
        rw [hnext, if_pos le_rfl, if_neg (lt_irrefl T), if_pos rfl, hcomm]
        exact hs'

/-! ### Removal by value -/

section Erase

variable [BEq V]

/-- The first `k` values are removed if they are equal to `v`. -/
def eraseBelow (v : V) (es : List (V × Bool)) (k : Nat) : List (V × Bool) :=
  es.mapIdx fun i e => if i < k then (e.1, e.2 || e.1 == v) else e

theorem getElem?_eraseBelow (v : V) (k i : Nat) :
    (eraseBelow v es k)[i]? =
      es[i]?.map fun e => if i < k then (e.1, e.2 || e.1 == v) else e := by
  rw [eraseBelow, List.getElem?_mapIdx]

/-- What is not there is not changed. -/
theorem eraseBelow_of_dead {v : V} {j k : Nat} (hj : j ≤ k)
    (h : ∀ i, j ≤ i → i < k → live es i = false) : eraseBelow v es k = eraseBelow v es j := by
  apply List.ext_getElem?
  intro i
  rw [getElem?_eraseBelow, getElem?_eraseBelow]
  cases he : es[i]? with
  | none => rfl
  | some e =>
      rcases Nat.lt_or_ge i j with hlt | hge
      · rw [Option.map_some, Option.map_some, if_pos hlt, if_pos (by omega)]
      · rcases Nat.lt_or_ge i k with hik | hki
        · have hb : e.2 = true := by
            have := h i hge hik
            rw [live, he] at this
            simpa using this
          rw [Option.map_some, Option.map_some, if_pos hik, if_neg (by omega), hb, Bool.true_or, ← hb]
        · rw [Option.map_some, Option.map_some, if_neg (by omega), if_neg (by omega)]

/-- The loop goes on with the value it has looked at settled. -/
theorem eraseBelow_succ {v w : V} {k : Nat} (hk : es[k]? = some (w, false)) :
    eraseBelow v es (k + 1) = eraseBelow v (if w == v then bury es k else es) k := by
  apply List.ext_getElem?
  intro i
  rw [getElem?_eraseBelow, getElem?_eraseBelow]
  rcases eq_or_ne i k with rfl | hne
  · cases hwv : w == v with
    | true =>
        rw [if_pos rfl, getElem?_bury_self, hk]
        simp [hwv]
    | false =>
        rw [if_neg (by simp), hk]
        simp [hwv]
  · have hsame : (if w == v then bury es k else es)[i]? = es[i]? := by
      split
      · exact getElem?_bury_of_ne hne
      · rfl
    have hik : i < k + 1 ↔ i < k := by omega
    rw [hsame]
    simp only [hik]

theorem eraseLoop_spec (hT : 0 < T) (hword : T < wordSize) (hroom : ∀ i, refs i < 32767) (v : V)
    (fuel : Nat) :
    ∀ (s : Chunks V) (es : List (V × Bool)) (k : Nat),
      Holds T chain m s es (bump refs (lastLive es k)) →
      0 < fuel → (∀ i, lastLive es k = some i → chain (i / T) * T + i % T + 2 ≤ fuel) →
      ∃ s', Chunks.eraseLoop T v fuel s (access T chain (lastLive es k)) = .ok s' ∧
        Holds T chain m s' (eraseBelow v es k) refs := by
  induction fuel with
  | zero =>
      intro s es k _ hpos
      omega
  | succ fuel ih =>
      intro s es k h _ hf
      cases hk : lastLive es k with
      | none =>
          rw [hk] at h
          refine ⟨s, rfl, ?_⟩
          rw [eraseBelow_of_dead (Nat.zero_le k) fun i _ hi => lastLive_eq_none hk i hi]
          have hz : eraseBelow v es 0 = es := by
            apply List.ext_getElem?
            intro i
            rw [getElem?_eraseBelow]
            simp
          rw [hz]
          exact h
      | some i =>
          rw [hk] at h
          have hfi := hf i hk
          obtain ⟨hik, hlive, hdead⟩ := lastLive_eq_some hk
          obtain ⟨w, hw⟩ := getElem?_of_live hlive
          have hlt := lt_of_live hlive
          -- what stands behind the iterator after the test
          obtain ⟨s₁, hs₁, h₁⟩ : ∃ s₁, (if w == v then s.remove T (access T chain (some i))
              else pure s : Except Fault (Chunks V)) = .ok s₁ ∧
              Holds T chain m s₁ (if w == v then bury es i else es) (bump refs (some i)) := by
            split
            · refine h.remove_spec hT hword hlive ?_ ?_
              · rw [bump, update_self]
                exact Nat.succ_pos _
              · rw [bump, update_self]
                have := hroom i
                omega
            · exact ⟨s, rfl, h⟩
          have hlen : i < (if w == v then bury es i else es).length := by
            split
            · rw [length_bury]
              exact hlt
            · exact hlt
          obtain ⟨s₂, hadv, h₂⟩ := h₁.advance_spec hT hroom hlen
          obtain ⟨s₃, hloop, h₃⟩ := ih s₂ _ i h₂ (by omega) fun j hj => by
            have := h.weight_lt hT (lastLive_eq_some hj).1
            omega
          refine ⟨s₃, ?_, ?_⟩
          · show (s.read T (access T chain (some i)) >>= fun w =>
              (if w == v then s.remove T (access T chain (some i)) else pure s) >>= fun s =>
                s.advance T (access T chain (some i)) >>= fun r =>
                  Chunks.eraseLoop T v fuel r.1 r.2) = _
            rw [h.read_spec hT hw]
            show ((if w == v then s.remove T (access T chain (some i)) else pure s) >>= fun s =>
              s.advance T (access T chain (some i)) >>= fun r =>
                Chunks.eraseLoop T v fuel r.1 r.2) = _
            rw [hs₁]
            show (s₁.advance T (access T chain (some i)) >>= fun r =>
              Chunks.eraseLoop T v fuel r.1 r.2) = _
            rw [hadv]
            exact hloop
          · rw [eraseBelow_of_dead hik fun m hm hmk => hdead m hm hmk, eraseBelow_succ hw]
            exact h₃

/-- `erase` removes the values equal to `v`. -/
theorem erase_spec (h : Holds T chain m s es refs) (hT : 0 < T) (hword : T < wordSize)
    (htight : 0 < m → (m - 1) * T < es.length) (hroom : ∀ i, refs i < 32767) (v : V) :
    ∃ s', s.erase T v = .ok s' ∧ Holds T chain m s' (eraseBelow v es es.length) refs := by
  obtain ⟨s₁, hbegin, h₁⟩ := h.rbegin_spec hT htight hroom
  obtain ⟨hpos, hrounds⟩ := @rounds_access T chain hT (lastLive es es.length)
  obtain ⟨s₂, herase, h₂⟩ := eraseLoop_spec hT hword hroom v _ s₁ es es.length h₁ hpos hrounds
  refine ⟨s₂, ?_, h₂⟩
  rw [Chunks.erase, hbegin]
  exact herase

end Erase

end Holds

/-! ### Sessions -/

/-- What a user of the list does.  The iterators that are kept are numbered as
they are made; `visit` advances one of them to the end. -/
inductive Operation (V : Type)
  | push (v : V)
  | rbegin
  | advance (h : Nat)
  | drop (h : Nat)
  | remove (h : Nat)
  | erase (v : V)
  | scan
  | visit (h : Nat)

/-- A `ChunkedList` and the iterators that are kept. -/
structure Session (V : Type) where
  chunks : Chunks V
  its : List (Option ItemAccess)

namespace Session

def empty : Session V := ⟨Chunks.empty, []⟩

def kept (s : Session V) (h : Nat) : Except Fault ItemAccess :=
  match s.its[h]? with
  | some (some it) => .ok it
  | _ => .error .nullptr

/-- The value that an iterator is at. -/
def peek (T : Nat) (s : Chunks V) (it : ItemAccess) : Except Fault (List V) :=
  match it.slot with
  | none => .ok []
  | some _ => return [← s.read T it]

/-- An operation, and the values that are visited by it. -/
def step [BEq V] (T : Nat) (s : Session V) : Operation V → Except Fault (Session V × List V)
  | .push v => do
      let (c, it) ← s.chunks.push T v
      return (⟨c, s.its ++ [some it]⟩, [])
  | .rbegin => do
      let (c, it) ← s.chunks.rbegin T
      return (⟨c, s.its ++ [some it]⟩, ← peek T c it)
  | .advance h => do
      let (c, it) ← s.chunks.advance T (← s.kept h)
      return (⟨c, s.its.set h (some it)⟩, ← peek T c it)
  | .drop h => do
      let (c, _) ← s.chunks.release T (← s.kept h)
      return (⟨c, s.its.set h none⟩, [])
  | .remove h => do
      let c ← s.chunks.remove T (← s.kept h)
      return (⟨c, s.its⟩, [])
  | .erase v => do
      let c ← s.chunks.erase T v
      return (⟨c, s.its⟩, [])
  | .scan => do
      let (c, vs) ← s.chunks.scan T
      return (⟨c, s.its⟩, vs)
  | .visit h => do
      let (c, it) ← s.chunks.advance T (← s.kept h)
      let (c, it, vs) ← c.visit T it
      return (⟨c, s.its.set h (some it)⟩, vs)

def run [BEq V] (T : Nat) : List (Operation V) → Session V → Except Fault (Session V × List (List V))
  | [], s => .ok (s, [])
  | op :: ops, s => do
      let (s, vs) ← s.step T op
      let (s, vss) ← run T ops s
      return (s, vs :: vss)

end Session

/-- What a `ChunkedList` stands for: the values in the order of the pushes with
their tombstones, and the positions of the iterators that are kept. -/
structure Tombstones (V : Type) where
  entries : List (V × Bool)
  its : List (Option (Option Nat))
deriving DecidableEq

namespace Tombstones

def empty : Tombstones V := ⟨[], []⟩

def peek (es : List (V × Bool)) : Option Nat → List V
  | none => []
  | some k => (es[k]?.map Prod.fst).toList

/-- An operation on the list with tombstones, with fewer than `limit` iterators
kept.  Iterators are used only while they are kept and not at the end, and a
position is removed once. -/
def step [BEq V] (limit : Nat) (σ : Tombstones V) (op : Operation V) :
    Option (Tombstones V × List V) :=
  if σ.its.countP Option.isSome < limit then
    match op with
    | .push v => some (⟨σ.entries ++ [(v, false)], σ.its ++ [some (some σ.entries.length)]⟩, [])
    | .rbegin =>
        let o := lastLive σ.entries σ.entries.length
        some (⟨σ.entries, σ.its ++ [some o]⟩, peek σ.entries o)
    | .advance h =>
        match σ.its[h]? with
        | some (some (some k)) =>
            let o := lastLive σ.entries k
            some (⟨σ.entries, σ.its.set h (some o)⟩, peek σ.entries o)
        | _ => none
    | .drop h =>
        match σ.its[h]? with
        | some (some _) => some (⟨σ.entries, σ.its.set h none⟩, [])
        | _ => none
    | .remove h =>
        match σ.its[h]? with
        | some (some (some k)) =>
            if live σ.entries k then some (⟨bury σ.entries k, σ.its⟩, []) else none
        | _ => none
    | .erase v => some (⟨σ.entries.map fun e => (e.1, e.2 || e.1 == v), σ.its⟩, [])
    | .scan => some (σ, older σ.entries σ.entries.length)
    | .visit h =>
        match σ.its[h]? with
        | some (some (some k)) =>
            some (⟨σ.entries, σ.its.set h (some none)⟩, older σ.entries k)
        | _ => none
  else none

def run [BEq V] (limit : Nat) :
    List (Operation V) → Tombstones V → Option (Tombstones V × List (List V))
  | [], σ => some (σ, [])
  | op :: ops, σ => do
      let (σ, vs) ← σ.step limit op
      let (σ, vss) ← run limit ops σ
      return (σ, vs :: vss)

/-- The iterators that are kept at the `k`-th value. -/
def refs (its : List (Option (Option Nat))) (k : Nat) : Nat := its.count (some (some k))

section Refs

variable {its : List (Option (Option Nat))} {h : Nat}

theorem refs_le (its : List (Option (Option Nat))) (k : Nat) : refs its k ≤ its.countP Option.isSome := by
  refine List.countP_mono_left fun x _ hx => ?_
  rw [eq_of_beq hx]
  rfl

theorem refs_append (o : Option Nat) : refs (its ++ [some o]) = Holds.bump (refs its) o := by
  funext k
  cases o with
  | none => simp [refs, Holds.bump, List.count_append]
  | some i =>
      rcases eq_or_ne k i with rfl | hne
      · simp [refs, Holds.bump, List.count_append]
      · simp [refs, Holds.bump, List.count_append, update_of_ne hne, Ne.symm hne]

theorem refs_set (hh : h < its.length) (o : Option Nat) :
    refs (its.set h (some o)) = Holds.bump (refs (its.set h none)) o := by
  funext k
  have hbal := Machine.countP_set_add (p := fun x => x == some (some k)) (l := its.set h none)
    (i := h) (a := none) (b := some o) (by simp [hh])
  rw [List.set_set] at hbal
  have hnone : ((none : Option (Option Nat)) == some (some k)).toNat = 0 := rfl
  rw [hnone, Nat.add_zero] at hbal
  show (its.set h (some o)).countP (fun x => x == some (some k)) = _
  rw [hbal]
  cases o with
  | none => rfl
  | some i =>
      rcases eq_or_ne k i with rfl | hne
      · rw [Holds.bump, update_self]
        simp [refs, List.count]
      · rw [Holds.bump, update_of_ne hne]
        simp [refs, List.count, Ne.symm hne]

theorem le_bump (r : Nat → Nat) (o : Option Nat) (k : Nat) : r k ≤ Holds.bump r o k := by
  cases o with
  | none => exact le_rfl
  | some i =>
      rcases eq_or_ne k i with rfl | hne
      · rw [Holds.bump, update_self]
        exact Nat.le_succ _
      · rw [Holds.bump, update_of_ne hne]

end Refs

end Tombstones

/-! ### Refinement -/

/-- The session stands for `σ`. -/
structure Represents (T : Nat) (s : Session V) (σ : Tombstones V) : Prop where
  chunks : ∃ m, Holds T id m s.chunks σ.entries (Tombstones.refs σ.its) ∧
    (0 < m → (m - 1) * T < σ.entries.length)
  its : s.its = σ.its.map (Option.map (Holds.access T id))

namespace Represents

variable {T : Nat} {s : Session V} {σ σ' : Tombstones V} {vs : List V}

theorem kept_eq (h : Represents T s σ) {n : Nat} {o : Option Nat}
    (hn : σ.its[n]? = some (some o)) : s.kept n = .ok (Holds.access T id o) := by
  rw [Session.kept, h.its, List.getElem?_map, hn]
  rfl

theorem its_set (h : Represents T s σ) (n : Nat) (o : Option Nat) :
    s.its.set n (some (Holds.access T id o)) =
      (σ.its.set n (some o)).map (Option.map (Holds.access T id)) := by
  rw [h.its, List.map_set]
  rfl

theorem its_append (h : Represents T s σ) (o : Option Nat) :
    s.its ++ [some (Holds.access T id o)] =
      (σ.its ++ [some o]).map (Option.map (Holds.access T id)) := by
  rw [h.its, List.map_append]
  rfl

theorem peek_eq {m : Nat} {c : Chunks V} {es : List (V × Bool)} {r : Nat → Nat}
    (h : Holds T id m c es r) (hT : 0 < T) {o : Option Nat} {k : Nat} (ho : o = lastLive es k) :
    Session.peek T c (Holds.access T id o) = .ok (Tombstones.peek es o) := by
  cases o with
  | none => rfl
  | some i =>
      obtain ⟨v, hv⟩ := getElem?_of_live (lastLive_eq_some ho.symm).2.1
      show (Chunks.read T c (Holds.access T id (some i)) >>= fun v => pure [v]) = _
      rw [h.read_spec hT hv, Tombstones.peek, hv]
      rfl

/-- A kept iterator among the references. -/
theorem refs_eq {its : List (Option (Option Nat))} {n : Nat} {o : Option Nat}
    (hn : its[n]? = some (some o)) :
    Tombstones.refs its = Holds.bump (Tombstones.refs (its.set n none)) o := by
  obtain ⟨hlt, hget⟩ := List.getElem?_eq_some_iff.mp hn
  rw [← Tombstones.refs_set hlt o, ← hget, List.set_getElem_self]

theorem lt_of_ref {m k : Nat} {c : Chunks V} {es : List (V × Bool)} {r : Nat → Nat}
    (h : Holds T id m c es (Holds.bump r (some k))) : k < es.length := by
  by_contra hge
  have := h.unused k (by omega)
  rw [Holds.bump, update_self] at this
  omega

section Step

variable [BEq V] (h : Represents T s σ) (hT : 0 < T) (hword : T < wordSize)
  (hlimit : σ.its.countP Option.isSome < 32767)

omit [BEq V] in
include hlimit in
theorem room (k : Nat) : Tombstones.refs σ.its k < 32767 :=
  lt_of_le_of_lt (Tombstones.refs_le σ.its k) hlimit

omit [BEq V] in
include h hlimit in
/-- The references without those of one iterator that is kept. -/
theorem others {n : Nat} {o : Option Nat} (hn : σ.its[n]? = some (some o)) :
    ∃ m, Holds T id m s.chunks σ.entries (Holds.bump (Tombstones.refs (σ.its.set n none)) o) ∧
      (0 < m → (m - 1) * T < σ.entries.length) ∧
      ∀ i, Tombstones.refs (σ.its.set n none) i < 32767 := by
  obtain ⟨m, hc, htight⟩ := h.chunks
  have hrefs := refs_eq hn
  rw [hrefs] at hc
  refine ⟨m, hc, htight, fun i => ?_⟩
  have hle := Tombstones.le_bump (Tombstones.refs (σ.its.set n none)) o i
  rw [← hrefs] at hle
  exact lt_of_le_of_lt hle (room hlimit i)

include h hT hlimit

theorem push (v : V) :
    ∃ s', s.step T (.push v) = .ok (s', []) ∧ Represents T s'
      ⟨σ.entries ++ [(v, false)], σ.its ++ [some (some σ.entries.length)]⟩ := by
  obtain ⟨m, hc, -⟩ := h.chunks
  obtain ⟨c, m', hpush, hc', htight'⟩ := hc.push_spec hT (room hlimit) v
  refine ⟨⟨c, s.its ++ [some (Holds.access T id (some σ.entries.length))]⟩, ?_,
    ⟨m', ?_, fun _ => htight'⟩, h.its_append _⟩
  · rw [Session.step, hpush]
    rfl
  · rw [Tombstones.refs_append, Holds.bump, hc.unused _ le_rfl]
    exact hc'

theorem rbegin :
    ∃ s', s.step T .rbegin =
        .ok (s', Tombstones.peek σ.entries (lastLive σ.entries σ.entries.length)) ∧
      Represents T s' ⟨σ.entries, σ.its ++ [some (lastLive σ.entries σ.entries.length)]⟩ := by
  obtain ⟨m, hc, htight⟩ := h.chunks
  obtain ⟨c, hbegin, hc'⟩ := hc.rbegin_spec hT htight (room hlimit)
  refine ⟨⟨c, s.its ++ [some (Holds.access T id (lastLive σ.entries σ.entries.length))]⟩, ?_,
    ⟨m, ?_, htight⟩, h.its_append _⟩
  · rw [Session.step, hbegin]
    show (Session.peek T c (Holds.access T id _) >>= _) = _
    rw [peek_eq hc' hT rfl]
    rfl
  · rw [Tombstones.refs_append]
    exact hc'

theorem advance {n k : Nat} (hn : σ.its[n]? = some (some (some k))) :
    ∃ s', s.step T (.advance n) = .ok (s', Tombstones.peek σ.entries (lastLive σ.entries k)) ∧
      Represents T s' ⟨σ.entries, σ.its.set n (some (lastLive σ.entries k))⟩ := by
  obtain ⟨m, hc, htight, hroom⟩ := h.others hlimit hn
  obtain ⟨c, hadv, hc'⟩ := hc.advance_spec hT hroom (lt_of_ref hc)
  refine ⟨⟨c, s.its.set n (some (Holds.access T id (lastLive σ.entries k)))⟩, ?_,
    ⟨m, ?_, htight⟩, h.its_set _ _⟩
  · rw [Session.step, h.kept_eq hn]
    show (s.chunks.advance T (Holds.access T id (some k)) >>= _) = _
    rw [hadv]
    show (Session.peek T c (Holds.access T id _) >>= _) = _
    rw [peek_eq hc' hT rfl]
    rfl
  · rw [Tombstones.refs_set (List.getElem?_eq_some_iff.mp hn).1]
    exact hc'

theorem drop {n : Nat} {o : Option Nat} (hn : σ.its[n]? = some (some o)) :
    ∃ s', s.step T (.drop n) = .ok (s', []) ∧
      Represents T s' ⟨σ.entries, σ.its.set n none⟩ := by
  obtain ⟨m, hc, htight, hroom⟩ := h.others hlimit hn
  obtain ⟨c, it, hrel, hc'⟩ : ∃ c it, s.chunks.release T (Holds.access T id o) = .ok (c, it) ∧
      Holds T id m c σ.entries (Tombstones.refs (σ.its.set n none)) := by
    cases o with
    | none => exact ⟨s.chunks, ItemAccess.rend, rfl, hc⟩
    | some k =>
        obtain ⟨c, hrel, hc'⟩ := hc.release_spec hT (hroom k) (lt_of_ref hc)
        exact ⟨c, _, hrel, hc'⟩
  refine ⟨⟨c, s.its.set n none⟩, ?_, ⟨m, hc', htight⟩, ?_⟩
  · rw [Session.step, h.kept_eq hn]
    show (s.chunks.release T (Holds.access T id o) >>= _) = _
    rw [hrel]
    rfl
  · show s.its.set n none = (σ.its.set n none).map _
    rw [h.its, List.map_set]
    rfl

include hword in
theorem remove {n k : Nat} (hn : σ.its[n]? = some (some (some k)))
    (hk : live σ.entries k = true) :
    ∃ s', s.step T (.remove n) = .ok (s', []) ∧
      Represents T s' ⟨bury σ.entries k, σ.its⟩ := by
  obtain ⟨m, hc, htight⟩ := h.chunks
  have hpos : 0 < Tombstones.refs σ.its k :=
    List.count_pos_iff.mpr (List.mem_of_getElem? hn)
  obtain ⟨c, hrem, hc'⟩ := hc.remove_spec hT hword hk hpos ((room hlimit k).trans (by omega))
  refine ⟨⟨c, s.its⟩, ?_, ⟨m, hc', ?_⟩, h.its⟩
  · rw [Session.step, h.kept_eq hn]
    show (s.chunks.remove T (Holds.access T id (some k)) >>= _) = _
    rw [hrem]
    rfl
  · show 0 < m → (m - 1) * T < (bury σ.entries k).length
    rw [length_bury]
    exact htight

include hword in
theorem erase (v : V) :
    ∃ s', s.step T (.erase v) = .ok (s', []) ∧
      Represents T s' ⟨σ.entries.map fun e => (e.1, e.2 || e.1 == v), σ.its⟩ := by
  obtain ⟨m, hc, htight⟩ := h.chunks
  obtain ⟨c, herase, hc'⟩ := hc.erase_spec hT hword htight (room hlimit) v
  have hall : Holds.eraseBelow v σ.entries σ.entries.length =
      σ.entries.map fun e => (e.1, e.2 || e.1 == v) := by
    apply List.ext_getElem?
    intro i
    rw [Holds.getElem?_eraseBelow, List.getElem?_map]
    rcases Nat.lt_or_ge i σ.entries.length with hlt | hge
    · simp only [hlt, if_true]
    · rw [List.getElem?_eq_none hge]
      rfl
  rw [hall] at hc'
  refine ⟨⟨c, s.its⟩, ?_, ⟨m, hc', ?_⟩, h.its⟩
  · rw [Session.step, herase]
    rfl
  · show 0 < m → (m - 1) * T < (σ.entries.map _).length
    rw [List.length_map]
    exact htight

theorem scan :
    ∃ s', s.step T .scan = .ok (s', older σ.entries σ.entries.length) ∧ Represents T s' σ := by
  obtain ⟨m, hc, htight⟩ := h.chunks
  obtain ⟨c, hscan, hc'⟩ := hc.scan_spec hT htight (room hlimit)
  refine ⟨⟨c, s.its⟩, ?_, ⟨m, hc', htight⟩, h.its⟩
  rw [Session.step, hscan]
  rfl

theorem visit {n k : Nat} (hn : σ.its[n]? = some (some (some k))) :
    ∃ s', s.step T (.visit n) = .ok (s', older σ.entries k) ∧
      Represents T s' ⟨σ.entries, σ.its.set n (some none)⟩ := by
  obtain ⟨m, hc, htight, hroom⟩ := h.others hlimit hn
  obtain ⟨c₁, hadv, hc₁⟩ := hc.advance_spec hT hroom (lt_of_ref hc)
  obtain ⟨c, hvisit, hc'⟩ := hc₁.visit_spec hT hroom
  refine ⟨⟨c, s.its.set n (some (Holds.access T id none))⟩, ?_, ⟨m, ?_, htight⟩, h.its_set _ _⟩
  · rw [Session.step, h.kept_eq hn]
    show (s.chunks.advance T (Holds.access T id (some k)) >>= _) = _
    rw [hadv]
    show (c₁.visit T (Holds.access T id _) >>= _) = _
    rw [hvisit]
    rfl
  · rw [Tombstones.refs_set (List.getElem?_eq_some_iff.mp hn).1]
    exact hc'

omit hlimit in
include hword in
/-- Every operation does in the session what it does on the list with
tombstones. -/
theorem step {op : Operation V} (hs : σ.step 32767 op = some (σ', vs)) :
    ∃ s', s.step T op = .ok (s', vs) ∧ Represents T s' σ' := by
  unfold Tombstones.step at hs
  split_ifs at hs with hlimit
  cases op with
  | push v =>
      obtain ⟨rfl, rfl⟩ := Prod.mk.inj (Option.some.inj hs)
      exact h.push hT hlimit v
  | rbegin =>
      obtain ⟨rfl, rfl⟩ := Prod.mk.inj (Option.some.inj hs)
      exact h.rbegin hT hlimit
  | advance n =>
      dsimp only at hs
      split at hs
      · rename_i k hn
        obtain ⟨rfl, rfl⟩ := Prod.mk.inj (Option.some.inj hs)
        exact h.advance hT hlimit hn
      · cases hs
  | drop n =>
      dsimp only at hs
      split at hs
      · rename_i o hn
        obtain ⟨rfl, rfl⟩ := Prod.mk.inj (Option.some.inj hs)
        exact h.drop hT hlimit hn
      · cases hs
  | remove n =>
      dsimp only at hs
      split at hs
      · rename_i k hn
        split_ifs at hs with hk
        obtain ⟨rfl, rfl⟩ := Prod.mk.inj (Option.some.inj hs)
        exact h.remove hT hword hlimit hn hk
      · cases hs
  | erase v =>
      obtain ⟨rfl, rfl⟩ := Prod.mk.inj (Option.some.inj hs)
      exact h.erase hT hword hlimit v
  | scan =>
      obtain ⟨rfl, rfl⟩ := Prod.mk.inj (Option.some.inj hs)
      exact h.scan hT hlimit
  | visit n =>
      dsimp only at hs
      split at hs
      · rename_i k hn
        obtain ⟨rfl, rfl⟩ := Prod.mk.inj (Option.some.inj hs)
        exact h.visit hT hlimit hn
      · cases hs

end Step

/-- Every sequence of operations does in the session what it does on the list
with tombstones. -/
theorem run [BEq V] (hT : 0 < T) (hword : T < wordSize) {ops : List (Operation V)}
    {vss : List (List V)} (h : Represents T s σ) (hr : σ.run 32767 ops = some (σ', vss)) :
    ∃ s', s.run T ops = .ok (s', vss) ∧ Represents T s' σ' := by
  induction ops generalizing s σ vss with
  | nil =>
      obtain ⟨rfl, rfl⟩ := Prod.mk.inj (Option.some.inj hr)
      exact ⟨s, rfl, h⟩
  | cons op ops ih =>
      obtain ⟨⟨σ₁, vs⟩, hs, hrest⟩ := Option.bind_eq_some_iff.mp hr
      obtain ⟨⟨σ₂, vss'⟩, hr', hret⟩ := Option.bind_eq_some_iff.mp hrest
      obtain ⟨rfl, rfl⟩ := Prod.mk.inj (Option.some.inj hret)
      obtain ⟨s₁, hstep, h₁⟩ := h.step hT hword hs
      obtain ⟨s₂, hrun, h₂⟩ := ih h₁ hr'
      refine ⟨s₂, ?_, h₂⟩
      rw [Session.run, hstep]
      show (s₁.run T ops >>= _) = _
      rw [hrun]
      rfl

theorem initial : Represents T (Session.empty : Session V) Tombstones.empty where
  chunks := by
    -- there are neither chunks nor elements
    refine ⟨0, ?_, fun h => absurd h (lt_irrefl 0)⟩
    exact {
      mono := strictMono_id
      fresh := fun _ => rfl
      head := rfl
      upper := Nat.zero_le _
      lower := by simp
      full := fun _ h => absurd h (Nat.not_lt_zero _)
      last := fun _ h => absurd h (Nat.succ_ne_zero _)
      value := fun _ h => absurd h (Nat.not_lt_zero _)
      count := fun _ h => absurd h (Nat.not_lt_zero _)
      offset := fun _ h => absurd h (Nat.not_lt_zero _)
      room := fun _ _ h => absurd h (Nat.not_lt_zero _)
      unused := fun _ _ => rfl
      freed := fun _ h => absurd h (Nat.not_lt_zero _)
      deleted := fun _ h => absurd h (Nat.not_lt_zero _)
      prev := fun _ h => absurd h (Nat.not_lt_zero _) }
  its := rfl

end Represents

/-- **A `ChunkedList` refines a list with tombstones**, with fewer than
`2^15 - 1` iterators kept: no operation throws or fails to return, and scans and
iterators visit the values of the list with tombstones. -/
theorem session_refines [BEq V] {T : Nat} (hT : 1 ≤ T) (hword : T < 2 ^ 16)
    {ops : List (Operation V)} {σ : Tombstones V} {vss : List (List V)}
    (h : Tombstones.run (2 ^ 15 - 1) ops Tombstones.empty = some (σ, vss)) :
    ∃ s, Session.run T ops Session.empty = .ok (s, vss) := by
  obtain ⟨s, hs, -⟩ := Represents.initial.run hT hword h
  exact ⟨s, hs⟩

/-- A kept iterator goes on after its value and an older one were removed. -/
theorem session_refines_removed_under_iterator :
    ∃ s : Session Nat, Session.run 2
        [.push 1, .push 2, .push 3, .push 4, .push 2, .remove 2, .erase 2, .scan, .visit 2,
          .rbegin, .advance 5] Session.empty =
      .ok (s, [[], [], [], [], [], [], [], [4, 1], [1], [4], [1]]) :=
  session_refines (σ := ⟨[(1, false), (2, true), (3, true), (4, false), (2, true)],
      [some (some 0), some (some 1), some none, some (some 3), some (some 4), some (some 0)]⟩)
    (by decide) (by decide) (by decide)

/-! ### One iterator too many -/

theorem Session.run_concat [BEq V] {T : Nat} {ops : List (Operation V)} {op : Operation V}
    {s s' : Session V} {vss : List (List V)} {e : Fault} (h : s.run T ops = .ok (s', vss))
    (hs : s'.step T op = .error e) : s.run T (ops ++ [op]) = .error e := by
  induction ops generalizing s vss with
  | nil =>
      obtain ⟨rfl, rfl⟩ := Prod.mk.inj (Except.ok.inj h)
      rw [List.nil_append, Session.run, hs]
      rfl
  | cons op' ops ih =>
      rw [Session.run] at h
      rw [List.cons_append, Session.run]
      cases h₁ : s.step T op' with
      | error e' =>
          rw [h₁] at h
          cases h
      | ok r =>
          rw [h₁] at h
          cases h₂ : r.1.run T ops with
          | error e' =>
              have h' : (r.1.run T ops >>= fun r' => pure (r'.1, r.2 :: r'.2)) = .ok (s', vss) := h
              rw [h₂] at h'
              cases h'
          | ok r' =>
              have h' : (r.1.run T ops >>= fun r' => pure (r'.1, r.2 :: r'.2)) = .ok (s', vss) := h
              rw [h₂] at h'
              obtain ⟨rfl, -⟩ := Prod.mk.inj (Except.ok.inj h')
              show (r.1.run T (ops ++ [op]) >>= _) = _
              rw [ih h₂]
              rfl

theorem Tombstones.run_append [BEq V] {limit : Nat} {ops ops' : List (Operation V)}
    {σ σ₁ σ₂ : Tombstones V} {vss vss' : List (List V)} (h : σ.run limit ops = some (σ₁, vss))
    (h' : σ₁.run limit ops' = some (σ₂, vss')) :
    σ.run limit (ops ++ ops') = some (σ₂, vss ++ vss') := by
  induction ops generalizing σ vss with
  | nil =>
      obtain ⟨rfl, rfl⟩ := Prod.mk.inj (Option.some.inj h)
      exact h'
  | cons op ops ih =>
      obtain ⟨⟨σ₀, vs⟩, hs, hrest⟩ := Option.bind_eq_some_iff.mp h
      obtain ⟨⟨σ₁', vss₁⟩, hr, hret⟩ := Option.bind_eq_some_iff.mp hrest
      obtain ⟨rfl, rfl⟩ := Prod.mk.inj (Option.some.inj hret)
      rw [List.cons_append, Tombstones.run, hs]
      show (σ₀.run limit (ops ++ ops') >>= _) = _
      rw [ih hr]
      rfl

/-- Iterators are kept at the only value of the list. -/
theorem keep_iterators {limit j : Nat} (n : Nat) (h : j + n ≤ limit) :
    Tombstones.run limit (List.replicate n .rbegin)
        ⟨[((), false)], List.replicate j (some (some 0))⟩ =
      some (⟨[((), false)], List.replicate (j + n) (some (some 0))⟩, List.replicate n [()]) := by
  induction n generalizing j with
  | zero => rfl
  | succ n ih =>
      have hstep : Tombstones.step limit
          ⟨[((), false)], List.replicate j (some (some 0))⟩ .rbegin =
            some (⟨[((), false)], List.replicate (j + 1) (some (some 0))⟩, [()]) := by
        have hcount : (List.replicate j (some (some 0))).countP Option.isSome < limit := by
          rw [List.countP_replicate]
          simp
          omega
        unfold Tombstones.step
        rw [if_pos hcount, List.replicate_succ']
        rfl
      rw [List.replicate_succ, Tombstones.run, hstep]
      show (Tombstones.run limit (List.replicate n .rbegin) _ >>= _) = _
      rw [ih (by omega), Nat.add_right_comm j 1 n, Nat.add_assoc j n 1]
      rfl

/-- The only value of the list is held by as many iterators as a `refcount_t` can
count: the scan takes the count over its range, and gives back its reference from a
negative one. -/
theorem scan_thrown {s : Session Unit}
    (h : Represents 1 s ⟨[((), false)], List.replicate 32767 (some (some 0))⟩) :
    s.step 1 .scan = .error .thrown := by
  obtain ⟨m, hc, htight⟩ := h.chunks
  obtain rfl : m = 1 := by
    have hup := hc.upper
    simp at hup htight
    omega
  have hhead : s.chunks.head = some 0 := hc.head
  have hlast : s.chunks.lastOf 1 s.chunks.head = ⟨some 0, some 0, false⟩ := by
    have hnext : (s.chunks.chunk 0).nextItem = 1 := hc.last 0 rfl
    rw [hhead]
    show (⟨some 0, (s.chunks.chunk 0).getLastItem 1, false⟩ : ItemAccess) = _
    rw [Chunk.getLastItem, hnext]
    rfl
  have hvalue : (s.chunks.chunk 0).value 0 = some () := hc.value 0 Nat.one_pos
  have hcount : (s.chunks.item 0 0).refcount = 32767 := by
    have hc0 := hc.count 0 Nat.one_pos
    have hrefs : Tombstones.refs (List.replicate 32767 (some (some 0))) 0 = 32767 := by
      rw [Tombstones.refs, List.count_replicate_self]
    rw [hrefs] at hc0
    exact hc0
  have hoff : (s.chunks.item 0 0).iterOffset = 0 := by
    rcases hc.offset 0 Nat.one_pos with ⟨hz, -⟩ | ⟨hpos, -, hgone⟩
    · exact hz
    · exact absurd (hgone 0 hpos) (by decide)
  generalize hx : s.chunks.item 0 0 = x at hcount hoff
  have hbegin : s.chunks.rbegin 1 =
      .ok (s.chunks.setItem 0 0 x.fetchAdd, ⟨some 0, some 0, true⟩) := by
    rw [Chunks.rbegin, hlast]
    show Chunks.acquireLoop 1 2 s.chunks ⟨some 0, some 0, false⟩ = _
    have hindex : ItemAccess.index 1 ⟨some 0, some 0, false⟩ = some (0, 0) := rfl
    rw [Chunks.acquireLoop, hindex]
    dsimp only
    rw [hx, Holds.acquire_live hoff (by omega)]
  -- the count wraps around to a negative one, at which `release` throws
  have hthrow : x.fetchAdd.releaseThrows = true := by
    have hwrap : x.fetchAdd.refcount = -32768 := by
      show (x.refcount + 1).bmod wordSize = _
      rw [hcount]
      decide
    rw [Item.releaseThrows, hwrap]
    rfl
  have hadv : (s.chunks.setItem 0 0 x.fetchAdd).advance 1 ⟨some 0, some 0, true⟩ =
      .error .thrown := by
    have hrel : (s.chunks.setItem 0 0 x.fetchAdd).release 1 ⟨some 0, some 0, true⟩ =
        .error .thrown := by
      show (if ((s.chunks.setItem 0 0 x.fetchAdd).item 0 0).releaseThrows then _ else _) = _
      rw [Chunks.item_setItem_self, hthrow]
      rfl
    rw [Chunks.advance, hrel]
    rfl
  have hread : (s.chunks.setItem 0 0 x.fetchAdd).read 1 ⟨some 0, some 0, true⟩ = .ok () := by
    have hindex : ItemAccess.index 1 ⟨some 0, some 0, true⟩ = some (0, 0) := rfl
    rw [Chunks.read, hindex]
    dsimp only
    rw [Holds.setItem_same Chunk.value fun _ _ _ => rfl, hvalue]
  have hvisit : (s.chunks.setItem 0 0 x.fetchAdd).visit 1 ⟨some 0, some 0, true⟩ =
      .error .thrown := by
    show Chunks.visitLoop 1 2 _ _ = _
    rw [Chunks.visitLoop]
    dsimp only
    rw [hread, hadv]
    rfl
  rw [Session.step, Chunks.scan, hbegin]
  show ((s.chunks.setItem 0 0 x.fetchAdd).visit 1 ⟨some 0, some 0, true⟩ >>= _) >>= _ = _
  rw [hvisit]
  rfl

/-- With `2^15 - 1` iterators kept at one value a scan throws. -/
theorem scan_throws :
    ∃ (ops : List (Operation Unit)) (σ : Tombstones Unit) (vss : List (List Unit)),
      Tombstones.run (2 ^ 15) ops Tombstones.empty = some (σ, vss) ∧
        Session.run 1 ops Session.empty = .error .thrown := by
  have hspec : ∀ limit, 32767 ≤ limit →
      Tombstones.run limit (.push () :: List.replicate 32766 .rbegin) Tombstones.empty =
        some (⟨[((), false)], List.replicate 32767 (some (some 0))⟩,
          [] :: List.replicate 32766 [()]) := by
    intro limit hle
    have hpush : Tombstones.run limit [.push ()] Tombstones.empty =
        some (⟨[((), false)], List.replicate 1 (some (some 0))⟩, [[]]) := by
      have hpos : (Tombstones.empty : Tombstones Unit).its.countP Option.isSome < limit := by
        show 0 < limit
        omega
      rw [Tombstones.run]
      unfold Tombstones.step
      rw [if_pos hpos]
      rfl
    exact Tombstones.run_append hpush (keep_iterators 32766 (by omega))
  obtain ⟨s, hs, hrep⟩ :=
    Represents.initial.run (T := 1) Nat.one_pos (by decide) (hspec 32767 le_rfl)
  refine ⟨(.push () :: List.replicate 32766 .rbegin) ++ [.scan],
    ⟨[((), false)], List.replicate 32767 (some (some 0))⟩, _ ++ [[()]],
    Tombstones.run_append (hspec (2 ^ 15) (by norm_num)) ?_, Session.run_concat hs (scan_thrown hrep)⟩
  have hroom : (List.replicate 32767 (some (some 0))).countP Option.isSome < 2 ^ 15 := by
    rw [List.countP_replicate]
    norm_num
  rw [Tombstones.run]
  unfold Tombstones.step
  rw [if_pos hroom]
  rfl

end RedGrapes.ChunkedList
