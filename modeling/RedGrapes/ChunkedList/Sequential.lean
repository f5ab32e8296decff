/-
RedGrapes/ChunkedList/Sequential.lean

What the operations of a `ChunkedList` do when they run one at a time.

The list stands for the values pushed so far, in order, each with a tombstone if
it was removed.  `Holds` says how the chunks represent it: the `k`-th value is
in slot `k % T` of the chunk `chain (k / T)`, and a removed slot carries a
distance over which there are only removed slots.  Every operation has one
lemma, `_spec`, that says that it returns and what the chunks represent then.

The distances are written once and never updated.  They stay right because
nothing but a tombstone is ever put into the range they cover.
-/
import RedGrapes.ChunkedList.Model

namespace RedGrapes.ChunkedList

open Function

variable {V : Type}

/-! ### Lists with tombstones -/

/-- The `k`-th value was removed. -/
def gone (es : List (V × Bool)) (k : Nat) : Bool := es[k]?.any Prod.snd

/-- The `k`-th value is there. -/
def live (es : List (V × Bool)) (k : Nat) : Bool := es[k]?.any fun e => !e.2

/-- The last value in front of `k` that is there. -/
def lastLive (es : List (V × Bool)) : Nat → Option Nat
  | 0 => none
  | k + 1 => if live es k then some k else lastLive es k

/-- The values in front of `k` that are there, the last one first. -/
def older (es : List (V × Bool)) (k : Nat) : List V :=
  (((es.take k).filter fun e => !e.2).map Prod.fst).reverse

section Tombstones

variable {es : List (V × Bool)} {k : Nat}

theorem live_eq_not_gone (h : k < es.length) : live es k = !gone es k := by
  simp [live, gone, List.getElem?_eq_getElem h]

theorem not_live_of_gone (h : gone es k = true) : live es k = false := by
  rcases Nat.lt_or_ge k es.length with hk | hk
  · rw [live_eq_not_gone hk, h]
    rfl
  · simp [live, List.getElem?_eq_none hk]

theorem lt_of_gone (h : gone es k = true) : k < es.length := by
  by_contra hk
  rw [gone, List.getElem?_eq_none (by omega)] at h
  cases h

theorem lt_of_live (h : live es k = true) : k < es.length := by
  by_contra hk
  rw [live, List.getElem?_eq_none (by omega)] at h
  cases h

theorem getElem?_of_live (h : live es k = true) : ∃ v, es[k]? = some (v, false) := by
  have hlt := lt_of_live h
  refine ⟨es[k].1, ?_⟩
  have hb : es[k].2 = false := by simpa [live, List.getElem?_eq_getElem hlt] using h
  rw [List.getElem?_eq_getElem hlt, ← hb]

theorem lastLive_eq_of_dead {j : Nat} (hj : j ≤ k) (h : ∀ i, j ≤ i → i < k → live es i = false) :
    lastLive es k = lastLive es j := by
  induction k with
  | zero =>
      obtain rfl : j = 0 := by omega
      rfl
  | succ k ih =>
      rcases Nat.eq_or_lt_of_le hj with rfl | hlt
      · rfl
      · show (if live es k then some k else lastLive es k) = _
        rw [h k (by omega) (by omega), if_neg (by simp)]
        exact ih (by omega) fun i hi hi' => h i hi (by omega)

theorem lastLive_of_live (h : live es k = true) : lastLive es (k + 1) = some k := if_pos h

theorem lastLive_eq_some {i : Nat} (h : lastLive es k = some i) :
    i < k ∧ live es i = true ∧ ∀ m, i < m → m < k → live es m = false := by
  induction k with
  | zero => cases h
  | succ k ih =>
      rw [lastLive] at h
      split at h
      · rename_i hk
        obtain rfl := Option.some.inj h
        exact ⟨by omega, hk, fun m hm hm' => by omega⟩
      · rename_i hk
        obtain ⟨hlt, hi, hm⟩ := ih h
        refine ⟨by omega, hi, fun m him hmk => ?_⟩
        rcases Nat.lt_or_ge m k with hlt' | hge
        · exact hm m him hlt'
        · obtain rfl : m = k := by omega
          simpa using hk

theorem older_succ_of_live {v : V} (h : es[k]? = some (v, false)) :
    older es (k + 1) = v :: older es k := by
  simp [older, List.take_add_one, h]

theorem older_succ_of_not_live (h : live es k = false) : older es (k + 1) = older es k := by
  rw [older, List.take_add_one]
  cases he : es[k]? with
  | none => simp [older]
  | some e =>
      rw [live, he] at h
      have hb : e.2 = true := by simpa using h
      simp [older, hb]

theorem older_eq_of_dead {j : Nat} (hj : j ≤ k) (h : ∀ i, j ≤ i → i < k → live es i = false) :
    older es k = older es j := by
  induction k with
  | zero =>
      obtain rfl : j = 0 := by omega
      rfl
  | succ k ih =>
      rcases Nat.eq_or_lt_of_le hj with rfl | hlt
      · rfl
      · rw [older_succ_of_not_live (h k (by omega) (by omega))]
        exact ih (by omega) fun i hi hi' => h i hi (by omega)

theorem lastLive_eq_none (h : lastLive es k = none) : ∀ i < k, live es i = false := by
  induction k with
  | zero =>
      intro i hi
      omega
  | succ k ih =>
      rw [lastLive] at h
      split at h
      · cases h
      · rename_i hk
        intro i hi
        rcases Nat.eq_or_lt_of_le (Nat.le_of_lt_succ hi) with rfl | hlt
        · simpa using hk
        · exact ih h i hlt

theorem older_of_lastLive_none (h : lastLive es k = none) : older es k = [] := by
  rw [older_eq_of_dead (Nat.zero_le k) fun i _ hi => lastLive_eq_none h i hi]
  rfl

/-- The values in front of `k` begin with the last one that is there. -/
theorem older_of_lastLive {i : Nat} {v : V} (h : lastLive es k = some i)
    (hv : es[i]? = some (v, false)) : older es k = v :: older es i := by
  obtain ⟨hlt, -, hdead⟩ := lastLive_eq_some h
  rw [older_eq_of_dead hlt fun m hm hmk => hdead m hm hmk]
  exact older_succ_of_live hv

end Tombstones

/-! ### Chunks that change at one place -/

namespace Chunks

variable {s : Chunks V} {c c' j j' : Nat} {f : Chunk V → Chunk V} {x : Item}

/-- What `f` does not touch is the same in every chunk. -/
theorem modify_same {β : Type} (g : Chunk V → β) (hg : g (f (s.chunk c)) = g (s.chunk c))
    (c' : Nat) : g ((s.modify c f).chunk c') = g (s.chunk c') := by
  show g (update s.chunk c (f (s.chunk c)) c') = g (s.chunk c')
  rcases eq_or_ne c' c with rfl | hne
  · rw [update_self]
    exact hg
  · rw [update_of_ne hne]

theorem same_of_modify {s' : Chunks V} (h : s' = s.modify c f) {β : Type} (g : Chunk V → β)
    (hg : ∀ b, g (f b) = g b) (c' : Nat) : g (s'.chunk c') = g (s.chunk c') := by
  rw [h]
  exact modify_same g (hg _) c'

theorem modify_chunk_self : (s.modify c f).chunk c = f (s.chunk c) := update_self _ _ _

theorem modify_chunk_of_ne (h : c' ≠ c) : (s.modify c f).chunk c' = s.chunk c' :=
  update_of_ne h _ _

theorem item_setItem_self : (s.setItem c j x).item c j = x := by
  show ((s.modify c fun b => b.setItem j x).chunk c).item j = x
  rw [modify_chunk_self]
  exact update_self _ _ _

theorem item_setItem_of_ne (h : (c', j') ≠ (c, j)) :
    (s.setItem c j x).item c' j' = s.item c' j' := by
  show ((s.modify c fun b => b.setItem j x).chunk c').item j' = (s.chunk c').item j'
  rcases eq_or_ne c' c with rfl | hne
  · rw [modify_chunk_self]
    refine update_of_ne ?_ _ _
    rintro rfl
    exact h rfl
  · rw [modify_chunk_of_ne hne]

end Chunks

/-! ### What the chunks represent -/

/-- All slots of the `a`-th chunk are removed. -/
def Dead (T : Nat) (es : List (V × Bool)) (a : Nat) : Prop :=
  ∀ j < T, gone es (a * T + j) = true

/-- What a distance says: zero is a value that is there, and anything else
leads back over removed slots only. -/
def Skips (T : Nat) (es : List (V × Bool)) (k off : Nat) : Prop :=
  (off = 0 ∧ gone es k = false) ∨
    (0 < off ∧ off ≤ k % T + 1 ∧ ∀ i < off, gone es (k - i) = true)

/-- A pointer from the `a`-th chunk to an older one leads over dead chunks
only. -/
def Behind (T : Nat) (chain : Nat → Nat) (es : List (V × Bool)) (a : Nat) : Option Nat → Prop
  | none => ∀ b < a, Dead T es b
  | some p => ∃ b < a, p = chain b ∧ ∀ c, b < c → c < a → Dead T es c

/-- The chunks `s` represent `es`: the `a`-th of the `m` chunks is `chain a`, and
`refs k` iterators hold the `k`-th value.  The newest chunk may be empty. -/
structure Holds (T : Nat) (chain : Nat → Nat) (m : Nat) (s : Chunks V) (es : List (V × Bool))
    (refs : Nat → Nat) : Prop where
  mono : StrictMono chain
  fresh : ∀ a, chain (m + a) = s.fresh + a
  head : s.head = if m = 0 then none else some (chain (m - 1))
  upper : es.length ≤ m * T
  lower : (m - 1) * T ≤ es.length
  full : ∀ a, a + 1 < m → T ≤ (s.chunk (chain a)).nextItem
  last : ∀ a, a + 1 = m → (s.chunk (chain a)).nextItem = es.length - a * T
  value : ∀ k, k < es.length → (s.chunk (chain (k / T))).value (k % T) = es[k]?.map Prod.fst
  count : ∀ k, k < es.length →
    (s.item (chain (k / T)) (k % T)).refcount = refs k - (gone es k).toNat
  offset : ∀ k, k < es.length → Skips T es k (s.item (chain (k / T)) (k % T)).iterOffset
  room : ∀ k, es.length ≤ k → k / T < m → s.item (chain (k / T)) (k % T) = Item.init
  unused : ∀ k, es.length ≤ k → refs k = 0
  freed : ∀ a < m, (s.chunk (chain a)).freedItems =
    (List.range T).countP fun j => gone es (a * T + j)
  deleted : ∀ a < m, ((s.chunk (chain a)).deleted = true ↔ Dead T es a)
  prev : ∀ a < m, Behind T chain es a (s.chunk (chain a)).prev

namespace Holds

variable {T m : Nat} {chain : Nat → Nat} {s s' : Chunks V} {es : List (V × Bool)} {refs : Nat → Nat}

/-- Slots that belong to different values are different. -/
theorem place_ne (h : Holds T chain m s es refs) {k i : Nat} (hne : k ≠ i) :
    (chain (k / T), k % T) ≠ (chain (i / T), i % T) := by
  intro e
  obtain ⟨hc, hj⟩ := Prod.mk.inj e
  have hd : k / T = i / T := h.mono.injective hc
  apply hne
  rw [← Nat.div_add_mod k T, ← Nat.div_add_mod i T, hd, hj]

theorem div_lt (h : Holds T chain m s es refs) (hT : 0 < T) {k : Nat} (hk : k < es.length) :
    k / T < m :=
  (Nat.div_lt_iff_lt_mul hT).mpr (lt_of_lt_of_le hk h.upper)

/-- The number of slots up to the `k`-th one, gaps in the numbering of the chunks
included. -/
theorem weight_lt (h : Holds T chain m s es refs) (hT : 0 < T) {i k : Nat} (hik : i < k) :
    chain (i / T) * T + i % T < chain (k / T) * T + k % T := by
  rcases Nat.eq_or_lt_of_le (Nat.div_le_div_right (c := T) hik.le) with e | hlt
  · have hi := Nat.div_add_mod' i T
    have hk := Nat.div_add_mod' k T
    rw [e] at hi ⊢
    omega
  · have hmul : (chain (i / T) + 1) * T ≤ chain (k / T) * T :=
      Nat.mul_le_mul_right T (h.mono hlt)
    have hmod := Nat.mod_lt i hT
    rw [Nat.succ_mul] at hmul
    omega

/-- A change of one item that keeps its distance. -/
theorem touch (h : Holds T chain m s es refs) {k r : Nat} {x : Item} (hk : k < es.length)
    (hoff : x.iterOffset = (s.item (chain (k / T)) (k % T)).iterOffset)
    (hcount : x.refcount = r - (gone es k).toNat) :
    Holds T chain m (s.setItem (chain (k / T)) (k % T) x) es (update refs k r) := by
  have hsame : ∀ {β : Type} (g : Chunk V → β), (∀ b, g (Chunk.setItem b (k % T) x) = g b) →
      ∀ c, g ((s.setItem (chain (k / T)) (k % T) x).chunk c) = g (s.chunk c) :=
    fun g hg c => Chunks.modify_same g (hg _) c
  have hitem : ∀ i, i ≠ k →
      (s.setItem (chain (k / T)) (k % T) x).item (chain (i / T)) (i % T) =
        s.item (chain (i / T)) (i % T) :=
    fun i hne => Chunks.item_setItem_of_ne (h.place_ne hne)
  exact {
    mono := h.mono
    fresh := h.fresh
    head := h.head
    upper := h.upper
    lower := h.lower
    full := by
      intro a ha
      rw [hsame Chunk.nextItem fun _ => rfl]
      exact h.full a ha
    last := by
      intro a ha
      rw [hsame Chunk.nextItem fun _ => rfl]
      exact h.last a ha
    value := by
      intro i hi
      rw [hsame Chunk.value fun _ => rfl]
      exact h.value i hi
    count := by
      intro i hi
      rcases eq_or_ne i k with rfl | hne
      · rw [Chunks.item_setItem_self, update_self]
        exact hcount
      · rw [hitem i hne, update_of_ne hne]
        exact h.count i hi
    offset := by
      intro i hi
      rcases eq_or_ne i k with rfl | hne
      · rw [Chunks.item_setItem_self, hoff]
        exact h.offset i hi
      · rw [hitem i hne]
        exact h.offset i hi
    room := by
      intro i hi hlt
      rw [hitem i (by omega)]
      exact h.room i hi hlt
    unused := by
      intro i hi
      rw [update_of_ne (by omega)]
      exact h.unused i hi
    freed := by
      intro a ha
      rw [hsame Chunk.freedItems fun _ => rfl]
      exact h.freed a ha
    deleted := by
      intro a ha
      rw [hsame Chunk.deleted fun _ => rfl]
      exact h.deleted a ha
    prev := by
      intro a ha
      rw [hsame Chunk.prev fun _ => rfl]
      exact h.prev a ha }

/-- A change of the pointers of one chunk. -/
theorem modify (h : Holds T chain m s es refs) {a : Nat} {f : Chunk V → Chunk V}
    (hitem : ∀ b, (f b).item = b.item) (hvalue : ∀ b, (f b).value = b.value)
    (hfreed : ∀ b, (f b).freedItems = b.freedItems) (hdeleted : ∀ b, (f b).deleted = b.deleted)
    (hfull : a + 1 < m → T ≤ (f (s.chunk (chain a))).nextItem)
    (hlast : a + 1 = m → (f (s.chunk (chain a))).nextItem = es.length - a * T)
    (hprev : a < m → Behind T chain es a (f (s.chunk (chain a))).prev) :
    Holds T chain m (s.modify (chain a) f) es refs := by
  have hitem' : ∀ c j, (s.modify (chain a) f).item c j = s.item c j :=
    fun c j => congrFun (Chunks.modify_same Chunk.item (hitem _) c) j
  have hne : ∀ b, b ≠ a → (s.modify (chain a) f).chunk (chain b) = s.chunk (chain b) :=
    fun b hb => Chunks.modify_chunk_of_ne fun e => hb (h.mono.injective e)
  exact {
    mono := h.mono
    fresh := h.fresh
    head := h.head
    upper := h.upper
    lower := h.lower
    full := by
      intro b hb
      rcases eq_or_ne b a with rfl | hba
      · rw [Chunks.modify_chunk_self]
        exact hfull hb
      · rw [hne b hba]
        exact h.full b hb
    last := by
      intro b hb
      rcases eq_or_ne b a with rfl | hba
      · rw [Chunks.modify_chunk_self]
        exact hlast hb
      · rw [hne b hba]
        exact h.last b hb
    value := by
      intro k hk
      rw [Chunks.modify_same Chunk.value (hvalue _)]
      exact h.value k hk
    count := by
      intro k hk
      rw [hitem']
      exact h.count k hk
    offset := by
      intro k hk
      rw [hitem']
      exact h.offset k hk
    room := by
      intro k hk hkm
      rw [hitem']
      exact h.room k hk hkm
    unused := h.unused
    freed := by
      intro b hb
      rw [Chunks.modify_same Chunk.freedItems (hfreed _)]
      exact h.freed b hb
    deleted := by
      intro b hb
      rw [Chunks.modify_same Chunk.deleted (hdeleted _)]
      exact h.deleted b hb
    prev := by
      intro b hb
      rcases eq_or_ne b a with rfl | hba
      · rw [Chunks.modify_chunk_self]
        exact hprev hb
      · rw [hne b hba]
        exact h.prev b hb }

/-- A pointer to an older chunk may be moved back over dead chunks. -/
theorem setPrev (h : Holds T chain m s es refs) {a : Nat} {p : Option Nat}
    (hp : Behind T chain es a p) :
    Holds T chain m (s.modify (chain a) fun b => { b with prev := p }) es refs :=
  h.modify (fun _ => rfl) (fun _ => rfl) (fun _ => rfl) (fun _ => rfl) (h.full a) (h.last a)
    fun _ => hp

/-! ### Going to the next chunk -/

theorem skipDeleted_spec (h : Holds T chain m s es refs) {a : Nat} (ha : a < m) :
    ∀ (fuel : Nat) (p : Option Nat), Behind T chain es a p → (∀ q, p = some q → q < fuel) →
      ∃ q, s.skipDeleted fuel p = .ok q ∧ Behind T chain es a q
  | _, none, hp, _ => ⟨none, by unfold Chunks.skipDeleted; rfl, hp⟩
  | 0, some q, _, hlt => absurd (hlt q rfl) (Nat.not_lt_zero q)
  | fuel + 1, some q, hp, hlt => by
      obtain ⟨b, hba, rfl, hbetween⟩ := hp
      have hb : b < m := hba.trans ha
      cases hdel : (s.chunk (chain b)).deleted with
      | false =>
          refine ⟨some (chain b), ?_, b, hba, rfl, hbetween⟩
          rw [Chunks.skipDeleted, hdel]
          rfl
      | true =>
          rw [Chunks.skipDeleted, hdel, if_pos rfl]
          have hdead := (h.deleted b hb).mp hdel
          have hprev := h.prev b hb
          refine skipDeleted_spec h ha fuel _ ?_ ?_
          · cases hq : (s.chunk (chain b)).prev with
            | none =>
                rw [hq] at hprev
                intro c hc
                rcases lt_trichotomy c b with hlt | rfl | hgt
                · exact hprev c hlt
                · exact hdead
                · exact hbetween c hgt hc
            | some q =>
                rw [hq] at hprev
                obtain ⟨d, hdb, rfl, hd⟩ := hprev
                refine ⟨d, by omega, rfl, fun c hdc hca => ?_⟩
                rcases lt_trichotomy c b with hlt | rfl | hgt
                · exact hd c hdc hlt
                · exact hdead
                · exact hbetween c hgt hca
          · intro q hq
            rw [hq] at hprev
            obtain ⟨d, hdb, rfl, -⟩ := hprev
            have := h.mono hdb
            have := hlt _ rfl
            omega

/-- `++chunk` leads to an older chunk over dead ones. -/
theorem nextChunk_spec (h : Holds T chain m s es refs) {a : Nat} (ha : a < m) :
    ∃ s' p, s.nextChunk (chain a) = .ok (s', p) ∧ Holds T chain m s' es refs ∧
      Behind T chain es a p := by
  have hprev := h.prev a ha
  obtain ⟨p, hp, hbehind⟩ := h.skipDeleted_spec ha (chain a + 1) _ hprev fun q hq => by
    rw [hq] at hprev
    obtain ⟨b, hba, rfl, -⟩ := hprev
    have := h.mono hba
    omega
  refine ⟨s.modify (chain a) fun b => { b with prev := p }, p, ?_, h.setPrev hbehind, hbehind⟩
  unfold Chunks.nextChunk
  rw [hp]
  rfl

/-! ### Iterators -/

/-- An iterator that looks for a value from the `k`-th slot on. -/
def seek (T : Nat) (chain : Nat → Nat) (k : Nat) : ItemAccess :=
  ⟨some (chain (k / T)), some (k % T), false⟩

/-- An iterator that holds a value, or is at the end. -/
def access (T : Nat) (chain : Nat → Nat) : Option Nat → ItemAccess
  | some k => ⟨some (chain (k / T)), some (k % T), true⟩
  | none => ItemAccess.rend

/-- One more iterator. -/
def bump (refs : Nat → Nat) : Option Nat → Nat → Nat
  | some k => update refs k (refs k + 1)
  | none => refs

theorem gone_of_dead (hT : 0 < T) {i : Nat} (h : Dead T es (i / T)) : gone es i = true := by
  have := h (i % T) (Nat.mod_lt i hT)
  rwa [Nat.div_add_mod' i T] at this

theorem index_eq (hT : 0 < T) (c k : Nat) (b : Bool) :
    ItemAccess.index T ⟨some c, some (k % T), b⟩ = some (c, k % T) :=
  if_pos (Nat.mod_lt k hT)

theorem div_mod_of_lt {a j : Nat} (hj : j < T) : (a * T + j) / T = a ∧ (a * T + j) % T = j := by
  have hT : 0 < T := by omega
  refine ⟨?_, ?_⟩
  · rw [Nat.add_comm, Nat.add_mul_div_right _ _ hT, Nat.div_eq_of_lt hj, Nat.zero_add]
  · rw [Nat.add_comm, Nat.add_mul_mod_self_right, Nat.mod_eq_of_lt hj]

/-- The last slot of a chunk that is not the newest. -/
theorem lastOf_full (h : Holds T chain m s es refs) (hT : 0 < T) {b : Nat}
    (hb : b + 1 < m) :
    s.lastOf T (some (chain b)) = seek T chain (b * T + (T - 1)) := by
  obtain ⟨hdiv, hmod⟩ := div_mod_of_lt (T := T) (a := b) (j := T - 1) (by omega)
  have hmin : min (s.chunk (chain b)).nextItem T = T - 1 + 1 := by
    have := h.full b hb
    omega
  rw [seek, hdiv, hmod]
  show (⟨some (chain b), (s.chunk (chain b)).getLastItem T, false⟩ : ItemAccess) = _
  rw [Chunk.getLastItem, hmin]

/-- Where the search goes on after the first slot of a chunk. -/
theorem enter_spec (h : Holds T chain m s es refs) (hT : 0 < T) {a e : Nat} (ha : a < m)
    (he : a * T ≤ e) (hgone : ∀ i, a * T ≤ i → i < e → live es i = false) {p : Option Nat}
    (hp : Behind T chain es a p) :
    (s.lastOf T p = ItemAccess.rend ∧ lastLive es e = none) ∨
      ∃ i, s.lastOf T p = seek T chain i ∧ i < a * T ∧ lastLive es e = lastLive es (i + 1) := by
  cases p with
  | none =>
      refine .inl ⟨rfl, ?_⟩
      rw [lastLive_eq_of_dead (Nat.zero_le _) fun i _ hi => ?_]
      · rfl
      · rcases Nat.lt_or_ge i (a * T) with hlt | hge
        · exact not_live_of_gone (gone_of_dead hT (hp _ ((Nat.div_lt_iff_lt_mul hT).mpr hlt)))
        · exact hgone i hge hi
  | some q =>
      obtain ⟨b, hba, rfl, hb⟩ := hp
      have hle : (b + 1) * T ≤ a * T := Nat.mul_le_mul_right T hba
      have hsucc : b * T + (T - 1) + 1 = (b + 1) * T := by
        rw [Nat.succ_mul]
        omega
      refine .inr ⟨b * T + (T - 1), h.lastOf_full hT (by omega), by omega, ?_⟩
      refine lastLive_eq_of_dead (by omega) fun i hi hie => ?_
      rcases Nat.lt_or_ge i (a * T) with hlt | hge
      · refine not_live_of_gone (gone_of_dead hT (hb _ ?_ ((Nat.div_lt_iff_lt_mul hT).mpr hlt)))
        exact (Nat.le_div_iff_mul_le hT).mpr (hsucc ▸ hi)
      · exact hgone i hge hie

theorem acquire_gone {x : Item} {off : Nat} (h : x.iterOffset = off + 1) :
    x.acquire = (x, off + 1) := by
  unfold Item.acquire
  rw [if_neg (by omega), h]

theorem acquire_live {x : Item} (h : x.iterOffset = 0) (hr : 0 ≤ x.refcount) :
    x.acquire = (x.fetchAdd, 0) := by
  unfold Item.acquire
  rw [if_pos ⟨h, hr⟩, if_pos ⟨hr, h⟩]

/-- `acquire_next_item` finds the last value that is there. -/
theorem acquireLoop_spec (hT : 0 < T) (hroom : ∀ i, refs i < 32767) (fuel : Nat) :
    ∀ (s : Chunks V) (k : Nat), Holds T chain m s es refs → k < es.length →
      chain (k / T) * T + k % T + 2 ≤ fuel →
      ∃ s', Chunks.acquireLoop T fuel s (seek T chain k) =
          .ok (s', access T chain (lastLive es (k + 1))) ∧
        Holds T chain m s' es (bump refs (lastLive es (k + 1))) := by
  induction fuel with
  | zero =>
      intro s k _ _ hf
      omega
  | succ fuel ih =>
      intro s k h hk hf
      have hcount := h.count k hk
      have hoffset := h.offset k hk
      rw [Chunks.acquireLoop, seek, index_eq hT]
      dsimp only
      generalize hx : s.item (chain (k / T)) (k % T) = x at hcount hoffset ⊢
      rcases hoffset with ⟨hz, hlive⟩ | ⟨hpos, hle, hgone⟩
      · -- the value is there
        rw [hlive] at hcount
        have hr : x.refcount = refs k := by simpa using hcount
        have hlv : live es k = true := by
          rw [live_eq_not_gone hk, hlive]
          rfl
        rw [acquire_live hz (by omega), lastLive_of_live hlv]
        refine ⟨s.setItem (chain (k / T)) (k % T) x.fetchAdd, rfl, h.touch hk ?_ ?_⟩
        · rw [hx]
          rfl
        · have hadd : x.fetchAdd.refcount = x.refcount + 1 :=
            ItemState.bmod_wordSize (by omega) (by have := hroom k; omega)
          rw [hadd, hr, hlive]
          simp
      · -- the search goes on at the distance found
        obtain ⟨off, hoff⟩ : ∃ off, x.iterOffset = off + 1 := ⟨x.iterOffset - 1, by omega⟩
        rw [acquire_gone hoff]
        dsimp only
        have hsame : Holds T chain m (s.setItem (chain (k / T)) (k % T) x) es refs := by
          have := h.touch (r := refs k) hk (x := x) (by rw [hx]) hcount
          rwa [update_eq_self] at this
        have hdead : ∀ i, k - off ≤ i → i ≤ k → live es i = false := by
          intro i hi hik
          have := hgone (k - i) (by omega)
          rw [show k - (k - i) = i by omega] at this
          exact not_live_of_gone this
        have hdm := Nat.div_add_mod' k T
        split
        · rename_i hjump
          obtain ⟨hdiv, hmod⟩ :=
            div_mod_of_lt (T := T) (a := k / T) (j := k % T - (off + 1))
              (by have := Nat.mod_lt k hT; omega)
          have hm : k / T * T + (k % T - (off + 1)) = k - (off + 1) := by omega
          rw [hm] at hdiv hmod
          have hseek : (⟨some (chain (k / T)), some (k % T - (off + 1)), false⟩ : ItemAccess) =
              seek T chain (k - (off + 1)) := by
            rw [seek, hdiv, hmod]
          have hlast : lastLive es (k + 1) = lastLive es (k - (off + 1) + 1) :=
            lastLive_eq_of_dead (by omega) fun i hi hi' => hdead i (by omega) (by omega)
          rw [hseek, hlast]
          refine ih _ _ hsame (by omega) ?_
          rw [hdiv, hmod]
          omega
        · have hkm := h.div_lt hT hk
          obtain ⟨s₂, p, hnext, hholds, hbehind⟩ := hsame.nextChunk_spec hkm
          rw [hnext]
          show ∃ s', Chunks.acquireLoop T fuel s₂ (s₂.lastOf T p) = _ ∧ _
          have hka : k / T * T ≤ k := Nat.div_mul_le_self k T
          rcases hholds.enter_spec hT hkm (e := k + 1) (by omega)
              (fun i hi hik => hdead i (by omega) (by omega)) hbehind with
            ⟨hrend, hnone⟩ | ⟨i, hseek, hi, hlast⟩
          · rw [hrend, hnone]
            refine ⟨s₂, ?_, hholds⟩
            obtain ⟨f, rfl⟩ : ∃ f, fuel = f + 1 := ⟨fuel - 1, by omega⟩
            rfl
          · rw [hseek, hlast]
            have := h.weight_lt hT (show i < k by omega)
            exact ih _ _ hholds (by omega) (by omega)

/-- The number of rounds that the loops are given is enough. -/
theorem rounds_access (hT : 0 < T) (o : Option Nat) :
    0 < (access T chain o).rounds T ∧
      ∀ i, o = some i → chain (i / T) * T + i % T + 2 ≤ (access T chain o).rounds T := by
  refine ⟨?_, ?_⟩
  · cases o <;> exact Nat.succ_pos _
  · rintro i rfl
    show _ ≤ (chain (i / T) + 1) * T + 1
    have := Nat.mod_lt i hT
    rw [Nat.succ_mul]
    omega

theorem acquireNextItem_spec (h : Holds T chain m s es refs) (hT : 0 < T)
    (hroom : ∀ i, refs i < 32767) {k : Nat} (hk : k < es.length) :
    ∃ s', s.acquireNextItem T (seek T chain k) =
        .ok (s', access T chain (lastLive es (k + 1))) ∧
      Holds T chain m s' es (bump refs (lastLive es (k + 1))) := by
  exact acquireLoop_spec hT hroom _ s k h hk ((rounds_access hT (some k)).2 k rfl)

/-- An iterator gives its reference back. -/
theorem release_spec {k : Nat} (h : Holds T chain m s es (bump refs (some k))) (hT : 0 < T)
    (hroom : refs k < 32767) (hk : k < es.length) :
    ∃ s', s.release T (access T chain (some k)) = .ok (s', seek T chain k) ∧
      Holds T chain m s' es refs := by
  have hcount := h.count k hk
  rw [bump, update_self] at hcount
  have hg : (gone es k).toNat ≤ 1 := Bool.toNat_le _
  generalize hx : s.item (chain (k / T)) (k % T) = x at hcount
  have hthrow : x.releaseThrows = false := by
    rw [Item.releaseThrows, decide_eq_false_iff_not]
    omega
  refine ⟨s.setItem (chain (k / T)) (k % T) x.release, ?_, ?_⟩
  · rw [Chunks.release, access, if_pos rfl, index_eq hT]
    dsimp only
    rw [hx, hthrow]
    rfl
  · have hsub : x.release.refcount = x.refcount - 1 :=
      ItemState.bmod_wordSize (by omega) (by omega)
    have := h.touch (r := refs k) (x := x.release) hk (by rw [hx]; rfl) (by rw [hsub]; omega)
    rwa [bump, update_idem, update_eq_self] at this

/-- `operator++` goes to the last value in front. -/
theorem advance_spec {k : Nat} (h : Holds T chain m s es (bump refs (some k))) (hT : 0 < T)
    (hroom : ∀ i, refs i < 32767) (hk : k < es.length) :
    ∃ s', s.advance T (access T chain (some k)) = .ok (s', access T chain (lastLive es k)) ∧
      Holds T chain m s' es (bump refs (lastLive es k)) := by
  obtain ⟨s₁, hrel, h₁⟩ := h.release_spec hT (hroom k) hk
  rw [Chunks.advance, hrel]
  have hdm := Nat.div_add_mod' k T
  cases hmod : k % T with
  | zero =>
      obtain ⟨s₂, p, hnext, h₂, hp⟩ := h₁.nextChunk_spec (h₁.div_lt hT hk)
      rw [seek, hmod]
      show ∃ s', (s₁.nextChunk (chain (k / T)) >>= fun r =>
        r.1.acquireNextItem T (r.1.lastOf T r.2)) = _ ∧ _
      rw [hnext]
      show ∃ s', s₂.acquireNextItem T (s₂.lastOf T p) = _ ∧ _
      have hka : k / T * T = k := by omega
      rcases h₂.enter_spec hT (h₂.div_lt hT hk) hka.le (fun i hi hik => by omega) hp with
        ⟨hrend, hnone⟩ | ⟨i, hseek, hi, hlast⟩
      · rw [hrend, hnone]
        exact ⟨s₂, rfl, h₂⟩
      · rw [hseek, hlast]
        exact h₂.acquireNextItem_spec hT hroom (by omega)
  | succ j =>
      have hlt := Nat.mod_lt k hT
      obtain ⟨hd, hm⟩ := div_mod_of_lt (T := T) (a := k / T) (j := j) (by omega)
      have hk1 : k / T * T + j = k - 1 := by omega
      rw [hk1] at hd hm
      rw [seek, hmod]
      show ∃ s', s₁.acquireNextItem T ⟨some (chain (k / T)), some j, false⟩ = _ ∧ _
      have hseek : (⟨some (chain (k / T)), some j, false⟩ : ItemAccess) = seek T chain (k - 1) := by
        rw [seek, hd, hm]
      have hlast : lastLive es k = lastLive es (k - 1 + 1) := by
        rw [Nat.sub_add_cancel (by omega)]
      rw [hseek, hlast]
      exact h₁.acquireNextItem_spec hT hroom (by omega)

/-- `rbegin` is at the last value, as long as the newest chunk is not empty. -/
theorem rbegin_spec (h : Holds T chain m s es refs) (hT : 0 < T)
    (htight : 0 < m → (m - 1) * T < es.length) (hroom : ∀ i, refs i < 32767) :
    ∃ s', s.rbegin T = .ok (s', access T chain (lastLive es es.length)) ∧
      Holds T chain m s' es (bump refs (lastLive es es.length)) := by
  cases m with
  | zero =>
      have hz : es.length = 0 := by
        have := h.upper
        omega
      have hhead : s.head = none := h.head
      rw [hz, Chunks.rbegin, hhead]
      exact ⟨s, rfl, h⟩
  | succ a =>
      have hlt : a * T < es.length := htight (Nat.succ_pos a)
      have hle : es.length ≤ a * T + T := by
        rw [← Nat.succ_mul]
        exact h.upper
      have hhead : s.head = some (chain a) := h.head
      obtain ⟨hdiv, hmod⟩ :=
        div_mod_of_lt (T := T) (a := a) (j := es.length - a * T - 1) (by omega)
      rw [show a * T + (es.length - a * T - 1) = es.length - 1 by omega] at hdiv hmod
      have hlast : s.lastOf T s.head = seek T chain (es.length - 1) := by
        have hmin : min (s.chunk (chain a)).nextItem T = es.length - a * T - 1 + 1 := by
          rw [h.last a rfl]
          omega
        rw [hhead, seek, hdiv, hmod]
        show (⟨some (chain a), (s.chunk (chain a)).getLastItem T, false⟩ : ItemAccess) = _
        rw [Chunk.getLastItem, hmin]
      rw [Chunks.rbegin, hlast]
      have := h.acquireNextItem_spec hT hroom (k := es.length - 1) (by omega)
      rwa [Nat.sub_add_cancel (by omega)] at this

theorem read_spec (h : Holds T chain m s es refs) (hT : 0 < T) {k : Nat} {v : V} {b : Bool}
    (hk : es[k]? = some (v, b)) : s.read T (access T chain (some k)) = .ok v := by
  obtain ⟨hlt, -⟩ := List.getElem?_eq_some_iff.mp hk
  have hv := h.value k hlt
  rw [hk] at hv
  rw [Chunks.read, access, index_eq hT]
  dsimp only
  rw [hv]
  rfl

/-- An iterator visits the values in front of it and gives its reference back. -/
theorem visitLoop_spec (hT : 0 < T) (hroom : ∀ i, refs i < 32767) (fuel : Nat) :
    ∀ (s : Chunks V) (k : Nat), Holds T chain m s es (bump refs (lastLive es k)) →
      0 < fuel → (∀ i, lastLive es k = some i → chain (i / T) * T + i % T + 2 ≤ fuel) →
      ∃ s', Chunks.visitLoop T fuel s (access T chain (lastLive es k)) =
          .ok (s', ItemAccess.rend, older es k) ∧ Holds T chain m s' es refs := by
  induction fuel with
  | zero =>
      intro s k _ hpos
      omega
  | succ fuel ih =>
      intro s k h _ hf
      cases hk : lastLive es k with
      | none =>
          rw [hk] at h
          rw [older_of_lastLive_none hk]
          exact ⟨s, rfl, h⟩
      | some i =>
          rw [hk] at h
          have hfi := hf i hk
          obtain ⟨-, hlive, -⟩ := lastLive_eq_some hk
          obtain ⟨v, hv⟩ := getElem?_of_live hlive
          obtain ⟨s₁, hadv, h₁⟩ := h.advance_spec hT hroom (lt_of_live hlive)
          obtain ⟨s₂, hvisit, h₂⟩ := ih s₁ i h₁ (by omega) fun j hj => by
            have := h.weight_lt hT (lastLive_eq_some hj).1
            omega
          refine ⟨s₂, ?_, h₂⟩
          show (s.read T (access T chain (some i)) >>= fun v =>
            s.advance T (access T chain (some i)) >>= fun r =>
              Chunks.visitLoop T fuel r.1 r.2 >>= fun r => pure (r.1, r.2.1, v :: r.2.2)) = _
          rw [h.read_spec hT hv, hadv, older_of_lastLive hk hv]
          show (Chunks.visitLoop T fuel s₁ (access T chain (lastLive es i)) >>= fun r =>
            pure (r.1, r.2.1, v :: r.2.2)) = _
          rw [hvisit]
          rfl

theorem visit_spec {k : Nat} (h : Holds T chain m s es (bump refs (lastLive es k))) (hT : 0 < T)
    (hroom : ∀ i, refs i < 32767) :
    ∃ s', s.visit T (access T chain (lastLive es k)) = .ok (s', ItemAccess.rend, older es k) ∧
      Holds T chain m s' es refs := by
  obtain ⟨hpos, hrounds⟩ := @rounds_access T chain hT (lastLive es k)
  exact visitLoop_spec hT hroom _ s k h hpos hrounds

/-- A scan visits the values that are there, the last one first. -/
theorem scan_spec (h : Holds T chain m s es refs) (hT : 0 < T)
    (htight : 0 < m → (m - 1) * T < es.length) (hroom : ∀ i, refs i < 32767) :
    ∃ s', s.scan T = .ok (s', older es es.length) ∧ Holds T chain m s' es refs := by
  obtain ⟨s₁, hbegin, h₁⟩ := h.rbegin_spec hT htight hroom
  obtain ⟨s₂, hvisit, h₂⟩ := h₁.visit_spec hT hroom
  refine ⟨s₂, ?_, h₂⟩
  rw [Chunks.scan, hbegin]
  show (s₁.visit T _ >>= fun r => pure (r.1, r.2.2)) = _
  rw [hvisit]
  rfl

end Holds

end RedGrapes.ChunkedList
