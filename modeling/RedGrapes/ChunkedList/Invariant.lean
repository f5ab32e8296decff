/-
RedGrapes/ChunkedList/Invariant.lean

What holds of a `ChunkedList` in every state that is reached with care.

The chunks that are linked form a list `l`, the newest first.  The invariant has
five parts: `Chain` is about `l`, `Slots` about the slots, `Elements` about who
pushed what, `Threads` about the places of the threads and `Walk` about the scan.
Slots, new chunks and the right to append are tokens: a place that deals with one
of them has its token, and nobody else has it.

Everything a thread relies on while others go on is kept by its token or only
ever becomes truer: a linked chunk stays linked, a removed slot keeps its
distance, a deleted chunk stays deleted.  The lemmas `mono` say so.
-/
import RedGrapes.ChunkedList.Concurrent

namespace RedGrapes.ChunkedList

open Function Machine

/-! ### Slots -/

/-- Everything about one slot. -/
structure Slot (ι : Type) where
  value : Option (ι × Nat)
  item : Item
  phase : Phase
  kept : Bool
  writes : Nat

/-- The reference that the list has to an element and gives up in `remove`. -/
def Phase.dropped : Phase → Nat
  | .released => 1
  | .freed => 1
  | _ => 0

/-- The reference of the scan to the slot `j` of chunk `c`. -/
def Scan.ref (x : Scan) (c j : Nat) : Nat :=
  match x with
  | .acquire c' j' a => if c' = c ∧ j' = j ∧ a.holds = true then 1 else 0
  | .visiting c' j' => if c' = c ∧ j' = j then 1 else 0
  | _ => 0

namespace Slot

variable {ι : Type}

/-- The element was published, and its slot has a distance. -/
def Removed (d : Slot ι) : Prop := d.value ≠ none ∧ d.item.iterOffset ≠ 0

/-- What a thread that deals with a slot knows of it. -/
def view (d : Slot ι) : Option (ι × Nat) × Nat × Phase × Bool :=
  (d.value, d.item.iterOffset, d.phase, d.kept)

/-- What holds of a slot when the scan has `ref` references to it. -/
structure Ok (d : Slot ι) (ref : Nat) : Prop where
  blank : d.value = none →
    d.item.iterOffset = 1 ∧ d.phase = .new ∧ d.kept = false ∧ d.writes = 0 ∧ d.item.destroyed = 0
  written : d.value ≠ none → d.writes = 1
  present : d.value ≠ none → d.phase = .new ∨ d.phase = .live → d.item.iterOffset = 0
  gone : d.phase = .released ∨ d.phase = .freed → d.item.iterOffset ≠ 0
  count : d.item.refcount = d.kept.toNat + ref - d.phase.dropped

end Slot

/-- An `acquire` of an item that nobody removes. -/
def Acquire.Safe : Acquire → Prop
  | .loadRefcount off => off = 0
  | .reload old => 0 ≤ old
  | .undo _ => False
  | _ => True

/-! ### Tokens -/

/-- What only one thread may deal with. -/
inductive Token
  | slot (c j : Nat)
  | chunk (n : Nat)
  | append
deriving DecidableEq

namespace Place

def tokens : Place → List Token
  | .publish c j => [.slot c j]
  | .acquire c j _ => [.slot c j]
  | .allocate => [.append]
  | .loadOld n => [.append, .chunk n]
  | .storePrev n _ => [.append, .chunk n]
  | .casHead n _ => [.append, .chunk n]
  | .casFirst n => [.chunk n]
  | .loadNeighbour c j => [.slot c j]
  | .storeOffset c j _ => [.slot c j]
  | .release c j => [.slot c j]
  | .freed c j => [.slot c j]
  | _ => []

/-- A push that has not reserved its slot yet. -/
def searching : Place → Bool
  | .loadHead => true
  | .loadNext _ => true
  | .fetchAdd _ => true
  | .allocate => true
  | .loadOld _ => true
  | .storePrev _ _ => true
  | .casHead _ _ => true
  | .allocateFirst => true
  | .casFirst _ => true
  | _ => false

/-- The elements that are being pushed and not published yet. -/
def unpublished : Place → Nat
  | .publish _ _ => 1
  | p => p.searching.toNat

/-- A thread that goes from `q` to `p` neither begins nor publishes an element,
and it keeps the right to append and goes on searching. -/
structure Follows (q p : Place) : Prop where
  unpublished : p.unpublished = q.unpublished
  append : .append ∈ q.tokens → .append ∈ p.tokens
  searching : q.searching = true → p.searching = true
  publish : ∀ c j, q ≠ .publish c j

end Place

/-- The order of the slots: older chunks first. -/
def Before (c j c' j' : Nat) : Prop := c < c' ∨ (c = c' ∧ j < j')

namespace Crowd

variable {ι : Type}

def slot (s : Crowd ι) (c j : Nat) : Slot ι :=
  ⟨(s.chunks.chunk c).value j, s.chunks.item c j, s.phase c j, s.kept c j, s.writes c j⟩

def next (s : Crowd ι) (c : Nat) : Nat := (s.chunks.chunk c).nextItem

def deleted (s : Crowd ι) (c : Nat) : Bool := (s.chunks.chunk c).deleted

/-- A pointer from chunk `c` to an older one leads over deleted chunks only. -/
def LeadsBack (s : Crowd ι) (l : List Nat) (c : Nat) : Option Nat → Prop
  | none => ∀ b ∈ l, b < c → s.deleted b = true
  | some p => p ∈ l ∧ p < c ∧ ∀ b ∈ l, p < b → b < c → s.deleted b = true

/-- The head is overflowed, and `n` is a chunk that may be put in front of it. -/
def Appends (T : Nat) (s : Crowd ι) (l : List Nat) (n : Nat) : Prop :=
  (∃ c ∈ l, s.chunks.head = some c ∧ T < s.next c) ∧ n < s.chunks.fresh ∧ s.next n = 0 ∧
    ∀ c ∈ l, c < n

/-- What thread `i` relies on at a place. -/
def PlaceOk (T : Nat) (s : Crowd ι) (l : List Nat) (i : ι) : Place → Prop
  | .loadNext c => c ∈ l
  | .fetchAdd c => c ∈ l
  | .publish c j => c ∈ l ∧ j < T ∧ j < s.next c ∧ (s.slot c j).value = none ∧
      ∀ c' j' k, (s.slot c' j').value = some (i, k) → Before c' j' c j
  | .acquire c j a => (s.slot c j).value ≠ none ∧ (s.slot c j).phase = .new ∧
      (s.slot c j).kept = a.holds ∧ a.Safe
  | .allocate => ∃ c ∈ l, s.chunks.head = some c ∧ T < s.next c
  | .loadOld n => s.Appends T l n
  | .storePrev n old => s.Appends T l n ∧ old = s.chunks.head
  | .casHead n old => s.Appends T l n ∧ old = s.chunks.head ∧ (s.chunks.chunk n).prev = old
  | .casFirst n => n < s.chunks.fresh ∧ n ∉ l ∧ s.next n = 0 ∧ (s.chunks.chunk n).prev = none
  | .loadNeighbour c j => (s.slot c j).value ≠ none ∧ (s.slot c j).phase = .removing ∧
      (s.slot c j).item.iterOffset = 0 ∧ (s.slot c j).kept = true
  | .storeOffset c j off => (s.slot c j).value ≠ none ∧ (s.slot c j).phase = .removing ∧
      (s.slot c j).item.iterOffset = 0 ∧ (s.slot c j).kept = true ∧ off ≠ 0 ∧
      ∀ k < j, j < k + off → (s.slot c k).Removed
  | .release c j => (s.slot c j).Removed ∧ (s.slot c j).phase = .removing ∧
      (s.slot c j).kept = true
  | .freed c j => (s.slot c j).value ≠ none ∧ (s.slot c j).phase = .released
  | .flag c => ∀ j < T, (s.slot c j).phase = .freed
  | _ => True

/-- The slots that the scan has still to come by. -/
def Pending : Scan → Nat → Nat → Prop
  | .lastItem c, c', _ => c' ≤ c
  | .acquire c j _, c', j' => c' < c ∨ (c' = c ∧ j' ≤ j)
  | .visiting c j, c', j' => c' < c ∨ (c' = c ∧ j' < j)
  | .loadPrev c _, c', _ => c' < c
  | .checkDeleted c _, c', _ => c' < c
  | .storePrev c _, c', _ => c' < c
  | .readPrev c, c', _ => c' < c
  | _, _, _ => False

/-- The scan may pass by the slots over which a distance `off` leads. -/
def Barred (s : Crowd ι) (c j off : Nat) : Prop :=
  ∀ k ≤ j, j < k + off → s.before c k = true → (s.slot c k).Removed

/-- What the scan relies on at a place. -/
def ScanOk (s : Crowd ι) (l : List Nat) : Scan → Prop
  | .lastItem c => c ∈ l
  | .acquire c j a => c ∈ l ∧ (a.holds = true → (s.slot c j).value ≠ none) ∧ match a with
      | .loadRefcount off => (off = 0 → (s.slot c j).value ≠ none) ∧ s.Barred c j off
      | .fetchAdd => (s.slot c j).value ≠ none
      | .reload old => old < 0 → (s.slot c j).Removed
      | .undo off => off ≠ 0 ∧ s.Barred c j off
      | .loadOffset => True
  | .visiting c j => c ∈ l ∧ (s.slot c j).value ≠ none
  | .loadPrev c q => c ∈ l ∧ q ∈ l ∧ q ≤ c ∧ ∀ b ∈ l, q ≤ b → b < c → s.deleted b = true
  | .checkDeleted c p => c ∈ l ∧ s.LeadsBack l c p
  | .storePrev c p => c ∈ l ∧ s.LeadsBack l c p
  | .readPrev c => c ∈ l
  | .thrown => False
  | _ => True

/-! ### The invariant -/

structure Chain (T : Nat) (s : Crowd ι) (l : List Nat) : Prop where
  head : s.chunks.head = l.head?
  sorted : l.Pairwise (· > ·)
  known : ∀ c ∈ l, c < s.chunks.fresh
  full : ∀ c ∈ l, s.chunks.head ≠ some c → T < s.next c
  prev : ∀ c ∈ l, s.LeadsBack l c (s.chunks.chunk c).prev

structure Slots (T : Nat) (s : Crowd ι) (l : List Nat) : Prop where
  ok : ∀ c j, (s.slot c j).Ok (s.scan.ref c j)
  reserved : ∀ c j, (s.slot c j).value ≠ none → c ∈ l ∧ j < T ∧ j < s.next c
  skips : ∀ c j, (s.slot c j).Removed →
    ∀ k ≤ j, j < k + (s.slot c j).item.iterOffset → (s.slot c k).Removed
  freed : ∀ c, (s.chunks.chunk c).freedItems =
    (List.range T).countP fun j => decide ((s.slot c j).phase = .freed)
  deleted : ∀ c, s.deleted c = true → ∀ j < T, (s.slot c j).phase = .freed

structure Elements (s : Crowd ι) : Prop where
  order : ∀ {c j c' j' i k k'}, (s.slot c j).value = some (i, k) →
    (s.slot c' j').value = some (i, k') → Before c j c' j' → k < k'
  bounded : ∀ {c j i k}, (s.slot c j).value = some (i, k) →
    k + (s.place i).unpublished < s.calls i
  complete : ∀ i k, k + (s.place i).unpublished < s.calls i → ∃ c j, (s.slot c j).value = some (i, k)
  begun : ∀ i, (s.place i).unpublished ≤ s.calls i

structure Threads (T : Nat) (s : Crowd ι) (l : List Nat) : Prop where
  unique : ∀ i i' t, t ∈ (s.place i).tokens → t ∈ (s.place i').tokens → i = i'
  ok : ∀ i, s.PlaceOk T l i (s.place i)
  appended : ∀ c, s.chunks.head = some c → T < s.next c → ∃ i, .append ∈ (s.place i).tokens
  searched : ∀ c, s.chunks.head = some c → s.next c = 0 → ∃ i, (s.place i).searching = true
  unwritten : ∀ c ∈ l, ∀ j < T, j < s.next c → (s.slot c j).value = none →
    ∃ i, s.place i = .publish c j

structure Walk (s : Crowd ι) (l : List Nat) : Prop where
  ok : s.ScanOk l s.scan
  unvisited : s.scan = .waiting → s.visited = []
  nodup : s.visited.Nodup
  passed : ∀ q ∈ s.visited, ¬ Pending s.scan q.1 q.2
  complete : s.scan ≠ .waiting → ∀ c j, s.before c j = true →
    (s.slot c j).item.iterOffset = 0 → (c, j) ∈ s.visited ∨ Pending s.scan c j
  seen : ∀ c j, s.before c j = true → (s.slot c j).value ≠ none ∧ (s.slot c j).phase ≠ .new

structure Inv (T : Nat) (s : Crowd ι) (l : List Nat) : Prop where
  chain : s.Chain T l
  slots : s.Slots T l
  elements : s.Elements
  threads : s.Threads T l
  walk : s.Walk l

/-! ### What only becomes truer -/

/-- From `s` to `s'` chunks are linked in front, slots are published and removed,
chunks are deleted, and none of this is taken back. -/
structure Grows (s s' : Crowd ι) (l l' : List Nat) : Prop where
  linked : ∀ c ∈ l, c ∈ l'
  newer : ∀ b ∈ l', b ∈ l ∨ ∀ c ∈ l, c < b
  fresh : s.chunks.fresh ≤ s'.chunks.fresh
  next : ∀ c ∈ l, s.next c ≤ s'.next c
  value : ∀ c j, (s.slot c j).value ≠ none → (s'.slot c j).value = (s.slot c j).value
  removed : ∀ c j, (s.slot c j).Removed →
    (s'.slot c j).item.iterOffset = (s.slot c j).item.iterOffset
  freed : ∀ c j, (s.slot c j).phase = .freed → (s'.slot c j).phase = .freed
  returned : ∀ c j, (s.slot c j).phase ≠ .new → (s'.slot c j).phase ≠ .new
  deleted : ∀ c ∈ l, s.deleted c = true → s'.deleted c = true

/-- The links of the chunks are the same. -/
structure SameLinks (s s' : Crowd ι) : Prop where
  head : s'.chunks.head = s.chunks.head
  fresh : s'.chunks.fresh = s.chunks.fresh
  next : ∀ c, s'.next c = s.next c
  prev : ∀ c, (s'.chunks.chunk c).prev = (s.chunks.chunk c).prev
  deleted : ∀ c, s'.deleted c = s.deleted c

/-- The scan is where it was. -/
structure SameScan (s s' : Crowd ι) : Prop where
  scan : s'.scan = s.scan
  before : s'.before = s.before
  visited : s'.visited = s.visited

section Frames

variable {T : Nat} {s s' : Crowd ι} {l l' : List Nat}

/-- The slots are the same, and so is the list of the linked chunks. -/
theorem Grows.of_slots (hfresh : s.chunks.fresh ≤ s'.chunks.fresh)
    (hnext : ∀ c ∈ l, s.next c ≤ s'.next c) (hslot : ∀ c j, s'.slot c j = s.slot c j)
    (hdel : ∀ c ∈ l, s.deleted c = true → s'.deleted c = true) : Grows s s' l l where
  linked _ hc := hc
  newer _ hb := .inl hb
  fresh := hfresh
  next := hnext
  value c j _ := by rw [hslot]
  removed c j _ := by rw [hslot]
  freed c j hp := by rwa [hslot]
  returned c j hp := by rwa [hslot]
  deleted := hdel

theorem Grows.of_same (hlinks : SameLinks s s') (hslot : ∀ c j, s'.slot c j = s.slot c j) :
    Grows s s' l l :=
  .of_slots hlinks.fresh.ge (fun c _ => (hlinks.next c).ge) hslot
    fun c _ hd => (hlinks.deleted c).trans hd

namespace Grows

variable (g : Grows s s' l l')

include g

theorem present {c j : Nat} (h : (s.slot c j).value ≠ none) : (s'.slot c j).value ≠ none := by
  rw [g.value c j h]
  exact h

theorem stays {c j : Nat} (h : (s.slot c j).Removed) : (s'.slot c j).Removed := by
  refine ⟨g.present h.1, ?_⟩
  rw [g.removed c j h]
  exact h.2

/-- Between two linked chunks nothing is put. -/
theorem between {b c : Nat} (hb : b ∈ l') (hc : c ∈ l) (hbc : b < c) : b ∈ l := by
  rcases g.newer b hb with h | h
  · exact h
  · have := h c hc
    omega

theorem leadsBack {c : Nat} (hc : c ∈ l) {p : Option Nat} (h : s.LeadsBack l c p) :
    s'.LeadsBack l' c p := by
  cases p with
  | none =>
      intro b hb hbc
      have hb' := g.between hb hc hbc
      exact g.deleted b hb' (h b hb' hbc)
  | some p =>
      obtain ⟨hp, hpc, hbetween⟩ := h
      refine ⟨g.linked p hp, hpc, fun b hb hpb hbc => ?_⟩
      have hb' := g.between hb hc hbc
      exact g.deleted b hb' (hbetween b hb' hpb hbc)

theorem barred (hbefore : s'.before = s.before) {c j off : Nat} (h : s.Barred c j off) :
    s'.Barred c j off := by
  intro k hk hlt hb
  rw [hbefore] at hb
  exact g.stays (h k hk hlt hb)

theorem scanOk (hbefore : s'.before = s.before) {x : Scan} (h : s.ScanOk l x) : s'.ScanOk l' x := by
  cases x with
  | lastItem c => exact g.linked c h
  | acquire c j a =>
      obtain ⟨hc, hv, ha⟩ := h
      refine ⟨g.linked c hc, fun e => g.present (hv e), ?_⟩
      cases a with
      | loadOffset => trivial
      | loadRefcount off => exact ⟨fun e => g.present (ha.1 e), g.barred hbefore ha.2⟩
      | fetchAdd => exact g.present ha
      | reload old => exact fun e => g.stays (ha e)
      | undo off => exact ⟨ha.1, g.barred hbefore ha.2⟩
  | visiting c j => exact ⟨g.linked c h.1, g.present h.2⟩
  | loadPrev c q =>
      obtain ⟨hc, hq, hqc, hd⟩ := h
      refine ⟨g.linked c hc, g.linked q hq, hqc, fun b hb hqb hbc => ?_⟩
      have hb' := g.between hb hc hbc
      exact g.deleted b hb' (hd b hb' hqb hbc)
  | checkDeleted c p | storePrev c p => exact ⟨g.linked c h.1, g.leadsBack h.1 h.2⟩
  | readPrev c => exact g.linked c h
  | waiting | done => trivial
  | thrown => exact h

/-- The scan can go on from a state that has grown. -/
theorem walk (hscan : s'.scan = s.scan) (hbefore : s'.before = s.before)
    (hvisited : s'.visited = s.visited) (h : s.Walk l) : s'.Walk l' where
  ok := by
    rw [hscan]
    exact g.scanOk hbefore h.ok
  unvisited := by
    rw [hvisited, hscan]
    exact h.unvisited
  nodup := by
    rw [hvisited]
    exact h.nodup
  passed := by
    rw [hvisited, hscan]
    exact h.passed
  complete := by
    rw [hvisited, hscan, hbefore]
    intro hx c j hb hz
    refine h.complete hx c j hb ?_
    by_contra hne
    rw [g.removed c j ⟨(h.seen c j hb).1, hne⟩] at hz
    exact hne hz
  seen := by
    rw [hbefore]
    exact fun c j hb => ⟨g.present (h.seen c j hb).1, g.returned c j (h.seen c j hb).2⟩

/-- What a thread relies on at its place is kept while others go on. -/
theorem placeOk {i : ι} {p : Place} (h : s.PlaceOk T l i p)
    (hslot : ∀ c j, .slot c j ∈ p.tokens → (s'.slot c j).view = (s.slot c j).view)
    (hchunk : ∀ n, .chunk n ∈ p.tokens → s'.next n = s.next n ∧
      (s'.chunks.chunk n).prev = (s.chunks.chunk n).prev ∧ (n ∉ l → n ∉ l'))
    (happend : .append ∈ p.tokens → s'.chunks.head = s.chunks.head ∧ l' = l)
    (hvalue : ∀ c j k, (s'.slot c j).value = some (i, k) → (s.slot c j).value = some (i, k)) :
    s'.PlaceOk T l' i p := by
  have hview : ∀ {c j}, .slot c j ∈ p.tokens → (s'.slot c j).value = (s.slot c j).value ∧
      (s'.slot c j).item.iterOffset = (s.slot c j).item.iterOffset ∧
      (s'.slot c j).phase = (s.slot c j).phase ∧ (s'.slot c j).kept = (s.slot c j).kept := by
    intro c j hcj
    simpa [Slot.view] using hslot c j hcj
  have happends : ∀ {n}, .append ∈ p.tokens → .chunk n ∈ p.tokens → s.Appends T l n →
      s'.Appends T l' n := by
    rintro n ha hn ⟨⟨c, hcl, hc, hlt⟩, hfresh, hz, hnew⟩
    obtain ⟨hhead, rfl⟩ := happend ha
    refine ⟨⟨c, hcl, hhead.trans hc, hlt.trans_le (g.next c hcl)⟩, hfresh.trans_le g.fresh, ?_, hnew⟩
    rw [(hchunk n hn).1]
    exact hz
  cases p with
  | loadNext c | fetchAdd c => exact g.linked c h
  | publish c j =>
      obtain ⟨hc, hj, hlt, hnone, hold⟩ := h
      refine ⟨g.linked c hc, hj, hlt.trans_le (g.next c hc), ?_, ?_⟩
      · rw [(hview (by simp [Place.tokens])).1]
        exact hnone
      · exact fun c' j' k hv => hold c' j' k (hvalue c' j' k hv)
  | acquire c j a =>
      obtain ⟨hv, -, hp, hk⟩ := hview (c := c) (j := j) (by simp [Place.tokens])
      rw [PlaceOk, hv, hp, hk]
      exact h
  | allocate =>
      obtain ⟨c, hcl, hc, hlt⟩ := h
      exact ⟨c, g.linked c hcl, (happend (by simp [Place.tokens])).1.trans hc,
        hlt.trans_le (g.next c hcl)⟩
  | loadOld n => exact happends (by simp [Place.tokens]) (by simp [Place.tokens]) h
  | storePrev n old =>
      refine ⟨happends (by simp [Place.tokens]) (by simp [Place.tokens]) h.1, ?_⟩
      rw [(happend (by simp [Place.tokens])).1]
      exact h.2
  | casHead n old =>
      refine ⟨happends (by simp [Place.tokens]) (by simp [Place.tokens]) h.1, ?_, ?_⟩
      · rw [(happend (by simp [Place.tokens])).1]
        exact h.2.1
      · rw [(hchunk n (by simp [Place.tokens])).2.1]
        exact h.2.2
  | casFirst n =>
      obtain ⟨hnext, hprev, hnot⟩ := hchunk n (by simp [Place.tokens])
      obtain ⟨hfresh, hn, hz, hp⟩ := h
      refine ⟨hfresh.trans_le g.fresh, hnot hn, ?_, ?_⟩
      · rw [hnext]
        exact hz
      · rw [hprev]
        exact hp
  | loadNeighbour c j =>
      obtain ⟨hv, ho, hp, hk⟩ := hview (c := c) (j := j) (by simp [Place.tokens])
      rw [PlaceOk, hv, ho, hp, hk]
      exact h
  | storeOffset c j off =>
      obtain ⟨hv, ho, hp, hk⟩ := hview (c := c) (j := j) (by simp [Place.tokens])
      rw [PlaceOk, hv, ho, hp, hk]
      obtain ⟨h1, h2, h3, h4, h5, h6⟩ := h
      exact ⟨h1, h2, h3, h4, h5, fun k hk hlt => g.stays (h6 k hk hlt)⟩
  | release c j =>
      obtain ⟨-, -, hp, hk⟩ := hview (c := c) (j := j) (by simp [Place.tokens])
      rw [PlaceOk, hp, hk]
      exact ⟨g.stays h.1, h.2⟩
  | freed c j =>
      obtain ⟨hv, -, hp, -⟩ := hview (c := c) (j := j) (by simp [Place.tokens])
      rw [PlaceOk, hv, hp]
      exact h
  | flag c => exact fun j hj => g.freed c j (h j hj)
  | idle | loadHead | allocateFirst => trivial

end Grows

/-! ### Parts of the invariant that a step keeps -/

theorem Chain.mono (h : s.Chain T l) (g : Grows s s' l l) (hhead : s'.chunks.head = s.chunks.head)
    (hprev : ∀ c ∈ l, (s'.chunks.chunk c).prev = (s.chunks.chunk c).prev ∨
      s'.LeadsBack l c (s'.chunks.chunk c).prev) : s'.Chain T l where
  head := hhead.trans h.head
  sorted := h.sorted
  known c hc := (h.known c hc).trans_le g.fresh
  full c hc hne := by
    rw [hhead] at hne
    exact (h.full c hc hne).trans_le (g.next c hc)
  prev c hc := by
    rcases hprev c hc with e | h'
    · rw [e]
      exact g.leadsBack hc (h.prev c hc)
    · exact h'

theorem Elements.congr (h : s.Elements) (hvalue : ∀ c j, (s'.slot c j).value = (s.slot c j).value)
    (hcalls : s'.calls = s.calls)
    (hplace : ∀ i, (s'.place i).unpublished = (s.place i).unpublished) : s'.Elements where
  order h₁ h₂ hb := by
    rw [hvalue] at h₁ h₂
    exact h.order h₁ h₂ hb
  bounded h₁ := by
    rw [hvalue] at h₁
    rw [hplace, hcalls]
    exact h.bounded h₁
  complete i k hk := by
    rw [hplace, hcalls] at hk
    obtain ⟨c, j, hv⟩ := h.complete i k hk
    exact ⟨c, j, (hvalue c j).trans hv⟩
  begun i := by
    rw [hplace, hcalls]
    exact h.begun i

/-- No slot changes. -/
theorem Slots.links (h : s.Slots T l) (g : Grows s s' l l')
    (hslot : ∀ c j, s'.slot c j = s.slot c j) (hscan : s'.scan = s.scan)
    (hfreed : ∀ c, (s'.chunks.chunk c).freedItems = (s.chunks.chunk c).freedItems)
    (hdel : ∀ c, s'.deleted c = true → s.deleted c = true ∨ ∀ j < T, (s.slot c j).phase = .freed) :
    s'.Slots T l' where
  ok c j := by
    rw [hslot, hscan]
    exact h.ok c j
  reserved c j hv := by
    rw [hslot] at hv
    obtain ⟨hc, hj, hlt⟩ := h.reserved c j hv
    exact ⟨g.linked c hc, hj, hlt.trans_le (g.next c hc)⟩
  skips c j hr k hk hlt := by
    rw [hslot] at hr hlt ⊢
    exact h.skips c j hr k hk hlt
  freed c := by
    rw [hfreed, h.freed c]
    simp only [hslot]
  deleted c hd j hj := by
    rw [hslot]
    rcases hdel c hd with hd | hd
    · exact h.deleted c hd j hj
    · exact hd j hj

/-- At most the slot `j₀` of chunk `c₀` changes, and its element stays. -/
theorem Slots.set (h : s.Slots T l) (c₀ j₀ : Nat) (hnext : ∀ c, s'.next c = s.next c)
    (hdel : ∀ c, s'.deleted c = s.deleted c)
    (hne : ∀ c j, (c, j) ≠ (c₀, j₀) → s'.slot c j = s.slot c j)
    (hvalue : (s'.slot c₀ j₀).value = (s.slot c₀ j₀).value)
    (hok : (s'.slot c₀ j₀).Ok (s'.scan.ref c₀ j₀))
    (href : ∀ c j, (c, j) ≠ (c₀, j₀) → s'.scan.ref c j = s.scan.ref c j)
    (hoff : (s'.slot c₀ j₀).item.iterOffset = (s.slot c₀ j₀).item.iterOffset ∨
      (¬ (s.slot c₀ j₀).Removed ∧
        ∀ k < j₀, j₀ < k + (s'.slot c₀ j₀).item.iterOffset → (s.slot c₀ k).Removed))
    (hphase : (s.slot c₀ j₀).phase = .freed → (s'.slot c₀ j₀).phase = .freed)
    (hreturned : (s.slot c₀ j₀).phase ≠ .new → (s'.slot c₀ j₀).phase ≠ .new)
    (hfreed : ∀ c, (s'.chunks.chunk c).freedItems =
      (List.range T).countP fun j => decide ((s'.slot c j).phase = .freed))
    (hfresh : s'.chunks.fresh = s.chunks.fresh) :
    s'.Slots T l ∧ Grows s s' l l := by
  have hval : ∀ c j, (s'.slot c j).value = (s.slot c j).value := by
    intro c j
    rcases eq_or_ne (c, j) (c₀, j₀) with e | hcj
    · obtain ⟨rfl, rfl⟩ := Prod.mk.inj e
      exact hvalue
    · rw [hne c j hcj]
  -- only a slot that is not removed yet gets a distance
  have hrem : ∀ c j, (s.slot c j).Removed →
      (s'.slot c j).item.iterOffset = (s.slot c j).item.iterOffset := by
    intro c j hr
    rcases eq_or_ne (c, j) (c₀, j₀) with e | hcj
    · obtain ⟨rfl, rfl⟩ := Prod.mk.inj e
      rcases hoff with ho | ho
      · exact ho
      · exact absurd hr ho.1
    · rw [hne c j hcj]
  have hphases : ∀ c j, (s.slot c j).phase = .freed → (s'.slot c j).phase = .freed := by
    intro c j hp
    rcases eq_or_ne (c, j) (c₀, j₀) with e | hcj
    · obtain ⟨rfl, rfl⟩ := Prod.mk.inj e
      exact hphase hp
    · rw [hne c j hcj]
      exact hp
  have g : Grows s s' l l := by
    refine ⟨fun _ hc => hc, fun _ hb => .inl hb, hfresh.ge, fun c _ => (hnext c).ge,
      fun c j _ => hval c j, hrem, hphases, ?_, fun c _ hd => (hdel c).trans hd⟩
    intro c j hp
    rcases eq_or_ne (c, j) (c₀, j₀) with e | hcj
    · obtain ⟨rfl, rfl⟩ := Prod.mk.inj e
      exact hreturned hp
    · rw [hne c j hcj]
      exact hp
  refine ⟨⟨?_, ?_, ?_, hfreed, ?_⟩, g⟩
  · intro c j
    rcases eq_or_ne (c, j) (c₀, j₀) with e | hcj
    · obtain ⟨rfl, rfl⟩ := Prod.mk.inj e
      exact hok
    · rw [hne c j hcj, href c j hcj]
      exact h.ok c j
  · intro c j hv
    rw [hval] at hv
    rw [hnext]
    exact h.reserved c j hv
  · intro c j hr k hk hlt
    rcases eq_or_ne (c, j) (c₀, j₀) with e | hcj
    · obtain ⟨rfl, rfl⟩ := Prod.mk.inj e
      rcases hoff with ho | ⟨hnot, ho⟩
      · have hr' : (s.slot c j).Removed := by
          refine ⟨(hval c j) ▸ hr.1, ?_⟩
          rw [← ho]
          exact hr.2
        rw [ho] at hlt
        exact g.stays (h.skips c j hr' k hk hlt)
      · rcases Nat.eq_or_lt_of_le hk with rfl | hkj
        · exact hr
        · exact g.stays (ho k hkj hlt)
    · rw [hne c j hcj] at hr hlt
      exact g.stays (h.skips c j hr k hk hlt)
  · intro c hd j hj
    rw [hdel] at hd
    exact hphases c j (h.deleted c hd j hj)

variable [DecidableEq ι]

theorem place_update {i : ι} {p : Place} (hplace : s'.place = update s.place i p) (k : ι) :
    s'.place k = if k = i then p else s.place k := by
  rw [hplace]
  rcases eq_or_ne k i with rfl | hne
  · rw [update_self, if_pos rfl]
  · rw [update_of_ne hne, if_neg hne]

/-- Thread `i` goes to the place `p`. -/
theorem Threads.step (h : s.Threads T l) (g : Grows s s' l l') {i : ι} {p : Place}
    (hplace : s'.place = update s.place i p)
    (htok : ∀ t ∈ p.tokens, t ∈ (s.place i).tokens ∨ ∀ k, t ∉ (s.place k).tokens)
    (hok : s'.PlaceOk T l' i p)
    (hslot : ∀ k ≠ i, ∀ c j, .slot c j ∈ (s.place k).tokens →
      (s'.slot c j).view = (s.slot c j).view)
    (hchunk : ∀ k ≠ i, ∀ n, .chunk n ∈ (s.place k).tokens → s'.next n = s.next n ∧
      (s'.chunks.chunk n).prev = (s.chunks.chunk n).prev ∧ (n ∉ l → n ∉ l'))
    (happend : ∀ k ≠ i, .append ∈ (s.place k).tokens → s'.chunks.head = s.chunks.head ∧ l' = l)
    (hvalue : ∀ k ≠ i, ∀ c j m, (s'.slot c j).value = some (k, m) → (s.slot c j).value = some (k, m))
    (happended : ∀ c, s'.chunks.head = some c → T < s'.next c → ∃ k, .append ∈ (s'.place k).tokens)
    (hsearched : ∀ c, s'.chunks.head = some c → s'.next c = 0 →
      ∃ k, (s'.place k).searching = true)
    (hunwritten : ∀ c ∈ l', ∀ j < T, j < s'.next c → (s'.slot c j).value = none →
      ∃ k, s'.place k = .publish c j) : s'.Threads T l' where
  unique k k' t hk hk' := by
    rw [place_update hplace] at hk hk'
    split at hk <;> split at hk'
    · rename_i e e'
      exact e.trans e'.symm
    · rename_i e _
      rcases htok t hk with ht | ht
      · exact e.trans (h.unique i k' t ht hk')
      · exact absurd hk' (ht k')
    · rename_i _ e
      rcases htok t hk' with ht | ht
      · exact (h.unique k i t hk ht).trans e.symm
      · exact absurd hk (ht k)
    · exact h.unique k k' t hk hk'
  ok k := by
    rw [place_update hplace]
    split
    · rename_i e
      rw [e]
      exact hok
    · rename_i hne
      exact g.placeOk (h.ok k) (hslot k hne) (hchunk k hne) (happend k hne) (hvalue k hne)
  appended := happended
  searched := hsearched
  unwritten := hunwritten

/-- Thread `i` goes to the place `p`, and the links and the elements stay. -/
theorem Threads.goto (h : s.Threads T l) (g : Grows s s' l l) {i : ι} {p : Place}
    (hplace : s'.place = update s.place i p)
    (happ : .append ∈ (s.place i).tokens → .append ∈ p.tokens)
    (hsearch : (s.place i).searching = true → p.searching = true)
    (hpub : ∀ c j, s.place i ≠ .publish c j)
    (htok : ∀ t ∈ p.tokens, t ∈ (s.place i).tokens ∨ ∀ k, t ∉ (s.place k).tokens)
    (hok : s'.PlaceOk T l i p) (hhead : s'.chunks.head = s.chunks.head)
    (hnext : ∀ c, s'.next c = s.next c)
    (hvalue : ∀ c j, (s'.slot c j).value = (s.slot c j).value)
    (hprev : ∀ k ≠ i, ∀ n, .chunk n ∈ (s.place k).tokens →
      (s'.chunks.chunk n).prev = (s.chunks.chunk n).prev)
    (hslot : ∀ k ≠ i, ∀ c j, .slot c j ∈ (s.place k).tokens →
      (s'.slot c j).view = (s.slot c j).view) : s'.Threads T l := by
  refine h.step g hplace htok hok hslot (fun k hk n hn => ⟨hnext n, hprev k hk n hn, fun e => e⟩)
    (fun _ _ _ => ⟨hhead, rfl⟩) (fun k _ c j m hv => (hvalue c j).symm.trans hv) ?_ ?_ ?_
  · intro c hc hlt
    rw [hhead] at hc
    rw [hnext] at hlt
    obtain ⟨k, hk⟩ := h.appended c hc hlt
    refine ⟨k, ?_⟩
    rw [place_update hplace]
    split
    · rename_i e
      exact happ (e ▸ hk)
    · exact hk
  · intro c hc hz
    rw [hhead] at hc
    rw [hnext] at hz
    obtain ⟨k, hk⟩ := h.searched c hc hz
    refine ⟨k, ?_⟩
    rw [place_update hplace]
    split
    · rename_i e
      exact hsearch (e ▸ hk)
    · exact hk
  · intro c hc j hj hlt hnone
    rw [hnext] at hlt
    rw [hvalue] at hnone
    obtain ⟨k, hk⟩ := h.unwritten c hc j hj hlt hnone
    refine ⟨k, ?_⟩
    rw [place_update hplace]
    split
    · rename_i e
      exact absurd (e ▸ hk) (hpub c j)
    · exact hk

omit [DecidableEq ι] in
/-- No thread moves, and the links and the elements stay. -/
theorem Threads.stay (h : s.Threads T l) (g : Grows s s' l l) (hplace : s'.place = s.place)
    (hhead : s'.chunks.head = s.chunks.head) (hnext : ∀ c, s'.next c = s.next c)
    (hvalue : ∀ c j, (s'.slot c j).value = (s.slot c j).value)
    (hprev : ∀ k n, .chunk n ∈ (s.place k).tokens →
      (s'.chunks.chunk n).prev = (s.chunks.chunk n).prev)
    (hslot : ∀ k c j, .slot c j ∈ (s.place k).tokens → (s'.slot c j).view = (s.slot c j).view) :
    s'.Threads T l where
  unique := by
    rw [hplace]
    exact h.unique
  ok k := by
    rw [hplace]
    exact g.placeOk (h.ok k) (hslot k) (fun n hn => ⟨hnext n, hprev k n hn, fun e => e⟩)
      (fun _ => ⟨hhead, rfl⟩) fun c j m hv => (hvalue c j).symm.trans hv
  appended c hc hlt := by
    rw [hhead] at hc
    rw [hnext] at hlt
    rw [hplace]
    exact h.appended c hc hlt
  searched c hc hz := by
    rw [hhead] at hc
    rw [hnext] at hz
    rw [hplace]
    exact h.searched c hc hz
  unwritten c hc j hj hlt hnone := by
    rw [hnext] at hlt
    rw [hvalue] at hnone
    rw [hplace]
    exact h.unwritten c hc j hj hlt hnone

/-- Thread `i` goes to the place `p` and changes at most one slot, whose element
stays. -/
theorem Inv.setSlot (h : s.Inv T l) {i : ι} {q p : Place} (c₀ j₀ : Nat) (hi : s.place i = q)
    (hgo : q.Follows p)
    (hplace : s'.place = update s.place i p) (hlinks : SameLinks s s') (hscan : SameScan s s')
    (hcalls : s'.calls = s.calls)
    (hne : ∀ c j, (c, j) ≠ (c₀, j₀) → s'.slot c j = s.slot c j)
    (hvalue : (s'.slot c₀ j₀).value = (s.slot c₀ j₀).value)
    (hok : (s'.slot c₀ j₀).Ok (s.scan.ref c₀ j₀))
    (hoff : (s'.slot c₀ j₀).item.iterOffset = (s.slot c₀ j₀).item.iterOffset ∨
      (¬ (s.slot c₀ j₀).Removed ∧
        ∀ k < j₀, j₀ < k + (s'.slot c₀ j₀).item.iterOffset → (s.slot c₀ k).Removed))
    (hphase : (s.slot c₀ j₀).phase = .freed → (s'.slot c₀ j₀).phase = .freed)
    (hreturned : (s.slot c₀ j₀).phase ≠ .new → (s'.slot c₀ j₀).phase ≠ .new)
    (hfreed : ∀ c, (s'.chunks.chunk c).freedItems =
      (List.range T).countP fun j => decide ((s'.slot c j).phase = .freed))
    (hfree : ∀ k ≠ i, .slot c₀ j₀ ∉ (s.place k).tokens)
    (htok : ∀ t ∈ p.tokens, t ∈ q.tokens ∨ t = .slot c₀ j₀ ∧ .slot c₀ j₀ ∉ q.tokens)
    (hp : Grows s s' l l → s'.PlaceOk T l i p) : s'.Inv T l := by
  subst hi
  obtain ⟨hslots, g⟩ := h.slots.set c₀ j₀ hlinks.next hlinks.deleted hne hvalue
    (by rw [hscan.scan]; exact hok) (fun c j _ => by rw [hscan.scan]) hoff hphase hreturned hfreed
    hlinks.fresh
  have hval : ∀ c j, (s'.slot c j).value = (s.slot c j).value := by
    intro c j
    rcases eq_or_ne (c, j) (c₀, j₀) with e | hcj
    · obtain ⟨rfl, rfl⟩ := Prod.mk.inj e
      exact hvalue
    · rw [hne c j hcj]
  refine ⟨h.chain.mono g hlinks.head fun c _ => .inl (hlinks.prev c), hslots,
    h.elements.congr hval hcalls ?_, ?_, g.walk hscan.scan hscan.before hscan.visited h.walk⟩
  · intro k
    rw [place_update hplace]
    split
    · rename_i e
      rw [hgo.unpublished, e]
    · rfl
  · refine h.threads.goto g hplace hgo.append hgo.searching hgo.publish ?_ (hp g) hlinks.head
      hlinks.next hval (fun _ _ n _ => hlinks.prev n) ?_
    · intro t ht
      rcases htok t ht with ht | ⟨rfl, hi⟩
      · exact .inl ht
      · refine .inr fun k hk => ?_
        rcases eq_or_ne k i with rfl | hki
        · exact hi hk
        · exact hfree k hki hk
    · intro k hki c j hk
      rw [hne c j fun e => ?_]
      obtain ⟨rfl, rfl⟩ := Prod.mk.inj e
      exact hfree k hki hk

/-- Thread `i` goes to the place `p`, and nothing else changes. -/
theorem Inv.goto (h : s.Inv T l) {i : ι} {q p : Place} (hi : s.place i = q) (hgo : q.Follows p)
    (htok : ∀ t ∈ p.tokens, t ∈ q.tokens) (hp : s.PlaceOk T l i p) :
    Inv T { s with place := update s.place i p } l := by
  subst hi
  have hlinks : SameLinks s { s with place := update s.place i p } :=
    ⟨rfl, rfl, fun _ => rfl, fun _ => rfl, fun _ => rfl⟩
  have g : Grows s { s with place := update s.place i p } l l :=
    Grows.of_same hlinks fun _ _ => rfl
  refine ⟨h.chain.mono g rfl fun c _ => .inl rfl, ⟨h.slots.ok, h.slots.reserved, h.slots.skips,
    h.slots.freed, h.slots.deleted⟩, h.elements.congr (fun _ _ => rfl) rfl ?_,
    h.threads.goto g rfl hgo.append hgo.searching hgo.publish (fun t ht => .inl (htok t ht)) ?_ rfl
      (fun _ => rfl) (fun _ _ => rfl) (fun _ _ _ _ => rfl) (fun _ _ _ _ _ => rfl),
    g.walk rfl rfl rfl h.walk⟩
  · intro k
    rw [place_update (s := s) rfl]
    split
    · rename_i e
      rw [hgo.unpublished, e]
    · rfl
  · exact g.placeOk hp (fun _ _ _ => rfl) (fun _ _ => ⟨rfl, rfl, fun e => e⟩) (fun _ => ⟨rfl, rfl⟩)
      fun _ _ _ hv => hv

end Frames

end Crowd

end RedGrapes.ChunkedList
