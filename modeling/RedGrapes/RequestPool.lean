/-
RedGrapes/RequestPool.lean

The pool of outstanding MPI requests (`dispatch/mpi/request_pool.hpp`).

`get_status` appends a request, the event its task waits for and the place for its status to
three vectors.  `poll` asks `MPI_Testsome` which of the requests are complete, and for each of
them stores the status, notifies the event and erases the entry from the three vectors.  Erasing
an entry moves all later ones, so the loop also decrements the indices that are still to come.

`MPI_Testsome` is a parameter.  `Testsome.Documented` is what it promises: distinct indices of
requests, and the requests that are not complete are left as they are.

The entries are followed under their first position.  A round keeps two facts (`Upto`): the
vectors hold the entries that are not erased yet, in their order, and each index that is still to
come stands where its entry is now (`getElem?_eraseIdx_shift`).
-/
import RedGrapes.Lib.Machine

namespace RedGrapes.RequestPool

/-! ### The pool -/

/-- The three vectors of the pool; a status is given by the place it is stored at. -/
structure Pool (Req Event Cell : Type) where
  requests : List Req
  events : List Event
  statuses : List Cell

/-- What the result arguments of `MPI_Testsome` hold after the call. -/
structure Testsome (Req Status : Type) where
  requests : List Req
  outcount : Int
  indices : List Nat
  outStatuses : List Status

/-- What a call does to the tasks that wait. -/
inductive Effect (Event Cell Status : Type)
  | store (cell : Cell) (status : Status)
  | notify (event : Event)
deriving DecidableEq

/-- The local state of the loop: the pool, the indices and what was done so far. -/
structure Polling (Req Event Cell Status : Type) where
  pool : Pool Req Event Cell
  indices : List Nat
  log : List (Effect Event Cell Status)

section Poll

variable {Req Event Cell Status : Type}

/-- The inner loop: the indices from the `i`-th on that lie behind `idx` are decremented. -/
def shift (indices : List Nat) (outcount i idx : Nat) : List Nat :=
  indices.mapIdx fun j k => if i ≤ j ∧ j < outcount ∧ idx < k then k - 1 else k

/-- The `i`-th round of the loop.  There is no result if an access is out of range. -/
def pollRound (out : Testsome Req Status) (s : Polling Req Event Cell Status) (i : Nat) :
    Option (Polling Req Event Cell Status) := do
  let idx ← s.indices[i]?
  let cell ← s.pool.statuses[idx]?
  let status ← out.outStatuses[i]?
  let event ← s.pool.events[idx]?
  let _ ← s.pool.requests[idx]?
  some {
    pool := {
      requests := s.pool.requests.eraseIdx idx
      events := s.pool.events.eraseIdx idx
      statuses := s.pool.statuses.eraseIdx idx }
    indices := shift s.indices out.outcount.toNat i idx
    log := s.log ++ [.store cell status, .notify event] }

/-- `poll`: the pool after it, and what it did. -/
def poll (testsome : List Req → Testsome Req Status) (pool : Pool Req Event Cell) :
    Option (Pool Req Event Cell × List (Effect Event Cell Status)) :=
  if pool.requests.isEmpty then some (pool, [])
  else
    let out := testsome pool.requests
    ((List.range out.outcount.toNat).foldlM (pollRound out)
      ⟨{ pool with requests := out.requests }, out.indices, []⟩).map fun s => (s.pool, s.log)

/-- `get_status` up to the call of `yield`. -/
def addRequest (pool : Pool Req Event Cell) (request : Req) (event : Event) (status : Cell) :
    Pool Req Event Cell where
  requests := pool.requests ++ [request]
  events := pool.events ++ [event]
  statuses := pool.statuses ++ [status]

/-- The indices of the completed requests. -/
def Testsome.completed (out : Testsome Req Status) : List Nat := out.indices.take out.outcount.toNat

/-- What `MPI_Testsome` promises for a list of requests. -/
structure Testsome.Documented (requests : List Req) (out : Testsome Req Status) : Prop where
  outcount : out.outcount ≤ requests.length
  indices : out.indices.length = requests.length
  outStatuses : out.outStatuses.length = requests.length
  length : out.requests.length = requests.length
  inRange : ∀ k ∈ out.completed, k < requests.length
  nodup : out.completed.Nodup
  unchanged : ∀ k, k ∉ out.completed → out.requests[k]? = requests[k]?

/-! ### The entries -/

/-- One entry of the pool. -/
@[ext] structure Entry (Req Event Cell : Type) where
  request : Req
  event : Event
  status : Cell

/-- The pool that holds a list of entries. -/
def Pool.of (entries : List (Entry Req Event Cell)) : Pool Req Event Cell where
  requests := entries.map Entry.request
  events := entries.map Entry.event
  statuses := entries.map Entry.status

/-- The entries at the positions that are not completed, with their positions. -/
def left (entries : List (Entry Req Event Cell)) (completed : List Nat) :
    List (Entry Req Event Cell × Nat) :=
  entries.zipIdx.filter fun e => e.2 ∉ completed

def uncompleted (entries : List (Entry Req Event Cell)) (completed : List Nat) :
    List (Entry Req Event Cell) :=
  (left entries completed).map Prod.fst

/-- What is done for a completed request: its status is stored at its own place, then its event
is notified. -/
def effectsOf (entries : List (Entry Req Event Cell)) (c : Nat × Status) :
    List (Effect Event Cell Status) :=
  match entries[c.1]? with
  | some e => [.store e.status c.2, .notify e.event]
  | none => []

theorem addRequest_of (entries : List (Entry Req Event Cell)) (e : Entry Req Event Cell) :
    addRequest (Pool.of entries) e.request e.event e.status = Pool.of (entries ++ [e]) := by
  simp [addRequest, Pool.of]

/-- Vectors of the same length are those of a list of entries. -/
theorem exists_entries {requests : List Req} {events : List Event} {statuses : List Cell}
    (hevents : events.length = requests.length) (hstatuses : statuses.length = requests.length) :
    ∃ entries, Pool.mk requests events statuses = Pool.of entries := by
  induction requests generalizing events statuses with
  | nil =>
      rw [List.length_nil, List.length_eq_zero_iff] at hevents hstatuses
      rw [hevents, hstatuses]
      exact ⟨[], rfl⟩
  | cons r requests ih =>
      obtain ⟨e, events, rfl⟩ := List.exists_cons_of_length_eq_add_one hevents
      obtain ⟨s, statuses, rfl⟩ := List.exists_cons_of_length_eq_add_one hstatuses
      obtain ⟨entries, h⟩ := ih (Nat.succ.inj hevents) (Nat.succ.inj hstatuses)
      obtain ⟨hr, he, hs⟩ := Pool.mk.inj h
      refine ⟨⟨r, e, s⟩ :: entries, ?_⟩
      simp [Pool.of, hr, he, hs]

end Poll

/-! ### Erasing one entry -/

section Erase

variable {α κ : Type} [DecidableEq κ]

/-- An index of another entry, decremented if it lies behind the erased one, stands at the same
entry as before. -/
theorem getElem?_eraseIdx_shift (l : List α) {i k : Nat} (h : k ≠ i) :
    (l.eraseIdx i)[if i < k then k - 1 else k]? = l[k]? := by
  rw [List.getElem?_eraseIdx]
  by_cases hlt : i < k
  · rw [if_pos hlt, if_neg (by omega), show k - 1 + 1 = k by omega]
  · rw [if_neg hlt, if_pos (by omega)]

/-- Entries with different keys: erasing one leaves those with other keys. -/
theorem eraseIdx_eq_filter {key : α → κ} {l : List α} (hnodup : (l.map key).Nodup) {i : Nat} {a : α}
    (h : l[i]? = some a) : l.eraseIdx i = l.filter fun b => key b ≠ key a := by
  induction l generalizing i with
  | nil => cases h
  | cons b l ih =>
      rw [List.map_cons, List.nodup_cons] at hnodup
      cases i with
      | zero =>
          obtain rfl : b = a := by simpa using h
          rw [List.eraseIdx_cons_zero, List.filter_cons_of_neg (by simp), List.filter_eq_self.mpr]
          intro c hc
          have : key c ≠ key b := fun e => hnodup.1 (e ▸ List.mem_map_of_mem hc)
          simpa using this
      | succ i =>
          rw [List.getElem?_cons_succ] at h
          have hne : key b ≠ key a := fun e =>
            hnodup.1 (e ▸ List.mem_map_of_mem (List.mem_of_getElem? h))
          rw [List.eraseIdx_cons_succ, List.filter_cons_of_pos (by simpa using hne), ih hnodup.2 h]

end Erase

/-! ### One round -/

section Round

variable {Req Event Cell Status : Type} {entries : List (Entry Req Event Cell)}
  {out : Testsome Req Status} {s : Polling Req Event Cell Status} {m : Nat}

theorem nodup_left (entries : List (Entry Req Event Cell)) (completed : List Nat) :
    ((left entries completed).map Prod.snd).Nodup := by
  refine List.Nodup.sublist (List.filter_sublist.map Prod.snd) ?_
  rw [List.zipIdx_map_snd]
  exact List.nodup_range'

/-- One more position is completed. -/
theorem left_concat (entries : List (Entry Req Event Cell)) (completed : List Nat) (p : Nat) :
    left entries (completed ++ [p]) = (left entries completed).filter fun e => e.2 ≠ p := by
  unfold left
  rw [List.filter_filter]
  refine List.filter_congr fun e _ => ?_
  simp [and_comm]

/-- The state of the loop after `m` rounds. -/
structure Upto (entries : List (Entry Req Event Cell)) (out : Testsome Req Status) (m : Nat)
    (s : Polling Req Event Cell Status) : Prop where
  pool : s.pool = Pool.of (uncompleted entries (out.completed.take m))
  indices : ∀ j p, m ≤ j → out.completed[j]? = some p → ∃ k e, s.indices[j]? = some k ∧
    entries[p]? = some e ∧ (left entries (out.completed.take m))[k]? = some (e, p)
  log : s.log = ((out.completed.zip out.outStatuses).take m).flatMap (effectsOf entries)

/-- What `poll` starts with. -/
theorem Upto.start (hrange : ∀ k ∈ out.completed, k < entries.length) :
    Upto entries out 0 ⟨Pool.of entries, out.indices, []⟩ where
  pool := by simp [uncompleted, left]
  log := rfl
  indices := by
    intro j p _ hp
    have hlt := hrange p (List.mem_of_getElem? hp)
    refine ⟨p, entries[p], ?_, List.getElem?_eq_getElem hlt, ?_⟩
    · obtain ⟨hj, -⟩ := List.getElem?_eq_some_iff.mp hp
      rw [Testsome.completed, List.getElem?_take_of_lt (hj.trans_le (List.length_take_le _ _))] at hp
      exact hp
    · simp [left, hlt]

/-- A round does what is due for the next completed request. -/
theorem Upto.round (h : Upto entries out m s) (hnodup : out.completed.Nodup)
    (hm : m < out.completed.length) (hstatuses : out.completed.length ≤ out.outStatuses.length) :
    ∃ s', pollRound out s m = some s' ∧ Upto entries out (m + 1) s' := by
  have hp := List.getElem?_eq_getElem hm
  generalize out.completed[m] = p at hp
  obtain ⟨k, e, hk, he, hleft⟩ := h.indices m p le_rfl hp
  have hst := List.getElem?_eq_getElem (hm.trans_le hstatuses)
  generalize out.outStatuses[m] = st at hst
  -- the entry at the index is that of the request
  have hentry : ∀ {β : Type} (f : Entry Req Event Cell → β),
      ((uncompleted entries (out.completed.take m)).map f)[k]? = some (f e) := by
    intro β f
    rw [uncompleted, List.map_map, List.getElem?_map, hleft]
    rfl
  have htake : out.completed.take (m + 1) = out.completed.take m ++ [p] := by
    rw [List.take_add_one, hp]
    rfl
  have herase : (left entries (out.completed.take m)).eraseIdx k =
      left entries (out.completed.take (m + 1)) := by
    rw [htake, left_concat, eraseIdx_eq_filter (nodup_left _ _) hleft]
  have hpool : ∀ {β : Type} (f : Entry Req Event Cell → β),
      ((uncompleted entries (out.completed.take m)).map f).eraseIdx k =
        (uncompleted entries (out.completed.take (m + 1))).map f := by
    intro β f
    rw [uncompleted, uncompleted, List.eraseIdx_map, List.eraseIdx_map, herase]
  refine ⟨⟨Pool.of (uncompleted entries (out.completed.take (m + 1))),
    shift s.indices out.outcount.toNat m k, s.log ++ [.store e.status st, .notify e.event]⟩, ?_, rfl,
    ?_, ?_⟩
  · simp only [pollRound, h.pool, Pool.of, hk, hst, hentry, hpool, Option.bind_eq_bind,
      Option.bind_some]
  · -- an index that is still to come
    intro j q hj hq
    obtain ⟨k', e', hk', he', hleft'⟩ := h.indices j q (by omega) hq
    have hqp : q ≠ p := by
      rintro rfl
      have := (List.nodup_iff_getElem?_ne_getElem?.mp hnodup) m j (by omega)
        (List.getElem?_eq_some_iff.mp hq).1
      exact this (hp.trans hq.symm)
    have hkk : k' ≠ k := by
      rintro rfl
      rw [hleft] at hleft'
      exact hqp (Prod.mk.inj (Option.some.inj hleft')).2.symm
    refine ⟨if k < k' then k' - 1 else k', e', ?_, he', ?_⟩
    · have hcount : j < out.outcount.toNat :=
        (List.getElem?_eq_some_iff.mp hq).1.trans_le (List.length_take_le _ _)
      rw [shift, List.getElem?_mapIdx, hk']
      simp only [Option.map_some, show m ≤ j by omega, hcount, true_and]
    · rw [← herase, getElem?_eraseIdx_shift _ hkk, hleft']
  · have hzip : (out.completed.zip out.outStatuses)[m]? = some (p, st) :=
      List.getElem?_zip_eq_some.mpr ⟨hp, hst⟩
    show s.log ++ _ = _
    rw [List.take_add_one, hzip, List.flatMap_append, ← h.log]
    simp [effectsOf, he]

/-- All rounds up to the `m`-th. -/
theorem Upto.rounds {s₀ : Polling Req Event Cell Status} (h : Upto entries out 0 s₀)
    (hnodup : out.completed.Nodup) (hstatuses : out.completed.length ≤ out.outStatuses.length) :
    ∀ m ≤ out.completed.length,
      ∃ s, (List.range m).foldlM (pollRound out) s₀ = some s ∧ Upto entries out m s := by
  intro m
  induction m with
  | zero => exact fun _ => ⟨s₀, rfl, h⟩
  | succ m ih =>
      intro hm
      obtain ⟨s, hrun, hupto⟩ := ih (by omega)
      obtain ⟨s', hround, hupto'⟩ := hupto.round hnodup (by omega) hstatuses
      refine ⟨s', ?_, hupto'⟩
      rw [List.range_succ, List.foldlM_append, hrun]
      simpa using hround

end Round

/-! ### The whole call -/

section Call

variable {Req Event Cell Status : Type} {entries entries' : List (Entry Req Event Cell)}

/-- `MPI_Testsome` may change the completed requests, and these are not left. -/
theorem left_congr {completed : List Nat} (hlength : entries'.length = entries.length)
    (h : ∀ k, k ∉ completed → entries'[k]? = entries[k]?) :
    left entries' completed = left entries completed := by
  have hfrom : ∀ (l' l : List (Entry Req Event Cell)) (i : Nat), l'.length = l.length →
      (∀ k, i + k ∉ completed → l'[k]? = l[k]?) →
      (l'.zipIdx i).filter (fun e => e.2 ∉ completed) =
        (l.zipIdx i).filter fun e => e.2 ∉ completed := by
    intro l'
    induction l' with
    | nil =>
        intro l i hlen _
        rw [List.length_eq_zero_iff.mp hlen.symm]
    | cons a' l' ih =>
        intro l i hlen hget
        obtain ⟨a, l, rfl⟩ := List.exists_cons_of_length_eq_add_one hlen.symm
        have htail := ih l (i + 1) (Nat.succ.inj hlen) fun k hk => by
          simpa using hget (k + 1) (by rwa [show i + (k + 1) = i + 1 + k by omega])
        -- a completed position is in neither list, and at another the entries agree
        by_cases hi : i ∈ completed
        · simpa [List.zipIdx_cons, List.filter_cons, hi] using htail
        · obtain rfl : a' = a := by simpa using hget 0 hi
          simpa [List.zipIdx_cons, List.filter_cons, hi] using htail
  exact hfrom entries' entries 0 hlength fun k hk => h k (by rwa [Nat.zero_add] at hk)

theorem Entry.getElem?_ext {e e' : Option (Entry Req Event Cell)}
    (hr : e'.map Entry.request = e.map Entry.request) (he : e'.map Entry.event = e.map Entry.event)
    (hs : e'.map Entry.status = e.map Entry.status) : e' = e := by
  cases e' with
  | none => exact (Option.map_eq_none_iff.mp hr.symm).symm
  | some e' =>
      obtain ⟨e, rfl, hrequest⟩ := Option.map_eq_some_iff.mp hr.symm
      exact congrArg some (Entry.ext hrequest.symm (Option.some.inj he) (Option.some.inj hs))

/-- The effects depend on the events and the places of the statuses only. -/
theorem effectsOf_congr (hevents : entries'.map Entry.event = entries.map Entry.event)
    (hstatuses : entries'.map Entry.status = entries.map Entry.status) :
    (effectsOf entries' : Nat × Status → _) = effectsOf entries := by
  funext c
  have he : (entries'.map Entry.event)[c.1]? = (entries.map Entry.event)[c.1]? := by rw [hevents]
  have hs : (entries'.map Entry.status)[c.1]? = (entries.map Entry.status)[c.1]? := by
    rw [hstatuses]
  rw [List.getElem?_map, List.getElem?_map] at he hs
  unfold effectsOf
  cases h' : entries'[c.1]? with
  | none =>
      rw [h'] at he
      rw [Option.map_eq_none_iff.mp he.symm]
  | some e' =>
      rw [h'] at he hs
      obtain ⟨e, h, hevent⟩ := Option.map_eq_some_iff.mp he.symm
      rw [h] at hs ⊢
      have hstatus : e'.status = e.status := Option.some.inj hs
      simp only [hevent, hstatus]

namespace Testsome.Documented

variable {out : Testsome Req Status}

theorem length_completed {requests : List Req} (h : out.Documented requests) :
    out.completed.length = out.outcount.toNat := by
  rw [Testsome.completed, List.length_take, h.indices]
  have := h.outcount
  omega

/-- The loop of `poll`. -/
theorem loop (h : out.Documented (entries.map Entry.request)) :
    ∃ s, (List.range out.outcount.toNat).foldlM (pollRound out)
        ⟨{ Pool.of entries with requests := out.requests }, out.indices, []⟩ = some s ∧
      s.pool = Pool.of (uncompleted entries out.completed) ∧
      s.log = (out.completed.zip out.outStatuses).flatMap (effectsOf entries) := by
  have hlen : entries.length = out.requests.length := by rw [h.length, List.length_map]
  -- the entries with the requests as `MPI_Testsome` leaves them
  obtain ⟨entries', hpool⟩ : ∃ entries', Pool.mk out.requests (entries.map Entry.event)
      (entries.map Entry.status) = Pool.of entries' :=
    exists_entries (by rw [List.length_map, hlen]) (by rw [List.length_map, hlen])
  obtain ⟨hrequests, hevents, hstatuses⟩ := Pool.mk.inj hpool
  have hlength : entries'.length = entries.length := by
    rw [hlen, hrequests, List.length_map]
  have hsame : ∀ k, k ∉ out.completed → entries'[k]? = entries[k]? := by
    intro k hk
    have hr : (entries'.map Entry.request)[k]? = (entries.map Entry.request)[k]? := by
      rw [← hrequests, h.unchanged k hk]
    have he : (entries'.map Entry.event)[k]? = (entries.map Entry.event)[k]? := by rw [hevents]
    have hs : (entries'.map Entry.status)[k]? = (entries.map Entry.status)[k]? := by rw [hstatuses]
    simp only [List.getElem?_map] at hr he hs
    exact Entry.getElem?_ext hr he hs
  have hstart : Upto entries' out 0 ⟨Pool.of entries', out.indices, []⟩ := by
    refine Upto.start fun k hk => ?_
    have := h.inRange k hk
    rw [List.length_map] at this
    omega
  have hle : out.completed.length ≤ out.outStatuses.length := by
    rw [h.outStatuses, h.length_completed]
    have := h.outcount
    omega
  obtain ⟨s, hrun, hupto⟩ := hstart.rounds h.nodup hle _ le_rfl
  refine ⟨s, ?_, ?_, ?_⟩
  · rw [← h.length_completed, show { Pool.of entries with requests := out.requests } = Pool.of entries'
      from hpool, hrun]
  · rw [hupto.pool, List.take_length, uncompleted, left_congr hlength hsame]
    rfl
  · rw [hupto.log, effectsOf_congr hevents.symm hstatuses.symm, List.take_of_length_le]
    rw [List.length_zip]
    exact Nat.min_le_left _ _

end Testsome.Documented

/-- **`poll` keeps its vectors aligned.**  Whatever indices `MPI_Testsome` gives and in whatever
order, `poll` stores the status of each completed request at that request's own place and then
notifies its event, once for each, and leaves in all three vectors the uncompleted entries, in
their order. -/
theorem poll_keeps_aligned {testsome : List Req → Testsome Req Status}
    (h : (testsome (entries.map Entry.request)).Documented (entries.map Entry.request)) :
    let out := testsome (entries.map Entry.request)
    poll testsome (Pool.of entries) =
      some (Pool.of (uncompleted entries out.completed),
        (out.completed.zip out.outStatuses).flatMap (effectsOf entries)) := by
  intro out
  -- an empty pool does not ask `MPI_Testsome`
  by_cases hempty : entries = []
  · subst hempty
    have hnil : out.completed = [] :=
      List.take_eq_nil_of_eq_nil (List.length_eq_zero_iff.mp h.indices)
    rw [hnil]
    rfl
  · have hsome : (Pool.of entries).requests.isEmpty = false := by
      simpa [Pool.of] using hempty
    obtain ⟨s, hrun, hpool, hlog⟩ := h.loop
    rw [poll, hsome, ← hpool, ← hlog]
    exact congrArg (Option.map fun s => (s.pool, s.log)) hrun

/-- The third and the first of three requests are complete. -/
theorem poll_keeps_aligned_two :
    poll (fun _ => ⟨[0, 22, 0], 2, [2, 0, 0], [true, false, false]⟩)
        (Pool.of [⟨11, 'a', 1⟩, ⟨22, 'b', 2⟩, ⟨33, 'c', 3⟩] : Pool Nat Char Nat) =
      some (Pool.of [⟨22, 'b', 2⟩], [.store 3 true, .notify 'c', .store 1 false, .notify 'a']) := by
  refine poll_keeps_aligned ⟨by decide, rfl, rfl, rfl, by decide, by decide, fun k hk => ?_⟩
  match k with
  | 0 => exact absurd (by decide) hk
  | 1 => rfl
  | 2 => exact absurd (by decide) hk
  | k + 3 => rfl

end Call

end RedGrapes.RequestPool
