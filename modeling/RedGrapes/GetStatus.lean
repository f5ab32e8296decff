/-
RedGrapes/GetStatus.lean

Calls of `RequestPool::get_status` by any number of tasks, and `poll` (`dispatch/mpi/
request_pool.hpp`).

`get_status` makes an event and a place for the status, registers both with the request under the
mutex, yields until the event is reached, and returns what is in the place.  `poll` holds the mutex
while it stores statuses and notifies events one after the other, and between any two of these
effects other requests are started and tasks whose events are reached go on.

The `k`-th call has the event `k` and the place `k`.

  entry in the pool  →  `store k st`, `notify k` due  →  `notify k` due  →  notified

A call is at exactly one of these stages (`Inv.once`), and a `notify k` stands right behind the
`store` for the same place, or the place has its status by then (`Inv.todo`).  MPI gives the handle
of a completed request to a later one, so that a handle tells the calls in the pool apart but not
the calls of a run.

* `get_status_returns_own` — every call that returns has the status of its own request, no event is
  notified twice, and no call gets lost.
-/
import RedGrapes.RequestPool

namespace RedGrapes.RequestPool

open Function Machine

/-! ### The completed entries -/

section Completed

variable {Req Event Cell Status : Type} {entries : List (Entry Req Event Cell)}
  {out : Testsome Req Status}

/-- The entries at the completed positions, in the order in which MPI reports them. -/
def done (entries : List (Entry Req Event Cell)) (completed : List Nat) :
    List (Entry Req Event Cell) :=
  completed.filterMap fun c => entries[c]?

/-- Every entry is left or done. -/
theorem perm_uncompleted_append_done {completed : List Nat} (hnodup : completed.Nodup) :
    (uncompleted entries completed ++ done entries completed).Perm entries := by
  -- the same with the positions, which tell the entries apart
  have hdone : (entries.zipIdx.filter fun e => !decide (e.2 ∉ completed)).Perm
      (completed.filterMap fun c => entries[c]?.map fun e => (e, c)) := by
    refine (List.perm_ext_iff_of_nodup ?_ ?_).mpr fun e => ?_
    · refine List.Nodup.filter _ (List.Nodup.of_map Prod.snd ?_)
      rw [List.zipIdx_map_snd]
      exact List.nodup_range'
    · refine hnodup.filterMap fun c c' e he he' => ?_
      obtain ⟨_, -, rfl⟩ := Option.map_eq_some_iff.mp he
      obtain ⟨_, -, h⟩ := Option.map_eq_some_iff.mp he'
      exact (Prod.mk.inj h).2.symm
    · obtain ⟨e, c⟩ := e
      simp only [List.mem_filter, List.mem_zipIdx_iff_getElem?, List.mem_filterMap,
        Option.map_eq_some_iff, Prod.mk.injEq]
      constructor
      · rintro ⟨he, hc⟩
        exact ⟨c, by simpa using hc, e, he, rfl, rfl⟩
      · rintro ⟨_, hc, _, he, rfl, rfl⟩
        exact ⟨he, by simpa using hc⟩
  have hall := (hdone.symm.append_left _).trans
    (List.filter_append_perm (fun e => decide (e.2 ∉ completed)) entries.zipIdx)
  have hmap := hall.map Prod.fst
  rw [List.map_append, List.zipIdx_map_fst] at hmap
  have hfst : (completed.filterMap fun c => entries[c]?.map fun e => (e, c)).map Prod.fst =
      done entries completed := by
    simp [done, List.map_filterMap, Function.comp_def]
  rw [hfst] at hmap
  exact hmap

/-- `poll` with what MPI promises. -/
theorem poll_of (h : out.Documented (entries.map Entry.request)) :
    poll (fun _ => out) (Pool.of entries) = some (Pool.of (uncompleted entries out.completed),
      (out.completed.zip out.outStatuses).flatMap (effectsOf entries)) := by
  cases entries with
  | nil =>
      have hnil : out.completed = [] :=
        List.take_eq_nil_of_eq_nil (List.length_eq_zero_iff.mp h.indices)
      rw [hnil]
      rfl
  | cons e entries =>
      obtain ⟨s, hrun, hpool, hlog⟩ := h.loop
      rw [← hpool, ← hlog]
      exact congrArg (Option.map fun s => (s.pool, s.log)) hrun

end Completed

/-! ### The calls -/

/-- The pool, the thread in `poll`, the calls and the requests of MPI. -/
structure Calls (Req Status : Type) where
  /-- The requests that are started and not reported yet, with the statuses they complete with. -/
  started : Req → Option Status
  /-- For every call of `get_status` the status of its request. -/
  calls : List Status
  pool : Pool Req Nat Nat
  /-- What the thread that holds the mutex in `poll` is still to do. -/
  todo : List (Effect Nat Nat Status)
  cells : Nat → Option Status
  notified : Nat → Nat
  /-- The calls that are in `yield`. -/
  waiting : List Nat
  returned : List (Nat × Option Status)

inductive CallsAction (Req Status : Type)
  | start (r : Req) (status : Status)
  | getStatus (r : Req)
  | poll (out : Testsome Req Status)
  | go
  | resume (k : Nat)

namespace Calls

variable {Req Status : Type}

/-- One effect of `poll`. -/
def perform (s : Calls Req Status) : Effect Nat Nat Status → Calls Req Status
  | .store cell status => { s with cells := update s.cells cell (some status) }
  | .notify event => { s with notified := update s.notified event (s.notified event + 1) }

/-- MPI frees the handles of the completed requests. -/
def free [DecidableEq Req] (started : Req → Option Status) (requests : List Req) :
    Req → Option Status :=
  fun r => if r ∈ requests then none else started r

def step [DecidableEq Req] (s : Calls Req Status) :
    CallsAction Req Status → Option (Calls Req Status)
  | .start r status => some { s with started := update s.started r (some status) }
  | .getStatus r =>
      match s.started r with
      | none => none
      | some status =>
          if s.todo.isEmpty then some { s with
            calls := s.calls ++ [status]
            pool := addRequest s.pool r s.calls.length s.calls.length
            waiting := s.calls.length :: s.waiting }
          else none
  | .poll out =>
      if s.todo.isEmpty then
        (RequestPool.poll (fun _ => out) s.pool).map fun p => { s with
          started := free s.started (out.completed.filterMap fun c => s.pool.requests[c]?)
          pool := p.1
          todo := p.2 }
      else none
  | .go =>
      match s.todo with
      | [] => none
      | e :: rest => some ({ s with todo := rest }.perform e)
  | .resume k =>
      -- the task goes on once its event is reached
      if k ∈ s.waiting ∧ 0 < s.notified k then some { s with
        waiting := s.waiting.erase k
        returned := (k, s.cells k) :: s.returned }
      else none

def initial : Calls Req Status where
  started := fun _ => none
  calls := []
  pool := ⟨[], [], []⟩
  todo := []
  cells := fun _ => none
  notified := fun _ => 0
  waiting := []
  returned := []

/-- MPI does not give a handle that is in use, nobody waits twice for a request, and `MPI_Testsome`
reports requests with their statuses. -/
def Legal (s : Calls Req Status) : CallsAction Req Status → Prop
  | .start r _ => s.started r = none
  | .getStatus r => r ∉ s.pool.requests
  | .poll out => out.Documented s.pool.requests ∧ ∀ c ∈ out.completed.zip out.outStatuses,
      s.pool.requests[c.1]?.bind s.started = some c.2
  | _ => True

/-! ### The invariant -/

/-- What `poll` does for the calls in a list, with their statuses. -/
def effects (reported : List (Nat × Status)) : List (Effect Nat Nat Status) :=
  reported.flatMap fun c => [.store c.1 c.2, .notify c.1]

/-- The calls at some positions of the pool, with the statuses that are reported for them. -/
def reported (entries : List (Entry Req Nat Nat)) (l : List (Nat × Status)) :
    List (Nat × Status) :=
  l.filterMap fun c => entries[c.1]?.map fun e => (e.event, c.2)

/-- The calls that are still to be notified. -/
def due (todo : List (Effect Nat Nat Status)) : List Nat :=
  todo.filterMap fun
    | .notify k => some k
    | .store .. => none

/-- `v` is the status of the request of the `k`-th call. -/
def Own (s : Calls Req Status) (k : Nat) (v : Option Status) : Prop :=
  ∃ status, v = some status ∧ s.calls[k]? = some status

/-- Each call stands at one stage, and whoever is notified finds its own status. -/
structure Inv (s : Calls Req Status) : Prop where
  pool : ∃ entries, s.pool = Pool.of entries ∧ (entries.map Entry.request).Nodup ∧
    ∀ e ∈ entries, e.status = e.event ∧ s.Own e.event (s.started e.request)
  once : ∀ k, s.pool.events.count k + (due s.todo).count k + s.notified k =
    if k < s.calls.length then 1 else 0
  todo : ∃ reported, (∀ c ∈ reported, s.Own c.1 (some c.2)) ∧
    (s.todo = effects reported ∨
      ∃ k, s.todo = .notify k :: effects reported ∧ s.Own k (s.cells k))
  notified : ∀ k, 0 < s.notified k → s.Own k (s.cells k)
  yields : ∀ k, s.waiting.count k + (s.returned.map Prod.fst).count k =
    if k < s.calls.length then 1 else 0
  returned : ∀ c ∈ s.returned, s.Own c.1 c.2

section Lists

variable {entries : List (Entry Req Nat Nat)} {l : List (Nat × Status)} {k : Nat} {status : Status}

@[simp] theorem due_nil : due ([] : List (Effect Nat Nat Status)) = [] := rfl

@[simp] theorem due_store (rest : List (Effect Nat Nat Status)) :
    due (.store k status :: rest) = due rest := rfl

@[simp] theorem due_notify (rest : List (Effect Nat Nat Status)) :
    due (.notify k :: rest) = k :: due rest := rfl

@[simp] theorem effects_cons (c : Nat × Status) :
    effects (c :: l) = .store c.1 c.2 :: .notify c.1 :: effects l := rfl

@[simp] theorem due_effects : due (effects l) = l.map Prod.fst := by
  induction l with
  | nil => rfl
  | cons c l ih => rw [effects_cons, due_store, due_notify, ih, List.map_cons]

/-- The place of a call is its event. -/
theorem flatMap_effectsOf (h : ∀ e ∈ entries, e.status = e.event) :
    l.flatMap (effectsOf entries) = effects (reported entries l) := by
  induction l with
  | nil => rfl
  | cons c l ih =>
      rw [List.flatMap_cons, ih, effectsOf]
      cases he : entries[c.1]? with
      | none => simp [reported, he]
      | some e =>
          have hreported : reported entries (c :: l) = (e.event, c.2) :: reported entries l := by
            simp [reported, he]
          rw [hreported, effects_cons]
          show [Effect.store e.status c.2, .notify e.event] ++ _ = _
          rw [h e (List.mem_of_getElem? he)]
          rfl

theorem reported_map_fst :
    (reported entries l).map Prod.fst = (done entries (l.map Prod.fst)).map Entry.event := by
  simp [reported, done, List.map_filterMap, List.filterMap_map, Function.comp_def]

theorem mem_reported {c : Nat × Status} (hc : c ∈ reported entries l) :
    ∃ i e, (i, c.2) ∈ l ∧ entries[i]? = some e ∧ e.event = c.1 := by
  obtain ⟨⟨i, status⟩, hl, hi⟩ := List.mem_filterMap.mp hc
  obtain ⟨e, he, rfl⟩ := Option.map_eq_some_iff.mp hi
  exact ⟨i, e, hl, he, rfl⟩

end Lists

section Steps

variable {s s' : Calls Req Status} {k : Nat} {v : Option Status}

/-- The calls that are there keep their statuses. -/
theorem Own.concat (h : s.Own k v) {status : Status} (hcalls : s'.calls = s.calls ++ [status]) :
    s'.Own k v := by
  obtain ⟨own, hv, hk⟩ := h
  refine ⟨own, hv, ?_⟩
  rw [hcalls, List.getElem?_append_left (List.getElem?_eq_some_iff.mp hk).1, hk]

theorem Own.lt (h : s.Own k v) : k < s.calls.length := by
  obtain ⟨_, -, hk⟩ := h
  exact (List.getElem?_eq_some_iff.mp hk).1

theorem Inv.initial : Inv (initial : Calls Req Status) where
  pool := ⟨[], rfl, List.nodup_nil, by simp⟩
  once := by simp [Calls.initial]
  todo := ⟨[], by simp, .inl rfl⟩
  notified := fun k h => absurd h (lt_irrefl 0)
  yields := by simp [Calls.initial]
  returned := by simp [Calls.initial]

namespace Inv

variable (h : Inv s)
include h

/-- A request is started whose handle is not in use, hence not in the pool. -/
theorem start [DecidableEq Req] {r : Req} {status : Status} (hr : s.started r = none) :
    Inv { s with started := update s.started r (some status) } := by
  refine { h with pool := ?_ }
  obtain ⟨entries, hpool, hnodup, hentries⟩ := h.pool
  refine ⟨entries, hpool, hnodup, fun e he => ?_⟩
  obtain ⟨hcell, own, hstarted, hk⟩ := hentries e he
  have hne : e.request ≠ r := by
    rintro rfl
    rw [hr] at hstarted
    cases hstarted
  refine ⟨hcell, own, ?_, hk⟩
  show update s.started r _ e.request = _
  rw [update_of_ne hne, hstarted]

/-- One more call; nobody is in `poll`. -/
theorem getStatus {r : Req} {status : Status} (hr : s.started r = some status)
    (hnew : r ∉ s.pool.requests) :
    Inv { s with
      calls := s.calls ++ [status]
      pool := addRequest s.pool r s.calls.length s.calls.length
      waiting := s.calls.length :: s.waiting } := by
  obtain ⟨entries, hpool, hnodup, hentries⟩ := h.pool
  -- the number of copies of the new call is that of the calls below its index, and one more
  have hcount : ∀ {n k : Nat}, n = (if k < s.calls.length then 1 else 0) →
      n + (if s.calls.length = k then 1 else 0) =
        if k < (s.calls ++ [status]).length then 1 else 0 := by
    intro n k hn
    rw [List.length_append, List.length_singleton, hn]
    split_ifs <;> omega
  refine {
    pool := ⟨entries ++ [⟨r, s.calls.length, s.calls.length⟩], ?_, ?_, fun e he => ?_⟩
    once := fun k => ?_
    todo := ?_
    notified := fun k hk => (h.notified k hk).concat rfl
    yields := fun k => ?_
    returned := fun c hc => (h.returned c hc).concat rfl }
  · show addRequest s.pool r _ _ = _
    rw [hpool]
    exact addRequest_of entries ⟨r, s.calls.length, s.calls.length⟩
  · rw [List.map_append, List.nodup_append]
    refine ⟨hnodup, List.nodup_singleton r, fun r' hr' _ hlast heq => hnew ?_⟩
    obtain rfl : r' = r := heq.trans (List.mem_singleton.mp hlast)
    rw [hpool]
    exact hr'
  · rcases List.mem_append.mp he with he | he
    · exact ⟨(hentries e he).1, (hentries e he).2.concat rfl⟩
    · obtain rfl := List.mem_singleton.mp he
      exact ⟨rfl, status, hr, List.getElem?_concat_length⟩
  · have hk := hcount (h.once k)
    show (s.pool.events ++ [s.calls.length]).count k + _ + _ = _
    rw [List.count_append, List.count_singleton, ← hk]
    simp only [beq_iff_eq]
    omega
  · obtain ⟨reported, hreported, htodo⟩ := h.todo
    refine ⟨reported, fun c hc => (hreported c hc).concat rfl, htodo.imp_right ?_⟩
    rintro ⟨k, htodo, hk⟩
    exact ⟨k, htodo, hk.concat rfl⟩
  · have hk := hcount (h.yields k)
    show (s.calls.length :: s.waiting).count k + _ = _
    rw [List.count_cons, ← hk]
    simp only [beq_iff_eq]
    omega

/-- `poll` takes the completed entries out of the pool and is to do what is due for them. -/
theorem poll [DecidableEq Req] {out : Testsome Req Status} (hdoc : out.Documented s.pool.requests)
    (hstatuses : ∀ c ∈ out.completed.zip out.outStatuses,
      s.pool.requests[c.1]?.bind s.started = some c.2) (htodo : s.todo = []) :
    ∃ p, RequestPool.poll (fun _ => out) s.pool = some p ∧ Inv { s with
      started := free s.started (out.completed.filterMap fun c => s.pool.requests[c]?)
      pool := p.1
      todo := p.2 } := by
  obtain ⟨entries, hpool, hnodup, hentries⟩ := h.pool
  rw [hpool] at hdoc hstatuses ⊢
  refine ⟨_, poll_of hdoc, ?_⟩
  have hperm : (uncompleted entries out.completed ++ done entries out.completed).Perm entries :=
    perm_uncompleted_append_done hdoc.nodup
  have hmem : ∀ e ∈ uncompleted entries out.completed, e ∈ entries := fun e he =>
    hperm.subset (List.mem_append_left _ he)
  have hfst : (out.completed.zip out.outStatuses).map Prod.fst = out.completed := by
    refine List.map_fst_zip ?_
    rw [hdoc.length_completed, hdoc.outStatuses]
    exact Int.toNat_le.mpr hdoc.outcount
  -- the handles that are freed
  have hfreed : out.completed.filterMap (fun c => (Pool.of entries).requests[c]?) =
      (done entries out.completed).map Entry.request := by
    simp [Pool.of, done, List.map_filterMap]
  rw [hfreed, flatMap_effectsOf fun e he => (hentries e he).1]
  have hsplit : ((uncompleted entries out.completed).map Entry.request ++
      (done entries out.completed).map Entry.request).Nodup := by
    rw [← List.map_append]
    exact (hperm.map Entry.request).nodup_iff.mpr hnodup
  obtain ⟨hleft, -, hapart⟩ := List.nodup_append.mp hsplit
  refine { h with
    pool := ⟨uncompleted entries out.completed, rfl, hleft, fun e he => ?_⟩
    once := fun k => ?_
    todo := ⟨_, fun c hc => ?_, .inl rfl⟩ }
  · obtain ⟨hcell, own, hstarted, hk⟩ := hentries e (hmem e he)
    refine ⟨hcell, own, ?_, hk⟩
    have hnot : e.request ∉ (done entries out.completed).map Entry.request := fun hd =>
      hapart _ (List.mem_map_of_mem he) _ hd rfl
    show (if _ then _ else _) = _
    rw [if_neg hnot, hstarted]
  · have hk := h.once k
    rw [hpool, htodo, due_nil, List.count_nil, Nat.add_zero] at hk
    rw [← hk, due_effects, reported_map_fst, hfst]
    show ((uncompleted entries out.completed).map Entry.event).count k + _ + _ = _
    rw [← List.count_append, ← List.map_append]
    exact congrArg (· + _) ((hperm.map Entry.event).count_eq k)
  · obtain ⟨i, e, hi, he, hevent⟩ := mem_reported hc
    have hown := (hentries e (List.mem_of_getElem? he)).2
    have hstatus := hstatuses _ hi
    have hrequest : (Pool.of entries).requests[i]? = some e.request := by
      simp [Pool.of, he]
    rw [hrequest] at hstatus
    rw [← hevent, ← hstatus]
    exact hown

/-- The thread in `poll` stores a status or notifies an event. -/
theorem go {e : Effect Nat Nat Status} {rest : List (Effect Nat Nat Status)}
    (htodo : s.todo = e :: rest) : Inv ({ s with todo := rest }.perform e) := by
  obtain ⟨l, hl, hcases⟩ := h.todo
  rcases hcases with heq | ⟨k, heq, hown⟩
  · cases l with
    | nil =>
        rw [htodo] at heq
        cases heq
    | cons c l =>
        obtain ⟨k, status⟩ := c
        have hc : s.Own k (some status) := hl _ List.mem_cons_self
        rw [effects_cons, htodo] at heq
        obtain ⟨rfl, rfl⟩ := List.cons.inj heq
        have hcells : ∀ j, s.Own j (s.cells j) →
            s.Own j (update s.cells k (some status) j) := by
          intro j hj
          by_cases e : j = k
          · rw [e, update_self]
            exact hc
          · rwa [update_of_ne e]
        refine { h with
          once := fun j => ?_
          todo := ⟨l, fun c hc => hl c (List.mem_cons_of_mem _ hc), .inr ⟨k, rfl, ?_⟩⟩
          notified := fun j hj => hcells j (h.notified j hj) }
        · have hj := h.once j
          rw [htodo] at hj
          exact hj
        · show s.Own k (update s.cells k (some status) k)
          rw [update_self]
          exact hc
  · rw [htodo] at heq
    obtain ⟨rfl, rfl⟩ := List.cons.inj heq
    refine { h with
      once := fun j => ?_
      todo := ⟨l, hl, .inl rfl⟩
      notified := fun j hj => ?_ }
    · have hj := h.once j
      rw [htodo, due_notify, List.count_cons] at hj
      show s.pool.events.count j + (due (effects l)).count j +
        update s.notified k (s.notified k + 1) j = if j < s.calls.length then 1 else 0
      rw [← hj, update_apply]
      by_cases e : j = k
      · rw [if_pos e, if_pos (by simp [e]), e]
        omega
      · rw [if_neg e, if_neg (by simpa using Ne.symm e)]
        rfl
    · by_cases e : j = k
      · rw [e]
        exact hown
      · refine h.notified j ?_
        have hj' : 0 < update s.notified k (s.notified k + 1) j := hj
        rwa [update_of_ne e] at hj'

/-- A call returns. -/
theorem resume (hk : k ∈ s.waiting) (hreached : 0 < s.notified k) :
    Inv { s with
      waiting := s.waiting.erase k
      returned := (k, s.cells k) :: s.returned } := by
  refine { h with
    yields := fun j => ?_
    returned := fun c hc => ?_ }
  · have hj := h.yields j
    have hpos := List.count_pos_iff.mpr hk
    show (s.waiting.erase k).count j + (((k, s.cells k) :: s.returned).map Prod.fst).count j =
      if j < s.calls.length then 1 else 0
    rw [← hj, List.map_cons, List.count_cons, List.count_erase]
    by_cases e : k = j
    · subst e
      simp only [beq_self_eq_true, if_true]
      omega
    · simp [e]
  · rcases List.mem_cons.mp hc with rfl | hc
    · exact h.notified k hreached
    · exact h.returned c hc

theorem step [DecidableEq Req] {a : CallsAction Req Status} (hlegal : Legal s a)
    (hs : s.step a = some s') : Inv s' := by
  cases a with
  | start r status =>
      obtain rfl := Option.some.inj hs
      exact h.start hlegal
  | getStatus r =>
      rw [Calls.step] at hs
      cases hr : s.started r with
      | none =>
          rw [hr] at hs
          cases hs
      | some status =>
          rw [hr] at hs
          obtain ⟨-, hs⟩ := Option.ite_none_right_eq_some.mp hs
          obtain rfl := Option.some.inj hs
          exact h.getStatus hr hlegal
  | poll out =>
      obtain ⟨hempty, hs⟩ := Option.ite_none_right_eq_some.mp hs
      obtain ⟨p, hp, hinv⟩ := h.poll hlegal.1 hlegal.2 (List.isEmpty_iff.mp hempty)
      rw [hp] at hs
      obtain rfl := Option.some.inj hs
      exact hinv
  | go =>
      rw [Calls.step] at hs
      cases htodo : s.todo with
      | nil =>
          rw [htodo] at hs
          cases hs
      | cons e rest =>
          rw [htodo] at hs
          obtain rfl := Option.some.inj hs
          exact h.go htodo
  | resume k =>
      obtain ⟨⟨hk, hreached⟩, hs⟩ := Option.ite_none_right_eq_some.mp hs
      obtain rfl := Option.some.inj hs
      exact h.resume hk hreached

end Inv

theorem inv_of_reaches [DecidableEq Req]
    (h : Reaches Calls.step Legal (Calls.initial : Calls Req Status) s) : Inv s :=
  h.invariant Inv.initial fun _ _ _ hinv hlegal hs => hinv.step hlegal hs

/-- **`get_status` returns the status of its own request.**  Whatever requests complete in
whatever order and however the calls, `poll` and the waiting tasks interleave, a call returns at
most once, with the status of its own request, also when MPI reuses the handle; its event is
notified at most once; a call that has not returned waits, and its entry is in the pool, or its
event is due in the current call of `poll`, or it is notified.  No access of `poll` is out of
range. -/
theorem get_status_returns_own [DecidableEq Req]
    (h : Reaches Calls.step Legal (Calls.initial : Calls Req Status) s) :
    (s.returned.map Prod.fst).Nodup ∧ (∀ c ∈ s.returned, s.Own c.1 c.2) ∧
    (∀ k, s.notified k ≤ 1) ∧
    (∀ k < s.calls.length, k ∉ s.returned.map Prod.fst →
      k ∈ s.waiting ∧ (k ∈ s.pool.events ∨ k ∈ due s.todo ∨ 0 < s.notified k)) ∧
    ∀ out, Legal s (.poll out) → s.todo = [] → (s.step (.poll out)).isSome := by
  have hinv := inv_of_reaches h
  have hle : ∀ k, (if k < s.calls.length then 1 else 0) ≤ 1 := fun k => by split_ifs <;> omega
  refine ⟨?_, hinv.returned, fun k => ?_, fun k hk hnot => ⟨?_, ?_⟩, fun out hlegal htodo => ?_⟩
  · refine List.nodup_iff_count_le_one.mpr fun k => ?_
    have := hinv.yields k
    have := hle k
    omega
  · have := hinv.once k
    have := hle k
    omega
  · have hyields := hinv.yields k
    rw [if_pos hk, List.count_eq_zero_of_not_mem hnot] at hyields
    exact List.count_pos_iff.mp (by omega)
  · have honce := hinv.once k
    rw [if_pos hk] at honce
    by_contra hno
    simp only [not_or, ← List.count_pos_iff] at hno
    omega
  · obtain ⟨p, hp, -⟩ := hinv.poll hlegal.1 hlegal.2 htodo
    rw [Calls.step, htodo, hp]
    rfl

end Steps

/-! ### A run -/

section Run

/-- Beyond the last request there is nothing to compare. -/
instance [DecidableEq Req] (requests : List Req) (out : Testsome Req Status) :
    Decidable (out.Documented requests) :=
  decidable_of_iff
    (out.outcount ≤ requests.length ∧ out.indices.length = requests.length ∧
      out.outStatuses.length = requests.length ∧ out.requests.length = requests.length ∧
      (∀ k ∈ out.completed, k < requests.length) ∧ out.completed.Nodup ∧
      ∀ k < requests.length, k ∉ out.completed → out.requests[k]? = requests[k]?)
    ⟨fun ⟨h₁, h₂, h₃, h₄, h₅, h₆, h₇⟩ => ⟨h₁, h₂, h₃, h₄, h₅, h₆, fun k hk => by
      by_cases hlt : k < requests.length
      · exact h₇ k hlt hk
      · rw [List.getElem?_eq_none (by omega), List.getElem?_eq_none (by omega)]⟩,
    fun h => ⟨h.outcount, h.indices, h.outStatuses, h.length, h.inRange, h.nodup,
      fun k _ => h.unchanged k⟩⟩

instance [DecidableEq Req] [DecidableEq Status] (s : Calls Req Status)
    (a : CallsAction Req Status) : Decidable (Legal s a) :=
  match a with
  | .start r _ => inferInstanceAs (Decidable (s.started r = none))
  | .getStatus r => inferInstanceAs (Decidable (r ∉ s.pool.requests))
  | .poll out => inferInstanceAs (Decidable (out.Documented s.pool.requests ∧
      ∀ c ∈ out.completed.zip out.outStatuses, s.pool.requests[c.1]?.bind s.started = some c.2))
  | .go => inferInstanceAs (Decidable True)
  | .resume _ => inferInstanceAs (Decidable True)

/-- The second of two requests completes first, and MPI reuses its handle. -/
def reusedHandle : List (CallsAction Nat Bool) :=
  [.start 1 true, .start 2 false, .getStatus 1, .getStatus 2,
    .poll ⟨[1, 0], 1, [1, 0], [false, false]⟩, .go, .start 2 true, .go, .getStatus 2, .resume 1,
    .poll ⟨[0, 0], 2, [1, 0], [true, true]⟩, .go, .go, .go, .go, .resume 0, .resume 2]

theorem get_status_returns_own_reused_handle :
    ∃ s : Calls Nat Bool, s.returned = [(2, some true), (0, some true), (1, some false)] ∧
      ∀ c ∈ s.returned, s.Own c.1 c.2 := by
  have hrun : (exec Calls.step Legal reusedHandle Calls.initial).map Calls.returned =
      some [(2, some true), (0, some true), (1, some false)] := by decide
  obtain ⟨s, hs, hreturned⟩ := Option.map_eq_some_iff.mp hrun
  exact ⟨s, hreturned, (get_status_returns_own (Reaches.refl.of_exec hs)).2.1⟩

end Run

end Calls

end RedGrapes.RequestPool
