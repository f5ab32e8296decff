/-
RedGrapes/FreeWorker.lean

`WorkerPool::find_free_worker` (`dispatch/thread/worker_pool.tpp`) run by any number of callers,
one atomic step at a time, while the workers set their own states (`AtomicBitfield::set`).

A caller searches the words as `probe_by_value` does: it reads a word, takes the lowest bit of its
mask that was set, and tries to claim that worker.  Up to 64 workers share the word, and what the
caller has read may be old when it claims.  But the claim is one `fetch_and`, whose old value
tells whether the worker's own bit was still set; so of the callers that race for a bit only the
first one clears it, and the others go on (`claim_step`).

* `handed_out_once`: between two transitions of a worker to `AVAILABLE` at most one call returns
  that worker, and it returns a worker that was available.

The ghost field `log` has the transitions to `AVAILABLE` and the returns, the latest first.
-/
import RedGrapes.Bitfield

namespace RedGrapes.Bitfield

open Function

/-! ### Setting a bit -/

/-- `AtomicBitfield::get`. -/
def get (words : Nat → BitVec 64) (idx : Nat) : Bool :=
  let mask := 1#64 <<< (idx % bitfieldLen)
  words (idx / bitfieldLen) &&& mask != 0#64

/-- `AtomicBitfield::set`: one `fetch_and` or `fetch_or`, and the previous value of the bit. -/
def set (words : Nat → BitVec 64) (idx : Nat) (newValue : Bool) : Bool × (Nat → BitVec 64) :=
  let chunkIdx := idx / bitfieldLen
  let mask := 1#64 <<< (idx % bitfieldLen)
  let oldVal := words chunkIdx
  let newVal := match newValue with
    | false => oldVal &&& ~~~mask
    | true => oldVal ||| mask
  (oldVal &&& mask != 0#64, update words chunkIdx newVal)

variable {words : Nat → BitVec 64} {idx idx' : Nat} {newValue : Bool}

theorem get_eq_getLsbD (words : Nat → BitVec 64) (idx : Nat) :
    get words idx = (words (idx / 64)).getLsbD (idx % 64) :=
  LowBit.and_bit_bne_zero _ (Nat.mod_lt _ (by decide))

/-- `set` sets this bit and leaves the others of its word alone. -/
theorem get_set :
    get (set words idx newValue).2 idx' = if idx' = idx then newValue else get words idx' := by
  rw [get_eq_getLsbD, get_eq_getLsbD]
  show (update words (idx / 64) _ (idx' / 64)).getLsbD (idx' % 64) = _
  by_cases hword : idx' / 64 = idx / 64
  · -- in one word the bits differ in their place
    have hk : idx % 64 < 64 := Nat.mod_lt _ (by decide)
    have hiff : idx' = idx ↔ idx' % 64 = idx % 64 := by omega
    rw [hword, update_self]
    cases newValue with
    | false =>
      show (words (idx / 64) &&& ~~~(1#64 <<< (idx % 64))).getLsbD (idx' % 64) = _
      rw [LowBit.getLsbD_clear, Bool.and_comm]
      simp [hiff]
    | true =>
      show (words (idx / 64) ||| 1#64 <<< (idx % 64)).getLsbD (idx' % 64) = _
      rw [LowBit.getLsbD_raise _ hk, Bool.or_comm]
      simp [hiff]
  · have hne : idx' ≠ idx := fun h => hword (by rw [h])
    rw [update_of_ne hword, if_neg hne]

end RedGrapes.Bitfield

namespace RedGrapes.WorkerPool

open Function Machine Bitfield

/-! ### The machine -/

inductive WorkerState
  | busy
  | available
deriving DecidableEq

/-- The value of the enumeration, which the bitfield holds. -/
def WorkerState.toBool : WorkerState → Bool
  | busy => false
  | available => true

/-- `set_worker_state`: it returns whether the state has changed. -/
def setWorkerState (words : Nat → BitVec 64) (localWorkerId : Nat) (state : WorkerState) :
    Bool × (Nat → BitVec 64) :=
  let r := set words localWorkerId state.toBool
  (r.1 != state.toBool, r.2)

/-- Places of a caller of `find_free_worker`: about to read the word of the first of the parts
left, and about to claim the worker `idx`, with the parts that are left if this fails. -/
inductive Place
  | idle
  | probe (todo : List (Nat × BitVec 64))
  | claim (idx : Nat) (todo : List (Nat × BitVec 64))
deriving DecidableEq

/-- A worker has become available; a caller was given a worker. -/
inductive Event (C : Type)
  | available (w : Nat)
  | returned (c : C) (w : Nat)
deriving DecidableEq

structure State (C : Type) where
  baseId : Nat
  numWorkers : Nat
  /-- The words of `worker_state`. -/
  words : Nat → BitVec 64
  callers : C → Place
  log : List (Event C)

/-- A call of `find_free_worker` by a thread of some worker, the next step of a caller, and a
worker that sets its state. -/
inductive Action (C : Type)
  | findFreeWorker (c : C) (currentWorkerId : Nat)
  | run (c : C)
  | setWorkerState (w : Nat) (state : WorkerState)

namespace State

variable {C : Type}

/-- No worker of a new pool is available. -/
def init (baseId numWorkers : Nat) : State C where
  baseId := baseId
  numWorkers := numWorkers
  words := fun _ => 0#64
  callers := fun _ => .idle
  log := []

def goto [DecidableEq C] (s : State C) (c : C) (pc : Place) : State C :=
  { s with callers := update s.callers c pc }

/-- The index where `find_free_worker` begins. -/
def startIdx (s : State C) (currentWorkerId : Nat) : Nat :=
  if s.baseId ≤ currentWorkerId ∧ currentWorkerId < s.baseId + s.numWorkers then
    currentWorkerId - s.baseId
  else 0

/-- The next step of a caller: a round of `probe_chunk_by_value` up to its read, or the claim.  A
`WorkerId` has eight bits. -/
def stepCaller [DecidableEq C] (s : State C) (c : C) : Option (State C) :=
  match s.callers c with
  | .idle => none
  | .probe [] => some (s.goto c .idle)
  | .probe ((j, mask) :: todo) =>
      let maskedField := s.words (j % 2 ^ 32) &&& mask
      if maskedField = 0#64 then some (s.goto c (.probe todo))
      else
        let k := firstOneIdx maskedField
        if k < bitfieldLen then
          let idx := (j % 2 ^ 32 * bitfieldLen + k) % 2 ^ 32
          some (s.goto c (.claim (idx % 2 ^ 8) ((j, mask &&& ~~~(1#64 <<< k)) :: todo)))
        else some s
  | .claim idx todo =>
      let r := setWorkerState s.words idx .busy
      if r.1 then some ({ s with words := r.2, log := .returned c idx :: s.log }.goto c .idle)
      else some ({ s with words := r.2 }.goto c (.probe todo))

def step [DecidableEq C] (s : State C) : Action C → Option (State C)
  | .findFreeWorker c currentWorkerId =>
      if s.callers c = .idle then
        let start := s.startIdx currentWorkerId
        -- without a start index in range the call returns at once
        if s.numWorkers ≤ start then some s
        else some (s.goto c (.probe (parts s.numWorkers start false)))
      else none
  | .run c => s.stepCaller c
  | .setWorkerState w state =>
      let r := setWorkerState s.words w state
      let log := if r.1 ∧ state = .available then .available w :: s.log else s.log
      some { s with words := r.2, log := log }

def Reachable [DecidableEq C] (baseId numWorkers : Nat) (s : State C) : Prop :=
  Reaches step (fun _ _ => True) (init baseId numWorkers) s

/-- The worker `w` is available. -/
def Available (s : State C) (w : Nat) : Prop := get s.words w = true

/-- The returns of `w` since it became available last. -/
def returnsSince (w : Nat) : List (Event C) → Nat
  | [] => 0
  | .available v :: log => if v = w then 0 else returnsSince w log
  | .returned _ v :: log => (if v = w then 1 else 0) + returnsSince w log

end State

/-- Whether this is a return of the worker `w`. -/
def Event.returns {C : Type} (w : Nat) : Event C → Bool
  | available _ => false
  | returned _ v => decide (v = w)

namespace State

variable {C : Type} {s s' : State C} {w : Nat}

/-! ### What a step can do -/

/-- A claim or a store to a state leaves the bits of the other workers alone, and its answer is
whether the worker's own bit has changed. -/
theorem setWorkerState_eq (words : Nat → BitVec 64) (w : Nat) (state : WorkerState) :
    setWorkerState words w state = (get words w != state.toBool, (set words w state.toBool).2) := rfl

/-- A step leaves the words alone; or it is a claim that finds the worker available and returns
it; or it sets the state of a worker, which is logged if the worker becomes available. -/
theorem step_cases [DecidableEq C] {a : Action C} (h : s.step a = some s') :
    (s'.words = s.words ∧ s'.log = s.log) ∨
      (∃ c w, get s.words w = true ∧ s'.words = (set s.words w false).2 ∧
        s'.log = .returned c w :: s.log) ∨
      ∃ w v, s'.words = (set s.words w v).2 ∧
        s'.log = if get s.words w = false ∧ v = true then .available w :: s.log else s.log := by
  cases a with
  | findFreeWorker c currentWorkerId =>
    obtain ⟨_, h⟩ := Option.ite_none_right_eq_some.mp h
    -- a call begins without looking at the words
    split_ifs at h <;> cases h <;> exact Or.inl ⟨rfl, rfl⟩
  | setWorkerState w state =>
    cases h
    refine Or.inr (Or.inr ⟨w, state.toBool, rfl, ?_⟩)
    cases state <;> cases hget : get s.words w <;> simp [setWorkerState_eq, hget, WorkerState.toBool]
  | run c =>
    cases hp : s.callers c with
    | idle =>
      simp only [step, stepCaller, hp] at h
      cases h
    | probe todo =>
      -- a probe only reads
      cases todo with
      | nil =>
        simp only [step, stepCaller, hp] at h
        cases h
        exact Or.inl ⟨rfl, rfl⟩
      | cons part todo =>
        simp only [step, stepCaller, hp] at h
        split_ifs at h <;> cases h <;> exact Or.inl ⟨rfl, rfl⟩
    | claim idx todo =>
      simp only [step, stepCaller, hp] at h
      rw [setWorkerState_eq] at h
      split_ifs at h with hbit
      · cases h
        -- the old value of the bit differs from `BUSY`
        have hget : get s.words idx = true := by
          simpa [WorkerState.toBool] using hbit
        exact Or.inr (Or.inl ⟨c, idx, hget, rfl, rfl⟩)
      · -- another caller was first, and the bit is cleared once more
        cases h
        exact Or.inr (Or.inr ⟨idx, false, rfl, by simp [goto]⟩)

/-! ### Handed out once -/

/-- A worker that is available has not been returned since it became so, and any other at most
once. -/
def HandedOut (s : State C) : Prop :=
  ∀ w, returnsSince w s.log + (get s.words w).toNat ≤ 1

theorem HandedOut.step [DecidableEq C] {a : Action C} (hinv : s.HandedOut)
    (h : s.step a = some s') : s'.HandedOut := by
  intro w'
  have hw' := hinv w'
  rcases step_cases h with ⟨hwords, hlog⟩ | ⟨c, w, hget, hwords, hlog⟩ | ⟨w, v, hwords, hlog⟩
  · rw [hwords, hlog]
    exact hw'
  · rw [hwords, hlog, get_set, returnsSince]
    by_cases hw : w' = w
    · -- the return takes the place of the bit
      rw [hw, hget] at hw'
      rw [if_pos hw, if_pos hw.symm, hw]
      simp at hw' ⊢
      omega
    · rw [if_neg hw, if_neg (Ne.symm hw), Nat.zero_add]
      exact hw'
  · rw [hwords, hlog, get_set]
    by_cases hw : w' = w
    · -- a transition to `AVAILABLE` is logged and starts the count again
      subst hw
      rw [if_pos rfl]
      cases hget : get s.words w' <;> cases v <;> simp_all [returnsSince]
    · rw [if_neg hw]
      split_ifs
      · rw [returnsSince, if_neg (Ne.symm hw)]
        exact hw'
      · exact hw'

/-- No return of `w` is counted twice in a stretch of the log without a transition. -/
theorem countP_le_returnsSince {seg earlier : List (Event C)} (h : .available w ∉ seg) :
    seg.countP (Event.returns w) ≤ returnsSince w (seg ++ earlier) := by
  -- the count goes on below the stretch, so it is only a bound
  induction seg with
  | nil => exact Nat.zero_le _
  | cons e seg ih =>
    have ih := ih fun hmem => h (List.mem_cons_of_mem _ hmem)
    rw [List.countP_cons, List.cons_append]
    cases e with
    | available v =>
      have hv : v ≠ w := by
        rintro rfl
        exact h List.mem_cons_self
      rw [returnsSince, if_neg hv]
      exact ih
    | returned c v =>
      rw [returnsSince]
      simp only [Event.returns, decide_eq_true_eq]
      omega

/-- In every stretch of the log without a transition of a worker it is returned at most once. -/
def Once (log : List (Event C)) : Prop :=
  ∀ w later seg earlier, log = later ++ (seg ++ earlier) → .available w ∉ seg →
    seg.countP (Event.returns w) ≤ 1

/-- A new event keeps this if the newest stretch has at most one return. -/
theorem Once.cons {e : Event C} {log : List (Event C)} (h : Once log)
    (hnew : ∀ w, returnsSince w (e :: log) ≤ 1) : Once (e :: log) := by
  intro w later seg earlier hsplit hseg
  cases later with
  | nil =>
    -- the stretch begins with the new event
    rw [List.nil_append] at hsplit
    exact (countP_le_returnsSince hseg).trans (hsplit ▸ hnew w)
  | cons e' later =>
    rw [List.cons_append] at hsplit
    exact h w later seg earlier (List.cons_eq_cons.mp hsplit).2 hseg

structure Inv (s : State C) : Prop where
  handedOut : s.HandedOut
  once : Once s.log

theorem Inv.step [DecidableEq C] {a : Action C} (hinv : s.Inv) (h : s.step a = some s') :
    s'.Inv := by
  have hout := hinv.handedOut.step h
  refine ⟨hout, ?_⟩
  have hnew : ∀ w, returnsSince w s'.log ≤ 1 := fun w => (Nat.le_add_right _ _).trans (hout w)
  rcases step_cases h with ⟨-, hlog⟩ | ⟨c, w, -, -, hlog⟩ | ⟨w, v, -, hlog⟩
  · rw [hlog]
    exact hinv.once
  · rw [hlog] at hnew ⊢
    exact hinv.once.cons hnew
  · split_ifs at hlog
    · rw [hlog] at hnew ⊢
      exact hinv.once.cons hnew
    · rw [hlog]
      exact hinv.once

theorem Inv.of_reachable [DecidableEq C] {baseId numWorkers : Nat}
    (h : Reachable baseId numWorkers s) : s.Inv := by
  refine h.invariant ⟨fun w => ?_, fun w later seg earlier hsplit _ => ?_⟩
    fun _ _ _ hinv _ hstep => hinv.step hstep
  · simp [init, returnsSince, get_eq_getLsbD]
  · have hnil := List.append_eq_nil_iff.mp (List.append_eq_nil_iff.mp hsplit.symm).2
    rw [hnil.1]
    exact Nat.zero_le 1

/-- The log has the transitions to `AVAILABLE`, and returns of workers that were available. -/
theorem log_step [DecidableEq C] {a : Action C} (h : s.step a = some s') (w : Nat) :
    (s'.log = .available w :: s.log ↔ ¬ s.Available w ∧ s'.Available w) ∧
      ∀ c, s'.log = .returned c w :: s.log → s.Available w ∧ ¬ s'.Available w := by
  unfold Available
  rcases step_cases h with ⟨hwords, hlog⟩ | ⟨c, v, hget, hwords, hlog⟩ | ⟨v, b, hwords, hlog⟩
  · rw [hwords, hlog]
    refine ⟨⟨fun hcons => absurd hcons.symm (List.cons_ne_self _ _),
        fun hnot => absurd hnot.2 hnot.1⟩,
      fun c hcons => absurd hcons.symm (List.cons_ne_self _ _)⟩
  · rw [hwords, hlog, get_set]
    refine ⟨⟨fun hcons => absurd (List.cons_eq_cons.mp hcons).1 nofun, ?_⟩, ?_⟩
    · split_ifs with hw
      · exact fun hnot => hnot.2.elim
      · exact fun hnot => absurd hnot.2 hnot.1
    · intro c' hcons
      obtain ⟨-, rfl⟩ := Event.returned.inj (List.cons_eq_cons.mp hcons).1
      rw [if_pos rfl]
      exact ⟨hget, Bool.false_ne_true⟩
  · rw [hwords, hlog, get_set]
    refine ⟨⟨?_, ?_⟩, ?_⟩
    · split_ifs with hbecomes hw hw
      · rintro -
        rw [hw, hbecomes.1]
        exact ⟨Bool.false_ne_true, hbecomes.2⟩
      · exact fun hcons => absurd (Event.available.inj (List.cons_eq_cons.mp hcons).1).symm hw
      · exact fun hcons => absurd hcons.symm (List.cons_ne_self _ _)
      · exact fun hcons => absurd hcons.symm (List.cons_ne_self _ _)
    · rintro ⟨hbefore, hafter⟩
      by_cases hw : w = v
      · rw [if_pos hw] at hafter
        rw [hw, Bool.not_eq_true] at hbefore
        rw [if_pos ⟨hbefore, hafter⟩, hw]
      · rw [if_neg hw] at hafter
        exact absurd hafter hbefore
    · intro c hcons
      split_ifs at hcons
      · exact absurd (List.cons_eq_cons.mp hcons).1 nofun
      · exact absurd hcons.symm (List.cons_ne_self _ _)

/-- **A free worker is handed out once.**  In every state that callers and workers reach, each
stretch of the log between two transitions of a worker to `AVAILABLE` has at most one return of
it; the log has the transitions, and a step returns a worker that was available before it and no
longer is. -/
theorem handed_out_once [DecidableEq C] {baseId numWorkers : Nat} {s : State C}
    (h : Reachable baseId numWorkers s) :
    (∀ w later seg earlier, s.log = later ++ (seg ++ earlier) → .available w ∉ seg →
      seg.countP (Event.returns w) ≤ 1) ∧
    ∀ a s' w, s.step a = some s' →
      (s'.log = .available w :: s.log ↔ ¬ s.Available w ∧ s'.Available w) ∧
      ∀ c, s'.log = .returned c w :: s.log → s.Available w ∧ ¬ s'.Available w := by
  exact ⟨(Inv.of_reachable h).once, fun a s' w hstep => log_step hstep w⟩

/-- Two callers have read the same word and both try to claim worker 0; the second is given the
neighbour that has become available meanwhile. -/
theorem handed_out_once_race :
    ∃ s : State Bool, s.log = [.returned true 1, .returned false 0, .available 1, .available 0] ∧
      (s.log.take 3).countP (Event.returns 0) ≤ 1 := by
  have hrun : ((exec step (fun _ _ => True)
      [.findFreeWorker false 5, .findFreeWorker true 5, .setWorkerState 0 .available,
        .run false, .run false, .run true, .run true, .setWorkerState 1 .available,
        .run false, .run true, .run true, .run true]
      (init 0 2 : State Bool)).map fun s => s.log) =
        some [.returned true 1, .returned false 0, .available 1, .available 0] := by
    decide +kernel
  obtain ⟨s, hs, hlog⟩ := Option.map_eq_some_iff.mp hrun
  have hseg : .available 0 ∉ s.log.take 3 := by
    rw [hlog]
    decide
  have honce := (handed_out_once (Reaches.refl.of_exec hs)).1 0 [] (s.log.take 3) (s.log.drop 3)
  exact ⟨s, hlog, honce (List.take_append_drop 3 s.log).symm hseg⟩

end State

end RedGrapes.WorkerPool
