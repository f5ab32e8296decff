/-
RedGrapes/Wake.lean

Waking the workers of the schedulers (`scheduler/pool_scheduler.tpp`,
`scheduler/thread_scheduler.hpp`, the constructor of `redGrapes.hpp`).

The constructor gives the schedulers consecutive ranges of worker ids.  Events keep the id of
the worker to wake as `waker_id`, and `wake` has to find the worker of that id in its own
scheduler.  The two schedulers test the id in different ways, and both tests are off:

* `PoolScheduler::wake` takes the local ids from 1 to `n_workers` instead of those from 0 to
  `n_workers - 1`: the first worker is never woken, not even by `wake_all`, and for the id
  behind the last worker `get_worker_thread` is called with an index that is out of range;
* `ThreadScheduler::wake` takes the id 0, and not the id of its worker.

`wake_right_iff` says for which ids `wake` is right, and for which schedulers `wake_all` is.
-/
import Mathlib

namespace RedGrapes.Wake

/-! ### The schedulers -/

/-- A scheduler as it is given to the constructor: `PoolScheduler(num_workers)` or
`ThreadScheduler()`. -/
inductive Kind
  | pool (numWorkers : Nat)
  | thread
deriving DecidableEq

/-- `n_workers`. -/
def Kind.nWorkers : Kind → Nat
  | pool n => n
  | thread => 1

/-- A scheduler after `init`: its kind, `m_base_id`, and the ids of its workers in the order of
the vector. -/
structure Scheduler where
  kind : Kind
  baseId : Nat
  workers : List Nat
deriving DecidableEq

/-- `init`; for a pool with `emplace_workers`. -/
def init (kind : Kind) (baseId : Nat) : Scheduler :=
  ⟨kind, baseId, (List.range kind.nWorkers).map (baseId + ·)⟩

/-- The constructor of `RedGrapes`: `base_worker_id` is a `WorkerId` of eight bits. -/
def construct : Nat → List Kind → List Scheduler
  | _, [] => []
  | baseId, kind :: kinds =>
      init kind baseId :: construct ((baseId + kind.nWorkers) % 256) kinds

/-- What a call of `wake` does: nothing, `notify` on the `CondVar` of a worker, or
`get_worker_thread` with an index that is out of range. -/
inductive Outcome
  | nobody
  | notified (worker : Nat)
  | outOfRange
deriving DecidableEq

namespace Scheduler

/-- `get_worker_thread(local_worker_id).worker.wake()`. -/
def wakeLocal (s : Scheduler) (localId : Nat) : Outcome :=
  match s.workers[localId]? with
  | some w => .notified w
  | none => .outOfRange

/-- `wake`.  The difference of the ids is an `int`. -/
def wake (s : Scheduler) (id : Int) : Outcome :=
  match s.kind with
  | .pool n =>
      let localWakerId := id - s.baseId
      if 0 < localWakerId ∧ localWakerId ≤ n then s.wakeLocal localWakerId.toNat else .nobody
  | .thread => if id = 0 then s.wakeLocal 0 else .nobody

/-- `wake_all`: the calls of `notify`. -/
def wakeAll (s : Scheduler) : List Outcome :=
  match s.kind with
  | .pool n => (List.range n).map fun i => s.wake (s.baseId + i : Nat)
  | .thread => [s.wakeLocal 0]

/-- `wake(id)` notifies the worker with this id, or nobody if the scheduler has none. -/
def WakeRight (s : Scheduler) (id : Int) : Prop :=
  (∀ w ∈ s.workers, id = w → s.wake id = .notified w) ∧
    ((∀ w ∈ s.workers, id ≠ w) → s.wake id = .nobody)

/-- `wake_all` notifies every worker. -/
def WakeAllRight (s : Scheduler) : Prop := ∀ w ∈ s.workers, .notified w ∈ s.wakeAll

/-- The ids for which the test of `wake` is right: for a pool neither the id of its first worker
nor the one behind its last, for a thread not the ids 0 and that of its worker, unless they are
the same. -/
def Addressed (s : Scheduler) (id : Int) : Prop :=
  match s.kind with
  | .pool n => n = 0 ∨ (id ≠ s.baseId ∧ id ≠ s.baseId + n)
  | .thread => s.baseId = 0 ∨ (id ≠ s.baseId ∧ id ≠ 0)

/-- `wake_all` of a pool misses its first worker. -/
def AllAddressed (s : Scheduler) : Prop :=
  match s.kind with
  | .pool n => n = 0
  | .thread => True

end Scheduler

/-! ### The ids of the workers -/

section Ids

variable {s : Scheduler} {kinds : List Kind} {baseId : Nat}

theorem mem_workers_init {kind : Kind} {w : Nat} :
    w ∈ (init kind baseId).workers ↔ ∃ i < kind.nWorkers, w = baseId + i := by
  simp only [init, List.mem_map, List.mem_range]
  constructor
  · rintro ⟨i, hi, rfl⟩
    exact ⟨i, hi, rfl⟩
  · rintro ⟨i, hi, rfl⟩
    exact ⟨i, hi, rfl⟩

theorem wakeLocal_init {kind : Kind} {i : Nat} :
    (init kind baseId).wakeLocal i =
      if i < kind.nWorkers then .notified (baseId + i) else .outOfRange := by
  simp only [Scheduler.wakeLocal, init, List.getElem?_map]
  by_cases hi : i < kind.nWorkers
  · rw [List.getElem?_range hi, if_pos hi]
    rfl
  · rw [List.getElem?_eq_none (by rw [List.length_range]; omega), if_neg hi]
    rfl

/-- Every scheduler is initialised with some base id. -/
theorem exists_init_of_mem (h : s ∈ construct baseId kinds) : ∃ kind b, s = init kind b := by
  induction kinds generalizing baseId with
  | nil => cases h
  | cons kind kinds ih =>
      rcases List.mem_cons.mp h with rfl | h
      · exact ⟨kind, baseId, rfl⟩
      · exact ih h

/-- The ids are consecutive as long as they fit a `WorkerId`. -/
theorem workers_construct (h : baseId + (kinds.map Kind.nWorkers).sum < 256) :
    (construct baseId kinds).flatMap Scheduler.workers =
      List.range' baseId (kinds.map Kind.nWorkers).sum := by
  induction kinds generalizing baseId with
  | nil => rfl
  | cons kind kinds ih =>
      rw [List.map_cons, List.sum_cons] at h ⊢
      -- the sum does not leave the eight bits of a `WorkerId`
      have hmod : (baseId + kind.nWorkers) % 256 = baseId + kind.nWorkers :=
        Nat.mod_eq_of_lt (by omega)
      rw [construct, List.flatMap_cons, hmod, ih (by omega), ← List.range'_append_1]
      congr 1
      rw [List.range'_eq_map_range]
      rfl

end Ids

/-! ### Which ids find their worker -/

section Right

variable {kind : Kind} {b n : Nat} {id : Int}

theorem wake_pool : (init (.pool n) b).wake id =
    if 0 < id - b ∧ id - b ≤ n then
      if (id - b).toNat < n then .notified (b + (id - b).toNat) else .outOfRange
    else .nobody := by
  show (if 0 < id - b ∧ id - b ≤ n then (init (.pool n) b).wakeLocal (id - b).toNat else .nobody) = _
  rw [wakeLocal_init]
  rfl

/-- A pool is right at all ids but the one of its first worker and the one behind its last. -/
theorem wakeRight_pool : (init (.pool n) b).WakeRight id ↔ n = 0 ∨ (id ≠ b ∧ id ≠ b + n) := by
  simp only [Scheduler.WakeRight, wake_pool, mem_workers_init, Kind.nWorkers]
  constructor
  · rintro ⟨hhit, hmiss⟩
    by_contra hbad
    have hn : 0 < n := by omega
    by_cases hfirst : id = b
    · have := hhit b ⟨0, hn, rfl⟩ hfirst
      rw [if_neg (by omega)] at this
      cases this
    · -- the id behind the last worker
      have hlast : id = b + n := by omega
      have := hmiss (by rintro w ⟨i, hi, rfl⟩; omega)
      rw [if_pos (by omega), if_neg (by omega)] at this
      cases this
  · intro hgood
    constructor
    · rintro w ⟨i, hi, rfl⟩ hid
      rw [if_pos (by omega), if_pos (by omega)]
      congr 1
      omega
    · intro hnone
      refine if_neg fun hin => ?_
      exact hnone (b + (id - b).toNat) ⟨(id - b).toNat, by omega, rfl⟩ (by omega)

/-- A thread is right at all ids but 0 and the one of its worker, unless they are the same. -/
theorem wakeRight_thread : (init .thread b).WakeRight id ↔ b = 0 ∨ (id ≠ b ∧ id ≠ 0) := by
  have hwake : (init .thread b).wake id = if id = 0 then .notified b else .nobody := rfl
  simp only [Scheduler.WakeRight, hwake, mem_workers_init, Kind.nWorkers]
  constructor
  · rintro ⟨hhit, hmiss⟩
    by_contra hbad
    by_cases hzero : id = 0
    · have := hmiss (by rintro w ⟨i, hi, rfl⟩; omega)
      rw [if_pos hzero] at this
      cases this
    · have := hhit b ⟨0, Nat.zero_lt_one, rfl⟩ (by omega)
      rw [if_neg hzero] at this
      cases this
  · intro hgood
    constructor
    · rintro w ⟨i, hi, rfl⟩ hid
      rw [if_pos (by omega), show i = 0 by omega]
      rfl
    · intro hnone
      have := hnone b ⟨0, Nat.zero_lt_one, rfl⟩
      rw [if_neg (by omega)]

/-- `wake_all` of a pool leaves the first worker out. -/
theorem wakeAllRight_pool : (init (.pool n) b).WakeAllRight ↔ n = 0 := by
  constructor
  · intro h
    by_contra hn
    have hfirst := h b (mem_workers_init.mpr ⟨0, Nat.pos_of_ne_zero hn, rfl⟩)
    obtain ⟨i, hi, hwake⟩ := List.mem_map.mp hfirst
    -- the id of the first worker fails the test of `wake`, and no other notifies it
    rw [wake_pool] at hwake
    split_ifs at hwake with hin hlt
    have := Outcome.notified.inj hwake
    omega
  · rintro rfl w hw
    obtain ⟨i, hi, -⟩ := mem_workers_init.mp hw
    exact absurd hi (Nat.not_lt_zero i)

theorem wakeAllRight_thread : (init .thread b).WakeAllRight := by
  intro w hw
  obtain ⟨i, hi, rfl⟩ := mem_workers_init.mp hw
  obtain rfl : i = 0 := Nat.lt_one_iff.mp hi
  exact List.mem_singleton.mpr rfl

end Right

/-- **Which ids `wake` addresses right.**  The workers of the schedulers have consecutive ids.
`wake` notifies the worker with the given id and nobody else exactly for the ids that are
`Addressed`, and `wake_all` notifies all workers exactly for the schedulers that are
`AllAddressed`. -/
theorem wake_right_iff (kinds : List Kind) (htotal : (kinds.map Kind.nWorkers).sum ≤ 253) :
    (construct 0 kinds).flatMap Scheduler.workers = List.range (kinds.map Kind.nWorkers).sum ∧
    ∀ s ∈ construct 0 kinds,
      (∀ id, s.WakeRight id ↔ s.Addressed id) ∧ (s.WakeAllRight ↔ s.AllAddressed) := by
  constructor
  · rw [workers_construct (by omega), List.range_eq_range']
  · intro s hs
    obtain ⟨kind, b, rfl⟩ := exists_init_of_mem hs
    cases kind with
    | pool n => exact ⟨fun id => wakeRight_pool, wakeAllRight_pool⟩
    | thread => exact ⟨fun id => wakeRight_thread, iff_of_true wakeAllRight_thread trivial⟩

/-- A thread behind a pool of two workers: the pool wakes its second worker, the thread ignores
the id of the parser. -/
theorem wake_right_second :
    (construct 0 [.pool 2, .thread]).flatMap Scheduler.workers = [0, 1, 2] ∧
      (init (.pool 2) 0).WakeRight 1 ∧ (init .thread 2).WakeRight 254 := by
  obtain ⟨hids, hright⟩ := wake_right_iff [.pool 2, .thread] (by decide)
  have hpool := (hright (init (.pool 2) 0) (by decide)).1 1
  have hthread := (hright (init .thread 2) (by decide)).1 254
  exact ⟨hids, hpool.mpr (Or.inr (by decide)), hthread.mpr (Or.inr (by decide))⟩

/-- The first worker of a pool is not woken by its id. -/
theorem first_worker_not_woken :
    ¬ ∀ kinds : List Kind, (kinds.map Kind.nWorkers).sum ≤ 253 → ∀ s ∈ construct 0 kinds,
      (∀ id, s.WakeRight id) ∧ s.WakeAllRight := by
  intro hclaim
  have hright := (hclaim [.pool 2] (by decide) (init (.pool 2) 0) (by decide)).1 0
  have : (init (.pool 2) 0).wake 0 = .notified 0 := hright.1 0 (by decide) rfl
  cases this

end RedGrapes.Wake
