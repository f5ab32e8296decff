/-
RedGrapes/Runtime/Invariant.lean

The invariant of the runtime, in four parts.

* `Ledger`: what the frames have in hand (`Runtime/Ledger.lean`).
* `Events`: a counter is the number of units its event still holds plus the
  number of follower entries it still waits for, and an entry has been
  notified once if the loop over its list has passed it, else not at all.
* `Lists`: the user lists hold the usage entries of the tasks, and a task that
  is past `delete_from_resources` has left all of them.
* `Frame.Ok`: what a frame has read is still true; for a frame that holds a
  lock this is what the lock is for.
-/
import RedGrapes.Runtime.Ledger

namespace RedGrapes.Runtime

open Function Machine

/-! ### The order of the stages -/

namespace Stage

/-- Stages are passed in this order; `blocked` and `active` may be skipped. -/
def rank : Stage → Nat
  | .unborn => 0
  | .submit => 1
  | .emplaced => 2
  | .popped => 3
  | .init => 4
  | .blocked => 5
  | .active => 6
  | .exec => 7
  | .run => 8
  | .result => 9
  | .finish => 10
  | .done => 11

instance : LE Stage := ⟨fun a b => a.rank ≤ b.rank⟩

instance (a b : Stage) : Decidable (a ≤ b) := inferInstanceAs (Decidable (a.rank ≤ b.rank))

/-- The units a pre-event holds: one until the task is executed, one more while
it is being initialised. -/
def preUnits : Stage → Nat
  | .init => 2
  | .run | .result | .finish | .done => 0
  | _ => 1

/-- The unit a post-event holds until the task is executed. -/
def postUnits : Stage → Nat
  | .done => 0
  | _ => 1

/-- The unit a result-set-event holds until the result is set. -/
def resultUnits : Stage → Nat
  | .finish | .done => 0
  | _ => 1

end Stage

/-- The loop over the follower list has passed the entry `i`. -/
def Phase.passed (i : Nat) : Phase → Bool
  | .open | .reached | .drained => false
  | .looping todo => i ∉ todo
  | .looped | .gone => true

/-- Followers can still be added, or an addition is under way. -/
def Phase.early : Phase → Bool
  | .open | .reached => true
  | _ => false

variable {V : Type}

namespace Core

/-- The units of an event that belong to no follower entry. -/
def units (c : Core V) : EventPtr → Nat
  | .pre t => (c.stage t).preUnits
  | .post t => (c.stage t).postUnits
  | .resultSet t => (c.stage t).resultUnits
  | .resultGet t => if c.getSpent t then 0 else 1
  | .external x => if c.extStage x = .fired then 0 else 1

end Core

/-- The follower entry is counted at `e` and not yet notified. -/
def Follower.waits (e : EventPtr) (d : Follower) : Bool :=
  d.dst == e && d.counted && d.notified == 0

namespace Core

/-- The follower entries the event still waits for. -/
def pending (c : Core V) (e : EventPtr) : Nat := c.followers.countP (·.waits e)

/-- There is a follower entry from `src` to `dst`. -/
def Edge (c : Core V) (src dst : EventPtr) : Prop :=
  ∃ d ∈ c.followers, d.src = src ∧ d.dst = dst

/-- The follower entry `d` at index `i`. -/
structure EdgeOk (c : Core V) (i : Nat) (d : Follower) : Prop where
  notified : d.notified = ((c.phase d.src).passed i).toNat
  counted : d.counted = false → (c.phase d.src).early = true
  shape : (∃ p t, d.src = .post p ∧ d.dst = .pre t ∧ p < c.next) ∨
    (∃ t u, d.src = .post t ∧ d.dst = .post u ∧ t < c.next ∧ (c.info t).space = some u) ∨
    ∃ x, d.src = .external x ∧ d.dst = .post (c.extTask x) ∧ x < c.nextEvent
  initialised : ∀ t, d.dst = .pre t → .init ≤ c.stage t
  counting : ∀ t, d.dst = .pre t → d.counted = false → c.stage t = .init
  activated : ∀ t, d.dst = .pre t → .active ≤ c.stage t → d.notified = 1

end Core

/-- Counters, follower entries and fresh names. -/
structure Events (c : Core V) : Prop where
  born : ∀ t, c.stage t = .unborn ↔ c.next ≤ t
  event : ∀ x, c.extStage x = .unborn ↔ c.nextEvent ≤ x
  spent : ∀ t, c.getSpent t = true → t < c.next
  counter : ∀ e, c.counter e = c.units e + c.pending e
  small : ∀ e, c.counter e < counterSize
  open_iff : ∀ e, c.phase e = .open ↔ c.counter e ≠ 0
  edge : ∀ i d, c.followers[i]? = some d → c.EdgeOk i d
  looping : ∀ e todo, c.phase e = .looping todo →
    todo.Nodup ∧ ∀ i ∈ todo, ∃ d, c.followers[i]? = some d ∧ d.src = e
  blocked : ∀ t, c.stage t = .blocked → 0 < c.pending (.pre t)

/-- User lists, usage entries, and the edges between a task and its parent. -/
structure Lists (c : Core V) : Prop where
  mem_iff : ∀ t r k, (r, k) ∈ c.entries t ↔ ∃ b : Bool, (c.users r)[k]? = some (.mk t b)
  unborn : ∀ t, c.stage t = .unborn → c.entries t = []
  complete : ∀ t, .emplaced ≤ c.stage t → (c.entries t).map Prod.fst = c.resourcesOf t
  removed : ∀ r (k t : Nat), (c.users r)[k]? = some ⟨t, true⟩ → c.phase (.post t) ≠ .open
  drained : ∀ t, (c.phase (.post t)).early = false →
    ∀ r k, (r, k) ∈ c.entries t → (c.users r)[k]? = some ⟨t, true⟩
  parent : ∀ t u, t < c.next → (c.info t).space = some u → u < t ∧ .run ≤ c.stage u
  child : ∀ t u, .emplaced ≤ c.stage t → (c.info t).space = some u →
    c.Edge (.post t) (.post u)
  event : ∀ x, x < c.nextEvent → c.Edge (.external x) (.post (c.extTask x))

/-! ### What frames know -/

/-- All usage entries of `t` but those in `es` are removed. -/
def Core.RemovedBut (c : Core V) (t : Nat) (es : List (Resource × Nat)) : Prop :=
  (∀ x ∈ es, x ∈ c.entries t) ∧
    ∀ r k, (r, k) ∈ c.entries t → (r, k) ∈ es ∨ (c.users r)[k]? = some ⟨t, true⟩

/-- The scan of `t` stands at the live entry of `p` at place `k`. -/
def Core.Found (c : Core V) (t p : Nat) (r : Resource) (k : Nat) : Prop :=
  (c.users r)[k]? = some ⟨p, false⟩ ∧ verdict c.info t p = .depend

/-- What the frame has established and relies on. -/
def Frame.Ok (c : Core V) : Frame → Prop
  | .submit .follower t cur => (c.info t).space = cur ∧ c.entries t = []
  | .submit (.count i) t cur => (c.info t).space = cur ∧ c.entries t = [] ∧
      ∃ u, cur = some u ∧ c.followers[i]? = some ⟨.post t, .post u, false, 0⟩
  | .submit (.users rs) t cur => (c.info t).space = cur ∧
      (c.entries t).map Prod.fst ++ rs = c.resourcesOf t ∧
      ∀ u, cur = some u → c.Edge (.post t) (.post u)
  | .makeEvent i x t => c.followers[i]? = some ⟨.external x, .post t, false, 0⟩
  | .init (.check r k p _) t => c.Found t p r k
  | .init (.follow r k p _) t => c.Found t p r k
  | .init (.push r k p _) t => c.Found t p r k
  | .init (.count r k p _ i) t => c.Found t p r k ∧
      c.followers[i]? = some ⟨.post p, .pre t, false, 0⟩
  | .init (.next r k p _) t => c.Found t p r k
  | .delete (.resources es) t => c.RemovedBut t es
  | .delete (.remove r k es) t => c.RemovedBut t ((r, k) :: es)
  | .delete (.unlock _ es) t => c.RemovedBut t es
  | .removal e t => e = .post t ∨ e = .resultGet t
  | _ => True

/-- The invariant of the runtime. -/
structure Inv (c : Core V) (M : Multiset Frame) : Prop where
  ledger : Ledger c M
  events : Events c
  lists : Lists c
  frames : ∀ f ∈ M, f.Ok c

end RedGrapes.Runtime
