/-
RedGrapes/Runtime/Serial.lean

Serial equivalence.  A list of tasks is emplaced into the root space; their
bodies read and write resources within their accesses.  However the runtime
interleaves them, the resources end up as if the bodies had run one after the
other.

The invariant looks forward: if the bodies, as far as they have not been run,
were now run one after the other in the order of submission, the result would
be the serial one (`Serial.result`).  A step of the body of `t` keeps it because
every earlier task that has not finished its body does not conflict with `t`
(`Order.finished_of_serial`), so the step commutes with what is left of it.
-/
import RedGrapes.Runtime.Order
import RedGrapes.Lib.Store

namespace RedGrapes.Runtime

open Function Machine Store ResourceUser

variable {V : Type}

/-! ### Bodies -/

/-- The user has an access on the resource. -/
def Accesses (u : ResourceUser) (r : Resource) : Prop := ∃ ra ∈ u.accessList, ra.resource = r

/-- An access to an `IOResource` with mode read or write. -/
def IsReadWrite (ra : ResourceAccess) : Prop :=
  ∃ (id : Nat) (level : UInt8) (m : IOAccess), ra = ⟨⟨id, level, .io⟩, m⟩ ∧ (m = .read ∨ m = .write)

/-- The user has a write access on the resource. -/
def Writes (u : ResourceUser) (r : Resource) : Prop :=
  ∃ (id : Nat) (level : UInt8), r = ⟨id, level, .io⟩ ∧
    (⟨⟨id, level, .io⟩, IOAccess.write⟩ : ResourceAccess) ∈ u.accessList

namespace Body

/-- The body reads only resources `u` has an access on, and changes only those
it has a write access on. -/
inductive Within (u : ResourceUser) : Body V → Prop
  | done : Within u .done
  | read {r k} (hr : Accesses u r) (hk : ∀ v, Within u (k v)) : Within u (.read r k)
  | write {r v k} (hr : Writes u r) (hk : Within u k) : Within u (.write r v k)

/-- The body run by itself; a child is run where it is submitted. -/
def run : Body V → (Resource → V) → Resource → V
  | .done, σ => σ
  | .read r k, σ => (k (σ r)).run σ
  | .write r v k, σ => k.run (update σ r v)
  | .emplace _ child k, σ => k.run (child.run σ)
  | .createEvent k, σ => k.run σ

variable {u : ResourceUser} {b : Body V} {r : Resource}

theorem Within.keeps (h : b.Within u) (hr : ¬ Writes u r) : Keeps b.run r := by
  induction h with
  | done => exact fun _ => rfl
  | read _ _ ih => exact fun σ => ih _ σ
  | @write r' v k hw _ ih =>
      intro σ
      have hne : r ≠ r' := fun e => hr (e ▸ hw)
      show k.run (update σ r' v) r = σ r
      rw [ih, update_of_ne hne]

theorem Within.ignores (h : b.Within u) (hr : ¬ Accesses u r) : Ignores b.run r := by
  induction h with
  | done => exact fun _ _ => rfl
  | @read r' k ha _ ih =>
      intro σ v
      have hne : r' ≠ r := fun e => hr (e ▸ ha)
      show (k (update σ r v r')).run (update σ r v) = update ((k (σ r')).run σ) r v
      rw [update_of_ne hne, ih]
  | @write r' w k hw _ ih =>
      intro σ v
      have hne : r ≠ r' := by
        rintro rfl
        obtain ⟨id, level, rfl, hmem⟩ := hw
        exact hr ⟨_, hmem, rfl⟩
      show k.run (update (update σ r v) r' w) = update (k.run (update σ r' w)) r v
      rw [update_comm hne, ih]

end Body

/-- Read and write accesses conflict as soon as one of them writes. -/
theorem conflictOn_of_writes {u v : ResourceUser} {r : Resource}
    (hv : ∀ ra ∈ v.accessList, IsReadWrite ra) (hw : Writes u r) (ha : Accesses v r) :
    ConflictOn r u v := by
  obtain ⟨id, level, rfl, hmem⟩ := hw
  obtain ⟨ra, hra, hres⟩ := ha
  obtain ⟨id', level', m, rfl, hm⟩ := hv ra hra
  obtain ⟨rfl, rfl⟩ : id' = id ∧ level' = level := by simpa using hres
  refine ⟨IOAccess.write, m, hmem, hra, ?_⟩
  show IOAccess.isSerial .write m = true
  rcases hm with rfl | rfl <;> rfl

/-! ### Programs -/

/-- A task to be emplaced: its builder calls and a body that keeps to the
accesses they give. -/
structure TaskSpec (V : Type) where
  calls : List BuilderCall
  body : Body V
  readWrite : ∀ ra ∈ (build 0 calls).accessList, IsReadWrite ra
  within : body.Within (build 0 calls)

/-- The main program that emplaces the tasks one after the other. -/
def emplaceAll : List (TaskSpec V) → Body V
  | [] => .done
  | p :: ps => .emplace p.calls p.body (emplaceAll ps)

/-- The bodies run one after the other in the order of submission. -/
def runAll (ps : List (TaskSpec V)) (store : Resource → V) : Resource → V :=
  ps.foldl (fun σ p => p.body.run σ) store

/-- What is left of the body of a task, as a transformation of the resources. -/
def Core.residual (c : Core V) (t : Nat) : (Resource → V) → Resource → V := (c.code (some t)).run

/-- The tasks submitted so far, and the result if the rest of their bodies were
run now. -/
structure Serial (ps : List (TaskSpec V)) (store : Resource → V) (c : Core V) : Prop where
  main : c.code none = emplaceAll (ps.drop c.next)
  root : ∀ t, t < c.next → (c.info t).space = none
  readWrite : ∀ t, t < c.next → ∀ ra ∈ (c.userOf t).accessList, IsReadWrite ra
  within : ∀ t, t < c.next → (c.code (some t)).Within (c.userOf t)
  ended : ∀ t, .result ≤ c.stage t → c.code (some t) = .done
  result : runAll (ps.drop c.next) ((List.range c.next).foldl (fun σ t => c.residual t σ) c.store) =
    runAll ps store

section Step

variable {c c' : Core V} {old new : List Frame} {M : Multiset Frame} {t : Nat}
  {ps : List (TaskSpec V)} {store : Resource → V}

/-- An earlier task that has not finished its body does not conflict with a
running one. -/
theorem Serial.not_conflictOn (hS : Serial ps store c) (hI : Inv c M) (hO : Order c M) {i : Nat}
    (hi : i < t) (hrun : c.stage t = .run) (hcode : c.code (some i) ≠ .done) (r : Resource) :
    ¬ ConflictOn r (c.userOf i) (c.userOf t) := by
  intro hconf
  have ht : t < c.next := hI.events.lt_next (by rw [hrun]; simp)
  have hearlier : c.Earlier i t := ⟨hi, (hS.root i (hi.trans ht)).trans (hS.root t ht).symm⟩
  have hfin := hO.finished_of_serial hI hearlier hconf.isSerial (by rw [hrun]; decide)
  refine hcode (hS.ended i ?_)
  rw [hI.events.done_of_reached hfin]
  decide

/-- A resource that the running task reads is not changed by what is left of
the earlier tasks. -/
theorem Serial.keeps (hS : Serial ps store c) (hI : Inv c M) (hO : Order c M)
    (hrun : c.stage t = .run) {r : Resource} (hr : Accesses (c.userOf t) r) :
    Keeps (fun σ => (List.range t).foldl (fun σ i => c.residual i σ) σ) r := by
  have ht : t < c.next := hI.events.lt_next (by rw [hrun]; simp)
  refine Keeps.foldl fun i hi => ?_
  have hlt := List.mem_range.mp hi
  by_cases hcode : c.code (some i) = .done
  · intro σ
    rw [Core.residual, hcode]
    rfl
  · refine (hS.within i (hlt.trans ht)).keeps fun hw => ?_
    exact hS.not_conflictOn hI hO hlt hrun hcode r (conflictOn_of_writes (hS.readWrite t ht) hw hr)

/-- A resource that the running task writes is not looked at by what is left of
the earlier tasks. -/
theorem Serial.ignores (hS : Serial ps store c) (hI : Inv c M) (hO : Order c M)
    (hrun : c.stage t = .run) {r : Resource} (hr : Writes (c.userOf t) r) :
    Ignores (fun σ => (List.range t).foldl (fun σ i => c.residual i σ) σ) r := by
  have ht : t < c.next := hI.events.lt_next (by rw [hrun]; simp)
  refine Ignores.foldl fun i hi => ?_
  have hlt := List.mem_range.mp hi
  by_cases hcode : c.code (some i) = .done
  · intro σ v
    rw [Core.residual, hcode]
    rfl
  · refine (hS.within i (hlt.trans ht)).ignores fun ha => ?_
    exact hS.not_conflictOn hI hO hlt hrun hcode r
      (conflictOn_of_writes (hS.readWrite i (hlt.trans ht)) hr ha).symm

/-- A body that comes to its end has nothing left. -/
theorem Inv.code_of_result (hI : Inv c (↑old + M)) (hm : Move c old c' new)
    (hI' : Inv c' (↑new + M)) (h : .result ≤ c'.stage t) :
    .result ≤ c.stage t ∨ c.code (some t) = .done := by
  by_contra hne
  push Not at hne
  obtain ⟨hlow, hcode⟩ := hne
  have hrun : c.stage t = .run := by
    rcases stageMove hI hm with ⟨hst, _⟩ | ⟨hst, _⟩ | ⟨s, σ, σ', hs, hnext, hst, _⟩ <;> rw [hst] at h
    · exact absurd h hlow
    · by_cases e : t = c.next
      · rw [e, update_self] at h
        exact absurd h (by decide)
      · rw [update_of_ne e] at h
        exact absurd h hlow
    · by_cases e : t = s
      · subst e
        rw [update_self] at h
        rw [hs] at hlow ⊢
        cases hnext <;> first | rfl | exact absurd h (by decide) | exact absurd (by decide) hlow
      · rw [update_of_ne e] at h
        exact absurd h hlow
  obtain ⟨f, hf, hmem, hkeep⟩ := hI.leaves hI' hrun rfl (by simp) (by simp) (fun e => by
    rw [e] at h
    exact absurd h (by decide))
  cases hm
  case bodyDone s hdone =>
    obtain rfl := List.mem_singleton.mp hf
    obtain rfl : t = s := by simpa [Frame.tasks] using hmem
    exact hcode hdone
  case wakerEnd | wakerReached =>
    obtain rfl := List.mem_singleton.mp hf
    unfold Frame.tasks at hmem
    split at hmem <;> simp_all
  -- the other frames that run a body go on with it
  all_goals first
    | exact absurd hf List.not_mem_nil
    | (obtain rfl := List.mem_singleton.mp hf
       simp [Frame.tasks] at hmem hkeep
       try exact hkeep hmem)

theorem runAll_cons (p : TaskSpec V) (σ : Resource → V) :
    runAll (p :: ps) σ = runAll ps (p.body.run σ) := rfl

/-- A step that changes neither code nor resources. -/
theorem Serial.quiet (hS : Serial ps store c) (hI : Inv c (↑old + M)) (hm : Move c old c' new)
    (hI' : Inv c' (↑new + M)) (hn : c'.next = c.next) (hcode : c'.code = c.code)
    (hstore : c'.store = c.store) : Serial ps store c' where
  main := by rw [hcode, hn, hS.main]
  root := fun t ht => by
    rw [hm.info_eq (hn ▸ ht)]
    exact hS.root t (hn ▸ ht)
  readWrite := fun t ht => by
    rw [userOf_eq hm (hn ▸ ht)]
    exact hS.readWrite t (hn ▸ ht)
  within := fun t ht => by
    rw [userOf_eq hm (hn ▸ ht), hcode]
    exact hS.within t (hn ▸ ht)
  ended := fun t ht => by
    rw [hcode]
    exact (hI.code_of_result hm hI' ht).elim (hS.ended t) id
  result := by
    have hres : c'.residual = c.residual := by
      funext t
      rw [Core.residual, Core.residual, hcode]
    rw [hres, hn, hstore]
    exact hS.result

/-- A step of the body of `t` that does not change the result of the bodies up
to `t`. -/
theorem Serial.bodyStep (hS : Serial ps store c) (hI : Inv c (↑old + M)) (hm : Move c old c' new)
    (hrun : c.stage t = .run) {k : Body V} (hn : c'.next = c.next) (hst : c'.stage = c.stage)
    (hcode : c'.code = update c.code (some t) k) (hwithin : k.Within (c.userOf t))
    (hres : k.run ((List.range t).foldl (fun σ i => c.residual i σ) c'.store) =
      c.residual t ((List.range t).foldl (fun σ i => c.residual i σ) c.store)) :
    Serial ps store c' where
  main := by
    rw [hcode, hn, update_of_ne (by simp)]
    exact hS.main
  root := fun t ht => by
    rw [hm.info_eq (hn ▸ ht)]
    exact hS.root t (hn ▸ ht)
  readWrite := fun t ht => by
    rw [userOf_eq hm (hn ▸ ht)]
    exact hS.readWrite t (hn ▸ ht)
  within := fun i hi => by
    rw [userOf_eq hm (hn ▸ hi), hcode]
    by_cases e : i = t
    · rw [e, update_self]
      exact hwithin
    · rw [update_of_ne (by simpa using e)]
      exact hS.within i (hn ▸ hi)
  ended := fun i hi => by
    rw [hst] at hi
    have hne : i ≠ t := by
      rintro rfl
      rw [hrun] at hi
      exact absurd hi (by decide)
    rw [hcode, update_of_ne (by simpa using hne)]
    exact hS.ended i hi
  result := by
    rw [← hS.result, hn]
    congr 1
    have ht : t < c.next := hI.events.lt_next (by rw [hrun]; simp)
    refine foldl_range_congr ht (fun i hi => ?_) ?_
    · rw [Core.residual, Core.residual, hcode, update_of_ne (by simpa using hi)]
    · rw [Core.residual, hcode, update_self]
      exact hres

/-- The main program submits the next task. -/
theorem Serial.submit (hS : Serial ps store c) (hI : Inv c M) {calls : List BuilderCall}
    {child k : Body V} (hcode : c.code none = .emplace calls child k) :
    Serial ps store (c.create none calls child k) := by
  obtain ⟨p, ps', hdrop, rfl, rfl, rfl⟩ : ∃ p ps', ps.drop c.next = p :: ps' ∧ calls = p.calls ∧
      child = p.body ∧ k = emplaceAll ps' := by
    have hmain := hS.main
    rw [hcode] at hmain
    rcases hd : ps.drop c.next with - | ⟨p, ps'⟩ <;> rw [hd] at hmain
    · simp [emplaceAll] at hmain
    · obtain ⟨h1, h2, h3⟩ := Body.emplace.inj hmain
      exact ⟨p, ps', rfl, h1, h2, h3⟩
  have hrest : ps.drop (c.next + 1) = ps' := by
    rw [← List.drop_drop, hdrop]
    rfl
  -- what holds for the older tasks and for the new one
  have hinfo : ∀ t, t < c.next → (c.create none p.calls p.body (emplaceAll ps')).info t = c.info t :=
    fun t ht => by simp [Core.create, ht.ne]
  have hnew : (c.create none p.calls p.body (emplaceAll ps')).info c.next = ⟨p.calls, none, 0⟩ := by
    simp [Core.create, Graph.depthOf]
  have hold : ∀ t, t < c.next →
      (c.create none p.calls p.body (emplaceAll ps')).code (some t) = c.code (some t) :=
    fun t ht => by simp [Core.create, ht.ne]
  have hself : (c.create none p.calls p.body (emplaceAll ps')).code (some c.next) = p.body := by
    simp [Core.create]
  have hcases : ∀ t, t < c.next + 1 → t < c.next ∨ t = c.next := fun t ht => by omega
  exact {
    main := by
      show _ = emplaceAll (ps.drop (c.next + 1))
      rw [hrest]
      simp [Core.create]
    root := by
      intro t ht
      rcases hcases t ht with ht | rfl
      · rw [hinfo t ht]
        exact hS.root t ht
      · rw [hnew]
    readWrite := by
      intro t ht
      rcases hcases t ht with ht | rfl
      · rw [Core.userOf, hinfo t ht]
        exact hS.readWrite t ht
      · rw [Core.userOf, hnew]
        exact p.readWrite
    within := by
      intro t ht
      rcases hcases t ht with ht | rfl
      · rw [hold t ht, Core.userOf, hinfo t ht]
        exact hS.within t ht
      · rw [hself, Core.userOf, hnew]
        exact p.within
    ended := by
      intro t ht
      have hne : t ≠ c.next := by
        rintro rfl
        rw [show (c.create none p.calls p.body (emplaceAll ps')).stage c.next = .submit by
          simp [Core.create]] at ht
        exact absurd ht (by decide)
      have hst : (c.create none p.calls p.body (emplaceAll ps')).stage t = c.stage t := by
        simp [Core.create, hne]
      rw [hst] at ht
      rw [hold t (hI.events.lt_next fun h => by rw [h] at ht; exact absurd ht (by decide))]
      exact hS.ended t ht
    result := by
      show runAll (ps.drop (c.next + 1)) ((List.range (c.next + 1)).foldl _ c.store) = _
      rw [hrest, ← hS.result, hdrop, runAll_cons, List.range_succ, List.foldl_append,
        List.foldl_cons, List.foldl_nil, Core.residual, hself]
      congr 2
      refine List.foldl_ext _ _ _ fun σ t ht => ?_
      rw [Core.residual, Core.residual, hold t (List.mem_range.mp ht)] }

theorem Serial.step (hS : Serial ps store c) (hI : Inv c (↑old + M)) (hO : Order c (↑old + M))
    (hm : Move c old c' new) (hI' : Inv c' (↑new + M)) : Serial ps store c' := by
  -- the main program only emplaces
  have hmain := hS.main
  have hbody : ∀ {t : Nat}, old = [.body (some t)] → c.stage t = .run ∧ t < c.next := by
    rintro t rfl
    have hst : c.stage t = .run := hI.ledger.stage_head List.mem_cons_self
    exact ⟨hst, hI.events.lt_next (by rw [hst]; simp)⟩
  have hquiet := hS.quiet hI hm hI'
  have hstep := fun t => hS.bodyStep (t := t) hI hm
  cases hm
  case read cur r k hcode =>
    cases cur with
    | none =>
        rw [hcode] at hmain
        cases hd : ps.drop c.next <;> rw [hd] at hmain <;> simp [emplaceAll] at hmain
    | some t =>
        obtain ⟨hrun, ht⟩ := hbody rfl
        have hw := hS.within t ht
        rw [hcode] at hw
        cases hw with
        | read hr hk =>
            refine hstep t hrun rfl rfl rfl (hk _) ?_
            have hkeep : (List.range t).foldl (fun σ i => c.residual i σ) c.store r = c.store r :=
              hS.keeps hI hO hrun hr c.store
            rw [Core.residual, hcode]
            show _ = (k ((List.range t).foldl (fun σ i => c.residual i σ) c.store r)).run _
            rw [hkeep]
  case write cur r v k hcode =>
    cases cur with
    | none =>
        rw [hcode] at hmain
        cases hd : ps.drop c.next <;> rw [hd] at hmain <;> simp [emplaceAll] at hmain
    | some t =>
        obtain ⟨hrun, ht⟩ := hbody rfl
        have hw := hS.within t ht
        rw [hcode] at hw
        cases hw with
        | write hr hk =>
            refine hstep t hrun rfl rfl rfl hk ?_
            rw [Core.residual, hcode]
            exact congrArg k.run (hS.ignores hI hO hrun hr c.store v)
  case emplaceRoot calls child k hcode => exact hS.submit hI hcode
  case emplaceChild t calls child k hcode | createEvent t k hcode =>
    obtain ⟨hrun, ht⟩ := hbody rfl
    have hw := hS.within t ht
    rw [hcode] at hw
    cases hw
  case noEvent k hcode =>
    rw [hcode] at hmain
    cases hd : ps.drop c.next <;> rw [hd] at hmain <;> simp [emplaceAll] at hmain
  all_goals exact hquiet rfl rfl rfl

end Step

theorem Serial.initial (ps : List (TaskSpec V)) (store : Resource → V) :
    Serial ps store (Core.initial (emplaceAll ps) store) where
  main := rfl
  root := by simp [Core.initial]
  readWrite := by simp [Core.initial]
  within := by simp [Core.initial]
  ended := fun t ht => absurd ht (by simp [Core.initial]; decide)
  result := rfl

/-! ### Serial equivalence -/

variable {Tid : Type} [DecidableEq Tid] [Fintype Tid]

/-- The main program is through, and all tasks have reached their
post-events. -/
def State.Complete (s : State Tid V) : Prop :=
  s.core.code none = .done ∧ ∀ t, t < s.core.next → s.core.counter (.post t) = 0

/-- Serial equivalence: every complete run leaves the resources as they are
after the bodies have run one after the other in the order of submission. -/
theorem serial_equivalence {main : Tid} {ps : List (TaskSpec V)} {store : Resource → V}
    {s : State Tid V} (hs : Reaches step NoWrap (State.initial main (emplaceAll ps) store) s)
    (hc : s.Complete) : s.core.store = runAll ps store := by
  have h : (Inv s.core (frames s.threads) ∧ Order s.core (frames s.threads)) ∧
      Serial ps store s.core := by
    refine invariant_of_moves (I := fun c M => (Inv c M ∧ Order c M) ∧ Serial ps store c)
      ⟨⟨Inv.initial _ store, Order.initial _ store⟩, Serial.initial ps store⟩ (fun hw hm h => ?_) hs
    obtain ⟨⟨hI, hO⟩, hS⟩ := h
    have hI' := hI.step hw hm
    exact ⟨⟨hI', hO.step hI hm hI'⟩, hS.step hI hO hm hI'⟩
  obtain ⟨⟨hI, -⟩, hS⟩ := h
  -- nothing is left to submit and nothing is left to run
  have hdrop : ps.drop s.core.next = [] := by
    have hmain := hS.main
    rw [hc.1] at hmain
    cases hd : ps.drop s.core.next with
    | nil => rfl
    | cons p ps' =>
        rw [hd] at hmain
        simp [emplaceAll] at hmain
  have hcode : ∀ t, t < s.core.next → s.core.code (some t) = .done := by
    intro t ht
    refine hS.ended t ?_
    rw [hI.events.done_of_reached ((hI.events.open_iff _).not.mpr (by simp [hc.2 t ht]))]
    decide
  have hfold : (List.range s.core.next).foldl (fun σ t => s.core.residual t σ) s.core.store =
      s.core.store := by
    refine List.foldlRecOn (motive := fun σ => σ = s.core.store) _ _ rfl fun σ hσ t ht => ?_
    rw [Core.residual, hcode t (List.mem_range.mp ht)]
    exact hσ
  have hres := hS.result
  rw [hdrop, hfold] at hres
  exact hres

/-- A task that writes a resource. -/
def producer : TaskSpec Nat where
  calls := [.resources [Graph.ioAccess 0 .write]]
  body := .write (Graph.ioResource 0) 1 .done
  readWrite := by
    intro ra hra
    rw [build_accessList] at hra
    simp only [BuilderCall.accesses, List.flatMap_cons, List.flatMap_nil, List.append_nil,
      List.mem_singleton] at hra
    exact ⟨0, 0, .write, hra, .inr rfl⟩
  within := .write ⟨0, 0, rfl, by simp [build_accessList, BuilderCall.accesses, Graph.ioAccess,
    Graph.ioResource]⟩ .done

/-- A task that reads it and writes another one. -/
def consumer : TaskSpec Nat where
  calls := [.resources [Graph.ioAccess 0 .read, Graph.ioAccess 1 .write]]
  body := .read (Graph.ioResource 0) fun v => .write (Graph.ioResource 1) (v + 1) .done
  readWrite := by
    intro ra hra
    rw [build_accessList] at hra
    simp only [BuilderCall.accesses, List.flatMap_cons, List.flatMap_nil, List.append_nil,
      List.mem_pair] at hra
    rcases hra with h | h
    · exact ⟨0, 0, .read, h, .inl rfl⟩
    · exact ⟨1, 0, .write, h, .inr rfl⟩
  within := .read ⟨Graph.ioAccess 0 .read, by simp [build_accessList, BuilderCall.accesses], rfl⟩
    fun _ => .write ⟨1, 0, rfl, by simp [build_accessList, BuilderCall.accesses, Graph.ioAccess,
      Graph.ioResource]⟩ .done

/-- The consumer is initialised first and waits for the producer.  The thread `m` submits, `i`
executes the producer and `j` the consumer. -/
def producerConsumerRun (m i j : Fin 3) : List (Action (Fin 3)) :=
  List.flatten [.replicate 9 (.run m), .call j (.popEmplaced 1) :: .replicate 13 (.run j),
    .call i (.popEmplaced 0) :: .replicate 28 (.run i),
    .call j (.popReady 1) :: .replicate 12 (.run j)]

theorem serial_equivalence_producer_consumer :
    ∃ s : State (Fin 3) Nat, s.Complete ∧ s.core.store (Graph.ioResource 1) = 2 ∧
      s.core.store = runAll [producer, consumer] fun _ => 0 := by
  have hrun : ((exec step NoWrap (producerConsumerRun 0 1 2)
      (State.initial 0 (emplaceAll [producer, consumer]) fun _ => 0)).map fun s =>
        (s.core.next, s.core.counter (.post 0), s.core.counter (.post 1),
          (match s.core.code none with | .done => true | _ => false),
          s.core.store (Graph.ioResource 1))) = some (2, 0, 0, true, 2) := by
    decide +kernel
  obtain ⟨s, hs, h⟩ := Option.map_eq_some_iff.mp hrun
  simp only [Prod.mk.injEq] at h
  obtain ⟨hnext, h0, h1, hmain, hstore⟩ := h
  have hc : s.Complete := by
    refine ⟨?_, fun t ht => ?_⟩
    · split at hmain
      · assumption
      · simp at hmain
    · obtain rfl | rfl : t = 0 ∨ t = 1 := by omega
      · exact h0
      · exact h1
  exact ⟨s, hc, hstore, serial_equivalence (Reaches.refl.of_exec hs) hc⟩

end RedGrapes.Runtime
