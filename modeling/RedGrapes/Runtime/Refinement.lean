/-
RedGrapes/Runtime/Refinement.lean

The runtime refines the abstract scheduler of `Lib/Schedule.lean`.

A task is a job, its conflicts are given by `is_serial`, and its parent is the task in whose space
it is.  It has started when a worker runs its body, has finished when the body is done, and is
released when its post-event is reached.  Everything else, user lists and scans, follower lists,
counters, queues, `Future`s and external events, is invisible.

A step of the runtime starts, finishes or submits a job or does nothing of this
(`Move.schedule_stage`), and it reaches a post-event or none (`Move.schedule_release`): so it
is at most two steps of the abstract scheduler, often none.

* `runtime_refines` — the abstract scheduler follows every run of the runtime step by step, and
  what its invariant says holds of the runtime: nothing below a task runs before everything
  below an earlier task of its space that it conflicts with has reached its post-event.
-/
import RedGrapes.Runtime.Nesting
import RedGrapes.Lib.Schedule
import RedGrapes.Lib.Simulation

namespace RedGrapes.Runtime

open Function Machine

variable {V : Type}

/-! ### The abstraction -/

/-- Who submits a task, and which tasks conflict. -/
def jobRules : JobRules TaskInfo where
  parent := TaskInfo.space
  conflict := fun i j => i.user.isSerial j.user = true

/-- What the abstract scheduler sees of a state. -/
def Core.schedule (c : Core V) : Schedule TaskInfo where
  jobs := (List.range c.next).map c.info
  started := {t | .run ≤ c.stage t}
  finished := {t | .result ≤ c.stage t}
  released := {t | c.phase (.post t) ≠ .open}

section Step

variable {c c' : Core V} {old new : List Frame} {M : Multiset Frame} {t u : Nat} {j : TaskInfo}

theorem schedule_job (h : c.schedule.jobs[t]? = some j) : t < c.next ∧ j = c.info t := by
  obtain ⟨ht, hj⟩ := List.getElem?_eq_some_iff.mp h
  simp only [Core.schedule, List.length_map, List.length_range] at ht
  simp only [Core.schedule, List.getElem_map, List.getElem_range] at hj
  exact ⟨ht, hj.symm⟩

theorem schedule_job_of_lt (ht : t < c.next) : c.schedule.jobs[t]? = some (c.info t) := by
  simp [Core.schedule, ht]

/-- A step submits a task of the running thread of control, or leaves the tasks alone. -/
theorem Move.create_or_same (hm : Move c old c' new) :
    (∃ cur calls child k, old = [.body cur] ∧ c' = c.create cur calls child k) ∨
      c'.next = c.next ∧ c'.info = c.info := by
  cases hm
  case emplaceRoot => exact .inl ⟨_, _, _, _, rfl, rfl⟩
  case emplaceChild => exact .inl ⟨_, _, _, _, rfl, rfl⟩
  all_goals exact .inr ⟨rfl, rfl⟩

/-- A step reaches at most one event. -/
theorem EventMove.reached (h : EventMove c c') :
    ∃ e₀, ∀ e, c'.phase e ≠ .open → e = e₀ ∨ c.phase e ≠ .open := by
  cases h with
  | same _ hph | push _ _ _ _ hph | count _ _ _ _ hph =>
      exact ⟨.pre 0, fun e he => .inr (hph ▸ he)⟩
  | phase e₁ ph ph' _ _ _ hph =>
      refine ⟨e₁, fun e he => ?_⟩
      by_cases ee : e = e₁
      · exact .inl ee
      · rw [hph, update_of_ne ee] at he
        exact .inr he
  | notify i todo d hd hf hph hph' hst =>
      refine ⟨d.dst, fun e he => ?_⟩
      by_cases ee : e = d.dst
      · exact .inl ee
      by_cases es : e = d.src
      · rw [es, hph]
        exact .inr (by simp)
      · rw [hph', update_of_ne es] at he
        by_cases h1 : c.counter d.dst = 1
        · simp only [Core.fetchSub, h1, if_true, update_of_ne ee] at he
          exact .inr he
        · simp only [Core.fetchSub, h1, if_false] at he
          exact .inr he

/-- The tasks that reach a stage with a step: none, or the one that goes on to it. -/
theorem stages_go {σ σ' ρ : Stage} (ht : c.stage t = σ) (hnext : σ.Next σ')
    (hst : c'.stage = update c.stage t σ') :
    {i | ρ ≤ c'.stage i} = if ¬ ρ ≤ σ ∧ ρ ≤ σ' then insert t {i | ρ ≤ c.stage i}
      else {i | ρ ≤ c.stage i} := by
  have hmono := hnext.rank_lt
  ext i
  by_cases e : i = t
  · subst e
    split_ifs with h
    · simp [hst, h.2]
    · simp only [Set.mem_ofPred_eq, hst, update_self, ht]
      simp only [Stage.le_def] at h ⊢
      omega
  · split_ifs <;> simp [hst, e]

/-- The abstract scheduler gets from one state to the other with at most one step. -/
def Follows (s s' : Schedule TaskInfo) : Prop :=
  s' = s ∨ ∃ a, Schedule.step jobRules s a = some s'

/-- A step of the runtime without the event it reaches. -/
theorem Move.schedule_stage (hI : Inv c (↑old + M)) (hO : Order c (↑old + M))
    (hm : Move c old c' new) : Follows c.schedule
      ⟨c'.schedule.jobs, c'.schedule.started, c'.schedule.finished, c.schedule.released⟩ := by
  rcases hm.create_or_same with ⟨cur, calls, child, k, rfl, rfl⟩ | ⟨hn, hinfo⟩
  · -- a job is submitted
    have hunborn : c.stage c.next = .unborn := (hI.events.born _).mpr le_rfl
    have hstages : ∀ ρ : Stage, ¬ ρ ≤ .submit →
        {i | ρ ≤ (c.create cur calls child k).stage i} = {i | ρ ≤ c.stage i} := by
      intro ρ hρ
      ext i
      by_cases e : i = c.next
      · subst e
        have : ¬ ρ ≤ Stage.unborn := fun h => hρ (Stage.le_trans h (by decide))
        simp [Core.create, hunborn, hρ, this]
      · simp [Core.create, e]
    have hjobs : (c.create cur calls child k).schedule.jobs =
        c.schedule.jobs ++ [⟨calls, cur, Graph.depthOf c.info cur⟩] := by
      simp only [Core.schedule, Core.create, List.range_succ, List.map_append, List.map_cons,
        List.map_nil, update_self]
      congr 1
      refine List.map_congr_left fun i hi => ?_
      rw [update_of_ne (List.mem_range.mp hi).ne]
    refine .inr ⟨.submit ⟨calls, cur, Graph.depthOf c.info cur⟩, ?_⟩
    rw [Schedule.step, if_pos]
    · rw [hjobs, show (c.create cur calls child k).schedule.started = c.schedule.started from
        hstages .run (by decide), show (c.create cur calls child k).schedule.finished =
        c.schedule.finished from hstages .result (by decide)]
    · rintro u rfl
      have hst : c.stage u = .run := hI.ledger.stage_head List.mem_cons_self
      exact ⟨by simp only [Core.schedule, Set.mem_ofPred_eq, hst]; decide,
        by simp only [Core.schedule, Set.mem_ofPred_eq, hst]; decide⟩
  have hjobs : c'.schedule.jobs = c.schedule.jobs := by simp only [Core.schedule, hn, hinfo]
  rcases stageMove hI hm with ⟨hst, -⟩ | ⟨-, hn'⟩ | ⟨t, σ, σ', ht, hnext, hst, -, -⟩
  · left
    rw [hjobs, Core.schedule, Core.schedule, hst]
  · rw [hn] at hn'
    exact absurd hn' (by omega)
  · have hgo := fun ρ : Stage => stages_go (ρ := ρ) ht hnext hst
    rw [hjobs, show c'.schedule.started = _ from hgo .run, show c'.schedule.finished = _ from
      hgo .result]
    cases hnext
    case run =>
      -- a job starts
      have hlt : t < c.next := hI.events.lt_next (by rw [ht]; simp)
      rw [if_pos (by decide), if_neg (by decide)]
      refine .inr ⟨.start t, ?_⟩
      rw [Schedule.step, if_pos]
      · rfl
      · refine ⟨by simp only [Core.schedule, Set.mem_ofPred_eq, ht]; decide, _,
          schedule_job_of_lt hlt, fun i k hi hk hpar hconf => ?_⟩
        obtain ⟨-, rfl⟩ := schedule_job hk
        exact hO.finished_of_serial hI ⟨hi, hpar⟩ hconf (by rw [ht]; decide)
    case result =>
      -- a job finishes
      rw [if_neg (by decide), if_pos (by decide)]
      refine .inr ⟨.finish t, ?_⟩
      rw [Schedule.step, if_pos]
      · rfl
      · exact ⟨by simp only [Core.schedule, Set.mem_ofPred_eq, ht]; decide,
          by simp only [Core.schedule, Set.mem_ofPred_eq, ht]; decide⟩
    all_goals
      rw [if_neg (by decide), if_neg (by decide)]
      exact .inl rfl

/-- The event that a step reaches. -/
theorem Move.schedule_release (hI : Inv c (↑old + M)) (hm : Move c old c' new)
    (hI' : Inv c' (↑new + M)) :
    Follows ⟨c'.schedule.jobs, c'.schedule.started, c'.schedule.finished, c.schedule.released⟩
      c'.schedule := by
  obtain ⟨e₀, he₀⟩ := (eventMove hI hm).reached
  have hkeep : c.schedule.released ⊆ c'.schedule.released := fun i hi ho =>
    hi ((eventMove hI hm).open ho)
  by_cases hnew : ∃ t, t ∈ c'.schedule.released ∧ t ∉ c.schedule.released
  · obtain ⟨t, ht, hnot⟩ := hnew
    have he : EventPtr.post t = e₀ := (he₀ _ ht).resolve_right hnot
    have honly : ∀ i, i ∈ c'.schedule.released → i = t ∨ i ∈ c.schedule.released := by
      intro i hi
      exact (he₀ _ hi).imp_left fun h => EventPtr.post.inj (h.trans he.symm)
    have hrel : c'.schedule.released = insert t c.schedule.released :=
      Set.Subset.antisymm (fun i hi => honly i hi) (Set.insert_subset ht hkeep)
    refine .inr ⟨.release t, ?_⟩
    rw [Schedule.step, if_pos]
    · rw [← hrel]
    · refine ⟨?_, hnot, fun u j hu hpar => ?_⟩
      · show .result ≤ c'.stage t
        rw [hI'.events.done_of_reached ht]
        decide
      · -- its children come first
        obtain ⟨hlt, rfl⟩ := schedule_job hu
        have hchild : c'.AncestorOrSelf t u := .single ⟨hlt, hpar⟩
        have hrelu : u ∈ c'.schedule.released := hI'.reached_of_ancestor hchild ht
        refine (honly u hrelu).resolve_left ?_
        exact (hI'.lists.parent u t hlt hpar).1.ne'
  · push Not at hnew
    left
    rw [Set.Subset.antisymm hkeep hnew]

end Step

/-! ### Runs -/

theorem below_of_ancestor {c : Core V} {a t : Nat} (h : c.AncestorOrSelf a t) :
    c.schedule.Below jobRules a t := by
  induction h with
  | refl => exact .refl
  | tail _ hc ih => exact ih.tail ⟨_, schedule_job_of_lt hc.1, hc.2⟩

/-- At most two steps of the abstract scheduler, as a list. -/
theorem Follows.exec {s s₁ s₂ : Schedule TaskInfo} (h : Follows s s₁) (h' : Follows s₁ s₂) :
    ∃ b, b.length ≤ 2 ∧ exec (Schedule.step jobRules) (fun _ _ => True) b s = some s₂ := by
  rcases h with rfl | ⟨a, ha⟩ <;> rcases h' with rfl | ⟨a', ha'⟩
  · exact ⟨[], by simp, rfl⟩
  · exact ⟨[a'], by simp, by simp [Machine.exec, ha']⟩
  · exact ⟨[a], by simp, by simp [Machine.exec, ha]⟩
  · exact ⟨[a, a'], by simp, by simp [Machine.exec, ha, ha']⟩

variable {Tid : Type} [DecidableEq Tid] [Fintype Tid] {main : Tid} {prog : Body V}
  {store : Resource → V} {s s' : State Tid V}

/-- What the runtime keeps and the refinement needs. -/
def Related (s : State Tid V) : Prop :=
  Inv s.core (frames s.threads) ∧ Order s.core (frames s.threads)

theorem related_initial : Related (State.initial main prog store) := by
  unfold Related
  rw [frames_initial]
  exact ⟨Inv.initial prog store, Order.initial prog store⟩

/-- The abstract scheduler follows a step of the runtime. -/
theorem Related.step {a : Action Tid} (h : Related s) (hok : NoWrap s a)
    (hstep : Runtime.step s a = some s') : Related s' ∧ ∃ b, b.length ≤ 2 ∧
      exec (Schedule.step jobRules) (fun _ _ => True) b s.core.schedule =
        some s'.core.schedule := by
  obtain ⟨hI, hO⟩ := h
  obtain ⟨old, new, M, h1, h2, hm, htop⟩ := step_pool hstep
  rw [h1] at hI hO
  have hI' := hI.step (fun f hf e he => hok.upsOn_lt (htop f hf) he) hm
  refine ⟨?_, (hm.schedule_stage hI hO).exec (hm.schedule_release hI hI')⟩
  rw [Related, h2]
  exact ⟨hI', hO.step hI hm hI'⟩

omit [Fintype Tid] in
theorem schedule_initial : (State.initial main prog store).core.schedule = Schedule.empty := by
  simp only [Core.schedule, State.initial, Core.initial, Schedule.empty, Schedule.mk.injEq]
  refine ⟨rfl, ?_, ?_, ?_⟩ <;> ext i <;> simp <;> decide

/-- Of two tasks of one space that conflict, everything below the earlier has reached its
post-event before anything below the later runs. -/
theorem conflicting_trees_apart {c : Core V} (h : Schedule.Inv jobRules c.schedule)
    {i j x y : Nat} (hij : i < j) (hj : j < c.next) (hspace : (c.info i).space = (c.info j).space)
    (hser : (c.userOf i).isSerial (c.userOf j) = true) (hx : c.AncestorOrSelf i x)
    (hy : c.AncestorOrSelf j y) (hrun : .run ≤ c.stage y) : c.phase (.post x) ≠ .open :=
  h.released_of_started hij (schedule_job_of_lt (hij.trans hj)) (schedule_job_of_lt hj) hspace hser
    (below_of_ancestor hx) (below_of_ancestor hy) hrun

end RedGrapes.Runtime
