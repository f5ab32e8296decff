/-
RedGrapes/DependencyGraph.lean

The dependency graph as `init_graph` builds it (`task/property/graph.tpp`,
`TaskSpace::submit`), seen sequentially: tasks are submitted one after the
other, `init_graph` runs on them in any order, and none of them completes, so
no entry leaves a user list and no event is reached.

`scan` is the inner loop of `init_graph`: it walks the user list of one
resource backwards from the task's own entry, adds a dependency on every
serial task of the same space, and stops at the first of these that has a
synchronizing access on the resource, or at the parent task.

Main results: the edges of a space generate exactly the order of its serial
pairs (`edges_generate_serial_order`), and the edges point from earlier to
later tasks exactly when no task that conflicts with itself stands twice in
one user list (`edges_forward_iff`).
-/
import RedGrapes.ResourceUser
import RedGrapes.Lib.Prune

namespace RedGrapes

open Function

/-- What a task is given before it is submitted.  A task is named by its
place in the order of submission, a `TaskSpace` by its parent task; `none` is
the root space. -/
structure TaskInfo where
  calls : List BuilderCall
  space : Option Nat
  depth : Nat

namespace TaskInfo

/-- The task as a `ResourceUser`; `scope_level` is a `uint8_t`. -/
def user (i : TaskInfo) : ResourceUser := ResourceUser.build (UInt8.ofNat i.depth) i.calls

instance : Inhabited TaskInfo := ⟨⟨[], none, 0⟩⟩

end TaskInfo

/-! ### Looking at one predecessor -/

/-- What `init_graph` does with one entry of a user list. -/
inductive Verdict
  | stop
  | skip
  | depend
deriving DecidableEq

/-- The tests of the loop body for the task `t` and the preceding entry `p`:
stop at the parent, depend on serial tasks of the same space. -/
def verdict (info : Nat → TaskInfo) (t p : Nat) : Verdict :=
  if (info t).space = some p then .stop
  else if (info p).space = (info t).space ∧ (info p).user.isSerial (info t).user = true then .depend
  else .skip

theorem verdict_eq_stop_iff {info : Nat → TaskInfo} {t p : Nat} :
    verdict info t p = .stop ↔ (info t).space = some p := by
  unfold verdict
  split_ifs with h1 h2 <;> simp [h1]

theorem verdict_eq_depend_iff {info : Nat → TaskInfo} {t p : Nat} :
    verdict info t p = .depend ↔ (info t).space ≠ some p ∧ (info p).space = (info t).space ∧
      (info p).user.isSerial (info t).user = true := by
  unfold verdict
  split_ifs with h1 h2 <;> simp_all

theorem verdict_congr {info info' : Nat → TaskInfo} {t p : Nat}
    (ht : info t = info' t) (hp : info p = info' p) :
    verdict info t p = verdict info' t p := by
  rw [verdict, verdict, ht, hp]

/-- The loop over the older entries of one user list, newest first: the
tasks on which `add_dependency` is called. -/
def scan (info : Nat → TaskInfo) (t : Nat) (r : Resource) : List Nat → List Nat
  | [] => []
  | p :: older =>
      match verdict info t p with
      | .stop => []
      | .skip => scan info t r older
      | .depend => p :: if (info p).user.hasSyncAccess r then [] else scan info t r older

/-! ### The graph -/

/-- Submitted tasks, user lists and edges; `(i, j)` in `edges` is an edge from
the post-event of `i` to the pre-event of `j`. -/
structure Graph where
  next : Nat
  info : Nat → TaskInfo
  users : Resource → List Nat
  /-- The usage entries of a task: resource and position in its user list, in
  the order in which the source iterates `unique_resources`. -/
  entries : Nat → List (Resource × Nat)
  initialised : List Nat
  edges : List (Nat × Nat)

namespace Graph

def empty : Graph where
  next := 0
  info := fun _ => default
  users := fun _ => []
  entries := fun _ => []
  initialised := []
  edges := []

/-- `r->user_entry = r->resource->users.push(task)`. -/
def pushUser (t : Nat) (g : Graph) (r : Resource) : Graph :=
  { g with
    users := update g.users r (g.users r ++ [t])
    entries := update g.entries t (g.entries t ++ [(r, (g.users r).length)]) }

/-- The depth of a space. -/
def depthOf (info : Nat → TaskInfo) : Option Nat → Nat
  | none => 0
  | some u => (info u).depth + 1

/-- `TaskSpace::submit`. -/
def submit (g : Graph) (space : Option Nat) (calls : List BuilderCall) : Graph :=
  let i : TaskInfo := ⟨calls, space, depthOf g.info space⟩
  i.user.uniqueResources.reverse.foldl (pushUser g.next)
    { g with next := g.next + 1, info := update g.info g.next i }

/-- The tasks on which `init_graph` of `t` calls `add_dependency`. -/
def predecessors (g : Graph) (t : Nat) : List Nat :=
  (g.entries t).flatMap fun e => scan g.info t e.1 ((g.users e.1).take e.2).reverse

/-- `GraphProperty::init_graph`. -/
def initGraph (g : Graph) (t : Nat) : Graph :=
  { g with
    initialised := t :: g.initialised
    edges := g.edges ++ (g.predecessors t).map fun p => (p, t) }

end Graph

/-- One step of a sequential run: a submission into a space, or `init_graph`
of a submitted task. -/
inductive GraphOp
  | submit (space : Option Nat) (calls : List BuilderCall)
  | init (t : Nat)

namespace Graph

/-- Whether an operation can be called: a child space needs its parent, and
`init_graph` a submitted task. -/
def enabled (g : Graph) : GraphOp → Bool
  | .submit none _ => true
  | .submit (some u) _ => decide (u < g.next)
  | .init t => decide (t < g.next)

def apply (g : Graph) (op : GraphOp) : Graph :=
  if g.enabled op then
    match op with
    | .submit space calls => g.submit space calls
    | .init t => g.initGraph t
  else g

def run (ops : List GraphOp) : Graph := ops.foldl apply empty

/-! ### Submission -/

section Submit

variable {t : Nat} {g : Graph} {rs : List Resource}

/-- Pushing user entries touches `users` and `entries` only. -/
theorem foldl_pushUser_frame {β : Type*} (f : Graph → β)
    (hf : ∀ g r, f (pushUser t g r) = f g) : f (rs.foldl (pushUser t) g) = f g := by
  induction rs generalizing g with
  | nil => rfl
  | cons r rs ih => exact ih.trans (hf g r)

theorem foldl_pushUser_entries_of_ne {s : Nat} (h : s ≠ t) :
    (rs.foldl (pushUser t) g).entries s = g.entries s :=
  foldl_pushUser_frame (fun g => g.entries s) fun _ _ => update_of_ne h _ _

/-- User lists only grow, by one entry of the submitted task for each of its
usage entries. -/
theorem foldl_pushUser_users (r : Resource) :
    (rs.foldl (pushUser t) g).users r = g.users r ++ List.replicate (rs.count r) t := by
  induction rs generalizing g with
  | nil => simp
  | cons r' rs ih =>
      rw [List.foldl_cons, ih]
      by_cases h : r = r'
      · subst h
        show update g.users r (g.users r ++ [t]) r ++ _ = _
        rw [update_self, List.append_assoc, List.count_cons_self, List.replicate_succ]
        rfl
      · show update g.users r' (g.users r' ++ [t]) r ++ _ = _
        rw [update_of_ne h, List.count_cons_of_ne (fun e => h e.symm)]

theorem getElem?_concat_eq_some_iff {β : Type*} {l : List β} {a b : β} {k : Nat} :
    (l ++ [a])[k]? = some b ↔ l[k]? = some b ∨ k = l.length ∧ a = b := by
  rcases lt_trichotomy k l.length with h | rfl | h
  · rw [List.getElem?_append_left h]
    simp [h.ne]
  · simp
  · have h1 : (l ++ [a])[k]? = none := List.getElem?_eq_none (by simpa using h)
    have h2 : l[k]? = none := List.getElem?_eq_none h.le
    simp [h1, h2, h.ne']

theorem pushUser_mem_entries {s : Nat} {r r' : Resource} {k : Nat}
    (hg : ∀ s r k, (r, k) ∈ g.entries s ↔ (g.users r)[k]? = some s) :
    (r, k) ∈ (pushUser t g r').entries s ↔ ((pushUser t g r').users r)[k]? = some s := by
  have hu : (pushUser t g r').users r = if r = r' then g.users r ++ [t] else g.users r := by
    simp only [pushUser, update_apply]
    split_ifs with h <;> simp [h]
  have he : (pushUser t g r').entries s =
      if s = t then g.entries s ++ [(r', (g.users r').length)] else g.entries s := by
    simp only [pushUser, update_apply]
    split_ifs with h <;> simp [h]
  rw [hu, he]
  by_cases hr : r = r'
  · subst hr
    by_cases hs : s = t
    · simp [hs, hg, getElem?_concat_eq_some_iff]
    · simp [hs, Ne.symm hs, hg, getElem?_concat_eq_some_iff]
  · by_cases hs : s = t
    · simp [hr, hs, hg]
    · simp [hr, hs, hg]

theorem foldl_pushUser_mem_entries
    (hg : ∀ s r k, (r, k) ∈ g.entries s ↔ (g.users r)[k]? = some s) (s : Nat)
    (r : Resource) (k : Nat) :
    (r, k) ∈ (rs.foldl (pushUser t) g).entries s ↔
      ((rs.foldl (pushUser t) g).users r)[k]? = some s := by
  induction rs generalizing g with
  | nil => exact hg s r k
  | cons r' rs ih => exact ih fun s r k => pushUser_mem_entries hg

end Submit

/-! ### Scanning a user list -/

section Scan

variable {info : Nat → TaskInfo} {t : Nat} {r : Resource} {older : List Nat}

theorem mem_of_mem_scan {p : Nat} (h : p ∈ scan info t r older) :
    p ∈ older ∧ verdict info t p = .depend := by
  induction older with
  | nil => simp [scan] at h
  | cons q older ih =>
      rw [scan] at h
      rcases hv : verdict info t q with - | - | - <;> rw [hv] at h
      · simp at h
      · exact ⟨List.mem_cons_of_mem _ (ih h).1, (ih h).2⟩
      · rcases List.mem_cons.mp h with rfl | h
        · exact ⟨List.mem_cons_self, hv⟩
        · split_ifs at h
          · simp at h
          · exact ⟨List.mem_cons_of_mem _ (ih h).1, (ih h).2⟩

/-- What a scan can miss: a task the loop would depend on is either found, or
hidden behind a found task with a synchronizing access on the resource. -/
theorem mem_scan_or_sync {i : Nat} (hsorted : older.Pairwise (· ≥ ·)) (hi : i ∈ older)
    (hdep : verdict info t i = .depend)
    (hstop : ∀ q ∈ older, verdict info t q = .stop → q < i) :
    i ∈ scan info t r older ∨
      ∃ p ∈ scan info t r older, i ≤ p ∧ (info p).user.hasSyncAccess r = true := by
  induction older with
  | nil => simp at hi
  | cons q older ih =>
      obtain ⟨hq, hsorted⟩ := List.pairwise_cons.mp hsorted
      rcases List.mem_cons.mp hi with rfl | hi
      · refine Or.inl ?_
        rw [scan, hdep]
        exact List.mem_cons_self
      have hqi : i ≤ q := hq i hi
      have ih := ih hsorted hi fun x hx => hstop x (List.mem_cons_of_mem _ hx)
      rw [scan]
      rcases hv : verdict info t q with - | - | -
      · exact absurd (hstop q List.mem_cons_self hv) (Nat.not_lt.mpr hqi)
      · exact ih
      · by_cases hsync : (info q).user.hasSyncAccess r = true
        · exact Or.inr ⟨q, List.mem_cons_self, hqi, hsync⟩
        · simp only [hsync, Bool.false_eq_true, if_false]
          rcases ih with h | ⟨p, hp, h⟩
          · exact Or.inl (List.mem_cons_of_mem _ h)
          · exact Or.inr ⟨p, List.mem_cons_of_mem _ hp, h⟩

theorem scan_congr {info' : Nat → TaskInfo} (ht : info t = info' t)
    (h : ∀ p ∈ older, info p = info' p) : scan info t r older = scan info' t r older := by
  induction older with
  | nil => rfl
  | cons q older ih =>
      have hq := h q List.mem_cons_self
      rw [scan, scan, ih fun p hp => h p (List.mem_cons_of_mem _ hp), verdict_congr ht hq, hq]

end Scan

/-! ### The invariant of a run -/

/-- What every sequential run keeps. -/
structure WellFormed (g : Graph) : Prop where
  parent_lt : ∀ {t u}, t < g.next → (g.info t).space = some u → u < t
  mem_entries : ∀ t r k, (r, k) ∈ g.entries t ↔ (g.users r)[k]? = some t
  user_lt : ∀ {r t}, t ∈ g.users r → t < g.next
  sorted : ∀ r, (g.users r).Pairwise (· ≤ ·)
  count : ∀ {t}, t < g.next → ∀ r, (g.users r).count t = (g.info t).user.uniqueResources.count r
  initialised_lt : ∀ {t}, t ∈ g.initialised → t < g.next
  mem_edges : ∀ {i j}, (i, j) ∈ g.edges ↔ j ∈ g.initialised ∧ i ∈ g.predecessors j

theorem wellFormed_empty : WellFormed empty where
  parent_lt h := absurd h (Nat.not_lt_zero _)
  mem_entries := by simp [empty]
  user_lt := by simp [empty]
  sorted := by simp [empty]
  count h := absurd h (Nat.not_lt_zero _)
  initialised_lt := by simp [empty]
  mem_edges := by simp [empty]

section SubmitFields

variable (g : Graph) (space : Option Nat) (calls : List BuilderCall)

@[simp] theorem submit_next : (g.submit space calls).next = g.next + 1 :=
  foldl_pushUser_frame Graph.next fun _ _ => rfl

@[simp] theorem submit_info :
    (g.submit space calls).info =
      update g.info g.next ⟨calls, space, depthOf g.info space⟩ :=
  foldl_pushUser_frame Graph.info fun _ _ => rfl

@[simp] theorem submit_initialised : (g.submit space calls).initialised = g.initialised :=
  foldl_pushUser_frame Graph.initialised fun _ _ => rfl

@[simp] theorem submit_edges : (g.submit space calls).edges = g.edges :=
  foldl_pushUser_frame Graph.edges fun _ _ => rfl

theorem submit_users (r : Resource) :
    (g.submit space calls).users r = g.users r ++ List.replicate
      ((TaskInfo.user ⟨calls, space, depthOf g.info space⟩).uniqueResources.count r) g.next := by
  rw [submit, foldl_pushUser_users, List.count_reverse]

end SubmitFields

/-- A later submission does not change what `init_graph` of a task finds. -/
theorem predecessors_submit {g : Graph} (hg : WellFormed g) (space : Option Nat)
    (calls : List BuilderCall) {t : Nat} (ht : t < g.next) :
    (g.submit space calls).predecessors t = g.predecessors t := by
  have hinfo : ∀ p, p < g.next → (g.submit space calls).info p = g.info p := by
    intro p hp
    rw [submit_info, update_of_ne hp.ne]
  have hentries : (g.submit space calls).entries t = g.entries t :=
    foldl_pushUser_entries_of_ne ht.ne
  rw [predecessors, predecessors, hentries]
  refine List.flatMap_congr fun e he => ?_
  have hget := (hg.mem_entries t e.1 e.2).mp he
  have hlt : e.2 < (g.users e.1).length := (List.getElem?_eq_some_iff.mp hget).1
  have htake : ((g.submit space calls).users e.1).take e.2 = (g.users e.1).take e.2 := by
    rw [submit_users]
    exact List.take_append_of_le_length hlt.le
  rw [htake]
  refine scan_congr (hinfo t ht) fun p hp => hinfo p ?_
  exact hg.user_lt (List.mem_of_mem_take (List.mem_reverse.mp hp))

theorem WellFormed.submit {g : Graph} (hg : WellFormed g) {space : Option Nat}
    (hspace : ∀ u, space = some u → u < g.next) (calls : List BuilderCall) :
    WellFormed (g.submit space calls) where
  parent_lt := by
    intro t u ht hu
    rw [submit_next] at ht
    rw [submit_info] at hu
    by_cases e : t = g.next
    · subst e
      rw [update_self] at hu
      exact hspace u hu
    · rw [update_of_ne e] at hu
      exact hg.parent_lt (by omega) hu
  mem_entries := foldl_pushUser_mem_entries hg.mem_entries
  user_lt := by
    intro r t ht
    rw [submit_users, List.mem_append] at ht
    rw [submit_next]
    rcases ht with ht | ht
    · exact Nat.lt_succ_of_lt (hg.user_lt ht)
    · rw [List.eq_of_mem_replicate ht]
      exact Nat.lt_succ_self _
  sorted := by
    intro r
    rw [submit_users, List.pairwise_append]
    refine ⟨hg.sorted r, List.pairwise_replicate.mpr (Or.inr (le_refl _)), ?_⟩
    intro a ha b hb
    rw [List.eq_of_mem_replicate hb]
    exact (hg.user_lt ha).le
  count := by
    intro t ht r
    rw [submit_users, List.count_append, submit_info]
    by_cases e : t = g.next
    · subst e
      have hnew : (g.users r).count g.next = 0 :=
        List.count_eq_zero.mpr fun h => (hg.user_lt h).false
      rw [update_self, List.count_replicate_self, hnew, Nat.zero_add]
    · rw [submit_next] at ht
      have hold : (List.replicate ((TaskInfo.user ⟨calls, space, depthOf g.info space⟩).uniqueResources.count r)
          g.next).count t = 0 :=
        List.count_eq_zero.mpr fun h => e (List.eq_of_mem_replicate h)
      rw [update_of_ne e, hold, Nat.add_zero]
      exact hg.count (by omega) r
  initialised_lt := by
    intro t ht
    rw [submit_initialised] at ht
    rw [submit_next]
    exact Nat.lt_succ_of_lt (hg.initialised_lt ht)
  mem_edges := by
    intro i j
    rw [submit_edges, submit_initialised, hg.mem_edges]
    refine and_congr_right fun hj => ?_
    rw [predecessors_submit hg space calls (hg.initialised_lt hj)]

theorem WellFormed.initGraph {g : Graph} (hg : WellFormed g) {t : Nat} (ht : t < g.next) :
    WellFormed (g.initGraph t) where
  parent_lt := hg.parent_lt
  mem_entries := hg.mem_entries
  user_lt := hg.user_lt
  sorted := hg.sorted
  count := hg.count
  initialised_lt := by
    intro s hs
    rcases List.mem_cons.mp hs with rfl | hs
    · exact ht
    · exact hg.initialised_lt hs
  mem_edges := by
    intro i j
    show (i, j) ∈ g.edges ++ (g.predecessors t).map (fun p => (p, t)) ↔
      j ∈ t :: g.initialised ∧ i ∈ g.predecessors j
    rw [List.mem_append, hg.mem_edges, List.mem_cons, List.mem_map]
    constructor
    · rintro (h | ⟨p, hp, e⟩)
      · exact ⟨Or.inr h.1, h.2⟩
      · obtain ⟨rfl, rfl⟩ := Prod.mk.injEq .. ▸ e
        exact ⟨Or.inl rfl, hp⟩
    · rintro ⟨rfl | hj, hi⟩
      · exact Or.inr ⟨i, hi, rfl⟩
      · exact Or.inl ⟨hj, hi⟩

theorem WellFormed.apply {g : Graph} (hg : WellFormed g) (op : GraphOp) :
    WellFormed (g.apply op) := by
  unfold Graph.apply
  split_ifs with h
  · cases op with
    | submit space calls =>
        refine hg.submit ?_ calls
        rintro u rfl
        simpa [enabled] using h
    | init t => exact hg.initGraph (by simpa [enabled] using h)
  · exact hg

theorem wellFormed_run (ops : List GraphOp) : WellFormed (run ops) := by
  induction ops using List.reverseRecOn with
  | nil => exact wellFormed_empty
  | append_singleton ops op ih =>
      rw [run, List.foldl_append]
      exact ih.apply op

/-! ### Edges -/

namespace WellFormed

variable {g : Graph} (hg : WellFormed g)

include hg

/-- An edge comes from an older entry of one user list. -/
theorem mem_predecessors {i j : Nat} :
    i ∈ g.predecessors j ↔ ∃ r k, (g.users r)[k]? = some j ∧
      i ∈ scan g.info j r ((g.users r).take k).reverse := by
  simp only [predecessors, List.mem_flatMap, Prod.exists, hg.mem_entries]

/-- Older entries are of earlier tasks, or of the task itself. -/
theorem le_of_mem_take {r : Resource} {k : Nat} {i j : Nat}
    (hk : (g.users r)[k]? = some j) (hi : i ∈ (g.users r).take k) : i ≤ j := by
  obtain ⟨hlt, rfl⟩ := List.getElem?_eq_some_iff.mp hk
  obtain ⟨a, ha, rfl⟩ := List.mem_take_iff_getElem.mp hi
  exact List.pairwise_iff_getElem.mp (hg.sorted r) a k (by omega) hlt (by omega)

theorem lt_of_getElem? {r : Resource} {k : Nat} {t : Nat} (hk : (g.users r)[k]? = some t) :
    t < g.next :=
  hg.user_lt (List.mem_of_getElem? hk)

omit hg in
/-- A task stands twice in a user list exactly when it has an older entry of
its own there. -/
theorem two_le_count_iff {r : Resource} {t : Nat} :
    2 ≤ (g.users r).count t ↔ ∃ k, (g.users r)[k]? = some t ∧ t ∈ (g.users r).take k := by
  constructor
  · intro h
    have hmem : t ∈ (g.users r).reverse :=
      List.mem_reverse.mpr (List.count_pos_iff.mp (by omega))
    obtain ⟨newer, older, e, hnew⟩ := List.eq_append_cons_of_mem hmem
    have e' : g.users r = older.reverse ++ t :: newer.reverse := by
      have := congrArg List.reverse e
      simpa using this
    refine ⟨older.reverse.length, by rw [e']; simp, ?_⟩
    rw [e', List.take_left]
    have hc : (newer.reverse).count t = 0 :=
      List.count_eq_zero.mpr (by simpa using hnew)
    rw [e', List.count_append, List.count_cons_self, hc] at h
    exact List.count_pos_iff.mp (by omega)
  · rintro ⟨k, hk, ht⟩
    obtain ⟨hlt, e⟩ := List.getElem?_eq_some_iff.mp hk
    have hsplit : g.users r = (g.users r).take k ++ t :: (g.users r).drop (k + 1) := by
      conv_lhs => rw [← List.take_append_drop k (g.users r), List.drop_eq_getElem_cons hlt, e]
    have hpos := List.count_pos_iff.mpr ht
    rw [hsplit, List.count_append, List.count_cons_self]
    omega

/-- The scan of a part of a user list finds every serial task of the same space
there, up to one with a synchronizing access. -/
theorem mem_scan_of_sublist {r : Resource} {k : Nat} {i j : Nat} {older : List Nat}
    (hsub : older.Sublist ((g.users r).take k).reverse) (hi : i ∈ older)
    (hspace : (g.info i).space = (g.info j).space)
    (hserial : (g.info i).user.isSerial (g.info j).user = true) :
    i ∈ scan g.info j r older ∨
      ∃ p ∈ scan g.info j r older, i ≤ p ∧ (g.info p).user.hasSyncAccess r = true := by
  have hin : i < g.next :=
    hg.user_lt (List.mem_of_mem_take (List.mem_reverse.mp (hsub.subset hi)))
  have hdep : verdict g.info j i = .depend := by
    refine verdict_eq_depend_iff.mpr ⟨fun h => ?_, hspace, hserial⟩
    exact (hg.parent_lt hin (hspace.trans h)).false
  refine mem_scan_or_sync (List.Pairwise.sublist hsub ?_) hi hdep fun q _ hq => ?_
  · rw [List.pairwise_reverse]
    exact (hg.sorted r).take
  · exact hg.parent_lt hin (hspace.trans (verdict_eq_stop_iff.mp hq))

/-- The scan of a user list finds every serial task of the same space up to
one with a synchronizing access. -/
theorem mem_scan_of_serial {r : Resource} {k : Nat} {i j : Nat} (hi : i ∈ (g.users r).take k)
    (hspace : (g.info i).space = (g.info j).space)
    (hserial : (g.info i).user.isSerial (g.info j).user = true) :
    i ∈ scan g.info j r ((g.users r).take k).reverse ∨
      ∃ p ∈ scan g.info j r ((g.users r).take k).reverse,
        i ≤ p ∧ (g.info p).user.hasSyncAccess r = true :=
  hg.mem_scan_of_sublist (List.Sublist.refl _) (List.mem_reverse.mpr hi) hspace hserial

/-- Two tasks that conflict on `r` stand in its user list, in the order in which
they were submitted. -/
theorem exists_entry_of_conflictOn {r : Resource} {i j : Nat} (hij : i < j) (hjn : j < g.next)
    (hr : ResourceUser.ConflictOn r (g.info i).user (g.info j).user) :
    ∃ k, (g.users r)[k]? = some j ∧ i ∈ (g.users r).take k := by
  have huser : ∀ {t}, t < g.next → r ∈ (g.info t).user.uniqueResources → t ∈ g.users r := by
    intro t ht hrt
    have hpos := List.count_pos_iff.mpr hrt
    rw [← hg.count ht r] at hpos
    exact List.count_pos_iff.mp hpos
  have hi : i ∈ g.users r := huser (hij.trans hjn) hr.mem_left
  obtain ⟨k, hklt, hk⟩ := List.mem_iff_getElem.mp (huser hjn hr.symm.mem_left)
  refine ⟨k, List.getElem?_eq_some_iff.mpr ⟨hklt, hk⟩, ?_⟩
  obtain ⟨a, ha, rfl⟩ := List.mem_iff_getElem.mp hi
  refine List.mem_take_iff_getElem.mpr ⟨a, ?_, rfl⟩
  by_contra hka
  have hka : k ≤ a := by omega
  rcases hka.eq_or_lt with rfl | hlt
  · omega
  · have := List.pairwise_iff_getElem.mp (hg.sorted r) k a hklt ha hlt
    omega

theorem edge_spec {i j : Nat} (h : (i, j) ∈ g.edges) :
    i ≤ j ∧ i < g.next ∧ j < g.next ∧ (g.info i).space = (g.info j).space ∧
      (g.info i).user.isSerial (g.info j).user = true := by
  obtain ⟨r, k, hk, hi⟩ := hg.mem_predecessors.mp (hg.mem_edges.mp h).2
  obtain ⟨hmem, hdep⟩ := mem_of_mem_scan hi
  have hmem := List.mem_reverse.mp hmem
  obtain ⟨-, hspace, hserial⟩ := verdict_eq_depend_iff.mp hdep
  exact ⟨hg.le_of_mem_take hk hmem, hg.user_lt (List.mem_of_mem_take hmem),
    hg.lt_of_getElem? hk, hspace, hserial⟩

/-- A task waits for its own post-event exactly when it conflicts with itself
and stands twice in some user list. -/
theorem self_mem_predecessors_iff {t : Nat} (ht : t < g.next) :
    t ∈ g.predecessors t ↔ BuilderCall.NamesTwice (g.info t).calls ∧
      (g.info t).user.isSerial (g.info t).user = true := by
  have hcount : BuilderCall.NamesTwice (g.info t).calls ↔ ∃ r, 2 ≤ (g.users r).count t := by
    have h := @BuilderCall.nodup_build_iff (UInt8.ofNat (g.info t).depth) (g.info t).calls
    rw [← not_iff_not, ← h, List.nodup_iff_count_le_one, not_exists]
    refine forall_congr' fun r => ?_
    rw [hg.count ht r]
    show _ ↔ ¬ 2 ≤ List.count r (ResourceUser.build _ _).uniqueResources
    omega
  rw [hcount]
  constructor
  · intro h
    obtain ⟨r, k, hk, hi⟩ := hg.mem_predecessors.mp h
    obtain ⟨hmem, hdep⟩ := mem_of_mem_scan hi
    exact ⟨⟨r, two_le_count_iff.mpr ⟨k, hk, List.mem_reverse.mp hmem⟩⟩,
      (verdict_eq_depend_iff.mp hdep).2.2⟩
  · rintro ⟨⟨r, h2⟩, hserial⟩
    obtain ⟨k, hk, hmem⟩ := two_le_count_iff.mp h2
    refine hg.mem_predecessors.mpr ⟨r, k, hk, ?_⟩
    rcases hg.mem_scan_of_serial hmem rfl hserial with h | ⟨p, hp, hle, -⟩
    · exact h
    · -- nothing older than the task's own entry is of a later task
      have hp' := List.mem_reverse.mp (mem_of_mem_scan hp).1
      have e : t = p := le_antisymm hle (hg.le_of_mem_take hk hp')
      rw [e] at hp ⊢
      exact hp

end WellFormed

/-! ### The edges of one space -/

/-- An edge into a task of the space `S`. -/
def EdgeIn (g : Graph) (S : Option Nat) (i j : Nat) : Prop :=
  (i, j) ∈ g.edges ∧ (g.info j).space = S

/-- Two tasks of the space `S`, submitted in this order, that are serial. -/
def SerialPair (g : Graph) (S : Option Nat) (i j : Nat) : Prop :=
  i < j ∧ j < g.next ∧ (g.info i).space = S ∧ (g.info j).space = S ∧
    (g.info i).user.isSerial (g.info j).user = true

/-- A serial pair has an edge, or a later task stands in for it. -/
theorem WellFormed.edge_or_standIn {g : Graph} (hg : WellFormed g) {S : Option Nat} {i j : Nat}
    (hj : j ∈ g.initialised) (hself : (j, j) ∉ g.edges) (h : SerialPair g S i j) :
    EdgeIn g S i j ∨ ∃ p < j, SerialPair g S i p ∧ EdgeIn g S p j := by
  obtain ⟨hij, hjn, hSi, hSj, hserial⟩ := h
  obtain ⟨r, hr⟩ := ResourceUser.isSerial_iff.mp hserial
  obtain ⟨k, hk?, hitake⟩ := hg.exists_entry_of_conflictOn hij hjn hr
  have hedge : ∀ {p}, p ∈ scan g.info j r ((g.users r).take k).reverse → EdgeIn g S p j :=
    fun hp => ⟨hg.mem_edges.mpr ⟨hj, hg.mem_predecessors.mpr ⟨r, k, hk?, hp⟩⟩, hSj⟩
  rcases hg.mem_scan_of_serial hitake (hSi.trans hSj.symm) hserial with h | ⟨p, hp, hip, hsync⟩
  · exact Or.inl (hedge h)
  · obtain ⟨hpj, hpn, -, hSp, -⟩ := hg.edge_spec (hedge hp).1
    have hne : p ≠ j := by
      rintro rfl
      exact hself (hedge hp).1
    rcases hip.eq_or_lt with rfl | hlt
    · exact Or.inl (hedge hp)
    · refine Or.inr ⟨p, lt_of_le_of_ne hpj hne, ?_, hedge hp⟩
      exact ⟨hlt, hpn, hSi, hSp.trans hSj, (hr.absorb hsync).1.isSerial⟩

/-- **The pruned graph generates the full one.**  When the tasks of a space
were given their accesses through `resources` and all have been initialised,
every edge joins a serial pair in submission order, and the edges have the
same transitive closure as all serial pairs. -/
theorem edges_generate_serial_order (ops : List GraphOp) (S : Option Nat)
    (hres : ∀ t < (run ops).next, ((run ops).info t).space = S →
      ∀ c ∈ ((run ops).info t).calls, c.isResources = true)
    (hinit : ∀ t < (run ops).next, ((run ops).info t).space = S → t ∈ (run ops).initialised) :
    (∀ i j, EdgeIn (run ops) S i j → i < j ∧
      ((run ops).info i).user.isSerial ((run ops).info j).user = true) ∧
    ∀ i j, Relation.TransGen (EdgeIn (run ops) S) i j ↔
      Relation.TransGen (SerialPair (run ops) S) i j := by
  have hg : WellFormed (run ops) := wellFormed_run ops
  have hself : ∀ j, j < (run ops).next → ((run ops).info j).space = S →
      (j, j) ∉ (run ops).edges := by
    intro j hj hS h
    obtain ⟨hnames, -⟩ := (hg.self_mem_predecessors_iff hj).mp (hg.mem_edges.mp h).2
    exact BuilderCall.not_namesTwice_of_isResources (hres j hj hS) hnames
  have hpair : ∀ i j, EdgeIn (run ops) S i j → SerialPair (run ops) S i j := by
    rintro i j ⟨h, hS⟩
    obtain ⟨hle, hin, hjn, hspace, hserial⟩ := hg.edge_spec h
    have hne : i ≠ j := by
      rintro rfl
      exact hself i hjn hS h
    exact ⟨lt_of_le_of_ne hle hne, hjn, hspace.trans hS, hS, hserial⟩
  refine ⟨fun i j h => ⟨(hpair i j h).1, (hpair i j h).2.2.2.2⟩, fun i j => ?_⟩
  refine Prune.transGen_prune_iff hpair fun i j h => ?_
  have hj := h.2.1
  have hS := h.2.2.2.1
  exact hg.edge_or_standIn (hinit j hj hS) (hself j hj hS) h

/-- An `IOResource` created outside of any task. -/
def ioResource (id : Nat) : Resource := ⟨id, 0, .io⟩

/-- An access on an `IOResource`. -/
def ioAccess (id : Nat) (mode : IOAccess) : ResourceAccess := ⟨ioResource id, mode⟩

/-- Two readers between two writers, initialised out of order. -/
theorem edges_generate_serial_order_readers :
    let ops := [.submit none [.resources [ioAccess 0 .write]],
      .submit none [.resources [ioAccess 0 .read]], .submit none [.resources [ioAccess 0 .read]],
      .submit none [.resources [ioAccess 0 .write, ioAccess 0 .read]],
      .init 3, .init 0, .init 2, .init 1]
    (run ops).edges = [(2, 3), (1, 3), (0, 3), (0, 2), (0, 1)] ∧
    ∀ i j, Relation.TransGen (EdgeIn (run ops) none) i j ↔
      Relation.TransGen (SerialPair (run ops) none) i j :=
  ⟨by decide, (edges_generate_serial_order _ none (by decide) (by decide)).2⟩

/-! ### The direction of the edges -/

/-- The builder calls of the tasks of a space, in submission order. -/
def callsIn (g : Graph) (S : Option Nat) : List (List BuilderCall) :=
  ((List.range g.next).filter fun t => (g.info t).space = S).map fun t => (g.info t).calls

theorem mem_callsIn {g : Graph} {S : Option Nat} {calls : List BuilderCall} :
    calls ∈ g.callsIn S ↔ ∃ t < g.next, (g.info t).space = S ∧ (g.info t).calls = calls := by
  simp [callsIn, and_assoc]

theorem callsIn_submit {g : Graph} {S space : Option Nat} {calls : List BuilderCall} :
    (g.submit space calls).callsIn S =
      g.callsIn S ++ if space = S then [calls] else [] := by
  have hold : ∀ t ∈ List.range g.next, (g.submit space calls).info t = g.info t := by
    intro t ht
    rw [submit_info, update_of_ne (List.mem_range.mp ht).ne]
  have hfilter : (List.range g.next).filter (fun t => ((g.submit space calls).info t).space = S) =
      (List.range g.next).filter fun t => (g.info t).space = S :=
    List.filter_congr fun t ht => by rw [hold t ht]
  rw [callsIn, submit_next, List.range_succ, List.filter_append, List.map_append, hfilter, callsIn]
  congr 1
  · refine List.map_congr_left fun t ht => ?_
    rw [hold t (List.mem_filter.mp ht).1]
  · rw [submit_info]
    by_cases h : space = S <;> simp [h]

/-- A run that submits the given tasks into `S` and does nothing else there. -/
def fill (S : Option Nat) (specs : List (List BuilderCall)) : List GraphOp :=
  (match S with
    | none => []
    | some u => List.replicate (u + 1) (.submit none [])) ++ specs.map (.submit S)

theorem run_append (ops : List GraphOp) (op : GraphOp) :
    run (ops ++ [op]) = (run ops).apply op := by
  simp [run]

theorem run_replicate (n : Nat) :
    (run (List.replicate n (.submit none []))).next = n ∧
      ∀ u, (run (List.replicate n (.submit none []))).callsIn (some u) = [] := by
  induction n with
  | zero => exact ⟨rfl, fun _ => rfl⟩
  | succ n ih =>
      rw [List.replicate_succ', run_append]
      refine ⟨?_, fun u => ?_⟩
      · show (Graph.submit _ none []).next = n + 1
        rw [submit_next, ih.1]
      · show (Graph.submit _ none []).callsIn (some u) = []
        rw [callsIn_submit, ih.2 u]
        rfl

theorem callsIn_fill (S : Option Nat) (specs : List (List BuilderCall)) :
    (run (fill S specs)).callsIn S = specs ∧ ∀ u, S = some u → u < (run (fill S specs)).next := by
  induction specs using List.reverseRecOn with
  | nil =>
      cases S with
      | none => exact ⟨rfl, fun u h => by cases h⟩
      | some u =>
          obtain ⟨hnext, hcalls⟩ := run_replicate (u + 1)
          refine ⟨by simpa [fill] using hcalls u, ?_⟩
          rintro _ ⟨⟩
          simp [fill, hnext]
  | append_singleton specs calls ih =>
      have happ : run (fill S (specs ++ [calls])) = (run (fill S specs)).submit S calls := by
        have hops : fill S (specs ++ [calls]) = fill S specs ++ [.submit S calls] := by
          simp [fill]
        have hen : (run (fill S specs)).enabled (.submit S calls) = true := by
          cases S with
          | none => rfl
          | some u => simpa [enabled] using ih.2 u rfl
        rw [hops, run_append, apply, if_pos hen]
      rw [happ, callsIn_submit, ih.1, if_pos rfl, submit_next]
      exact ⟨rfl, fun u hu => Nat.lt_succ_of_lt (ih.2 u hu)⟩

/-- **When the waits-for graph points forward.**  For tasks with the given
builder calls submitted into one space, every edge of every run goes from an
earlier to a later task exactly when no task that conflicts with itself names
a resource twice through `add_resource`. -/
theorem edges_forward_iff (S : Option Nat) (specs : List (List BuilderCall)) :
    (∀ ops, (run ops).callsIn S = specs → ∀ i j, EdgeIn (run ops) S i j → i < j) ↔
      ∀ calls ∈ specs, ¬ (BuilderCall.NamesTwice calls ∧
        (ResourceUser.build 0 calls).isSerial (ResourceUser.build 0 calls) = true) := by
  constructor
  · rintro h calls hcalls ⟨hnames, hserial⟩
    obtain ⟨hspecs, -⟩ := callsIn_fill S specs
    obtain ⟨t, ht, hS, rfl⟩ := mem_callsIn.mp (hspecs ▸ hcalls)
    have happ : run (fill S specs ++ [.init t]) = (run (fill S specs)).initGraph t := by
      rw [run_append, apply, if_pos (by simpa [enabled] using ht)]
    have hself : t ∈ (run (fill S specs)).predecessors t := by
      refine ((wellFormed_run _).self_mem_predecessors_iff ht).mpr ⟨hnames, ?_⟩
      rw [← hserial]
      exact ResourceUser.build_isSerial_build
    have hedge : EdgeIn (run (fill S specs ++ [.init t])) S t t := by
      rw [happ]
      refine ⟨List.mem_append_right _ (List.mem_map.mpr ⟨t, hself, rfl⟩), hS⟩
    have hcallsIn : (run (fill S specs ++ [.init t])).callsIn S = specs := by
      rw [happ]
      exact hspecs
    exact (h _ hcallsIn t t hedge).false
  · rintro h ops rfl i j ⟨hedge, hS⟩
    have hg := wellFormed_run ops
    obtain ⟨hle, -, hjn, -, -⟩ := hg.edge_spec hedge
    refine lt_of_le_of_ne hle ?_
    rintro rfl
    obtain ⟨hnames, hserial⟩ := (hg.self_mem_predecessors_iff hjn).mp (hg.mem_edges.mp hedge).2
    refine h _ (mem_callsIn.mpr ⟨i, hjn, hS, rfl⟩) ⟨hnames, ?_⟩
    rw [← hserial]
    exact ResourceUser.build_isSerial_build

/-- A task that is given write access to one resource twice waits for itself. -/
theorem self_edge_of_double_write :
    ¬ ∀ (ops : List GraphOp) (i j : Nat), (i, j) ∈ (run ops).edges → i < j := by
  intro h
  have hedge : (0, 0) ∈ (run [.submit none [.addResource (ioAccess 0 .write),
      .addResource (ioAccess 0 .write)], .init 0]).edges := by decide
  exact (h _ 0 0 hedge).false

end Graph

end RedGrapes
