/-
RedGrapes/Patch.lean

Changing the accesses of a running task: `ResourceProperty::apply_patch`
(`task/property/resource.hpp`), called from `update_properties`.

A patch is a list of add and remove steps.  They are applied one after the
other to the access list of the task, and afterwards the result is compared
with a copy of the user taken before.  The copy constructor of `ChunkedList`
copies nothing, so the comparison is with an empty access list.

* `apply_patch_demotion_iff` — when `apply_patch` throws exactly for those
  patches that are no demotion.
* `rejected_patch_unchanged_iff` — when a patch that is refused has changed
  nothing.
* `serial_between_iff` — when a conflict of the task stays visible between the
  steps.
-/
import RedGrapes.DependencyGraph

namespace RedGrapes

/-! ### Patches -/

/-- `Patch::DiffType`. -/
inductive DiffType
  | add
  | remove
deriving DecidableEq

/-- `ResourceProperty::Patch`. -/
structure Patch where
  diff : List (DiffType × ResourceAccess)

namespace ResourceUser

/-- `rm_resource_access`: `erase` removes every access that compares equal. -/
def rmResourceAccess (u : ResourceUser) (ra : ResourceAccess) : ResourceUser :=
  { u with accessList := u.accessList.filter fun a => !a.eq ra }

/-- One step of a patch. -/
def patchStep (u : ResourceUser) : DiffType × ResourceAccess → ResourceUser
  | (.add, ra) => u.addResourceAccess ra
  | (.remove, ra) => u.rmResourceAccess ra

/-- All steps of a patch. -/
def patched (u : ResourceUser) (diff : List (DiffType × ResourceAccess)) : ResourceUser :=
  diff.foldl patchStep u

/-- The constructor `ResourceUser(ResourceUser const &, WorkerId)`.  The lists
are built by `ChunkedList(Allocator &&, ChunkedList const &)`, which leaves
them empty. -/
def copy (u : ResourceUser) : ResourceUser := empty u.scopeLevel

/-- `apply_patch`: the changed user, and the message of the exception if one is
thrown.  The steps are not undone in this case. -/
def applyPatch (u : ResourceUser) (p : Patch) : ResourceUser × Option String :=
  let after := u.patched p.diff
  (after, if u.copy.isSupersetOf after then none
    else some "redGrapes: ResourceUserPolicy: updated access list is no subset!")

variable {u : ResourceUser} {diff : List (DiffType × ResourceAccess)} {ra : ResourceAccess}

theorem patched_concat (x : DiffType × ResourceAccess) :
    u.patched (diff ++ [x]) = (u.patched diff).patchStep x := by
  simp [patched]

/-- An access of the patched list, read off the patch: no later step removes it,
and it was there before or is added. -/
def LeftBy (u : ResourceUser) (diff : List (DiffType × ResourceAccess))
    (ra : ResourceAccess) : Prop :=
  (ra ∈ u.accessList ∧ ∀ x, (.remove, x) ∈ diff → ra.eq x = false) ∨
    ∃ pre post, diff = pre ++ (.add, ra) :: post ∧ ∀ x, (.remove, x) ∈ post → ra.eq x = false

theorem leftBy_nil : u.LeftBy [] ra ↔ ra ∈ u.accessList := by
  constructor
  · rintro (⟨h, -⟩ | ⟨pre, post, h, -⟩)
    · exact h
    · simp at h
  · intro h
    exact .inl ⟨h, by simp⟩

theorem leftBy_concat_add {rb : ResourceAccess} :
    u.LeftBy (diff ++ [(.add, rb)]) ra ↔ u.LeftBy diff ra ∨ ra = rb := by
  constructor
  · rintro (⟨h, hrm⟩ | ⟨pre, post, h, hrm⟩)
    · exact .inl (.inl ⟨h, fun x hx => hrm x (List.mem_append_left _ hx)⟩)
    · rcases List.eq_nil_or_concat post with rfl | ⟨post', c, rfl⟩
      · obtain ⟨-, h'⟩ := List.append_inj' h rfl
        simp only [List.cons.injEq, Prod.mk.injEq, true_and, and_true] at h'
        exact .inr h'.symm
      · rw [List.concat_eq_append, ← List.cons_append, ← List.append_assoc] at h
        obtain ⟨rfl, -⟩ := List.append_inj' h rfl
        exact .inl (.inr ⟨pre, post', rfl, fun x hx => hrm x (by simp [hx])⟩)
  · rintro ((⟨h, hrm⟩ | ⟨pre, post, rfl, hrm⟩) | rfl)
    · exact .inl ⟨h, fun x hx => hrm x (by simpa using hx)⟩
    · exact .inr ⟨pre, post ++ [(.add, rb)], by simp, fun x hx => hrm x (by simpa using hx)⟩
    · exact .inr ⟨diff, [], rfl, by simp⟩

theorem leftBy_concat_remove {rb : ResourceAccess} :
    u.LeftBy (diff ++ [(.remove, rb)]) ra ↔ u.LeftBy diff ra ∧ ra.eq rb = false := by
  constructor
  · rintro (⟨h, hrm⟩ | ⟨pre, post, h, hrm⟩)
    · exact ⟨.inl ⟨h, fun x hx => hrm x (List.mem_append_left _ hx)⟩, hrm rb (by simp)⟩
    · rcases List.eq_nil_or_concat post with rfl | ⟨post', c, rfl⟩
      · obtain ⟨-, h'⟩ := List.append_inj' h rfl
        simp at h'
      · rw [List.concat_eq_append, ← List.cons_append, ← List.append_assoc] at h
        obtain ⟨rfl, h'⟩ := List.append_inj' h rfl
        obtain rfl : (DiffType.remove, rb) = c := by simpa using h'
        exact ⟨.inr ⟨pre, post', rfl, fun x hx => hrm x (by simp [hx])⟩, hrm rb (by simp)⟩
  · rintro ⟨⟨h, hrm⟩ | ⟨pre, post, rfl, hrm⟩, hne⟩
    · refine .inl ⟨h, fun x hx => ?_⟩
      rcases List.mem_append.mp hx with hx | hx
      · exact hrm x hx
      · obtain rfl : x = rb := by simpa using hx
        exact hne
    · refine .inr ⟨pre, post ++ [(.remove, rb)], by simp, fun x hx => ?_⟩
      rcases List.mem_append.mp hx with hx | hx
      · exact hrm x hx
      · obtain rfl : x = rb := by simpa using hx
        exact hne

/-- The patched list, read off the patch. -/
theorem mem_patched_iff : ra ∈ (u.patched diff).accessList ↔ u.LeftBy diff ra := by
  induction diff using List.reverseRecOn with
  | nil => exact leftBy_nil.symm
  | append_singleton diff x ih =>
      rw [patched_concat]
      obtain ⟨d, rb⟩ := x
      cases d with
      | add =>
          rw [leftBy_concat_add, ← ih]
          simp [patchStep, addResourceAccess]
      | remove =>
          rw [leftBy_concat_remove, ← ih]
          simp [patchStep, rmResourceAccess]

/-! ### Demotions -/

/-- The accesses on resources within the scope of `u`. -/
def InScope (u : ResourceUser) (ra : ResourceAccess) : Prop := ra.scopeLevel ≤ u.scopeLevel

/-- Some access of `u` is a superset of `ra`. -/
def Covers (u : ResourceUser) (ra : ResourceAccess) : Prop :=
  ∃ r ∈ u.accessList, r.isSupersetOf ra = true

/-- The patch is no demotion: the list after it contains an access within the
scope that no access before it is a superset of. -/
def Promotes (u : ResourceUser) (p : Patch) : Prop :=
  ∃ ra ∈ (u.patched p.diff).accessList, u.InScope ra ∧ ¬ u.Covers ra

variable {p : Patch}

theorem isSupersetOf_iff {v : ResourceUser} :
    u.isSupersetOf v = true ↔ ∀ ra ∈ v.accessList, u.InScope ra → u.Covers ra := by
  simp only [isSupersetOf, List.all_eq_true, List.mem_reverse, Bool.or_eq_true, List.any_eq_true,
    Bool.not_eq_true', decide_eq_false_iff_not, InScope, Covers]
  constructor
  · intro h ra hra hs
    exact (h ra hra).resolve_right fun hn => hn hs
  · intro h ra hra
    rcases Decidable.em (ra.scopeLevel ≤ u.scopeLevel) with hs | hs
    · exact .inl (h ra hra hs)
    · exact .inr hs

/-- `apply_patch` throws as soon as an access within the scope is left. -/
theorem applyPatch_throws_iff :
    (u.applyPatch p).2.isSome = true ↔ ∃ ra, u.LeftBy p.diff ra ∧ u.InScope ra := by
  have hcopy : u.copy.isSupersetOf (u.patched p.diff) = true ↔
      ∀ ra, u.LeftBy p.diff ra → ¬ u.InScope ra := by
    rw [isSupersetOf_iff]
    constructor
    · intro h ra hra hs
      obtain ⟨r, hr, -⟩ := h ra (mem_patched_iff.mpr hra) hs
      simp [copy, empty] at hr
    · intro h ra hra hs
      exact absurd hs (h ra (mem_patched_iff.mp hra))
  show (if u.copy.isSupersetOf (u.patched p.diff) = true then none else some _).isSome = true ↔ _
  by_cases h : u.copy.isSupersetOf (u.patched p.diff) = true
  · rw [if_pos h]
    have hnone := hcopy.mp h
    simp only [Option.isSome_none, Bool.false_eq_true, false_iff]
    rintro ⟨ra, hra, hs⟩
    exact hnone ra hra hs
  · rw [if_neg h]
    have hsome := hcopy.not.mp h
    push Not at hsome
    simpa using hsome

theorem promotes_iff :
    u.Promotes p ↔ ∃ ra, u.LeftBy p.diff ra ∧ u.InScope ra ∧ ¬ u.Covers ra := by
  constructor
  · rintro ⟨ra, hra, h⟩
    exact ⟨ra, mem_patched_iff.mp hra, h⟩
  · rintro ⟨ra, hra, h⟩
    exact ⟨ra, mem_patched_iff.mpr hra, h⟩

/-- `apply_patch` accepts exactly the demotions, except where the patch leaves
accesses within the scope and the old ones cover all of them. -/
theorem apply_patch_demotion_iff (u : ResourceUser) (p : Patch) :
    ((u.applyPatch p).2.isSome = true ↔ u.Promotes p) ↔
      ((∀ ra, u.LeftBy p.diff ra → ¬ u.InScope ra) ∨
        ∃ ra, u.LeftBy p.diff ra ∧ u.InScope ra ∧ ¬ u.Covers ra) := by
  rw [applyPatch_throws_iff, promotes_iff]
  have weaker : (∃ ra, u.LeftBy p.diff ra ∧ u.InScope ra ∧ ¬ u.Covers ra) →
      ∃ ra, u.LeftBy p.diff ra ∧ u.InScope ra := by
    rintro ⟨ra, hra, hs, -⟩
    exact ⟨ra, hra, hs⟩
  constructor
  · intro h
    by_cases hs : ∃ ra, u.LeftBy p.diff ra ∧ u.InScope ra
    · exact .inr (h.mp hs)
    · push Not at hs
      exact .inl hs
  · rintro (h | h)
    · refine ⟨?_, weaker⟩
      rintro ⟨ra, hra, hs⟩
      exact absurd hs (h ra hra)
    · exact ⟨fun _ => h, weaker⟩

/-- A task that writes resource `0`. -/
def writer : ResourceUser := build 0 [.addResource (Graph.ioAccess 0 .write)]

/-- The demotion of its write to a read access, as in the tutorial. -/
def writeToRead : Patch :=
  ⟨[(.remove, Graph.ioAccess 0 .write), (.add, Graph.ioAccess 0 .read)]⟩

theorem writer_patched :
    (writer.patched writeToRead.diff).accessList = [Graph.ioAccess 0 .read] := rfl

/-- It is refused although the write access covers the read access. -/
theorem demotion_throws :
    (writer.applyPatch writeToRead).2.isSome = true ∧ ¬ writer.Promotes writeToRead := by
  refine ⟨by decide, ?_⟩
  rintro ⟨ra, hra, -, hcov⟩
  rw [writer_patched, List.mem_singleton] at hra
  subst hra
  exact hcov ⟨Graph.ioAccess 0 .write, List.mem_singleton.mpr rfl, by decide⟩

/-! ### What a refused patch leaves behind -/

/-- The step adds nothing, and no access of `u` compares equal to what it removes. -/
def Idles (u : ResourceUser) (x : DiffType × ResourceAccess) : Prop :=
  x.1 = .remove ∧ ∀ ra ∈ u.accessList, ra.eq x.2 = false

/-- A resource is entered for every added access, and none is taken out again. -/
theorem patched_uniqueResources_length :
    (u.patched diff).uniqueResources.length =
      u.uniqueResources.length + diff.countP fun x => x.1 = .add := by
  induction diff generalizing u with
  | nil => rfl
  | cons x diff ih =>
      obtain ⟨d, ra⟩ := x
      show ((u.patchStep (d, ra)).patched diff).uniqueResources.length = _
      rw [ih]
      cases d with
      | add =>
          rw [List.countP_cons_of_pos (by simp)]
          simp only [patchStep, addResourceAccess, List.length_append, List.length_singleton]
          omega
      | remove =>
          rw [List.countP_cons_of_neg (by simp)]
          rfl

theorem patchStep_of_idles {x : DiffType × ResourceAccess} (h : u.Idles x) : u.patchStep x = u := by
  obtain ⟨d, ra⟩ := x
  obtain ⟨rfl, hne⟩ : d = .remove ∧ ∀ rb ∈ u.accessList, rb.eq ra = false := h
  have hlist : u.accessList.filter (fun rb => !rb.eq ra) = u.accessList := by
    rw [List.filter_eq_self]
    intro rb hrb
    rw [hne rb hrb]
    rfl
  show { u with accessList := u.accessList.filter fun rb => !rb.eq ra } = u
  rw [hlist]

theorem patched_of_idles (h : ∀ x ∈ diff, u.Idles x) : u.patched diff = u := by
  induction diff with
  | nil => rfl
  | cons x diff ih =>
      show (u.patchStep x).patched diff = u
      rw [patchStep_of_idles (h x List.mem_cons_self)]
      exact ih fun y hy => h y (List.mem_cons_of_mem _ hy)

/-- A patch without effect has no add step, and none of its remove steps meets an
access. -/
theorem idles_of_patched (haccess : (u.patched diff).accessList = u.accessList)
    (hunique : (u.patched diff).uniqueResources = u.uniqueResources) :
    ∀ x ∈ diff, u.Idles x := by
  have hcount : (u.patched diff).uniqueResources.length = _ := patched_uniqueResources_length
  rw [hunique] at hcount
  have hnone : diff.countP (fun x => x.1 = .add) = 0 := by omega
  rw [List.countP_eq_zero] at hnone
  rintro ⟨d, ra⟩ hx
  have hd : d = .remove := by
    cases d with
    | add => exact absurd (by simp) (hnone (.add, ra) hx)
    | remove => rfl
  subst hd
  refine ⟨rfl, fun rb hrb => ?_⟩
  -- every access that is still there was left by the patch
  rw [← haccess] at hrb
  rcases mem_patched_iff.mp hrb with ⟨-, hrm⟩ | ⟨pre, post, rfl, -⟩
  · exact hrm ra hx
  · exact absurd (by simp) (hnone (.add, rb) (by simp))

/-- If `apply_patch` throws, it has changed nothing: this holds exactly if the patch
leaves no access within the scope, so that it does not throw, or if no step of the
patch has an effect. -/
theorem rejected_patch_unchanged_iff (u : ResourceUser) (p : Patch) :
    ((u.applyPatch p).2.isSome = true → (u.applyPatch p).1.accessList = u.accessList ∧
        (u.applyPatch p).1.uniqueResources = u.uniqueResources) ↔
      ((∀ ra, u.LeftBy p.diff ra → ¬ u.InScope ra) ∨ ∀ x ∈ p.diff, u.Idles x) := by
  rw [applyPatch_throws_iff]
  show (_ → (u.patched p.diff).accessList = u.accessList ∧
    (u.patched p.diff).uniqueResources = u.uniqueResources) ↔ _
  constructor
  · intro h
    by_cases hs : ∃ ra, u.LeftBy p.diff ra ∧ u.InScope ra
    · obtain ⟨haccess, hunique⟩ := h hs
      exact .inr (idles_of_patched haccess hunique)
    · push Not at hs
      exact .inl hs
  · rintro (h | h) ⟨ra, hra, hs⟩
    · exact absurd hs (h ra hra)
    · rw [patched_of_idles h]
      exact ⟨rfl, rfl⟩

/-- The promotion of the tutorial is refused, and the task has the write access. -/
theorem promotion_stays :
    ((build 0 [.addResource (Graph.ioAccess 0 .read)]).applyPatch
      ⟨[(.add, Graph.ioAccess 0 .write)]⟩).2.isSome = true ∧
    ((build 0 [.addResource (Graph.ioAccess 0 .read)]).applyPatch
      ⟨[(.add, Graph.ioAccess 0 .write)]⟩).1.accessList =
        [Graph.ioAccess 0 .read, Graph.ioAccess 0 .write] ∧
    (build 0 [.addResource (Graph.ioAccess 0 .read)]).accessList = [Graph.ioAccess 0 .read] :=
  ⟨by decide, rfl, rfl⟩

/-! ### Between the steps -/

variable {t : ResourceUser}

theorem isSerial_patched_iff :
    (u.patched diff).isSerial t = true ↔
      ∃ ra, u.LeftBy diff ra ∧ ∃ rb ∈ t.accessList, ra.isSerial rb = true := by
  simp only [isSerial, List.any_eq_true, List.mem_reverse]
  constructor
  · rintro ⟨ra, hra, h⟩
    exact ⟨ra, mem_patched_iff.mp hra, h⟩
  · rintro ⟨ra, hra, h⟩
    exact ⟨ra, mem_patched_iff.mpr hra, h⟩

/-- No remove step of the patch takes the last access out of the list that
conflicts with `t`. -/
def KeepsConflict (u : ResourceUser) (diff : List (DiffType × ResourceAccess))
    (t : ResourceUser) : Prop :=
  ∀ pre x post, diff = pre ++ (.remove, x) :: post →
    ∃ ra, u.LeftBy pre ra ∧ ra.eq x = false ∧ ∃ rb ∈ t.accessList, ra.isSerial rb = true

/-- A task that is serial with `u` before the patch is serial with it at every
point of the patch exactly if no remove step takes the last conflict away. -/
theorem serial_between_iff (u : ResourceUser) (diff : List (DiffType × ResourceAccess))
    (t : ResourceUser) (hbefore : u.isSerial t = true) :
    (∀ pre post, diff = pre ++ post → (u.patched pre).isSerial t = true) ↔
      u.KeepsConflict diff t := by
  constructor
  · intro h pre x post e
    have hstep := h (pre ++ [(.remove, x)]) post (by simpa using e)
    obtain ⟨ra, hra, hser⟩ := isSerial_patched_iff.mp hstep
    obtain ⟨hra, hne⟩ := leftBy_concat_remove.mp hra
    exact ⟨ra, hra, hne, hser⟩
  · intro h pre
    -- an add step only adds conflicts, a remove step keeps one by assumption
    induction pre using List.reverseRecOn with
    | nil =>
        intro _ _
        exact hbefore
    | append_singleton pre x ih =>
        intro post e
        obtain ⟨d, x⟩ := x
        have e' : diff = pre ++ (d, x) :: post := by simpa using e
        cases d with
        | add =>
            obtain ⟨ra, hra, hser⟩ := isSerial_patched_iff.mp (ih _ e')
            exact isSerial_patched_iff.mpr ⟨ra, leftBy_concat_add.mpr (.inl hra), hser⟩
        | remove =>
            obtain ⟨ra, hra, hne, hser⟩ := h pre x post e'
            exact isSerial_patched_iff.mpr ⟨ra, leftBy_concat_remove.mpr ⟨hra, hne⟩, hser⟩

/-- Adding the read access before the write access is removed keeps a later
writer in order. -/
theorem serial_between_iff_add_first :
    writer.isSerial writer = true ∧
      ∀ pre post, [(DiffType.add, Graph.ioAccess 0 .read),
        (DiffType.remove, Graph.ioAccess 0 .write)] = pre ++ post →
          (writer.patched pre).isSerial writer = true := by
  refine ⟨by decide, (serial_between_iff _ _ _ (by decide)).mpr ?_⟩
  intro pre x post e
  have hread : (Graph.ioAccess 0 .read).eq (Graph.ioAccess 0 .write) = false := by decide
  rcases pre with _ | ⟨a, _ | ⟨b, pre⟩⟩
  · simp at e
  · simp only [List.cons_append, List.nil_append, List.cons.injEq, Prod.mk.injEq, true_and] at e
    obtain ⟨rfl, rfl, -⟩ := e
    exact ⟨Graph.ioAccess 0 .read, .inr ⟨[], [], rfl, by simp⟩, hread,
      Graph.ioAccess 0 .write, List.mem_singleton.mpr rfl, by decide⟩
  · simp at e

/-- The demotion of the tutorial removes first: a later writer conflicts with
the task before and after it, the old access covers the new one, and in between
the two do not conflict. -/
theorem demotion_seen_half_done :
    (∀ ra ∈ (writer.patched writeToRead.diff).accessList, writer.Covers ra) ∧
      writer.isSerial writer = true ∧ (writer.patched writeToRead.diff).isSerial writer = true ∧
      ∃ pre post, writeToRead.diff = pre ++ post ∧ (writer.patched pre).isSerial writer = false := by
  refine ⟨?_, by decide, by decide, [(.remove, Graph.ioAccess 0 .write)],
    [(.add, Graph.ioAccess 0 .read)], rfl, by decide⟩
  intro ra hra
  rw [writer_patched, List.mem_singleton] at hra
  subst hra
  exact ⟨Graph.ioAccess 0 .write, List.mem_singleton.mpr rfl, by decide⟩

end ResourceUser

end RedGrapes
