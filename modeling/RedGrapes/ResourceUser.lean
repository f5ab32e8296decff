/-
RedGrapes/ResourceUser.lean

Resources, accesses and resource users (`resource/resource.hpp`,
`resource/resource_user.hpp`, the builder of `task/property/resource.hpp`).

A `ChunkedList` is modelled as the `List` of its elements in push order; the
iterators of the source run backwards, newest element first.

The relation that matters for scheduling is `ConflictOn r u v`: `u` and `v`
hold accesses on the *same* resource `r` that have to stay in order.
`isSerial u v` is `ConflictOn r u v` for some `r`.  The two policy laws of
`Access.lean` are lifted to it:

* `ConflictOn.absorb` — a user with a synchronizing access on `r` conflicts
  on `r` with both ends of any conflict on `r`;
* `ConflictOn.of_isSupersetOf` — a superset inherits the conflicts on the
  resources inside its scope.
-/
import RedGrapes.Access

namespace RedGrapes

/-! ### Resources and accesses -/

/-- `ResourceBase`.  `id` stands for the address of the object, by which the
source compares resources; the scope level is fixed at creation, and all
accesses on a resource are made through one `Resource<AccessPolicy>`. -/
structure Resource where
  id : Nat
  scopeLevel : UInt8
  policy : Policy
deriving DecidableEq

/-- `ResourceAccess`: a resource and a mode of *its* policy. -/
structure ResourceAccess where
  resource : Resource
  mode : resource.policy.Access

namespace ResourceAccess

/-- `access_type`, the type index of the policy. -/
def accessType (a : ResourceAccess) : Policy := a.resource.policy

/-- The mode of `b` read as a mode of `a`'s policy, once the types agree. -/
def castMode (a b : ResourceAccess) (h : b.accessType = a.accessType) :
    a.resource.policy.Access :=
  cast (congrArg Policy.Access h) b.mode

def isSerial (a b : ResourceAccess) : Bool :=
  if h : b.accessType = a.accessType then
    decide (a.resource = b.resource) && a.resource.policy.isSerial a.mode (a.castMode b h)
  else false

def isSupersetOf (a b : ResourceAccess) : Bool :=
  if h : b.accessType = a.accessType then
    decide (a.resource = b.resource) && a.resource.policy.isSupersetOf a.mode (a.castMode b h)
  else false

/-- `operator==`. -/
def eq (a b : ResourceAccess) : Bool :=
  if h : b.accessType = a.accessType then
    decide (a.resource = b.resource) && a.resource.policy.eq a.mode (a.castMode b h)
  else false

def isSynchronizing (a : ResourceAccess) : Bool :=
  a.resource.policy.isSynchronizing a.mode

def scopeLevel (a : ResourceAccess) : UInt8 := a.resource.scopeLevel

@[simp] theorem castMode_self {r : Resource} (x y : r.policy.Access)
    (h : accessType ⟨r, y⟩ = accessType ⟨r, x⟩) : castMode ⟨r, x⟩ ⟨r, y⟩ h = y := rfl

theorem isSerial_iff {a b : ResourceAccess} :
    a.isSerial b = true ↔ ∃ (r : Resource) (x y : r.policy.Access),
      a = ⟨r, x⟩ ∧ b = ⟨r, y⟩ ∧ r.policy.isSerial x y = true := by
  constructor
  · intro h
    obtain ⟨r, x⟩ := a
    obtain ⟨r', y⟩ := b
    -- accesses of different types are never serial
    unfold isSerial at h
    split at h
    · simp only [Bool.and_eq_true, decide_eq_true_eq] at h
      obtain ⟨rfl, h⟩ := h
      exact ⟨r, x, y, rfl, rfl, h⟩
    · cases h
  · rintro ⟨r, x, y, rfl, rfl, h⟩
    simpa [isSerial, accessType] using h

theorem isSupersetOf_iff {a b : ResourceAccess} :
    a.isSupersetOf b = true ↔ ∃ (r : Resource) (x y : r.policy.Access),
      a = ⟨r, x⟩ ∧ b = ⟨r, y⟩ ∧ r.policy.isSupersetOf x y = true := by
  constructor
  · intro h
    obtain ⟨r, x⟩ := a
    obtain ⟨r', y⟩ := b
    unfold isSupersetOf at h
    split at h
    · simp only [Bool.and_eq_true, decide_eq_true_eq] at h
      obtain ⟨rfl, h⟩ := h
      exact ⟨r, x, y, rfl, rfl, h⟩
    · cases h
  · rintro ⟨r, x, y, rfl, rfl, h⟩
    simpa [isSupersetOf, accessType] using h

theorem isSupersetOf_refl (a : ResourceAccess) : a.isSupersetOf a = true :=
  isSupersetOf_iff.mpr ⟨a.resource, a.mode, a.mode, rfl, rfl, Policy.isSupersetOf_refl _ _⟩

theorem isSupersetOf_trans {a b c : ResourceAccess} (hab : a.isSupersetOf b = true)
    (hbc : b.isSupersetOf c = true) : a.isSupersetOf c = true := by
  obtain ⟨r, x, y, rfl, rfl, hxy⟩ := isSupersetOf_iff.mp hab
  obtain ⟨r', y', z, e, rfl, hyz⟩ := isSupersetOf_iff.mp hbc
  obtain ⟨rfl, rfl⟩ := ResourceAccess.mk.injEq .. ▸ e
  exact isSupersetOf_iff.mpr ⟨r, x, z, rfl, rfl, Policy.isSupersetOf_trans _ hxy hyz⟩

theorem isSerial_of_isSupersetOf {a b c : ResourceAccess} (hab : a.isSupersetOf b = true)
    (hbc : b.isSerial c = true) : a.isSerial c = true := by
  obtain ⟨r, x, y, rfl, rfl, hxy⟩ := isSupersetOf_iff.mp hab
  obtain ⟨r', y', z, e, rfl, hyz⟩ := isSerial_iff.mp hbc
  obtain ⟨rfl, rfl⟩ := ResourceAccess.mk.injEq .. ▸ e
  exact isSerial_iff.mpr ⟨r, x, z, rfl, rfl, Policy.isSerial_of_isSupersetOf _ hxy hyz⟩

/-- An access is covered by accesses on its own resource only. -/
theorem scopeLevel_of_isSupersetOf {a b : ResourceAccess} (h : a.isSupersetOf b = true) :
    a.scopeLevel = b.scopeLevel := by
  obtain ⟨r, x, y, rfl, rfl, -⟩ := isSupersetOf_iff.mp h
  rfl

end ResourceAccess

/-! ### Resource users -/

/-- `ResourceUser`.  `uniqueResources` keeps the resources of the usage
entries; their positions in the user lists are set by `TaskSpace::submit`. -/
structure ResourceUser where
  accessList : List ResourceAccess
  uniqueResources : List Resource
  scopeLevel : UInt8

namespace ResourceUser

/-- The user of a freshly constructed task. -/
def empty (scopeLevel : UInt8) : ResourceUser := ⟨[], [], scopeLevel⟩

def addResourceAccess (u : ResourceUser) (ra : ResourceAccess) : ResourceUser :=
  { u with
    accessList := u.accessList ++ [ra]
    uniqueResources := u.uniqueResources ++ [ra.resource] }

/-- One round of the loop in `build_unique_resource_list`: `erase`, then
`push`. -/
def refreshResource (us : List Resource) (ra : ResourceAccess) : List Resource :=
  us.filter (fun r => r ≠ ra.resource) ++ [ra.resource]

def buildUniqueResourceList (u : ResourceUser) : ResourceUser :=
  { u with uniqueResources := u.accessList.reverse.foldl refreshResource u.uniqueResources }

def hasSyncAccess (u : ResourceUser) (r : Resource) : Bool :=
  u.accessList.reverse.any fun ra => decide (ra.resource = r) && ra.isSynchronizing

def isSupersetOf (u a : ResourceUser) : Bool :=
  a.accessList.reverse.all fun ra =>
    u.accessList.reverse.any (fun r => r.isSupersetOf ra) || !decide (ra.scopeLevel ≤ u.scopeLevel)

def isSerial (u v : ResourceUser) : Bool :=
  u.accessList.reverse.any fun ra => v.accessList.reverse.any fun rb => ra.isSerial rb

/-- `u` and `v` hold conflicting accesses on the resource `r`. -/
def ConflictOn (r : Resource) (u v : ResourceUser) : Prop :=
  ∃ x y : r.policy.Access, (⟨r, x⟩ : ResourceAccess) ∈ u.accessList ∧
    (⟨r, y⟩ : ResourceAccess) ∈ v.accessList ∧ r.policy.isSerial x y = true

theorem isSerial_iff {u v : ResourceUser} :
    u.isSerial v = true ↔ ∃ r, ConflictOn r u v := by
  simp only [isSerial, List.any_eq_true, List.mem_reverse, ResourceAccess.isSerial_iff]
  constructor
  · rintro ⟨_, ha, _, hb, r, x, y, rfl, rfl, h⟩
    exact ⟨r, x, y, ha, hb, h⟩
  · rintro ⟨r, x, y, ha, hb, h⟩
    exact ⟨_, ha, _, hb, r, x, y, rfl, rfl, h⟩

theorem hasSyncAccess_iff {u : ResourceUser} {r : Resource} :
    u.hasSyncAccess r = true ↔ ∃ x : r.policy.Access,
      (⟨r, x⟩ : ResourceAccess) ∈ u.accessList ∧ r.policy.isSynchronizing x = true := by
  simp only [hasSyncAccess, List.any_eq_true, List.mem_reverse, Bool.and_eq_true,
    decide_eq_true_eq]
  constructor
  · rintro ⟨⟨r', x⟩, ha, rfl, h⟩
    exact ⟨x, ha, h⟩
  · rintro ⟨x, ha, h⟩
    exact ⟨_, ha, rfl, h⟩

/-- A superset covers the accesses on resources inside its scope. -/
theorem exists_superset {u w : ResourceUser} (hw : w.isSupersetOf u = true) {ra : ResourceAccess}
    (hra : ra ∈ u.accessList) (hlevel : ra.scopeLevel ≤ w.scopeLevel) :
    ∃ r ∈ w.accessList, r.isSupersetOf ra = true := by
  simp only [isSupersetOf, List.all_eq_true, List.mem_reverse, Bool.or_eq_true, List.any_eq_true,
    Bool.not_eq_true', decide_eq_false_iff_not] at hw
  exact (hw ra hra).resolve_right fun h => h hlevel

namespace ConflictOn

variable {r : Resource} {u v w : ResourceUser}

theorem symm (h : ConflictOn r u v) : ConflictOn r v u := by
  obtain ⟨x, y, hx, hy, h⟩ := h
  exact ⟨y, x, hy, hx, by rw [Policy.isSerial_comm]; exact h⟩

theorem isSerial (h : ConflictOn r u v) : u.isSerial v = true :=
  isSerial_iff.mpr ⟨r, h⟩

/-- A synchronizing access on `r` absorbs the conflicts on `r`. -/
theorem absorb (h : ConflictOn r u v) (hw : w.hasSyncAccess r = true) :
    ConflictOn r u w ∧ ConflictOn r w v := by
  obtain ⟨z, hz, hsync⟩ := hasSyncAccess_iff.mp hw
  -- the synchronizing access conflicts with the right end; the left one by symmetry
  have right : ∀ {u v : ResourceUser}, ConflictOn r u v → ConflictOn r w v := by
    rintro u v ⟨x, y, -, hy, h⟩
    exact ⟨z, y, hz, hy, Policy.isSerial_of_isSynchronizing _ hsync h⟩
  exact ⟨(right h.symm).symm, right h⟩

/-- A superset inherits a conflict on a resource inside its scope. -/
theorem of_isSupersetOf (h : ConflictOn r u v) (hw : w.isSupersetOf u = true)
    (hr : r.scopeLevel ≤ w.scopeLevel) : ConflictOn r w v := by
  obtain ⟨x, y, hx, hy, h⟩ := h
  obtain ⟨_, ha, hsup⟩ := exists_superset hw hx hr
  obtain ⟨r', x', y', rfl, e, hsup⟩ := ResourceAccess.isSupersetOf_iff.mp hsup
  obtain ⟨rfl, rfl⟩ := ResourceAccess.mk.injEq .. ▸ e
  exact ⟨x', y, ha, hy, Policy.isSerial_of_isSupersetOf _ hsup h⟩

end ConflictOn

/-! ### Chains of supersets -/

section Chain

variable {u : Nat → ResourceUser} {k : Nat}

/-- The first user of a chain has the lowest scope. -/
theorem scopeLevel_le_of_chain (hscope : ∀ i < k, (u i).scopeLevel ≤ (u (i + 1)).scopeLevel) :
    ∀ i ≤ k, (u 0).scopeLevel ≤ (u i).scopeLevel := by
  intro i hi
  induction i with
  | zero => exact UInt8.le_refl _
  | succ i ih => exact UInt8.le_trans (ih (by omega)) (hscope i (by omega))

/-- An access of the last user inside the scope of the first one is covered by the first
one. -/
theorem exists_superset_of_chain (hscope : ∀ i < k, (u i).scopeLevel ≤ (u (i + 1)).scopeLevel)
    (hsup : ∀ i < k, (u i).isSupersetOf (u (i + 1)) = true) :
    ∀ i ≤ k, ∀ ra ∈ (u i).accessList, ra.scopeLevel ≤ (u 0).scopeLevel →
      ∃ r ∈ (u 0).accessList, r.isSupersetOf ra = true := by
  intro i hi
  induction i with
  | zero => exact fun ra hra _ => ⟨ra, hra, ra.isSupersetOf_refl⟩
  | succ i ih =>
      intro ra hra hlevel
      -- covered one user further up, on the same resource
      have hbelow : ra.scopeLevel ≤ (u i).scopeLevel :=
        UInt8.le_trans hlevel (scopeLevel_le_of_chain hscope i (by omega))
      obtain ⟨rb, hrb, hcover⟩ := exists_superset (hsup i (by omega)) hra hbelow
      rw [← ResourceAccess.scopeLevel_of_isSupersetOf hcover] at hlevel
      obtain ⟨rc, hrc, hcover'⟩ := ih (by omega) rb hrb hlevel
      exact ⟨rc, hrc, ResourceAccess.isSupersetOf_trans hcover' hcover⟩

end Chain

/-- **Conflicts are inherited upwards.**  The laws of the policies, and what follows from them
for chains of resource users. -/
theorem conflicts_inherited :
    (∀ (P : Policy) (a b : P.Access), P.isSerial a b = P.isSerial b a) ∧
    (∀ (P : Policy) (a : P.Access), P.isSupersetOf a a = true) ∧
    (∀ (P : Policy) (a b c : P.Access), P.isSupersetOf a b = true → P.isSupersetOf b c = true →
      P.isSupersetOf a c = true) ∧
    (∀ (P : Policy) (a b c : P.Access), P.isSupersetOf a b = true → P.isSerial b c = true →
      P.isSerial a c = true) ∧
    ∀ (u : Nat → ResourceUser) (k : Nat),
      (∀ i < k, (u i).scopeLevel ≤ (u (i + 1)).scopeLevel) →
      (∀ i < k, (u i).isSupersetOf (u (i + 1)) = true) →
      ∀ ra ∈ (u k).accessList, ra.scopeLevel ≤ (u 0).scopeLevel →
        (∃ r ∈ (u 0).accessList, r.isSupersetOf ra = true) ∧
        ∀ (v : ResourceUser), ∀ rb ∈ v.accessList, ra.isSerial rb = true →
          (u 0).isSerial v = true := by
  refine ⟨Policy.isSerial_comm, Policy.isSupersetOf_refl, fun P _ _ _ => P.isSupersetOf_trans,
    fun P _ _ _ => P.isSerial_of_isSupersetOf, ?_⟩
  intro u k hscope hsup ra hra hlevel
  obtain ⟨r, hr, hcover⟩ := exists_superset_of_chain hscope hsup k le_rfl ra hra hlevel
  refine ⟨⟨r, hr, hcover⟩, fun v rb hrb hserial => ?_⟩
  simp only [isSerial, List.any_eq_true, List.mem_reverse]
  exact ⟨r, hr, rb, hrb, ResourceAccess.isSerial_of_isSupersetOf hcover hserial⟩

/-- A writer with a child that writes and a grandchild that reads. -/
theorem conflicts_inherited_three :
    let r : Resource := ⟨0, 0, .io⟩
    let user (mode : IOAccess) (level : UInt8) : ResourceUser := ⟨[⟨r, mode⟩], [r], level⟩
    (∃ ra ∈ (user .write 0).accessList, ra.isSupersetOf ⟨r, IOAccess.read⟩ = true) ∧
      (user .write 0).isSerial (user .aadd 3) = true := by
  intro r user
  have hchain := conflicts_inherited.2.2.2.2
    (fun i => if i = 2 then user .read 2 else user .write i.toUInt8) 2
    (by decide) (by decide) ⟨r, IOAccess.read⟩ (List.mem_singleton.mpr rfl) (by decide)
  exact ⟨hchain.1, hchain.2 (user .aadd 3) ⟨r, IOAccess.aadd⟩ (List.mem_singleton.mpr rfl) (by decide)⟩

end ResourceUser

/-! ### The builder -/

/-- The builder calls that give a task its accesses: a property-building
argument or `add_resource`, and `resources`. -/
inductive BuilderCall
  | addResource (ra : ResourceAccess)
  | resources (list : List ResourceAccess)

namespace BuilderCall

def apply (u : ResourceUser) : BuilderCall → ResourceUser
  | addResource ra => u.addResourceAccess ra
  | resources list =>
      ResourceUser.buildUniqueResourceList { u with accessList := u.accessList ++ list }

/-- Whether the call goes through `resources`. -/
def isResources : BuilderCall → Bool
  | addResource _ => false
  | resources _ => true

/-- The accesses a call adds to the access list. -/
def accesses : BuilderCall → List ResourceAccess
  | addResource ra => [ra]
  | resources list => list

end BuilderCall

namespace ResourceUser

/-- The user of a task after its builder calls. -/
def build (scopeLevel : UInt8) (calls : List BuilderCall) : ResourceUser :=
  calls.foldl BuilderCall.apply (empty scopeLevel)

variable {l : UInt8} {calls : List BuilderCall}

@[simp] theorem build_nil : build l [] = empty l := rfl

@[simp] theorem build_concat (c : BuilderCall) :
    build l (calls ++ [c]) = c.apply (build l calls) := by
  simp [build]

@[simp] theorem build_scopeLevel : (build l calls).scopeLevel = l := by
  induction calls using List.reverseRecOn with
  | nil => rfl
  | append_singleton calls c ih =>
      rw [build_concat]
      cases c <;> exact ih

theorem build_accessList : (build l calls).accessList = calls.flatMap BuilderCall.accesses := by
  induction calls using List.reverseRecOn with
  | nil => rfl
  | append_singleton calls c ih =>
      rw [build_concat, List.flatMap_append, ← ih]
      cases c <;> simp [BuilderCall.apply, BuilderCall.accesses, addResourceAccess,
        buildUniqueResourceList]

/-- Whether two built users are serial does not depend on their scopes. -/
theorem build_isSerial_build {l l' m m' : UInt8} {calls' : List BuilderCall} :
    (build l calls).isSerial (build l' calls') = (build m calls).isSerial (build m' calls') := by
  simp only [isSerial, build_accessList]

theorem mem_foldl_refreshResource {ras : List ResourceAccess} {us : List Resource}
    {r : Resource} :
    r ∈ ras.foldl refreshResource us ↔ r ∈ us ∨ ∃ ra ∈ ras, ra.resource = r := by
  induction ras generalizing us with
  | nil => simp
  | cons ra ras ih =>
      rw [List.foldl_cons, ih]
      by_cases h : r = ra.resource
      · simp [refreshResource, h]
      · have h' : ra.resource ≠ r := fun e => h e.symm
        simp [refreshResource, h, h']

/-- The entries of a built user are the resources of its accesses. -/
theorem mem_uniqueResources_build {r : Resource} :
    r ∈ (build l calls).uniqueResources ↔
      ∃ ra ∈ (build l calls).accessList, ra.resource = r := by
  induction calls using List.reverseRecOn with
  | nil => simp [empty]
  | append_singleton calls c ih =>
      rw [build_concat]
      cases c with
      | addResource ra =>
          simp only [BuilderCall.apply, addResourceAccess, List.mem_append,
            List.mem_singleton, ih]
          constructor
          · rintro (⟨rb, hb, rfl⟩ | rfl)
            · exact ⟨rb, Or.inl hb, rfl⟩
            · exact ⟨ra, Or.inr rfl, rfl⟩
          · rintro ⟨rb, hb | rfl, rfl⟩
            · exact Or.inl ⟨rb, hb, rfl⟩
            · exact Or.inr rfl
      | resources list =>
          simp only [BuilderCall.apply, buildUniqueResourceList, mem_foldl_refreshResource,
            List.mem_reverse, List.mem_append, ih]
          constructor
          · rintro (⟨rb, hb, rfl⟩ | h)
            · exact ⟨rb, Or.inl hb, rfl⟩
            · exact h
          · exact Or.inr

/-- A conflict on `r` puts both users on the user list of `r`. -/
theorem ConflictOn.mem_left {l' : UInt8} {r : Resource} {v : ResourceUser}
    (h : ConflictOn r (build l' calls) v) : r ∈ (build l' calls).uniqueResources := by
  obtain ⟨x, -, hx, -⟩ := h
  exact mem_uniqueResources_build.mpr ⟨_, hx, rfl⟩

/-! ### How often a task enters one user list -/

theorem nodup_refreshResource {us : List Resource} {s : Resource}
    {ra : ResourceAccess} (h : us.count s ≤ 1 ∨ ra.resource = s) :
    (refreshResource us ra).count s ≤ 1 := by
  by_cases e : ra.resource = s
  · subst e
    have : (us.filter fun r => r ≠ ra.resource).count ra.resource = 0 := by
      rw [List.count_eq_zero]
      simp
    simp only [refreshResource, List.count_append, List.count_singleton_self]
    omega
  · have h' : us.count s ≤ 1 := h.resolve_right e
    have hle : (us.filter fun r => r ≠ ra.resource).count s ≤ us.count s :=
      List.Sublist.count_le _ List.filter_sublist
    have : [ra.resource].count s = 0 := by
      rw [List.count_eq_zero]
      simpa using fun e' => e e'.symm
    simp only [refreshResource, List.count_append, this]
    omega

theorem count_foldl_refreshResource {ras : List ResourceAccess} {us : List Resource}
    {s : Resource} (h : us.count s ≤ 1 ∨ ∃ ra ∈ ras, ra.resource = s) :
    (ras.foldl refreshResource us).count s ≤ 1 := by
  induction ras generalizing us with
  | nil => simpa using h
  | cons ra ras ih =>
      rw [List.foldl_cons]
      refine ih ?_
      rcases h with h | ⟨rb, hb, e⟩
      · exact Or.inl (nodup_refreshResource (Or.inl h))
      · rcases List.mem_cons.mp hb with rfl | hb
        · exact Or.inl (nodup_refreshResource (Or.inr e))
        · exact Or.inr ⟨rb, hb, e⟩

/-- `resources` leaves one entry for each resource. -/
theorem nodup_apply_resources {list : List ResourceAccess} :
    ((BuilderCall.resources list).apply (build l calls)).uniqueResources.Nodup := by
  rw [List.nodup_iff_count_le_one]
  intro s
  simp only [BuilderCall.apply, buildUniqueResourceList]
  refine count_foldl_refreshResource ?_
  -- a resource of an earlier call is erased and pushed again
  by_cases hs : s ∈ (build l calls).uniqueResources
  · obtain ⟨ra, ha, e⟩ := mem_uniqueResources_build.mp hs
    exact Or.inr ⟨ra, by simp [ha], e⟩
  · rw [List.count_eq_zero.mpr hs]
    exact Or.inl (Nat.zero_le 1)

end ResourceUser

/-- Some `add_resource`, with no `resources` after it, names a resource that
an earlier call has named. -/
def BuilderCall.NamesTwice (calls : List BuilderCall) : Prop :=
  ∃ (before after : List BuilderCall) (ra : ResourceAccess),
    calls = before ++ addResource ra :: after ∧
    (∀ c ∈ after, ∃ rb, c = addResource rb) ∧
    ∃ rb ∈ before.flatMap accesses, rb.resource = ra.resource

namespace BuilderCall

theorem namesTwice_concat_addResource {calls : List BuilderCall} {ra : ResourceAccess} :
    NamesTwice (calls ++ [addResource ra]) ↔
      NamesTwice calls ∨ ∃ rb ∈ calls.flatMap accesses, rb.resource = ra.resource := by
  constructor
  · rintro ⟨before, after, rc, e, hafter, hb⟩
    rcases List.eq_nil_or_concat after with rfl | ⟨after', c, rfl⟩
    · obtain ⟨rfl, e'⟩ := List.append_inj' e rfl
      simp only [List.cons.injEq, addResource.injEq, and_true] at e'
      subst e'
      exact Or.inr hb
    · rw [List.concat_eq_append, ← List.cons_append, ← List.append_assoc] at e
      obtain ⟨rfl, -⟩ := List.append_inj' e rfl
      refine Or.inl ⟨before, after', rc, rfl, fun c hc => hafter c ?_, hb⟩
      simp [hc]
  · rintro (⟨before, after, rc, rfl, hafter, hb⟩ | hb)
    · refine ⟨before, after ++ [addResource ra], rc, by simp, fun c hc => ?_, hb⟩
      rcases List.mem_append.mp hc with hc | hc
      · exact hafter c hc
      · exact ⟨ra, by simpa using hc⟩
    · exact ⟨calls, [], ra, rfl, by simp, hb⟩

theorem not_namesTwice_concat_resources {calls : List BuilderCall}
    {list : List ResourceAccess} : ¬ NamesTwice (calls ++ [resources list]) := by
  rintro ⟨before, after, ra, e, hafter, -⟩
  rcases List.eq_nil_or_concat after with rfl | ⟨after', c, rfl⟩
  · obtain ⟨-, e'⟩ := List.append_inj' e rfl
    simp at e'
  · rw [List.concat_eq_append, ← List.cons_append, ← List.append_assoc] at e
    obtain ⟨-, e'⟩ := List.append_inj' e rfl
    obtain ⟨rb, hb⟩ := hafter c (by simp)
    simp [hb] at e'

theorem not_namesTwice_of_isResources {calls : List BuilderCall}
    (h : ∀ c ∈ calls, c.isResources = true) : ¬ NamesTwice calls := by
  rintro ⟨before, after, ra, rfl, -⟩
  have := h (addResource ra) (by simp)
  simp [isResources] at this

/-- The entries of a built user repeat a resource exactly when a later
`add_resource` names it twice. -/
theorem nodup_build_iff {l : UInt8} {calls : List BuilderCall} :
    (ResourceUser.build l calls).uniqueResources.Nodup ↔ ¬ NamesTwice calls := by
  induction calls using List.reverseRecOn with
  | nil =>
      refine iff_of_true (by simp [ResourceUser.empty]) ?_
      rintro ⟨before, after, ra, e, -⟩
      simp at e
  | append_singleton calls c ih =>
      rw [ResourceUser.build_concat]
      cases c with
      | addResource ra =>
          rw [namesTwice_concat_addResource, not_or, ← ih, ← ResourceUser.build_accessList (l := l),
            ← ResourceUser.mem_uniqueResources_build]
          simp only [apply, ResourceUser.addResourceAccess]
          rw [List.nodup_append]
          simp only [List.nodup_cons, List.not_mem_nil, not_false_eq_true, List.nodup_nil,
            and_self, List.mem_singleton, forall_eq, true_and]
          refine and_congr_right fun _ => ⟨fun h hm => h _ hm rfl, ?_⟩
          rintro h a ha rfl
          exact h ha
      | resources list =>
          exact iff_of_true ResourceUser.nodup_apply_resources not_namesTwice_concat_resources

end BuilderCall

end RedGrapes
