/-
RedGrapes/FieldResource.lean

Guards of a field (`resource/fieldresource.hpp`).

A guard is a copy of its resource together with an area, one half-open interval for each
dimension.  It is made from the `FieldResource` itself, which is the writer of the whole range,
by `read()`, `write()`, `area(begin, end)` and `at(pos)`.  The area is written down three times:

* `contains` compares an index with the bounds;
* `make_area` admits a new area by `is_superset_of` of the array combined with `Or_t`;
* `operator ResourceAccess` converts it to the array combined with `And_t`, and
  `is_serial` compares the bounds of two areas with each other.

They agree on all bounds, also when an area is empty or reversed and when the `+ 1` of `at`
wraps around: `contains_of_isSupersetOf` and `isSerial_of_contains` are the two comparisons.
-/
import RedGrapes.ResourceUser

namespace RedGrapes.FieldResource

open Relation

variable {n : Nat}

/-! ### The guards -/

/-- `std::array<size_t, dim>`. -/
abbrev Index (n : Nat) := Fin n → UInt64

/-- `FieldAccess<dim>`. -/
def fieldAccess (n : Nat) : Policy := .combine .and .io (.array n .and .area)

/-- `ArrayAccess<AreaAccess, dim>`, the type of `m_area`. -/
def areaPolicy (n : Nat) : Policy := .array n .or .area

/-- `AreaGuard`: the resource it is a copy of, and `m_area`. -/
structure AreaGuard (n : Nat) where
  id : Nat
  scopeLevel : UInt8
  mArea : (areaPolicy n).Access

namespace AreaGuard

def resource (g : AreaGuard n) : Resource := ⟨g.id, g.scopeLevel, fieldAccess n⟩

/-- The bounds in the dimension `d`. -/
def bounds (g : AreaGuard n) (d : Fin n) : AreaAccess := g.mArea d

def contains (g : AreaGuard n) (index : Index n) : Bool :=
  (List.finRange n).all fun d =>
    !(decide (index d < (g.bounds d).lower) || decide ((g.bounds d).upper ≤ index d))

def makeArea (g : AreaGuard n) (start stop : Index n) : Except String (areaPolicy n).Access :=
  let subArea : (areaPolicy n).Access := fun d => AreaAccess.mk (start d) (stop d)
  if (areaPolicy n).isSupersetOf g.mArea subArea then .ok subArea else .error "invalid sub area"

/-- The constructor of a guard of a part of another guard's area. -/
def sub (g : AreaGuard n) (start stop : Index n) : Except String (AreaGuard n) :=
  (g.makeArea start stop).map fun area => { g with mArea := area }

/-- `make_access`; the area is converted from the `Or_t` array to the `And_t` array. -/
def makeAccess (g : AreaGuard n) (mode : IOAccess) : ResourceAccess :=
  ⟨g.resource, (mode, g.bounds)⟩

end AreaGuard

structure ReadGuard (n : Nat) extends AreaGuard n

namespace ReadGuard

def read (g : ReadGuard n) : ReadGuard n := g

def area (g : ReadGuard n) (start stop : Index n) : Except String (ReadGuard n) :=
  (g.sub start stop).map ReadGuard.mk

/-- `at`. -/
def atPos (g : ReadGuard n) (pos : Index n) : Except String (ReadGuard n) :=
  g.area pos fun d => pos d + 1

def access (g : ReadGuard n) : ResourceAccess := g.makeAccess .read

end ReadGuard

/-- `WriteGuard`; it inherits `read` from `ReadGuard`. -/
structure WriteGuard (n : Nat) extends ReadGuard n

namespace WriteGuard

def write (g : WriteGuard n) : WriteGuard n := g

def area (g : WriteGuard n) (start stop : Index n) : Except String (WriteGuard n) :=
  (g.sub start stop).map fun a => ⟨⟨a⟩⟩

/-- `at`. -/
def atPos (g : WriteGuard n) (pos : Index n) : Except String (WriteGuard n) :=
  g.area pos fun d => pos d + 1

def access (g : WriteGuard n) : ResourceAccess := g.makeAccess .write

end WriteGuard

/-- A `FieldResource` on a new resource. -/
def fieldResource (n id : Nat) (scopeLevel : UInt8) : WriteGuard n :=
  ⟨⟨⟨id, scopeLevel, fun _ => AreaAccess.mk 0 AreaAccess.sizeMax⟩⟩⟩

/-- A guard of either type. -/
inductive Guard (n : Nat)
  | read (g : ReadGuard n)
  | write (g : WriteGuard n)

namespace Guard

def toAreaGuard : Guard n → AreaGuard n
  | read g => g.toAreaGuard
  | write g => g.toAreaGuard

def mode : Guard n → IOAccess
  | read _ => .read
  | write _ => .write

def contains (g : Guard n) (index : Index n) : Bool := g.toAreaGuard.contains index

/-- `operator ResourceAccess`. -/
def access : Guard n → ResourceAccess
  | read g => g.access
  | write g => g.access

/-- The calls that make one guard from another and do not throw. -/
inductive Derives : Guard n → Guard n → Prop
  | read (g : ReadGuard n) : Derives (.read g) (.read g.read)
  | readArea {g g' : ReadGuard n} {start stop : Index n} :
      g.area start stop = .ok g' → Derives (.read g) (.read g')
  | readAt {g g' : ReadGuard n} {pos : Index n} : g.atPos pos = .ok g' → Derives (.read g) (.read g')
  | writeRead (g : WriteGuard n) : Derives (.write g) (.read g.read)
  | write (g : WriteGuard n) : Derives (.write g) (.write g.write)
  | writeArea {g g' : WriteGuard n} {start stop : Index n} :
      g.area start stop = .ok g' → Derives (.write g) (.write g')
  | writeAt {g g' : WriteGuard n} {pos : Index n} :
      g.atPos pos = .ok g' → Derives (.write g) (.write g')

end Guard

/-! ### One step -/

namespace AreaGuard

variable {g g' : AreaGuard n} {index : Index n}

theorem contains_iff : g.contains index = true ↔
    ∀ d, (g.bounds d).lower ≤ index d ∧ index d < (g.bounds d).upper := by
  simp only [contains, List.all_eq_true, List.mem_finRange, forall_true_left, Bool.not_eq_true',
    Bool.or_eq_false_iff, decide_eq_false_iff_not, UInt64.not_lt, UInt64.not_le]

/-- A guard of a part of the area: the area is a subset, in the sense of the `Or_t` array. -/
theorem sub_eq_ok {start stop : Index n} (h : g.sub start stop = .ok g') :
    g'.resource = g.resource ∧ (areaPolicy n).isSupersetOf g.mArea g'.mArea = true := by
  simp only [sub, makeArea] at h
  split at h
  next hsup =>
    cases h
    exact ⟨rfl, hsup⟩
  next => cases h

/-- The accesses of guards of one resource are accesses on it. -/
theorem makeAccess_of_resource (h : g'.resource = g.resource) (mode : IOAccess) :
    g'.makeAccess mode = ⟨g.resource, (mode, g'.bounds)⟩ := by
  obtain ⟨id, level, area⟩ := g
  obtain ⟨id', level', area'⟩ := g'
  simp only [resource, Resource.mk.injEq] at h
  obtain ⟨rfl, rfl, -⟩ := h
  rfl

/-- The comparison of `make_area` against the one of `contains`. -/
theorem contains_of_isSupersetOf (hsup : (areaPolicy n).isSupersetOf g.mArea g'.mArea = true)
    (h : g'.contains index = true) : g.contains index = true := by
  rw [contains_iff] at h ⊢
  intro d
  have hd : AreaAccess.isSupersetOf (g.bounds d) (g'.bounds d) = true :=
    List.all_eq_true.mp hsup d (List.mem_finRange d)
  simp only [AreaAccess.isSupersetOf, Bool.and_eq_true, decide_eq_true_eq] at hd
  obtain ⟨hlower, hupper⟩ := h d
  exact ⟨UInt64.le_trans hd.1 hlower, UInt64.lt_of_lt_of_le hupper hd.2⟩

/-- The comparison of `contains` against the one of `is_serial`. -/
theorem isSerial_of_contains (h : g.contains index = true) (h' : g'.contains index = true)
    (d : Fin n) : (g.bounds d).isSerial (g'.bounds d) = true := by
  rw [contains_iff] at h h'
  simp only [AreaAccess.isSerial, Bool.and_eq_true, decide_eq_true_eq]
  exact ⟨UInt64.lt_of_le_of_lt (h' d).1 (h d).2, UInt64.lt_of_le_of_lt (h d).1 (h' d).2⟩

end AreaGuard

theorem ReadGuard.sub_of_area {g g' : ReadGuard n} {start stop : Index n}
    (h : g.area start stop = .ok g') : g.sub start stop = .ok g'.toAreaGuard := by
  unfold ReadGuard.area at h
  cases hsub : g.sub start stop with
  | error e =>
      rw [hsub] at h
      cases h
  | ok a =>
      rw [hsub] at h
      cases h
      rfl

theorem WriteGuard.sub_of_area {g g' : WriteGuard n} {start stop : Index n}
    (h : g.area start stop = .ok g') : g.sub start stop = .ok g'.toAreaGuard := by
  unfold WriteGuard.area at h
  cases hsub : g.sub start stop with
  | error e =>
      rw [hsub] at h
      cases h
  | ok a =>
      rw [hsub] at h
      cases h
      rfl

namespace Guard

variable {g g' : Guard n} {index : Index n}

theorem access_eq (g : Guard n) : g.access = g.toAreaGuard.makeAccess g.mode := by
  cases g <;> rfl

/-- What a call can do: the resource stays, the mode is kept or given up for reading, and the
area is a part of the old one. -/
theorem Derives.spec (h : Derives g g') :
    g'.toAreaGuard.resource = g.toAreaGuard.resource ∧ g.mode.isSupersetOf g'.mode = true ∧
      (areaPolicy n).isSupersetOf g.toAreaGuard.mArea g'.toAreaGuard.mArea = true := by
  have hrefl : ∀ a : AreaGuard n, (areaPolicy n).isSupersetOf a.mArea a.mArea = true := fun a =>
    (areaPolicy n).isSupersetOf_refl a.mArea
  cases h with
  | read g | writeRead g | write g => exact ⟨rfl, rfl, hrefl _⟩
  | readArea h | readAt h =>
      obtain ⟨hres, hsup⟩ := AreaGuard.sub_eq_ok (ReadGuard.sub_of_area h)
      exact ⟨hres, rfl, hsup⟩
  | writeArea h | writeAt h =>
      obtain ⟨hres, hsup⟩ := AreaGuard.sub_eq_ok (WriteGuard.sub_of_area h)
      exact ⟨hres, rfl, hsup⟩

/-- The access of a derived guard is covered. -/
theorem Derives.isSupersetOf (h : Derives g g') : g.access.isSupersetOf g'.access = true := by
  obtain ⟨hres, hmode, harea⟩ := h.spec
  rw [access_eq, access_eq]
  refine ResourceAccess.isSupersetOf_iff.mpr
    ⟨g.toAreaGuard.resource, (g.mode, g.toAreaGuard.bounds), (g'.mode, g'.toAreaGuard.bounds), rfl,
      ?_, ?_⟩
  · exact AreaGuard.makeAccess_of_resource hres g'.mode
  · exact Bool.and_eq_true_iff.mpr ⟨hmode, harea⟩

/-! ### Chains of calls -/

theorem resource_of_derived (h : ReflTransGen Derives g g') :
    g'.toAreaGuard.resource = g.toAreaGuard.resource := by
  induction h with
  | refl => rfl
  | tail _ hstep ih => exact hstep.spec.1.trans ih

theorem isSupersetOf_of_derived (h : ReflTransGen Derives g g') :
    g.access.isSupersetOf g'.access = true := by
  -- induction on the calls; a call makes a guard that its own guard covers
  induction h with
  | refl => exact g.access.isSupersetOf_refl
  | tail _ hstep ih => exact ResourceAccess.isSupersetOf_trans ih hstep.isSupersetOf

theorem contains_of_derived (h : ReflTransGen Derives g g') (hc : g'.contains index = true) :
    g.contains index = true := by
  induction h with
  | refl => exact hc
  | tail _ hstep ih => exact ih (AreaGuard.contains_of_isSupersetOf hstep.spec.2.2 hc)

/-- Two guards of one resource that contain an index in common, one of them for writing. -/
theorem isSerial_of_common (hres : g'.toAreaGuard.resource = g.toAreaGuard.resource)
    (h : g.contains index = true) (h' : g'.contains index = true)
    (hwrite : g.mode = .write ∨ g'.mode = .write) : g.access.isSerial g'.access = true := by
  -- `write` conflicts with every mode
  have hmode : IOAccess.isSerial g.mode g'.mode = true := by
    rcases hwrite with hw | hw
    · rw [hw]
      cases g'.mode <;> rfl
    · rw [hw]
      cases g.mode <;> rfl
  rw [access_eq, access_eq]
  refine ResourceAccess.isSerial_iff.mpr
    ⟨g.toAreaGuard.resource, (g.mode, g.toAreaGuard.bounds), (g'.mode, g'.toAreaGuard.bounds), rfl,
      ?_, ?_⟩
  · exact AreaGuard.makeAccess_of_resource hres g'.mode
  · refine Bool.and_eq_true_iff.mpr ⟨hmode, List.all_eq_true.mpr fun d _ => ?_⟩
    exact AreaGuard.isSerial_of_contains h h' d

/-- **Guards of non-serial accesses do not interfere.**  Of all guards made from one
`FieldResource`, two that contain a common index have serial accesses if one of them is a
`WriteGuard`; and a guard made from another one is covered by it and contains no other index. -/
theorem guards_do_not_interfere (n id : Nat) (scopeLevel : UInt8) {g g' : Guard n}
    (hg : ReflTransGen Derives (.write (fieldResource n id scopeLevel)) g) :
    (ReflTransGen Derives (.write (fieldResource n id scopeLevel)) g' →
      (∃ index, g.contains index = true ∧ g'.contains index = true) →
      (g.mode = .write ∨ g'.mode = .write) → g.access.isSerial g'.access = true) ∧
    (ReflTransGen Derives g g' → g.access.isSupersetOf g'.access = true ∧
      ∀ index, g'.contains index = true → g.contains index = true) := by
  constructor
  · rintro hg' ⟨index, h, h'⟩ hwrite
    -- both are guards of the resource that was made first
    have hres := (resource_of_derived hg').trans (resource_of_derived hg).symm
    exact isSerial_of_common hres h h' hwrite
  · intro hd
    exact ⟨isSupersetOf_of_derived hd, fun _ => contains_of_derived hd⟩

/-- A reader of one place and a writer of an area around it, in two dimensions. -/
theorem guards_do_not_interfere_place :
    let f := fieldResource 2 0 0
    ∃ (g : WriteGuard 2) (g' : ReadGuard 2),
      f.area (fun _ => 3) (fun _ => 7) = .ok g ∧ g.read.atPos (fun _ => 5) = .ok g' ∧
        g.access.isSerial g'.access = true ∧ g.access.isSupersetOf g'.access = true := by
  intro f
  let g : WriteGuard 2 := ⟨⟨⟨0, 0, fun _ => AreaAccess.mk 3 7⟩⟩⟩
  let g' : ReadGuard 2 := ⟨⟨0, 0, fun _ => AreaAccess.mk 5 6⟩⟩
  have harea : f.area (fun _ => 3) (fun _ => 7) = .ok g := by rfl
  have hat : g.read.atPos (fun _ => 5) = .ok g' := by rfl
  have hg : ReflTransGen Derives (.write f) (.write g) := .single (.writeArea harea)
  have hsub : ReflTransGen Derives (.write g) (.read g') :=
    .tail (.single (.writeRead g)) (.readAt hat)
  have hall := @guards_do_not_interfere 2 0 0 _ (.read g') hg
  refine ⟨g, g', harea, hat, ?_, (hall.2 hsub).1⟩
  exact hall.1 (hg.trans hsub) ⟨fun _ => 5, by decide, by decide⟩ (Or.inl rfl)

end Guard

end RedGrapes.FieldResource
