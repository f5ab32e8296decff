/-
RedGrapes/Access.lean

Access policies (`resource/access/io.hpp`, `area.hpp`, `combine.hpp`).

A policy is a type of access modes together with three predicates:
`isSerial a b` (the two accesses have to stay in order), `isSupersetOf a b`
(`a` allows everything `b` allows) and `isSynchronizing a` (every other
access conflicts with `a`).  The source builds policies by nesting the
templates `ArrayAccess<Access, N, Op>` and `CombineAccess<Acc1, Acc2, Op>`
over `IOAccess` and `AreaAccess`; here a nesting is a code `Policy` and its
modes are the type `Policy.Access`.

Two laws carry the dependency graph and are proved by induction on the
nesting:

* `isSerial_of_isSupersetOf` — conflicts are inherited by supersets;
* `isSerial_absorb` — a synchronizing access sits between any two
  conflicting ones, which is what lets a scan of predecessors stop at it.
-/
import Mathlib

namespace RedGrapes

/-! ### IOAccess -/

/-- `IOAccess::Mode`. -/
inductive IOAccess
  | write
  | read
  | aadd
  | amul
deriving DecidableEq, Repr

namespace IOAccess

def isSynchronizing (a : IOAccess) : Bool := a == write

def isSerial (a b : IOAccess) : Bool :=
  !((a == read && b == read) || (a == aadd && b == aadd) || (a == amul && b == amul))

def isSupersetOf (a b : IOAccess) : Bool := a == write || a == b

/-- `operator==`. -/
def eq (a b : IOAccess) : Bool := a == b

end IOAccess

/-! ### AreaAccess -/

/-- `AreaAccess : std::array<size_t, 2>`, the half-open interval
`[lower, upper)`.  Nothing keeps `lower ≤ upper`. -/
structure AreaAccess where
  lower : UInt64
  upper : UInt64
deriving DecidableEq, Repr

namespace AreaAccess

/-- `std::numeric_limits<size_t>::max()`. -/
def sizeMax : UInt64 := 0xFFFFFFFFFFFFFFFF

def isSynchronizing (a : AreaAccess) : Bool := a.lower == 0 && a.upper == sizeMax

def isSerial (a b : AreaAccess) : Bool :=
  decide (b.lower < a.upper) && decide (a.lower < b.upper)

def isSupersetOf (a b : AreaAccess) : Bool :=
  decide (a.lower ≤ b.lower) && decide (b.upper ≤ a.upper)

/-- `operator==`. -/
def eq (a b : AreaAccess) : Bool := a.lower == b.lower && a.upper == b.upper

end AreaAccess

/-! ### Nested policies -/

/-- The tags `And_t` and `Or_t` of the combinators. -/
inductive Op
  | and
  | or
deriving DecidableEq, Repr

/-- An access policy as a nesting of the templates of the source. -/
inductive Policy
  | io
  | area
  | array (n : Nat) (op : Op) (p : Policy)
  | combine (op : Op) (p q : Policy)
deriving DecidableEq, Repr

namespace Policy

/-- The access modes of a policy. -/
def Access : Policy → Type
  | io => IOAccess
  | area => AreaAccess
  | array n _ p => Fin n → p.Access
  | combine _ p q => p.Access × q.Access

def isSynchronizing : (p : Policy) → p.Access → Bool
  | io, a => IOAccess.isSynchronizing a
  | area, a => AreaAccess.isSynchronizing a
  | array n _ p, a => (List.finRange n).all fun i => p.isSynchronizing (a i)
  | combine _ p q, a => p.isSynchronizing a.1 && q.isSynchronizing a.2

/-- `is_serial`; the only predicate that looks at the combinator's tag. -/
def isSerial : (p : Policy) → p.Access → p.Access → Bool
  | io, a, b => IOAccess.isSerial a b
  | area, a, b => AreaAccess.isSerial a b
  | array n .or p, a, b => (List.finRange n).any fun i => p.isSerial (a i) (b i)
  | array n .and p, a, b => (List.finRange n).all fun i => p.isSerial (a i) (b i)
  | combine .and p q, a, b => p.isSerial a.1 b.1 && q.isSerial a.2 b.2
  | combine .or p q, a, b => p.isSerial a.1 b.1 || q.isSerial a.2 b.2

def isSupersetOf : (p : Policy) → p.Access → p.Access → Bool
  | io, a, b => IOAccess.isSupersetOf a b
  | area, a, b => AreaAccess.isSupersetOf a b
  | array n _ p, a, b => (List.finRange n).all fun i => p.isSupersetOf (a i) (b i)
  | combine _ p q, a, b => p.isSupersetOf a.1 b.1 && q.isSupersetOf a.2 b.2

/-- `operator==`. -/
def eq : (p : Policy) → p.Access → p.Access → Bool
  | io, a, b => IOAccess.eq a b
  | area, a, b => AreaAccess.eq a b
  | array n _ p, a, b => (List.finRange n).all fun i => p.eq (a i) (b i)
  | combine _ p q, a, b => p.eq a.1 b.1 && q.eq a.2 b.2

/-! ### Laws of the policies -/

theorem isSerial_comm (p : Policy) (a b : p.Access) :
    p.isSerial a b = p.isSerial b a := by
  induction p with
  | io => revert a b; intro (a : IOAccess) (b : IOAccess); cases a <;> cases b <;> rfl
  | area => simp [isSerial, AreaAccess.isSerial, Bool.and_comm]
  | array n op p ih => cases op <;> simp only [isSerial, ih]
  | combine op p q ihp ihq => cases op <;> simp only [isSerial, ihp a.1, ihq a.2]

/-- Conflicts are inherited by supersets. -/
theorem isSerial_of_isSupersetOf (p : Policy) {a b c : p.Access}
    (hab : p.isSupersetOf a b = true) (hbc : p.isSerial b c = true) :
    p.isSerial a c = true := by
  induction p with
  | io =>
      revert a b c
      intro (a : IOAccess) (b : IOAccess) (c : IOAccess)
      cases a <;> cases b <;> cases c <;> decide
  | area =>
      simp only [isSupersetOf, AreaAccess.isSupersetOf, isSerial, AreaAccess.isSerial,
        Bool.and_eq_true, decide_eq_true_eq] at *
      exact ⟨UInt64.lt_of_lt_of_le hbc.1 hab.2, UInt64.lt_of_le_of_lt hab.1 hbc.2⟩
  | array n op p ih =>
      cases op <;>
        simp only [isSupersetOf, isSerial, List.all_eq_true, List.any_eq_true] at *
      · exact fun i hi => ih (hab i hi) (hbc i hi)
      · obtain ⟨i, hi, h⟩ := hbc
        exact ⟨i, hi, ih (hab i hi) h⟩
  | combine op p q ihp ihq =>
      cases op <;>
        simp only [isSupersetOf, isSerial, Bool.and_eq_true, Bool.or_eq_true] at *
      · exact ⟨ihp hab.1 hbc.1, ihq hab.2 hbc.2⟩
      · exact hbc.imp (ihp hab.1) (ihq hab.2)

theorem isSupersetOf_refl (p : Policy) (a : p.Access) : p.isSupersetOf a a = true := by
  induction p with
  | io =>
      revert a
      intro (a : IOAccess)
      cases a <;> rfl
  | area =>
      simp only [isSupersetOf, AreaAccess.isSupersetOf, Bool.and_eq_true, decide_eq_true_eq]
      exact ⟨UInt64.le_refl _, UInt64.le_refl _⟩
  | array n op p ih =>
      simp only [isSupersetOf, List.all_eq_true]
      exact fun i _ => ih (a i)
  | combine op p q ihp ihq =>
      simp only [isSupersetOf, Bool.and_eq_true]
      exact ⟨ihp a.1, ihq a.2⟩

theorem isSupersetOf_trans (p : Policy) {a b c : p.Access} (hab : p.isSupersetOf a b = true)
    (hbc : p.isSupersetOf b c = true) : p.isSupersetOf a c = true := by
  induction p with
  | io =>
      revert a b c
      intro (a : IOAccess) (b : IOAccess) (c : IOAccess)
      cases a <;> cases b <;> cases c <;> decide
  | area =>
      simp only [isSupersetOf, AreaAccess.isSupersetOf, Bool.and_eq_true, decide_eq_true_eq] at *
      exact ⟨UInt64.le_trans hab.1 hbc.1, UInt64.le_trans hbc.2 hab.2⟩
  | array n op p ih =>
      simp only [isSupersetOf, List.all_eq_true] at *
      exact fun i hi => ih (hab i hi) (hbc i hi)
  | combine op p q ihp ihq =>
      simp only [isSupersetOf, Bool.and_eq_true] at *
      exact ⟨ihp hab.1 hbc.1, ihq hab.2 hbc.2⟩

/-- A synchronizing access conflicts with the right end of any conflict. -/
theorem isSerial_of_isSynchronizing (p : Policy) {a b c : p.Access}
    (hb : p.isSynchronizing b = true) (hac : p.isSerial a c = true) :
    p.isSerial b c = true := by
  induction p with
  | io =>
      revert a b c
      intro (a : IOAccess) (b : IOAccess) (c : IOAccess)
      cases a <;> cases b <;> cases c <;> decide
  | area =>
      simp only [isSynchronizing, AreaAccess.isSynchronizing, isSerial, AreaAccess.isSerial,
        Bool.and_eq_true, decide_eq_true_eq, beq_iff_eq] at *
      obtain ⟨hlo, hup⟩ := hb
      obtain ⟨h1, h2⟩ := hac
      rw [hlo, hup]
      -- no bound is above the largest `size_t`
      have hmax : a.upper ≤ AreaAccess.sizeMax := by
        rw [UInt64.le_iff_toNat_le]
        have := a.upper.toNat_lt
        simp only [AreaAccess.sizeMax]
        change _ ≤ 18446744073709551615
        omega
      exact ⟨UInt64.lt_of_lt_of_le h1 hmax, UInt64.lt_of_le_of_lt UInt64.zero_le h2⟩
  | array n op p ih =>
      cases op <;>
        simp only [isSynchronizing, isSerial, List.all_eq_true, List.any_eq_true] at *
      · exact fun i hi => ih (hb i hi) (hac i hi)
      · obtain ⟨i, hi, h⟩ := hac
        exact ⟨i, hi, ih (hb i hi) h⟩
  | combine op p q ihp ihq =>
      cases op <;>
        simp only [isSynchronizing, isSerial, Bool.and_eq_true, Bool.or_eq_true] at *
      · exact ⟨ihp hb.1 hac.1, ihq hb.2 hac.2⟩
      · exact hac.imp (ihp hb.1) (ihq hb.2)

/-- A synchronizing access conflicts with both ends of any conflict. -/
theorem isSerial_absorb (P : Policy) {p q t : P.Access} (hp : P.isSynchronizing p = true)
    (hqt : P.isSerial q t = true) : P.isSerial q p = true ∧ P.isSerial p t = true := by
  constructor
  · -- the left end is the right end of the reversed conflict
    rw [isSerial_comm] at hqt ⊢
    exact P.isSerial_of_isSynchronizing hp hqt
  · exact P.isSerial_of_isSynchronizing hp hqt

/-- Two intervals that meet, and the whole range. -/
theorem isSerial_absorb_areas :
    let P := combine .and io (array 2 .or area)
    let q : P.Access := (IOAccess.read, fun _ => AreaAccess.mk 3 5)
    let p : P.Access := (IOAccess.write, fun _ => AreaAccess.mk 0 AreaAccess.sizeMax)
    let t : P.Access := (IOAccess.write, fun i => if i = 0 then AreaAccess.mk 7 7 else AreaAccess.mk 4 9)
    P.isSerial q p = true ∧ P.isSerial p t = true :=
  isSerial_absorb (combine .and io (array 2 .or area)) (by decide) (by decide)

end Policy

end RedGrapes
