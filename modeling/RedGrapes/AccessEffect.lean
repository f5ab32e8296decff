/-
RedGrapes/AccessEffect.lean

What the predicates of an access policy say about the data.

The source never looks at data: `is_serial` and `is_superset_of` compare modes and bounds.  Here
an access is given a meaning, the effects it allows at the places of its resource.  An effect
changes the value of one place and what its task knows.  A reader leaves the value alone, an
`aadd` adds something that does not depend on the value, an `amul` multiplies by it, and a writer
does anything; an area allows everything inside of its bounds, and of two combined accesses both
have to allow it (`And_t`), or the one whose place it is (`Or_t`).

* `Policy.commutes_of_isSerial` — for every nesting of policies, effects of two accesses that are
  not serial commute.  This is all that a scheduler may rely on when it leaves two tasks unordered.
* `FieldResource.field_access_exact` — for the accesses of a field the predicates say no more than
  they have to: two accesses are serial only if some of their effects do not commute, and one
  covers another only if it allows all that the other does.
-/
import RedGrapes.FieldResource

namespace RedGrapes

variable {K L : Type*}

/-! ### Effects -/

/-- From the value of a place and what the task knows to the new value and what the task knows
then. -/
abbrev Effect (K L : Type*) := K → L → K × L

namespace Effect

/-- Neither the value nor what the two tasks know depends on which effect comes first. -/
def Commutes (e f : Effect K L) : Prop :=
  ∀ v l m, (f (e v l).1 m).1 = (e (f v m).1 l).1 ∧ (e v l).2 = (e (f v m).1 l).2 ∧
    (f (e v l).1 m).2 = (f v m).2

theorem Commutes.symm {e f : Effect K L} (h : e.Commutes f) : f.Commutes e := fun v l m =>
  ⟨(h v m l).1.symm, (h v m l).2.2.symm, (h v m l).2.1.symm⟩

end Effect

/-! ### What an access allows -/

section Allows

variable [CommSemiring K]

/-- The effects of a mode. -/
def IOAccess.Allows : IOAccess → Effect K L → Prop
  | write, _ => True
  | read, e => ∀ v l, (e v l).1 = v
  | aadd, e => ∃ (c : L → K) (g : L → L), ∀ v l, e v l = (v + c l, g l)
  | amul, e => ∃ (c : L → K) (g : L → L), ∀ v l, e v l = (v * c l, g l)

/-- An index lies inside of the bounds. -/
def AreaAccess.Contains (a : AreaAccess) (x : UInt64) : Prop := a.lower ≤ x ∧ x < a.upper

namespace Policy

/-- The places of a resource with this policy. -/
def Place : Policy → Type
  | io => Unit
  | area => UInt64
  | array n .and p => Fin n → p.Place
  | array n .or p => Fin n × p.Place
  | combine .and p q => p.Place × q.Place
  | combine .or p q => p.Place ⊕ q.Place

/-- An access allows the effect at the place. -/
def Allows : (p : Policy) → p.Access → p.Place → Effect K L → Prop
  | io, a, _, e => IOAccess.Allows a e
  | area, a, x, _ => AreaAccess.Contains a x
  | array _ .and p, a, x, e => ∀ i, p.Allows (a i) (x i) e
  | array _ .or p, a, x, e => p.Allows (a x.1) x.2 e
  | combine .and p q, a, x, e => p.Allows a.1 x.1 e ∧ q.Allows a.2 x.2 e
  | combine .or p q, a, x, e => x.elim (fun y => p.Allows a.1 y e) fun z => q.Allows a.2 z e

end Policy

/-! ### Effects that commute -/

theorem IOAccess.commutes_of_isSerial {a b : IOAccess} {e f : Effect K L}
    (h : a.isSerial b = false) (he : a.Allows e) (hf : b.Allows f) : e.Commutes f := by
  intro v l m
  cases a <;> cases b <;> first | exact absurd h (by decide) | skip
  · -- two readers
    have he' : ∀ v l, (e v l).1 = v := he
    have hf' : ∀ v l, (f v l).1 = v := hf
    exact ⟨by rw [hf', he', he', hf'], by rw [hf'], by rw [he']⟩
  · obtain ⟨c, g, hc⟩ := he
    obtain ⟨c', g', hc'⟩ := hf
    simp only [hc, hc', and_self, and_true]
    exact add_right_comm v (c l) (c' m)
  · obtain ⟨c, g, hc⟩ := he
    obtain ⟨c', g', hc'⟩ := hf
    simp only [hc, hc', and_self, and_true]
    exact mul_right_comm v (c l) (c' m)

/-- Effects of two accesses that are not serial commute at every place. -/
theorem Policy.commutes_of_isSerial (p : Policy) {a b : p.Access} {x : p.Place}
    {e f : Effect K L} (h : p.isSerial a b = false) (he : p.Allows a x e)
    (hf : p.Allows b x f) : e.Commutes f := by
  induction p with
  | io => exact IOAccess.commutes_of_isSerial h he hf
  | area =>
      -- two areas that share a place are serial
      obtain ⟨h1, h2⟩ := he
      obtain ⟨h3, h4⟩ := hf
      simp only [isSerial, AreaAccess.isSerial, Bool.and_eq_false_iff, decide_eq_false_iff_not] at h
      rcases h with h | h
      · exact absurd (UInt64.lt_of_le_of_lt h3 h2) h
      · exact absurd (UInt64.lt_of_le_of_lt h1 h4) h
  | array n op p ih =>
      cases op with
      | and =>
          simp only [isSerial, List.all_eq_false, Bool.not_eq_true] at h
          obtain ⟨i, -, hi⟩ := h
          exact ih hi (he i) (hf i)
      | or =>
          simp only [isSerial, List.any_eq_false, Bool.not_eq_true] at h
          exact ih (h x.1 (List.mem_finRange _)) he hf
  | combine op p q ihp ihq =>
      cases op with
      | and =>
          simp only [isSerial, Bool.and_eq_false_iff] at h
          rcases h with h | h
          · exact ihp h he.1 hf.1
          · exact ihq h he.2 hf.2
      | or =>
          simp only [isSerial, Bool.or_eq_false_iff] at h
          rcases x with y | z
          · exact ihp h.1 he hf
          · exact ihq h.2 he hf

theorem IOAccess.Allows.of_isSupersetOf {a b : IOAccess} {e : Effect K L}
    (h : a.isSupersetOf b = true) (he : b.Allows e) : a.Allows e := by
  cases a <;> cases b <;> first | exact absurd h (by decide) | exact he | exact trivial

/-- A superset allows all that the access does. -/
theorem Policy.Allows.of_isSupersetOf {p : Policy} {a b : p.Access} {x : p.Place}
    {e : Effect K L} (h : p.isSupersetOf a b = true) (he : p.Allows b x e) : p.Allows a x e := by
  induction p with
  | io => exact IOAccess.Allows.of_isSupersetOf h he
  | area =>
      simp only [isSupersetOf, AreaAccess.isSupersetOf, Bool.and_eq_true, decide_eq_true_eq] at h
      exact ⟨UInt64.le_trans h.1 he.1, UInt64.lt_of_lt_of_le he.2 h.2⟩
  | array n op p ih =>
      simp only [isSupersetOf, List.all_eq_true] at h
      cases op with
      | and => exact fun i => ih (h i (List.mem_finRange i)) (he i)
      | or => exact ih (h x.1 (List.mem_finRange _)) he
  | combine op p q ihp ihq =>
      simp only [isSupersetOf, Bool.and_eq_true] at h
      cases op with
      | and => exact ⟨ihp h.1 he.1, ihq h.2 he.2⟩
      | or =>
          rcases x with y | z
          · exact ihp h.1 he
          · exact ihq h.2 he

/-! ### Modes -/

namespace IOAccess

variable [Nontrivial K]

/-- Of two serial modes some effects do not commute. -/
theorem exists_not_commutes {a b : IOAccess} (h : a.isSerial b = true) :
    ∃ e f : Effect K K, a.Allows e ∧ b.Allows f ∧ ¬ e.Commutes f := by
  -- set the value, look at it, add to it, multiply it
  let put (k : K) : Effect K K := fun _ l => (k, l)
  let look : Effect K K := fun v _ => (v, v)
  let plus (k : K) : Effect K K := fun v l => (v + k, l)
  let times (k : K) : Effect K K := fun v l => (v * k, l)
  have hlook : read.Allows look := fun _ _ => rfl
  have hplus : ∀ k, aadd.Allows (plus k) := fun k => ⟨fun _ => k, id, fun _ _ => rfl⟩
  have htimes : ∀ k, amul.Allows (times k) := fun k => ⟨fun _ => k, id, fun _ _ => rfl⟩
  have hww : ¬ (put 0).Commutes (put 1) := fun h => by simpa [put] using (h 0 0 0).1
  have hwr : ¬ (put 0).Commutes look := fun h => by simpa [put, look] using (h 1 0 0).2.2
  have hwa : ¬ (put 0).Commutes (plus 1) := fun h => by simpa [put, plus] using (h 0 0 0).1
  have hwm : ¬ (put 1).Commutes (times 0) := fun h => by simpa [put, times] using (h 0 0 0).1
  have hra : ¬ look.Commutes (plus 1) := fun h => by simpa [look, plus] using (h 0 0 0).2.1
  have hrm : ¬ look.Commutes (times 0) := fun h => by simpa [look, times] using (h 1 0 0).2.1
  have ham : ¬ (plus 1).Commutes (times 0) := fun h => by simpa [plus, times] using (h 0 0 0).1
  cases a <;> cases b <;> first | exact absurd h (by decide) | skip
  · exact ⟨put 0, put 1, trivial, trivial, hww⟩
  · exact ⟨put 0, look, trivial, hlook, hwr⟩
  · exact ⟨put 0, plus 1, trivial, hplus 1, hwa⟩
  · exact ⟨put 1, times 0, trivial, htimes 0, hwm⟩
  · exact ⟨look, put 0, hlook, trivial, fun h => hwr h.symm⟩
  · exact ⟨look, plus 1, hlook, hplus 1, hra⟩
  · exact ⟨look, times 0, hlook, htimes 0, hrm⟩
  · exact ⟨plus 1, put 0, hplus 1, trivial, fun h => hwa h.symm⟩
  · exact ⟨plus 1, look, hplus 1, hlook, fun h => hra h.symm⟩
  · exact ⟨plus 1, times 0, hplus 1, htimes 0, ham⟩
  · exact ⟨times 0, put 1, htimes 0, trivial, fun h => hwm h.symm⟩
  · exact ⟨times 0, look, htimes 0, hlook, fun h => hrm h.symm⟩
  · exact ⟨times 0, plus 1, htimes 0, hplus 1, fun h => ham h.symm⟩

omit [Nontrivial K] in
/-- Every mode lets a task do nothing. -/
theorem allows_nothing (a : IOAccess) : a.Allows (fun v l => (v, l) : Effect K L) := by
  cases a with
  | write => exact trivial
  | read => exact fun _ _ => rfl
  | aadd => exact ⟨fun _ => 0, id, fun v l => by simp⟩
  | amul => exact ⟨fun _ => 1, id, fun v l => by simp⟩

/-- A mode that allows all effects of another one covers it. -/
theorem isSupersetOf_of_allows {a b : IOAccess}
    (h : ∀ e : Effect K K, b.Allows e → a.Allows e) : a.isSupersetOf b = true := by
  -- no sum and no product tells the task what the value was
  have hlearn : ∀ g : K → K, ¬ ∀ v l : K, v = g l := fun g hg =>
    zero_ne_one ((hg 0 0).trans (hg 1 0).symm)
  have hplus : aadd.Allows (fun v l => (v + 1, l) : Effect K K) :=
    ⟨fun _ => 1, id, fun _ _ => rfl⟩
  have htimes : amul.Allows (fun v l => (v * 0, l) : Effect K K) :=
    ⟨fun _ => 0, id, fun _ _ => rfl⟩
  have hlook : read.Allows (fun v _ => (v, v) : Effect K K) := fun _ _ => rfl
  cases a <;> cases b <;> first | rfl | exfalso
  · exact zero_ne_one (h (fun _ l => (0, l)) trivial 1 0)
  · simpa using h _ hplus 0 0
  · simpa using h _ htimes 1 0
  · obtain ⟨c, g, hc⟩ := h (fun v _ => (v, v)) trivial
    exact hlearn g fun v l => congrArg Prod.snd (hc v l)
  · obtain ⟨c, g, hc⟩ := h _ hlook
    exact hlearn g fun v l => congrArg Prod.snd (hc v l)
  · obtain ⟨c, g, hc⟩ := h _ htimes
    have h0 : c 0 = 0 := by simpa using (congrArg Prod.fst (hc 0 0)).symm
    simpa [h0] using congrArg Prod.fst (hc 1 0)
  · obtain ⟨c, g, hc⟩ := h (fun v _ => (v, v)) trivial
    exact hlearn g fun v l => congrArg Prod.snd (hc v l)
  · obtain ⟨c, g, hc⟩ := h _ hlook
    exact hlearn g fun v l => congrArg Prod.snd (hc v l)
  · obtain ⟨c, g, hc⟩ := h _ hplus
    simpa using congrArg Prod.fst (hc 0 0)

end IOAccess

/-! ### Fields -/

namespace FieldResource

variable [Nontrivial K] {n : Nat}

/-- No interval is empty. -/
def HasPlaces (a : (fieldAccess n).Access) : Prop := ∀ i, (a.2 i).lower < (a.2 i).upper

omit [Nontrivial K] in
theorem allows_iff {a : (fieldAccess n).Access} {x : (fieldAccess n).Place} {e : Effect K K} :
    (fieldAccess n).Allows a x e ↔ IOAccess.Allows a.1 e ∧ ∀ i, (a.2 i).Contains (x.2 i) :=
  Iff.rfl

theorem isSerial_iff {a b : (fieldAccess n).Access} :
    (fieldAccess n).isSerial a b = true ↔
      IOAccess.isSerial a.1 b.1 = true ∧ ∀ i, AreaAccess.isSerial (a.2 i) (b.2 i) = true := by
  simp [fieldAccess, Policy.isSerial]

theorem isSupersetOf_iff {a b : (fieldAccess n).Access} :
    (fieldAccess n).isSupersetOf a b = true ↔
      IOAccess.isSupersetOf a.1 b.1 = true ∧ ∀ i, AreaAccess.isSupersetOf (a.2 i) (b.2 i) = true := by
  simp [fieldAccess, Policy.isSupersetOf]

/-- Two intervals that overlap share an index. -/
theorem exists_contains {a b : AreaAccess} (ha : a.lower < a.upper) (hb : b.lower < b.upper)
    (h : a.isSerial b = true) : ∃ x, a.Contains x ∧ b.Contains x := by
  simp only [AreaAccess.isSerial, Bool.and_eq_true, decide_eq_true_eq] at h
  rcases UInt64.le_total a.lower b.lower with hle | hle
  · exact ⟨b.lower, ⟨hle, h.1⟩, UInt64.le_refl _, hb⟩
  · exact ⟨a.lower, ⟨UInt64.le_refl _, ha⟩, hle, h.2⟩

/-- An interval that contains both ends of another one covers it. -/
theorem area_isSupersetOf {a b : AreaAccess} (hb : b.lower < b.upper)
    (h : ∀ x, b.Contains x → a.Contains x) : a.isSupersetOf b = true := by
  have hfirst := h b.lower ⟨UInt64.le_refl _, hb⟩
  have hlt := UInt64.lt_iff_toNat_lt.mp hb
  have hone : (1 : UInt64) ≤ b.upper := by
    rw [UInt64.le_iff_toNat_le]
    change 1 ≤ _
    omega
  have hpred : (b.upper - 1).toNat = b.upper.toNat - 1 := UInt64.toNat_sub_of_le _ _ hone
  have hlast := (h (b.upper - 1) ⟨UInt64.le_iff_toNat_le.mpr (by omega),
    UInt64.lt_iff_toNat_lt.mpr (by omega)⟩).2
  simp only [AreaAccess.isSupersetOf, Bool.and_eq_true, decide_eq_true_eq]
  refine ⟨hfirst.1, UInt64.le_iff_toNat_le.mpr ?_⟩
  rw [UInt64.lt_iff_toNat_lt] at hlast
  omega

/-- The predicates of a field access say what they have to and no more. -/
theorem field_access_exact {a b : (fieldAccess n).Access} (ha : HasPlaces a) (hb : HasPlaces b) :
    ((fieldAccess n).isSerial a b = true ↔ ∃ (x : (fieldAccess n).Place) (e f : Effect K K),
      (fieldAccess n).Allows a x e ∧ (fieldAccess n).Allows b x f ∧ ¬ e.Commutes f) ∧
    ((fieldAccess n).isSupersetOf a b = true ↔ ∀ (x : (fieldAccess n).Place) (e : Effect K K),
      (fieldAccess n).Allows b x e → (fieldAccess n).Allows a x e) := by
  refine ⟨⟨fun h => ?_, ?_⟩, fun h x e he => he.of_isSupersetOf h, fun h => ?_⟩
  · obtain ⟨hmode, hareas⟩ := isSerial_iff.mp h
    obtain ⟨e, f, he, hf, hne⟩ := IOAccess.exists_not_commutes (K := K) hmode
    choose x hx using fun i => exists_contains (ha i) (hb i) (hareas i)
    exact ⟨((), x), e, f, allows_iff.mpr ⟨he, fun i => (hx i).1⟩,
      allows_iff.mpr ⟨hf, fun i => (hx i).2⟩, hne⟩
  · rintro ⟨x, e, f, he, hf, hne⟩
    by_contra h
    exact hne (Policy.commutes_of_isSerial _ (Bool.not_eq_true _ ▸ h) he hf)
  · -- a place of `b` for the modes, a mode of `b` for the places
    have hlower : ∀ i, (b.2 i).Contains (b.2 i).lower := fun i => ⟨UInt64.le_refl _, hb i⟩
    refine isSupersetOf_iff.mpr ⟨IOAccess.isSupersetOf_of_allows (K := K) fun e he => ?_, fun i => ?_⟩
    · exact (allows_iff.mp (h ((), fun i => (b.2 i).lower) e (allows_iff.mpr ⟨he, hlower⟩))).1
    · refine area_isSupersetOf (hb i) fun x hx => ?_
      let y : Fin n → UInt64 := Function.update (fun j => (b.2 j).lower) i x
      have hy : y i = x := Function.update_self ..
      have hall : ∀ j, (b.2 j).Contains (y j) := by
        intro j
        by_cases e : j = i
        · subst e
          rwa [hy]
        · have hj : y j = (b.2 j).lower := Function.update_of_ne e ..
          rw [hj]
          exact hlower j
      have hcov := (allows_iff.mp (h ((), y) _
        (allows_iff.mpr ⟨IOAccess.allows_nothing b.1, hall⟩))).2 i
      exact hy ▸ hcov

/-- Two boxes that share a corner. -/
theorem field_access_exact_boxes :
    let a : (fieldAccess 2).Access := (IOAccess.aadd, fun _ => AreaAccess.mk 0 5)
    let b : (fieldAccess 2).Access := (IOAccess.write, fun _ => AreaAccess.mk 4 9)
    ((fieldAccess 2).isSerial a b = true ↔ ∃ (x : (fieldAccess 2).Place) (e f : Effect ℤ ℤ),
      (fieldAccess 2).Allows a x e ∧ (fieldAccess 2).Allows b x f ∧ ¬ e.Commutes f) ∧
    ((fieldAccess 2).isSupersetOf a b = true ↔ ∀ (x : (fieldAccess 2).Place) (e : Effect ℤ ℤ),
      (fieldAccess 2).Allows b x e → (fieldAccess 2).Allows a x e) :=
  field_access_exact (fun i => by decide +revert) (fun i => by decide +revert)

end FieldResource

end Allows

end RedGrapes
