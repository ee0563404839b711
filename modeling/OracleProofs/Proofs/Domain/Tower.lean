/-
# The tower of an independent basis

A combination of vectors over the field of two elements is the sum of some of
them. The polynomial of a tower of `t` vectors is monic of degree `2 ^ t`, and
its zeros are exactly the combinations of these vectors: `Z * (Z - Z b)` is zero
where `Z` is zero and where `Z` has the value `Z b`, and by additivity the
latter are the zeros of `Z` moved by `b`. Hence the image of the next vector is
zero exactly if it is a combination of those before it, and a tower can be built
exactly on a basis without such a vector.
-/

import Mathlib
import OracleProofs.Domain.Subspace
import OracleProofs.Proofs.Fault
import OracleProofs.Proofs.Field.Binary
import OracleProofs.Proofs.Polynomial.Linearized

namespace OracleProofs

variable {F : Type} [FiniteField F] [LawfulField F]

namespace FiniteField

/-- The test for a binary field looks at the characteristic. -/
theorem isBinary_iff : isBinary F = true ↔ CharP F 2 := by
  rw [isBinary, decide_eq_true_iff, one_add_one_eq_two]
  constructor
  · intro htwo
    exact CharTwo.of_one_ne_zero_of_two_eq_zero one_ne_zero htwo
  · intro _
    exact CharTwo.two_eq_zero

end FiniteField

section Combinations

/-- The combinations of vectors over the field of two elements: each vector is taken or left
out, and those taken are added up. -/
def combinations (vectors : List F) : Set F :=
  {a | ∃ taken : List F, taken.Sublist vectors ∧ taken.sum = a}

omit [LawfulField F] in
theorem mem_combinations_nil {a : F} : a ∈ combinations [] ↔ a = 0 := by
  constructor
  · rintro ⟨taken, hsublist, rfl⟩
    rw [List.sublist_nil.mp hsublist, List.sum_nil]
  · rintro rfl
    exact ⟨[], .slnil, List.sum_nil⟩

/-- The last vector is left out, or taken and then missing from what the others add up to. -/
theorem mem_combinations_append {vectors : List F} {vector a : F} :
    a ∈ combinations (vectors ++ [vector]) ↔
      a ∈ combinations vectors ∨ a - vector ∈ combinations vectors := by
  constructor
  · rintro ⟨taken, hsublist, rfl⟩
    obtain ⟨earlier, last, rfl, hearlier, hlast⟩ := List.sublist_append_iff.mp hsublist
    rcases List.sublist_singleton.mp hlast with rfl | rfl
    · exact .inl ⟨earlier, hearlier, by rw [List.append_nil]⟩
    · exact .inr ⟨earlier, hearlier, by
        rw [List.sum_append, List.sum_singleton, add_sub_cancel_right]⟩
  · rintro (⟨taken, hsublist, rfl⟩ | ⟨taken, hsublist, hsum⟩)
    · exact ⟨taken, hsublist.trans (List.sublist_append_left _ _), rfl⟩
    · refine ⟨taken ++ [vector], hsublist.append (List.Sublist.refl _), ?_⟩
      rw [List.sum_append, List.sum_singleton, hsum, sub_add_cancel]

end Combinations

namespace Linearized

/-- A linearized polynomial that vanishes exactly on the combinations of vectors, with its
coefficients: the one at the place of the number of vectors is one and the last. -/
structure VanishesOn (p : Linearized F) (vectors : List F) : Prop where
  constant : p.constant = 0
  normal : p.linear.getLast? ≠ some 0
  leading : p.linear.getD vectors.length 0 = 1
  above : ∀ place > vectors.length, p.linear.getD place 0 = 0
  zero_iff : ∀ a, p.evaluate a = 0 ↔ a ∈ combinations vectors

namespace VanishesOn

variable {p : Linearized F} {vectors : List F}

theorem length_linear (on : p.VanishesOn vectors) : p.linear.length = vectors.length + 1 :=
  length_eq_of_getD on.normal (by rw [on.leading]; exact one_ne_zero) on.above

theorem getLast?_linear (on : p.VanishesOn vectors) : p.linear.getLast? = some 1 := by
  have hlength := on.length_linear
  have hlast := on.leading
  rw [List.getD_eq_getElem _ _ (by omega)] at hlast
  rw [List.getLast?_eq_getElem?, hlength, Nat.add_sub_cancel,
    List.getElem?_eq_getElem (by omega), hlast]

/-- Whatever its constant term, the polynomial is monic. -/
theorem leads_terms_withConstant (on : p.VanishesOn vectors) (constant : F) :
    (p.withConstant constant).terms.Leads (2 ^ vectors.length) 1 :=
  leads_terms on.length_linear on.getLast?_linear one_ne_zero

theorem degree_withConstant (on : p.VanishesOn vectors) (constant : F) :
    (p.withConstant constant).degree = 2 ^ vectors.length := by
  have hlength : (p.withConstant constant).linear.length = vectors.length + 1 := on.length_linear
  simp only [degree, hlength, Nat.one_shiftLeft]

theorem evaluate_eq (on : p.VanishesOn vectors) (a : F) :
    p.evaluate a = evaluateLinear p.linear a := by
  rw [evaluate, on.constant, zero_add]

variable [CharP F 2]

theorem evaluate_add (on : p.VanishesOn vectors) (a b : F) :
    p.evaluate (a + b) = p.evaluate a + p.evaluate b := by
  rw [evaluate_add_point, on.constant, sub_zero]

theorem evaluate_sub_point (on : p.VanishesOn vectors) (a b : F) :
    p.evaluate (a - b) = p.evaluate a - p.evaluate b := by
  rw [CharTwo.sub_eq_add, on.evaluate_add, CharTwo.sub_eq_add]

end VanishesOn

/-- The polynomial `x` vanishes on the zero space. -/
theorem vanishesOn_identity : (identity : Linearized F).VanishesOn [] := by
  have hlinear : (identity : Linearized F).linear = [1] := by
    simp [identity, ofParts, trim]
  refine ⟨rfl, ?_, ?_, ?_, ?_⟩
  · rw [hlinear]
    simp
  · rw [hlinear]
    rfl
  · intro place hplace
    rw [hlinear]
    exact List.getD_eq_default _ _ hplace
  · intro a
    rw [evaluate, hlinear, mem_combinations_nil]
    simp [identity, ofParts, evaluateLinear]

/-- The product of a polynomial with itself, lowered by its value at a further vector, vanishes
on the combinations with that vector. -/
theorem VanishesOn.raise [CharP F 2] {p : Linearized F} {vectors : List F}
    (on : p.VanishesOn vectors) (vector : F) :
    (p.square - p.scale (p.evaluate vector)).VanishesOn (vectors ++ [vector]) := by
  have hlength : (vectors ++ [vector]).length = vectors.length + 1 := List.length_append
  have hcoefficient (place : ℕ) :
      (p.square - p.scale (p.evaluate vector)).linear.getD (place + 1) 0 =
        p.linear.getD place 0 * p.linear.getD place 0 -
          p.linear.getD (place + 1) 0 * p.evaluate vector := by
    rw [getD_linear_sub, getD_linear_square, getD_linear_scale]
  refine ⟨?_, getLast?_trim _, ?_, ?_, ?_⟩
  · change p.constant * p.constant - p.constant * p.evaluate vector = 0
    rw [on.constant, zero_mul, zero_mul, sub_zero]
  · rw [hlength, hcoefficient, on.leading, on.above _ (Nat.lt_succ_self _), mul_one, zero_mul,
      sub_zero]
  · intro place hplace
    rw [hlength] at hplace
    obtain ⟨place, rfl⟩ := Nat.exists_eq_add_one_of_ne_zero (Nat.ne_zero_of_lt hplace)
    rw [hcoefficient, on.above place (by omega), on.above (place + 1) (by omega), zero_mul,
      zero_mul, sub_zero]
  · intro a
    rw [evaluate_sub, evaluate_square, evaluate_scale, ← mul_sub, mul_eq_zero,
      ← on.evaluate_sub_point, on.zero_iff, on.zero_iff, mem_combinations_append]

end Linearized

namespace Tower

omit [LawfulField F] in
theorem raise?_eq_some_iff {tower higher : Tower F} {vector : F} :
    tower.raise? vector = some higher ↔ tower.vanishing.evaluate vector ≠ 0 ∧ higher =
      { floors := ⟨vector, tower.vanishing, tower.vanishing.evaluate vector,
          (tower.vanishing.evaluate vector)⁻¹⟩ :: tower.floors
        vanishing := tower.vanishing.square -
          tower.vanishing.scale (tower.vanishing.evaluate vector) } := by
  rw [raise?, FiniteField.inverse?]
  by_cases hzero : tower.vanishing.evaluate vector = 0
  · simp [hzero]
  · simp [hzero, eq_comm]

/-- The towers that adding vectors one by one leads to, with these vectors. -/
inductive Spans : Tower F → List F → Prop
  | ground : Spans ground []
  | raise {tower higher : Tower F} {basis : List F} {vector : F} (below : Spans tower basis)
      (raised : tower.raise? vector = some higher) : Spans higher (basis ++ [vector])

/-- The polynomials that vanish on the span of the first vectors, from none of them to all. -/
def levels (tower : Tower F) : List (Linearized F) :=
  (tower.floors.map Floor.vanishing).reverse ++ [tower.vanishing]

/-- The images of the vectors with their inverses. -/
def images (tower : Tower F) : List (F × F) :=
  (tower.floors.map fun floor => (floor.image, floor.imageInverse)).reverse

omit [LawfulField F] in
theorem levels_of_raise? {tower higher : Tower F} {vector : F}
    (raised : tower.raise? vector = some higher) :
    higher.levels = tower.levels ++ [higher.vanishing] := by
  obtain ⟨-, rfl⟩ := raise?_eq_some_iff.mp raised
  rw [levels, levels, List.map_cons, List.reverse_cons]

omit [LawfulField F] in
theorem images_of_raise? {tower higher : Tower F} {vector : F}
    (raised : tower.raise? vector = some higher) :
    higher.images = tower.images ++
      [(tower.vanishing.evaluate vector, (tower.vanishing.evaluate vector)⁻¹)] := by
  obtain ⟨-, rfl⟩ := raise?_eq_some_iff.mp raised
  rw [images, images, List.map_cons, List.reverse_cons]

namespace Spans

variable {tower : Tower F} {basis : List F}

omit [LawfulField F] in
theorem length_floors (spans : tower.Spans basis) : tower.floors.length = basis.length := by
  induction spans with
  | ground => rfl
  | raise below raised ih =>
      obtain ⟨-, rfl⟩ := raise?_eq_some_iff.mp raised
      rw [List.length_cons, ih, List.length_append, List.length_singleton]

omit [LawfulField F] in
theorem length_levels (spans : tower.Spans basis) : tower.levels.length = basis.length + 1 := by
  rw [levels, List.length_append, List.length_reverse, List.length_map, spans.length_floors,
    List.length_singleton]

omit [LawfulField F] in
theorem length_images (spans : tower.Spans basis) : tower.images.length = basis.length := by
  rw [images, List.length_reverse, List.length_map, spans.length_floors]

omit [LawfulField F] in
theorem getElem?_levels_length (spans : tower.Spans basis) :
    tower.levels[basis.length]? = some tower.vanishing := by
  rw [levels, List.getElem?_append_right (by
    rw [List.length_reverse, List.length_map, spans.length_floors]), List.length_reverse,
    List.length_map, spans.length_floors, Nat.sub_self]
  rfl

variable [CharP F 2]

/-- Every tower has the polynomial of its vectors on top. -/
theorem vanishesOn (spans : tower.Spans basis) : tower.vanishing.VanishesOn basis := by
  induction spans with
  | ground => exact Linearized.vanishesOn_identity
  | raise below raised ih =>
      obtain ⟨-, rfl⟩ := raise?_eq_some_iff.mp raised
      exact ih.raise _

/-- It is exactly the combinations of its vectors by which a tower cannot be raised. -/
theorem raise?_eq_none_iff (spans : tower.Spans basis) {vector : F} :
    tower.raise? vector = none ↔ vector ∈ combinations basis := by
  rw [← spans.vanishesOn.zero_iff, Option.eq_none_iff_forall_ne_some]
  simp only [ne_eq, raise?_eq_some_iff, not_and]
  constructor
  · intro hnone
    by_contra hne
    exact hnone _ hne rfl
  · intro hzero _ hne
    exact absurd hzero hne

/-- Level `t` has the polynomial of the first `t` vectors. -/
theorem getElem?_levels (spans : tower.Spans basis) {t : ℕ} (inside : t ≤ basis.length) :
    ∃ p, tower.levels[t]? = some p ∧ p.VanishesOn (basis.take t) := by
  induction spans with
  | ground =>
      obtain rfl : t = 0 := Nat.le_zero.mp inside
      exact ⟨.identity, rfl, Linearized.vanishesOn_identity⟩
  | @raise tower higher basis vector below raised ih =>
      have hspans := below.raise raised
      by_cases htop : t = (basis ++ [vector]).length
      · rw [htop, List.take_length]
        exact ⟨higher.vanishing, hspans.getElem?_levels_length, hspans.vanishesOn⟩
      · have hlower : t ≤ basis.length := by
          rw [List.length_append, List.length_singleton] at inside htop
          omega
        obtain ⟨p, hlevel, hvanishes⟩ := ih hlower
        refine ⟨p, ?_, by rwa [List.take_append_of_le_length hlower]⟩
        rw [levels_of_raise? raised, List.getElem?_append_left (by rw [below.length_levels]; omega),
          hlevel]

omit [LawfulField F] [CharP F 2] in
/-- Image `t` is the value of the polynomial of level `t` at the vector that follows. -/
theorem getElem?_images (spans : tower.Spans basis) {t : ℕ} (inside : t < basis.length) :
    ∃ p vector, tower.levels[t]? = some p ∧ basis[t]? = some vector ∧ p.evaluate vector ≠ 0 ∧
      tower.images[t]? = some (p.evaluate vector, (p.evaluate vector)⁻¹) := by
  induction spans with
  | ground => cases inside
  | @raise tower higher basis vector below raised ih =>
      have hlevels := below.length_levels
      rw [levels_of_raise? raised, images_of_raise? raised,
        List.getElem?_append_left (by
          rw [List.length_append, List.length_singleton] at inside
          omega)]
      by_cases htop : t = basis.length
      · subst htop
        obtain ⟨hne, -⟩ := raise?_eq_some_iff.mp raised
        refine ⟨tower.vanishing, vector, below.getElem?_levels_length, ?_, hne, ?_⟩
        · rw [List.getElem?_append_right le_rfl, Nat.sub_self, List.getElem?_cons_zero]
        · rw [← below.length_images, List.getElem?_append_right le_rfl, Nat.sub_self,
            List.getElem?_cons_zero]
      · have hlower : t < basis.length := by
          rw [List.length_append, List.length_singleton] at inside
          omega
        obtain ⟨p, earlier, hlevel, hvector, hne, himage⟩ := ih hlower
        refine ⟨p, earlier, hlevel, ?_, hne, ?_⟩
        · rw [List.getElem?_append_left hlower, hvector]
        · rw [List.getElem?_append_left (by rwa [below.length_images]), himage]

end Spans

section Basis

/-- The vector at a place is a combination of those before it. -/
def DependentAt (basis : List F) (place : ℕ) : Prop :=
  ∃ vector, basis[place]? = some vector ∧ vector ∈ combinations (basis.take place)

/-- The first place of a vector that is a combination of those before it. -/
structure FirstDependent (basis : List F) (place : ℕ) : Prop where
  dependent : DependentAt basis place
  first : ∀ earlier < place, ¬DependentAt basis earlier

/-- No vector is a combination of those before it. -/
def Independent (basis : List F) : Prop :=
  ∀ place, ¬DependentAt basis place

omit [LawfulField F] in
theorem dependentAt_append_iff (basis : List F) (vector : F) (rest : List F) :
    DependentAt (basis ++ vector :: rest) basis.length ↔ vector ∈ combinations basis := by
  rw [DependentAt, List.getElem?_append_right le_rfl, Nat.sub_self, List.getElem?_cons_zero,
    List.take_left]
  constructor
  · rintro ⟨_, hvector, hmem⟩
    rwa [Option.some.inj hvector]
  · intro hmem
    exact ⟨vector, rfl, hmem⟩

/-- Adding the rest of a basis either reaches its end, without a dependent vector, or stops at the
first one. -/
theorem Spans.raiseAll? [CharP F 2] {tower : Tower F} {basis : List F}
    (spans : tower.Spans basis) (rest : List F)
    (independent : ∀ place < basis.length, ¬DependentAt (basis ++ rest) place) :
    (∃ higher, tower.raiseAll? basis.length rest = .ok higher ∧ higher.Spans (basis ++ rest) ∧
        Independent (basis ++ rest)) ∨
      ∃ place, tower.raiseAll? basis.length rest = .error (.dependentBasis place) ∧
        FirstDependent (basis ++ rest) place := by
  induction rest generalizing tower basis with
  | nil =>
      refine .inl ⟨tower, rfl, by rwa [List.append_nil], ?_⟩
      rintro place ⟨vector, hvector, hmem⟩
      rw [List.append_nil] at hvector
      have hplace : place < basis.length := by
        by_contra hle
        rw [List.getElem?_eq_none (not_lt.mp hle)] at hvector
        cases hvector
      exact independent place hplace ⟨vector, by rwa [List.append_nil], hmem⟩
  | cons vector rest ih =>
      rw [Tower.raiseAll?]
      cases hraise : tower.raise? vector with
      | none =>
          have hdependent : DependentAt (basis ++ vector :: rest) basis.length :=
            (dependentAt_append_iff basis vector rest).mpr (spans.raise?_eq_none_iff.mp hraise)
          exact .inr ⟨basis.length, rfl, hdependent, independent⟩
      | some higher =>
          have hnot : ¬DependentAt (basis ++ vector :: rest) basis.length := by
            rw [dependentAt_append_iff, ← spans.raise?_eq_none_iff, hraise]
            exact Option.some_ne_none higher
          have hlength : (basis ++ [vector]).length = basis.length + 1 := List.length_append
          have happend : basis ++ vector :: rest = basis ++ [vector] ++ rest :=
            List.append_cons basis vector rest
          have hnext := ih (spans.raise hraise) (by
            intro place hplace
            rw [← happend]
            rcases Nat.lt_succ_iff_lt_or_eq.mp (hlength ▸ hplace) with hlt | rfl
            · exact independent place hlt
            · exact hnot)
          rwa [hlength, ← happend] at hnext

omit [LawfulField F] in
theorem FirstDependent.unique {basis : List F} {place other : ℕ}
    (first : FirstDependent basis place) (second : FirstDependent basis other) :
    place = other := by
  rcases lt_trichotomy place other with hlt | heq | hgt
  · exact absurd first.dependent (second.first place hlt)
  · exact heq
  · exact absurd second.dependent (first.first other hgt)

/-- Over a field of characteristic two a basis has a tower or a first dependent vector. -/
theorem ofBasis?_of_charTwo [CharP F 2] (basis : List F) :
    (∃ tower, ofBasis? basis = .ok tower ∧ tower.Spans basis ∧ Independent basis) ∨
      ∃ place, ofBasis? basis = .error (.dependentBasis place) ∧ FirstDependent basis place := by
  rw [ofBasis?, if_pos (FiniteField.isBinary_iff.mpr inferInstance)]
  exact Spans.ground.raiseAll? basis fun _ hlt => absurd hlt (Nat.not_lt_zero _)

theorem ofBasis?_of_not_charTwo (odd : ¬CharP F 2) (basis : List F) :
    ofBasis? basis = .error .notBinary := by
  rw [ofBasis?, if_neg (mt FiniteField.isBinary_iff.mp odd)]

end Basis
end Tower

namespace AffineSubspace

open Tower

theorem charTwo (space : AffineSubspace F) : CharP F 2 := by
  by_contra hodd
  have htower := space.isTower
  rw [ofBasis?_of_not_charTwo hodd] at htower
  cases htower

/-- The tower of a subspace spans its basis, which is independent. -/
theorem spans_tower (space : AffineSubspace F) :
    space.tower.Spans space.basis ∧ Independent space.basis := by
  have := space.charTwo
  rcases ofBasis?_of_charTwo space.basis with ⟨tower, htower, hspans⟩ | ⟨place, hplace, -⟩
  · cases htower.symm.trans space.isTower
    exact hspans
  · cases hplace.symm.trans space.isTower

section Construction

variable {basis : List F} {shift : F}

omit [LawfulField F] in
theorem ofBasis?_eq_ok {tower : Tower F} (built : Tower.ofBasis? basis = .ok tower) :
    ofBasis? basis shift = .ok ⟨basis, shift, tower, built⟩ := by
  rw [ofBasis?]
  split
  · next other hother =>
      cases hother.symm.trans built
      rfl
  · next error herror => cases herror.symm.trans built

omit [LawfulField F] in
theorem ofBasis?_eq_error {error : DomainError} (refused : Tower.ofBasis? basis = .error error) :
    ofBasis? basis shift = .error error := by
  rw [ofBasis?]
  split
  · next tower htower => cases htower.symm.trans refused
  · next other hother =>
      cases hother.symm.trans refused
      rfl

/-- Why no subspace is built on a basis. -/
inductive Refused (basis : List F) : DomainError → Prop
  | notBinary (odd : ¬CharP F 2) : Refused basis .notBinary
  | dependentBasis {place : ℕ} (binary : CharP F 2) (first : FirstDependent basis place) :
      Refused basis (.dependentBasis place)

/-- A subspace is built exactly on the independent bases over fields of characteristic two. Every
other basis is refused: first for the characteristic, then for the first vector that is a
combination of those before it. The polynomial of level `t` is monic of degree `2 ^ t`, without a
constant term, and vanishes exactly on the combinations of the first `t` vectors, and next to it
stands its value at the following vector with the inverse. -/
theorem built_iff_independent (basis : List F) (shift : F) :
    ((∃ space, ofBasis? basis shift = .ok space) ↔ CharP F 2 ∧ Independent basis) ∧
      (∀ error, ofBasis? basis shift = .error error ↔ Refused basis error) ∧
      ∀ space, ofBasis? basis shift = .ok space →
        space.basis = basis ∧ space.shift = shift ∧
          space.tower.levels.length = basis.length + 1 ∧
          space.tower.images.length = basis.length ∧
          (∀ t ≤ basis.length, ∃ p, space.tower.levels[t]? = some p ∧
            p.expand.toPolynomial.Monic ∧ p.expand.toPolynomial.natDegree = 2 ^ t ∧
            p.constant = 0 ∧ ∀ a, p.evaluate a = 0 ↔ a ∈ combinations (basis.take t)) ∧
          ∀ t < basis.length, ∃ p vector, space.tower.levels[t]? = some p ∧
            basis[t]? = some vector ∧ p.evaluate vector ≠ 0 ∧
            space.tower.images[t]? = some (p.evaluate vector, (p.evaluate vector)⁻¹) := by
  have hanswers : CharP F 2 ∧ Independent basis → ∃ space, ofBasis? basis shift = .ok space := by
    rintro ⟨_, hindependent⟩
    rcases ofBasis?_of_charTwo basis with ⟨tower, htower, -⟩ | ⟨place, -, hfirst⟩
    · exact ⟨_, ofBasis?_eq_ok htower⟩
    · exact absurd hfirst.dependent (hindependent place)
  have herrors (error : DomainError) (refused : Refused basis error) :
      ofBasis? basis shift = .error error := by
    cases refused with
    | notBinary odd => exact ofBasis?_eq_error (ofBasis?_of_not_charTwo odd basis)
    | @dependentBasis place binary first =>
        rcases ofBasis?_of_charTwo basis with ⟨tower, -, -, hindependent⟩ | ⟨other, hother, hfirst⟩
        · exact absurd first.dependent (hindependent place)
        · rw [first.unique hfirst]
          exact ofBasis?_eq_error hother
  have hdecided : CharP F 2 ∧ Independent basis ∨ ∃ error, Refused basis error := by
    by_cases hbinary : CharP F 2
    · rcases ofBasis?_of_charTwo basis with ⟨tower, -, -, hindependent⟩ | ⟨place, -, hfirst⟩
      · exact .inl ⟨hbinary, hindependent⟩
      · exact .inr ⟨_, .dependentBasis hbinary hfirst⟩
    · exact .inr ⟨_, .notBinary hbinary⟩
  obtain ⟨haccepted, hrefused⟩ := outcome_iff hanswers herrors hdecided
  refine ⟨haccepted, hrefused, fun space hspace => ?_⟩
  have hbasis : space.basis = basis ∧ space.shift = shift := by
    rw [ofBasis?] at hspace
    split at hspace
    · cases hspace
      exact ⟨rfl, rfl⟩
    · cases hspace
  obtain ⟨rfl, rfl⟩ := hbasis
  have := space.charTwo
  obtain ⟨hspans, -⟩ := space.spans_tower
  refine ⟨rfl, rfl, hspans.length_levels, hspans.length_images, fun t hle => ?_, fun t hlt =>
    hspans.getElem?_images hlt⟩
  obtain ⟨p, hlevel, hvanishes⟩ := hspans.getElem?_levels hle
  have hleads : p.terms.Leads (2 ^ t) 1 := by
    have := hvanishes.leads_terms_withConstant p.constant
    rwa [List.length_take_of_le hle] at this
  refine ⟨p, hlevel, ?_, ?_, hvanishes.constant, hvanishes.zero_iff⟩
  · rw [Linearized.toPolynomial_expand hleads]
    exact hleads.monic_toPolynomial
  · rw [Linearized.toPolynomial_expand hleads, hleads.natDegree_toPolynomial]

/-- The third vector is the sum of the first two. -/
theorem refused_at_sum_of_two :
    CharP BinaryField 2 ∧ FirstDependent [⟨2⟩, ⟨3⟩, (⟨1⟩ : BinaryField)] 2 ∧
      ofBasis? [⟨2⟩, ⟨3⟩, ⟨1⟩] (⟨5⟩ : BinaryField) = .error (.dependentBasis 2) := by
  have hbinary : CharP BinaryField 2 := FiniteField.isBinary_iff.mp (by decide)
  have hfirst : FirstDependent [⟨2⟩, ⟨3⟩, (⟨1⟩ : BinaryField)] 2 := by
    refine ⟨⟨_, rfl, [⟨2⟩, ⟨3⟩], List.Sublist.refl _, by decide⟩, fun earlier hearlier => ?_⟩
    obtain rfl | rfl : earlier = 0 ∨ earlier = 1 := by omega
    · refine mt (dependentAt_append_iff [] (⟨2⟩ : BinaryField) [⟨3⟩, ⟨1⟩]).mp ?_
      rw [mem_combinations_nil]
      decide
    · refine mt (dependentAt_append_iff [(⟨2⟩ : BinaryField)] ⟨3⟩ [⟨1⟩]).mp ?_
      rw [← List.nil_append [_], mem_combinations_append, mem_combinations_nil,
        mem_combinations_nil]
      decide
  obtain ⟨-, hrefused, -⟩ := built_iff_independent [⟨2⟩, ⟨3⟩, ⟨1⟩] (⟨5⟩ : BinaryField)
  exact ⟨hbinary, hfirst, (hrefused _).mpr (.dependentBasis hbinary hfirst)⟩

end Construction
end AffineSubspace
end OracleProofs
