import HintScript.Field
import Mathlib

/-! The tower consists of fields.

`CM31` and `QM31` are set against quadratic extensions, one of the residues modulo 2^31 - 1 and one
on top of it. These are fields for three reasons: the modulus is prime, -1 is no square modulo it,
and 1 + 2i is no square in `CM31`, since its norm 5 is none modulo it.
-/

set_option autoImplicit false

namespace HintScript

/-- The laws of a field, for operations as they are given. -/
structure FieldLaws (K : Type) [Zero K] [One K] [Add K] [Sub K] [Neg K] [Mul K] : Prop where
  add_assoc (x y z : K) : x + y + z = x + (y + z)
  add_comm (x y : K) : x + y = y + x
  add_zero (x : K) : x + 0 = x
  add_neg (x : K) : x + -x = 0
  sub_eq (x y : K) : x - y = x + -y
  mul_assoc (x y z : K) : x * y * z = x * (y * z)
  mul_comm (x y : K) : x * y = y * x
  mul_one (x : K) : x * 1 = x
  mul_add (x y z : K) : x * (y + z) = x * y + x * z
  zero_ne_one : (0 : K) ≠ 1
  eq_zero_or (x y : K) : x * y = 0 → x = 0 ∨ y = 0
  exists_inverse (x : K) : x ≠ 0 → ∃ y, x * y = 1

section

variable {K F : Type} [Zero K] [One K] [Add K] [Sub K] [Neg K] [Mul K] [Field F]

/-- Elements stand for those of a field, one for one, and the operations for its operations. -/
structure Represents (f : K → F) : Prop where
  bijective : f.Bijective
  zero : f 0 = 0
  one : f 1 = 1
  add (x y : K) : f (x + y) = f x + f y
  sub (x y : K) : f (x - y) = f x - f y
  neg (x : K) : f (-x) = -f x
  mul (x y : K) : f (x * y) = f x * f y

theorem Represents.laws {f : K → F} (h : Represents f) : FieldLaws K where
  add_assoc x y z := h.bijective.1 (by simp only [h.add]; ring)
  add_comm x y := h.bijective.1 (by simp only [h.add]; ring)
  add_zero x := h.bijective.1 (by simp only [h.add, h.zero]; ring)
  add_neg x := h.bijective.1 (by simp only [h.add, h.neg, h.zero]; ring)
  sub_eq x y := h.bijective.1 (by simp only [h.sub, h.add, h.neg]; ring)
  mul_assoc x y z := h.bijective.1 (by simp only [h.mul]; ring)
  mul_comm x y := h.bijective.1 (by simp only [h.mul]; ring)
  mul_one x := h.bijective.1 (by simp only [h.mul, h.one]; ring)
  mul_add x y z := h.bijective.1 (by simp only [h.mul, h.add]; ring)
  zero_ne_one he := by
    have hf := congrArg f he
    rw [h.zero, h.one] at hf
    exact zero_ne_one hf
  eq_zero_or x y he := by
    have hf := congrArg f he
    rw [h.mul, h.zero, mul_eq_zero, ← h.zero] at hf
    exact hf.imp (h.bijective.1 ·) (h.bijective.1 ·)
  exists_inverse x hx := by
    obtain ⟨y, hy⟩ := h.bijective.2 (f x)⁻¹
    have hne : f x ≠ 0 := fun he => hx (h.bijective.1 (he.trans h.zero.symm))
    refine ⟨y, h.bijective.1 ?_⟩
    rw [h.mul, hy, h.one, mul_inv_cancel₀ hne]

end

theorem modulus_prime : modulus.Prime := by
  have h : (mersenne 31).Prime := lucas_lehmer_sufficiency 31 (by decide) (by norm_num)
  exact h

instance : Fact modulus.Prime := ⟨modulus_prime⟩

theorem modulus_neZero : NeZero modulus := ⟨modulus_prime.ne_zero⟩

theorem not_isSquare_neg_one : ¬ IsSquare (-1 : ZMod modulus) := by
  rw [ZMod.exists_sq_eq_neg_one_iff]
  decide

theorem not_isSquare_five : ¬ IsSquare (5 : ZMod modulus) := by
  -- by reciprocity, since the modulus is 2 modulo 5, and 2 is no square there
  have htwo : ¬ IsSquare (modulus : ZMod 5) := by decide
  have hprime : Fact (Nat.Prime 5) := ⟨by decide⟩
  have hiff := ZMod.exists_sq_eq_prime_iff_of_mod_four_eq_one (p := 5) (q := modulus) (by decide)
    (by decide)
  exact mt hiff.mpr htwo

namespace M31

def residue : M31 → ZMod modulus := @ZMod.finEquiv modulus modulus_neZero

theorem represents : Represents residue where
  bijective := (ZMod.finEquiv modulus).bijective
  zero := map_zero (ZMod.finEquiv modulus)
  one := map_one (ZMod.finEquiv modulus)
  add := map_add (ZMod.finEquiv modulus)
  sub := map_sub (ZMod.finEquiv modulus)
  neg := map_neg (ZMod.finEquiv modulus)
  mul := map_mul (ZMod.finEquiv modulus)

theorem val_ofInt (v : Int) : ((ofInt v).val : Int) = v % modulus := by
  have h0 := Int.emod_nonneg v (by decide : (modulus : Int) ≠ 0)
  exact Int.toNat_of_nonneg h0

theorem val_bounds (x : M31) : (0 : Int) ≤ x.val ∧ (x.val : Int) < 2 ^ 31 - 1 := by
  have hlt : x.val < 2147483647 := x.isLt
  omega

end M31

namespace CM31

abbrev Extension : Type := QuadraticAlgebra (ZMod modulus) (-1) 0

instance : Fact (∀ r : ZMod modulus, r ^ 2 ≠ -1 + 0 * r) where
  out r h := not_isSquare_neg_one ⟨r, by linear_combination -h⟩

def extension (x : CM31) : Extension := ⟨x.a.residue, x.b.residue⟩

theorem represents : Represents extension where
  bijective := by
    constructor
    · intro x y h
      rw [extension, extension, QuadraticAlgebra.mk.injEq] at h
      exact CM31.ext (M31.represents.bijective.1 h.1) (M31.represents.bijective.1 h.2)
    · intro z
      obtain ⟨a, ha⟩ := M31.represents.bijective.2 z.re
      obtain ⟨b, hb⟩ := M31.represents.bijective.2 z.im
      exact ⟨⟨a, b⟩, QuadraticAlgebra.ext ha hb⟩
  zero := QuadraticAlgebra.ext M31.represents.zero M31.represents.zero
  one := QuadraticAlgebra.ext M31.represents.one M31.represents.zero
  add x y := QuadraticAlgebra.ext (M31.represents.add _ _) (M31.represents.add _ _)
  sub x y := QuadraticAlgebra.ext (M31.represents.sub _ _) (M31.represents.sub _ _)
  neg x := QuadraticAlgebra.ext (M31.represents.neg _) (M31.represents.neg _)
  mul x y := by
    refine QuadraticAlgebra.ext ?_ ?_
    · change (x.a * y.a - x.b * y.b).residue = _
      rw [M31.represents.sub, M31.represents.mul, M31.represents.mul, QuadraticAlgebra.re_mul]
      simp only [extension]
      ring
    · change (x.a * y.b + x.b * y.a).residue = _
      rw [M31.represents.add, M31.represents.mul, M31.represents.mul, QuadraticAlgebra.im_mul]
      simp only [extension]
      ring

theorem components_ofInts (a b : Int) :
    (ofInts a b).components = [a % modulus, b % modulus] := by
  rw [components, ofInts, M31.val_ofInt, M31.val_ofInt]

theorem components_bounds (x : CM31) : ∀ v ∈ x.components, 0 ≤ v ∧ v < 2 ^ 31 - 1 := by
  intro v hv
  simp only [components, List.mem_cons, List.not_mem_nil, or_false] at hv
  rcases hv with rfl | rfl
  · exact x.a.val_bounds
  · exact x.b.val_bounds

end CM31

namespace QM31

abbrev Extension : Type := QuadraticAlgebra CM31.Extension ⟨1, 2⟩ 0

instance : Fact (∀ r : CM31.Extension, r ^ 2 ≠ ⟨1, 2⟩ + 0 * r) where
  out r h := by
    have hfive : QuadraticAlgebra.norm (⟨1, 2⟩ : CM31.Extension) = 5 := by
      rw [QuadraticAlgebra.norm_def]
      norm_num
    have hnorm := congrArg QuadraticAlgebra.norm h
    rw [zero_mul, add_zero, map_pow, hfive, pow_two] at hnorm
    exact not_isSquare_five ⟨r.norm, hnorm.symm⟩

def extension (x : QM31) : Extension := ⟨x.c0.extension, x.c1.extension⟩

theorem represents : Represents extension where
  bijective := by
    constructor
    · intro x y h
      rw [extension, extension, QuadraticAlgebra.mk.injEq] at h
      exact QM31.ext (CM31.represents.bijective.1 h.1) (CM31.represents.bijective.1 h.2)
    · intro z
      obtain ⟨c0, h0⟩ := CM31.represents.bijective.2 z.re
      obtain ⟨c1, h1⟩ := CM31.represents.bijective.2 z.im
      exact ⟨⟨c0, c1⟩, QuadraticAlgebra.ext h0 h1⟩
  zero := QuadraticAlgebra.ext CM31.represents.zero CM31.represents.zero
  one := QuadraticAlgebra.ext CM31.represents.one CM31.represents.zero
  add x y := QuadraticAlgebra.ext (CM31.represents.add _ _) (CM31.represents.add _ _)
  sub x y := QuadraticAlgebra.ext (CM31.represents.sub _ _) (CM31.represents.sub _ _)
  neg x := QuadraticAlgebra.ext (CM31.represents.neg _) (CM31.represents.neg _)
  mul x y := by
    have hu : uSquare.extension = ⟨1, 2⟩ := rfl
    refine QuadraticAlgebra.ext ?_ ?_
    · change (x.c0 * y.c0 + uSquare * x.c1 * y.c1).extension = _
      rw [CM31.represents.add, CM31.represents.mul, CM31.represents.mul, CM31.represents.mul, hu,
        QuadraticAlgebra.re_mul]
      rfl
    · change (x.c0 * y.c1 + x.c1 * y.c0).extension = _
      rw [CM31.represents.add, CM31.represents.mul, CM31.represents.mul, QuadraticAlgebra.im_mul]
      simp only [extension]
      ring

theorem components_ofInts (a b c d : Int) :
    (ofInts a b c d).components = [a % modulus, b % modulus, c % modulus, d % modulus] := by
  rw [components, ofInts, CM31.components_ofInts, CM31.components_ofInts]
  rfl

theorem components_ofInts_of_bounds {a b c d : Int}
    (h : ∀ v ∈ [a, b, c, d], 0 ≤ v ∧ v < 2 ^ 31 - 1) :
    (ofInts a b c d).components = [a, b, c, d] := by
  have hmod (v : Int) (hv : v ∈ [a, b, c, d]) : v % modulus = v :=
    Int.emod_eq_of_lt (h v hv).1 (h v hv).2
  rw [components_ofInts, hmod a (by simp), hmod b (by simp), hmod c (by simp), hmod d (by simp)]

theorem components_bounds (x : QM31) : ∀ v ∈ x.components, 0 ≤ v ∧ v < 2 ^ 31 - 1 := by
  intro v hv
  rcases List.mem_append.mp hv with hv | hv
  · exact x.c0.components_bounds v hv
  · exact x.c1.components_bounds v hv

end QM31

/-- Elements of both extensions are built from integers by reducing these, and have reduced
components. The operations obey the laws of a field: in particular no product of nonzero elements is
zero, and every nonzero element has an inverse. The square of i is -1, and that of u is 1 + 2i. -/
theorem tower_laws :
    (∀ a b : Int, (CM31.ofInts a b).components = [a % modulus, b % modulus]) ∧
    (∀ a b c d : Int, QM31.ofList [a, b, c, d] = .ok (QM31.ofInts a b c d) ∧
      (QM31.ofInts a b c d).components = [a % modulus, b % modulus, c % modulus, d % modulus]) ∧
    (∀ x : CM31, ∀ v ∈ x.components, 0 ≤ v ∧ v ≤ modulus - 1) ∧
    (∀ x : QM31, ∀ v ∈ x.components, 0 ≤ v ∧ v ≤ modulus - 1) ∧
    FieldLaws CM31 ∧ FieldLaws QM31 ∧
    CM31.ofInts 0 1 * CM31.ofInts 0 1 = -1 ∧
    QM31.ofInts 0 0 1 0 * QM31.ofInts 0 0 1 0 = QM31.ofInts 1 2 0 0 := by
  refine ⟨CM31.components_ofInts, fun a b c d => ⟨rfl, QM31.components_ofInts a b c d⟩, ?_, ?_,
    CM31.represents.laws, QM31.represents.laws, by decide, by decide⟩
  · intro x v hv
    have hb := x.components_bounds v hv
    exact ⟨hb.1, Int.le_sub_one_of_lt hb.2⟩
  · intro x v hv
    have hb := x.components_bounds v hv
    exact ⟨hb.1, Int.le_sub_one_of_lt hb.2⟩

end HintScript
