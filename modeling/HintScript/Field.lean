import HintScript.Error

/-! The field with 2^31 - 1 elements and its tower.

`CM31` adjoins i with i² = -1, and `QM31` adjoins u with u² = 1 + 2i. Components are kept reduced,
so equal elements have equal components.
-/

set_option autoImplicit false

namespace HintScript

abbrev modulus : Nat := 2147483647

abbrev M31 := Fin modulus

def M31.ofInt (v : Int) : M31 :=
  ⟨(v % modulus).toNat, by
    have := Int.emod_lt_of_pos v (by decide : (0 : Int) < modulus)
    have := Int.emod_nonneg v (by decide : (modulus : Int) ≠ 0)
    omega⟩

@[ext] structure CM31 where
  a : M31
  b : M31
  deriving DecidableEq, Repr

namespace CM31

def ofInts (a b : Int) : CM31 := ⟨M31.ofInt a, M31.ofInt b⟩

instance : Zero CM31 := ⟨⟨0, 0⟩⟩

instance : One CM31 := ⟨⟨1, 0⟩⟩

instance : Add CM31 := ⟨fun x y => ⟨x.a + y.a, x.b + y.b⟩⟩

instance : Sub CM31 := ⟨fun x y => ⟨x.a - y.a, x.b - y.b⟩⟩

instance : Neg CM31 := ⟨fun x => ⟨-x.a, -x.b⟩⟩

instance : Mul CM31 := ⟨fun x y => ⟨x.a * y.a - x.b * y.b, x.a * y.b + x.b * y.a⟩⟩

def components (x : CM31) : List Int := [x.a.val, x.b.val]

def text (x : CM31) : String := s!"CM31(a={x.a.val}, b={x.b.val})"

end CM31

@[ext] structure QM31 where
  c0 : CM31
  c1 : CM31
  deriving DecidableEq, Repr

namespace QM31

def uSquare : CM31 := ⟨1, 2⟩

def ofInts (a b c d : Int) : QM31 := ⟨CM31.ofInts a b, CM31.ofInts c d⟩

def ofList : List Int → Except Error QM31
  | [a, b, c, d] => .ok (ofInts a b c d)
  | values => .error (.invalid (.quarticComponents values.length))

instance : Zero QM31 := ⟨⟨0, 0⟩⟩

instance : One QM31 := ⟨⟨1, 0⟩⟩

instance : Add QM31 := ⟨fun x y => ⟨x.c0 + y.c0, x.c1 + y.c1⟩⟩

instance : Sub QM31 := ⟨fun x y => ⟨x.c0 - y.c0, x.c1 - y.c1⟩⟩

instance : Neg QM31 := ⟨fun x => ⟨-x.c0, -x.c1⟩⟩

instance : Mul QM31 :=
  ⟨fun x y => ⟨x.c0 * y.c0 + uSquare * x.c1 * y.c1, x.c0 * y.c1 + x.c1 * y.c0⟩⟩

def components (x : QM31) : List Int := x.c0.components ++ x.c1.components

def text (x : QM31) : String :=
  s!"QM31({x.c0.a.val}, {x.c0.b.val}, {x.c1.a.val}, {x.c1.b.val})"

end QM31

end HintScript
