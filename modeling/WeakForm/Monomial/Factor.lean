import WeakForm.Expr.Basic

/-!
# Factors of monomials

A factor is an argument or a coefficient with the components it is indexed by,
its derivative directions and its restriction.
-/

namespace WeakForm

/-- A function with components, derivative directions and restriction. -/
structure Factor (R : Type) where
  function : Expr R
  components : List Index := []
  derivatives : List Index := []
  restriction : Option Side := none
  deriving DecidableEq

namespace Factor

variable {R : Type}

/-- The places of a function's indices, components before derivatives. -/
def indices (f : Factor R) : List Index :=
  f.components ++ f.derivatives

end Factor

end WeakForm
