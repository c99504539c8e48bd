import Mathlib.LinearAlgebra.Lagrange

/-! Shares of a secret as values of a polynomial, and what recovers the secret from them. The values
may stand in the exponent: they are elements of a module, and only the weights are scalars. -/
namespace JobPortal.SecretSharing

open Polynomial

variable {F E ι : Type*} [Field F] [AddCommGroup E] [Module F E] [DecidableEq ι]

/-- The weight of a share in the value at 0. -/
def weight (s : Finset ι) (x : ι → F) (i : ι) : F := ∏ j ∈ s.erase i, x j / (x j - x i)

/-- Lagrange interpolation at 0. -/
def recover (s : Finset ι) (x : ι → F) (v : ι → E) : E := ∑ i ∈ s, weight s x i • v i

theorem weight_eq_eval_basis (s : Finset ι) (x : ι → F) (i : ι) :
    weight s x i = (Lagrange.basis s x i).eval 0 := by
  rw [weight, Lagrange.basis, eval_prod]
  apply Finset.prod_congr rfl
  intro j _
  rw [Lagrange.basisDivisor, eval_mul, eval_C, eval_sub, eval_X, eval_C, zero_sub,
    ← neg_sub (x i), div_neg, mul_neg, inv_mul_eq_div]

/-- The weights turn the values of a polynomial of low degree into its value at 0. -/
theorem sum_weight_mul_eval {s : Finset ι} {x : ι → F} {f : F[X]} (hx : Set.InjOn x s)
    (hf : f.degree < s.card) : ∑ i ∈ s, weight s x i * f.eval (x i) = f.eval 0 := by
  have heval := congrArg (eval 0) (Lagrange.eq_interpolate hx hf)
  rw [Lagrange.interpolate_apply, eval_finsetSum] at heval
  rw [heval]
  apply Finset.sum_congr rfl
  intro i _
  rw [eval_mul, eval_C, weight_eq_eval_basis, mul_comm]

theorem recover_add (s : Finset ι) (x : ι → F) (v w : ι → E) :
    recover s x (v + w) = recover s x v + recover s x w := by
  simp only [recover, Pi.add_apply, smul_add, Finset.sum_add_distrib]

theorem recover_congr {s : Finset ι} {x : ι → F} {v w : ι → E} (h : ∀ i ∈ s, v i = w i) :
    recover s x v = recover s x w :=
  Finset.sum_congr rfl fun i hi => by rw [h i hi]

/-- The secret in the exponent of `p` is recovered from enough shares in it. -/
theorem recover_smul {s : Finset ι} {x : ι → F} {f : F[X]} (hx : Set.InjOn x s)
    (hf : f.degree < s.card) (p : E) :
    recover s x (fun i => f.eval (x i) • p) = f.eval 0 • p := by
  rw [← sum_weight_mul_eval hx hf, Finset.sum_smul]
  apply Finset.sum_congr rfl
  intro i _
  rw [mul_smul]

end JobPortal.SecretSharing
