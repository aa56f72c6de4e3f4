import Mathlib.RingTheory.AdjoinRoot
import Mathlib.Tactic

/-!
# Polynomials modulo `X ^ n + 1`

The quotient ring `R[X] / (X ^ n + 1)` and its coefficients: an element is given by `n` of them
(`coeffs`), linearly, and products are negacyclic convolutions (`ofCoeffs_mul`).
-/

set_option autoImplicit false
set_option relaxedAutoImplicit false

namespace Library.Negacyclic

open Polynomial

section Ring

variable (R : Type*) [CommRing R] (n : ℕ)

/-- `R[X] / (X ^ n + 1)`. -/
abbrev NegacyclicRing := AdjoinRoot (X ^ n + 1 : R[X])

theorem natDegree_modulus [Nontrivial R] : (X ^ n + 1 : R[X]).natDegree = n :=
  natDegree_X_pow_add_C

theorem modulus_monic [NeZero n] : (X ^ n + 1 : R[X]).Monic :=
  monic_X_pow_add_C 1 (NeZero.ne n)

variable [NeZero n] [Nontrivial R]

/-- The coefficients of an element, lowest first. -/
noncomputable def coeffs : NegacyclicRing R n ≃ₗ[R] (Fin n → R) :=
  ((AdjoinRoot.powerBasis' (modulus_monic R n)).basis.reindex
    (finCongr (natDegree_modulus R n))).equivFun

/-- The element with the given coefficients. -/
noncomputable def ofCoeffs : (Fin n → R) ≃ₗ[R] NegacyclicRing R n := (coeffs R n).symm

variable {R n}

/-- Coefficient `i`, and zero behind the last. -/
noncomputable def coeffAt (r : NegacyclicRing R n) (i : ℕ) : R :=
  if hi : i < n then coeffs R n r ⟨i, hi⟩ else 0

variable (n)

/-- The element whose coefficients are multiples of the first elements of a sequence. -/
noncomputable def ofSequence (c : R) (f : ℕ → R) : NegacyclicRing R n :=
  c • ofCoeffs R n fun k ↦ f k.val

end Ring

section Product

variable {R : Type*} [CommRing R] {n : ℕ}

/-- Behind `X ^ (n - 1)` the powers start again with the other sign. -/
theorem root_pow_add (k : ℕ) :
    AdjoinRoot.root (X ^ n + 1 : R[X]) ^ (n + k) = -AdjoinRoot.root (X ^ n + 1 : R[X]) ^ k := by
  have hroot : AdjoinRoot.root (X ^ n + 1 : R[X]) ^ n + 1 = 0 := by
    have heval := AdjoinRoot.eval₂_root (X ^ n + 1 : R[X])
    rwa [eval₂_add, eval₂_X_pow, eval₂_one] at heval
  rw [pow_add, eq_neg_of_add_eq_zero_left hroot, neg_one_mul]

/-- The negacyclic convolution. -/
def convolution (a b : Fin n → R) (k : Fin n) : R :=
  ∑ i : Fin n, ∑ j : Fin n,
    if (i.val + j.val) % n = k.val then
      if i.val + j.val < n then a i * b j else -(a i * b j)
    else 0

variable [NeZero n] [Nontrivial R]

@[simp] theorem coeffs_ofCoeffs (a : Fin n → R) : coeffs R n (ofCoeffs R n a) = a :=
  (coeffs R n).apply_symm_apply a

theorem ofCoeffs_eq_sum (a : Fin n → R) :
    ofCoeffs R n a = ∑ i, a i • AdjoinRoot.root (X ^ n + 1 : R[X]) ^ i.val := by
  rw [ofCoeffs, coeffs, Module.Basis.equivFun_symm_apply]
  refine Finset.sum_congr rfl fun i _ ↦ ?_
  rw [Module.Basis.reindex_apply, PowerBasis.basis_eq_pow]
  rfl

omit [Nontrivial R] in
/-- One product of coefficients, at its place and with its sign. -/
theorem sum_place_smul (i j : Fin n) (c : R) :
    (∑ k : Fin n, (if (i.val + j.val) % n = k.val then if i.val + j.val < n then c else -c else 0) •
      AdjoinRoot.root (X ^ n + 1 : R[X]) ^ k.val) =
      c • AdjoinRoot.root (X ^ n + 1 : R[X]) ^ (i.val + j.val) := by
  let place : Fin n := ⟨(i.val + j.val) % n, Nat.mod_lt _ (NeZero.pos n)⟩
  rw [Finset.sum_eq_single place]
  · rw [if_pos rfl]
    split_ifs with hsmall
    · exact congrArg (c • AdjoinRoot.root (X ^ n + 1 : R[X]) ^ ·) (Nat.mod_eq_of_lt hsmall)
    · have hwrap : i.val + j.val = n + (i.val + j.val) % n := by
        rw [Nat.mod_eq_sub_mod (not_lt.mp hsmall), Nat.mod_eq_of_lt (by omega)]
        omega
      rw [neg_smul, hwrap, root_pow_add, smul_neg]
  · intro k _ hk
    rw [if_neg (fun h ↦ hk (Fin.ext h.symm)), zero_smul]
  · intro hplace
    exact absurd (Finset.mem_univ place) hplace

/-- The product has the negacyclic convolution of the coefficients. -/
theorem ofCoeffs_mul (a b : Fin n → R) :
    ofCoeffs R n (convolution a b) = ofCoeffs R n a * ofCoeffs R n b := by
  let x := AdjoinRoot.root (X ^ n + 1 : R[X])
  calc ofCoeffs R n (convolution a b)
      = ∑ k : Fin n, ∑ i : Fin n, ∑ j : Fin n,
          (if (i.val + j.val) % n = k.val then
            if i.val + j.val < n then a i * b j else -(a i * b j) else 0) • x ^ k.val := by
        simp only [ofCoeffs_eq_sum, convolution, Finset.sum_smul, x]
    _ = ∑ i : Fin n, ∑ j : Fin n, (a i * b j) • x ^ (i.val + j.val) := by
        rw [Finset.sum_comm]
        refine Finset.sum_congr rfl fun i _ ↦ ?_
        rw [Finset.sum_comm]
        exact Finset.sum_congr rfl fun j _ ↦ sum_place_smul i j (a i * b j)
    _ = ofCoeffs R n a * ofCoeffs R n b := by
        simp only [ofCoeffs_eq_sum, Finset.sum_mul_sum, smul_mul_smul_comm, pow_add, x]

end Product

end Library.Negacyclic
