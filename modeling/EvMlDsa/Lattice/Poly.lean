import EvMlDsa.Lattice.InverseNtt

/-!
# Arithmetic on polynomials and vectors

The coefficientwise functions of `poly.c` and `polyvec.c`. Every one of them acts on what its
operands represent and moves their bounds in a known way, so a chain of calls is followed by
composing these rules (`Represents.add`, `Represents.pointwise`, `represents_acc`). A product of
transformed polynomials is transformed back to their product in the ring
(`invnttTomont_pointwise_ntt`), and so is a row of a matrix product (`represents_rowProduct`).
-/

set_option autoImplicit false
set_option relaxedAutoImplicit false

namespace EvMlDsa

open Library.FixedArray Library.Negacyclic

/-! ### The functions -/

/-- A polynomial without coefficients. -/
abbrev zeroPoly : Poly := Vector.replicate 256 0

/-- `poly_reduce`. -/
def polyReduce (a : Poly) : Poly := a.map reduce32

/-- `poly_caddq`. -/
def polyCaddq (a : Poly) : Poly := a.map caddq

/-- `poly_add`. -/
def polyAdd (a b : Poly) : Poly := Vector.zipWith (· + ·) a b

/-- `poly_sub`. -/
def polySub (a b : Poly) : Poly := Vector.zipWith (· - ·) a b

/-- `poly_shiftl`. -/
def polyShiftl (a : Poly) : Poly := a.map fun x ↦ x <<< (13 : Int32)

/-- `poly_pointwise_montgomery`. -/
def polyPointwiseMontgomery (a b : Poly) : Poly :=
  Vector.zipWith (fun x y ↦ montgomeryReduce (x.toInt64 * y.toInt64)) a b

/-- `poly_chknorm`: whether the check fails. -/
def polyChknorm (a : Poly) (bound : Int32) : Bool :=
  if bound > (dilithiumQ - 1) / 8 then true
  else a.toList.any fun x ↦
    let t := x >>> 31
    let t := x - (t &&& 2 * x)
    t ≥ bound

section Vectors

variable {count : ℕ}

/-- `polyvecl_ntt` and `polyveck_ntt`. -/
def polyvecNtt (v : Vector Poly count) : Vector Poly count := v.map ntt

/-- `polyvecl_invntt_tomont` and `polyveck_invntt_tomont`. -/
def polyvecInvnttTomont (v : Vector Poly count) : Vector Poly count := v.map invnttTomont

/-- `polyvecl_reduce` and `polyveck_reduce`. -/
def polyvecReduce (v : Vector Poly count) : Vector Poly count := v.map polyReduce

/-- `polyvecl_add` and `polyveck_add`. -/
def polyvecAdd (u v : Vector Poly count) : Vector Poly count := Vector.zipWith polyAdd u v

/-- `polyveck_sub`. -/
def polyvecSub (u v : Vector Poly count) : Vector Poly count := Vector.zipWith polySub u v

/-- `polyveck_shiftl`. -/
def polyvecShiftl (v : Vector Poly count) : Vector Poly count := v.map polyShiftl

/-- `polyvecl_pointwise_poly_montgomery` and `polyveck_pointwise_poly_montgomery`. -/
def polyvecPointwisePolyMontgomery (a : Poly) (v : Vector Poly count) : Vector Poly count :=
  v.map (polyPointwiseMontgomery a)

/-- `polyvecl_chknorm` and `polyveck_chknorm`. -/
def polyvecChknorm (v : Vector Poly count) (bound : Int32) : Bool :=
  v.toList.any fun a ↦ polyChknorm a bound

/-- `polyvecl_pointwise_acc_montgomery`. -/
def polyveclPointwiseAccMontgomery (u v : Vector Poly count) : Poly :=
  let product i := polyPointwiseMontgomery (u.getD i zeroPoly) (v.getD i zeroPoly)
  (List.range (count - 1)).foldl (fun w i ↦ polyAdd w (product (i + 1))) (product 0)

/-- `polyvec_matrix_pointwise_montgomery`. -/
def polyvecMatrixPointwiseMontgomery {rows : ℕ} (mat : Vector (Vector Poly count) rows)
    (v : Vector Poly count) : Vector Poly rows :=
  mat.map fun row ↦ polyveclPointwiseAccMontgomery row v

end Vectors

/-! ### Rules -/

theorem getD_zipWith_poly (a b : Poly) (g : Int32 → Int32 → Int32) {i : ℕ} (hi : i < 256) :
    (Vector.zipWith g a b).getD i 0 = g (a.getD i 0) (b.getD i 0) := by
  rw [getD_eq_getElem _ _ hi, getD_eq_getElem _ _ hi, getD_eq_getElem _ _ hi,
    Vector.getElem_zipWith]

namespace Represents

variable {bound bound' : ℤ} {a b : Poly} {f g : ℕ → ZMod modulusQ}

theorem mono (ha : Represents bound a f) (hle : bound ≤ bound') : Represents bound' a f :=
  ⟨fun i hi ↦ (ha.range i hi).trans hle, ha.cast⟩

/-- `poly_add` adds, if the sums fit. -/
theorem add (ha : Represents bound a f) (hb : Represents bound' b g)
    (hfits : bound + bound' < 2 ^ 31) :
    Represents (bound + bound') (polyAdd a b) fun i ↦ f i + g i := by
  have hcell (i : ℕ) (hi : i < 256) : ((polyAdd a b).getD i 0).toInt =
      (a.getD i 0).toInt + (b.getD i 0).toInt := by
    have hra := abs_le.mp (ha.range i hi)
    have hrb := abs_le.mp (hb.range i hi)
    rw [polyAdd, getD_zipWith_poly _ _ _ hi]
    exact toInt_add_of_fits (by omega) (by omega)
  constructor
  · intro i hi
    rw [hcell i hi]
    exact (abs_add_le _ _).trans (add_le_add (ha.range i hi) (hb.range i hi))
  · intro i hi
    rw [hcell i hi, Int.cast_add, ha.cast i hi, hb.cast i hi]

/-- `poly_sub` subtracts, if the differences fit. -/
theorem sub (ha : Represents bound a f) (hb : Represents bound' b g)
    (hfits : bound + bound' < 2 ^ 31) :
    Represents (bound + bound') (polySub a b) fun i ↦ f i - g i := by
  have hcell (i : ℕ) (hi : i < 256) : ((polySub a b).getD i 0).toInt =
      (a.getD i 0).toInt - (b.getD i 0).toInt := by
    have hra := abs_le.mp (ha.range i hi)
    have hrb := abs_le.mp (hb.range i hi)
    rw [polySub, getD_zipWith_poly _ _ _ hi]
    exact toInt_sub_of_fits (by omega) (by omega)
  constructor
  · intro i hi
    rw [hcell i hi]
    exact (abs_sub _ _).trans (add_le_add (ha.range i hi) (hb.range i hi))
  · intro i hi
    rw [hcell i hi, Int.cast_sub, ha.cast i hi, hb.cast i hi]

/-- `poly_reduce` keeps what a polynomial represents. -/
theorem reduce (ha : Represents bound a f) (hbound : bound ≤ 2 ^ 31 - 2 ^ 22 - 1) :
    Represents (modulusQ - 1) (polyReduce a) f := by
  constructor
  · intro i hi
    have hra := abs_le.mp (ha.range i hi)
    obtain ⟨hlo, hhi, -⟩ := reduce32_range (a := a.getD i 0) (by omega)
    rw [polyReduce, getD_map_poly _ _ hi, abs_le, cast_modulusQ]
    omega
  · intro i hi
    have hra := abs_le.mp (ha.range i hi)
    rw [polyReduce, getD_map_poly _ _ hi, cast_reduce32 (by omega), ha.cast i hi]

/-- `poly_caddq` gives standard representatives. -/
theorem caddq (ha : Represents (modulusQ - 1) a f) :
    Represents (modulusQ - 1) (polyCaddq a) f ∧ (polyCaddq a).CoeffsIn 0 (modulusQ - 1) := by
  have hcell (i : ℕ) (hi : i < 256) :
      (0 ≤ ((polyCaddq a).getD i 0).toInt ∧ ((polyCaddq a).getD i 0).toInt ≤ modulusQ - 1) ∧
        (((polyCaddq a).getD i 0).toInt : ZMod modulusQ) = f i := by
    have hra := abs_le.mp (ha.range i hi)
    rw [cast_modulusQ] at hra
    rw [polyCaddq, getD_map_poly _ _ hi]
    obtain ⟨-, hcast⟩ := caddq_of_range (a := a.getD i 0) (by omega) (by omega)
    rw [hcast, ha.cast i hi, caddq_eq, cast_modulusQ]
    refine ⟨?_, rfl⟩
    split_ifs with hneg
    · rw [toInt_add_of_fits, toInt_dilithiumQ, cast_modulusQ] <;>
        (try rw [toInt_dilithiumQ, cast_modulusQ]) <;> omega
    · omega
  refine ⟨⟨?_, ?_⟩, ?_⟩
  · intro i hi
    rw [abs_le]
    have hrange := (hcell i hi).1
    omega
  · intro i hi
    exact (hcell i hi).2
  · intro i hi
    rw [← getD_eq_getElem _ 0 hi]
    exact (hcell i hi).1

/-- `poly_pointwise_montgomery` multiplies values, and takes a Montgomery factor off. -/
theorem pointwise {r s : Rq} (ha : Represents bound a r.values) (hb : Represents bound' b s.values)
    (hpos : 0 ≤ bound) (hfits : bound * bound' < 2 ^ 31 * modulusQ) :
    Represents (modulusQ - 1) (polyPointwiseMontgomery a b) (montInv • (r * s)).values := by
  have hproduct (i : ℕ) (hi : i < 256) :
      |(a.getD i 0).toInt * (b.getD i 0).toInt| < 2 ^ 31 * modulusQ := by
    calc |(a.getD i 0).toInt * (b.getD i 0).toInt|
        = |(a.getD i 0).toInt| * |(b.getD i 0).toInt| := abs_mul _ _
      _ ≤ bound * bound' := mul_le_mul (ha.range i hi) (hb.range i hi) (abs_nonneg _) hpos
      _ < 2 ^ 31 * modulusQ := hfits
  have hcell (i : ℕ) (hi : i < 256) := montgomeryReduce_product (hproduct i hi)
  constructor
  · intro i hi
    rw [polyPointwiseMontgomery, getD_zipWith_poly _ _ _ hi]
    have hlt := (hcell i hi).1
    omega
  · intro i hi
    rw [polyPointwiseMontgomery, getD_zipWith_poly _ _ _ hi, (hcell i hi).2, ha.cast i hi,
      hb.cast i hi, Rq.values_smul, Rq.values_mul]
    ring

end Represents

/-- `poly_shiftl` multiplies by `2 ^ D`, if the products fit. -/
theorem Represents.shiftl {bound : ℤ} {a : Poly} {f : ℕ → ZMod modulusQ} (ha : Represents bound a f)
    (hfits : bound * 2 ^ 13 < 2 ^ 31) :
    Represents (bound * 2 ^ 13) (polyShiftl a) fun i ↦ 2 ^ 13 * f i := by
  have hcell (i : ℕ) (hi : i < 256) :
      ((polyShiftl a).getD i 0).toInt = (a.getD i 0).toInt * 2 ^ 13 := by
    have hra := abs_le.mp (ha.range i hi)
    have hmul : a.getD i 0 <<< (13 : Int32) = a.getD i 0 * 8192 := by
      rw [← Int32.toBitVec_inj]
      exact BitVec.shiftLeft_eq_mul_twoPow _ _
    have hfactor : (8192 : Int32).toInt = 2 ^ 13 := by decide
    rw [polyShiftl, getD_map_poly _ _ hi, hmul, toInt_mul_of_fits, hfactor] <;>
      (try rw [hfactor]) <;> omega
  constructor
  · intro i hi
    have hra := abs_le.mp (ha.range i hi)
    rw [hcell i hi, abs_le]
    omega
  · intro i hi
    rw [hcell i hi, Int.cast_mul, ha.cast i hi]
    push_cast
    ring

/-- A product by way of the values. -/
theorem represents_invntt_pointwise {bound bound' : ℤ} {a b : Poly} {r s : Rq}
    (ha : Represents bound a r.values) (hb : Represents bound' b s.values) (hpos : 0 ≤ bound)
    (hfits : bound * bound' < 2 ^ 31 * modulusQ) :
    Represents (modulusQ - 1) (invnttTomont (polyPointwiseMontgomery a b)) (r * s).coeffSeq := by
  have hproduct := represents_invnttTomont (ha.pointwise hb hpos hfits)
  rw [smul_smul, mul_comm, montInv_mul_mont, one_smul] at hproduct
  exact hproduct

/-- Transforming, multiplying and transforming back multiplies in the ring, for coefficients up to
`8 * (Q - 1)`. -/
theorem invnttTomont_pointwise_ntt {a b : Poly}
    (ha : a.CoeffsIn (-(8 * (modulusQ - 1))) (8 * (modulusQ - 1)))
    (hb : b.CoeffsIn (-(8 * (modulusQ - 1))) (8 * (modulusQ - 1))) :
    (invnttTomont (polyPointwiseMontgomery (ntt a) (ntt b))).toRq = a.toRq * b.toRq ∧
      (invnttTomont (polyPointwiseMontgomery (ntt a) (ntt b))).CoeffsIn
        (-(modulusQ - 1)) (modulusQ - 1) := by
  have hfits : (8 * ((modulusQ : ℤ) - 1)) + 8 * (modulusQ - 1) < 2 ^ 31 := by decide
  have hproduct := represents_invntt_pointwise (represents_ntt hfits (represents_toRq ha))
    (represents_ntt hfits (represents_toRq hb)) (by decide) (by decide)
  exact ⟨hproduct.toRq_eq, hproduct.coeffsIn⟩

/-! ### Zero -/

theorem getD_zeroPoly (k : ℕ) : zeroPoly.getD k 0 = 0 := by
  rcases Nat.lt_or_ge k 256 with hk | hk
  · rw [getD_eq_getElem _ _ hk, Vector.getElem_replicate]
  · rw [getD_of_size_le _ _ hk]

theorem toRq_zeroPoly : zeroPoly.toRq = 0 := by
  apply Rq.ext_coeffSeq
  intro k hk
  rw [Rq.coeffSeq_toRq _ hk, getD_zeroPoly, Rq.coeffSeq_of_lt _ hk, map_zero]
  exact Int.cast_zero

theorem ofNtt_zeroPoly : zeroPoly.ofNtt = 0 := by
  have hzero : zeroPoly.CoeffsIn (-0) 0 := by
    intro k hk
    rw [Vector.getElem_replicate]
    decide
  apply Rq.ext_values
  intro k hk
  have hvalue := (represents_ofNtt hzero).cast k hk
  rw [← hvalue, getD_zeroPoly, Rq.values_of_lt _ hk, map_zero]
  exact Int.cast_zero

/-! ### Matrices -/

section Matrix

variable {count : ℕ} {bound bound' : ℤ} {u v : Vector Poly count} {r s : ℕ → Rq}

/-- The accumulator of a row of products: every summand is reduced, the sum is not. -/
theorem represents_acc (hcount : 0 < count)
    (hu : ∀ j < count, Represents bound (u.getD j zeroPoly) (r j).values)
    (hv : ∀ j < count, Represents bound' (v.getD j zeroPoly) (s j).values)
    (hpos : 0 ≤ bound) (hfits : bound * bound' < 2 ^ 31 * modulusQ)
    (hsum : (count : ℤ) * (modulusQ - 1) < 2 ^ 31) :
    Represents (count * (modulusQ - 1)) (polyveclPointwiseAccMontgomery u v)
      (montInv • ∑ j ∈ Finset.range count, r j * s j).values := by
  have hproduct (j : ℕ) (hj : j < count) := (hu j hj).pointwise (hv j hj) hpos hfits
  let product i := polyPointwiseMontgomery (u.getD i zeroPoly) (v.getD i zeroPoly)
  have hrounds (rounds : ℕ) (hrounds : rounds < count) :
      Represents ((rounds + 1 : ℕ) * (modulusQ - 1))
        ((List.range rounds).foldl (fun w i ↦ polyAdd w (product (i + 1))) (product 0))
        (montInv • ∑ j ∈ Finset.range (rounds + 1), r j * s j).values := by
    induction rounds with
    | zero => simpa using hproduct 0 hcount
    | succ rounds ih =>
      have hmono : ((rounds + 1 : ℕ) : ℤ) * (modulusQ - 1) + (modulusQ - 1) ≤
          count * (modulusQ - 1) := by
        have hle : ((rounds + 1 : ℕ) : ℤ) + 1 ≤ count := by exact_mod_cast hrounds
        calc ((rounds + 1 : ℕ) : ℤ) * (modulusQ - 1) + (modulusQ - 1)
            = (((rounds + 1 : ℕ) : ℤ) + 1) * (modulusQ - 1) := by ring
          _ ≤ count * (modulusQ - 1) := mul_le_mul_of_nonneg_right hle (by decide)
      have hnext := (ih (by omega)).add (hproduct (rounds + 1) hrounds) (by omega)
      rw [List.range_succ, List.foldl_append, List.foldl_cons, List.foldl_nil]
      have hbound : ((rounds + 1 + 1 : ℕ) : ℤ) * (modulusQ - 1) =
          ((rounds + 1 : ℕ) : ℤ) * (modulusQ - 1) + (modulusQ - 1) := by
        push_cast
        ring
      rw [hbound]
      apply hnext.congr
      intro i _
      rw [Finset.sum_range_succ _ (rounds + 1), smul_add, Rq.values_add]
  have hlast := hrounds (count - 1) (by omega)
  rw [Nat.sub_add_cancel hcount] at hlast
  exact hlast

/-- A row of a matrix times a vector, transformed back. -/
theorem represents_invntt_acc (hcount : 0 < count)
    (hu : ∀ j < count, Represents bound (u.getD j zeroPoly) (r j).values)
    (hv : ∀ j < count, Represents bound' (v.getD j zeroPoly) (s j).values)
    (hpos : 0 ≤ bound) (hfits : bound * bound' < 2 ^ 31 * modulusQ)
    (hsum : (count : ℤ) * (modulusQ - 1) ≤ 2 ^ 31 - 2 ^ 22 - 1) :
    Represents (modulusQ - 1)
      (invnttTomont (polyReduce (polyveclPointwiseAccMontgomery u v)))
      (∑ j ∈ Finset.range count, r j * s j).coeffSeq := by
  have hacc := represents_acc hcount hu hv hpos hfits (by omega)
  have hproduct := represents_invnttTomont (hacc.reduce hsum)
  rw [smul_smul, mul_comm, montInv_mul_mont, one_smul] at hproduct
  exact hproduct

/-- A row of ring elements in the order of `ntt` times a vector of polynomials. -/
noncomputable def rowProduct (row v : Vector Poly count) : Rq :=
  ∑ j ∈ Finset.range count, (row.getD j zeroPoly).ofNtt * (v.getD j zeroPoly).toRq

variable {row : Vector Poly count}

/-- The factors of a row, for `represents_acc`. -/
theorem represents_row (hrow : ∀ j (hj : j < count), (row[j]).CoeffsIn 0 (modulusQ - 1)) (j : ℕ)
    (hj : j < count) :
    Represents (modulusQ - 1) (row.getD j zeroPoly) (row.getD j zeroPoly).ofNtt.values := by
  apply represents_ofNtt
  rw [getD_eq_getElem _ _ hj]
  intro k hk
  have hrange := hrow j hj k hk
  have hmodulus := cast_modulusQ
  omega

theorem represents_polyvecNtt (hv : ∀ j (hj : j < count), (v[j]).CoeffsIn (-bound) bound)
    (hbound : bound + 8 * (modulusQ - 1) < 2 ^ 31) (j : ℕ) (hj : j < count) :
    Represents (bound + 8 * (modulusQ - 1)) ((polyvecNtt v).getD j zeroPoly)
      (v.getD j zeroPoly).toRq.values := by
  rw [getD_eq_getElem _ _ hj, getD_eq_getElem _ _ hj, polyvecNtt, Vector.getElem_map]
  exact represents_ntt hbound (represents_toRq (hv j hj))

/-- Products of an entry of the matrix and a transformed coefficient fit. -/
theorem row_fits (hbound : bound + 8 * (modulusQ - 1) < 2 ^ 31) :
    ((modulusQ : ℤ) - 1) * (bound + 8 * (modulusQ - 1)) < 2 ^ 31 * modulusQ := by
  rw [cast_modulusQ] at hbound ⊢
  omega

/-- `invntt_tomont` of `reduce` of a row of `pointwise_montgomery` of `ntt`. -/
theorem represents_rowProduct (hcount : 0 < count)
    (hrow : ∀ j (hj : j < count), (row[j]).CoeffsIn 0 (modulusQ - 1))
    (hv : ∀ j (hj : j < count), (v[j]).CoeffsIn (-bound) bound)
    (hbound : bound + 8 * (modulusQ - 1) < 2 ^ 31)
    (hsum : (count : ℤ) * (modulusQ - 1) ≤ 2 ^ 31 - 2 ^ 22 - 1) :
    Represents (modulusQ - 1)
      (invnttTomont (polyReduce (polyveclPointwiseAccMontgomery row (polyvecNtt v))))
      (rowProduct row v).coeffSeq :=
  represents_invntt_acc hcount (represents_row hrow) (represents_polyvecNtt hv hbound) (by decide)
    (row_fits hbound) hsum

end Matrix

end EvMlDsa
