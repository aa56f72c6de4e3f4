import EvMlDsa.Lattice.Ntt

/-!
# The inverse transform

`invntt_tomont` runs the layers backwards. Sums double from layer to layer, so that coefficients
below `Q` stay below `256 * Q < 2 ^ 31` (`invnttTomont_represents`). From the values of a ring
element it makes the coefficients in Montgomery form (`represents_invnttTomont`).
-/

set_option autoImplicit false
set_option relaxedAutoImplicit false

namespace EvMlDsa

open Library.FixedArray Library.PairLoop Library.NegacyclicNtt Library.Negacyclic

/-! ### Layers backwards -/

/-- The sum of a pair at most doubles, and the product of the difference is reduced. -/
theorem stands_invnttButterfly {bound : ℤ} {zeta x y : Int32} {f g : ZMod modulusQ}
    (hzeta : |zeta.toInt| < modulusQ) (hlow : modulusQ - 1 ≤ bound) (hbound : 2 * bound < 2 ^ 31)
    (hx : Stands bound x f) (hy : Stands bound y g) :
    Stands (2 * bound) (invnttButterfly zeta x y).1 (f + g) ∧
      Stands (2 * bound) (invnttButterfly zeta x y).2 (zeta.toInt * montInv * (f - g)) := by
  obtain ⟨hrange, hcast⟩ := montgomeryReduce_product (product_lt (y := x - y) hzeta)
  obtain ⟨hxrange, hxcast⟩ := hx
  obtain ⟨hyrange, hycast⟩ := hy
  rw [abs_le] at hxrange hyrange
  have hadd : (x + y).toInt = x.toInt + y.toInt := toInt_add_of_fits (by omega) (by omega)
  have hsub : (x - y).toInt = x.toInt - y.toInt := toInt_sub_of_fits (by omega) (by omega)
  rw [hsub, Int.cast_sub, hxcast, hycast] at hcast
  constructor
  · refine ⟨?_, ?_⟩
    · show |(x + y).toInt| ≤ _
      rw [hadd, abs_le]
      constructor <;> omega
    · show ((x + y).toInt : ZMod modulusQ) = _
      rw [hadd, Int.cast_add, hxcast, hycast]
  · refine ⟨?_, hcast⟩
    show |(montgomeryReduce (zeta.toInt64 * (x - y).toInt64)).toInt| ≤ _
    omega

theorem toInt_neg_zetas {k : ℕ} (hk : k < 256) :
    (-zetas.getD k 0).toInt = -(zetas.getD k 0).toInt := by
  have hrange := abs_lt.mp (zetas_range k hk)
  rw [cast_modulusQ] at hrange
  rw [Int32.toInt_neg]
  exact Int.bmod_eq_of_le (by omega) (by omega)

/-- The factors of a layer are the inverses of those of `ntt`. -/
theorem cast_neg_zetas {s b : ℕ} (hs : s < 8) (hb : b < 2 ^ s) :
    ((-zetas.getD (2 ^ (s + 1) - 1 - b) 0).toInt : ZMod modulusQ) * montInv =
      zetaInvOf (2 ^ s + b) := by
  have hlt := node_lt hs hb
  have hlog : Nat.log2 (2 ^ s + b) = s := by
    rw [Nat.log2_eq_iff (by omega), Nat.pow_succ]
    omega
  have hback : 3 * 2 ^ s - 1 - (2 ^ s + b) = 2 ^ (s + 1) - 1 - b := by
    rw [Nat.pow_succ]
    omega
  have hpow : 2 ^ (s + 1) ≤ 2 ^ 8 := Nat.pow_le_pow_right (by omega) hs
  rw [zetaInvOf, hlog, hback, zetaOf, toInt_neg_zetas (by omega), Int.cast_neg, neg_mul]

/-- The loop over `start` takes the factors of a layer from the last one to the first one. -/
theorem invnttLayer_eq {s : ℕ} (hs : s < 8) (a : Poly) :
    invnttLayer (a, 2 ^ (s + 1)) (halfLen 8 s) =
      (blockLoop (fun b ↦ invnttButterfly (-zetas.getD (2 ^ (s + 1) - 1 - b) 0)) 0 (halfLen 8 s)
        (2 ^ s) a, 2 ^ s) := by
  have hcountdown := foldl_countdown (fun k block (a : Poly) ↦
    pairLoop (invnttButterfly (-zetas.getD k 0)) 0 (halfLen 8 s) (2 * halfLen 8 s * block) a)
    a (2 ^ (s + 1)) (2 ^ s)
  have hlast : 2 ^ (s + 1) - 2 ^ s = 2 ^ s := by
    rw [Nat.pow_succ]
    omega
  rw [hlast] at hcountdown
  rw [invnttLayer, rounds_eq s hs, blockLoop]
  exact hcountdown

/-- One layer of `invntt_tomont`. -/
theorem represents_invnttLayer {s : ℕ} (hs : s < 8) {bound : ℤ} (hlow : modulusQ - 1 ≤ bound)
    (hbound : 2 * bound < 2 ^ 31) {a : Poly} {f : ℕ → ZMod modulusQ} (ha : Represents bound a f) :
    Represents (2 * bound) (invnttLayer (a, 2 ^ (s + 1)) (halfLen 8 s)).1
      (inverseLayer (fun b ↦ zetaInvOf (2 ^ s + b)) (halfLen 8 s) f) := by
  rw [invnttLayer_eq hs]
  apply represents_blockLoop (two_mul_halfLen hs) _ ha
  intro b hb j hj x y hx hy
  have hpow : 2 ^ (s + 1) ≤ 2 ^ 8 := Nat.pow_le_pow_right (by omega) hs
  have hentry : 2 ^ (s + 1) - 1 - b < 256 := by
    have hpos := Nat.two_pow_pos (s + 1)
    omega
  have hzeta : |(-zetas.getD (2 ^ (s + 1) - 1 - b) 0).toInt| < modulusQ := by
    rw [toInt_neg_zetas hentry, abs_neg]
    exact zetas_range _ hentry
  rw [inverseLayer_left _ _ _ hj, inverseLayer_right _ _ _ hj, ← cast_neg_zetas hs hb]
  exact stands_invnttButterfly hzeta hlow hbound hx hy

/-- The last layers of `invntt_tomont`. -/
theorem represents_invnttLayers {s : ℕ} (hs : s ≤ 8) {bound : ℤ} (hlow : modulusQ - 1 ≤ bound)
    (hbound : bound * 2 ^ s < 2 ^ 31) {a : Poly} {f : ℕ → ZMod modulusQ}
    (ha : Represents bound a f) :
    ∃ a', ((List.range s).reverse.map (halfLen 8)).foldl invnttLayer (a, 2 ^ s) = (a', 1) ∧
      Represents (bound * 2 ^ s) a' (inverseLayers zetaInvOf 8 s f) := by
  induction s generalizing a f bound with
  | zero => exact ⟨a, rfl, by simpa [inverseLayers] using ha⟩
  | succ s ih =>
    have hmodulus := cast_modulusQ
    have hdouble : bound * 2 ^ (s + 1) = 2 * bound * 2 ^ s := by ring
    have hpos : (1 : ℤ) ≤ 2 ^ s := one_le_pow₀ (by norm_num)
    have hfits : 2 * bound ≤ 2 * bound * 2 ^ s := le_mul_of_one_le_right (by omega) hpos
    rw [hdouble] at hbound ⊢
    have hnext := represents_invnttLayer (show s < 8 by omega) hlow (by omega) ha
    obtain ⟨a', hrun, ha'⟩ := ih (by omega) (by omega) hbound hnext
    refine ⟨a', ?_, ha'⟩
    rw [List.range_succ, List.reverse_append, List.map_append, List.foldl_append]
    rw [← hrun, invnttLayer_eq (by omega)]
    rw [List.reverse_singleton, List.map_cons, List.map_nil, List.foldl_cons, List.foldl_nil,
      invnttLayer_eq (by omega)]

theorem getD_map_poly (a : Poly) (g : Int32 → Int32) {i : ℕ} (hi : i < 256) :
    (a.map g).getD i 0 = g (a.getD i 0) := by
  rw [getD_eq_getElem _ _ hi, getD_eq_getElem _ _ hi, Vector.getElem_map]

/-- `invntt_tomont` keeps coefficients below `Q` below `Q`. -/
theorem invnttTomont_represents {a : Poly} {f : ℕ → ZMod modulusQ}
    (ha : Represents (modulusQ - 1) a f) :
    Represents (modulusQ - 1) (invnttTomont a)
      (fun i ↦ 41978 * montInv * inverseLayers zetaInvOf 8 8 f i) := by
  have hbound : ((modulusQ : ℤ) - 1) * 2 ^ 8 < 2 ^ 31 := by decide
  obtain ⟨a', hrun, ha'⟩ := represents_invnttLayers le_rfl le_rfl hbound ha
  have hinvntt : invnttTomont a =
      a'.map fun x ↦ montgomeryReduce (invnttFactor.toInt64 * x.toInt64) := by
    have hfold : ([1, 2, 4, 8, 16, 32, 64, 128].foldl invnttLayer (a, 256)).1 = a' :=
      congrArg Prod.fst hrun
    rw [invnttTomont, hfold]
  have hcell (i : ℕ) (hi : i < 256) := montgomeryReduce_product
    (product_lt (x := invnttFactor) (y := a'.getD i 0) (by decide))
  have hfactor : ((invnttFactor.toInt : ℤ) : ZMod modulusQ) = 41978 := by decide
  rw [hinvntt]
  constructor
  · intro i hi
    rw [getD_map_poly _ _ hi]
    have hlt := (hcell i hi).1
    omega
  · intro i hi
    rw [getD_map_poly _ _ hi, (hcell i hi).2, hfactor, ha'.cast i hi]

/-! ### In the ring -/

theorem size_eq : 2 ^ 8 = 256 := rfl

theorem size_neZero : NeZero 256 := ⟨by decide⟩

/-- The value of a ring element at a root of `X ^ N + 1`. -/
noncomputable def Rq.value (i : Fin 256) : Rq →+* ZMod modulusQ := twiddles.value size_eq i

/-- The values of a ring element, in the order of `ntt`. -/
noncomputable def Rq.values (r : Rq) (i : ℕ) : ZMod modulusQ :=
  if hi : i < 256 then Rq.value ⟨i, hi⟩ r else 0

/-- The coefficients of a ring element. -/
noncomputable def Rq.coeffSeq (r : Rq) (i : ℕ) : ZMod modulusQ :=
  haveI := size_neZero
  coeffAt r i

theorem Rq.values_of_lt (r : Rq) {i : ℕ} (hi : i < 256) : r.values i = Rq.value ⟨i, hi⟩ r :=
  dif_pos hi

theorem Rq.coeffSeq_of_lt (r : Rq) {i : ℕ} (hi : i < 256) :
    r.coeffSeq i = coeffs (ZMod modulusQ) 256 r ⟨i, hi⟩ :=
  dif_pos hi

theorem Rq.values_add (r s : Rq) (i : ℕ) : (r + s).values i = r.values i + s.values i := by
  by_cases hi : i < 256
  · simp only [Rq.values_of_lt _ hi, map_add]
  · simp only [Rq.values, dif_neg hi, add_zero]

theorem Rq.values_mul (r s : Rq) (i : ℕ) : (r * s).values i = r.values i * s.values i := by
  by_cases hi : i < 256
  · simp only [Rq.values_of_lt _ hi, map_mul]
  · simp only [Rq.values, dif_neg hi, mul_zero]

theorem Rq.values_sub (r s : Rq) (i : ℕ) : (r - s).values i = r.values i - s.values i := by
  by_cases hi : i < 256
  · simp only [Rq.values_of_lt _ hi, map_sub]
  · simp only [Rq.values, dif_neg hi, sub_zero]

theorem Rq.coeffSeq_add (r s : Rq) (i : ℕ) : (r + s).coeffSeq i = r.coeffSeq i + s.coeffSeq i := by
  by_cases hi : i < 256
  · simp only [Rq.coeffSeq_of_lt _ hi, map_add, Pi.add_apply]
  · simp only [Rq.coeffSeq, coeffAt, dif_neg hi, add_zero]

theorem Rq.coeffSeq_sub (r s : Rq) (i : ℕ) : (r - s).coeffSeq i = r.coeffSeq i - s.coeffSeq i := by
  by_cases hi : i < 256
  · simp only [Rq.coeffSeq_of_lt _ hi, map_sub, Pi.sub_apply]
  · simp only [Rq.coeffSeq, coeffAt, dif_neg hi, sub_zero]

theorem Rq.coeffSeq_smul (c : ZMod modulusQ) (r : Rq) (i : ℕ) :
    (c • r).coeffSeq i = c * r.coeffSeq i := by
  by_cases hi : i < 256
  · simp only [Rq.coeffSeq_of_lt _ hi, map_smul, Pi.smul_apply, smul_eq_mul]
  · simp only [Rq.coeffSeq, coeffAt, dif_neg hi, mul_zero]

theorem Rq.values_smul (c : ZMod modulusQ) (r : Rq) (i : ℕ) :
    (c • r).values i = c * r.values i := by
  by_cases hi : i < 256
  · have hconst : Rq.value ⟨i, hi⟩ (algebraMap (ZMod modulusQ) Rq c) = c :=
      twiddles.value_algebraMap size_eq _ c
    rw [Rq.values_of_lt _ hi, Rq.values_of_lt _ hi, Algebra.smul_def, map_mul, hconst]
  · simp only [Rq.values, dif_neg hi, mul_zero]

theorem Represents.congr {bound : ℤ} {a : Poly} {f g : ℕ → ZMod modulusQ}
    (ha : Represents bound a f)
    (hfg : ∀ i < 256, f i = g i) : Represents bound a g :=
  ⟨ha.range, fun i hi ↦ (ha.cast i hi).trans (hfg i hi)⟩

theorem ofCoeffs_coeffSeq (r : Rq) :
    ofCoeffs (ZMod modulusQ) 256 (fun k ↦ r.coeffSeq k.val) = r := by
  have hcoeffs : (fun k : Fin 256 ↦ r.coeffSeq k.val) = coeffs (ZMod modulusQ) 256 r :=
    funext fun k ↦ r.coeffSeq_of_lt k.isLt
  rw [hcoeffs]
  exact (coeffs (ZMod modulusQ) 256).symm_apply_apply r

/-- From the coefficients of a ring element `ntt` makes its values. -/
theorem represents_ntt {bound : ℤ} (hbound : bound + 8 * (modulusQ - 1) < 2 ^ 31) {a : Poly}
    {r : Rq} (ha : Represents bound a r.coeffSeq) :
    Represents (bound + 8 * (modulusQ - 1)) (ntt a) r.values := by
  apply (ntt_represents hbound ha).congr
  intro i hi
  have hvalue := twiddles.layers_eq_value size_eq r.coeffSeq ⟨i, hi⟩
  rw [ofCoeffs_coeffSeq] at hvalue
  rw [r.values_of_lt hi]
  exact hvalue

/-- From the values of a ring element `invntt_tomont` makes its coefficients in Montgomery form. -/
theorem represents_invnttTomont {a : Poly} {r : Rq} (ha : Represents (modulusQ - 1) a r.values) :
    Represents (modulusQ - 1) (invnttTomont a) (mont • r).coeffSeq := by
  apply (invnttTomont_represents ha).congr
  intro i hi
  have hcoeff := twiddles.inverseLayers_value zetaInvOf_mul size_eq r
    (fun i ↦ r.values_of_lt i.isLt) ⟨i, hi⟩
  have hfactor : 41978 * montInv * 2 ^ 8 = mont := by decide
  rw [hcoeff, Rq.coeffSeq_of_lt _ hi, map_smul, Pi.smul_apply, smul_eq_mul, ← mul_assoc, hfactor]

/-- The ring element whose values an array holds. -/
noncomputable def Poly.ofNtt (a : Poly) : Rq :=
  haveI := size_neZero
  ofSequence 256 (8347681 : ZMod modulusQ)
    (inverseLayers zetaInvOf 8 8 fun i ↦ ((a.getD i 0).toInt : ZMod modulusQ))

/-- Every array holds the values of a ring element. -/
theorem represents_ofNtt {bound : ℤ} {a : Poly} (ha : a.CoeffsIn (-bound) bound) :
    Represents bound a a.ofNtt.values := by
  constructor
  · intro i hi
    rw [getD_eq_getElem _ _ hi, abs_le]
    exact ha i hi
  · intro i hi
    have hinverse : (8347681 : ZMod modulusQ) * 2 ^ 8 = 1 := by decide
    rw [Poly.ofNtt, ofSequence, Rq.values_smul, Rq.values_of_lt _ hi, Rq.value,
      twiddles.value_inverseLayers zetaInvOf_mul, ← mul_assoc, hinverse, one_mul]

/-- Every array holds the coefficients of a ring element. -/
theorem represents_toRq {bound : ℤ} {a : Poly} (ha : a.CoeffsIn (-bound) bound) :
    Represents bound a a.toRq.coeffSeq := by
  constructor
  · intro i hi
    rw [getD_eq_getElem _ _ hi, abs_le]
    exact ha i hi
  · intro i hi
    rw [Rq.coeffSeq_of_lt _ hi, Poly.coeffs_toRq, Poly.residues, getD_eq_getElem _ _ hi]
    rfl

/-- An array that holds the coefficients of a ring element stands for it. -/
theorem Represents.toRq_eq {bound : ℤ} {a : Poly} {r : Rq} (ha : Represents bound a r.coeffSeq) :
    a.toRq = r := by
  rw [← ofCoeffs_coeffSeq r, Poly.toRq]
  congr 1
  funext k
  rw [← ha.cast k.val k.isLt, getD_eq_getElem _ _ k.isLt]
  rfl

theorem Represents.coeffsIn {bound : ℤ} {a : Poly} {f : ℕ → ZMod modulusQ}
    (ha : Represents bound a f) : a.CoeffsIn (-bound) bound := by
  intro k hk
  have hrange := ha.range k hk
  rw [getD_eq_getElem _ _ hk, abs_le] at hrange
  exact hrange

theorem Rq.coeffSeq_toRq (a : Poly) {i : ℕ} (hi : i < 256) :
    a.toRq.coeffSeq i = ((a.getD i 0).toInt : ZMod modulusQ) := by
  rw [Rq.coeffSeq_of_lt _ hi, Poly.coeffs_toRq, Poly.residues, getD_eq_getElem _ _ hi]
  rfl

/-- Ring elements are given by their coefficients. -/
theorem Rq.ext_coeffSeq {r s : Rq} (hrs : ∀ i < 256, r.coeffSeq i = s.coeffSeq i) : r = s := by
  rw [← ofCoeffs_coeffSeq r, ← ofCoeffs_coeffSeq s]
  congr 1
  funext k
  exact hrs k.val k.isLt

/-- Ring elements are given by their values. -/
theorem Rq.ext_values {r s : Rq} (hrs : ∀ i < 256, r.values i = s.values i) : r = s := by
  have hvalue (i : Fin 256) : r.values i = Rq.value i s := by
    rw [hrs i i.isLt, s.values_of_lt i.isLt]
  have hr := twiddles.inverseLayers_value zetaInvOf_mul size_eq r fun i ↦ r.values_of_lt i.isLt
  have hs := twiddles.inverseLayers_value zetaInvOf_mul size_eq s hvalue
  have hunit : (8347681 : ZMod modulusQ) * 2 ^ 8 = 1 := by decide
  apply Rq.ext_coeffSeq
  intro i hi
  have hcoeffs := (hr ⟨i, hi⟩).symm.trans (hs ⟨i, hi⟩)
  have hscaled := congrArg (8347681 * ·) hcoeffs
  simp only [← mul_assoc, hunit, one_mul] at hscaled
  rw [Rq.coeffSeq_of_lt _ hi, Rq.coeffSeq_of_lt _ hi, hscaled]

/-- What represents zero with small coefficients is zero. -/
theorem Represents.eq_zero {a : Poly} (ha : Represents (modulusQ - 1) a (0 : Rq).coeffSeq) :
    a = Vector.replicate 256 0 := by
  refine Vector.ext fun k hk ↦ ?_
  have hrange := abs_le.mp (ha.range k hk)
  have hcast := ha.cast k hk
  rw [Rq.coeffSeq_of_lt _ hk, map_zero, Pi.zero_apply, ZMod.intCast_zmod_eq_zero_iff_dvd] at hcast
  rw [cast_modulusQ] at hrange hcast
  have hzero : (0 : Int32).toInt = 0 := by decide
  rw [Vector.getElem_replicate, ← getD_eq_getElem a 0 hk, ← Int32.toInt_inj, hzero]
  omega

end EvMlDsa
