import EvMlDsa.Lattice.KeyPair

/-!
# The response to a challenge

For a key pair, verification computes `A * z - c * t1 * 2 ^ D`, which is `w - c * s2 + c * t0`
(`verify_eq`). The norm checks of signing keep the change of the low part of `w` so small that the
hints lead back to the high part (`verifyW1_respond`). No intermediate value leaves its type.
-/

set_option autoImplicit false
set_option relaxedAutoImplicit false

namespace EvMlDsa

open Library.FixedArray Library.Rejection

variable {mode : DilithiumMode}

/-! ### The norm check -/

/-- The absolute value of `poly_chknorm`. -/
theorem toInt_chknorm_abs {x : Int32} (hlo : -2 ^ 30 ≤ x.toInt) (hhi : x.toInt < 2 ^ 30) :
    (x - (x >>> 31 &&& 2 * x)).toInt = |x.toInt| := by
  have htwo : (2 * x).toInt = 2 * x.toInt := by
    have hfactor : (2 : Int32).toInt = 2 := by decide
    rw [toInt_mul_of_fits, hfactor] <;> (try rw [hfactor]) <;> omega
  rw [sshiftRight_thirtyOne]
  split_ifs with hneg
  · rw [Int32.neg_one_and, toInt_sub_of_fits, htwo, abs_of_neg hneg] <;> (try rw [htwo]) <;> omega
  · rw [Int32.zero_and, Int32.sub_zero, abs_of_nonneg (not_lt.mp hneg)]

theorem lt_of_polyChknorm {a : Poly} {bound : Int32} {k : ℕ} (hk : k < 256)
    (hlo : -2 ^ 30 ≤ (a.getD k 0).toInt) (hhi : (a.getD k 0).toInt < 2 ^ 30)
    (hnorm : polyChknorm a bound = false) : |(a.getD k 0).toInt| < bound.toInt := by
  rw [polyChknorm] at hnorm
  split_ifs at hnorm with hbound
  have hcell := List.any_eq_false.mp hnorm (a.getD k 0) (by
    rw [getD_eq_getElem _ _ hk]
    exact Vector.mem_toList_iff.mpr (Vector.getElem_mem hk))
  simp only [ge_iff_le, decide_eq_true_eq, Int32.not_le] at hcell
  rw [Int32.lt_iff_toInt_lt] at hcell
  rw [← toInt_chknorm_abs hlo hhi]
  exact hcell

theorem polyChknorm_of_polyvecChknorm {count : ℕ} {v : Vector Poly count} {bound : Int32}
    (hnorm : polyvecChknorm v bound = false) {i : ℕ} (hi : i < count) :
    polyChknorm v[i] bound = false := by
  have hcell := List.any_eq_false.mp hnorm v[i] (Vector.mem_toList_iff.mpr (Vector.getElem_mem hi))
  exact Bool.eq_false_of_not_eq_true hcell

/-- What passes the check after a reduction is short. -/
theorem coeffsIn_of_polyvecChknorm {count : ℕ} {v : Vector Poly count} {bound : Int32}
    (hnorm : polyvecChknorm v bound = false) {i : ℕ} (hi : i < count)
    {f : ℕ → ZMod modulusQ} (hv : Represents (modulusQ - 1) v[i] f) {k : ℕ} (hk : k < 256) :
    |(v[i].getD k 0).toInt| < bound.toInt := by
  have hrange := abs_le.mp (hv.range k hk)
  rw [cast_modulusQ] at hrange
  exact lt_of_polyChknorm hk (by omega) (by omega) (polyChknorm_of_polyvecChknorm hnorm hi)

/-! ### Hints -/

theorem polyMakeHint_rounds (mode : DilithiumMode) (a0 a1 : Poly) {rounds : ℕ}
    (hrounds : rounds ≤ 256) :
    let s := (List.range rounds).foldl
      (fun (s : Poly × ℕ) i ↦
        let hint := makeHint mode (a0.getD i 0) (a1.getD i 0)
        (s.1.setIfInBounds i (if hint then 1 else 0), s.2 + if hint then 1 else 0)) (zeroPoly, 0)
    (∀ k < 256, s.1.getD k 0 =
      if k < rounds ∧ makeHint mode (a0.getD k 0) (a1.getD k 0) then 1 else 0) ∧
      s.2 =
        ((List.range rounds).filter fun k ↦ makeHint mode (a0.getD k 0) (a1.getD k 0)).length := by
  induction rounds with
  | zero =>
    refine ⟨fun k hk ↦ ?_, rfl⟩
    show zeroPoly.getD k 0 = _
    rw [getD_zeroPoly, if_neg (fun h ↦ Nat.not_lt_zero k h.1)]
  | succ rounds ih =>
    obtain ⟨hcells, hcount⟩ := ih (by omega)
    simp only [List.range_succ, List.foldl_append, List.foldl_cons, List.foldl_nil,
      List.filter_append, List.length_append]
    refine ⟨fun k hk ↦ ?_, ?_⟩
    · rw [getD_setIfInBounds, hcells k hk]
      by_cases hlast : rounds = k
      · subst hlast
        simp [hk]
      · have hlt : k < rounds + 1 ↔ k < rounds := by omega
        rw [if_neg (fun h ↦ hlast h.1)]
        simp only [hlt]
    · rw [hcount]
      by_cases hhint : makeHint mode (a0.getD rounds 0) (a1.getD rounds 0) <;> simp [hhint]

/-- `poly_make_hint` sets a one for every hint. -/
theorem getD_polyMakeHint (a0 a1 : Poly) {k : ℕ} (hk : k < 256) :
    (polyMakeHint mode a0 a1).1.getD k 0 =
      if makeHint mode (a0.getD k 0) (a1.getD k 0) then 1 else 0 := by
  have hcell := (polyMakeHint_rounds mode a0 a1 le_rfl).1 k hk
  simp only [hk, true_and] at hcell
  exact hcell

/-- and counts them. -/
theorem polyMakeHint_count (a0 a1 : Poly) :
    (polyMakeHint mode a0 a1).2 = (hintPositions (polyMakeHint mode a0 a1).1).length := by
  have hcount := (polyMakeHint_rounds mode a0 a1 le_rfl).2
  rw [hintPositions, List.length_map]
  refine hcount.trans (congrArg List.length (List.filter_congr fun k hk ↦ ?_))
  rw [getD_polyMakeHint a0 a1 (List.mem_range.mp hk)]
  cases makeHint mode (a0.getD k 0) (a1.getD k 0) <;> rfl

theorem polyMakeHint_coeffsIn (a0 a1 : Poly) : (polyMakeHint mode a0 a1).1.CoeffsIn 0 1 := by
  intro k hk
  rw [← getD_eq_getElem _ 0 hk, getD_polyMakeHint a0 a1 hk]
  split_ifs <;> decide

/-- The number of ones of all polynomials. -/
theorem polyveckMakeHint_count {count : ℕ} (v0 v1 : Vector Poly count) :
    (polyveckMakeHint mode v0 v1).2 = hintCount (polyveckMakeHint mode v0 v1).1 := by
  have hrounds (rounds : ℕ) (hle : rounds ≤ count) :
      (List.range rounds).foldl
        (fun s i ↦ s + (polyMakeHint mode (v0.getD i zeroPoly) (v1.getD i zeroPoly)).2) 0 =
        (hintRows (fun i ↦ hintPositions ((polyveckMakeHint mode v0 v1).1.getD i zeroPoly))
          rounds).length := by
    induction rounds with
    | zero => rfl
    | succ rounds ih =>
      have hrow : (polyveckMakeHint mode v0 v1).1.getD rounds zeroPoly =
          (polyMakeHint mode (v0.getD rounds zeroPoly) (v1.getD rounds zeroPoly)).1 := by
        rw [getD_eq_getElem _ _ hle, getD_eq_getElem _ _ hle, getD_eq_getElem _ _ hle,
          polyveckMakeHint, Vector.getElem_zipWith]
      rw [List.range_succ, List.foldl_append, List.foldl_cons, List.foldl_nil, ih (by omega),
        hintRows_succ, List.length_append, hrow, polyMakeHint_count]
  exact hrounds count le_rfl

/-! ### In the ring -/

/-- Every array represents itself. -/
theorem represents_self {bound : ℤ} {a : Poly} (ha : ∀ k < 256, |(a.getD k 0).toInt| ≤ bound) :
    Represents bound a fun k ↦ ((a.getD k 0).toInt : ZMod modulusQ) :=
  ⟨ha, fun _ _ ↦ rfl⟩

/-- What the parameters have to satisfy for nothing to overflow. -/
theorem mode_bounds (mode : DilithiumMode) :
    mode.gamma1.toInt ≤ 2 ^ 19 ∧ 0 < mode.gamma1.toInt ∧ 0 < mode.gamma2.toInt ∧
      mode.gamma2.toInt ≤ 2 ^ 18 ∧ 0 < mode.beta.toInt ∧
      (mode.gamma1 - mode.beta).toInt = mode.gamma1.toInt - mode.beta.toInt ∧
      (mode.gamma2 - mode.beta).toInt = mode.gamma2.toInt - mode.beta.toInt := by
  cases mode <;> decide

/-- A product with the challenge. -/
theorem represents_challenge_mul {cp a : Poly} (hcp : cp.CoeffsIn (-1) 1) {bound : ℤ}
    (ha : a.CoeffsIn (-bound) bound) (hbound : bound ≤ modulusQ - 1) :
    Represents (modulusQ - 1) (invnttTomont (polyPointwiseMontgomery (ntt cp) (ntt a)))
      (cp.toRq * a.toRq).coeffSeq := by
  have hwide : a.CoeffsIn (-(modulusQ - 1)) (modulusQ - 1) := by
    intro k hk
    have hrange := ha k hk
    omega
  exact represents_invntt_pointwise (represents_ntt (by decide) (represents_toRq hcp))
    (represents_ntt (by decide) (represents_toRq hwide)) (by decide) (by decide)

section Response

variable {parts : KeyParts mode} {xof : Xof} {fuel : ℕ}
  {pk : Vector UInt8 (cryptoPublickeybytes mode)} {sk : Vector UInt8 (cryptoSecretkeybytes mode)}
  (hkey : KeyPair xof fuel pk sk parts) {cp : Poly} (hcp : cp.CoeffsIn (-1) 1)
include hkey hcp

/-- `z` represents `y + c * s1`. -/
theorem represents_response {y : Poly} (hy : y.CoeffsIn (-mode.gamma1.toInt) mode.gamma1.toInt)
    {j : ℕ} (hj : j < mode.L) :
    Represents (modulusQ - 1)
      (polyReduce (polyAdd (invnttTomont
        (polyPointwiseMontgomery (ntt cp) (ntt parts.s1[j]))) y))
      (cp.toRq * parts.s1[j].toRq + y.toRq).coeffSeq := by
  have heta := eta_range mode
  have hbounds := mode_bounds mode
  have hproduct := represents_challenge_mul hcp (hkey.s1_range j hj)
    (by rw [cast_modulusQ]; omega)
  have hsum := hproduct.add (represents_toRq hy) (by rw [cast_modulusQ]; omega)
  apply (hsum.reduce (by rw [cast_modulusQ]; omega)).congr
  intro k _
  rw [Rq.coeffSeq_add]

/-- The low part of `w` without `c * s2`. -/
theorem represents_low {w0 : Poly} {i : ℕ} (hi : i < mode.K)
    (hw0 : ∀ k < 256, |(w0.getD k 0).toInt| ≤ mode.gamma2.toInt) :
    Represents (modulusQ - 1)
      (polyReduce (polySub w0 (invnttTomont
        (polyPointwiseMontgomery (ntt cp) (ntt parts.s2[i])))))
      fun k ↦ ((w0.getD k 0).toInt : ZMod modulusQ) - (cp.toRq * parts.s2[i].toRq).coeffSeq k := by
  have heta := eta_range mode
  have hbounds := mode_bounds mode
  have hproduct := represents_challenge_mul hcp (hkey.s2_range i hi)
    (by rw [cast_modulusQ]; omega)
  have hdifference := (represents_self hw0).sub hproduct (by rw [cast_modulusQ]; omega)
  exact hdifference.reduce (by rw [cast_modulusQ]; omega)

/-- `c * t0`. -/
theorem represents_hint_part {i : ℕ} (hi : i < mode.K) :
    Represents (modulusQ - 1)
      (polyReduce (invnttTomont (polyPointwiseMontgomery (ntt cp) (ntt parts.t0[i]))))
      (cp.toRq * parts.t0[i].toRq).coeffSeq := by
  have ht0 : (parts.t0[i]).CoeffsIn (-2 ^ 12) (2 ^ 12) := by
    intro k hk
    have hrange := hkey.t0_range i hi k hk
    omega
  exact (represents_challenge_mul hcp ht0 (by decide)).reduce (by decide)

/-- What verification computes before the hints are used. -/
theorem represents_verify {z : Vector Poly mode.L}
    (hz : ∀ j (hj : j < mode.L), (z[j]).CoeffsIn (-(modulusQ - 1)) (modulusQ - 1)) {i : ℕ}
    (hi : i < mode.K) :
    Represents (modulusQ - 1)
      (invnttTomont (polyReduce (polySub
        (polyveclPointwiseAccMontgomery parts.mat[i] (polyvecNtt z))
        (polyPointwiseMontgomery (ntt cp) (ntt (polyShiftl parts.t1[i]))))))
      (rowProduct parts.mat[i] z -
        cp.toRq * ((2 ^ 13 : ZMod modulusQ) • parts.t1[i].toRq)).coeffSeq := by
  obtain ⟨hL, hsum⟩ := L_range mode
  have ht1 : (parts.t1[i]).CoeffsIn (-1023) 1023 := by
    intro k hk
    have hrange := hkey.t1_range i hi k hk
    omega
  have hshift : Represents (1023 * 2 ^ 13) (polyShiftl parts.t1[i])
      ((2 ^ 13 : ZMod modulusQ) • parts.t1[i].toRq).coeffSeq := by
    apply ((represents_toRq ht1).shiftl (by decide)).congr
    intro k _
    rw [Rq.coeffSeq_smul]
  have hbound : ((modulusQ : ℤ) - 1) + 8 * (modulusQ - 1) < 2 ^ 31 := by decide
  have hacc := represents_acc hL (represents_row (polyvecMatrixExpand_range hkey.expand i hi))
    (represents_polyvecNtt hz hbound) (by decide) (row_fits hbound)
    (by rw [cast_modulusQ] at hsum ⊢; omega)
  have hproduct := Represents.pointwise
    (represents_ntt (by decide) (represents_toRq hcp)) (represents_ntt (by decide) hshift)
    (by decide) (by decide)
  have hdifference := hacc.sub hproduct (by rw [cast_modulusQ] at hsum ⊢; omega)
  have hreduced := (hdifference.reduce hsum).congr (g := (montInv • (rowProduct parts.mat[i] z -
    cp.toRq * ((2 ^ 13 : ZMod modulusQ) • parts.t1[i].toRq))).values) (by
      intro k _
      rw [smul_sub, Rq.values_sub]
      rfl)
  have hback := represents_invnttTomont hreduced
  rw [smul_smul, mul_comm, montInv_mul_mont, one_smul] at hback
  exact hback

omit hcp in
/-- `A * z - c * t1 * 2 ^ D` is `w + c * t0 - c * s2`. -/
theorem verify_eq {y z : Vector Poly mode.L}
    (hz : ∀ j (hj : j < mode.L), (z[j]).toRq = cp.toRq * parts.s1[j].toRq + y[j].toRq) {i : ℕ}
    (hi : i < mode.K) :
    rowProduct parts.mat[i] z - cp.toRq * ((2 ^ 13 : ZMod modulusQ) • parts.t1[i].toRq) =
      rowProduct parts.mat[i] y + cp.toRq * parts.t0[i].toRq - cp.toRq * parts.s2[i].toRq := by
  have hrow : rowProduct parts.mat[i] z =
      cp.toRq * rowProduct parts.mat[i] parts.s1 + rowProduct parts.mat[i] y := by
    rw [rowProduct, rowProduct, rowProduct, Finset.mul_sum, ← Finset.sum_add_distrib]
    refine Finset.sum_congr rfl fun j hj ↦ ?_
    have hj := Finset.mem_range.mp hj
    rw [getD_eq_getElem z _ hj, getD_eq_getElem y _ hj, getD_eq_getElem parts.s1 _ hj, hz j hj]
    ring
  have hrounded := hkey.rounded i hi
  calc rowProduct parts.mat[i] z - cp.toRq * ((2 ^ 13 : ZMod modulusQ) • parts.t1[i].toRq)
      = rowProduct parts.mat[i] y + cp.toRq * (rowProduct parts.mat[i] parts.s1) -
          cp.toRq * ((2 ^ 13 : ZMod modulusQ) • parts.t1[i].toRq) := by
        rw [hrow]
        ring
    _ = rowProduct parts.mat[i] y + cp.toRq * parts.t0[i].toRq -
          cp.toRq * parts.s2[i].toRq := by
        rw [eq_sub_of_add_eq hrounded]
        ring

end Response

/-- What the hints do to one coefficient: `w` is the commitment, `low` and `high` are what signing
adds to its low part, and `r` is what verification computes. -/
theorem useHint_response {w r low hint a0 : Int32} (hw : 0 ≤ w.toInt ∧ w.toInt ≤ modulusQ - 1)
    (hr : 0 ≤ r.toInt ∧ r.toInt ≤ modulusQ - 1)
    (hlow : |low.toInt| < mode.gamma2.toInt - mode.beta.toInt)
    (hhint : |hint.toInt| < mode.gamma2.toInt) (ha0 : a0 = low + hint)
    {change part : ZMod modulusQ}
    (hlowCast : (low.toInt : ZMod modulusQ) = ((decompose mode w).2.toInt : ZMod modulusQ) - change)
    (hhintCast : (hint.toInt : ZMod modulusQ) = part)
    (hrCast : (r.toInt : ZMod modulusQ) = (w.toInt : ZMod modulusQ) + part - change) :
    useHint mode r (makeHint mode a0 (decompose mode w).1) = (decompose mode w).1 := by
  have hbounds := mode_bounds mode
  have hmodulus := cast_modulusQ
  have hparts := decompose_parts mode hw.1 (by omega)
  rw [abs_lt] at hlow hhint
  have hsum : a0.toInt = low.toInt + hint.toInt := by
    rw [ha0]
    exact toInt_add_of_fits (by omega) (by omega)
  have hwhole : (w.toInt : ZMod modulusQ) =
      (((decompose mode w).1.toInt * (2 * mode.gamma2.toInt) + (decompose mode w).2.toInt : ℤ) :
        ZMod modulusQ) := by
    rcases hparts.sum with ⟨hexact, -⟩ | ⟨hfirst, -, hwrap⟩
    · rw [hexact]
    · rw [hfirst, hwrap, ZMod.intCast_eq_intCast_iff_dvd_sub]
      exact ⟨-1, by ring⟩
  apply useHint_makeHint mode hr.1 (by omega) hparts.high ⟨by omega, by omega⟩
  rw [← ZMod.intCast_zmod_eq_zero_iff_dvd, Int.cast_sub, hrCast, hwhole, hsum]
  push_cast
  rw [hlowCast, hhintCast]
  ring

/-! ### One attempt -/

/-- `w` of an attempt. -/
def commitW (mat : Vector (Vector Poly mode.L) mode.K) (y : Vector Poly mode.L) :
    Vector Poly mode.K :=
  polyveckCaddq (polyvecInvnttTomont (polyvecReduce
    (polyvecMatrixPointwiseMontgomery mat (polyvecNtt y))))

/-- What the first part of an attempt leaves. -/
structure Commits (xof : Xof) (mat : Vector (Vector Poly mode.L) mode.K) (mu : List UInt8)
    (commit : Commitment mode) : Prop where
  y_range (j : ℕ) (hj : j < mode.L) :
    (commit.y[j]).CoeffsIn (-mode.gamma1.toInt) mode.gamma1.toInt
  parts : polyveckDecompose mode (commitW mat commit.y) = (commit.w1, commit.w0)
  challenge : commit.sig.toList.take mode.ctildeBytes =
    (xof.squeeze256 mode.ctildeBytes (mu ++ polyveckPackW1 mode commit.w1)).toList

theorem length_polyw1Bytes (mode : DilithiumMode) (a : Poly) :
    (polyw1Bytes mode a).length = mode.polyw1PackedBytes := by
  have hgroup (i : ℕ) : (polyw1Group mode a i).length = if mode = .two then 3 else 1 := by
    cases mode <;> rfl
  have hbytes : (polyw1Bytes mode a).length =
      (if mode = .two then 64 else 128) * if mode = .two then 3 else 1 := by
    simp only [polyw1Bytes, List.length_flatMap, hgroup, List.map_const', List.length_range,
      List.sum_replicate, smul_eq_mul]
  rw [hbytes]
  cases mode <;> rfl

theorem length_polyveckPackW1 (mode : DilithiumMode) (w1 : Vector Poly mode.K) :
    (polyveckPackW1 mode w1).length = mode.K * mode.polyw1PackedBytes :=
  length_vecBytes (length_polyw1Bytes mode) w1

/-- The first bytes of a buffer are those written last. -/
theorem take_storeBytes {size : ℕ} (r : Vector UInt8 size) {bytes : List UInt8}
    (hsize : bytes.length ≤ size) : (storeBytes r 0 bytes).toList.take bytes.length = bytes := by
  refine List.ext_getElem (by simpa using hsize) fun k hk hk' ↦ ?_
  have hcell := getD_storeBytes r 0 bytes (by omega : k < size)
  rw [if_pos (by omega), Nat.sub_zero, List.getD_eq_getElem _ _ hk',
    getD_eq_getElem _ _ (by omega)] at hcell
  rw [List.getElem_take, Vector.getElem_toList, hcell]

theorem signCommit_commits (xof : Xof) (mat : Vector (Vector Poly mode.L) mode.K)
    (mu rhoprime : List UInt8) (nonce : UInt16) (sig : Vector UInt8 (cryptoBytes mode)) :
    Commits xof mat mu (signCommit mode xof mat mu rhoprime nonce sig) := by
  have hfits : mode.K * mode.polyw1PackedBytes ≤ cryptoBytes mode ∧
      mode.ctildeBytes ≤ cryptoBytes mode := by cases mode <;> decide
  let y := polyveclUniformGamma1 mode xof rhoprime nonce
  let w1 := (polyveckDecompose mode (commitW mat y)).1
  have htake : (storeBytes sig 0 (polyveckPackW1 mode w1)).toList.take
      (mode.K * mode.polyw1PackedBytes) = polyveckPackW1 mode w1 := by
    rw [← length_polyveckPackW1 mode w1]
    exact take_storeBytes sig (by rw [length_polyveckPackW1]; exact hfits.1)
  constructor
  · intro j hj k hk
    have hrange := polyUniformGamma1_range mode xof rhoprime
      (UInt16.ofNat mode.L * nonce + UInt16.ofNat j) k hk
    have hy : y[j] = polyUniformGamma1 mode xof rhoprime
        (UInt16.ofNat mode.L * nonce + UInt16.ofNat j) := Vector.getElem_ofFn hj
    show -mode.gamma1.toInt ≤ (y[j][k]).toInt ∧ (y[j][k]).toInt ≤ mode.gamma1.toInt
    rw [hy]
    omega
  · rfl
  · show (storeBytes (storeBytes sig 0 (polyveckPackW1 mode w1)) 0
      (xof.squeeze256 mode.ctildeBytes (mu ++ (storeBytes sig 0
        (polyveckPackW1 mode w1)).toList.take
          (mode.K * mode.polyw1PackedBytes))).toList).toList.take mode.ctildeBytes = _
    rw [htake]
    let ctilde := (xof.squeeze256 mode.ctildeBytes (mu ++ polyveckPackW1 mode w1)).toList
    have hlength : ctilde.length = mode.ctildeBytes := Vector.length_toList
    have hfront : (storeBytes (storeBytes sig 0 (polyveckPackW1 mode w1)) 0 ctilde).toList.take
        ctilde.length = ctilde := take_storeBytes _ (by rw [hlength]; exact hfits.2)
    rw [hlength] at hfront
    exact hfront

/-- A coefficient of `w1` as verification finds it. -/
theorem getD_verifyW1 (mat : Vector (Vector Poly mode.L) mode.K) (cp : Poly)
    (t1 : Vector Poly mode.K) (z : Vector Poly mode.L) (h : Vector Poly mode.K) {i : ℕ}
    (hi : i < mode.K) {k : ℕ} (hk : k < 256) :
    ((verifyW1 mode mat cp t1 z h)[i]).getD k 0 =
      useHint mode ((polyCaddq (invnttTomont (polyReduce (polySub
        (polyveclPointwiseAccMontgomery mat[i] (polyvecNtt z))
        (polyPointwiseMontgomery (ntt cp) (ntt (polyShiftl t1[i]))))))).getD k 0)
        (h[i].getD k 0 != 0) := by
  have helem : (verifyW1 mode mat cp t1 z h)[i] = Vector.zipWith
      (fun a hint ↦ useHint mode a (hint != 0))
      (polyCaddq (invnttTomont (polyReduce (polySub
        (polyveclPointwiseAccMontgomery mat[i] (polyvecNtt z))
        (polyPointwiseMontgomery (ntt cp) (ntt (polyShiftl t1[i]))))))) h[i] := by
    simp only [verifyW1, polyveckUseHint, polyveckCaddq, polyvecInvnttTomont, polyvecReduce,
      polyvecSub, polyvecMatrixPointwiseMontgomery, polyvecPointwisePolyMontgomery, polyvecShiftl,
      polyvecNtt, Vector.getElem_map, Vector.getElem_zipWith]
    rfl
  rw [helem, getD_zipWith_poly _ _ _ hk]

section Attempt

variable {parts : KeyParts mode} {xof : Xof} {fuel : ℕ}
  {pk : Vector UInt8 (cryptoPublickeybytes mode)} {sk : Vector UInt8 (cryptoSecretkeybytes mode)}

/-- The secret vectors of a key pair, transformed. -/
def KeyParts.signing (parts : KeyParts mode) : SigningVectors mode :=
  { s1 := polyvecNtt parts.s1, s2 := polyvecNtt parts.s2, t0 := polyvecNtt parts.t0 }

/-- `z` of an attempt. -/
def respondZ (parts : KeyParts mode) (commit : Commitment mode) (cp : Poly) : Vector Poly mode.L :=
  polyvecReduce (polyvecAdd (polyvecInvnttTomont
    (polyvecPointwisePolyMontgomery (ntt cp) parts.signing.s1)) commit.y)

/-- `w0` of an attempt after the second check. -/
def respondLow (parts : KeyParts mode) (commit : Commitment mode) (cp : Poly) :
    Vector Poly mode.K :=
  polyvecReduce (polyvecSub commit.w0 (polyvecInvnttTomont
    (polyvecPointwisePolyMontgomery (ntt cp) parts.signing.s2)))

/-- `h` of an attempt before the third check. -/
def respondHint (parts : KeyParts mode) (cp : Poly) : Vector Poly mode.K :=
  polyvecReduce (polyvecInvnttTomont
    (polyvecPointwisePolyMontgomery (ntt cp) parts.signing.t0))

/-- An attempt is not rejected if it passes four checks. -/
theorem signRespond_eq_some_iff {commit : Commitment mode} {cp : Poly}
    {sig : Vector UInt8 (cryptoBytes mode)} :
    let z := respondZ parts commit cp
    let hints := polyveckMakeHint mode
      (polyvecAdd (respondLow parts commit cp) (respondHint parts cp)) commit.w1
    signRespond mode parts.signing commit cp = some sig ↔
      polyvecChknorm z (mode.gamma1 - mode.beta) = false ∧
        polyvecChknorm (respondLow parts commit cp) (mode.gamma2 - mode.beta) = false ∧
        polyvecChknorm (respondHint parts cp) mode.gamma2 = false ∧ hints.2 ≤ mode.omega ∧
        sig = packSig mode commit.sig (Vector.ofFn fun i ↦ commit.sig.getD i.val 0) z hints.1 := by
  intro z hints
  have hunfold : signRespond mode parts.signing commit cp =
      if polyvecChknorm z (mode.gamma1 - mode.beta) then none
      else if polyvecChknorm (respondLow parts commit cp) (mode.gamma2 - mode.beta) then none
      else if polyvecChknorm (respondHint parts cp) mode.gamma2 then none
      else if hints.2 > mode.omega then none
      else some (packSig mode commit.sig (Vector.ofFn fun i ↦ commit.sig.getD i.val 0) z
        hints.1) := rfl
  rw [hunfold]
  split_ifs with hz hlow hhint hcount
  · simp [hz]
  · simp [hlow]
  · simp [hhint]
  · simp [hcount]
  · simp only [Option.some.injEq, Bool.eq_false_of_not_eq_true hz,
      Bool.eq_false_of_not_eq_true hlow, Bool.eq_false_of_not_eq_true hhint, Nat.not_lt.mp hcount,
      true_and]
    exact eq_comm

variable (hkey : KeyPair xof fuel pk sk parts)
include hkey

/-- `w` represents `A * y`. -/
theorem represents_commitW {y : Vector Poly mode.L}
    (hy : ∀ j (hj : j < mode.L), (y[j]).CoeffsIn (-mode.gamma1.toInt) mode.gamma1.toInt) {i : ℕ}
    (hi : i < mode.K) :
    Represents (modulusQ - 1) (commitW parts.mat y)[i] (rowProduct parts.mat[i] y).coeffSeq ∧
      ((commitW parts.mat y)[i]).CoeffsIn 0 (modulusQ - 1) := by
  obtain ⟨hL, hsum⟩ := L_range mode
  have hbounds := mode_bounds mode
  have hproduct := represents_rowProduct hL (polyvecMatrixExpand_range hkey.expand i hi) hy
    (by rw [cast_modulusQ]; omega) (by rw [cast_modulusQ] at hsum ⊢; omega)
  have hcell : (commitW parts.mat y)[i] = polyCaddq (invnttTomont (polyReduce
      (polyveclPointwiseAccMontgomery parts.mat[i] (polyvecNtt y)))) := by
    simp only [commitW, polyveckCaddq, polyvecInvnttTomont, polyvecReduce,
      polyvecMatrixPointwiseMontgomery, Vector.getElem_map]
    rfl
  rw [hcell]
  exact hproduct.caddq

variable {commit : Commitment mode} {mu : List UInt8}
  (hcommit : Commits xof parts.mat mu commit) {cp : Poly} (hcp : cp.CoeffsIn (-1) 1)
include hcommit hcp

theorem represents_respondZ {j : ℕ} (hj : j < mode.L) :
    Represents (modulusQ - 1) (respondZ parts commit cp)[j]
      (cp.toRq * parts.s1[j].toRq + commit.y[j].toRq).coeffSeq := by
  have hcell : (respondZ parts commit cp)[j] = polyReduce (polyAdd (invnttTomont
      (polyPointwiseMontgomery (ntt cp) (ntt parts.s1[j]))) commit.y[j]) := by
    simp only [respondZ, KeyParts.signing, polyvecReduce, polyvecAdd, polyvecInvnttTomont,
      polyvecPointwisePolyMontgomery, polyvecNtt, Vector.getElem_map, Vector.getElem_zipWith]
  rw [hcell]
  exact represents_response hkey hcp (hcommit.y_range j hj) hj

omit hkey hcp in
/-- A coefficient of a commitment. -/
theorem commit_cell {i : ℕ} (hi : i < mode.K) {k : ℕ} (hk : k < 256) :
    (commit.w1[i]).getD k 0 = (decompose mode ((commitW parts.mat commit.y)[i].getD k 0)).1 ∧
      (commit.w0[i]).getD k 0 = (decompose mode ((commitW parts.mat commit.y)[i].getD k 0)).2 := by
  obtain ⟨hw1, hw0⟩ := Prod.mk.inj hcommit.parts
  constructor
  · rw [← hw1, Vector.getElem_map, getD_map_poly _ _ hk]
  · rw [← hw0, Vector.getElem_map, getD_map_poly _ _ hk]

/-- The hints lead verification back to `w1`. -/
theorem verifyW1_respond
    (hlowNorm : polyvecChknorm (respondLow parts commit cp) (mode.gamma2 - mode.beta) = false)
    (hhintNorm : polyvecChknorm (respondHint parts cp) mode.gamma2 = false) :
    verifyW1 mode parts.mat cp parts.t1 (respondZ parts commit cp)
      (polyveckMakeHint mode
        (polyvecAdd (respondLow parts commit cp) (respondHint parts cp)) commit.w1).1 =
      commit.w1 := by
  have hbounds := mode_bounds mode
  have hzRange (j : ℕ) (hj : j < mode.L) : ((respondZ parts commit cp)[j]).CoeffsIn
      (-(modulusQ - 1)) (modulusQ - 1) := (represents_respondZ hkey hcommit hcp hj).coeffsIn
  have hzRq (j : ℕ) (hj : j < mode.L) := (represents_respondZ hkey hcommit hcp hj).toRq_eq
  refine Vector.ext fun i hi ↦ ?_
  refine Vector.ext fun k hk ↦ ?_
  rw [← getD_eq_getElem _ 0 hk, ← getD_eq_getElem (commit.w1[i]) 0 hk]
  -- what verification computes
  obtain ⟨hr, hrRange⟩ := (represents_verify hkey hcp hzRange hi).caddq
  have hrCell := hr.cast k hk
  rw [verify_eq hkey hzRq hi, Rq.coeffSeq_sub, Rq.coeffSeq_add] at hrCell
  -- what signing committed to
  obtain ⟨hw, hwRange⟩ := represents_commitW hkey hcommit.y_range hi
  obtain ⟨hw1, hw0⟩ := commit_cell hcommit hi hk
  rw [← hw.cast k hk] at hrCell
  have hw0Short (k : ℕ) (hk : k < 256) : |((commit.w0[i]).getD k 0).toInt| ≤ mode.gamma2.toInt := by
    obtain ⟨-, hw0⟩ := commit_cell hcommit hi hk
    have hcell := hwRange.getD k hk
    have hparts := decompose_parts mode hcell.1 (by omega)
    rw [hw0, abs_le]
    exact hparts.low
  -- the two changes of the low part
  have hlow := represents_low hkey hcp hi hw0Short
  have hlowElem : (respondLow parts commit cp)[i] = polyReduce (polySub commit.w0[i] (invnttTomont
      (polyPointwiseMontgomery (ntt cp) (ntt parts.s2[i])))) := by
    simp only [respondLow, KeyParts.signing, polyvecReduce, polyvecSub, polyvecInvnttTomont,
      polyvecPointwisePolyMontgomery, polyvecNtt, Vector.getElem_map, Vector.getElem_zipWith]
  have hhint := represents_hint_part hkey hcp hi
  have hhintElem : (respondHint parts cp)[i] = polyReduce (invnttTomont
      (polyPointwiseMontgomery (ntt cp) (ntt parts.t0[i]))) := by
    simp only [respondHint, KeyParts.signing, polyvecReduce, polyvecInvnttTomont,
      polyvecPointwisePolyMontgomery, polyvecNtt, Vector.getElem_map]
  rw [← hlowElem] at hlow
  rw [← hhintElem] at hhint
  have hlowShort := coeffsIn_of_polyvecChknorm hlowNorm hi hlow hk
  have hhintShort := coeffsIn_of_polyvecChknorm hhintNorm hi hhint hk
  rw [hbounds.2.2.2.2.2.2] at hlowShort
  have hlowCast := hlow.cast k hk
  rw [hw0] at hlowCast
  have hcell := useHint_response (hwRange.getD k hk) (hrRange.getD k hk) hlowShort hhintShort rfl
    hlowCast (hhint.cast k hk) hrCell
  have hbit (hint : Bool) : ((if hint then (1 : Int32) else 0) != 0) = hint := by
    cases hint <;> rfl
  have hhintCell : ((polyveckMakeHint mode
      (polyvecAdd (respondLow parts commit cp) (respondHint parts cp)) commit.w1).1[i]).getD k 0 =
      if makeHint mode (((respondLow parts commit cp)[i]).getD k 0 +
        ((respondHint parts cp)[i]).getD k 0) ((commit.w1[i]).getD k 0) then 1 else 0 := by
    rw [polyveckMakeHint, Vector.getElem_zipWith, getD_polyMakeHint _ _ hk, polyvecAdd,
      Vector.getElem_zipWith, polyAdd, getD_zipWith_poly _ _ _ hk]
  rw [getD_verifyW1 _ _ _ _ _ hi hk, hhintCell, hbit, hw1]
  exact hcell

end Attempt

end EvMlDsa
