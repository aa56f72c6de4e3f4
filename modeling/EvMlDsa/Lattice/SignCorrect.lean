import EvMlDsa.Lattice.Response

/-!
# Signatures verify

A signature comes from an attempt that passed its checks (`exists_attempt`), and verification hashes
the `w1` of that attempt again, so it finds the same challenge (`KeyPair.verify_sign`). For the keys
of `crypto_sign_keypair` this is the correctness of the whole interface
(`cryptoSignVerify_cryptoSignSignature`, `cryptoSignOpen_cryptoSign`).
-/

set_option autoImplicit false
set_option relaxedAutoImplicit false

namespace EvMlDsa

open Library.FixedArray Library.Rejection

variable {mode : DilithiumMode}

/-! ### Signing and verification -/

/-- A signature comes from an attempt that was not rejected. -/
theorem exists_attempt {xof : Xof} {fuel : ℕ} {mat : Vector (Vector Poly mode.L) mode.K}
    {secret : SigningVectors mode} {mu rhoprime : List UInt8} {attempts : ℕ} {nonce : UInt16}
    {sig sig' : Vector UInt8 (cryptoBytes mode)}
    (hsig : signLoop mode xof fuel mat secret mu rhoprime attempts nonce sig = some sig') :
    ∃ commit cp, Commits xof mat mu commit ∧
      polyChallenge mode xof fuel (commit.sig.toList.take mode.ctildeBytes) = some cp ∧
      signRespond mode secret commit cp = some sig' := by
  induction attempts generalizing nonce sig with
  | zero => exact absurd hsig (by simp [signLoop])
  | succ attempts ih =>
    rw [signLoop, Option.bind_eq_bind, Option.bind_eq_some_iff] at hsig
    obtain ⟨cp, hcp, hresponse⟩ := hsig
    rcases hrespond : signRespond mode secret
      (signCommit mode xof mat mu rhoprime nonce sig) cp with _ | found
    · rw [hrespond] at hresponse
      exact ih hresponse
    · rw [hrespond] at hresponse
      obtain rfl := Option.some.inj hresponse
      exact ⟨_, cp, signCommit_commits xof mat mu rhoprime nonce sig, hcp, hrespond⟩

/-- An attempt reads the challenge from its buffer and nothing else. -/
theorem signRespond_congr {secret : SigningVectors mode} {commit commit' : Commitment mode}
    (hy : commit.y = commit'.y) (hw : (commit.w1, commit.w0) = (commit'.w1, commit'.w0))
    (hc : commit.sig.toList.take mode.ctildeBytes = commit'.sig.toList.take mode.ctildeBytes)
    (cp : Poly) : signRespond mode secret commit cp = signRespond mode secret commit' cp := by
  have hbytes : (Vector.ofFn fun i : Fin mode.ctildeBytes ↦ commit.sig.getD i.val 0) =
      Vector.ofFn fun i : Fin mode.ctildeBytes ↦ commit'.sig.getD i.val 0 := by
    refine Vector.ext fun k hk ↦ ?_
    have hcell := congrArg (List.getD · k 0) hc
    have hfits : mode.ctildeBytes ≤ cryptoBytes mode := by cases mode <;> decide
    have htake (sig : Vector UInt8 (cryptoBytes mode)) :
        (sig.toList.take mode.ctildeBytes).getD k 0 = sig.getD k 0 := by
      rw [List.getD_eq_getElem?_getD, List.getElem?_take_of_lt hk, ← List.getD_eq_getElem?_getD,
        getD_toList]
    simp only [htake] at hcell
    rw [Vector.getElem_ofFn, Vector.getElem_ofFn, hcell]
  obtain ⟨hw1, hw0⟩ := Prod.mk.inj hw
  simp only [signRespond, hy, hw1, hw0, hbytes, packSig_overwrites commit.sig _ commit'.sig]

/-- The signature does not depend on what the buffer held before. -/
theorem signLoop_overwrites (xof : Xof) (fuel : ℕ) (mat : Vector (Vector Poly mode.L) mode.K)
    (secret : SigningVectors mode) (mu rhoprime : List UInt8) (attempts : ℕ) (nonce : UInt16)
    (sig sig' : Vector UInt8 (cryptoBytes mode)) :
    signLoop mode xof fuel mat secret mu rhoprime attempts nonce sig =
      signLoop mode xof fuel mat secret mu rhoprime attempts nonce sig' := by
  induction attempts generalizing nonce sig sig' with
  | zero => rfl
  | succ attempts ih =>
    have hcommit := signCommit_commits xof mat mu rhoprime nonce sig
    have hcommit' := signCommit_commits xof mat mu rhoprime nonce sig'
    have hy : (signCommit mode xof mat mu rhoprime nonce sig).y =
        (signCommit mode xof mat mu rhoprime nonce sig').y := rfl
    have hw := hcommit.parts.symm.trans (hy ▸ hcommit'.parts)
    have hc := hcommit.challenge.trans (((Prod.mk.inj hw).1 ▸ hcommit'.challenge).symm)
    rw [signLoop, signLoop, hc]
    rcases polyChallenge mode xof fuel ((signCommit mode xof mat mu rhoprime nonce
      sig').sig.toList.take mode.ctildeBytes) with _ | cp
    · rfl
    · rw [Option.bind_eq_bind, Option.bind_some, Option.bind_some, signRespond_congr hy hw hc]
      rcases signRespond mode secret (signCommit mode xof mat mu rhoprime nonce sig') cp with
        _ | found
      · exact ih _ _ _
      · rfl

/-- The secret vectors that `crypto_sign_signature_internal` unpacks. -/
theorem KeyPair.sign_eq {parts : KeyParts mode} {xof : Xof} {fuel : ℕ}
    {pk : Vector UInt8 (cryptoPublickeybytes mode)} {sk : Vector UInt8 (cryptoSecretkeybytes mode)}
    (hkey : KeyPair xof fuel pk sk parts) (sig : Vector UInt8 (cryptoBytes mode))
    (m pre rnd : List UInt8) :
    let mu := xof.squeeze256 crhBytes ((xof.squeeze256 trBytes pk.toList).toList ++ pre ++ m)
    cryptoSignSignatureInternal mode xof fuel sig m pre rnd sk =
      signLoop mode xof fuel parts.mat parts.signing mu.toList
        (xof.squeeze256 crhBytes (parts.key.toList ++ rnd ++ mu.toList)).toList fuel 0 sig := by
  intro mu
  rw [cryptoSignSignatureInternal, hkey.unpack_sk]
  simp only [hkey.expand]
  rfl

/-- The conditions under which verification accepts a packed signature. -/
theorem KeyPair.verify_packSig {parts : KeyParts mode} {xof : Xof} {fuel : ℕ}
    {pk : Vector UInt8 (cryptoPublickeybytes mode)} {sk : Vector UInt8 (cryptoSecretkeybytes mode)}
    (hkey : KeyPair xof fuel pk sk parts) (sig : Vector UInt8 (cryptoBytes mode))
    (c : Vector UInt8 mode.ctildeBytes) {z : Vector Poly mode.L} {h : Vector Poly mode.K}
    (hpackable : Packable mode z h) (hnorm : polyvecChknorm z (mode.gamma1 - mode.beta) = false)
    {cp : Poly} (hcp : polyChallenge mode xof fuel c.toList = some cp) (m pre : List UInt8) :
    let mu := xof.squeeze256 crhBytes ((xof.squeeze256 trBytes pk.toList).toList ++ pre ++ m)
    cryptoSignVerifyInternal mode xof fuel (packSig mode sig c z h).toList m pre pk =
      some (if c = xof.squeeze256 mode.ctildeBytes (mu.toList ++
        polyveckPackW1 mode (verifyW1 mode parts.mat cp parts.t1 z h)) then 0 else -1) := by
  intro mu
  have hbuffer : (Vector.ofFn fun i : Fin (cryptoBytes mode) ↦
      (packSig mode sig c z h).toList.getD i.val 0) = packSig mode sig c z h := by
    refine Vector.ext fun k hk ↦ ?_
    rw [Vector.getElem_ofFn, getD_toList, getD_eq_getElem _ _ hk]
  have hlength : ((packSig mode sig c z h).toList.length != cryptoBytes mode) = false := by
    rw [Vector.length_toList, bne_self_eq_false]
  rw [cryptoSignVerifyInternal, hlength]
  simp only [Bool.false_eq_true, if_false, hkey.unpack_pk, hbuffer,
    unpackSig_packSig sig c hpackable, hnorm, hcp, hkey.expand]
  rfl

/-- What is signed with a key pair verifies. -/
theorem KeyPair.verify_sign {parts : KeyParts mode} {xof : Xof} {fuel : ℕ}
    {pk : Vector UInt8 (cryptoPublickeybytes mode)} {sk : Vector UInt8 (cryptoSecretkeybytes mode)}
    (hkey : KeyPair xof fuel pk sk parts) {sig sig' : Vector UInt8 (cryptoBytes mode)}
    {m pre rnd : List UInt8}
    (hsign : cryptoSignSignatureInternal mode xof fuel sig m pre rnd sk = some sig') :
    cryptoSignVerifyInternal mode xof fuel sig'.toList m pre pk = some 0 := by
  rw [hkey.sign_eq] at hsign
  obtain ⟨commit, cp, hcommit, hchallenge, hrespond⟩ := exists_attempt hsign
  have hternary : cp.CoeffsIn (-1) 1 := by
    rw [polyChallenge_eq] at hchallenge
    exact (sampleInBall_weight (by cases mode <;> decide) hchallenge).1
  obtain ⟨hzNorm, hlowNorm, hhintNorm, hcount, hpacked⟩ := signRespond_eq_some_iff.mp hrespond
  have hbounds := mode_bounds mode
  have hpackable : Packable mode (respondZ parts commit cp) (polyveckMakeHint mode
      (polyvecAdd (respondLow parts commit cp) (respondHint parts cp)) commit.w1).1 := by
    refine ⟨fun j hj k hk ↦ ?_, fun i hi ↦ ?_, ?_⟩
    · have hshort := coeffsIn_of_polyvecChknorm hzNorm hj
        (represents_respondZ hkey hcommit hternary hj) hk
      rw [hbounds.2.2.2.2.2.1, abs_lt, getD_eq_getElem _ _ hk] at hshort
      omega
    · rw [polyveckMakeHint, Vector.getElem_zipWith]
      exact polyMakeHint_coeffsIn _ _
    · rw [← polyveckMakeHint_count]
      exact hcount
  -- the challenge that is packed is the one in front of the buffer
  have hfits : mode.ctildeBytes ≤ cryptoBytes mode := by cases mode <;> decide
  have hc : (Vector.ofFn fun i : Fin mode.ctildeBytes ↦ commit.sig.getD i.val 0).toList =
      commit.sig.toList.take mode.ctildeBytes := by
    refine List.ext_getElem (by simpa using hfits) fun k hk hk' ↦ ?_
    have hlt : k < cryptoBytes mode := by
      rw [Vector.length_toList] at hk
      omega
    rw [Vector.getElem_toList, Vector.getElem_ofFn, List.getElem_take, Vector.getElem_toList,
      getD_eq_getElem _ _ hlt]
  have hverify := hkey.verify_packSig commit.sig _ hpackable hzNorm (by rw [hc]; exact hchallenge)
    m pre
  rw [hpacked, hverify, verifyW1_respond hkey hcommit hternary hlowNorm hhintNorm, if_pos]
  rw [← Vector.toList_inj, hc, hcommit.challenge]

/-! ### The interface -/

section Outputs

variable {xof : Xof} {fuel : ℕ} {sig : Vector UInt8 (cryptoBytes mode)} {siglen : UInt64}
  {m ctx : List UInt8} {rnd : Vector UInt8 rndBytes}
  {sk : Vector UInt8 (cryptoSecretkeybytes mode)}

/-- The return code of signing and the length it stores. -/
theorem cryptoSignSignature_code {out : SignatureOutput mode}
    (hsign : cryptoSignSignature mode xof fuel sig siglen m ctx rnd sk = some out) :
    out.ret = (if ctx.length > 255 then -1 else 0) ∧
      out.siglen = if ctx.length > 255 then siglen else UInt64.ofNat (cryptoBytes mode) := by
  rw [cryptoSignSignature] at hsign
  split_ifs at hsign ⊢ with hctx
  · rw [← Option.some.inj hsign]
    exact ⟨rfl, rfl⟩
  · obtain ⟨found, -, rfl⟩ := Option.map_eq_some_iff.mp hsign
    exact ⟨rfl, rfl⟩

/-- Nothing of the former contents of the buffer and of `*siglen` is left. -/
theorem cryptoSignSignature_overwrites (hctx : ctx.length ≤ 255)
    (sig' : Vector UInt8 (cryptoBytes mode)) (siglen' : UInt64) :
    cryptoSignSignature mode xof fuel sig siglen m ctx rnd sk =
      cryptoSignSignature mode xof fuel sig' siglen' m ctx rnd sk := by
  rw [cryptoSignSignature, cryptoSignSignature, if_neg (Nat.not_lt.mpr hctx),
    if_neg (Nat.not_lt.mpr hctx), cryptoSignSignatureInternal, cryptoSignSignatureInternal]
  simp only [signLoop_overwrites xof fuel _ _ _ _ fuel 0 sig sig']

end Outputs

section Interface

variable {xof : Xof} {fuel more : ℕ} {pk : Vector UInt8 (cryptoPublickeybytes mode)}
  {sk : Vector UInt8 (cryptoSecretkeybytes mode)} {parts : KeyParts mode}

/-- Verification of a fresh signature returns what signing returned. -/
theorem KeyPair.verify_signature (hkey : KeyPair xof fuel pk sk parts)
    {sig : Vector UInt8 (cryptoBytes mode)} {siglen : UInt64} {m ctx : List UInt8}
    {rnd : Vector UInt8 rndBytes} {out : SignatureOutput mode}
    (hsign : cryptoSignSignature mode xof fuel sig siglen m ctx rnd sk = some out)
    (hmore : fuel ≤ more) :
    cryptoSignVerify mode xof more out.sig.toList m ctx pk = some out.ret := by
  refine cryptoSignVerify_mono ?_ hmore
  rw [cryptoSignSignature] at hsign
  rw [cryptoSignVerify]
  split_ifs at hsign ⊢ with hctx
  · obtain rfl := Option.some.inj hsign
    rfl
  · obtain ⟨found, hfound, rfl⟩ := Option.map_eq_some_iff.mp hsign
    exact hkey.verify_sign hfound

/-- `crypto_sign_open` undoes `crypto_sign`. -/
theorem KeyPair.open_sign (hkey : KeyPair xof fuel pk sk parts)
    {sm : Vector UInt8 (cryptoBytes mode)} {smlen : UInt64} {m ctx : List UInt8}
    {rnd : Vector UInt8 rndBytes} {signed : SignedMessage}
    (hsign : cryptoSign mode xof fuel sm smlen m ctx rnd sk = some signed) (hmore : fuel ≤ more) :
    cryptoSignOpen mode xof more signed.sm ctx pk =
      some (if signed.ret = 0 then { ret := 0, m := m, mlen := UInt64.ofNat m.length }
        else .badsig (cryptoBytes mode + m.length)) := by
  obtain ⟨out, hsignature, rfl⟩ := Option.map_eq_some_iff.mp hsign
  have hlength : out.sig.toList.length = cryptoBytes mode := Vector.length_toList
  have hall : (out.sig.toList ++ m).length = cryptoBytes mode + m.length := by
    rw [List.length_append, hlength]
  have hverify := hkey.verify_signature hsignature hmore
  rw [cryptoSignOpen, hall, if_neg (by omega)]
  simp only [List.take_left' hlength, List.drop_left' hlength, hverify, Option.map_some,
    Nat.add_sub_cancel_left]
  by_cases hret : out.ret = 0
  · rw [if_neg (by simpa using hret), if_pos hret]
  · rw [if_pos (by simpa using hret), if_neg hret]

end Interface

/-! ### Constant output functions

Output functions for which everything can be followed: the matrix and the secret vectors are zero,
and the first mask is short enough.
-/

/-- Output functions that deliver one byte over and over. -/
def constantXof : Xof where
  shake128 _ _ := 0
  shake256 _ _ := 0x22

theorem firstCoeffs_zero {coeffs : List Int32} (hlength : 256 ≤ coeffs.length)
    (hzero : ∀ x ∈ coeffs, x = 0) : firstCoeffs coeffs = some zeroPoly := by
  rw [firstCoeffs, if_neg (Nat.not_lt.mpr hlength)]
  refine congrArg some (Vector.ext fun k hk ↦ ?_)
  have hlt : k < (coeffs.take 256).length := by
    rw [List.length_take]
    omega
  rw [polyOfList, Vector.getElem_ofFn, List.getD_eq_getElem _ _ hlt, Vector.getElem_replicate]
  exact hzero _ (List.mem_of_mem_take (List.getElem_mem hlt))

theorem polyUniform_constantXof (fuel : ℕ) (seed : List UInt8) (nonce : UInt16) :
    polyUniform constantXof fuel seed nonce = some zeroPoly := by
  have hcoeffs (k : ℕ) : uniformCoeffsAt (stream128Init constantXof seed nonce) k = [0] := by
    show uniformCoeffsAt (fun _ ↦ 0) 0 = [0]
    decide
  rw [polyUniform_eq]
  apply firstCoeffs_zero
  · simp only [List.length_flatMap, hcoeffs, List.length_singleton, List.map_const',
      List.length_range', List.sum_replicate, smul_eq_mul, mul_one]
    omega
  · intro x hx
    obtain ⟨k, -, hk⟩ := List.mem_flatMap.mp hx
    rw [hcoeffs] at hk
    exact List.mem_singleton.mp hk

theorem polyUniformEta_constantXof (fuel : ℕ) (seed : List UInt8) (nonce : UInt16) :
    polyUniformEta .two constantXof fuel seed nonce = some zeroPoly := by
  have hcoeffs (k : ℕ) :
      etaCoeffsAt .two (stream256Init constantXof seed nonce) k = [0, 0] := by
    show etaCoeffsAt .two (fun _ ↦ 0x22) 0 = [0, 0]
    decide
  have hnblocks : DilithiumMode.two.polyUniformEtaNblocks = 1 := rfl
  rw [polyUniformEta_eq, hnblocks]
  apply firstCoeffs_zero
  · simp only [List.length_flatMap, hcoeffs, List.length_cons, List.length_nil, List.map_const',
      List.length_range', List.sum_replicate, smul_eq_mul]
    omega
  · intro x hx
    obtain ⟨k, -, hk⟩ := List.mem_flatMap.mp hx
    rw [hcoeffs] at hk
    simpa using hk

/-- The parts of a key pair with these output functions. -/
def constantParts (rho key : Vector UInt8 seedBytes) : KeyParts .two :=
  .ofSamples rho key (Vector.replicate _ (Vector.replicate _ zeroPoly))
    (Vector.replicate _ zeroPoly) (Vector.replicate _ zeroPoly)

theorem expand_constantXof (fuel : ℕ) (rho : List UInt8) :
    polyvecMatrixExpand .two constantXof fuel rho =
      some (Vector.replicate _ (Vector.replicate _ zeroPoly)) := by
  rw [polyvecMatrixExpand, collect_eq_some_iff]
  intro i hi
  rw [collect_eq_some_iff]
  intro j hj
  rw [polyUniform_constantXof, Vector.getElem_replicate, Vector.getElem_replicate]

theorem uniformEta_constantXof (count fuel : ℕ) (seed : List UInt8) (nonce : UInt16) :
    polyvecUniformEta .two count constantXof fuel seed nonce =
      some (Vector.replicate _ zeroPoly) := by
  rw [polyvecUniformEta, collect_eq_some_iff]
  intro i hi
  rw [polyUniformEta_constantXof, Vector.getElem_replicate]

theorem constantXof_keyPair (fuel : ℕ) (seed : Vector UInt8 seedBytes)
    (pk : Vector UInt8 (cryptoPublickeybytes .two))
    (sk : Vector UInt8 (cryptoSecretkeybytes .two)) :
    ∃ keys rho key, cryptoSignKeypair .two constantXof fuel seed pk sk = some keys ∧
      KeyPair constantXof fuel keys.1 keys.2 (constantParts rho key) := by
  obtain ⟨rho, key, heq⟩ := cryptoSignKeypair_eq .two constantXof fuel seed pk sk
  have hzero (count i : ℕ) (hi : i < count) :
      ((Vector.replicate count zeroPoly)[i]).CoeffsIn (-DilithiumMode.two.eta.toInt)
        DilithiumMode.two.eta.toInt := by
    rw [Vector.getElem_replicate]
    intro k hk
    rw [Vector.getElem_replicate]
    decide
  have hpacked :=
    packKeys_keyPair key (expand_constantXof fuel rho.toList) (hzero _) (hzero _) pk sk
  refine ⟨_, rho, key, ?_, hpacked⟩
  rw [heq]
  simp only [expand_constantXof, uniformEta_constantXof, Option.bind_eq_bind, Option.bind_some]

theorem polyAdd_zeroPoly (a : Poly) : polyAdd zeroPoly a = a := by
  refine Vector.ext fun k hk ↦ ?_
  rw [polyAdd, Vector.getElem_zipWith, Vector.getElem_replicate, Int32.zero_add]

/-- A reduction leaves short polynomials as they are. -/
theorem polyReduce_of_short {a : Poly} (ha : ∀ k < 256, |(a.getD k 0).toInt| < 2 ^ 22) :
    polyReduce a = a := by
  refine Vector.ext fun k hk ↦ ?_
  have hshort := abs_lt.mp (ha k hk)
  rw [getD_eq_getElem _ _ hk] at hshort
  rw [polyReduce, Vector.getElem_map, ← Int32.toInt_inj, toInt_reduce32 (by omega)]
  have hquotient : (a[k].toInt + 2 ^ 22) / 2 ^ 23 = 0 := by omega
  rw [hquotient, zero_mul, sub_zero]

theorem zeroPoly_short (k : ℕ) : |(zeroPoly.getD k 0).toInt| < 2 ^ 22 := by
  rw [getD_zeroPoly]
  decide

theorem invntt_pointwise_zeroPoly {cp : Poly} (hcp : cp.CoeffsIn (-1) 1) :
    invnttTomont (polyPointwiseMontgomery (ntt cp) (ntt zeroPoly)) = zeroPoly := by
  have hzero : zeroPoly.CoeffsIn (-0) 0 := by
    intro k hk
    rw [Vector.getElem_replicate]
    decide
  have hproduct := represents_challenge_mul hcp hzero (by decide)
  rw [toRq_zeroPoly, mul_zero] at hproduct
  exact hproduct.eq_zero

/-- A row of zeros times a vector. -/
theorem invntt_rowProduct_zero {v : Vector Poly DilithiumMode.two.L}
    (hv : ∀ j (hj : j < DilithiumMode.two.L), (v[j]).CoeffsIn (-2 ^ 19) (2 ^ 19)) :
    invnttTomont (polyReduce (polyveclPointwiseAccMontgomery
      (Vector.replicate DilithiumMode.two.L zeroPoly) (polyvecNtt v))) = zeroPoly := by
  have hrow : ∀ j (hj : j < DilithiumMode.two.L),
      ((Vector.replicate DilithiumMode.two.L zeroPoly)[j]).CoeffsIn 0 (modulusQ - 1) := by
    intro j hj k hk
    rw [Vector.getElem_replicate, Vector.getElem_replicate]
    decide
  have hproduct := represents_rowProduct (by decide) hrow hv (by decide) (by decide)
  have hzero : rowProduct (Vector.replicate DilithiumMode.two.L zeroPoly) v = 0 := by
    rw [rowProduct]
    refine Finset.sum_eq_zero fun j hj ↦ ?_
    rw [getD_eq_getElem _ _ (Finset.mem_range.mp hj), Vector.getElem_replicate, ofNtt_zeroPoly,
      zero_mul]
  rw [hzero] at hproduct
  exact hproduct.eq_zero

theorem constantParts_t0 (rho key : Vector UInt8 seedBytes) :
    (constantParts rho key).t0 = Vector.replicate _ zeroPoly := by
  have hzero : ∀ j (hj : j < DilithiumMode.two.L),
      ((Vector.replicate DilithiumMode.two.L zeroPoly)[j]).CoeffsIn (-2 ^ 19) (2 ^ 19) := by
    intro j hj k hk
    rw [Vector.getElem_replicate, Vector.getElem_replicate]
    decide
  refine Vector.ext fun i hi ↦ ?_
  have hcell : ((constantParts rho key).t0)[i] = ((polyAdd (invnttTomont (polyReduce
      (polyveclPointwiseAccMontgomery (Vector.replicate DilithiumMode.two.L zeroPoly)
        (polyvecNtt (Vector.replicate DilithiumMode.two.L zeroPoly))))) zeroPoly).map caddq).map
          fun a ↦ (power2round a).2 := by
    simp only [constantParts, KeyParts.ofSamples, polyveckPower2round, keyT, polyveckCaddq,
      polyveckAdd, polyvecInvnttTomont, polyvecReduce, polyvecMatrixPointwiseMontgomery,
      Vector.getElem_map, Vector.getElem_zipWith, Vector.getElem_replicate]
    rfl
  have hround : (power2round (caddq 0)).2 = 0 := by decide
  rw [hcell, invntt_rowProduct_zero hzero, polyAdd_zeroPoly, Vector.getElem_replicate, zeroPoly,
    Vector.map_replicate, Vector.map_replicate, hround]

/-- The mask: four codes over and over. -/
theorem mask_short (rhoprime : List UInt8) (nonce : UInt16) {j : ℕ}
    (hj : j < DilithiumMode.two.L) {k : ℕ} (hk : k < 256) :
    |(((polyveclUniformGamma1 .two constantXof rhoprime nonce)[j]).getD k 0).toInt| < 130994 := by
  have hmask : (polyveclUniformGamma1 .two constantXof rhoprime nonce)[j] =
      polyzUnpack .two fun _ ↦ 0x22 := by
    rw [polyveclUniformGamma1, Vector.getElem_ofFn, polyUniformGamma1_eq]
    rfl
  have hlist : polyzCodes .two (fun _ ↦ 0x22) 0 = [0x22222, 0x08888, 0x22222, 0x08888] := by decide
  have hcodes : ∀ code ∈ polyzCodes .two (fun _ ↦ 0x22) 0,
      |(DilithiumMode.two.gamma1 - code.toInt32).toInt| < 130994 := by
    have hfirst : (DilithiumMode.two.gamma1 - (0x22222 : UInt32).toInt32).toInt = -8738 := by decide
    have hsecond : (DilithiumMode.two.gamma1 - (0x08888 : UInt32).toInt32).toInt = 96120 := by
      decide
    rw [hlist]
    intro code hcode
    simp only [List.mem_cons, List.not_mem_nil, or_false] at hcode
    rcases hcode with rfl | rfl | rfl | rfl
    · rw [hfirst]; norm_num
    · rw [hsecond]; norm_num
    · rw [hfirst]; norm_num
    · rw [hsecond]; norm_num
  have hdiv := Nat.div_add_mod k 4
  have hmod : k % 4 < (polyzCodes .two (fun _ ↦ 0x22) (k / 4)).length := Nat.mod_lt k (by decide)
  have hcell := getD_polyzUnpack .two (fun _ ↦ 0x22) (i := k / 4) (j := k % 4)
    (Nat.mod_lt k (by decide)) (by show 4 * (k / 4) + k % 4 < 256; omega)
  have hindex : DilithiumMode.two.polyzGroupCoeffs * (k / 4) + k % 4 = k := hdiv
  rw [hindex, List.getD_eq_getElem _ _ hmod] at hcell
  rw [hmask, hcell]
  exact hcodes _ (List.getElem_mem hmod)

theorem polyChallenge_constantXof (fuel : ℕ) (seed : List UInt8) :
    ∃ cp, polyChallenge .two constantXof (fuel + 1) seed = some cp := by
  have hround : ∀ i ∈ List.range' 217 39, ∀ s,
      ∃ s', sampleRound 39 (constantXof.shake256 seed) (fuel + 1) s i = some s' := by
    intro i hi s
    have hi := (List.mem_range'_1.mp hi).1
    have hbyte : ¬(constantXof.shake256 seed s.2).toNat > i := by
      show ¬34 > i
      omega
    rw [sampleRound, scan, if_neg hbyte]
    exact ⟨_, rfl⟩
  obtain ⟨s, hs⟩ := exists_foldlM hround (zeroPoly, 8)
  refine ⟨s.1, ?_⟩
  rw [polyChallenge_eq, sampleInBall]
  exact congrArg (Option.map Prod.fst) hs

theorem polyvecChknorm_of_short {count : ℕ} {v : Vector Poly count} {bound : Int32}
    (hbound : bound.toInt ≤ 1047552)
    (hv : ∀ i (hi : i < count), ∀ k < 256, |(v[i].getD k 0).toInt| < bound.toInt) :
    polyvecChknorm v bound = false := by
  have hlimit : ¬bound > (dilithiumQ - 1) / 8 := by
    have hvalue : ((dilithiumQ - 1) / 8).toInt = 1047552 := by decide
    rw [gt_iff_lt, Int32.lt_iff_toInt_lt, hvalue]
    omega
  refine List.any_eq_false.mpr fun a ha ↦ ?_
  obtain ⟨i, hi, rfl⟩ := Vector.mem_iff_getElem.mp (Vector.mem_toList_iff.mp ha)
  rw [polyChknorm, if_neg hlimit, Bool.not_eq_true, List.any_eq_false]
  intro x hx
  obtain ⟨k, hk, rfl⟩ := Vector.mem_iff_getElem.mp (Vector.mem_toList_iff.mp hx)
  have hshort := hv i hi k hk
  rw [getD_eq_getElem _ _ hk] at hshort
  have hrange := abs_lt.mp hshort
  have habs := toInt_chknorm_abs (x := v[i][k]) (by omega) (by omega)
  simp only [ge_iff_le, decide_eq_true_eq, Int32.not_le, Int32.lt_iff_toInt_lt, habs]
  exact hshort

theorem polyveckMakeHint_zero :
    (polyveckMakeHint .two (Vector.replicate DilithiumMode.two.K zeroPoly)
      (Vector.replicate DilithiumMode.two.K zeroPoly)).2 = 0 := by
  have hcount : (polyMakeHint .two zeroPoly zeroPoly).2 = 0 := by
    rw [polyMakeHint_count, hintPositions, List.length_map, List.length_eq_zero_iff,
      List.filter_eq_nil_iff]
    intro k hk
    rw [getD_polyMakeHint _ _ (List.mem_range.mp hk), getD_zeroPoly]
    decide
  refine List.foldlRecOn (motive := (· = 0)) _ _ rfl fun s hs i hi ↦ ?_
  have hlt := List.mem_range.mp hi
  rw [hs, getD_eq_getElem _ _ hlt, Vector.getElem_replicate, hcount]

section FirstAttempt

variable (rho key : Vector UInt8 seedBytes) {commit : Commitment .two} {cp : Poly}

/-- The secret vectors are zero, so `w` is zero. -/
theorem commitW_constantParts {y : Vector Poly DilithiumMode.two.L}
    (hy : ∀ j (hj : j < DilithiumMode.two.L),
      (y[j]).CoeffsIn (-DilithiumMode.two.gamma1.toInt) DilithiumMode.two.gamma1.toInt) :
    commitW (constantParts rho key).mat y = Vector.replicate _ zeroPoly := by
  refine Vector.ext fun i hi ↦ ?_
  have hcell : (commitW (constantParts rho key).mat y)[i] =
      polyCaddq (invnttTomont (polyReduce (polyveclPointwiseAccMontgomery
        (Vector.replicate DilithiumMode.two.L zeroPoly) (polyvecNtt y)))) := by
    simp only [commitW, polyveckCaddq, polyvecInvnttTomont, polyvecReduce,
      polyvecMatrixPointwiseMontgomery, Vector.getElem_map, constantParts, KeyParts.ofSamples,
      Vector.getElem_replicate]
    rfl
  have hcaddq : caddq 0 = 0 := by decide
  rw [hcell, invntt_rowProduct_zero fun j hj k hk ↦ ?_, Vector.getElem_replicate, polyCaddq,
    zeroPoly, Vector.map_replicate, hcaddq]
  have hrange := hy j hj k hk
  have hgamma : DilithiumMode.two.gamma1.toInt = 131072 := by decide
  omega

/-- Both parts of `w` are zero. -/
theorem Commits.constantParts_zero {mu : List UInt8}
    (hcommit : Commits constantXof (constantParts rho key).mat mu commit) :
    commit.w1 = Vector.replicate _ zeroPoly ∧ commit.w0 = Vector.replicate _ zeroPoly := by
  have hw := commitW_constantParts rho key hcommit.y_range
  have hdecompose : (decompose .two 0).1 = 0 ∧ (decompose .two 0).2 = 0 := by decide
  constructor
  · rw [← (Prod.mk.inj hcommit.parts).1, hw, Vector.map_replicate, zeroPoly, Vector.map_replicate,
      hdecompose.1]
  · rw [← (Prod.mk.inj hcommit.parts).2, hw, Vector.map_replicate, zeroPoly, Vector.map_replicate,
      hdecompose.2]

variable (hcp : cp.CoeffsIn (-1) 1)
include hcp

/-- The response is the mask. -/
theorem respondZ_constantParts
    (hy : ∀ j (hj : j < DilithiumMode.two.L), ∀ k < 256,
      |((commit.y)[j].getD k 0).toInt| < 2 ^ 22) :
    respondZ (constantParts rho key) commit cp = commit.y := by
  refine Vector.ext fun j hj ↦ ?_
  have hcell : (respondZ (constantParts rho key) commit cp)[j] =
      polyReduce (polyAdd (invnttTomont (polyPointwiseMontgomery (ntt cp) (ntt zeroPoly)))
        commit.y[j]) := by
    simp only [respondZ, KeyParts.signing, polyvecReduce, polyvecAdd, polyvecInvnttTomont,
      polyvecPointwisePolyMontgomery, polyvecNtt, Vector.getElem_map, Vector.getElem_zipWith,
      constantParts, KeyParts.ofSamples, Vector.getElem_replicate]
  rw [hcell, invntt_pointwise_zeroPoly hcp, polyAdd_zeroPoly]
  exact polyReduce_of_short (hy j hj)

theorem respondLow_constantParts (hw0 : commit.w0 = Vector.replicate _ zeroPoly) :
    respondLow (constantParts rho key) commit cp = Vector.replicate _ zeroPoly := by
  refine Vector.ext fun i hi ↦ ?_
  have hcell : (respondLow (constantParts rho key) commit cp)[i] =
      polyReduce (polySub zeroPoly (invnttTomont (polyPointwiseMontgomery (ntt cp)
        (ntt zeroPoly)))) := by
    simp only [respondLow, KeyParts.signing, polyvecReduce, polyvecSub, polyvecInvnttTomont,
      polyvecPointwisePolyMontgomery, polyvecNtt, Vector.getElem_map, Vector.getElem_zipWith,
      constantParts, KeyParts.ofSamples, Vector.getElem_replicate, hw0]
  have hsub : (0 : Int32) - 0 = 0 := by decide
  rw [hcell, invntt_pointwise_zeroPoly hcp, polySub, zeroPoly, Vector.zipWith_replicate, hsub,
    Vector.getElem_replicate]
  exact polyReduce_of_short fun k _ ↦ zeroPoly_short k

theorem respondHint_constantParts :
    respondHint (constantParts rho key) cp = Vector.replicate _ zeroPoly := by
  refine Vector.ext fun i hi ↦ ?_
  have hcell : (respondHint (constantParts rho key) cp)[i] =
      polyReduce (invnttTomont (polyPointwiseMontgomery (ntt cp) (ntt zeroPoly))) := by
    simp only [respondHint, KeyParts.signing, polyvecReduce, polyvecInvnttTomont,
      polyvecPointwisePolyMontgomery, polyvecNtt, Vector.getElem_map, constantParts_t0,
      Vector.getElem_replicate]
  rw [hcell, invntt_pointwise_zeroPoly hcp, Vector.getElem_replicate]
  exact polyReduce_of_short fun k _ ↦ zeroPoly_short k

/-- The first attempt passes all checks. -/
theorem signRespond_constantXof (mu rhoprime : List UInt8) (nonce : UInt16)
    (sig : Vector UInt8 (cryptoBytes .two)) :
    let commit := signCommit .two constantXof (constantParts rho key).mat mu rhoprime nonce sig
    ∃ sig', signRespond .two (constantParts rho key).signing commit cp = some sig' := by
  intro commit
  obtain ⟨hw1, hw0⟩ := Commits.constantParts_zero rho key
    (signCommit_commits constantXof _ mu rhoprime nonce sig)
  have hzero (count : ℕ) : ∀ i (hi : i < count), ∀ k < 256,
      |((Vector.replicate count zeroPoly)[i].getD k 0).toInt| < 2 ^ 16 := by
    intro i hi k hk
    rw [Vector.getElem_replicate, getD_zeroPoly]
    decide
  have hy : ∀ j (hj : j < DilithiumMode.two.L), ∀ k < 256,
      |((commit.y)[j].getD k 0).toInt| < 130994 := fun j hj k hk ↦ mask_short rhoprime nonce hj hk
  have hz : respondZ (constantParts rho key) commit cp = commit.y :=
    respondZ_constantParts rho key hcp fun j hj k hk ↦ lt_trans (hy j hj k hk) (by decide)
  have hlow := respondLow_constantParts rho key hcp hw0
  have hhint := respondHint_constantParts rho key hcp
  have hsum : polyvecAdd (Vector.replicate DilithiumMode.two.K zeroPoly)
      (Vector.replicate DilithiumMode.two.K zeroPoly) = Vector.replicate _ zeroPoly := by
    rw [polyvecAdd, Vector.zipWith_replicate, polyAdd_zeroPoly]
  refine ⟨_, signRespond_eq_some_iff.mpr ⟨?_, ?_, ?_, ?_, rfl⟩⟩
  · rw [hz]
    have hbound : (DilithiumMode.two.gamma1 - DilithiumMode.two.beta).toInt = 130994 := by decide
    exact polyvecChknorm_of_short (by rw [hbound]; decide) (by rw [hbound]; exact hy)
  · rw [hlow]
    have hbound : (DilithiumMode.two.gamma2 - DilithiumMode.two.beta).toInt = 95154 := by decide
    exact polyvecChknorm_of_short (by rw [hbound]; decide)
      fun i hi k hk ↦ lt_trans (hzero _ i hi k hk) (by rw [hbound]; decide)
  · rw [hhint]
    have hbound : DilithiumMode.two.gamma2.toInt = 95232 := by decide
    exact polyvecChknorm_of_short (by rw [hbound]; decide)
      fun i hi k hk ↦ lt_trans (hzero _ i hi k hk) (by rw [hbound]; decide)
  · rw [hlow, hhint, hsum, hw1, polyveckMakeHint_zero]
    exact Nat.zero_le _

end FirstAttempt

/-- With these output functions every message is signed in the first attempt. -/
theorem exists_signLoop (rho key : Vector UInt8 seedBytes) (mu rhoprime : List UInt8)
    (fuel attempts : ℕ) (nonce : UInt16) (sig : Vector UInt8 (cryptoBytes .two)) :
    ∃ sig', signLoop .two constantXof (fuel + 1) (constantParts rho key).mat
      (constantParts rho key).signing mu rhoprime (attempts + 1) nonce sig = some sig' := by
  obtain ⟨cp, hcp⟩ := polyChallenge_constantXof fuel
    ((signCommit .two constantXof (constantParts rho key).mat mu rhoprime nonce sig).sig.toList.take
      DilithiumMode.two.ctildeBytes)
  have hternary : cp.CoeffsIn (-1) 1 := by
    rw [polyChallenge_eq] at hcp
    exact (sampleInBall_weight (by decide) hcp).1
  obtain ⟨sig', hsig'⟩ := signRespond_constantXof rho key hternary mu rhoprime nonce sig
  refine ⟨sig', ?_⟩
  rw [signLoop, Option.bind_eq_bind, Option.bind_eq_some_iff]
  refine ⟨cp, hcp, ?_⟩
  rw [hsig']

theorem sign_constantXof {fuel : ℕ} {pk : Vector UInt8 (cryptoPublickeybytes .two)}
    {sk : Vector UInt8 (cryptoSecretkeybytes .two)} {rho key : Vector UInt8 seedBytes}
    (hkey : KeyPair constantXof (fuel + 1) pk sk (constantParts rho key))
    (sig : Vector UInt8 (cryptoBytes .two)) (siglen : UInt64) (m : List UInt8) {ctx : List UInt8}
    (hctx : ctx.length ≤ 255) (rnd : Vector UInt8 rndBytes) :
    ∃ out, cryptoSignSignature .two constantXof (fuel + 1) sig siglen m ctx rnd sk = some out := by
  let mu := constantXof.squeeze256 crhBytes
    ((constantXof.squeeze256 trBytes pk.toList).toList ++ contextPrefix ctx ++ m)
  obtain ⟨sig', hsig'⟩ := exists_signLoop rho key mu.toList
    (constantXof.squeeze256 crhBytes (key.toList ++ rnd.toList ++ mu.toList)).toList fuel fuel 0 sig
  have hsign := (hkey.sign_eq sig m (contextPrefix ctx) rnd.toList).trans hsig'
  refine ⟨{ ret := 0, sig := sig', siglen := UInt64.ofNat (cryptoBytes .two) }, ?_⟩
  rw [cryptoSignSignature, if_neg (Nat.not_lt.mpr hctx), hsign]
  rfl

/-! ### Correctness -/

/-- A key pair of `crypto_sign_keypair`, a message signed with it under any context string and with
any randomness, and the verification of the signature: signing returns 0 and stores `CRYPTO_BYTES`
to `*siglen`, or returns -1 and stores nothing if the context string is too long, and verification
returns the same code. -/
theorem cryptoSignVerify_cryptoSignSignature (mode : DilithiumMode) (xof : Xof)
    {fuel fuel' more : ℕ} {seed : Vector UInt8 seedBytes}
    {pk : Vector UInt8 (cryptoPublickeybytes mode)} {sk : Vector UInt8 (cryptoSecretkeybytes mode)}
    {keys : Vector UInt8 (cryptoPublickeybytes mode) × Vector UInt8 (cryptoSecretkeybytes mode)}
    (hkeys : cryptoSignKeypair mode xof fuel seed pk sk = some keys)
    {sig : Vector UInt8 (cryptoBytes mode)} {siglen : UInt64} {m ctx : List UInt8}
    {rnd : Vector UInt8 rndBytes} {out : SignatureOutput mode}
    (hsign : cryptoSignSignature mode xof fuel' sig siglen m ctx rnd keys.2 = some out)
    (hfuel : fuel ≤ more) (hfuel' : fuel' ≤ more) :
    out.ret = (if ctx.length > 255 then -1 else 0) ∧
      out.siglen = (if ctx.length > 255 then siglen else UInt64.ofNat (cryptoBytes mode)) ∧
      cryptoSignVerify mode xof more out.sig.toList m ctx keys.1 = some out.ret := by
  obtain ⟨hret, hsiglen⟩ := cryptoSignSignature_code hsign
  obtain ⟨parts, hkey⟩ := cryptoSignKeypair_keyPair (cryptoSignKeypair_mono hkeys hfuel)
  exact ⟨hret, hsiglen, hkey.verify_signature (cryptoSignSignature_mono hsign hfuel') le_rfl⟩

/-- A message signed under a context string of one byte, with bytes of ones as the randomness. -/
theorem cryptoSignVerify_cryptoSignSignature_constant :
    ∃ (keys : Vector UInt8 (cryptoPublickeybytes .two) × Vector UInt8 (cryptoSecretkeybytes .two))
      (out : SignatureOutput .two),
      cryptoSignKeypair .two constantXof 1 (Vector.replicate _ 0) (Vector.replicate _ 0)
        (Vector.replicate _ 0) = some keys ∧
      cryptoSignSignature .two constantXof 1 (Vector.replicate _ 0) 0 [1, 2, 3] [7]
        (Vector.replicate _ 255) keys.2 = some out ∧
      cryptoSignVerify .two constantXof 2 out.sig.toList [1, 2, 3] [7] keys.1 = some 0 := by
  have hctx : ([7] : List UInt8).length ≤ 255 := by decide
  obtain ⟨keys, rho, key, hkeys, hkey⟩ := constantXof_keyPair 1 (Vector.replicate _ 0)
    (Vector.replicate _ 0) (Vector.replicate _ 0)
  obtain ⟨out, hout⟩ := sign_constantXof hkey (Vector.replicate _ 0) 0 [1, 2, 3] hctx
    (Vector.replicate _ 255)
  obtain ⟨hret, -, hverify⟩ := cryptoSignVerify_cryptoSignSignature .two constantXof
    hkeys hout (by decide : 1 ≤ 2) (by decide : 1 ≤ 2)
  refine ⟨keys, out, hkeys, hout, ?_⟩
  rw [hverify, hret, if_neg (Nat.not_lt.mpr hctx)]

/-- A message signed with a key pair of `crypto_sign_keypair` opens to the message, and `*smlen` is
the length of the signed message. If the context string is too long, the message length is added to
what `*smlen` was before, and nothing opens. -/
theorem cryptoSignOpen_cryptoSign (mode : DilithiumMode) (xof : Xof) {fuel fuel' more : ℕ}
    {seed : Vector UInt8 seedBytes} {pk : Vector UInt8 (cryptoPublickeybytes mode)}
    {sk : Vector UInt8 (cryptoSecretkeybytes mode)}
    {keys : Vector UInt8 (cryptoPublickeybytes mode) × Vector UInt8 (cryptoSecretkeybytes mode)}
    (hkeys : cryptoSignKeypair mode xof fuel seed pk sk = some keys)
    {sm : Vector UInt8 (cryptoBytes mode)} {smlen : UInt64} {m ctx : List UInt8}
    {rnd : Vector UInt8 rndBytes} {signed : SignedMessage}
    (hsign : cryptoSign mode xof fuel' sm smlen m ctx rnd keys.2 = some signed)
    (hfuel : fuel ≤ more) (hfuel' : fuel' ≤ more) :
    signed.sm.length = cryptoBytes mode + m.length ∧
      if ctx.length > 255 then
        signed.ret = -1 ∧ signed.smlen = smlen + UInt64.ofNat m.length ∧
          cryptoSignOpen mode xof more signed.sm ctx keys.1 = some (.badsig signed.sm.length)
      else
        signed.ret = 0 ∧ signed.smlen = UInt64.ofNat signed.sm.length ∧
          cryptoSignOpen mode xof more signed.sm ctx keys.1 =
            some { ret := 0, m := m, mlen := UInt64.ofNat m.length } := by
  obtain ⟨out, hsignature, rfl⟩ := Option.map_eq_some_iff.mp hsign
  obtain ⟨hret, hsiglen⟩ := cryptoSignSignature_code hsignature
  obtain ⟨parts, hkey⟩ := cryptoSignKeypair_keyPair (cryptoSignKeypair_mono hkeys hfuel)
  have hmore : cryptoSign mode xof more sm smlen m ctx rnd keys.2 =
      some ⟨out.ret, out.sig.toList ++ m, out.siglen + UInt64.ofNat m.length⟩ :=
    Option.map_eq_some_iff.mpr ⟨out, cryptoSignSignature_mono hsignature hfuel', rfl⟩
  have hopen := hkey.open_sign hmore le_rfl
  have hall : (out.sig.toList ++ m).length = cryptoBytes mode + m.length := by
    rw [List.length_append, Vector.length_toList]
  refine ⟨hall, ?_⟩
  rw [hall]
  split_ifs at hret hsiglen ⊢ with hctx
  · have hfailed : ¬out.ret = 0 := by
      rw [hret]
      decide
    exact ⟨hret, by rw [hsiglen], hopen.trans (congrArg some (if_neg hfailed))⟩
  · exact ⟨hret, by rw [hsiglen, UInt64.ofNat_add], hopen.trans (congrArg some (if_pos hret))⟩

/-- The same message opens. -/
theorem cryptoSignOpen_cryptoSign_constant :
    ∃ (keys : Vector UInt8 (cryptoPublickeybytes .two) × Vector UInt8 (cryptoSecretkeybytes .two))
      (signed : SignedMessage),
      cryptoSignKeypair .two constantXof 1 (Vector.replicate _ 0) (Vector.replicate _ 0)
        (Vector.replicate _ 0) = some keys ∧
      cryptoSign .two constantXof 1 (Vector.replicate _ 0) 0 [1, 2, 3] [7] (Vector.replicate _ 255)
        keys.2 = some signed ∧ signed.sm.length = 2423 ∧
      cryptoSignOpen .two constantXof 2 signed.sm [7] keys.1 =
        some { ret := 0, m := [1, 2, 3], mlen := 3 } := by
  have hctx : ([7] : List UInt8).length ≤ 255 := by decide
  obtain ⟨keys, rho, key, hkeys, hkey⟩ := constantXof_keyPair 1 (Vector.replicate _ 0)
    (Vector.replicate _ 0) (Vector.replicate _ 0)
  obtain ⟨out, hout⟩ := sign_constantXof hkey (Vector.replicate _ 0) 0 [1, 2, 3] hctx
    (Vector.replicate _ 255)
  have hsigned : cryptoSign .two constantXof 1 (Vector.replicate _ 0) 0 [1, 2, 3] [7]
      (Vector.replicate _ 255) keys.2 =
        some ⟨out.ret, out.sig.toList ++ [1, 2, 3], out.siglen + 3⟩ :=
    Option.map_eq_some_iff.mpr ⟨out, hout, rfl⟩
  obtain ⟨hlength, hopened⟩ := cryptoSignOpen_cryptoSign .two constantXof hkeys hsigned
    (by decide : 1 ≤ 2) (by decide : 1 ≤ 2)
  rw [if_neg (Nat.not_lt.mpr hctx)] at hopened
  exact ⟨keys, _, hkeys, hsigned, hlength, hopened.2.2⟩

end EvMlDsa
