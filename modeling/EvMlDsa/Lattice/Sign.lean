import EvMlDsa.Lattice.Challenge
import EvMlDsa.Lattice.Hints

/-!
# The signature scheme

`sign.c` of the reference over the functions of the modules before. `fuel` bounds the blocks every
sampler asks for and the attempts to sign; a result does not depend on it
(`cryptoSignKeypair_mono`, `cryptoSignSignature_mono`, `cryptoSignVerify_mono`).
-/

set_option autoImplicit false
set_option relaxedAutoImplicit false

namespace EvMlDsa

open Library.FixedArray Library.Rejection

/-! ### Vectors -/

/-- `polyveck_decompose`: `v1` and `v0`. -/
def polyveckDecompose (mode : DilithiumMode) {count : ℕ} (v : Vector Poly count) :
    Vector Poly count × Vector Poly count :=
  (v.map (·.map fun a ↦ (decompose mode a).1), v.map (·.map fun a ↦ (decompose mode a).2))

/-- `poly_make_hint`: `h` and the number of ones. -/
def polyMakeHint (mode : DilithiumMode) (a0 a1 : Poly) : Poly × ℕ :=
  (List.range 256).foldl
    (fun s i ↦
      let hint := makeHint mode (a0.getD i 0) (a1.getD i 0)
      (s.1.setIfInBounds i (if hint then 1 else 0), s.2 + if hint then 1 else 0)) (zeroPoly, 0)

/-- `polyveck_make_hint`: `h` and the number of ones. -/
def polyveckMakeHint (mode : DilithiumMode) {count : ℕ} (v0 v1 : Vector Poly count) :
    Vector Poly count × ℕ :=
  (Vector.zipWith (fun a0 a1 ↦ (polyMakeHint mode a0 a1).1) v0 v1,
    (List.range count).foldl
      (fun s i ↦ s + (polyMakeHint mode (v0.getD i zeroPoly) (v1.getD i zeroPoly)).2) 0)

/-- `polyveck_use_hint`. -/
def polyveckUseHint (mode : DilithiumMode) {count : ℕ} (u h : Vector Poly count) :
    Vector Poly count :=
  Vector.zipWith (Vector.zipWith fun a hint ↦ useHint mode a (hint != 0)) u h

/-! ### Keys -/

/-- The first bytes of SHAKE256. -/
def Xof.squeeze256 (xof : Xof) (outlen : ℕ) (input : List UInt8) : Vector UInt8 outlen :=
  Vector.ofFn fun i ↦ xof.shake256 input i.val

/-- `crypto_sign_keypair` after `randombytes`: the two buffers. -/
def cryptoSignKeypair (mode : DilithiumMode) (xof : Xof) (fuel : ℕ) (seed : Vector UInt8 seedBytes)
    (pk : Vector UInt8 (cryptoPublickeybytes mode))
    (sk : Vector UInt8 (cryptoSecretkeybytes mode)) :
    Option (Vector UInt8 (cryptoPublickeybytes mode) × Vector UInt8 (cryptoSecretkeybytes mode)) :=
  do
    let seedbuf := (xof.squeeze256 (2 * seedBytes + crhBytes)
      (seed.toList ++ [UInt8.ofNat mode.K, UInt8.ofNat mode.L])).toList
    let rho := seedbuf.take seedBytes
    let rhoprime := (seedbuf.drop seedBytes).take crhBytes
    let key := seedbuf.drop (seedBytes + crhBytes)
    let mat ← polyvecMatrixExpand mode xof fuel rho
    let s1 ← polyvecUniformEta mode mode.L xof fuel rhoprime 0
    let s2 ← polyvecUniformEta mode mode.K xof fuel rhoprime (UInt16.ofNat mode.L)
    let s1hat := polyvecNtt s1
    let t1 := polyvecMatrixPointwiseMontgomery mat s1hat
    let t1 := polyvecReduce t1
    let t1 := polyvecInvnttTomont t1
    let t1 := polyveckAdd t1 s2
    let t1 := polyveckCaddq t1
    let (t1, t0) := polyveckPower2round t1
    let pk := packPk mode pk rho t1
    let tr := (xof.squeeze256 trBytes pk.toList).toList
    some (pk, packSk mode sk rho tr key t0 s1 s2)

/-! ### Signing -/

/-- What one attempt commits to: `y`, the two parts of `w`, and the buffer with the challenge in its
first bytes. -/
structure Commitment (mode : DilithiumMode) where
  y : Vector Poly mode.L
  w1 : Vector Poly mode.K
  w0 : Vector Poly mode.K
  sig : Vector UInt8 (cryptoBytes mode)

/-- An attempt from the label `rej` up to the hash. -/
def signCommit (mode : DilithiumMode) (xof : Xof) (mat : Vector (Vector Poly mode.L) mode.K)
    (mu rhoprime : List UInt8) (nonce : UInt16) (sig : Vector UInt8 (cryptoBytes mode)) :
    Commitment mode :=
  let y := polyveclUniformGamma1 mode xof rhoprime nonce
  let z := polyvecNtt y
  let w1 := polyvecMatrixPointwiseMontgomery mat z
  let w1 := polyvecReduce w1
  let w1 := polyvecInvnttTomont w1
  let w1 := polyveckCaddq w1
  let (w1, w0) := polyveckDecompose mode w1
  let sig := storeBytes sig 0 (polyveckPackW1 mode w1)
  let ctilde := xof.squeeze256 mode.ctildeBytes
    (mu ++ sig.toList.take (mode.K * mode.polyw1PackedBytes))
  { y := y, w1 := w1, w0 := w0, sig := storeBytes sig 0 ctilde.toList }

/-- The secret vectors in the domain of the transform. -/
structure SigningVectors (mode : DilithiumMode) where
  s1 : Vector Poly mode.L
  s2 : Vector Poly mode.K
  t0 : Vector Poly mode.K

/-- An attempt from the transform of the challenge on: the signature, or nothing if it goes back to
`rej`. -/
def signRespond (mode : DilithiumMode) (secret : SigningVectors mode) (commit : Commitment mode)
    (cp : Poly) : Option (Vector UInt8 (cryptoBytes mode)) :=
  let cp := ntt cp
  let z := polyvecPointwisePolyMontgomery cp secret.s1
  let z := polyvecInvnttTomont z
  let z := polyvecAdd z commit.y
  let z := polyvecReduce z
  if polyvecChknorm z (mode.gamma1 - mode.beta) then none
  else
    let h := polyvecPointwisePolyMontgomery cp secret.s2
    let h := polyvecInvnttTomont h
    let w0 := polyvecSub commit.w0 h
    let w0 := polyvecReduce w0
    if polyvecChknorm w0 (mode.gamma2 - mode.beta) then none
    else
      let h := polyvecPointwisePolyMontgomery cp secret.t0
      let h := polyvecInvnttTomont h
      let h := polyvecReduce h
      if polyvecChknorm h mode.gamma2 then none
      else
        let w0 := polyvecAdd w0 h
        let (h, n) := polyveckMakeHint mode w0 commit.w1
        if n > mode.omega then none
        else
          some (packSig mode commit.sig (Vector.ofFn fun i ↦ commit.sig.getD i.val 0) z h)

/-- The loop of `crypto_sign_signature_internal`. -/
def signLoop (mode : DilithiumMode) (xof : Xof) (fuel : ℕ)
    (mat : Vector (Vector Poly mode.L) mode.K) (secret : SigningVectors mode)
    (mu rhoprime : List UInt8) : (attempts : ℕ) → (nonce : UInt16) →
    (sig : Vector UInt8 (cryptoBytes mode)) → Option (Vector UInt8 (cryptoBytes mode))
  | 0, _, _ => none
  | attempts + 1, nonce, sig => do
    let commit := signCommit mode xof mat mu rhoprime nonce sig
    let cp ← polyChallenge mode xof fuel (commit.sig.toList.take mode.ctildeBytes)
    match signRespond mode secret commit cp with
    | some sig => some sig
    | none => signLoop mode xof fuel mat secret mu rhoprime attempts (nonce + 1) commit.sig

/-- `crypto_sign_signature_internal`: the buffer, all of whose `CRYPTO_BYTES` bytes are the
signature. It always returns 0 and stores `CRYPTO_BYTES` to `*siglen`. -/
def cryptoSignSignatureInternal (mode : DilithiumMode) (xof : Xof) (fuel : ℕ)
    (sig : Vector UInt8 (cryptoBytes mode)) (m pre rnd : List UInt8)
    (sk : Vector UInt8 (cryptoSecretkeybytes mode)) : Option (Vector UInt8 (cryptoBytes mode)) := do
  let key := unpackSk mode sk
  let mu := xof.squeeze256 crhBytes (key.tr.toList ++ pre ++ m)
  let rhoprime := xof.squeeze256 crhBytes (key.key.toList ++ rnd ++ mu.toList)
  let mat ← polyvecMatrixExpand mode xof fuel key.rho.toList
  let secret := { s1 := polyvecNtt key.s1, s2 := polyvecNtt key.s2, t0 := polyvecNtt key.t0 }
  signLoop mode xof fuel mat secret mu.toList rhoprime.toList fuel 0 sig

/-- `pre`: zero, the length of the context string and the context string. -/
def contextPrefix (ctx : List UInt8) : List UInt8 := 0 :: UInt8.ofNat ctx.length :: ctx

/-- `RNDBYTES`. -/
def rndBytes : ℕ := 32

/-- What `crypto_sign_signature` leaves: its return code, the buffer and `*siglen`. -/
structure SignatureOutput (mode : DilithiumMode) where
  ret : ℤ
  sig : Vector UInt8 (cryptoBytes mode)
  siglen : UInt64

/-- `crypto_sign_signature`. Signing is randomized: `rnd` is what `randombytes` delivers. -/
def cryptoSignSignature (mode : DilithiumMode) (xof : Xof) (fuel : ℕ)
    (sig : Vector UInt8 (cryptoBytes mode)) (siglen : UInt64) (m ctx : List UInt8)
    (rnd : Vector UInt8 rndBytes) (sk : Vector UInt8 (cryptoSecretkeybytes mode)) :
    Option (SignatureOutput mode) :=
  if ctx.length > 255 then some { ret := -1, sig := sig, siglen := siglen }
  else
    (cryptoSignSignatureInternal mode xof fuel sig m (contextPrefix ctx) rnd.toList sk).map
      fun sig ↦ { ret := 0, sig := sig, siglen := UInt64.ofNat (cryptoBytes mode) }

/-! ### Verification -/

/-- `crypto_sign_verify_internal` between the matrix and the packing of `w1`. -/
def verifyW1 (mode : DilithiumMode) (mat : Vector (Vector Poly mode.L) mode.K) (cp : Poly)
    (t1 : Vector Poly mode.K) (z : Vector Poly mode.L) (h : Vector Poly mode.K) :
    Vector Poly mode.K :=
  let z := polyvecNtt z
  let w1 := polyvecMatrixPointwiseMontgomery mat z
  let cp := ntt cp
  let t1 := polyvecShiftl t1
  let t1 := polyvecNtt t1
  let t1 := polyvecPointwisePolyMontgomery cp t1
  let w1 := polyvecSub w1 t1
  let w1 := polyvecReduce w1
  let w1 := polyvecInvnttTomont w1
  let w1 := polyveckCaddq w1
  polyveckUseHint mode w1 h

/-- `crypto_sign_verify_internal`. -/
def cryptoSignVerifyInternal (mode : DilithiumMode) (xof : Xof) (fuel : ℕ) (sig m pre : List UInt8)
    (pk : Vector UInt8 (cryptoPublickeybytes mode)) : Option ℤ :=
  if sig.length != cryptoBytes mode then some (-1)
  else
    let (rho, t1) := unpackPk mode pk
    match unpackSig mode (Vector.ofFn fun i ↦ sig.getD i.val 0) with
    | none => some (-1)
    | some (c, z, h) =>
      if polyvecChknorm z (mode.gamma1 - mode.beta) then some (-1)
      else do
        let mu := xof.squeeze256 trBytes pk.toList
        let mu := xof.squeeze256 crhBytes (mu.toList ++ pre ++ m)
        let cp ← polyChallenge mode xof fuel c.toList
        let mat ← polyvecMatrixExpand mode xof fuel rho.toList
        let buf := polyveckPackW1 mode (verifyW1 mode mat cp t1 z h)
        let c2 := xof.squeeze256 mode.ctildeBytes (mu.toList ++ buf)
        some (if c = c2 then 0 else -1)

/-- `crypto_sign_verify`. -/
def cryptoSignVerify (mode : DilithiumMode) (xof : Xof) (fuel : ℕ) (sig m ctx : List UInt8)
    (pk : Vector UInt8 (cryptoPublickeybytes mode)) : Option ℤ :=
  if ctx.length > 255 then some (-1)
  else cryptoSignVerifyInternal mode xof fuel sig m (contextPrefix ctx) pk

/-! ### Signed messages -/

/-- What `crypto_sign` leaves: its return code, the `CRYPTO_BYTES + mlen` bytes of `sm` and
`*smlen`. -/
structure SignedMessage where
  ret : ℤ
  sm : List UInt8
  smlen : UInt64

/-- `crypto_sign`; `sm` are the first `CRYPTO_BYTES` bytes of its buffer, behind which the message
is copied. -/
def cryptoSign (mode : DilithiumMode) (xof : Xof) (fuel : ℕ)
    (sm : Vector UInt8 (cryptoBytes mode)) (smlen : UInt64) (m ctx : List UInt8)
    (rnd : Vector UInt8 rndBytes) (sk : Vector UInt8 (cryptoSecretkeybytes mode)) :
    Option SignedMessage :=
  (cryptoSignSignature mode xof fuel sm smlen m ctx rnd sk).map fun out ↦
    { ret := out.ret, sm := out.sig.toList ++ m, smlen := out.siglen + UInt64.ofNat m.length }

/-- What `crypto_sign_open` leaves: its return code, the bytes it writes from `m` on and `*mlen`. -/
structure OpenedMessage where
  ret : ℤ
  m : List UInt8
  mlen : UInt64

/-- The label `badsig`: zeros, as many as the signed message is long. -/
def OpenedMessage.badsig (smlen : ℕ) : OpenedMessage :=
  { ret := -1, m := List.replicate smlen 0, mlen := 0 }

/-- `crypto_sign_open`. -/
def cryptoSignOpen (mode : DilithiumMode) (xof : Xof) (fuel : ℕ) (sm ctx : List UInt8)
    (pk : Vector UInt8 (cryptoPublickeybytes mode)) : Option OpenedMessage :=
  if sm.length < cryptoBytes mode then some (.badsig sm.length)
  else
    let m := sm.drop (cryptoBytes mode)
    (cryptoSignVerify mode xof fuel (sm.take (cryptoBytes mode)) m ctx pk).map fun ret ↦
      if ret != 0 then .badsig sm.length
      else { ret := 0, m := m, mlen := UInt64.ofNat (sm.length - cryptoBytes mode) }

/-! ### More fuel -/

section Fuel

variable {mode : DilithiumMode} {xof : Xof} {fuel more : ℕ}

theorem signLoop_mono {mat : Vector (Vector Poly mode.L) mode.K} {secret : SigningVectors mode}
    {mu rhoprime : List UInt8} {attempts attempts' : ℕ} {nonce : UInt16}
    {sig sig' : Vector UInt8 (cryptoBytes mode)}
    (hsig : signLoop mode xof fuel mat secret mu rhoprime attempts nonce sig = some sig')
    (hmore : fuel ≤ more) (hattempts : attempts ≤ attempts') :
    signLoop mode xof more mat secret mu rhoprime attempts' nonce sig = some sig' := by
  induction attempts generalizing attempts' nonce sig with
  | zero => exact absurd hsig (by simp [signLoop])
  | succ attempts ih =>
    obtain ⟨attempts', rfl⟩ : ∃ n, attempts' = n + 1 := ⟨attempts' - 1, by omega⟩
    rw [signLoop, Option.bind_eq_bind, Option.bind_eq_some_iff] at hsig ⊢
    obtain ⟨cp, hcp, hresponse⟩ := hsig
    refine ⟨cp, polyChallenge_mono hcp hmore, ?_⟩
    rcases hrespond : signRespond mode secret
      (signCommit mode xof mat mu rhoprime nonce sig) cp with _ | found
    · rw [hrespond] at hresponse
      exact ih hresponse (by omega)
    · rw [hrespond] at hresponse
      exact hresponse

theorem cryptoSignSignatureInternal_mono {sig sig' : Vector UInt8 (cryptoBytes mode)}
    {m pre rnd : List UInt8} {sk : Vector UInt8 (cryptoSecretkeybytes mode)}
    (hsig : cryptoSignSignatureInternal mode xof fuel sig m pre rnd sk = some sig')
    (hmore : fuel ≤ more) :
    cryptoSignSignatureInternal mode xof more sig m pre rnd sk = some sig' := by
  simp only [cryptoSignSignatureInternal, Option.bind_eq_bind, Option.bind_eq_some_iff] at hsig ⊢
  obtain ⟨mat, hmat, hloop⟩ := hsig
  exact ⟨mat, polyvecMatrixExpand_mono hmat hmore, signLoop_mono hloop hmore hmore⟩

theorem cryptoSignSignature_mono {sig : Vector UInt8 (cryptoBytes mode)} {siglen : UInt64}
    {m ctx : List UInt8} {rnd : Vector UInt8 rndBytes}
    {sk : Vector UInt8 (cryptoSecretkeybytes mode)} {out : SignatureOutput mode}
    (hout : cryptoSignSignature mode xof fuel sig siglen m ctx rnd sk = some out)
    (hmore : fuel ≤ more) :
    cryptoSignSignature mode xof more sig siglen m ctx rnd sk = some out := by
  rw [cryptoSignSignature] at hout ⊢
  split_ifs at hout ⊢ with hctx
  · exact hout
  · obtain ⟨found, hfound, rfl⟩ := Option.map_eq_some_iff.mp hout
    exact Option.map_eq_some_iff.mpr
      ⟨found, cryptoSignSignatureInternal_mono hfound hmore, rfl⟩

theorem cryptoSignKeypair_mono {seed : Vector UInt8 seedBytes}
    {pk : Vector UInt8 (cryptoPublickeybytes mode)} {sk : Vector UInt8 (cryptoSecretkeybytes mode)}
    {keys : Vector UInt8 (cryptoPublickeybytes mode) × Vector UInt8 (cryptoSecretkeybytes mode)}
    (hkeys : cryptoSignKeypair mode xof fuel seed pk sk = some keys) (hmore : fuel ≤ more) :
    cryptoSignKeypair mode xof more seed pk sk = some keys := by
  simp only [cryptoSignKeypair, Option.bind_eq_bind, Option.bind_eq_some_iff] at hkeys ⊢
  obtain ⟨mat, hmat, s1, hs1, s2, hs2, hpacked⟩ := hkeys
  exact ⟨mat, polyvecMatrixExpand_mono hmat hmore, s1, polyvecUniformEta_mono hs1 hmore, s2,
    polyvecUniformEta_mono hs2 hmore, hpacked⟩

theorem cryptoSignVerifyInternal_mono {sig m pre : List UInt8}
    {pk : Vector UInt8 (cryptoPublickeybytes mode)} {code : ℤ}
    (hcode : cryptoSignVerifyInternal mode xof fuel sig m pre pk = some code)
    (hmore : fuel ≤ more) : cryptoSignVerifyInternal mode xof more sig m pre pk = some code := by
  simp only [cryptoSignVerifyInternal] at hcode ⊢
  split_ifs at hcode ⊢ with hlength
  · exact hcode
  · rcases hunpack : unpackSig mode (Vector.ofFn fun i ↦ sig.getD i.val 0) with _ | ⟨c, z, h⟩
    · rw [hunpack] at hcode
      exact hcode
    · rw [hunpack] at hcode
      simp only [Option.bind_eq_bind] at hcode ⊢
      split_ifs at hcode ⊢ with hnorm
      · exact hcode
      · rw [Option.bind_eq_some_iff] at hcode ⊢
        obtain ⟨cp, hcp, hrest⟩ := hcode
        rw [Option.bind_eq_some_iff] at hrest
        obtain ⟨mat, hmat, hdone⟩ := hrest
        refine ⟨cp, polyChallenge_mono hcp hmore, ?_⟩
        rw [polyvecMatrixExpand_mono hmat hmore]
        exact hdone

theorem cryptoSignVerify_mono {sig m ctx : List UInt8}
    {pk : Vector UInt8 (cryptoPublickeybytes mode)} {code : ℤ}
    (hcode : cryptoSignVerify mode xof fuel sig m ctx pk = some code) (hmore : fuel ≤ more) :
    cryptoSignVerify mode xof more sig m ctx pk = some code := by
  rw [cryptoSignVerify] at hcode ⊢
  split_ifs at hcode ⊢ with hctx
  · exact hcode
  · exact cryptoSignVerifyInternal_mono hcode hmore

end Fuel

end EvMlDsa
