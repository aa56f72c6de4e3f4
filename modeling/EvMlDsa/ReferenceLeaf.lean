import EvMlDsa.EndToEnd
import EvMlDsa.LeafKeyValid
import EvMlDsa.Lattice.SignCorrect

/-!
# The scheme over the reference code

A leaf layer follows the reference if it has the result of the reference wherever a call of the
reference ends (`FollowsReference`). There are such layers (`exists_followsReference`), and nothing
else has to be assumed of one: where the samplers end it behaves as documented
(`FollowsReference.documented`), a leaf signature that ends is accepted under its leaf key
(`FollowsReference.signsCorrectly`), and then `ev_verify` accepts the signature of the whole scheme
(`evVerify_evSign_reference`).
-/

set_option autoImplicit false
set_option relaxedAutoImplicit false

namespace EvMlDsa

open Library.FixedArray Library.Rejection Library.HashTree Library.PerfectTree

variable {mode : DilithiumMode} {xof : Xof}

/-- The leaf layer does what the reference does: it has the result of every call of the reference
that ends, whatever the buffers held before. Of a call that does not end nothing is said. -/
structure FollowsReference (mode : DilithiumMode) (xof : Xof)
    (leaf : Vendored mode (Vector UInt8 rndBytes)) : Prop where
  hash (outlen : ℕ) (input : List UInt8) :
    leaf.shake256 outlen input = xof.squeeze256 outlen input
  expand (rho : Block) :
    EndsIn (polyvecMatrixExpand mode xof · rho.toList) (leaf.polyvecMatrixExpand rho)
  etaL (seed : List UInt8) (nonce : UInt16) :
    EndsIn (polyvecUniformEta mode mode.L xof · seed nonce) (leaf.polyveclUniformEta seed nonce)
  etaK (seed : List UInt8) (nonce : UInt16) :
    EndsIn (polyvecUniformEta mode mode.K xof · seed nonce) (leaf.polyveckUniformEta seed nonce)
  ntt : leaf.polyveclNtt = polyvecNtt
  product : leaf.polyvecMatrixPointwiseMontgomery = polyvecMatrixPointwiseMontgomery
  reduce : leaf.polyveckReduce = polyvecReduce
  invntt : leaf.polyveckInvnttTomont = polyvecInvnttTomont
  sign (sig : Vector UInt8 (cryptoBytes mode)) (siglen : UInt64) (rnd : Vector UInt8 rndBytes)
    (m : List UInt8) (sk : Vector UInt8 (cryptoSecretkeybytes mode)) :
    EndsIn (fun fuel ↦ (cryptoSignSignature mode xof fuel sig siglen m [] rnd sk).map fun out ↦
      (out.ret, out.sig.toList)) (leaf.cryptoSignSignature rnd m sk)
  verify (sig m : List UInt8) (pk : Vector UInt8 (cryptoPublickeybytes mode)) :
    EndsIn (cryptoSignVerify mode xof · sig m [] pk) (leaf.cryptoSignVerify sig m pk)

/-! ### Layers that follow the reference -/

/-- What signing leaves does not depend on the bound, nor on the buffer and `*siglen` before. -/
theorem exists_signResult (mode : DilithiumMode) (xof : Xof) (rnd : Vector UInt8 rndBytes)
    (m : List UInt8) (sk : Vector UInt8 (cryptoSecretkeybytes mode)) :
    ∃ result : ℤ × List UInt8, ∀ (sig : Vector UInt8 (cryptoBytes mode)) (siglen : UInt64),
      EndsIn (fun fuel ↦ (cryptoSignSignature mode xof fuel sig siglen m [] rnd sk).map fun out ↦
        (out.ret, out.sig.toList)) result := by
  have hctx : ([] : List UInt8).length ≤ 255 := Nat.zero_le 255
  have hstable : Stable fun fuel ↦ (cryptoSignSignature mode xof fuel (Vector.replicate _ 0) 0 m []
      rnd sk).map fun out ↦ (out.ret, out.sig.toList) := by
    intro fuel more result hresult hmore
    obtain ⟨out, hout, rfl⟩ := Option.map_eq_some_iff.mp hresult
    exact Option.map_eq_some_iff.mpr ⟨out, cryptoSignSignature_mono hout hmore, rfl⟩
  obtain ⟨result, hends⟩ := hstable.exists_endsIn
  refine ⟨result, fun sig siglen fuel found hfound ↦ ?_⟩
  have hsame : cryptoSignSignature mode xof fuel sig siglen m [] rnd sk =
      cryptoSignSignature mode xof fuel (Vector.replicate _ 0) 0 m [] rnd sk :=
    cryptoSignSignature_overwrites hctx _ _
  exact hends ((congrArg (Option.map _) hsame).symm.trans hfound)

/-- There is a leaf layer that follows the reference. -/
theorem exists_followsReference (mode : DilithiumMode) (xof : Xof) :
    ∃ leaf, FollowsReference mode xof leaf := by
  have hexpand (rho : Block) :
      ∃ mat, EndsIn (polyvecMatrixExpand mode xof · rho.toList) mat :=
    Stable.exists_endsIn fun _ _ _ h ↦ polyvecMatrixExpand_mono h
  have heta (count : ℕ) (seed : List UInt8) (nonce : UInt16) :
      ∃ v, EndsIn (polyvecUniformEta mode count xof · seed nonce) v :=
    Stable.exists_endsIn fun _ _ _ h ↦ polyvecUniformEta_mono h
  have hverify (sig m : List UInt8) (pk : Vector UInt8 (cryptoPublickeybytes mode)) :
      ∃ code, EndsIn (cryptoSignVerify mode xof · sig m [] pk) code :=
    Stable.exists_endsIn fun _ _ _ h ↦ cryptoSignVerify_mono h
  choose expand hexpand using hexpand
  choose eta heta using heta
  choose sign hsign using exists_signResult mode xof
  choose verify hverify using hverify
  exact ⟨{
    shake256 := xof.squeeze256
    polyvecMatrixExpand := expand
    polyveclUniformEta := eta mode.L
    polyveckUniformEta := eta mode.K
    polyveclNtt := polyvecNtt
    polyvecMatrixPointwiseMontgomery := polyvecMatrixPointwiseMontgomery
    polyveckReduce := polyvecReduce
    polyveckInvnttTomont := polyvecInvnttTomont
    cryptoSignSignature := sign
    cryptoSignVerify := verify },
    ⟨fun _ _ ↦ rfl, hexpand, heta mode.L, heta mode.K, rfl, rfl, rfl, rfl,
      fun sig siglen rnd m sk ↦ hsign rnd m sk sig siglen, hverify⟩⟩

/-! ### The documented behaviour -/

/-- The matrix of ring elements that a matrix in the order of `ntt` stands for. -/
noncomputable def nttMatrix (mode : DilithiumMode) (mat : Vector (Vector Poly mode.L) mode.K) :
    Matrix (Fin mode.K) (Fin mode.L) Rq :=
  .of fun i j ↦ ((mat.get i).get j).ofNtt

section Follows

variable {leaf : Vendored mode (Vector UInt8 rndBytes)} (hleaf : FollowsReference mode xof leaf)
include hleaf

/-- The product with a matrix that could be expanded. -/
theorem FollowsReference.represents_product {rho : Block}
    (hends : Ends (polyvecMatrixExpand mode xof · rho.toList)) {s1 : Vector Poly mode.L}
    (hs1 : ∀ j (hj : j < mode.L), s1[j].CoeffsIn (-mode.eta.toInt) mode.eta.toInt) {i : ℕ}
    (hi : i < mode.K) :
    Represents (modulusQ - 1) (leaf.product (leaf.polyvecMatrixExpand rho) s1)[i]
      (rowProduct (leaf.polyvecMatrixExpand rho)[i] s1).coeffSeq := by
  obtain ⟨fuel, mat, hmat⟩ := hends
  obtain ⟨hL, hsum⟩ := L_range mode
  have heta := eta_range mode
  have hproduct := represents_rowProduct hL (polyvecMatrixExpand_range hmat i hi) hs1
    (by rw [cast_modulusQ]; omega) (by rw [cast_modulusQ] at hsum ⊢; omega)
  have hcell : (leaf.product mat s1)[i] = invnttTomont (polyReduce
      (polyveclPointwiseAccMontgomery mat[i] (polyvecNtt s1))) := by
    simp only [Vendored.product, hleaf.ntt, hleaf.product, hleaf.reduce, hleaf.invntt,
      polyvecInvnttTomont, polyvecReduce, polyvecMatrixPointwiseMontgomery, Vector.getElem_map]
  rw [← hleaf.expand rho hmat, hcell]
  exact hproduct

/-- Where the samplers end, the layer behaves as documented. -/
theorem FollowsReference.documented
    (hexpand : ∀ rho : Block, Ends (polyvecMatrixExpand mode xof · rho.toList))
    (heta : ∀ count seed nonce, Ends (polyvecUniformEta mode count xof · seed nonce)) :
    leaf.Documented (nttMatrix mode) where
  polyveclUniformEta seed nonce i := by
    obtain ⟨fuel, v, hv⟩ := heta mode.L seed nonce
    rw [← hleaf.etaL seed nonce hv]
    exact polyvecUniformEta_range hv i.val i.isLt
  polyveckUniformEta seed nonce i := by
    obtain ⟨fuel, v, hv⟩ := heta mode.K seed nonce
    rw [← hleaf.etaK seed nonce hv]
    exact polyvecUniformEta_range hv i.val i.isLt
  product_range rho _ hs1 i :=
    (hleaf.represents_product (hexpand rho) (fun j hj ↦ hs1 ⟨j, hj⟩) i.isLt).coeffsIn
  product_eq rho s1 hs1 := by
    funext i
    have hproduct := hleaf.represents_product (hexpand rho) (fun j hj ↦ hs1 ⟨j, hj⟩) i.isLt
    rw [vecToRq]
    refine hproduct.toRq_eq.trans ?_
    rw [rowProduct, Finset.sum_range]
    simp only [Matrix.mulVec, dotProduct, nttMatrix, Matrix.of_apply, vecToRq]
    refine Finset.sum_congr rfl fun j _ ↦ ?_
    rw [getD_eq_getElem _ _ j.isLt, getD_eq_getElem _ _ j.isLt]
    rfl

/-! ### Leaf keys -/

/-- `ev_leaf_keypair` packs its samples as `crypto_sign_keypair` does. -/
theorem FollowsReference.evLeafKeypair_eq (rhoP leafSeed : Block)
    (leafPk : Vector UInt8 (cryptoPublickeybytes mode))
    (leafSk : Vector UInt8 (cryptoSecretkeybytes mode)) :
    evLeafKeypair leaf rhoP leafSeed leafPk leafSk =
      packKeys xof (KeyParts.ofSamples rhoP (leafKey leaf leafSeed) (leaf.polyvecMatrixExpand rhoP)
        (leafS1 leaf leafSeed) (leafS2 leaf leafSeed)) leafPk leafSk := by
  have ht : leafT leaf rhoP leafSeed = keyT (leaf.polyvecMatrixExpand rhoP) (leafS1 leaf leafSeed)
      (leafS2 leaf leafSeed) := by
    simp only [leafT, keyT, Vendored.product, hleaf.ntt, hleaf.product, hleaf.reduce, hleaf.invntt]
  rw [EvMlDsa.evLeafKeypair_eq, ht, hleaf.hash]
  rfl

/-- A leaf key is a key pair where the samplers of its secret vectors end. -/
theorem FollowsReference.keyPair {rhoP leafSeed : Block}
    (hs1 : Ends (polyvecUniformEta mode mode.L xof · (leafRhoprime leaf leafSeed) 0))
    (hs2 : Ends (polyvecUniformEta mode mode.K xof · (leafRhoprime leaf leafSeed)
      (UInt16.ofNat mode.L)))
    {fuel : ℕ} {mat : Vector (Vector Poly mode.L) mode.K}
    (hmat : polyvecMatrixExpand mode xof fuel rhoP.toList = some mat)
    (leafPk : Vector UInt8 (cryptoPublickeybytes mode))
    (leafSk : Vector UInt8 (cryptoSecretkeybytes mode)) :
    let key := evLeafKeypair leaf rhoP leafSeed leafPk leafSk
    KeyPair xof fuel key.1 key.2 (KeyParts.ofSamples rhoP (leafKey leaf leafSeed) mat
      (leafS1 leaf leafSeed) (leafS2 leaf leafSeed)) := by
  intro key
  obtain ⟨fuel1, s1, hs1⟩ := hs1
  obtain ⟨fuel2, s2, hs2⟩ := hs2
  have hvec1 : leafS1 leaf leafSeed = s1 := (hleaf.etaL _ _ hs1).symm
  have hvec2 : leafS2 leaf leafSeed = s2 := (hleaf.etaK _ _ hs2).symm
  simp only [key, hleaf.evLeafKeypair_eq, ← hleaf.expand rhoP hmat, hvec1, hvec2]
  exact packKeys_keyPair _ hmat (polyvecUniformEta_range hs1) (polyvecUniformEta_range hs2) leafPk
    leafSk

end Follows

/-- Signing under a leaf key expands its matrix. -/
theorem exists_matrix {Rnd : Type} {leaf : Vendored mode Rnd} {fuel : ℕ} {rhoP leafSeed : Block}
    {leafPk : Vector UInt8 (cryptoPublickeybytes mode)}
    {leafSk : Vector UInt8 (cryptoSecretkeybytes mode)} {sig : Vector UInt8 (cryptoBytes mode)}
    {siglen : UInt64} {m ctx : List UInt8} {rnd : Vector UInt8 rndBytes}
    (hctx : ctx.length ≤ 255) {out : SignatureOutput mode}
    (hsign : cryptoSignSignature mode xof fuel sig siglen m ctx rnd
      (evLeafKeypair leaf rhoP leafSeed leafPk leafSk).2 = some out) :
    ∃ mat, polyvecMatrixExpand mode xof fuel rhoP.toList = some mat := by
  let key := (evLeafKeypair leaf rhoP leafSeed leafPk leafSk).2
  have hrho : (unpackSk mode key).rho = rhoP := by
    refine Vector.ext fun k (hk : k < 32) ↦ ?_
    have hbyte : (key.toList.take 32).getD k 0 = rhoP.toList.getD k 0 :=
      congrArg (List.getD · k 0) (take_evLeafKeypair_snd _ rhoP leafSeed leafPk leafSk)
    rw [List.getD_eq_getElem?_getD, List.getElem?_take_of_lt hk, ← List.getD_eq_getElem?_getD,
      getD_toList, getD_toList, getD_eq_getElem rhoP 0 hk] at hbyte
    show (Vector.ofFn fun i : Fin 32 ↦ key.getD i.val 0)[k] = rhoP[k]
    rw [Vector.getElem_ofFn]
    exact hbyte
  rw [cryptoSignSignature, if_neg (Nat.not_lt.mpr hctx)] at hsign
  obtain ⟨found, hfound, -⟩ := Option.map_eq_some_iff.mp hsign
  rw [cryptoSignSignatureInternal, Option.bind_eq_bind, Option.bind_eq_some_iff] at hfound
  obtain ⟨mat, hmat, -⟩ := hfound
  exact ⟨mat, hrho ▸ hmat⟩

/-! ### Leaf signatures -/

/-- The leaf signature of one message under one leaf key is correct: signing returns 0, writes
`CRYPTO_BYTES` bytes, and verification accepts them. -/
def SignsCorrectly {Rnd : Type} (vendored : Vendored mode Rnd) (rhoP leafSeed : Block) (rnd : Rnd)
    (cm : List UInt8) : Prop :=
  ∀ (leafPk : Vector UInt8 (cryptoPublickeybytes mode))
    (leafSk : Vector UInt8 (cryptoSecretkeybytes mode)),
    let key := evLeafKeypair vendored rhoP leafSeed leafPk leafSk
    ∃ σ, vendored.cryptoSignSignature rnd cm key.2 = (0, σ) ∧ σ.length = cryptoBytes mode ∧
      vendored.cryptoSignVerify σ cm key.1 = 0

/-- The calls of the reference behind a leaf signature end: the samplers of the secret vectors of
the leaf key, and signing. -/
structure LeafSignatureEnds (xof : Xof) (leaf : Vendored mode (Vector UInt8 rndBytes))
    (rhoP leafSeed : Block) (rnd : Vector UInt8 rndBytes) (cm : List UInt8) : Prop where
  s1 : Ends (polyvecUniformEta mode mode.L xof · (leafRhoprime leaf leafSeed) 0)
  s2 : Ends (polyvecUniformEta mode mode.K xof · (leafRhoprime leaf leafSeed)
    (UInt16.ofNat mode.L))
  signed : Ends (cryptoSignSignature mode xof · (Vector.replicate _ 0) 0 cm [] rnd
    (evLeafKeypair leaf rhoP leafSeed (Vector.replicate _ 0) (Vector.replicate _ 0)).2)

/-- A leaf signature of the reference that ends is correct. -/
theorem FollowsReference.signsCorrectly {leaf : Vendored mode (Vector UInt8 rndBytes)}
    (hleaf : FollowsReference mode xof leaf) {rhoP leafSeed : Block} {rnd : Vector UInt8 rndBytes}
    {cm : List UInt8} (hends : LeafSignatureEnds xof leaf rhoP leafSeed rnd cm) :
    SignsCorrectly leaf rhoP leafSeed rnd cm := by
  intro leafPk leafSk key
  have hkey :
      evLeafKeypair leaf rhoP leafSeed (Vector.replicate _ 0) (Vector.replicate _ 0) = key :=
    evLeafKeypair_overwrites leaf _ _ _ _ _ _
  obtain ⟨fuel, out, hout⟩ := hends.signed
  rw [hkey] at hout
  have hctx : ([] : List UInt8).length ≤ 255 := Nat.zero_le 255
  obtain ⟨mat, hmat⟩ := exists_matrix hctx hout
  have hcode : out.ret = 0 := (cryptoSignSignature_code hout).1
  have hverify := (hleaf.keyPair hends.s1 hends.s2 hmat leafPk leafSk).verify_signature hout le_rfl
  refine ⟨out.sig.toList, ?_, Vector.length_toList, ?_⟩
  · rw [← hcode]
    exact (hleaf.sign _ 0 rnd cm key.2 (Option.map_eq_some_iff.mpr ⟨out, hout, rfl⟩)).symm
  · rw [← hcode]
    exact (hleaf.verify _ _ _ hverify).symm

/-! ### The whole scheme -/

section Scheme

variable (host : ByteOrder) (legacy : Bool) {pk : EvPk Block} {rootSeed : Block} {depth p : ℕ}
  {buffers : LeafPk Block (PackedT1 mode) × Vector UInt8 (cryptoSecretkeybytes mode)}

/-- A message whose leaf signature is correct gets a signature that verifies, whatever else the leaf
layer does. -/
theorem evSign_of_signsCorrectly {Rnd : Type} {vendored : Vendored mode Rnd}
    (hdepth : depth ≤ evMaxDepth) {sk : ByteSk mode}
    (hsk : Coherent (bytePrimitives host vendored) legacy pk rootSeed depth buffers p sk)
    (hp : p < 2 ^ depth) {m : List UInt8} (hm : 1 + 4 + m.length < 2 ^ 64) {rnd : Rnd}
    (hsigns : SignsCorrectly vendored sk.leafRho (evTreeLeaf sk.tree) rnd
      (compositeMessage (bigEndian (UInt32.ofNat p)) m)) :
    ∃ sig, evSign host vendored sk m rnd true =
        some ⟨0, sig, some (evSigBytes mode (EvParams.ofDepth depth).depth).toNat⟩ ∧
      sig.length = (evSigBytes mode (EvParams.ofDepth depth).depth).toNat ∧
      sig.take 4 = (bigEndian (UInt32.ofNat p)).toList ∧
      ∃ hashed, evVerify host vendored legacy (fun _ ↦ true) pk m sig = some ⟨0, hashed⟩ := by
  rw [hsk.leafRho, hsk.tree, evTreeLeaf_stateAt _ hdepth] at hsigns
  obtain ⟨σ, hsigned, hlength, hvalid⟩ := hsigns (Vector.replicate _ 0) (Vector.replicate _ 0)
  let key := leafKeypairAt (bytePrimitives host vendored) legacy pk.rho rootSeed depth buffers p
  have hkey : (key.1.toBuffer, key.2) = evLeafKeypair vendored
      (evMatrixSeed (bytePrimitives host vendored) legacy pk.rho (UInt32.ofNat p))
      (nodeSeed (evDeriveChild host) rootSeed depth p) (Vector.replicate _ 0)
      (Vector.replicate _ 0) :=
    leafKeypairAt_bytes host vendored legacy pk.rho p _ _
  have hsigned' : vendored.cryptoSignSignature rnd
      (compositeMessage (bigEndian (UInt32.ofNat p)) m) key.2 = (0, σ) :=
    (congrArg (vendored.cryptoSignSignature rnd _ ·.2) hkey).trans hsigned
  have hvalid' : vendored.cryptoSignVerify σ (compositeMessage (bigEndian (UInt32.ofNat p)) m)
      key.1.toBuffer = 0 :=
    (congrArg (vendored.cryptoSignVerify σ _ ·.1) hkey).trans hvalid
  refine ⟨_, evSign_of_coherent host vendored legacy hdepth hsk hp hm rnd hlength hsigned',
    length_canonicalSig host vendored legacy hdepth _ hlength, ?_,
    evVerify_canonical host vendored legacy hdepth hsk.pkPar hsk.root hp hm hlength hvalid'⟩
  rw [canonicalSig, sigLayout]
  exact List.take_left' Vector.length_toList

/-- End-to-end correctness over the reference, as far as its calls end; of one that does not, the
leaf layer may make anything. For every lifetime `2 ^ depth` up to the maximal depth, every root
seed and both matrix seed modes, `ev_keygen` with every allocation granted returns 0, and every run
of `ev_sign` and `ev_evolve` calls leads to a signer in its lifetime. A message is signed then, with
any randomness for which the calls of the reference behind its leaf signature end: the signature has
`ev_sig_bytes(depth)` bytes and starts with the tag, and `ev_verify` accepts it, whatever calls come
in between. -/
theorem evVerify_evSign_reference {leaf : Vendored mode (Vector UInt8 rndBytes)}
    (hleaf : FollowsReference mode xof leaf) (hdepth : depth ≤ evMaxDepth)
    (env : KeygenEnv Block (PackedT1 mode) (Vector UInt8 (cryptoSecretkeybytes mode)))
    (halloc : ∀ i, env.alloc i = true) (pk : EvPk Block) (sk : ByteSk mode)
    (rootSeedIn : Option Block) :
    ∃ result,
      evKeygen (bytePrimitives host leaf) legacy env pk sk (EvParams.ofDepth depth).T
        rootSeedIn = some result ∧ result.ret = 0 ∧
      ∀ run : List (Call (Vector UInt8 rndBytes)), (∀ c ∈ run, c.Fits) →
        ∃ s, (Signer.start result.sk).calls (bytePrimitives host leaf) legacy run = some s ∧
          s.evolved < 2 ^ depth ∧
          ∀ (m : List UInt8) (rnd : Vector UInt8 rndBytes), 1 + 4 + m.length < 2 ^ 64 →
            LeafSignatureEnds xof leaf s.sk.leafRho (evTreeLeaf s.sk.tree) rnd
              (compositeMessage (bigEndian (UInt32.ofNat s.evolved)) m) →
            ∃ sig, evSign host leaf s.sk m rnd true =
                some ⟨0, sig, some (evSigBytes mode (EvParams.ofDepth depth).depth).toNat⟩ ∧
              sig.length = (evSigBytes mode (EvParams.ofDepth depth).depth).toNat ∧
              sig.take 4 = (bigEndian (UInt32.ofNat s.evolved)).toList ∧
              ∀ later : List (Call (Vector UInt8 rndBytes)), (∀ c ∈ later, c.Fits) →
                ∃ s' hashed, s.calls (bytePrimitives host leaf) legacy later = some s' ∧
                  evVerify host leaf legacy (fun _ ↦ true) result.pk m sig =
                    some ⟨0, hashed⟩ := by
  obtain ⟨result, hkeygen, -, hgenerated⟩ :=
    evKeygen_spec (bytePrimitives host leaf) legacy env halloc hdepth pk sk rootSeedIn
  refine ⟨result, hkeygen, hgenerated.ret, fun run hrun ↦ ?_⟩
  obtain ⟨s, hcalls, hs⟩ := calls_running (bytePrimitives host leaf) legacy hdepth
    (start_running _ legacy hgenerated) run hrun
  refine ⟨s, hcalls, hs.inLifetime, fun m rnd hm hends ↦ ?_⟩
  obtain ⟨sig, hsign, hlength, htag, hashed, haccept⟩ := evSign_of_signsCorrectly host legacy hdepth
    hs.coherent hs.inLifetime hm (hleaf.signsCorrectly hends)
  refine ⟨sig, hsign, hlength, htag, fun later hlater ↦ ?_⟩
  obtain ⟨s', hcalls', -⟩ :=
    calls_running (bytePrimitives host leaf) legacy hdepth hs later hlater
  exact ⟨s', hashed, hcalls', haccept⟩

end Scheme

/-- With the constant output functions every leaf signature ends. -/
theorem leafSignatureEnds_constantXof {leaf : Vendored .two (Vector UInt8 rndBytes)}
    (hleaf : FollowsReference .two constantXof leaf) (rhoP leafSeed : Block)
    (rnd : Vector UInt8 rndBytes) (cm : List UInt8) :
    LeafSignatureEnds constantXof leaf rhoP leafSeed rnd cm := by
  have hs1 : polyvecUniformEta .two DilithiumMode.two.L constantXof 1 (leafRhoprime leaf leafSeed)
      0 = some (Vector.replicate _ zeroPoly) :=
    uniformEta_constantXof _ _ _ _
  have hs2 : polyvecUniformEta .two DilithiumMode.two.K constantXof 1 (leafRhoprime leaf leafSeed)
      (UInt16.ofNat DilithiumMode.two.L) = some (Vector.replicate _ zeroPoly) :=
    uniformEta_constantXof _ _ _ _
  have hkey := hleaf.keyPair ⟨1, _, hs1⟩ ⟨1, _, hs2⟩ (expand_constantXof 1 rhoP.toList)
    (Vector.replicate _ 0) (Vector.replicate _ 0)
  have hvec1 : leafS1 leaf leafSeed = Vector.replicate _ zeroPoly := (hleaf.etaL _ _ hs1).symm
  have hvec2 : leafS2 leaf leafSeed = Vector.replicate _ zeroPoly := (hleaf.etaK _ _ hs2).symm
  simp only at hkey
  rw [hvec1, hvec2] at hkey
  have hctx : ([] : List UInt8).length ≤ 255 := Nat.zero_le 255
  obtain ⟨out, hout⟩ := sign_constantXof hkey (Vector.replicate _ 0) 0 cm hctx rnd
  exact ⟨⟨1, _, hs1⟩, ⟨1, _, hs2⟩, ⟨1, out, hout⟩⟩

/-- With the constant output functions a message signed after an evolution, with bytes of ones as
the randomness, is accepted after another one. -/
theorem evVerify_evSign_reference_constant :
    ∃ leaf, FollowsReference .two constantXof leaf ∧
      ∃ (result : KeygenResult Block (PackedT1 .two) (Vector UInt8 (cryptoSecretkeybytes .two)))
        (s s' : ByteSigner .two) (sig : List UInt8)
        (hashed : List (HashInput Block (PackedT1 .two))),
        (Signer.start result.sk).calls (bytePrimitives .little leaf) false [.evolve] = some s ∧
        evSign .little leaf s.sk [1, 2, 3] (Vector.replicate _ 255) true =
          some ⟨0, sig, some (evSigBytes .two (EvParams.ofDepth 2).depth).toNat⟩ ∧
        s.calls (bytePrimitives .little leaf) false [.evolve] = some s' ∧
        evVerify .little leaf false (fun _ ↦ true) result.pk [1, 2, 3] sig = some ⟨0, hashed⟩ := by
  obtain ⟨leaf, hleaf⟩ := exists_followsReference .two constantXof
  obtain ⟨result, -, -, hruns⟩ := evVerify_evSign_reference .little false hleaf
    (by decide : 2 ≤ evMaxDepth) blankEnv (fun _ ↦ rfl) blankPk blankSk none
  obtain ⟨s, hcalls, -, hsign⟩ := hruns [.evolve] (by simp [Call.Fits])
  obtain ⟨sig, hsig, -, -, hlater⟩ := hsign [1, 2, 3] (Vector.replicate _ 255) (by simp)
    (leafSignatureEnds_constantXof hleaf _ _ _ _)
  obtain ⟨s', hashed, hcalls', hverify⟩ := hlater [.evolve] (by simp [Call.Fits])
  exact ⟨leaf, hleaf, result, s, s', sig, hashed, hcalls, hsig, hcalls', hverify⟩

end EvMlDsa
