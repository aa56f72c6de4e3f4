import EvMlDsa.Coherence
import EvMlDsa.Verify
import EvMlDsa.Wire

/-!
# End-to-end correctness

A signature is verified by a party that holds only the public key, at any later time. If leaf
signatures are correct (`LeafCorrect`), every signature issued in a run is accepted
(`evVerify_evSign`): what `ev_sign` writes at period `p` is the layout of the canonical fields of
`p` (`evSign_of_coherent`), and those fields verify (`evVerify_canonical`).
-/

set_option autoImplicit false
set_option relaxedAutoImplicit false

namespace EvMlDsa

open Library.HashTree Library.PerfectTree

section Bytes

variable (host : ByteOrder) {mode : DilithiumMode} {Rnd : Type} (vendored : Vendored mode Rnd)
  (legacy : Bool)

/-- Correctness of the leaf signature scheme: under every key pair `ev_leaf_keypair` returns, with
every message and every randomness, signing returns 0, writes `CRYPTO_BYTES` bytes, and verification
accepts them. -/
def LeafCorrect : Prop :=
  ∀ (rhoP leafSeed : Block) (leafPk : Vector UInt8 (cryptoPublickeybytes mode))
    (leafSk : Vector UInt8 (cryptoSecretkeybytes mode)) (rnd : Rnd) (cm : List UInt8),
    let key := evLeafKeypair vendored rhoP leafSeed leafPk leafSk
    ∃ σ, vendored.cryptoSignSignature rnd cm key.2 = (0, σ) ∧ σ.length = cryptoBytes mode ∧
      vendored.cryptoSignVerify σ cm key.1 = 0

variable {pk : EvPk Block} {rootSeed : Block} {depth p : ℕ}
  {buffers : LeafPk Block (PackedT1 mode) × Vector UInt8 (cryptoSecretkeybytes mode)}

/-- Correctness of the leaf signature under the leaf key of a period. -/
theorem LeafCorrect.leafKeypairAt (hcorrect : LeafCorrect vendored) (rho : Block) (rnd : Rnd)
    (cm : List UInt8) :
    let key := leafKeypairAt (bytePrimitives host vendored) legacy rho rootSeed depth buffers p
    ∃ σ, vendored.cryptoSignSignature rnd cm key.2 = (0, σ) ∧ σ.length = cryptoBytes mode ∧
      vendored.cryptoSignVerify σ cm key.1.toBuffer = 0 := by
  simp only [EvMlDsa.leafKeypairAt, bytePrimitives, LeafPk.toBuffer_ofBuffer]
  exact hcorrect _ _ _ _ rnd cm

/-- The signature of period `p` over a leaf signature: the tag, `σ`, the packed `t1` of the period
and its authentication path. -/
def canonicalSig (rho rootSeed : Block) (depth : ℕ)
    (buffers : LeafPk Block (PackedT1 mode) × Vector UInt8 (cryptoSecretkeybytes mode)) (p : ℕ)
    (σ : List UInt8) : List UInt8 :=
  sigLayout (bigEndian (UInt32.ofNat p)) σ
    (leafT1At (bytePrimitives host vendored) legacy rho rootSeed depth buffers p)
    (honestPath (evHashNode host)
      (leafDigestAt (bytePrimitives host vendored) legacy rho rootSeed depth buffers) depth p)

theorem length_canonicalSig (hdepth : depth ≤ evMaxDepth) (rho : Block) {σ : List UInt8}
    (hσ : σ.length = cryptoBytes mode) :
    (canonicalSig host vendored legacy rho rootSeed depth buffers p σ).length =
      (evSigBytes mode (EvParams.ofDepth depth).depth).toNat := by
  rw [canonicalSig, length_sigLayout _ hσ, length_honestPath, toNat_evSigBytes mode hdepth]

/-- At period `p` a signing call writes the canonical signature over the leaf signature. -/
theorem evSign_of_coherent (hdepth : depth ≤ evMaxDepth) {sk : EvSk Block (PackedT1 mode)
      (Vector UInt8 (cryptoSecretkeybytes mode))}
    (hsk : Coherent (bytePrimitives host vendored) legacy pk rootSeed depth buffers p sk)
    (hp : p < 2 ^ depth) {m : List UInt8} (hm : 1 + 4 + m.length < 2 ^ 64) (rnd : Rnd)
    {σ : List UInt8} (hlength : σ.length = cryptoBytes mode)
    (hσ : vendored.cryptoSignSignature rnd (compositeMessage (bigEndian (UInt32.ofNat p)) m)
      (leafKeypairAt (bytePrimitives host vendored) legacy pk.rho rootSeed depth buffers p).2 =
        (0, σ)) :
    evSign host vendored sk m rnd true =
      some ⟨0, canonicalSig host vendored legacy pk.rho rootSeed depth buffers p σ,
        some (evSigBytes mode (EvParams.ofDepth depth).depth).toNat⟩ := by
  have hsign := evSignFields_of_coherent (bytePrimitives host vendored) legacy hdepth hsk hp m hm
    rnd true
  have hbyte : (bytePrimitives host vendored).cryptoSignSignature rnd
      (compositeMessage (bigEndian (UInt32.ofNat p)) m)
      (leafKeypairAt (bytePrimitives host vendored) legacy pk.rho rootSeed depth buffers p).2 =
        (0, σ) := hσ
  simp only [signFieldsAt, if_true, hbyte, ne_eq, not_true_eq_false, if_false] at hsign
  have hpath : ((EvParams.ofDepth depth).depth * UInt32.ofNat evHashBytes).toNat = 32 * depth := by
    have hbound : depth ≤ 20 := hdepth
    rw [UInt32.toNat_mul, toNat_ofDepth_depth hdepth]
    simp only [evHashBytes, UInt32.reduceOfNat, UInt32.reduceToNat]
    omega
  have hsiglen : 4 + cryptoBytes mode + t1Bytes mode + 32 * depth =
      (evSigBytes mode (EvParams.ofDepth depth).depth).toNat :=
    (toNat_evSigBytes mode hdepth).symm
  simp only [evSign, hsign, hsk.par, hpath, Option.getD_some, hlength, hsiglen,
    Option.bind_eq_bind, Option.bind_some, Option.pure_def, if_true, SignResult.bytes,
    Option.elim_some, canonicalSig, sigLayout, List.append_assoc]
  rfl

/-- The canonical signature of a period verifies if the leaf signature in it is valid under the
leaf key of the period. -/
theorem evVerify_canonical (hdepth : depth ≤ evMaxDepth) (hpar : pk.par = .ofDepth depth)
    (hroot : pk.root = treeHash (evHashNode host)
      (leafDigestAt (bytePrimitives host vendored) legacy pk.rho rootSeed depth buffers) depth 0)
    (hp : p < 2 ^ depth) {m : List UInt8} (hm : 1 + 4 + m.length < 2 ^ 64) {σ : List UInt8}
    (hlength : σ.length = cryptoBytes mode)
    (hσ : vendored.cryptoSignVerify σ (compositeMessage (bigEndian (UInt32.ofNat p)) m)
      (leafKeypairAt (bytePrimitives host vendored) legacy pk.rho rootSeed depth
        buffers p).1.toBuffer = 0) :
    ∃ hashed, evVerify host vendored legacy (fun _ ↦ true) pk m
      (canonicalSig host vendored legacy pk.rho rootSeed depth buffers p σ) = some ⟨0, hashed⟩ := by
  rw [canonicalSig, evVerify_sigLayout host vendored legacy _ hdepth hpar m _ hlength _
    (length_honestPath (evHashNode host) _ depth p)]
  exact evVerifyFields_canonical (bytePrimitives host vendored) legacy hdepth hpar hroot hp hm hσ

/-- End-to-end correctness. For every lifetime `2 ^ depth` up to the maximal depth, every root seed,
every randomness and both matrix seed modes, `ev_keygen` with every allocation granted returns 0,
and from its key every run of `ev_sign` and `ev_evolve` calls whose messages fit ends. A message
signed then, after `p` successful evolutions, gets a signature of `ev_sig_bytes(depth)` bytes that
starts with the tag `p`, and `ev_verify` accepts it, whatever calls come in between. -/
theorem evVerify_evSign (hcorrect : LeafCorrect vendored) (hdepth : depth ≤ evMaxDepth)
    (env : KeygenEnv Block (PackedT1 mode) (Vector UInt8 (cryptoSecretkeybytes mode)))
    (halloc : ∀ i, env.alloc i = true) (pk : EvPk Block)
    (sk : EvSk Block (PackedT1 mode) (Vector UInt8 (cryptoSecretkeybytes mode)))
    (rootSeedIn : Option Block) :
    ∃ result,
      evKeygen (bytePrimitives host vendored) legacy env pk sk (EvParams.ofDepth depth).T
        rootSeedIn = some result ∧ result.ret = 0 ∧
      ∀ run : List (Call Rnd), (∀ c ∈ run, c.Fits) →
        ∃ s, (Signer.start result.sk).calls (bytePrimitives host vendored) legacy run = some s ∧
          s.evolved < 2 ^ depth ∧
          ∀ (m : List UInt8) (rnd : Rnd), 1 + 4 + m.length < 2 ^ 64 →
            ∃ sig, evSign host vendored s.sk m rnd true =
                some ⟨0, sig, some (evSigBytes mode (EvParams.ofDepth depth).depth).toNat⟩ ∧
              sig.length = (evSigBytes mode (EvParams.ofDepth depth).depth).toNat ∧
              sig.take 4 = (bigEndian (UInt32.ofNat s.evolved)).toList ∧
              ∀ later : List (Call Rnd), (∀ c ∈ later, c.Fits) →
                ∃ s' hashed, s.calls (bytePrimitives host vendored) legacy later = some s' ∧
                  evVerify host vendored legacy (fun _ ↦ true) result.pk m sig =
                    some ⟨0, hashed⟩ := by
  obtain ⟨result, hkeygen, -, hgenerated⟩ :=
    evKeygen_spec (bytePrimitives host vendored) legacy env halloc hdepth pk sk rootSeedIn
  refine ⟨result, hkeygen, hgenerated.ret, ?_⟩
  intro run hrun
  obtain ⟨s, hcalls, hs⟩ := calls_running (bytePrimitives host vendored) legacy hdepth
    (start_running _ legacy hgenerated) run hrun
  refine ⟨s, hcalls, hs.inLifetime, ?_⟩
  intro m rnd hm
  obtain ⟨σ, hsigned, hlength, hvalid⟩ := hcorrect.leafKeypairAt host vendored legacy
    result.pk.rho rnd (compositeMessage (bigEndian (UInt32.ofNat s.evolved)) m)
  refine ⟨_, evSign_of_coherent host vendored legacy hdepth hs.coherent hs.inLifetime hm rnd hlength
    hsigned, length_canonicalSig host vendored legacy hdepth _ hlength, ?_, ?_⟩
  · rw [canonicalSig, sigLayout]
    exact List.take_left' Vector.length_toList
  · intro later hlater
    obtain ⟨s', hcalls', -⟩ := calls_running (bytePrimitives host vendored) legacy hdepth hs later
      hlater
    obtain ⟨hashed, hverify⟩ := evVerify_canonical host vendored legacy hdepth hs.coherent.pkPar
      hs.coherent.root hs.inLifetime hm hlength hvalid
    exact ⟨s', hashed, hcalls', hverify⟩

end Bytes

/-- A lifetime of four periods over a leaf layer that signs with zero bytes: a message signed after
two evolutions is accepted after the third. -/
theorem evVerify_evSign_witness :
    ∃ (result : KeygenResult Block (PackedT1 .two) (Vector UInt8 (cryptoSecretkeybytes .two)))
      (s s' : ByteSigner .two) (sig : List UInt8)
      (hashed : List (HashInput Block (PackedT1 .two))),
      (Signer.start result.sk).calls (bytePrimitives .little blankVendored) false
        [.evolve, .evolve] = some s ∧
      evSign .little blankVendored s.sk [1, 2, 3] () true =
        some ⟨0, sig, some (evSigBytes .two (EvParams.ofDepth 2).depth).toNat⟩ ∧
      s.calls (bytePrimitives .little blankVendored) false [.evolve] = some s' ∧
      evVerify .little blankVendored false (fun _ ↦ true) result.pk [1, 2, 3] sig =
        some ⟨0, hashed⟩ := by
  have hcorrect : LeafCorrect blankVendored := fun _ _ _ _ _ _ ↦
    ⟨_, rfl, List.length_replicate, rfl⟩
  obtain ⟨result, -, -, hruns⟩ := evVerify_evSign .little blankVendored false hcorrect
    (by decide : 2 ≤ evMaxDepth) blankEnv (fun _ ↦ rfl) blankPk blankSk none
  obtain ⟨s, hcalls, -, hsign⟩ := hruns [.evolve, .evolve] (by simp [Call.Fits])
  obtain ⟨sig, hsig, -, -, hlater⟩ := hsign [1, 2, 3] () (by simp)
  obtain ⟨s', hashed, hcalls', hverify⟩ := hlater [.evolve] (by simp [Call.Fits])
  exact ⟨result, s, s', sig, hashed, hcalls, hsig, hcalls', hverify⟩

/-! ### Signatures that carry the matrix seed -/

/-- A leaf layer whose signatures carry the matrix seed they were made under and are valid under no
other. -/
def Vendored.seedSigned (vendored : Vendored .two Unit) : Vendored .two Unit :=
  { vendored with
    cryptoSignSignature := fun _ _ sk ↦ (0, sk.toList.take seedBytes ++ List.replicate 2388 0)
    cryptoSignVerify := fun σ _ pk ↦
      if σ.take seedBytes = pk.toList.take seedBytes then 0 else -1 }

section SeedSigned

variable {vendored : Vendored .two Unit}

theorem Vendored.seedSigned_verify {σ cm : List UInt8}
    {leafPk : Vector UInt8 (cryptoPublickeybytes .two)}
    (hsame : σ.take seedBytes = leafPk.toList.take seedBytes) :
    vendored.seedSigned.cryptoSignVerify σ cm leafPk = 0 :=
  if_pos hsame

theorem Vendored.seedSigned_verify_eq_zero {σ cm : List UInt8}
    {leafPk : LeafPk Block (PackedT1 .two)}
    (hvalid : vendored.seedSigned.cryptoSignVerify σ cm leafPk.toBuffer = 0) :
    σ.take seedBytes = leafPk.rho.toList := by
  have hsame : σ.take seedBytes = leafPk.toBuffer.toList.take seedBytes := by
    by_contra hother
    have hcode : vendored.seedSigned.cryptoSignVerify σ cm leafPk.toBuffer = -1 := if_neg hother
    exact absurd (hcode.symm.trans hvalid) (by decide)
  rw [hsame, LeafPk.toList_toBuffer]
  exact List.take_left' Vector.length_toList

theorem Vendored.seedSigned_leafCorrect : LeafCorrect vendored.seedSigned := by
  intro rhoP leafSeed leafPk leafSk rnd cm key
  have hsk : key.2.toList.take seedBytes = rhoP.toList :=
    take_evLeafKeypair_snd vendored.seedSigned rhoP leafSeed leafPk leafSk
  have hpk : key.1.toList.take seedBytes = rhoP.toList :=
    take_evLeafKeypair vendored.seedSigned rhoP leafSeed leafPk leafSk
  refine ⟨_, rfl, ?_, ?_⟩
  · rw [hsk, List.length_append, Vector.length_toList, List.length_replicate]
    rfl
  · apply Vendored.seedSigned_verify
    have hlength : rhoP.toList.length = seedBytes := Vector.length_toList
    rw [hsk, hpk, ← hlength, List.take_left]

end SeedSigned

end EvMlDsa
