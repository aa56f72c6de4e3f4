import EvMlDsa.AllocationFailure

/-!
# What the verifier accepts

Under the root of a generated key `ev_verify` accepts the canonical wrappings of valid leaf
signatures and nothing else (`evVerify_eq_zero_iff`), provided SHA3-256 has no collision among the
inputs of the leaf and tree hashes that key generation and the verification in question apply it
to. So an accepted signature is determined by its tag outside the leaf signature.
-/

set_option autoImplicit false
set_option relaxedAutoImplicit false

namespace EvMlDsa

open Library.FixedArray Library.HashTree Library.PerfectTree

/-! ### Hash inputs as bytes -/

/-- The byte string that is hashed. -/
def HashInput.bytes {mode : DilithiumMode} : HashInput Block (PackedT1 mode) → List UInt8
  | .leaf t1 => evDomLeaf :: t1.toList
  | .node left right => evDomNode :: (left.toList ++ right.toList)

theorem HashInput.bytes_injective {mode : DilithiumMode} {x y : HashInput Block (PackedT1 mode)}
    (h : x.bytes = y.bytes) : x = y := by
  cases x with
  | leaf t1 =>
    cases y with
    | leaf t1' => rw [Vector.toList_inj.mp (List.cons.inj h).2]
    | node => exact absurd (List.cons.inj h).1 (by decide)
  | node left right =>
    cases y with
    | leaf => exact absurd (List.cons.inj h).1 (by decide)
    | node left' right' =>
      have hsplit := List.append_inj (List.cons.inj h).2
        (Vector.length_toList.trans Vector.length_toList.symm)
      rw [Vector.toList_inj.mp hsplit.1, Vector.toList_inj.mp hsplit.2]

/-- Different byte strings of the list have different SHA3-256 digests. -/
def Sha3CollisionFree (host : ByteOrder) (inputs : List (List UInt8)) : Prop :=
  ∀ x ∈ inputs, ∀ y ∈ inputs, evSha3_256 host x = evSha3_256 host y → x = y

section Bytes

variable (host : ByteOrder) {mode : DilithiumMode} {Rnd : Type} (vendored : Vendored mode Rnd)
  (legacy : Bool)

theorem HashInput.digest_eq (x : HashInput Block (PackedT1 mode)) :
    x.digest (bytePrimitives host vendored) = evSha3_256 host x.bytes := by
  cases x <;> rfl

theorem Sha3CollisionFree.collisionFree {inputs : List (HashInput Block (PackedT1 mode))}
    (hfree : Sha3CollisionFree host (inputs.map HashInput.bytes)) :
    CollisionFree (bytePrimitives host vendored) inputs := by
  intro x hx y hy hdigest
  rw [HashInput.digest_eq, HashInput.digest_eq] at hdigest
  exact HashInput.bytes_injective
    (hfree _ (List.mem_map_of_mem hx) _ (List.mem_map_of_mem hy) hdigest)

/-! ### The fields of a period -/

/-- The packed `t1` that key generation commits to for a period: `ev_leaf_t_commit` on the leaf seed
of its walker, which has advanced once for each earlier period. -/
def committedT1 (pk : EvPk Block) (rootSeed : Block)
    (buffers : LeafPk Block (PackedT1 mode) × Vector UInt8 (cryptoSecretkeybytes mode))
    (p : UInt32) : PackedT1 mode :=
  let walk := (advanceTimes (evDeriveChild host) p.toNat
    (evTreeInit (evDeriveChild host) pk.par rootSeed)).2
  evLeafTCommit (bytePrimitives host vendored) legacy pk.rho p (evTreeLeaf walk) buffers.1 buffers.2

variable {depth : ℕ} {rootSeed : Block}
  {buffers : LeafPk Block (PackedT1 mode) × Vector UInt8 (cryptoSecretkeybytes mode)}

theorem committedT1_eq (hdepth : depth ≤ evMaxDepth) {pk : EvPk Block}
    (hpar : pk.par = .ofDepth depth) {p : UInt32} (hp : p.toNat < 2 ^ depth) :
    committedT1 host vendored legacy pk rootSeed buffers p =
      leafT1At (bytePrimitives host vendored) legacy pk.rho rootSeed depth buffers p.toNat := by
  have hleaf := evTreeLeaf_stateAt (evDeriveChild host) hdepth rootSeed p.toNat
  simp only [committedT1, hpar, advanceTimes_eq_stateAt (evDeriveChild host) hdepth hp, hleaf,
    evLeafTCommit, leafT1At, leafKeypairAt, UInt32.ofNat_toNat]
  rfl

/-- A signature of period `p` over the leaf signature `σ`: `BE32(p) || σ || t1_p || path_p`, with
`σ` valid for the composite message of `p` and `m` under the leaf key of `p`. -/
structure Wraps
    (result : KeygenResult Block (PackedT1 mode) (Vector UInt8 (cryptoSecretkeybytes mode)))
    (rootSeed : Block)
    (buffers : LeafPk Block (PackedT1 mode) × Vector UInt8 (cryptoSecretkeybytes mode))
    (m sig : List UInt8) (p : UInt32) (σ : List UInt8) : Prop where
  inLifetime : p < result.pk.par.T
  length : σ.length = cryptoBytes mode
  layout : ∃ path events, evMerklePath result.sk.mt p = some (0, path, events) ∧
    sig = (bigEndian p).toList ++ (σ ++
      ((committedT1 host vendored legacy result.pk rootSeed buffers p).toList ++
        path.flatMap (·.toList)))
  valid : vendored.cryptoSignVerify σ (0x05 :: ((bigEndian p).toList ++ m)) (LeafPk.toBuffer
    ⟨evMatrixSeed (bytePrimitives host vendored) legacy result.pk.rho p,
      committedT1 host vendored legacy result.pk rootSeed buffers p⟩) = 0

variable {result : KeygenResult Block (PackedT1 mode) (Vector UInt8 (cryptoSecretkeybytes mode))}

/-- A wrapping is the canonical signature of its period. -/
theorem Wraps.eq_canonicalSig
    (hresult : Generated (bytePrimitives host vendored) legacy rootSeed depth buffers result)
    (hdepth : depth ≤ evMaxDepth) {m sig : List UInt8} {p : UInt32} {σ : List UInt8}
    (hwraps : Wraps host vendored legacy result rootSeed buffers m sig p σ) :
    sig = canonicalSig host vendored legacy result.pk.rho rootSeed depth buffers p.toNat σ := by
  have hp := hresult.lt_two_pow hdepth hwraps.inLifetime
  obtain ⟨path, events, hpath, hsig⟩ := hwraps.layout
  have hD := toNat_ofDepth_depth hdepth
  obtain ⟨events', hpath', -⟩ := evMerklePath_spec (bytePrimitives host vendored).evHashNode
    hresult.coherent.mt (show p.toNat < 2 ^ (EvParams.ofDepth depth).depth.toNat by rwa [hD])
  obtain ⟨rfl, -⟩ := Prod.mk.inj (Prod.mk.inj (Option.some.inj (hpath.symm.trans hpath'))).2
  rw [hsig, committedT1_eq host vendored legacy hdepth hresult.coherent.pkPar hp, hD, canonicalSig,
    UInt32.ofNat_toNat]
  rfl

/-! ### Acceptance -/

/-- Under a generated key the verifier returns on every byte string. -/
theorem exists_evVerify (hdepth : depth ≤ evMaxDepth) {pk : EvPk Block}
    (hpar : pk.par = .ofDepth depth) {m : List UInt8} (hm : 1 + 4 + m.length < 2 ^ 64)
    (sig : List UInt8) :
    ∃ verified, evVerify host vendored legacy (fun _ ↦ true) pk m sig = some verified := by
  by_cases hlength : sig.length = (evSigBytes mode (EvParams.ofDepth depth).depth).toNat
  · rw [toNat_evSigBytes mode hdepth] at hlength
    obtain ⟨tag, σ, t1, path, hσ, hpath, rfl⟩ := eq_sigLayout_of_length hlength
    rw [evVerify_sigLayout host vendored legacy _ hdepth hpar m tag hσ t1 hpath]
    have hread : ∀ l < pk.par.depth.toNat, pathSlot l < path.length := by
      intro l hl
      rw [hpar, toNat_ofDepth_depth hdepth] at hl
      have hbound : depth ≤ 20 := hdepth
      rwa [pathSlot_eq (by omega), hpath]
    by_cases htag : pk.par.T ≤ readBigEndian tag
    · exact ⟨_, by rw [evVerifyFields, if_pos htag]⟩
    · simp only [evVerifyFields, if_neg htag, evMerkleLeafdigest, if_true, evMerkleVerify,
        verifyLoop_eq (bytePrimitives host vendored).evHashNode path pk.root hread,
        Option.bind_eq_bind, Option.bind_some, Option.pure_def, if_neg (Nat.not_le.mpr hm)]
      split_ifs <;> exact ⟨_, rfl⟩
  · exact ⟨_, by rw [evVerify, hpar, if_pos hlength]⟩

/-- An accepted signature is a wrapping. -/
theorem exists_wraps_of_accepted
    (hresult : Generated (bytePrimitives host vendored) legacy rootSeed depth buffers result)
    (hdepth : depth ≤ evMaxDepth) {m sig : List UInt8}
    {hashed : List (HashInput Block (PackedT1 mode))}
    (haccept : evVerify host vendored legacy (fun _ ↦ true) result.pk m sig = some ⟨0, hashed⟩)
    (hfree : Sha3CollisionFree host ((result.hashed ++ hashed).map HashInput.bytes)) :
    ∃ p σ, Wraps host vendored legacy result rootSeed buffers m sig p σ := by
  have hpar := hresult.coherent.pkPar
  have hD := toNat_ofDepth_depth hdepth
  have hlength : sig.length = pathOffset mode + 32 * depth := by
    by_contra hlength
    rw [← toNat_evSigBytes mode hdepth, ← hpar] at hlength
    rw [evVerify, if_pos hlength] at haccept
    exact absurd (congrArg VerifyResult.ret (Option.some.inj haccept)) (show (-1 : ℤ) ≠ 0 by decide)
  obtain ⟨tag, σ, t1, path, hσ, hpath, rfl⟩ := eq_sigLayout_of_length hlength
  rw [evVerify_sigLayout host vendored legacy _ hdepth hpar m tag hσ t1 hpath,
    evVerifyFields_accepts_iff] at haccept
  obtain ⟨htag, dg, leafHashed, pairs, σ', t1', hdigest, hopens, hsame, hsame', ⟨-, -, hvalid⟩,
    rfl⟩ := haccept
  obtain rfl := Option.some.inj hsame
  obtain rfl := Option.some.inj hsame'
  obtain ⟨rfl, rfl⟩ := Prod.mk.inj (Option.some.inj hdigest)
  have hfree' := hfree.collisionFree host vendored
  obtain ⟨hp, hleaf, htake⟩ := canonical_of_opens (bytePrimitives host vendored) legacy hresult
    hdepth htag hopens (hfree'.mono fun x hx ↦ by
      rcases List.mem_append.mp hx with hx | hx
      · exact List.mem_append_left _ hx
      · exact List.mem_append_right _ (List.mem_append_right _ hx))
  have hcanonical := t1_of_hashLeaf_eq (bytePrimitives host vendored) legacy hresult hp
    (hfree'.mono fun x hx ↦ by
      rcases List.mem_append.mp hx with hx | hx
      · exact List.mem_append_left _ hx
      · exact List.mem_append_right _ (List.mem_append_left _ hx)) hleaf
  rw [← hpath, List.take_length] at htake
  obtain ⟨events, hread, -⟩ := evMerklePath_spec (bytePrimitives host vendored).evHashNode
    hresult.coherent.mt (p := readBigEndian tag) (by rwa [hD])
  rw [hD] at hread
  rw [hpath] at htake
  have ht1 : t1 =
      committedT1 host vendored legacy result.pk rootSeed buffers (readBigEndian tag) := by
    rw [hcanonical, committedT1_eq host vendored legacy hdepth hpar hp]
  refine ⟨readBigEndian tag, σ, htag, hσ, ⟨path, events, ?_, ?_⟩, ?_⟩
  · rw [htake]
    exact hread
  · rw [bigEndian_readBigEndian, ← ht1, sigLayout]
  · rw [bigEndian_readBigEndian, ← ht1]
    exact hvalid

/-- A wrapping is accepted. -/
theorem Wraps.accepted
    (hresult : Generated (bytePrimitives host vendored) legacy rootSeed depth buffers result)
    (hdepth : depth ≤ evMaxDepth) {m sig : List UInt8} (hm : 1 + 4 + m.length < 2 ^ 64) {p : UInt32}
    {σ : List UInt8} (hwraps : Wraps host vendored legacy result rootSeed buffers m sig p σ) :
    ∃ hashed, evVerify host vendored legacy (fun _ ↦ true) result.pk m sig = some ⟨0, hashed⟩ := by
  have hp := hresult.lt_two_pow hdepth hwraps.inLifetime
  have hkey := leafKeypairAt_rho (bytePrimitives host vendored) legacy result.pk.rho rootSeed depth
    buffers p.toNat
  have hvalid := hwraps.valid
  rw [committedT1_eq host vendored legacy hdepth hresult.coherent.pkPar hp] at hvalid
  rw [UInt32.ofNat_toNat] at hkey
  rw [hwraps.eq_canonicalSig host vendored legacy hresult hdepth]
  refine evVerify_canonical host vendored legacy hdepth hresult.coherent.pkPar hresult.coherent.root
    hp hm hwraps.length ?_
  rw [UInt32.ofNat_toNat]
  rw [← hkey] at hvalid
  exact hvalid

/-- Acceptance characterised. After a successful `ev_keygen` with every allocation granted,
`ev_verify` returns on every byte string, and if SHA3-256 does not collide on what key generation
and this call hash for leaves and nodes, it returns 0 exactly for the wrappings of a valid leaf
signature of some period. Two accepted signatures with the same tag, on any messages, agree behind
the leaf signature. -/
theorem evVerify_eq_zero_iff
    (env : KeygenEnv Block (PackedT1 mode) (Vector UInt8 (cryptoSecretkeybytes mode)))
    (halloc : ∀ i, env.alloc i = true) (pk : EvPk Block) (sk : ByteSk mode) (T : UInt32)
    (rootSeedIn : Option Block)
    (result : KeygenResult Block (PackedT1 mode) (Vector UInt8 (cryptoSecretkeybytes mode)))
    (hkeygen : evKeygen (bytePrimitives host vendored) legacy env pk sk T rootSeedIn = some result)
    (hret : result.ret = 0) :
    (∀ m sig : List UInt8, 1 + 4 + m.length < 2 ^ 64 →
      ∃ verified, evVerify host vendored legacy (fun _ ↦ true) result.pk m sig = some verified ∧
        (Sha3CollisionFree host ((result.hashed ++ verified.hashed).map HashInput.bytes) →
          (verified.ret = 0 ↔ ∃ p σ, Wraps host vendored legacy result
            (rootSeedIn.getD (env.random 0)) (env.stackPk, env.stackSk) m sig p σ))) ∧
    (∀ (m m' sig sig' : List UInt8) (hashed hashed' : List (HashInput Block (PackedT1 mode))),
      evVerify host vendored legacy (fun _ ↦ true) result.pk m sig = some ⟨0, hashed⟩ →
      evVerify host vendored legacy (fun _ ↦ true) result.pk m' sig' = some ⟨0, hashed'⟩ →
      Sha3CollisionFree host ((result.hashed ++ hashed).map HashInput.bytes) →
      Sha3CollisionFree host ((result.hashed ++ hashed').map HashInput.bytes) →
      sig.take 4 = sig'.take 4 →
      sig.drop (4 + cryptoBytes mode) = sig'.drop (4 + cryptoBytes mode)) := by
  obtain ⟨depth, hdepth, rfl, -, hresult⟩ :=
    exists_depth_of_evKeygen _ legacy env halloc pk sk hkeygen hret
  constructor
  · intro m sig hm
    obtain ⟨⟨ret, hashed⟩, hverify⟩ :=
      exists_evVerify host vendored legacy hdepth hresult.coherent.pkPar hm sig
    refine ⟨_, hverify, fun hfree ↦ ⟨?_, ?_⟩⟩
    · rintro rfl
      exact exists_wraps_of_accepted host vendored legacy hresult hdepth hverify hfree
    · rintro ⟨p, σ, hwraps⟩
      obtain ⟨hashed', haccept⟩ := hwraps.accepted host vendored legacy hresult hdepth hm
      exact congrArg VerifyResult.ret (Option.some.inj (hverify.symm.trans haccept))
  · intro m m' sig sig' hashed hashed' haccept haccept' hfree hfree' htag
    obtain ⟨p, σ, hwraps⟩ :=
      exists_wraps_of_accepted host vendored legacy hresult hdepth haccept hfree
    obtain ⟨p', σ', hwraps'⟩ :=
      exists_wraps_of_accepted host vendored legacy hresult hdepth haccept' hfree'
    obtain ⟨path, events, hpath, rfl⟩ := hwraps.layout
    obtain ⟨path', events', hpath', rfl⟩ := hwraps'.layout
    rw [List.take_left' Vector.length_toList, List.take_left' Vector.length_toList,
      Vector.toList_inj] at htag
    obtain rfl : p = p' := by
      rw [← readBigEndian_bigEndian p, htag, readBigEndian_bigEndian]
    obtain ⟨rfl, -⟩ := Prod.mk.inj (Prod.mk.inj (Option.some.inj (hpath.symm.trans hpath'))).2
    have hfront (σ : List UInt8) (hσ : σ.length = cryptoBytes mode) :
        ((bigEndian p).toList ++ σ).length = 4 + cryptoBytes mode := by
      rw [List.length_append, Vector.length_toList, hσ]
    rw [← List.append_assoc, List.drop_left' (hfront σ hwraps.length), ← List.append_assoc,
      List.drop_left' (hfront σ' hwraps'.length)]

/-- For a canonical signature the verifier hashes nothing that key generation has not hashed. -/
theorem mem_hashed_of_canonical
    (hresult : Generated (bytePrimitives host vendored) legacy rootSeed depth buffers result)
    (hdepth : depth ≤ evMaxDepth) {p : ℕ} (hp : p < 2 ^ depth) {m σ : List UInt8}
    (hσ : σ.length = cryptoBytes mode) {hashed : List (HashInput Block (PackedT1 mode))}
    (haccept : evVerify host vendored legacy (fun _ ↦ true) result.pk m
      (canonicalSig host vendored legacy result.pk.rho rootSeed depth buffers p σ) =
        some ⟨0, hashed⟩) :
    ∀ x ∈ hashed, x ∈ result.hashed := by
  have hpar := hresult.coherent.pkPar
  have hD := toNat_ofDepth_depth hdepth
  have hP := toNat_ofNat_of_lt_two_pow hdepth hp
  rw [canonicalSig, evVerify_sigLayout host vendored legacy _ hdepth hpar m _ hσ _
    (length_honestPath _ _ _ _), evVerifyFields_accepts_iff] at haccept
  obtain ⟨-, dg, leafHashed, pairs, -, -, hdigest, hopens, -, -, -, rfl⟩ := haccept
  obtain ⟨rfl, rfl⟩ := Prod.mk.inj (Option.some.inj hdigest)
  obtain ⟨pairs', hopens', hpairs⟩ := evMerkleVerify_honestPath (evHashNode host)
    (leafDigestAt (bytePrimitives host vendored) legacy result.pk.rho rootSeed depth buffers)
    (show (EvParams.ofDepth depth).depth.toNat ≤ 2 ^ 27 by
      rw [hD]
      exact le_trans hdepth (by decide))
    (show (UInt32.ofNat p).toNat < 2 ^ (EvParams.ofDepth depth).depth.toNat by rwa [hD, hP])
  rw [hD, hP] at hopens'
  rw [hD] at hpairs
  rw [readBigEndian_bigEndian, hpar, hresult.coherent.root] at hopens
  obtain ⟨-, rfl⟩ := Prod.mk.inj (Option.some.inj (hopens.symm.trans hopens'))
  intro x hx
  rcases List.mem_cons.mp hx with rfl | hx
  · exact hresult.leafHashed p hp
  · obtain ⟨pair, hpair, rfl⟩ := List.mem_map.mp hx
    obtain ⟨level, idx, hlevel, hidx, rfl⟩ := hpairs pair hpair
    exact hresult.nodeHashed level idx hlevel hidx

end Bytes

/-! ### A lifetime of two periods -/

section Scheme

variable {Block T1 LeafSk Fswa Rnd : Type} [Zero Block]
  (prims : Primitives Block T1 LeafSk Fswa Rnd) (legacy : Bool)

omit [Zero Block] in
/-- A tree of two leaves is built with one hash. -/
theorem hashInputs_two {mt built : EvMerkleTree Block} {evHashNode : Block → Block → Block}
    {left right : Block} {events : List (MerkleEvent Block)}
    (hbuild : evMerkleBuild evHashNode true mt (.ofDepth 1) [left, right] =
      some (0, built, events)) :
    (hashInputs events : List (HashInput Block T1)) = [.node left right] := by
  have hrun : ∃ built, evMerkleBuild evHashNode true mt (.ofDepth 1) [left, right] =
      some (0, built, [.write 32, .write 64, .read 32, .read 64, .hash left right, .write 0]) :=
    ⟨_, rfl⟩
  obtain ⟨built', hrun⟩ := hrun
  obtain ⟨-, rfl⟩ := Prod.mk.inj (Prod.mk.inj (Option.some.inj (hbuild.symm.trans hrun))).2
  rfl

/-- What key generation hashes for two periods. -/
theorem hashed_two {env : KeygenEnv Block T1 LeafSk} (halloc : ∀ i, env.alloc i = true)
    {pk : EvPk Block} {sk : EvSk Block T1 LeafSk} {rootSeed : Block}
    {result : KeygenResult Block T1 LeafSk}
    (hkeygen : evKeygen prims legacy env pk sk (EvParams.ofDepth 1).T (some rootSeed) =
      some result) :
    let t1 := leafT1At prims legacy result.pk.rho rootSeed 1 (env.stackPk, env.stackSk)
    result.hashed =
      [.leaf (t1 0), .leaf (t1 1), .node (prims.hashLeaf (t1 0)) (prims.hashLeaf (t1 1))] := by
  intro t1
  have hdepth : 1 ≤ evMaxDepth := by decide
  rw [evKeygen_accepted prims legacy env hdepth] at hkeygen
  obtain ⟨mt, events, hbuild, -, -, htail⟩ := keygenTail_of_levels prims legacy env hdepth _
    { pk with par := .ofDepth 1, rho := keygenRhoAt prims legacy env rootSeed }
    { sk with
      par := .ofDepth 1, rho := keygenRhoAt prims legacy env rootSeed
      tree := stateAt prims.evDeriveChild 1 rootSeed 0 } rootSeed rfl rfl (halloc 0) (halloc _)
  rw [if_pos ⟨halloc _, halloc _⟩] at htail
  obtain rfl := Option.some.inj (htail.symm.trans hkeygen)
  have hdigest : storedDigest prims legacy env (keygenRhoAt prims legacy env rootSeed) rootSeed 1 =
      fun p ↦ prims.hashLeaf (t1 p) :=
    funext fun p ↦ if_pos (halloc (1 + p))
  rw [hdigest] at hbuild
  simp only [leafInputs, halloc, if_true]
  rw [hashInputs_two hbuild]
  rfl

end Scheme

/-- A leaf layer with constant matrices, which the second bit of the seed chooses, a product that
keeps one polynomial of each row, and signatures that carry the seed. -/
def bitVendored : Vendored .two Unit :=
  Vendored.seedSigned
    { blankVendored with
      polyvecMatrixExpand := fun rhoP ↦ Vector.replicate _ (Vector.replicate _
        (Vector.replicate _ (if rhoP.getD 0 0 &&& 2 = 0 then 0 else 8380416)))
      polyvecMatrixPointwiseMontgomery := fun mat _ ↦
        mat.map fun row ↦ row.getD 0 (Vector.replicate _ 0) }

/-- Where the bit is not set, the public leaf key packs zero bytes, and otherwise bytes of ones. -/
theorem toList_t1_bitVendored (rhoP leafSeed : Block)
    (leafPk : Vector UInt8 (cryptoPublickeybytes .two))
    (leafSk : Vector UInt8 (cryptoSecretkeybytes .two)) :
    (LeafPk.ofBuffer (evLeafKeypair bitVendored rhoP leafSeed leafPk leafSk).1).t1.toList =
      List.replicate 1280 (if rhoP.getD 0 0 &&& 2 = 0 then 0 else 255) := by
  have hproduct (a : Int32) (z : Poly) :
      (Vector.replicate (DilithiumMode.K .two)
        (Vector.replicate (DilithiumMode.L .two) (Vector.replicate _ a : Poly))).map
          (fun row ↦ row.getD 0 z) = Vector.replicate _ (Vector.replicate _ a) := by
    rw [Vector.map_replicate, getD_eq_getElem _ _ (by decide), Vector.getElem_replicate]
  by_cases hbit : rhoP.getD 0 0 &&& 2 = 0
  · rw [if_pos hbit]
    refine toList_t1_of_constant (a := 0) (c := 0) bitVendored rhoP leafSeed leafPk leafSk
      (fun _ ↦ ?_) (fun _ _ ↦ rfl) (by decide) (by decide)
    simp only [bitVendored, Vendored.seedSigned, hbit, if_true]
    exact hproduct 0 _
  · rw [if_neg hbit]
    refine toList_t1_of_constant (a := 8380416) (c := 1023) bitVendored rhoP leafSeed leafPk leafSk
      (fun _ ↦ ?_) (fun _ _ ↦ rfl) (by decide) (by decide)
    simp only [bitVendored, Vendored.seedSigned, hbit, if_false]
    exact hproduct 8380416 _

theorem toList_leafT1At_bitVendored (rho rootSeed : Block) (depth p : ℕ)
    (buffers : LeafPk Block (PackedT1 .two) × Vector UInt8 (cryptoSecretkeybytes .two)) :
    (leafT1At (bytePrimitives .little bitVendored) false rho rootSeed depth buffers p).toList =
      List.replicate 1280
        (if (evPeriodRho .little rho (UInt32.ofNat p)).getD 0 0 &&& 2 = 0 then 0 else 255) :=
  toList_t1_bitVendored _ _ _ buffers.2

/-! #### Its digests -/

/-- The words of the digest of a `t1` of bytes of ones. -/
def onesT1Words : List ℕ :=
  [0x42dcfb96bd5a1479, 0x5aff04f6004cb304, 0x66d062b3da73f356, 0x026a5791c0b7305a]

theorem words_onesT1 :
    (wordList (finalState (evDomLeaf :: List.replicate 1280 255))).take 4 = onesT1Words := by
  rw [wordList_finalState, messageBlocks_replicate]
  decide +kernel

/-- The words of the root over these two. -/
theorem words_twoLeaves :
    (wordList (finalState
      (evDomNode :: (digestBytes zeroT1Words ++ digestBytes onesT1Words)))).take 4 =
        [0xbf01eddcfdb2198f, 0x864bd7898dff153b, 0xba71747b174654a1, 0x42b455d83fe512ff] := by
  rw [wordList_finalState]
  decide +kernel

/-- The matrix seeds of the two periods under a public seed of zero bytes differ in their second
bit. -/
theorem bit_evPeriodRho :
    (evPeriodRho .little 0 0).getD 0 0 &&& 2 = 0 ∧
      ¬ (evPeriodRho .little 0 1).getD 0 0 &&& 2 = 0 := by
  have hinput : evDomMatrix :: ((0 : Block).toList ++ (bigEndian 0).toList) =
      7 :: List.replicate 36 0 := by
    decide
  have hinput' : evDomMatrix :: ((0 : Block).toList ++ (bigEndian 1).toList) =
      7 :: (List.replicate 35 0 ++ [1]) := by
    decide
  have hwords : (wordList (finalState (7 :: List.replicate 36 0))).take 4 =
      [0xb6b8119a38f5d94, 0xb85f24bfb787648, 0xbfd8c6c09a087681, 0x6aa318cefdd57255] := by
    rw [wordList_finalState]
    decide +kernel
  have hwords' : (wordList (finalState (7 :: (List.replicate 35 0 ++ [1])))).take 4 =
      [0xbb0c788001c5d6be, 0xfe70ad5d81258dc0, 0x9d597bf7cccd0919, 0xc459f1531a6223d9] := by
    rw [wordList_finalState]
    decide +kernel
  rw [evPeriodRho, evPeriodRho, hinput, hinput', ← getD_toList, ← getD_toList,
    toList_evSha3_256 hwords, toList_evSha3_256 hwords']
  decide

/-- Different digests make a list of inputs free of collisions. -/
theorem Sha3CollisionFree.of_nodup {host : ByteOrder} {inputs : List (List UInt8)}
    (hdigests : (inputs.map (evSha3_256 host)).Nodup) : Sha3CollisionFree host inputs :=
  fun _ hx _ hy ↦ List.inj_on_of_nodup_map hdigests hx hy

/-- What key generation over this layer hashes for two periods. -/
theorem bytes_hashed_bitVendored
    {result : KeygenResult Block (PackedT1 .two) (Vector UInt8 (cryptoSecretkeybytes .two))}
    (hkeygen : evKeygen (bytePrimitives .little bitVendored) false blankEnv blankPk blankSk
      (EvParams.ofDepth 1).T (some 0) = some result) (hrho : result.pk.rho = 0) :
    result.hashed.map HashInput.bytes =
      [evDomLeaf :: List.replicate 1280 0, evDomLeaf :: List.replicate 1280 255,
        evDomNode :: (digestBytes zeroT1Words ++ digestBytes onesT1Words)] := by
  let t1 := leafT1At (bytePrimitives .little bitVendored) false result.pk.rho 0 1
    (blankEnv.stackPk, blankEnv.stackSk)
  have hhashed : result.hashed = [.leaf (t1 0), .leaf (t1 1),
      .node (evSha3_256 .little (evDomLeaf :: (t1 0).toList))
        (evSha3_256 .little (evDomLeaf :: (t1 1).toList))] := by
    rw [hashed_two (bytePrimitives .little bitVendored) false (fun _ ↦ rfl) hkeygen]
    rfl
  have hzeros : (t1 0).toList = List.replicate 1280 0 := by
    rw [toList_leafT1At_bitVendored, hrho]
    exact congrArg (List.replicate 1280) (if_pos bit_evPeriodRho.1)
  have hones : (t1 1).toList = List.replicate 1280 255 := by
    rw [toList_leafT1At_bitVendored, hrho]
    exact congrArg (List.replicate 1280) (if_neg bit_evPeriodRho.2)
  simp only [hhashed, List.map_cons, List.map_nil, HashInput.bytes, hzeros, hones,
    toList_evSha3_256 words_zeroT1, toList_evSha3_256 words_onesT1]

/-- A lifetime of two periods in new mode, with a different matrix, `t1` and leaf digest for each:
the three inputs hashed have three digests, and the signature of the second period is accepted as a
wrapping. -/
theorem evVerify_eq_zero_iff_witness :
    ∃ (result : KeygenResult Block (PackedT1 .two) (Vector UInt8 (cryptoSecretkeybytes .two)))
      (sig : List UInt8) (hashed : List (HashInput Block (PackedT1 .two))),
      evVerify .little bitVendored false (fun _ ↦ true) result.pk [1, 2, 3] sig =
        some ⟨0, hashed⟩ ∧
      sig.take 4 = [0, 0, 0, 1] ∧
      (result.hashed.map HashInput.bytes).Nodup ∧ result.hashed.length = 3 ∧
      Sha3CollisionFree .little ((result.hashed ++ hashed).map HashInput.bytes) ∧
      ∃ p σ, Wraps .little bitVendored false result 0 (blankEnv.stackPk, blankEnv.stackSk)
        [1, 2, 3] sig p σ := by
  have hdepth : 1 ≤ evMaxDepth := by decide
  have hm : 1 + 4 + [1, 2, 3].length < 2 ^ 64 := by decide
  obtain ⟨result, hkeygen, hrho, hresult⟩ := evKeygen_spec (bytePrimitives .little bitVendored)
    false blankEnv (fun _ ↦ rfl) hdepth blankPk blankSk (some 0)
  have hcoherent := hresult.coherent
  obtain ⟨σ, -, hσ, hvalid⟩ := Vendored.seedSigned_leafCorrect.leafKeypairAt .little
    bitVendored false result.pk.rho () (compositeMessage (bigEndian (UInt32.ofNat 1)) [1, 2, 3])
  obtain ⟨hashed, haccept⟩ := evVerify_canonical .little bitVendored false hdepth hcoherent.pkPar
    hcoherent.root (by decide : 1 < 2 ^ 1) hm hσ hvalid
  have hbytes := bytes_hashed_bitVendored hkeygen hrho
  have hdigests : ((result.hashed.map HashInput.bytes).map (evSha3_256 .little)).Nodup := by
    refine List.Nodup.of_map Vector.toList ?_
    simp only [hbytes, List.map_cons, List.map_nil, toList_evSha3_256 words_zeroT1,
      toList_evSha3_256 words_onesT1, toList_evSha3_256 words_twoLeaves]
    decide
  have hfree : Sha3CollisionFree .little ((result.hashed ++ hashed).map HashInput.bytes) := by
    have hmem := mem_hashed_of_canonical .little bitVendored false hresult hdepth
      (by decide : 1 < 2 ^ 1) hσ haccept
    have hsubset : ∀ x ∈ (result.hashed ++ hashed).map HashInput.bytes,
        x ∈ result.hashed.map HashInput.bytes := by
      simp only [List.map_append, List.mem_append]
      rintro x (hx | hx)
      · exact hx
      · obtain ⟨input, hinput, rfl⟩ := List.mem_map.mp hx
        exact List.mem_map_of_mem (hmem input hinput)
    exact fun x hx y hy ↦ Sha3CollisionFree.of_nodup hdigests x (hsubset x hx) y (hsubset y hy)
  obtain ⟨verified, hverify, hiff⟩ := (evVerify_eq_zero_iff .little bitVendored false blankEnv
    (fun _ ↦ rfl) blankPk blankSk (EvParams.ofDepth 1).T (some 0) result hkeygen hresult.ret).1
      [1, 2, 3] _ hm
  obtain rfl := Option.some.inj (haccept.symm.trans hverify)
  have hcount : result.hashed.length = 3 := by
    rw [← List.length_map HashInput.bytes, hbytes]
    rfl
  refine ⟨result, _, hashed, haccept, ?_, hdigests.of_map _, hcount, hfree, (hiff hfree).mp rfl⟩
  rw [canonicalSig, sigLayout, List.take_left' Vector.length_toList]
  decide

end EvMlDsa
