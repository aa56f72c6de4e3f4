import EvMlDsa.AllocationFailure

/-!
# The instrumented benchmark

`staged_sign` and `staged_verify` of `breakdown_bench.c`, which repeat `ev_sign` and `ev_verify`
with clocks between the stages. The staged signer writes what `ev_sign` writes
(`stagedSign_of_running`). The staged verifier puts the seed of the public key into the leaf key in
both matrix seed modes, so it decides as `ev_verify` does in legacy mode
(`stagedVerify_eq_zero_iff`). `staged_agrees_iff` says where the two verifiers agree in a given
mode.
-/

set_option autoImplicit false
set_option relaxedAutoImplicit false

namespace EvMlDsa

open Library.HashTree Library.PerfectTree

/-! ### The staged functions -/

section Bytes

variable (host : ByteOrder) {mode : DilithiumMode} {Rnd : Type} (vendored : Vendored mode Rnd)

/-- `staged_sign`, its memory granted: the bytes from `sig` on and `*siglen`. The return codes of
`crypto_sign_signature` and `ev_merkle_path` are not looked at. -/
def stagedSign (sk : ByteSk mode) (m : List UInt8) (rnd : Rnd) : Option (List UInt8 × ℕ) :=
  if 2 ^ 64 ≤ 1 + 4 + m.length then none
  else do
    let cur := sk.tree.current
    let tag := bigEndian cur
    let (_, fswa) := vendored.cryptoSignSignature rnd (compositeMessage tag m) (← sk.leafSk)
    let sl := fswa.length
    let leafPk ← sk.leafPk
    let (_, path, _) ← evMerklePath sk.mt cur
    let siglen := 4 + sl + t1Bytes mode + (sk.par.depth * UInt32.ofNat evHashBytes).toNat
    return (tag.toList ++ fswa ++ leafPk.t1.toList ++ path.flatMap (·.toList), siglen)

/-- `staged_verify`, its memory granted. -/
def stagedVerify (pk : EvPk Block) (m sig : List UInt8) : Option ℤ := do
  let tag ← bytesAt sig 0 4
  let p := readBigEndian tag
  if pk.par.T ≤ p then return -2
  else
    let t1 := bytesAt sig (4 + cryptoBytes mode) (t1Bytes mode)
    let (dg, _) ← evMerkleLeafdigest (bytePrimitives host vendored) true t1
    let (merkleOk, _) ← evMerkleVerify (evHashNode host) pk.root pk.par p dg (pathBlocks mode sig)
    -- no call of `ev_matrix_seed`
    let leafPk : LeafPk Block (PackedT1 mode) := { rho := pk.rho, t1 := ← t1 }
    if 2 ^ 64 ≤ 1 + 4 + m.length then none
    else if merkleOk = 0 then return -5
    else
      let fswa ← fswaAt mode sig
      let code := vendored.cryptoSignVerify fswa (compositeMessage tag m) leafPk.toBuffer
      return if code = 0 then 0 else -5

/-! ### Signing -/

/-- `crypto_sign_signature` with empty context returns 0. -/
def SignatureReturnsZero : Prop :=
  ∀ rnd cm sk, (vendored.cryptoSignSignature rnd cm sk).1 = 0

variable {host vendored}

/-- Where `ev_merkle_path` succeeds, the staged signer writes what `ev_sign` writes. -/
theorem stagedSign_of_path (hsigned : SignatureReturnsZero vendored) {sk : ByteSk mode}
    {path : List Block} {events : List (MerkleEvent Block)}
    (hpath : evMerklePath sk.mt sk.tree.current = some (0, path, events)) (m : List UInt8)
    (rnd : Rnd) :
    (evSign host vendored sk m rnd true).map (fun out ↦ (out.ret, out.sig, out.siglen)) =
      (stagedSign vendored sk m rnd).map fun out ↦ (0, out.1, some out.2) := by
  unfold evSign evSignFields stagedSign
  by_cases hlong : 2 ^ 64 ≤ 1 + 4 + m.length
  · simp only [if_pos hlong, Option.bind_eq_bind, Option.bind_none, Option.map_none]
  · simp only [if_neg hlong, if_true]
    cases sk.leafSk with
    | none => rfl
    | some leafSk =>
      have hcode : ((bytePrimitives host vendored).cryptoSignSignature rnd
          (compositeMessage (bigEndian sk.tree.current) m) leafSk).1 = 0 := hsigned _ _ leafSk
      cases sk.leafPk with
      | none =>
        simp only [Option.bind_eq_bind, Option.bind_some, hcode, ne_eq, not_true_eq_false, if_false,
          Option.bind_none, Option.map_none]
      | some leafPk =>
        simp only [Option.bind_eq_bind, Option.bind_some, hcode, hpath, ne_eq, not_true_eq_false,
          if_false, if_true, Option.pure_def, Option.map_some, SignResult.bytes, Option.elim_some,
          Option.getD_some]
        rfl

/-- In every state of a run the staged signer writes what `ev_sign` writes. -/
theorem stagedSign_of_running {legacy : Bool} (hsigned : SignatureReturnsZero vendored)
    {pk : EvPk Block} {rootSeed : Block} {depth : ℕ} (hdepth : depth ≤ evMaxDepth)
    {buffers : LeafPk Block (PackedT1 mode) × Vector UInt8 (cryptoSecretkeybytes mode)}
    {s : ByteSigner mode}
    (hs : Running (bytePrimitives host vendored) legacy pk rootSeed depth buffers s)
    (m : List UInt8) (rnd : Rnd) :
    (evSign host vendored s.sk m rnd true).map (fun out ↦ (out.ret, out.sig, out.siglen)) =
      (stagedSign vendored s.sk m rnd).map fun out ↦ (0, out.1, some out.2) := by
  have hcurrent : s.sk.tree.current.toNat < 2 ^ (EvParams.ofDepth depth).depth.toNat := by
    rw [hs.coherent.tree, stateAt_current, toNat_ofNat_of_lt_two_pow hdepth hs.inLifetime,
      toNat_ofDepth_depth hdepth]
    exact hs.inLifetime
  obtain ⟨events, hpath, -⟩ := evMerklePath_spec (evHashNode host) hs.coherent.mt hcurrent
  exact stagedSign_of_path hsigned hpath m rnd

/-! ### Verification -/

/-- The staged verifier accepts what `ev_verify` accepts in legacy mode. -/
theorem stagedVerify_eq_zero_iff {pk : EvPk Block} {m sig : List UInt8}
    (hlength : sig.length = (evSigBytes mode pk.par.depth).toNat) :
    stagedVerify host vendored pk m sig = some 0 ↔
      Accepts host vendored true (fun _ ↦ true) pk m sig := by
  rw [accepts_iff]
  unfold stagedVerify
  simp only [Option.bind_eq_bind, Option.bind_eq_some_iff]
  constructor
  · rintro ⟨tag, htag, haccept⟩
    by_cases hT : pk.par.T ≤ readBigEndian tag
    · rw [if_pos hT] at haccept
      exact absurd (Option.some.inj haccept) (by decide)
    · rw [if_neg hT] at haccept
      obtain ⟨⟨dg, inputs⟩, hdigest, hfold⟩ := Option.bind_eq_some_iff.mp haccept
      obtain ⟨⟨merkleOk, pairs⟩, hverify, hfield⟩ := Option.bind_eq_some_iff.mp hfold
      obtain ⟨t1, ht1, hleaf⟩ := Option.bind_eq_some_iff.mp hfield
      rw [ht1] at hdigest
      obtain ⟨rfl, -⟩ := Prod.mk.inj (Option.some.inj hdigest)
      by_cases hlong : 2 ^ 64 ≤ 1 + 4 + m.length
      · rw [if_pos hlong] at hleaf
        cases hleaf
      · rw [if_neg hlong] at hleaf
        rcases evMerkleVerify_code (bytePrimitives host vendored) hverify with rfl | rfl
        · exact absurd (Option.some.inj hleaf) (by decide)
        · obtain ⟨σ, hσ, hcode⟩ := Option.bind_eq_some_iff.mp hleaf
          have hvalid := Option.some.inj hcode
          rw [ite_eq_left_iff] at hvalid
          refine ⟨tag, σ, t1, ⟨hlength, htag, hσ, ht1, UInt32.not_le.mp hT⟩, ⟨pairs, hverify⟩,
            Nat.not_le.mp hlong, rfl, ?_⟩
          by_contra hinvalid
          exact absurd (hvalid hinvalid) (by decide)
  · rintro ⟨tag, σ, t1, hfields, ⟨pairs, hopens⟩, hm, -, hvalid⟩
    have hdigest : evMerkleLeafdigest (bytePrimitives host vendored) true (some t1) =
        some ((bytePrimitives host vendored).hashLeaf t1, [.leaf t1]) := rfl
    have hcode : vendored.cryptoSignVerify σ (compositeMessage tag m)
        (LeafPk.toBuffer ⟨pk.rho, t1⟩) = 0 := hvalid
    refine ⟨tag, hfields.tag_eq, ?_⟩
    rw [if_neg (UInt32.not_le.mpr hfields.inLifetime), hfields.t1_eq, hdigest, Option.bind_some]
    simp only [if_true] at hopens
    rw [hopens, Option.bind_some, Option.bind_some, if_neg (Nat.not_le.mpr hm), if_neg one_ne_zero,
      hfields.fswa_eq, Option.bind_some, hcode]
    rfl

/-- In a given mode the staged verifier agrees with `ev_verify` on a signature exactly if the mode
is legacy, or the signature does not get as far as the leaf signature, or that one is valid under
the matrix seed of the period exactly if it is valid under the seed of the public key. -/
theorem stagedVerify_agrees_iff (legacy : Bool) {pk : EvPk Block} {m sig : List UInt8}
    (hlength : sig.length = (evSigBytes mode pk.par.depth).toNat) :
    (stagedVerify host vendored pk m sig = some 0 ↔
        Accepts host vendored legacy (fun _ ↦ true) pk m sig) ↔
      legacy = true ∨ ∀ tag σ t1, HasFields mode pk sig tag σ t1 →
        Opens host mode pk sig tag (evSha3_256 host (evDomLeaf :: t1.toList)) →
        1 + 4 + m.length < 2 ^ 64 →
          (vendored.cryptoSignVerify σ (compositeMessage tag m)
              (LeafPk.toBuffer ⟨evPeriodRho host pk.rho (readBigEndian tag), t1⟩) = 0 ↔
            vendored.cryptoSignVerify σ (compositeMessage tag m) (LeafPk.toBuffer ⟨pk.rho, t1⟩) =
              0) := by
  rw [stagedVerify_eq_zero_iff hlength]
  cases legacy with
  | true => exact iff_of_true Iff.rfl (Or.inl rfl)
  | false =>
    rw [accepts_iff, accepts_iff]
    constructor
    · intro hagree
      refine Or.inr fun tag σ t1 hfields hopens hm ↦ ?_
      constructor
      · intro hvalid
        obtain ⟨tag', σ', t1', hfields', -, -, -, hvalid'⟩ :=
          hagree.mpr ⟨tag, σ, t1, hfields, hopens, hm, rfl, hvalid⟩
        obtain ⟨rfl, rfl, rfl⟩ := hfields.unique hfields'
        exact hvalid'
      · intro hvalid
        obtain ⟨tag', σ', t1', hfields', -, -, -, hvalid'⟩ :=
          hagree.mp ⟨tag, σ, t1, hfields, hopens, hm, rfl, hvalid⟩
        obtain ⟨rfl, rfl, rfl⟩ := hfields.unique hfields'
        exact hvalid'
    · rintro (hlegacy | hsame)
      · exact absurd hlegacy (by decide)
      · constructor
        · rintro ⟨tag, σ, t1, hfields, hopens, hm, halloc, hvalid⟩
          exact ⟨tag, σ, t1, hfields, hopens, hm, halloc,
            (hsame tag σ t1 hfields hopens hm).mpr hvalid⟩
        · rintro ⟨tag, σ, t1, hfields, hopens, hm, halloc, hvalid⟩
          exact ⟨tag, σ, t1, hfields, hopens, hm, halloc,
            (hsame tag σ t1 hfields hopens hm).mp hvalid⟩

/-- An honest signature, valid under the leaf key of its period, is accepted by the staged verifier
exactly if its leaf signature is valid under the seed of the public key as well. -/
theorem stagedVerify_canonical_iff {legacy : Bool} {pk : EvPk Block} {rootSeed : Block}
    {depth p : ℕ}
    {buffers : LeafPk Block (PackedT1 mode) × Vector UInt8 (cryptoSecretkeybytes mode)}
    (hdepth : depth ≤ evMaxDepth) (hpar : pk.par = .ofDepth depth)
    (hroot : pk.root = treeHash (evHashNode host)
      (leafDigestAt (bytePrimitives host vendored) legacy pk.rho rootSeed depth buffers) depth 0)
    (hp : p < 2 ^ depth) {m : List UInt8} (hm : 1 + 4 + m.length < 2 ^ 64) {σ : List UInt8}
    (hlength : σ.length = cryptoBytes mode)
    (hσ : vendored.cryptoSignVerify σ (compositeMessage (bigEndian (UInt32.ofNat p)) m)
      (leafKeypairAt (bytePrimitives host vendored) legacy pk.rho rootSeed depth
        buffers p).1.toBuffer = 0) :
    stagedVerify host vendored pk m
        (canonicalSig host vendored legacy pk.rho rootSeed depth buffers p σ) = some 0 ↔
      vendored.cryptoSignVerify σ (compositeMessage (bigEndian (UInt32.ofNat p)) m)
        (LeafPk.toBuffer ⟨pk.rho,
          leafT1At (bytePrimitives host vendored) legacy pk.rho rootSeed depth buffers p⟩) = 0 := by
  let t1 := leafT1At (bytePrimitives host vendored) legacy pk.rho rootSeed depth buffers p
  let sig := canonicalSig host vendored legacy pk.rho rootSeed depth buffers p σ
  have hsize : sig.length = (evSigBytes mode pk.par.depth).toNat := by
    rw [hpar]
    exact length_canonicalSig host vendored legacy hdepth pk.rho hlength
  have haccept : Accepts host vendored legacy (fun _ ↦ true) pk m sig :=
    evVerify_canonical host vendored legacy hdepth hpar hroot hp hm hlength hσ
  obtain ⟨tag, σ', t1', hfields, hopens, -⟩ := accepts_iff.mp haccept
  obtain ⟨htag, hfswa, ht1, -⟩ := fields_sigLayout (bigEndian (UInt32.ofNat p)) hlength t1
    (honestPath (evHashNode host)
      (leafDigestAt (bytePrimitives host vendored) legacy pk.rho rootSeed depth buffers) depth p)
  have hcanonical : HasFields mode pk sig (bigEndian (UInt32.ofNat p)) σ t1 := by
    obtain rfl : tag = bigEndian (UInt32.ofNat p) :=
      Option.some.inj (hfields.tag_eq.symm.trans htag)
    exact ⟨hsize, htag, hfswa, ht1, hfields.inLifetime⟩
  obtain ⟨rfl, rfl, rfl⟩ := hfields.unique hcanonical
  rw [stagedVerify_eq_zero_iff hsize, accepts_iff]
  constructor
  · rintro ⟨tag, σ, t, hfields', -, -, -, hvalid⟩
    obtain ⟨rfl, rfl, rfl⟩ := hfields'.unique hcanonical
    exact hvalid
  · intro hvalid
    exact ⟨_, _, _, hcanonical, hopens, hm, rfl, hvalid⟩

variable (host vendored)

/-- The instrumented benchmark, in either mode and with every allocation granted. On every key that
is reached from `ev_keygen`, the staged signer writes what `ev_sign` writes and `ev_sign` returns
0. On the public key the two verifiers agree about a signature of the right length exactly under
the condition of `stagedVerify_agrees_iff`. -/
theorem staged_agrees_iff (legacy : Bool) (hsigned : SignatureReturnsZero vendored)
    (env : KeygenEnv Block (PackedT1 mode) (Vector UInt8 (cryptoSecretkeybytes mode)))
    (halloc : ∀ i, env.alloc i = true) (pk : EvPk Block) (sk : ByteSk mode) (T : UInt32)
    (rootSeedIn : Option Block)
    (result : KeygenResult Block (PackedT1 mode) (Vector UInt8 (cryptoSecretkeybytes mode)))
    (hkeygen : evKeygen (bytePrimitives host vendored) legacy env pk sk T rootSeedIn = some result)
    (hret : result.ret = 0) :
    (∀ (run : List (Call Rnd)) (s : ByteSigner mode),
      (Signer.start result.sk).calls (bytePrimitives host vendored) legacy run = some s →
      ∀ (m : List UInt8) (rnd : Rnd),
        (evSign host vendored s.sk m rnd true).map (fun out ↦ (out.ret, out.sig, out.siglen)) =
          (stagedSign vendored s.sk m rnd).map fun out ↦ (0, out.1, some out.2)) ∧
    ∀ m sig : List UInt8, sig.length = (evSigBytes mode result.pk.par.depth).toNat →
      ((stagedVerify host vendored result.pk m sig = some 0 ↔
          Accepts host vendored legacy (fun _ ↦ true) result.pk m sig) ↔
        legacy = true ∨ ∀ tag σ t1, HasFields mode result.pk sig tag σ t1 →
          Opens host mode result.pk sig tag (evSha3_256 host (evDomLeaf :: t1.toList)) →
          1 + 4 + m.length < 2 ^ 64 →
            (vendored.cryptoSignVerify σ (compositeMessage tag m)
                (LeafPk.toBuffer ⟨evPeriodRho host result.pk.rho (readBigEndian tag), t1⟩) = 0 ↔
              vendored.cryptoSignVerify σ (compositeMessage tag m)
                (LeafPk.toBuffer ⟨result.pk.rho, t1⟩) = 0)) := by
  constructor
  · intro run s hcalls m rnd
    obtain ⟨depth, hdepth, -, -, hgenerated⟩ :=
      exists_depth_of_evKeygen _ legacy env halloc pk sk hkeygen hret
    obtain ⟨s', hcalls', hs⟩ := calls_running (bytePrimitives host vendored) legacy hdepth
      (start_running _ legacy hgenerated) run
      (fits_of_calls (bytePrimitives host vendored) legacy hcalls)
    obtain rfl : s = s' := Option.some.inj (hcalls.symm.trans hcalls')
    exact stagedSign_of_running hsigned hdepth hs m rnd
  · intro m sig hlength
    exact stagedVerify_agrees_iff legacy hlength

end Bytes

/-! ### A failing input -/

/-- The constant leaf layer, with signatures that are valid under the matrix seed they were made
under only. -/
def seedVendored : Vendored .two Unit := blankVendored.seedSigned

/-- A lifetime of four periods, in new mode: after one evolution both signers write the same. -/
theorem staged_agrees_witness :
    ∃ (result : KeygenResult Block (PackedT1 .two) (Vector UInt8 (cryptoSecretkeybytes .two)))
      (s : ByteSigner .two),
      (Signer.start result.sk).calls (bytePrimitives .little seedVendored) false [.evolve] =
        some s ∧
      (evSign .little seedVendored s.sk [1, 2, 3] () true).map
          (fun out ↦ (out.ret, out.sig, out.siglen)) =
        (stagedSign seedVendored s.sk [1, 2, 3] ()).map fun out ↦ (0, out.1, some out.2) := by
  obtain ⟨result, hkeygen, -, hgenerated⟩ := evKeygen_spec (bytePrimitives .little seedVendored)
    false blankEnv (fun _ ↦ rfl) (by decide : 2 ≤ evMaxDepth) blankPk blankSk none
  obtain ⟨s, hcalls, -⟩ := calls_running (bytePrimitives .little seedVendored) false
    (by decide : 2 ≤ evMaxDepth) (start_running _ false hgenerated) [.evolve] (by simp [Call.Fits])
  exact ⟨result, s, hcalls, (staged_agrees_iff .little seedVendored false (fun _ _ _ ↦ rfl) blankEnv
    (fun _ ↦ rfl) blankPk blankSk _ none result hkeygen hgenerated.ret).1 [.evolve] s hcalls
      [1, 2, 3] ()⟩

/-- The seed of the matrix of period 0 under a public seed of zero bytes, in new mode. -/
theorem evPeriodRho_zero_ne_zero : evPeriodRho .little 0 0 ≠ 0 := by
  have hinput : evDomMatrix :: ((0 : Block).toList ++ (bigEndian 0).toList) =
      7 :: List.replicate 36 0 := by
    decide
  rw [evPeriodRho, hinput]
  have hword : ((finalState (7 :: List.replicate 36 0)).getD 0 0).toNat = 0xb6b8119a38f5d94 := by
    rw [← headD_wordList, wordList_finalState]
    decide +kernel
  exact evSha3_256_ne_zero (hword.trans (by decide : _ = (0xb6b8119a38f5d94 : UInt64).toNat))
    (by decide)

/-- A signature of `ev_sign` for the only period of a generated key, in new mode: `ev_verify`
accepts it, the staged verifier does not. -/
theorem staged_agrees_counterexample :
    ∃ (result : KeygenResult Block (PackedT1 .two) (Vector UInt8 (cryptoSecretkeybytes .two)))
      (sig : List UInt8),
      evKeygen (bytePrimitives .little seedVendored) false blankEnv blankPk blankSk
        (EvParams.ofDepth 0).T none = some result ∧ result.ret = 0 ∧
      evSign .little seedVendored result.sk [] () true =
        some ⟨0, sig, some (evSigBytes .two (EvParams.ofDepth 0).depth).toNat⟩ ∧
      sig.length = (evSigBytes .two (EvParams.ofDepth 0).depth).toNat ∧
      Accepts .little seedVendored false (fun _ ↦ true) result.pk [] sig ∧
      stagedVerify .little seedVendored result.pk [] sig ≠ some 0 := by
  have hdepth : 0 ≤ evMaxDepth := Nat.zero_le _
  have hm : 1 + 4 + ([] : List UInt8).length < 2 ^ 64 := by decide
  obtain ⟨result, hkeygen, hrho, hgenerated⟩ := evKeygen_spec (bytePrimitives .little seedVendored)
    false blankEnv (fun _ ↦ rfl) hdepth blankPk blankSk none
  have hcoherent := hgenerated.coherent
  obtain ⟨σ, hsigned, hlength, hvalid⟩ := Vendored.seedSigned_leafCorrect.leafKeypairAt .little
    seedVendored false result.pk.rho () (compositeMessage (bigEndian (UInt32.ofNat 0)) [])
  refine ⟨result, _, hkeygen, hgenerated.ret,
    evSign_of_coherent .little seedVendored false hdepth hcoherent Nat.one_pos hm () hlength
      hsigned,
    length_canonicalSig .little seedVendored false hdepth _ hlength,
    evVerify_canonical .little seedVendored false hdepth hcoherent.pkPar hcoherent.root Nat.one_pos
      hm hlength hvalid, ?_⟩
  rw [ne_eq, stagedVerify_canonical_iff hdepth hcoherent.pkPar hcoherent.root Nat.one_pos hm hlength
    hvalid]
  intro hstaged
  have hperiod := Vendored.seedSigned_verify_eq_zero hvalid
  have hpublic := Vendored.seedSigned_verify_eq_zero hstaged
  have hsame := Vector.toList_inj.mp (hperiod.symm.trans hpublic)
  rw [leafKeypairAt_rho] at hsame
  have hzero : result.pk.rho = 0 := hrho
  rw [hzero] at hsame
  exact evPeriodRho_zero_ne_zero hsame

end EvMlDsa
