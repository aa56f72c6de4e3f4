import EvMlDsa.EndToEnd
import EvMlDsa.Sha3Eval

/-!
# Allocation failure in the verifier

`ev_merkle_leafdigest` reports no error. When its allocation fails it leaves the zero digest, and
`ev_verify` goes on with it, while a failed allocation of the composite message makes `ev_verify`
return -4. So a failing allocation can turn a rejected signature into an accepted one, exactly when
the zero digest opens under the root where the digest of the transmitted `t1` does not and the leaf
signature is valid (`evVerify_alloc_monotone_iff`). Under a root that the zero digest opens, such
signatures can be made with any correct leaf layer (`ZeroDigestForgery.of_leafCorrect`).
-/

set_option autoImplicit false
set_option relaxedAutoImplicit false

namespace EvMlDsa

open Library.FixedArray

section Bytes

variable (host : ByteOrder) {mode : DilithiumMode} {Rnd : Type} (vendored : Vendored mode Rnd)
  (legacy : Bool)

/-- `ev_verify` returns 0 under a pattern of allocations. -/
def Accepts (alloc : ℕ → Bool) (pk : EvPk Block) (m sig : List UInt8) : Prop :=
  ∃ hashed, evVerify host vendored legacy alloc pk m sig = some ⟨0, hashed⟩

/-- The fields of a signature of the right length. -/
structure HasFields (mode : DilithiumMode) (pk : EvPk Block) (sig : List UInt8)
    (tag : Vector UInt8 4) (σ : List UInt8) (t1 : PackedT1 mode) : Prop where
  length : sig.length = (evSigBytes mode pk.par.depth).toNat
  tag_eq : bytesAt sig 0 4 = some tag
  fswa_eq : fswaAt mode sig = some σ
  t1_eq : bytesAt sig (4 + cryptoBytes mode) (t1Bytes mode) = some t1
  inLifetime : readBigEndian tag < pk.par.T

/-- A signature has one reading. -/
theorem HasFields.unique {mode : DilithiumMode} {pk : EvPk Block} {sig : List UInt8}
    {tag tag' : Vector UInt8 4} {σ σ' : List UInt8} {t1 t1' : PackedT1 mode}
    (h : HasFields mode pk sig tag σ t1) (h' : HasFields mode pk sig tag' σ' t1') :
    tag = tag' ∧ σ = σ' ∧ t1 = t1' :=
  ⟨Option.some.inj (h.tag_eq.symm.trans h'.tag_eq),
    Option.some.inj (h.fswa_eq.symm.trans h'.fswa_eq),
    Option.some.inj (h.t1_eq.symm.trans h'.t1_eq)⟩

/-- `ev_merkle_verify` accepts a leaf digest at the tag, along the path of the signature. -/
def Opens (mode : DilithiumMode) (pk : EvPk Block) (sig : List UInt8) (tag : Vector UInt8 4)
    (leafDigest : Block) : Prop :=
  ∃ pairs, evMerkleVerify (evHashNode host) pk.root pk.par (readBigEndian tag) leafDigest
    (pathBlocks mode sig) = some (1, pairs)

variable {host vendored legacy}

/-- When `ev_verify` returns 0 under a pattern of allocations, for any public key. -/
theorem accepts_iff {alloc : ℕ → Bool} {pk : EvPk Block} {m sig : List UInt8} :
    Accepts host vendored legacy alloc pk m sig ↔
      ∃ tag σ t1, HasFields mode pk sig tag σ t1 ∧
        Opens host mode pk sig tag
          (if alloc 0 then (bytePrimitives host vendored).hashLeaf t1 else 0) ∧
        LeafValid (bytePrimitives host vendored) legacy (alloc 1) pk m tag σ t1 := by
  unfold Accepts evVerify
  by_cases hlength : sig.length = (evSigBytes mode pk.par.depth).toNat
  · simp only [if_neg (not_not.mpr hlength), Option.bind_eq_bind, Option.bind_eq_some_iff,
      evVerifyFields_accepts_iff]
    constructor
    · rintro ⟨hashed, tag, htag, hlt, dg, leafHashed, pairs, σ, t1, hdigest, hopens, hfswa, ht1,
        hvalid, -⟩
      refine ⟨tag, σ, t1, ⟨hlength, htag, hfswa, ht1, hlt⟩, ⟨pairs, ?_⟩, hvalid⟩
      rw [ht1] at hdigest
      cases halloc : alloc 0 <;> rw [halloc] at hdigest <;>
        obtain ⟨rfl, -⟩ := Prod.mk.inj (Option.some.inj hdigest) <;> exact hopens
    · rintro ⟨tag, σ, t1, hfields, ⟨pairs, hopens⟩, hvalid⟩
      refine ⟨_, tag, hfields.tag_eq, hfields.inLifetime, _,
        if alloc 0 then [.leaf t1] else [], pairs, σ, t1, ?_, hopens, hfields.fswa_eq,
        hfields.t1_eq, hvalid, rfl⟩
      rw [hfields.t1_eq]
      cases alloc 0 <;> rfl
  · simp only [if_pos hlength, Option.some.injEq, VerifyResult.mk.injEq]
    constructor
    · rintro ⟨hashed, hcode, -⟩
      exact absurd hcode (by decide)
    · rintro ⟨tag, σ, t1, hfields, -⟩
      exact absurd hfields.length hlength

variable (host vendored legacy)

/-- A signature that only a failed allocation of the leaf digest makes acceptable: the zero digest
opens at the tag, the digest of the `t1` in the signature does not, and the leaf signature is valid
under that `t1`. -/
def ZeroDigestForgery (pk : EvPk Block) (m sig : List UInt8) : Prop :=
  ∃ tag σ t1, HasFields mode pk sig tag σ t1 ∧ Opens host mode pk sig tag 0 ∧
    ¬ Opens host mode pk sig tag (evSha3_256 host (evDomLeaf :: t1.toList)) ∧
    LeafValid (bytePrimitives host vendored) legacy true pk m tag σ t1

variable {host vendored legacy}

/-- A forgery is accepted if the leaf digest gets no memory and the composite message does. -/
theorem ZeroDigestForgery.accepted {pk : EvPk Block} {m sig : List UInt8}
    (hforgery : ZeroDigestForgery host vendored legacy pk m sig) :
    Accepts host vendored legacy (fun i ↦ i != 0) pk m sig := by
  obtain ⟨tag, σ, t1, hfields, hzero, -, hvalid⟩ := hforgery
  exact accepts_iff.mpr ⟨tag, σ, t1, hfields, hzero, hvalid⟩

/-- With every allocation granted a forgery is rejected. -/
theorem ZeroDigestForgery.rejected {pk : EvPk Block} {m sig : List UInt8}
    (hforgery : ZeroDigestForgery host vendored legacy pk m sig) :
    ¬ Accepts host vendored legacy (fun _ ↦ true) pk m sig := by
  obtain ⟨tag, σ, t1, hfields, -, hreal, -⟩ := hforgery
  intro haccept
  obtain ⟨tag', σ', t1', hfields', hopens, -⟩ := accepts_iff.mp haccept
  obtain ⟨rfl, rfl, rfl⟩ := hfields'.unique hfields
  exact hreal hopens

variable (host vendored legacy)

/-- Allocation failure does not widen acceptance of a signature exactly if the signature is not a
forgery on the zero digest. -/
theorem evVerify_alloc_monotone_iff (pk : EvPk Block) (m sig : List UInt8) :
    (∀ alloc, Accepts host vendored legacy alloc pk m sig →
        Accepts host vendored legacy (fun _ ↦ true) pk m sig) ↔
      ¬ ZeroDigestForgery host vendored legacy pk m sig := by
  constructor
  · exact fun hmonotone hforgery ↦ hforgery.rejected (hmonotone _ hforgery.accepted)
  · intro hforgery alloc haccept
    obtain ⟨tag, σ, t1, hfields, hopens, hm, hcm, hvalid⟩ := accepts_iff.mp haccept
    refine accepts_iff.mpr ⟨tag, σ, t1, hfields, ?_, hm, rfl, hvalid⟩
    cases halloc : alloc 0
    · -- the zero digest opened; the real one has to, or this is a forgery
      rw [halloc] at hopens
      by_contra hreal
      exact hforgery ⟨tag, σ, t1, hfields, hopens, hreal, hm, rfl, hvalid⟩
    · rw [halloc] at hopens
      exact hopens

/-! ### Forging under a root that the zero digest opens -/

/-- Without levels the digest that opens is the root. -/
theorem opens_depth_zero {pk : EvPk Block} (hpar : pk.par = .ofDepth 0) {sig : List UInt8}
    {tag : Vector UInt8 4} {digest : Block} :
    Opens host mode pk sig tag digest ↔ digest = pk.root := by
  simp only [Opens, evMerkleVerify_eq_one_iff, hpar]
  exact ⟨fun ⟨_, _, hroot, _⟩ ↦ hroot, fun hroot ↦ ⟨_, fun _ hl ↦ absurd hl (Nat.not_lt_zero _),
    hroot, rfl⟩⟩

/-- Anyone who can run the leaf layer forges for the public key of one period whose root is the zero
block: with a leaf key of their own, a signature of any message is accepted if the allocation of the
leaf digest fails. -/
theorem ZeroDigestForgery.of_leafCorrect (hcorrect : LeafCorrect vendored) (rho leafSeed : Block)
    (leafPk : Vector UInt8 (cryptoPublickeybytes mode))
    (leafSk : Vector UInt8 (cryptoSecretkeybytes mode)) (rnd : Rnd) {m : List UInt8}
    (hm : 1 + 4 + m.length < 2 ^ 64) {key : Vector UInt8 (cryptoPublickeybytes mode) ×
      Vector UInt8 (cryptoSecretkeybytes mode)}
    (hkey : key = evLeafKeypair vendored (evMatrixSeed (bytePrimitives host vendored) legacy rho 0)
      leafSeed leafPk leafSk)
    (hdigest : evSha3_256 host (evDomLeaf :: (LeafPk.ofBuffer key.1).t1.toList) ≠ 0) :
    ZeroDigestForgery host vendored legacy ⟨.ofDepth 0, rho, 0⟩ m
      (sigLayout (bigEndian 0)
        (vendored.cryptoSignSignature rnd (compositeMessage (bigEndian 0) m) key.2).2
        (LeafPk.ofBuffer key.1).t1 []) := by
  obtain ⟨σ, hsigned, hlength, hvalid⟩ := hcorrect _ _ leafPk leafSk rnd
    (compositeMessage (bigEndian 0) m)
  rw [← hkey] at hsigned hvalid
  rw [hsigned]
  obtain ⟨htag, hfswa, ht1, -⟩ :=
    fields_sigLayout (bigEndian 0) hlength (LeafPk.ofBuffer key.1).t1 []
  have hsig : (sigLayout (bigEndian 0) σ (LeafPk.ofBuffer key.1).t1 []).length =
      (evSigBytes mode (EvParams.ofDepth 0).depth).toNat := by
    rw [length_sigLayout _ hlength, toNat_evSigBytes mode (Nat.zero_le _), List.length_nil]
  have hrho : (LeafPk.ofBuffer key.1).rho =
      evMatrixSeed (bytePrimitives host vendored) legacy rho 0 := by
    have hbuffer := (bytePrimitives host vendored).evLeafKeypair_rho
      (evMatrixSeed (bytePrimitives host vendored) legacy rho 0) leafSeed (.ofBuffer leafPk) leafSk
    simp only [bytePrimitives, LeafPk.toBuffer_ofBuffer] at hbuffer
    rw [hkey]
    exact hbuffer
  refine ⟨bigEndian 0, σ, _, ⟨hsig, htag, hfswa, ht1, ?_⟩, (opens_depth_zero host rfl).mpr rfl,
    fun hopens ↦ hdigest ((opens_depth_zero host rfl).mp hopens), hm, rfl, ?_⟩
  · rw [readBigEndian_bigEndian]
    exact (by decide : 0 < (EvParams.ofDepth 0).T)
  · rw [readBigEndian_bigEndian, ← hrho]
    exact (congrArg (vendored.cryptoSignVerify σ _) (LeafPk.toBuffer_ofBuffer key.1)).trans hvalid

end Bytes

/-! ### A failing input -/

/-- A concatenation of runs of one byte. -/
theorem flatMap_eq_replicate {count width : ℕ} {byte : UInt8} {run : ℕ → List UInt8}
    (hrun : ∀ i < count, run i = List.replicate width byte) :
    (List.range count).flatMap run = List.replicate (count * width) byte := by
  induction count with
  | zero => simp
  | succ count ih =>
    rw [List.range_succ, List.flatMap_append, ih fun i hi ↦ hrun i (by omega),
      List.flatMap_singleton, hrun count (Nat.lt_succ_self _), List.replicate_append_replicate,
      Nat.succ_mul]

/-- A leaf layer with constant polynomials packs one byte over and over. -/
theorem toList_t1_of_constant {Rnd : Type} (vendored : Vendored .two Rnd) (rhoP leafSeed : Block)
    (leafPk : Vector UInt8 (cryptoPublickeybytes .two))
    (leafSk : Vector UInt8 (cryptoSecretkeybytes .two)) {a c : Int32} {byte : UInt8}
    (hproduct : ∀ s, vendored.polyveckInvnttTomont (vendored.polyveckReduce
      (vendored.polyvecMatrixPointwiseMontgomery (vendored.polyvecMatrixExpand rhoP) s)) =
        Vector.replicate _ (Vector.replicate _ a))
    (hs2 : ∀ seed nonce, vendored.polyveckUniformEta seed nonce =
      Vector.replicate _ (Vector.replicate _ 0))
    (hround : (power2round (caddq (a + 0))).1 = c)
    (hgroup : [lowByte c, lowByte ((c >>> 8) ||| (c <<< 2)), lowByte ((c >>> 6) ||| (c <<< 4)),
      lowByte ((c >>> 4) ||| (c <<< 6)), lowByte (c >>> 2)] = List.replicate 5 byte) :
    (LeafPk.ofBuffer (evLeafKeypair vendored rhoP leafSeed leafPk leafSk).1).t1.toList =
      List.replicate 1280 byte := by
  have hrho : rhoP.toList.length = seedBytes := Vector.length_toList
  let rounded : Poly := Vector.replicate _ c
  have hgroups : ∀ i < 64, polyt1Group rounded i = List.replicate 5 byte := by
    intro i hi
    have hcell (j : ℕ) (hj : j < 4) : rounded.getD (4 * i + j) 0 = c := by
      rw [getD_eq_getElem _ _ (by omega), Vector.getElem_replicate]
    rw [← hgroup]
    simp only [polyt1Group, hcell 0 (by decide), hcell 1 (by decide), hcell 2 (by decide),
      hcell 3 (by decide)]
  have hpoly : polyt1Bytes rounded = List.replicate 320 byte := flatMap_eq_replicate hgroups
  have ht1 : (polyveckPower2round (polyveckCaddq (polyveckAdd
      (Vector.replicate (DilithiumMode.K .two) (Vector.replicate _ a))
      (Vector.replicate _ (Vector.replicate _ 0))))).1 =
        Vector.replicate (DilithiumMode.K .two) rounded := by
    simp only [polyveckPower2round, polyveckCaddq, polyveckAdd, rounded, Vector.zipWith_replicate,
      Vector.map_replicate, hround]
  have hbytes : vecBytes polyt1Bytes (Vector.replicate (DilithiumMode.K .two) rounded) =
      List.replicate 1280 byte := by
    have hentry : ∀ i < 4, polyt1Bytes ((Vector.replicate 4 rounded).getD i
        (Vector.replicate 256 0)) = List.replicate 320 byte := by
      intro i hi
      rw [getD_eq_getElem _ _ hi, Vector.getElem_replicate, hpoly]
    exact flatMap_eq_replicate hentry
  rw [LeafPk.toList_t1_ofBuffer, evLeafKeypair]
  simp only [toList_packPk _ _ hrho, pkBytes, hproduct, hs2, ht1]
  rw [← hrho, List.drop_left, hbytes]

/-- The public leaf key of the constant leaf layer packs zeros only. -/
theorem toList_t1_blankVendored (rhoP leafSeed : Block)
    (leafPk : Vector UInt8 (cryptoPublickeybytes .two))
    (leafSk : Vector UInt8 (cryptoSecretkeybytes .two)) :
    (LeafPk.ofBuffer (evLeafKeypair blankVendored rhoP leafSeed leafPk leafSk).1).t1.toList =
      List.replicate 1280 (0 : UInt8) :=
  toList_t1_of_constant (a := 0) (c := 0) blankVendored rhoP leafSeed leafPk leafSk (fun _ ↦ rfl)
    (fun _ _ ↦ rfl) (by decide) (by decide)

/-- The blocks of the leaf hash of a `t1` of equal bytes. -/
theorem messageBlocks_replicate (byte : UInt8) :
    messageBlocks (evDomLeaf :: List.replicate 1280 byte) =
      blockWords (fun k ↦ if k = 0 then evDomLeaf else byte) ::
        (List.replicate 8 (blockWords fun _ ↦ byte) ++
          [blockWords fun k ↦ (paddedBlock (List.replicate 57 byte)).getD k 0]) := by
  have hfull : (evDomLeaf :: List.replicate 1280 byte).length / rate = 9 := by
    rw [List.length_cons, List.length_replicate]
    rfl
  have hrest : (evDomLeaf :: List.replicate 1280 byte).drop (rate * 9) =
      List.replicate 57 byte := by
    rw [show rate * 9 = 1223 + 1 from rfl, List.drop_succ_cons, List.drop_replicate]
  have hcell {k : ℕ} (hk : k < 1280) : (List.replicate 1280 byte).getD k 0 = byte := by
    rw [List.getD_eq_getElem _ _ (by rwa [List.length_replicate]), List.getElem_replicate]
  have hfirst : (blockWords fun k ↦ (evDomLeaf :: List.replicate 1280 byte).getD (rate * 0 + k) 0) =
      blockWords fun k ↦ if k = 0 then evDomLeaf else byte := by
    refine blockWords_congr fun k hk ↦ ?_
    rw [Nat.mul_zero, Nat.zero_add]
    cases k with
    | zero => rfl
    | succ k =>
      have hk' : k + 1 < 136 := hk
      rw [List.getD_cons_succ, hcell (by omega), if_neg k.succ_ne_zero]
  have hlater {i : ℕ} (hi : i < 8) :
      (blockWords fun k ↦ (evDomLeaf :: List.replicate 1280 byte).getD (rate * (i + 1) + k) 0) =
        blockWords fun _ ↦ byte := by
    refine blockWords_congr fun k hk ↦ ?_
    have hk' : k < 136 := hk
    have hindex : rate * (i + 1) + k = 136 * i + 135 + k + 1 := by
      rw [show rate = 136 from rfl]
      omega
    rw [hindex, List.getD_cons_succ, hcell (by omega)]
  have htail : (List.range 8).map (fun i ↦ blockWords fun k ↦
      (evDomLeaf :: List.replicate 1280 byte).getD (rate * (i + 1) + k) 0) =
        List.replicate 8 (blockWords fun _ ↦ byte) := by
    rw [List.map_congr_left fun i hi ↦ hlater (List.mem_range.mp hi), List.map_const',
      List.length_range]
  rw [messageBlocks, hfull, hrest, List.range_succ_eq_map, List.map_cons, hfirst, List.map_map]
  exact congrArg (_ :: · ++ _) htail

/-- The words of the digest of this `t1`. -/
def zeroT1Words : List ℕ :=
  [0x8b03830cf63c4d1b, 0x686ef2caf99fe68e, 0xda29cfa51d491ac4, 0x910fe59d81c1cfc6]

theorem words_zeroT1 :
    (wordList (finalState (evDomLeaf :: List.replicate 1280 0))).take 4 = zeroT1Words := by
  rw [wordList_finalState, messageBlocks_replicate]
  decide +kernel

theorem firstWord_zeroT1 :
    ((finalState (evDomLeaf :: List.replicate 1280 0)).getD 0 0).toNat = 0x8b03830cf63c4d1b := by
  have htake (words : List ℕ) : (words.take 4).headD 0 = words.headD 0 := by
    cases words <;> rfl
  rw [← headD_wordList, ← htake, words_zeroT1]
  rfl

/-- The leaf digest of this `t1` is not the zero block. -/
theorem digest_zeroT1_ne_zero : evSha3_256 .little (evDomLeaf :: List.replicate 1280 0) ≠ 0 :=
  evSha3_256_ne_zero (firstWord_zeroT1.trans (by decide : _ = (0x8b03830cf63c4d1b : UInt64).toNat))
    (by decide)

/-- A public key of one period whose root is the zero block. -/
def zeroRootPk : EvPk Block := ⟨.ofDepth 0, 0, 0⟩

/-- A leaf key pair made for its only period by someone else than its owner. -/
def foreignLeafKey :
    Vector UInt8 (cryptoPublickeybytes .two) × Vector UInt8 (cryptoSecretkeybytes .two) :=
  evLeafKeypair blankVendored
    (evMatrixSeed (bytePrimitives .little blankVendored) false zeroRootPk.rho 0) 0 0 0

/-- The empty message signed with that leaf key. -/
def forgedSig : List UInt8 :=
  sigLayout (bigEndian 0)
    (blankVendored.cryptoSignSignature () (compositeMessage (bigEndian 0) []) foreignLeafKey.2).2
    (LeafPk.ofBuffer foreignLeafKey.1).t1 []

/-- The forged signature is accepted if the allocation of the leaf digest fails, and only then. -/
theorem evVerify_alloc_counterexample :
    Accepts .little blankVendored false (fun i ↦ i != 0) zeroRootPk [] forgedSig ∧
      ¬ Accepts .little blankVendored false (fun _ ↦ true) zeroRootPk [] forgedSig := by
  have hcorrect : LeafCorrect blankVendored := fun _ _ _ _ _ _ ↦
    ⟨_, rfl, List.length_replicate, rfl⟩
  have hdigest : evSha3_256 .little
      (evDomLeaf :: (LeafPk.ofBuffer foreignLeafKey.1).t1.toList) ≠ 0 := by
    rw [foreignLeafKey, toList_t1_blankVendored]
    exact digest_zeroT1_ne_zero
  have hforgery : ZeroDigestForgery .little blankVendored false zeroRootPk [] forgedSig :=
    .of_leafCorrect .little blankVendored false hcorrect 0 0 0 0 () (by simp) rfl hdigest
  exact ⟨hforgery.accepted, hforgery.rejected⟩

end EvMlDsa
