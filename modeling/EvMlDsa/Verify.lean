import EvMlDsa.Keygen

/-!
# Acceptance by the verifier

`evVerifyFields_accepts_iff` says exactly when `ev_verify` returns 0 on given fields, under any
pattern of allocations: the tag is in the lifetime, the leaf digest opens under the root at the
tag, and the leaf signature is valid for the composite message under the recomputed leaf key.

An opening of the root of a generated key is the canonical one unless its hash inputs collide with
those of key generation: the digest is the leaf of the position and the path its authentication path
(`canonical_of_opens`), and the packed `t1` is that of the period (`t1_of_hashLeaf_eq`). Canonical
fields are accepted (`evVerifyFields_canonical`).
-/

set_option autoImplicit false
set_option relaxedAutoImplicit false

namespace EvMlDsa

open Library.HashTree Library.PerfectTree

/-! ### The period tag -/

theorem readBigEndian_bigEndian (word : UInt32) : readBigEndian (bigEndian word) = word := by
  rw [← UInt32.toBitVec_inj]
  refine BitVec.eq_of_getLsbD_eq fun i hi ↦ ?_
  simp only [readBigEndian, bigEndian, Vector.getElem_mk, List.getElem_toArray,
    List.getElem_cons_zero, List.getElem_cons_succ, UInt32.toBitVec_or, UInt32.toBitVec_shiftLeft,
    UInt8.toBitVec_toUInt32, UInt32.toBitVec_toUInt8, UInt32.toBitVec_shiftRight,
    UInt32.toBitVec_ofNat, BitVec.ofNat_eq_ofNat, BitVec.reduceMod, BitVec.ushiftRight_eq',
    BitVec.toNat_ofNat, Nat.reducePow, Nat.reduceMod, BitVec.shiftLeft_eq', BitVec.getLsbD_or,
    BitVec.getLsbD_shiftLeft, BitVec.getLsbD_setWidth, BitVec.getLsbD_ushiftRight]
  grind

theorem bigEndian_readBigEndian (bytes : Vector UInt8 4) :
    bigEndian (readBigEndian bytes) = bytes := by
  refine Vector.ext fun k hk ↦ ?_
  rw [← UInt8.toBitVec_inj]
  refine BitVec.eq_of_getLsbD_eq fun i hi ↦ ?_
  simp only [readBigEndian, bigEndian]
  interval_cases k <;>
  · simp only [Vector.getElem_mk, List.getElem_toArray, List.getElem_cons_zero,
      List.getElem_cons_succ, UInt32.toBitVec_toUInt8, UInt32.toBitVec_shiftRight,
      UInt32.toBitVec_or, UInt32.toBitVec_shiftLeft, UInt8.toBitVec_toUInt32,
      UInt32.toBitVec_ofNat, BitVec.ofNat_eq_ofNat, BitVec.reduceMod, BitVec.shiftLeft_eq',
      BitVec.toNat_ofNat, Nat.reducePow, Nat.reduceMod, BitVec.ushiftRight_eq',
      BitVec.getLsbD_setWidth, BitVec.getLsbD_ushiftRight, BitVec.getLsbD_or,
      BitVec.getLsbD_shiftLeft]
    grind

/-- The composite message determines the tag and the message. -/
theorem compositeMessage_injective {tag tag' : Vector UInt8 4} {m m' : List UInt8}
    (h : compositeMessage tag m = compositeMessage tag' m') : tag = tag' ∧ m = m' := by
  obtain ⟨htag, hm⟩ := List.append_inj (List.cons.inj h).2
    (Vector.length_toList.trans Vector.length_toList.symm)
  exact ⟨Vector.toList_inj.mp htag, hm⟩

section Scheme

variable {Block T1 LeafSk Fswa Rnd : Type} [Zero Block] [DecidableEq Block]
  (prims : Primitives Block T1 LeafSk Fswa Rnd) (legacy : Bool)

omit [Zero Block] in
/-- The verifier of the tree returns 0 or 1. -/
theorem evMerkleVerify_code {root leafDigest : Block} {par : EvParams} {p : UInt32}
    {path : List Block} {code : ℤ} {pairs : List (Block × Block)}
    (hverify : evMerkleVerify prims.evHashNode root par p leafDigest path = some (code, pairs)) :
    code = 0 ∨ code = 1 := by
  simp only [evMerkleVerify, Option.bind_eq_bind, Option.bind_eq_some_iff, Option.pure_def,
    Option.some.injEq, Prod.mk.injEq] at hverify
  obtain ⟨_, _, hcode, _⟩ := hverify
  split_ifs at hcode
  · exact Or.inr hcode.symm
  · exact Or.inl hcode.symm

/-- The leaf signature of the given fields is valid: the message fits, the memory for the composite
message is there, and `crypto_sign_verify` accepts under the leaf key of the tag. -/
def LeafValid (cmAllocated : Bool) (pk : EvPk Block) (m : List UInt8) (tag : Vector UInt8 4)
    (fswa : Fswa) (t1 : T1) : Prop :=
  1 + 4 + m.length < 2 ^ 64 ∧ cmAllocated = true ∧
    prims.cryptoSignVerify fswa (compositeMessage tag m)
      ⟨evMatrixSeed prims legacy pk.rho (readBigEndian tag), t1⟩ = 0

/-- When `ev_verify` returns 0, and what it hashed then. -/
theorem evVerifyFields_accepts_iff {alloc : ℕ → Bool} {pk : EvPk Block} {m : List UInt8}
    {tag : Vector UInt8 4} {fswa : Option Fswa} {t1 : Option T1} {path : List Block}
    {hashed : List (HashInput Block T1)} :
    evVerifyFields prims legacy alloc pk m tag fswa t1 path = some ⟨0, hashed⟩ ↔
      readBigEndian tag < pk.par.T ∧
      ∃ dg leafHashed pairs σ t,
        evMerkleLeafdigest prims (alloc 0) t1 = some (dg, leafHashed) ∧
        evMerkleVerify prims.evHashNode pk.root pk.par (readBigEndian tag) dg path =
          some (1, pairs) ∧
        fswa = some σ ∧ t1 = some t ∧ LeafValid prims legacy (alloc 1) pk m tag σ t ∧
        hashed = leafHashed ++ pairs.map fun pair ↦ .node pair.1 pair.2 := by
  unfold evVerifyFields
  by_cases hT : pk.par.T ≤ readBigEndian tag
  · simp only [if_pos hT, UInt32.not_lt.mpr hT, false_and, iff_false]
    simp
  simp only [if_neg hT, UInt32.not_le.mp hT, true_and]
  constructor
  · intro haccept
    rcases hdigest : evMerkleLeafdigest prims (alloc 0) t1 with _ | ⟨dg, leafHashed⟩
    · simp [hdigest] at haccept
    rcases hverify : evMerkleVerify prims.evHashNode pk.root pk.par (readBigEndian tag) dg path with
      _ | ⟨ok, pairs⟩
    · simp [hdigest, hverify] at haccept
    simp only [hdigest, hverify, Option.bind_eq_bind, Option.bind_some] at haccept
    rcases evMerkleVerify_code prims hverify with rfl | rfl
    · simp at haccept
    rcases t1 with _ | t
    · simp at haccept
    by_cases hm : 2 ^ 64 ≤ 1 + 4 + m.length
    · simp only [one_ne_zero, if_false, Option.bind_some, if_pos hm, reduceCtorEq] at haccept
    by_cases halloc : alloc 1 = true
    · rcases fswa with _ | σ
      · simp [halloc] at haccept
      · by_cases hcode : prims.cryptoSignVerify σ (compositeMessage tag m)
            ⟨evMatrixSeed prims legacy pk.rho (readBigEndian tag), t⟩ = 0
        · simp only [one_ne_zero, if_false, if_neg hm, halloc, if_true, Option.bind_some, hcode,
            Option.pure_def, Option.some.injEq, VerifyResult.mk.injEq, true_and] at haccept
          exact ⟨dg, leafHashed, pairs, σ, t, rfl, hverify, rfl, rfl,
            ⟨Nat.not_le.mp hm, halloc, hcode⟩, haccept.symm⟩
        · simp [halloc, hcode] at haccept
    · simp [halloc] at haccept
  · rintro ⟨dg, leafHashed, pairs, σ, t, hdigest, hverify, rfl, rfl, ⟨hm, halloc, hcode⟩, rfl⟩
    simp only [hdigest, hverify, Option.bind_eq_bind, Option.bind_some, one_ne_zero, if_false,
      if_neg (Nat.not_le.mpr hm), halloc, if_true, hcode, Option.pure_def]

/-! ### Openings of a generated root -/

/-- The digest of a hash input. -/
def HashInput.digest : HashInput Block T1 → Block
  | .leaf t1 => prims.hashLeaf t1
  | .node left right => prims.evHashNode left right

/-- Different inputs of the list have different digests. -/
def CollisionFree (inputs : List (HashInput Block T1)) : Prop :=
  ∀ x ∈ inputs, ∀ y ∈ inputs, x.digest prims = y.digest prims → x = y

omit [Zero Block] [DecidableEq Block] in
theorem CollisionFree.mono {prims : Primitives Block T1 LeafSk Fswa Rnd}
    {inputs inputs' : List (HashInput Block T1)} (hfree : CollisionFree prims inputs)
    (hsubset : ∀ x ∈ inputs', x ∈ inputs) : CollisionFree prims inputs' :=
  fun x hx y hy ↦ hfree x (hsubset x hx) y (hsubset y hy)

/-- An opening of the root of a generated key agrees with its leaf and its path at the position, if
no node hashed for it collides with a node of key generation. -/
theorem canonical_of_opens {rootSeed : Block} {depth : ℕ} {buffers : LeafPk Block T1 × LeafSk}
    {result : KeygenResult Block T1 LeafSk}
    (hresult : Generated prims legacy rootSeed depth buffers result) (hdepth : depth ≤ evMaxDepth)
    {p : UInt32} (hp : p < result.pk.par.T) {digest : Block} {path : List Block}
    {pairs : List (Block × Block)}
    (haccept : evMerkleVerify prims.evHashNode result.pk.root result.pk.par p digest path =
      some (1, pairs))
    (hfree : CollisionFree prims (result.hashed ++ pairs.map fun pair ↦ .node pair.1 pair.2)) :
    p.toNat < 2 ^ depth ∧
      digest = leafDigestAt prims legacy result.pk.rho rootSeed depth buffers p.toNat ∧
      path.take depth = honestPath prims.evHashNode
        (leafDigestAt prims legacy result.pk.rho rootSeed depth buffers) depth p.toNat := by
  have hD := toNat_ofDepth_depth hdepth
  have hp' := hresult.lt_two_pow hdepth hp
  have hdepth' : depth ≤ 2 ^ 27 := le_trans hdepth (by decide)
  rw [hresult.coherent.pkPar, hresult.coherent.root] at haccept
  obtain ⟨honestPairs, hhonest, hsiblings⟩ := evMerkleVerify_honestPath prims.evHashNode
    (leafDigestAt prims legacy result.pk.rho rootSeed depth buffers)
    (show (EvParams.ofDepth depth).depth.toNat ≤ 2 ^ 27 by rwa [hD])
    (show p.toNat < 2 ^ (EvParams.ofDepth depth).depth.toNat by rwa [hD])
  rw [hD] at hhonest hsiblings
  refine ⟨hp', ?_⟩
  rcases evMerkleVerify_binding prims.evHashNode haccept hhonest with ⟨hdigest, hread⟩ | hcollides
  · rw [hD] at hread
    have hpath := take_eq_take_of_pathSlot hdepth' hread
    rw [List.take_of_length_le (length_honestPath prims.evHashNode _ depth p.toNat).le] at hpath
    exact ⟨hdigest, hpath⟩
  · obtain ⟨⟨pair, honestPair⟩, hzip, hne, hhash⟩ := hcollides
    obtain ⟨hmem, hmem'⟩ := List.of_mem_zip hzip
    obtain ⟨l, i, hl, hi, rfl⟩ := hsiblings honestPair hmem'
    have hsame := hfree (.node pair.1 pair.2)
      (List.mem_append_right _ (List.mem_map_of_mem hmem)) _
      (List.mem_append_left _ (hresult.nodeHashed l i hl hi)) hhash
    obtain ⟨hleft, hright⟩ := HashInput.node.inj hsame
    exact absurd (Prod.ext hleft hright) hne

omit [DecidableEq Block] in
/-- A packed `t1` whose leaf hash does not collide with a leaf of key generation is the one of the
period whose leaf it opens. -/
theorem t1_of_hashLeaf_eq {rootSeed : Block} {depth : ℕ} {buffers : LeafPk Block T1 × LeafSk}
    {result : KeygenResult Block T1 LeafSk}
    (hresult : Generated prims legacy rootSeed depth buffers result) {p : ℕ} (hp : p < 2 ^ depth)
    {t1 : T1} (hfree : CollisionFree prims (result.hashed ++ [.leaf t1]))
    (hdigest : prims.hashLeaf t1 =
      leafDigestAt prims legacy result.pk.rho rootSeed depth buffers p) :
    t1 = leafT1At prims legacy result.pk.rho rootSeed depth buffers p :=
  HashInput.leaf.inj (hfree _ (List.mem_append_right _ (List.mem_singleton_self _)) _
    (List.mem_append_left _ (hresult.leafHashed p hp)) hdigest)

/-! ### Canonical fields -/

/-- The canonical fields of a period are accepted if the leaf signature is valid under the leaf key
of the period. -/
theorem evVerifyFields_canonical {pk : EvPk Block} {rootSeed : Block} {depth p : ℕ}
    {buffers : LeafPk Block T1 × LeafSk} (hdepth : depth ≤ evMaxDepth)
    (hpar : pk.par = .ofDepth depth)
    (hroot : pk.root = treeHash prims.evHashNode
      (leafDigestAt prims legacy pk.rho rootSeed depth buffers) depth 0)
    (hp : p < 2 ^ depth) {m : List UInt8} (hm : 1 + 4 + m.length < 2 ^ 64) {σ : Fswa}
    (hσ : prims.cryptoSignVerify σ (compositeMessage (bigEndian (UInt32.ofNat p)) m)
      (leafKeypairAt prims legacy pk.rho rootSeed depth buffers p).1 = 0) :
    ∃ hashed, evVerifyFields prims legacy (fun _ ↦ true) pk m (bigEndian (UInt32.ofNat p)) (some σ)
      (some (leafT1At prims legacy pk.rho rootSeed depth buffers p))
      (honestPath prims.evHashNode (leafDigestAt prims legacy pk.rho rootSeed depth buffers) depth
        p) = some ⟨0, hashed⟩ := by
  have hD := toNat_ofDepth_depth hdepth
  have hP := toNat_ofNat_of_lt_two_pow hdepth hp
  obtain ⟨pairs, hopens, -⟩ := evMerkleVerify_honestPath prims.evHashNode
    (leafDigestAt prims legacy pk.rho rootSeed depth buffers)
    (show (EvParams.ofDepth depth).depth.toNat ≤ 2 ^ 27 by
      rw [hD]
      exact le_trans hdepth (by decide))
    (show (UInt32.ofNat p).toNat < 2 ^ (EvParams.ofDepth depth).depth.toNat by rwa [hD, hP])
  rw [hD, hP] at hopens
  have htag : UInt32.ofNat p < pk.par.T := by
    rw [hpar, UInt32.lt_iff_toNat_lt, hP, toNat_ofDepth_T hdepth]
    exact hp
  have hkey : (⟨evMatrixSeed prims legacy pk.rho (UInt32.ofNat p),
      leafT1At prims legacy pk.rho rootSeed depth buffers p⟩ : LeafPk Block T1) =
        (leafKeypairAt prims legacy pk.rho rootSeed depth buffers p).1 := by
    rw [← leafKeypairAt_rho prims legacy pk.rho rootSeed depth buffers p]
    rfl
  refine ⟨.leaf (leafT1At prims legacy pk.rho rootSeed depth buffers p) ::
    pairs.map fun pair ↦ .node pair.1 pair.2, ?_⟩
  refine (evVerifyFields_accepts_iff prims legacy).mpr ?_
  rw [readBigEndian_bigEndian]
  refine ⟨htag, _, _, pairs, σ, _, rfl, ?_, rfl, rfl, ⟨hm, rfl, ?_⟩, rfl⟩
  · rw [hpar, hroot]
    exact hopens
  · rw [readBigEndian_bigEndian, hkey]
    exact hσ

end Scheme

end EvMlDsa
