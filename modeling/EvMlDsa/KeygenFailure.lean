import EvMlDsa.AllocationFailure
import EvMlDsa.Keygen

/-!
# Allocation failure in key generation

`ev_keygen` checks the allocation of its digest array and `ev_merkle_build` that of the levels. The
other failures go unnoticed: the digest of a leaf becomes zero, and the leaf key is written through
a null pointer. `evKeygen_allOrError_iff` says for which patterns of allocations a call nevertheless
either fails or leaves the keys it leaves when every allocation is granted (`AllOrError`).
-/

set_option autoImplicit false
set_option relaxedAutoImplicit false

namespace EvMlDsa

open Library.HashTree Library.PerfectTree

section Scheme

variable {Block T1 LeafSk Fswa Rnd : Type} [Zero Block]
  (prims : Primitives Block T1 LeafSk Fswa Rnd) (legacy : Bool)

/-- The same call with every allocation granted. -/
def KeygenEnv.granted (env : KeygenEnv Block T1 LeafSk) : KeygenEnv Block T1 LeafSk :=
  { env with alloc := fun _ ↦ true }

/-- The call returns, and if it returns 0 its keys are those of the call with every allocation
granted. -/
structure AllOrError (env : KeygenEnv Block T1 LeafSk) (pk : EvPk Block)
    (sk : EvSk Block T1 LeafSk) (T : UInt32) (rootSeedIn : Option Block) : Prop where
  /-- no write through a failed allocation -/
  returns : evKeygen prims legacy env pk sk T rootSeedIn ≠ none
  complete : ∀ result, evKeygen prims legacy env pk sk T rootSeedIn = some result →
    result.ret = 0 → ∃ full,
      evKeygen prims legacy env.granted pk sk T rootSeedIn = some full ∧ full.ret = 0 ∧
        result.pk = full.pk ∧ result.sk = full.sk

variable {prims legacy}

/-- A call that returns an error meets the property. -/
theorem AllOrError.of_error {env : KeygenEnv Block T1 LeafSk} {pk : EvPk Block}
    {sk : EvSk Block T1 LeafSk} {T : UInt32} {rootSeedIn : Option Block}
    {result : KeygenResult Block T1 LeafSk}
    (hkeygen : evKeygen prims legacy env pk sk T rootSeedIn = some result) (hret : result.ret ≠ 0) :
    AllOrError prims legacy env pk sk T rootSeedIn := by
  constructor
  · rw [hkeygen]
    exact Option.some_ne_none result
  · intro result' hresult' hzero
    obtain rfl := Option.some.inj (hkeygen.symm.trans hresult')
    exact absurd hzero hret

variable (prims legacy)

/-- The zero digest of a failed allocation is what the digest of the leaf would have been. -/
theorem storedDigest_eq_iff (env : KeygenEnv Block T1 LeafSk) (rho rootSeed : Block)
    (depth p : ℕ) :
    storedDigest prims legacy env rho rootSeed depth p =
        leafDigestAt prims legacy rho rootSeed depth (env.stackPk, env.stackSk) p ↔
      (env.alloc (1 + p) = false →
        leafDigestAt prims legacy rho rootSeed depth (env.stackPk, env.stackSk) p = 0) := by
  unfold storedDigest
  cases env.alloc (1 + p)
  · simpa using eq_comm
  · simp

/-- With everything but leaf digests granted, the keys are those of the call with every allocation
granted exactly if the stored leaf digests are. -/
theorem allOrError_iff_digests (env : KeygenEnv Block T1 LeafSk) {depth : ℕ}
    (hdepth : depth ≤ evMaxDepth) (pk : EvPk Block) (sk : EvSk Block T1 LeafSk)
    (rootSeedIn : Option Block) (hdigs : env.alloc 0 = true)
    (hlevels : env.alloc (1 + 2 ^ depth) = true)
    (hkey : env.alloc (2 + 2 ^ depth) = true ∧ env.alloc (3 + 2 ^ depth) = true) :
    let rootSeed := rootSeedIn.getD (env.random 0)
    let rho := keygenRhoAt prims legacy env rootSeed
    AllOrError prims legacy env pk sk (EvParams.ofDepth depth).T rootSeedIn ↔
      ∀ p < 2 ^ depth, storedDigest prims legacy env rho rootSeed depth p =
        leafDigestAt prims legacy rho rootSeed depth (env.stackPk, env.stackSk) p := by
  intro rootSeed rho
  obtain ⟨mt, hashed, ⟨events, hbuild⟩, hmt, hcall⟩ :=
    evKeygen_of_levels prims legacy env hdepth pk sk rootSeedIn hdigs hlevels
  obtain ⟨full, fullHashed, ⟨fullEvents, hfullBuild⟩, hfull, hfullCall⟩ :=
    evKeygen_of_levels prims legacy env.granted hdepth pk sk rootSeedIn rfl rfl
  rw [if_pos hkey] at hcall
  rw [if_pos ⟨rfl, rfl⟩] at hfullCall
  have hD := toNat_ofDepth_depth hdepth
  constructor
  · intro hall p hp
    obtain ⟨result, hresult, -, -, hsame⟩ := hall.complete _ hcall rfl
    obtain rfl := Option.some.inj (hfullCall.symm.trans hresult)
    obtain rfl : mt = full := congrArg EvSk.mt hsame
    -- the tree determines its leaves
    have hleaf := hmt.treeHash_eq hfull hD.ge hp
    rw [hD, Nat.sub_self] at hleaf
    exact hleaf
  · intro hdigests
    have hstored : (List.range (2 ^ depth)).map
        (storedDigest prims legacy env rho rootSeed depth) =
          (List.range (2 ^ depth)).map
            (storedDigest prims legacy env.granted rho rootSeed depth) :=
      List.map_congr_left fun p hp ↦ hdigests p (List.mem_range.mp hp)
    have hsame : mt = full := by
      have hbuilt := hbuild
      rw [hstored] at hbuilt
      exact congrArg (fun built ↦ built.2.1) (Option.some.inj (hbuilt.symm.trans hfullBuild))
    subst hsame
    have hroot := hmt.treeHash_eq hfull (Nat.zero_le _) (show 0 < 2 ^ 0 by simp)
    rw [hD, Nat.sub_zero] at hroot
    constructor
    · rw [hcall]
      exact Option.some_ne_none _
    · intro result hresult _
      obtain rfl := Option.some.inj (hcall.symm.trans hresult)
      exact ⟨_, hfullCall, rfl, congrArg (EvPk.mk _ _) hroot, rfl⟩

/-- With the digest array and the levels granted, what matters are the leaf digests and the two
buffers of the leaf key. -/
theorem allOrError_iff_of_levels (env : KeygenEnv Block T1 LeafSk) {depth : ℕ}
    (hdepth : depth ≤ evMaxDepth) (pk : EvPk Block) (sk : EvSk Block T1 LeafSk)
    (rootSeedIn : Option Block) (hdigs : env.alloc 0 = true)
    (hlevels : env.alloc (1 + 2 ^ depth) = true) :
    let rootSeed := rootSeedIn.getD (env.random 0)
    let rho := keygenRhoAt prims legacy env rootSeed
    AllOrError prims legacy env pk sk (EvParams.ofDepth depth).T rootSeedIn ↔
      (∀ p < 2 ^ depth, env.alloc (1 + p) = false →
        leafDigestAt prims legacy rho rootSeed depth (env.stackPk, env.stackSk) p = 0) ∧
      env.alloc (2 + 2 ^ depth) = true ∧ env.alloc (3 + 2 ^ depth) = true := by
  intro rootSeed rho
  by_cases hkey : env.alloc (2 + 2 ^ depth) = true ∧ env.alloc (3 + 2 ^ depth) = true
  · have hiff := allOrError_iff_digests prims legacy env hdepth pk sk rootSeedIn hdigs hlevels hkey
    simp only [storedDigest_eq_iff] at hiff
    rw [and_iff_left hkey]
    exact hiff
  · constructor
    · intro hall
      obtain ⟨_, _, -, -, hcall⟩ :=
        evKeygen_of_levels prims legacy env hdepth pk sk rootSeedIn hdigs hlevels
      rw [if_neg hkey] at hcall
      exact absurd hcall hall.returns
    · rintro ⟨-, hgranted⟩
      exact absurd hgranted hkey

/-- Key generation is all-or-error exactly if one of the two checked allocations fails, or both
buffers of the leaf key are granted and every leaf digest whose allocation fails is zero anyway. -/
theorem evKeygen_allOrError_iff (env : KeygenEnv Block T1 LeafSk) (pk : EvPk Block)
    (sk : EvSk Block T1 LeafSk) {T : UInt32} (hT : Accepted T) (rootSeedIn : Option Block) :
    let rootSeed := rootSeedIn.getD (env.random 0)
    let rho := keygenRhoAt prims legacy env rootSeed
    AllOrError prims legacy env pk sk T rootSeedIn ↔
      env.alloc 0 = false ∨ env.alloc (1 + T.toNat) = false ∨
        (∀ p < T.toNat, env.alloc (1 + p) = false →
          leafDigestAt prims legacy rho rootSeed (Nat.log 2 T.toNat) (env.stackPk, env.stackSk) p =
            0) ∧
        env.alloc (2 + T.toNat) = true ∧ env.alloc (3 + T.toNat) = true := by
  intro rootSeed rho
  obtain ⟨depth, hdepth, rfl⟩ := (accepted_iff_exists_depth T).mp hT
  have hlog : Nat.log 2 (2 ^ depth) = depth := Nat.log_pow (by decide) depth
  rw [toNat_ofDepth_T hdepth, hlog]
  have hcall := evKeygen_accepted prims legacy env hdepth pk sk rootSeedIn
  cases hdigs : env.alloc 0 with
  | false =>
    have hfailed := hcall.trans (keygenTail_of_no_digests prims legacy env _ _ _ _ hdigs)
    exact iff_of_true (.of_error hfailed (show (-3 : ℤ) ≠ 0 by decide)) (Or.inl rfl)
  | true =>
    cases hlevels : env.alloc (1 + 2 ^ depth) with
    | false =>
      have hfailed := hcall.trans (keygenTail_of_no_levels prims legacy env hdepth _ _ _ rootSeed
        rfl hdigs hlevels)
      exact iff_of_true (.of_error hfailed (show (-4 : ℤ) ≠ 0 by decide)) (Or.inr (Or.inl rfl))
    | true =>
      have hiff := allOrError_iff_of_levels prims legacy env hdepth pk sk rootSeedIn hdigs hlevels
      simpa using hiff

end Scheme

/-! ### Failing inputs -/

/-- One allocation fails, every byte of memory and randomness is zero. -/
def failingEnv (i : ℕ) :
    KeygenEnv Block (PackedT1 .two) (Vector UInt8 (cryptoSecretkeybytes .two)) :=
  { blankEnv with alloc := (· != i) }

/-- For two periods: without the array of the digests key generation is all-or-error. With the array
granted and the digest of the second period failing it is not, unless that digest is the zero block
anyway. -/
theorem evKeygen_allOrError_witness :
    let prims := bytePrimitives .little blankVendored
    AllOrError prims true (failingEnv 0) blankPk blankSk 2 (some 0) ∧
      ¬ AllOrError prims true (failingEnv 2) blankPk blankSk 2 (some 0) ∧
      AllOrError { prims with hashLeaf := fun _ ↦ 0 } true (failingEnv 2) blankPk blankSk 2
        (some 0) := by
  intro prims
  refine ⟨?_, ?_, ?_⟩
  · exact (evKeygen_allOrError_iff prims true (failingEnv 0) blankPk blankSk (by decide)
      (some 0)).mpr (Or.inl rfl)
  · intro hall
    rcases (evKeygen_allOrError_iff prims true (failingEnv 2) blankPk blankSk (by decide)
      (some 0)).mp hall with hdigs | hlevels | ⟨hdigests, -⟩
    · exact absurd hdigs (by decide)
    · exact absurd hlevels (by decide)
    · have hdigest := hdigests 1 (by decide) rfl
      simp only [prims, leafDigestAt, leafT1At, leafKeypairAt, bytePrimitives,
        toList_t1_blankVendored] at hdigest
      exact digest_zeroT1_ne_zero hdigest
  · exact (evKeygen_allOrError_iff { prims with hashLeaf := fun _ ↦ 0 } true (failingEnv 2) blankPk
      blankSk (by decide) (some 0)).mpr (Or.inr (Or.inr ⟨fun _ _ _ ↦ rfl, rfl, rfl⟩))

/-- For a single period: if the allocation of its leaf digest fails, key generation returns 0 with
another root, and if that of the leaf secret key fails, the key is written through a null
pointer. -/
theorem evKeygen_allOrError_counterexample :
    (¬ AllOrError (bytePrimitives .little blankVendored) true (failingEnv 1) blankPk blankSk 1
        (some 0) ∧
      ∃ result, evKeygen (bytePrimitives .little blankVendored) true (failingEnv 1) blankPk
        blankSk 1 (some 0) = some result ∧ result.ret = 0) ∧
    evKeygen (bytePrimitives .little blankVendored) true (failingEnv 3) blankPk blankSk 1
      (some 0) = none := by
  have hdepth : 0 ≤ evMaxDepth := Nat.zero_le _
  refine ⟨⟨?_, ?_⟩, ?_⟩
  · intro hall
    have hiff := allOrError_iff_of_levels (bytePrimitives .little blankVendored) true (failingEnv 1)
      hdepth blankPk blankSk (some 0) rfl rfl
    have hdigest := (hiff.mp hall).1 0 (by decide) rfl
    simp only [leafDigestAt, leafT1At, leafKeypairAt, bytePrimitives, toList_t1_blankVendored]
      at hdigest
    exact digest_zeroT1_ne_zero hdigest
  · obtain ⟨mt, hashed, -, -, hcall⟩ := evKeygen_of_levels (bytePrimitives .little blankVendored)
      true (failingEnv 1) hdepth blankPk blankSk (some 0) rfl rfl
    rw [if_pos ⟨rfl, rfl⟩] at hcall
    exact ⟨_, hcall, rfl⟩
  · obtain ⟨mt, hashed, -, -, hcall⟩ := evKeygen_of_levels (bytePrimitives .little blankVendored)
      true (failingEnv 3) hdepth blankPk blankSk (some 0) rfl rfl
    rw [if_neg (by simp [failingEnv])] at hcall
    exact hcall

end EvMlDsa
