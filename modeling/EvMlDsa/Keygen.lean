import EvMlDsa.MerkleProof
import EvMlDsa.Scheme
import EvMlDsa.SeedTreeRun
import Mathlib.Data.Nat.Bitwise

/-!
# Key generation

The lifetimes `ev_keygen` accepts are the powers of two up to `2 ^ 20`
(`accepted_iff_exists_depth`), and its depth loop finds the exponent (`depthLoop_two_pow`). The walk
over the periods visits the states of the seed tree and collects the leaf digests
(`foldlM_keygenTurn`). `evKeygen_spec` is what a successful call leaves: a signer state at period 0
(`Coherent`) together with the record of every leaf and tree hash.
-/

set_option autoImplicit false
set_option relaxedAutoImplicit false

namespace EvMlDsa

open Library.HashTree Library.PerfectTree

/-! ### Accepted lifetimes -/

/-- The first check of `ev_keygen`, passed. -/
def Accepted (T : UInt32) : Prop :=
  ¬ (T = 0 ∨ T &&& (T - 1) ≠ 0 ∨ 1 <<< UInt32.ofNat evMaxDepth < T)

instance (T : UInt32) : Decidable (Accepted T) := inferInstanceAs (Decidable (¬ _))

/-- The accepted lifetimes are the powers of two up to `2 ^ EV_MAX_DEPTH`. -/
theorem accepted_iff_exists_depth (T : UInt32) :
    Accepted T ↔ ∃ depth ≤ evMaxDepth, T = (EvParams.ofDepth depth).T := by
  constructor
  · intro hT
    obtain ⟨hzero, hpow, hmax⟩ :
        T ≠ 0 ∧ T &&& (T - 1) = 0 ∧ ¬ 1 <<< UInt32.ofNat evMaxDepth < T := by
      simpa only [Accepted, not_or, not_not, ne_eq] using hT
    have hzeroNat : T.toNat ≠ 0 := fun h ↦ hzero (UInt32.toNat_inj.mp h)
    have hsub : (T - 1).toNat = T.toNat - 1 :=
      UInt32.toNat_sub_of_le _ _ (UInt32.le_iff_toNat_le.mpr (show 1 ≤ T.toNat by omega))
    have hand : T.toNat &&& (T.toNat - 1) = 0 := by
      rw [← hsub, ← UInt32.toNat_and, hpow]
      rfl
    obtain ⟨depth, hdepth⟩ := (Nat.and_sub_one_eq_zero_iff_isPowerOfTwo hzeroNat).mp hand
    have hle : T.toNat ≤ 2 ^ 20 := by
      have h := UInt32.lt_iff_toNat_lt.not.mp hmax
      exact not_lt.mp h
    refine ⟨depth, (Nat.pow_le_pow_iff_right (by decide)).mp (hdepth ▸ hle), ?_⟩
    rw [EvParams.ofDepth, ← hdepth, UInt32.ofNat_toNat]
  · rintro ⟨depth, hdepth, rfl⟩
    have htable : ∀ depth ≤ evMaxDepth, Accepted (EvParams.ofDepth depth).T := by decide
    exact htable depth hdepth

/-- The depth loop finds the exponent. -/
theorem depthLoop_two_pow {depth : ℕ} (hdepth : depth ≤ evMaxDepth) :
    depthLoop (EvParams.ofDepth depth).T 32 0 = UInt32.ofNat depth := by
  have htable : ∀ depth ≤ evMaxDepth,
      depthLoop (EvParams.ofDepth depth).T 32 0 = UInt32.ofNat depth := by decide
  exact htable depth hdepth

section Scheme

variable {Block T1 LeafSk Fswa Rnd : Type} [Zero Block] [DecidableEq Block]
  (prims : Primitives Block T1 LeafSk Fswa Rnd) (legacy : Bool)

/-! ### The leaf key of a period -/

/-- The leaf key pair of period `p`: `ev_leaf_keypair` on the matrix seed of the period and the leaf
seed of the tree. The buffers are those it is written to. -/
def leafKeypairAt (rho rootSeed : Block) (depth : ℕ) (buffers : LeafPk Block T1 × LeafSk) (p : ℕ) :
    LeafPk Block T1 × LeafSk :=
  prims.evLeafKeypair (evMatrixSeed prims legacy rho (UInt32.ofNat p))
    (nodeSeed prims.evDeriveChild rootSeed depth p) buffers.1 buffers.2

/-- The packed `t1` of period `p`. -/
def leafT1At (rho rootSeed : Block) (depth : ℕ) (buffers : LeafPk Block T1 × LeafSk) (p : ℕ) : T1 :=
  (leafKeypairAt prims legacy rho rootSeed depth buffers p).1.t1

/-- The leaf of period `p` in the commitment tree. -/
def leafDigestAt (rho rootSeed : Block) (depth : ℕ) (buffers : LeafPk Block T1 × LeafSk) (p : ℕ) :
    Block :=
  prims.hashLeaf (leafT1At prims legacy rho rootSeed depth buffers p)

omit [Zero Block] [DecidableEq Block] in
/-- The former contents of the buffers do not matter. -/
theorem leafKeypairAt_congr (rho rootSeed : Block) (depth : ℕ)
    (buffers buffers' : LeafPk Block T1 × LeafSk) :
    leafKeypairAt prims legacy rho rootSeed depth buffers =
      leafKeypairAt prims legacy rho rootSeed depth buffers' :=
  funext fun _ ↦ prims.evLeafKeypair_overwrites _ _ _ _ _ _

omit [Zero Block] [DecidableEq Block] in
theorem leafKeypairAt_rho (rho rootSeed : Block) (depth : ℕ)
    (buffers : LeafPk Block T1 × LeafSk) (p : ℕ) :
    (leafKeypairAt prims legacy rho rootSeed depth buffers p).1.rho =
      evMatrixSeed prims legacy rho (UInt32.ofNat p) :=
  prims.evLeafKeypair_rho _ _ _ _

/-! ### The walk over the periods -/

omit [DecidableEq Block] in
/-- The walk after `n` periods: the walker is at period `n` (or at the last one), and the digest of
every period visited is in place, the zero block where its allocation failed. -/
theorem foldlM_keygenTurn (env : KeygenEnv Block T1 LeafSk) {depth : ℕ}
    (hdepth : depth ≤ evMaxDepth) (rho rootSeed : Block) (start : KeygenWalk Block T1)
    (hstart : start.walk = stateAt prims.evDeriveChild depth rootSeed 0) {n : ℕ}
    (hn : n ≤ 2 ^ depth) :
    let buffers := (env.stackPk, env.stackSk)
    (List.range n).foldlM (keygenTurn prims legacy env (EvParams.ofDepth depth).T rho) start =
      some {
        walk := stateAt prims.evDeriveChild depth rootSeed (min n (2 ^ depth - 1))
        loopLeafSeed :=
          if n = 0 then start.loopLeafSeed else nodeSeed prims.evDeriveChild rootSeed depth (n - 1)
        digs := start.digs ++ (List.range n).map fun p ↦
          if env.alloc (1 + p) then leafDigestAt prims legacy rho rootSeed depth buffers p else 0
        hashed := start.hashed ++ (List.range n).flatMap fun p ↦
          if env.alloc (1 + p) then [.leaf (leafT1At prims legacy rho rootSeed depth buffers p)]
          else [] } := by
  intro buffers
  have hT := toNat_ofDepth_T hdepth
  induction n with
  | zero => simp [← hstart]
  | succ n ih =>
    have hmin : min n (2 ^ depth - 1) = n := by omega
    have hwalk : (if n + 1 < 2 ^ depth then
        (evTreeAdvance prims.evDeriveChild (stateAt prims.evDeriveChild depth rootSeed n)).2
        else stateAt prims.evDeriveChild depth rootSeed n) =
          stateAt prims.evDeriveChild depth rootSeed (min (n + 1) (2 ^ depth - 1)) := by
      split_ifs with hmore
      · rw [evTreeAdvance_stateAt prims.evDeriveChild hdepth rootSeed hmore,
          Nat.min_eq_left (by omega)]
      · rw [Nat.min_eq_right (by omega), show 2 ^ depth - 1 = n by omega]
    have hleaf := evTreeLeaf_stateAt prims.evDeriveChild hdepth rootSeed n
    rw [List.range_succ, List.foldlM_append, ih (by omega)]
    simp only [Option.bind_eq_bind, Option.bind_some, List.foldlM_cons, List.foldlM_nil,
      keygenTurn, hmin, hT, hwalk, hleaf, evMerkleLeafdigest, List.map_append, List.map_cons,
      List.map_nil, List.flatMap_append, List.flatMap_cons, List.flatMap_nil, List.append_nil,
      Nat.add_one_ne_zero, if_false, Nat.add_sub_cancel, List.append_assoc]
    cases env.alloc (1 + n) <;> rfl

/-! ### What key generation leaves -/

/-- The signer state of period `p`: the tree is at `p`, the cached key is the leaf key of `p` under
the matrix seed of `p`, and the stored tree is the tree of all leaf digests, with the root of the
public key. -/
structure Coherent (pk : EvPk Block) (rootSeed : Block) (depth : ℕ)
    (buffers : LeafPk Block T1 × LeafSk) (p : ℕ) (sk : EvSk Block T1 LeafSk) : Prop where
  par : sk.par = .ofDepth depth
  pkPar : pk.par = .ofDepth depth
  tree : sk.tree = stateAt prims.evDeriveChild depth rootSeed p
  rho : sk.rho = pk.rho
  leafRho : sk.leafRho = evMatrixSeed prims legacy pk.rho (UInt32.ofNat p)
  leafPk : sk.leafPk = some (leafKeypairAt prims legacy pk.rho rootSeed depth buffers p).1
  leafSk : sk.leafSk = some (leafKeypairAt prims legacy pk.rho rootSeed depth buffers p).2
  mt : IsTreeOf prims.evHashNode (.ofDepth depth)
    (leafDigestAt prims legacy pk.rho rootSeed depth buffers) sk.mt
  root : pk.root = treeHash prims.evHashNode
    (leafDigestAt prims legacy pk.rho rootSeed depth buffers) depth 0

/-- What a successful key generation leaves: the rest of `Coherent` at period 0, and the record of
every leaf digest and every inner node. -/
structure Generated (rootSeed : Block) (depth : ℕ) (buffers : LeafPk Block T1 × LeafSk)
    (result : KeygenResult Block T1 LeafSk) : Prop where
  ret : result.ret = 0
  coherent : Coherent prims legacy result.pk rootSeed depth buffers 0 result.sk
  leafHashed : ∀ p < 2 ^ depth,
    .leaf (leafT1At prims legacy result.pk.rho rootSeed depth buffers p) ∈ result.hashed
  nodeHashed : ∀ level idx, level < depth → idx < 2 ^ level →
    .node
      (treeHash prims.evHashNode (leafDigestAt prims legacy result.pk.rho rootSeed depth buffers)
        (depth - (level + 1)) (2 * idx))
      (treeHash prims.evHashNode (leafDigestAt prims legacy result.pk.rho rootSeed depth buffers)
        (depth - (level + 1)) (2 * idx + 1)) ∈ result.hashed

omit [DecidableEq Block] in
/-- A period of a generated key. -/
theorem Generated.lt_two_pow {prims : Primitives Block T1 LeafSk Fswa Rnd} {legacy : Bool}
    {rootSeed : Block} {depth : ℕ} {buffers : LeafPk Block T1 × LeafSk}
    {result : KeygenResult Block T1 LeafSk}
    (hresult : Generated prims legacy rootSeed depth buffers result) (hdepth : depth ≤ evMaxDepth)
    {p : UInt32} (hp : p < result.pk.par.T) : p.toNat < 2 ^ depth := by
  rw [hresult.coherent.pkPar, UInt32.lt_iff_toNat_lt, toNat_ofDepth_T hdepth] at hp
  exact hp

/-! ### Outcomes of a call -/

/-- The digest of period `p` in `digs`: the zero block where its allocation failed. -/
def storedDigest (env : KeygenEnv Block T1 LeafSk) (rho rootSeed : Block) (depth p : ℕ) : Block :=
  if env.alloc (1 + p) then
    leafDigestAt prims legacy rho rootSeed depth (env.stackPk, env.stackSk) p
  else 0

/-- The inputs of the leaf digests whose allocation was granted. -/
def leafInputs (env : KeygenEnv Block T1 LeafSk) (rho rootSeed : Block) (depth : ℕ) :
    List (HashInput Block T1) :=
  (List.range (2 ^ depth)).flatMap fun p ↦
    if env.alloc (1 + p) then
      [.leaf (leafT1At prims legacy rho rootSeed depth (env.stackPk, env.stackSk) p)]
    else []

/-- The local variables behind the walk over the periods. -/
def KeygenLocals.walked (locals : KeygenLocals Block) (rootSeed : Block) (depth : ℕ) :
    KeygenLocals Block :=
  { locals with
    walk := stateAt prims.evDeriveChild depth rootSeed (2 ^ depth - 1)
    loopLeafSeed := nodeSeed prims.evDeriveChild rootSeed depth (2 ^ depth - 1) }

omit [DecidableEq Block] in
theorem keygenTail_of_no_digests (env : KeygenEnv Block T1 LeafSk) (T : UInt32)
    (locals : KeygenLocals Block) (pk : EvPk Block) (sk : EvSk Block T1 LeafSk)
    (hdigs : env.alloc 0 = false) :
    keygenTail prims legacy env T locals pk sk = some ⟨-3, pk, sk, locals, []⟩ := by
  unfold keygenTail
  rw [if_neg (by simp [hdigs])]

section Tail

variable (env : KeygenEnv Block T1 LeafSk) {depth : ℕ} (hdepth : depth ≤ evMaxDepth)
  (locals : KeygenLocals Block) (pk : EvPk Block) (sk : EvSk Block T1 LeafSk) (rootSeed : Block)
  (htree : sk.tree = stateAt prims.evDeriveChild depth rootSeed 0)
include hdepth htree

omit [DecidableEq Block] in
/-- The whole walk, with the digests in place. -/
theorem foldlM_keygenTurn_all :
    (List.range (2 ^ depth)).foldlM (keygenTurn prims legacy env (EvParams.ofDepth depth).T pk.rho)
        { walk := sk.tree, loopLeafSeed := locals.loopLeafSeed, digs := [], hashed := [] } =
      some {
        walk := stateAt prims.evDeriveChild depth rootSeed (2 ^ depth - 1)
        loopLeafSeed := nodeSeed prims.evDeriveChild rootSeed depth (2 ^ depth - 1)
        digs := (List.range (2 ^ depth)).map
          (storedDigest prims legacy env pk.rho rootSeed depth)
        hashed := leafInputs prims legacy env pk.rho rootSeed depth } := by
  have hwalk := foldlM_keygenTurn prims legacy env hdepth pk.rho rootSeed
    { walk := sk.tree, loopLeafSeed := locals.loopLeafSeed, digs := [], hashed := [] } htree
    (le_refl (2 ^ depth))
  simp only [List.nil_append, Nat.min_eq_right (Nat.sub_le _ 1),
    if_neg (pow_ne_zero depth two_ne_zero)] at hwalk
  exact hwalk

omit [DecidableEq Block] in
theorem keygenTail_of_no_levels (hdigs : env.alloc 0 = true)
    (hlevels : env.alloc (1 + 2 ^ depth) = false) :
    keygenTail prims legacy env (EvParams.ofDepth depth).T locals pk sk =
      some ⟨-4, pk, { sk with mt := { sk.mt with levels := none } },
        locals.walked prims rootSeed depth, leafInputs prims legacy env pk.rho rootSeed depth⟩ := by
  simp only [keygenTail, hdigs, if_true, toNat_ofDepth_T hdepth,
    foldlM_keygenTurn_all prims legacy env hdepth locals pk sk rootSeed htree, Option.bind_eq_bind,
    Option.bind_some, evMerkleBuild, hlevels, Bool.false_eq_true, if_false, Option.pure_def]
  rw [if_pos (by decide), hashInputs, List.filterMap_nil, List.append_nil]
  rfl

omit [DecidableEq Block] in
/-- With the digests and the levels granted, the commitment tree is built over the digests in
place. What is left is the leaf key, which is written through both of its pointers. -/
theorem keygenTail_of_levels (hsk : sk.par = .ofDepth depth) (hdigs : env.alloc 0 = true)
    (hlevels : env.alloc (1 + 2 ^ depth) = true) :
    ∃ mt events,
      evMerkleBuild prims.evHashNode true sk.mt (.ofDepth depth)
        ((List.range (2 ^ depth)).map (storedDigest prims legacy env pk.rho rootSeed depth)) =
          some (0, mt, events) ∧
      IsTreeOf prims.evHashNode (.ofDepth depth)
        (storedDigest prims legacy env pk.rho rootSeed depth) mt ∧
      (∀ level idx, level < depth → idx < 2 ^ level →
        .node
          (treeHash prims.evHashNode (storedDigest prims legacy env pk.rho rootSeed depth)
            (depth - (level + 1)) (2 * idx))
          (treeHash prims.evHashNode (storedDigest prims legacy env pk.rho rootSeed depth)
            (depth - (level + 1)) (2 * idx + 1)) ∈
          (hashInputs events : List (HashInput Block T1))) ∧
      keygenTail prims legacy env (EvParams.ofDepth depth).T locals pk sk =
        if env.alloc (2 + 2 ^ depth) ∧ env.alloc (3 + 2 ^ depth) then
          let key := leafKeypairAt prims legacy pk.rho rootSeed depth (env.heapPk, env.heapSk) 0
          some ⟨0,
            { pk with
              root := treeHash prims.evHashNode
                (storedDigest prims legacy env pk.rho rootSeed depth) depth 0 },
            { sk with
              mt := mt, leafRho := evMatrixSeed prims legacy pk.rho 0, leafPk := some key.1
              leafSk := some key.2 },
            { locals.walked prims rootSeed depth with
              leafSeed := nodeSeed prims.evDeriveChild rootSeed depth 0 },
            leafInputs prims legacy env pk.rho rootSeed depth ++ hashInputs events⟩
        else none := by
  have hD := toNat_ofDepth_depth hdepth
  have hdepth32 : (EvParams.ofDepth depth).depth.toNat < 32 := by
    rw [hD]
    exact lt_of_le_of_lt hdepth (by decide)
  let digest := storedDigest prims legacy env pk.rho rootSeed depth
  obtain ⟨mt, events, hbuild, hmt, hnodes, -⟩ := evMerkleBuild_spec prims.evHashNode sk.mt hdepth32
    ((List.range (2 ^ depth)).map digest) (by rw [hD]; simp) digest (by simp)
  obtain ⟨cells, hcells, -, hnode⟩ := hmt.node
  have hroot : loadNode cells 0 = some (treeHash prims.evHashNode digest depth 0) := by
    have hcell := hnode 0 0 (Nat.zero_le _) (by simp)
    rw [hD, Nat.sub_zero] at hcell
    exact congrArg Option.join hcell
  have hleaf := evTreeLeaf_stateAt prims.evDeriveChild hdepth rootSeed 0
  have hwalk := foldlM_keygenTurn_all prims legacy env hdepth locals pk sk rootSeed htree
  rw [htree] at hwalk
  refine ⟨mt, events, hbuild, hmt, ?_, ?_⟩
  · intro level idx hlevel hidx
    rw [hD] at hnodes
    exact List.mem_filterMap.mpr ⟨_, hnodes level idx hlevel hidx, rfl⟩
  · simp only [keygenTail, hdigs, hlevels, if_true, toNat_ofDepth_T hdepth, htree, hwalk, hsk,
      digest, hbuild, hcells, hroot, hleaf, Option.bind_eq_bind, Option.bind_some, ne_eq,
      not_true_eq_false, if_false, Option.pure_def]
    cases env.alloc (2 + 2 ^ depth) <;> cases env.alloc (3 + 2 ^ depth) <;> rfl

end Tail

omit [DecidableEq Block] in
theorem keygenTail_spec (env : KeygenEnv Block T1 LeafSk) (halloc : ∀ i, env.alloc i = true)
    {depth : ℕ} (hdepth : depth ≤ evMaxDepth) (locals : KeygenLocals Block) (pk : EvPk Block)
    (sk : EvSk Block T1 LeafSk) (rootSeed : Block) (hpk : pk.par = .ofDepth depth)
    (hsk : sk.par = .ofDepth depth) (hrho : sk.rho = pk.rho)
    (htree : sk.tree = stateAt prims.evDeriveChild depth rootSeed 0) :
    ∃ result, keygenTail prims legacy env (EvParams.ofDepth depth).T locals pk sk = some result ∧
      result.pk.rho = pk.rho ∧
      Generated prims legacy rootSeed depth (env.stackPk, env.stackSk) result := by
  let digest := leafDigestAt prims legacy pk.rho rootSeed depth (env.stackPk, env.stackSk)
  have hdigest : storedDigest prims legacy env pk.rho rootSeed depth = digest :=
    funext fun p ↦ if_pos (halloc (1 + p))
  obtain ⟨mt, events, -, hmt, hnodes, htail⟩ := keygenTail_of_levels prims legacy env hdepth locals
    pk sk rootSeed htree hsk (halloc _) (halloc _)
  rw [if_pos ⟨halloc _, halloc _⟩] at htail
  rw [hdigest] at hmt hnodes htail
  have hkey : leafKeypairAt prims legacy pk.rho rootSeed depth (env.heapPk, env.heapSk) 0 =
      leafKeypairAt prims legacy pk.rho rootSeed depth (env.stackPk, env.stackSk) 0 :=
    congrFun (leafKeypairAt_congr prims legacy _ _ _ _ _) 0
  refine ⟨_, htail, rfl, rfl,
    ⟨hsk, hpk, htree, hrho, rfl, by rw [hkey], by rw [hkey], hmt, rfl⟩, ?_, ?_⟩
  · intro p hp
    refine List.mem_append_left _ (List.mem_flatMap.mpr ⟨p, List.mem_range.mpr hp, ?_⟩)
    rw [if_pos (halloc (1 + p))]
    exact List.mem_singleton_self _
  · intro level idx hlevel hidx
    exact List.mem_append_right _ (hnodes level idx hlevel hidx)

/-- The public seed `ev_keygen` settles on. -/
def keygenRhoAt (env : KeygenEnv Block T1 LeafSk) (rootSeed : Block) : Block :=
  if legacy then prims.hashRoot rootSeed else env.random 1

omit [DecidableEq Block] in
/-- For an accepted lifetime the call goes on with the initialised seed tree. -/
theorem evKeygen_accepted (env : KeygenEnv Block T1 LeafSk) {depth : ℕ}
    (hdepth : depth ≤ evMaxDepth) (pk : EvPk Block) (sk : EvSk Block T1 LeafSk)
    (rootSeedIn : Option Block) :
    let rootSeed := rootSeedIn.getD (env.random 0)
    let rho := keygenRhoAt prims legacy env rootSeed
    evKeygen prims legacy env pk sk (EvParams.ofDepth depth).T rootSeedIn =
      keygenTail prims legacy env (EvParams.ofDepth depth).T
        { env.locals with rootSeed := rootSeed }
        { pk with par := .ofDepth depth, rho := rho }
        { sk with
          par := .ofDepth depth, rho := rho
          tree := stateAt prims.evDeriveChild depth rootSeed 0 } := by
  intro rootSeed rho
  have haccepted : Accepted (EvParams.ofDepth depth).T :=
    (accepted_iff_exists_depth _).mpr ⟨depth, hdepth, rfl⟩
  have hpar : ({ T := (EvParams.ofDepth depth).T, depth := UInt32.ofNat depth } : EvParams) =
      .ofDepth depth := rfl
  have hinit := evTreeInit_eq prims.evDeriveChild hdepth rootSeed
  have hseed : keygenRootSeed (env.random 0) rootSeedIn = (0, rootSeed) := by
    cases rootSeedIn <;> rfl
  have hrho : keygenRho prims legacy (env.random 1) rootSeed = (0, rho) := by
    simp only [keygenRho, rho, keygenRhoAt]
    cases legacy <;> rfl
  unfold evKeygen
  rw [if_neg haccepted, depthLoop_two_pow hdepth]
  simp only [hseed, hrho, hpar, hinit, ne_eq, not_true_eq_false, if_false]

omit [DecidableEq Block] in
/-- An accepted call whose digest array and levels are granted returns 0 with the tree over the
digests in place, unless a buffer of the leaf key is missing. -/
theorem evKeygen_of_levels (env : KeygenEnv Block T1 LeafSk) {depth : ℕ}
    (hdepth : depth ≤ evMaxDepth) (pk : EvPk Block) (sk : EvSk Block T1 LeafSk)
    (rootSeedIn : Option Block) (hdigs : env.alloc 0 = true)
    (hlevels : env.alloc (1 + 2 ^ depth) = true) :
    let rootSeed := rootSeedIn.getD (env.random 0)
    let rho := keygenRhoAt prims legacy env rootSeed
    let digest := storedDigest prims legacy env rho rootSeed depth
    let key := leafKeypairAt prims legacy rho rootSeed depth (env.heapPk, env.heapSk) 0
    ∃ mt hashed,
      (∃ events, evMerkleBuild prims.evHashNode true sk.mt (.ofDepth depth)
        ((List.range (2 ^ depth)).map digest) = some (0, mt, events)) ∧
      IsTreeOf prims.evHashNode (.ofDepth depth) digest mt ∧
      evKeygen prims legacy env pk sk (EvParams.ofDepth depth).T rootSeedIn =
        if env.alloc (2 + 2 ^ depth) ∧ env.alloc (3 + 2 ^ depth) then
          some ⟨0,
            { par := .ofDepth depth, rho := rho
              root := treeHash prims.evHashNode digest depth 0 },
            { par := .ofDepth depth, tree := stateAt prims.evDeriveChild depth rootSeed 0, mt := mt
              rho := rho, leafRho := evMatrixSeed prims legacy rho 0, leafPk := some key.1
              leafSk := some key.2 },
            { rootSeed := rootSeed
              walk := stateAt prims.evDeriveChild depth rootSeed (2 ^ depth - 1)
              loopLeafSeed := nodeSeed prims.evDeriveChild rootSeed depth (2 ^ depth - 1)
              leafSeed := nodeSeed prims.evDeriveChild rootSeed depth 0 },
            hashed⟩
        else none := by
  intro rootSeed rho digest key
  obtain ⟨mt, events, hbuild, hmt, -, htail⟩ := keygenTail_of_levels prims legacy env hdepth
    { env.locals with rootSeed := rootSeed } { pk with par := .ofDepth depth, rho := rho }
    { sk with
      par := .ofDepth depth, rho := rho
      tree := stateAt prims.evDeriveChild depth rootSeed 0 } rootSeed rfl rfl hdigs hlevels
  exact ⟨mt, _, ⟨events, hbuild⟩, hmt,
    (evKeygen_accepted prims legacy env hdepth pk sk rootSeedIn).trans htail⟩

omit [DecidableEq Block] in
/-- Key generation with every allocation granted succeeds for every accepted lifetime. -/
theorem evKeygen_spec (env : KeygenEnv Block T1 LeafSk) (halloc : ∀ i, env.alloc i = true)
    {depth : ℕ} (hdepth : depth ≤ evMaxDepth) (pk : EvPk Block) (sk : EvSk Block T1 LeafSk)
    (rootSeedIn : Option Block) :
    ∃ result,
      evKeygen prims legacy env pk sk (EvParams.ofDepth depth).T rootSeedIn = some result ∧
      result.pk.rho = (if legacy then prims.hashRoot (rootSeedIn.getD (env.random 0))
        else env.random 1) ∧
      Generated prims legacy (rootSeedIn.getD (env.random 0)) depth (env.stackPk, env.stackSk)
        result := by
  rw [evKeygen_accepted prims legacy env hdepth]
  exact keygenTail_spec prims legacy env halloc hdepth _ _ _ _ rfl rfl rfl rfl

omit [DecidableEq Block] in
/-- A lifetime that is not accepted is refused. -/
theorem evKeygen_of_not_accepted (env : KeygenEnv Block T1 LeafSk) (pk : EvPk Block)
    (sk : EvSk Block T1 LeafSk) {T : UInt32} (hT : ¬ Accepted T) (rootSeedIn : Option Block) :
    evKeygen prims legacy env pk sk T rootSeedIn = some ⟨-1, pk, sk, env.locals, []⟩ := by
  unfold evKeygen
  rw [if_pos (not_not.mp hT)]

omit [DecidableEq Block] in
/-- A call that returned 0 with every allocation granted was for an accepted lifetime. -/
theorem exists_depth_of_evKeygen (env : KeygenEnv Block T1 LeafSk)
    (halloc : ∀ i, env.alloc i = true) (pk : EvPk Block) (sk : EvSk Block T1 LeafSk) {T : UInt32}
    {rootSeedIn : Option Block} {result : KeygenResult Block T1 LeafSk}
    (hkeygen : evKeygen prims legacy env pk sk T rootSeedIn = some result)
    (hret : result.ret = 0) :
    ∃ depth ≤ evMaxDepth, T = (EvParams.ofDepth depth).T ∧
      result.pk.rho = (if legacy then prims.hashRoot (rootSeedIn.getD (env.random 0))
        else env.random 1) ∧
      Generated prims legacy (rootSeedIn.getD (env.random 0)) depth (env.stackPk, env.stackSk)
        result := by
  by_cases hT : Accepted T
  · obtain ⟨depth, hdepth, rfl⟩ := (accepted_iff_exists_depth T).mp hT
    obtain ⟨result', hresult', hrho, hgenerated⟩ :=
      evKeygen_spec prims legacy env halloc hdepth pk sk rootSeedIn
    obtain rfl : result = result' := Option.some.inj (hkeygen.symm.trans hresult')
    exact ⟨depth, hdepth, rfl, hrho, hgenerated⟩
  · rw [evKeygen_of_not_accepted prims legacy env pk sk hT] at hkeygen
    obtain rfl := Option.some.inj hkeygen
    exact absurd hret (show (-1 : ℤ) ≠ 0 by decide)

end Scheme

end EvMlDsa
