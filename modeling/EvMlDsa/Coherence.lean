import EvMlDsa.LeafKey
import EvMlDsa.Signer

/-!
# The cached leaf key

On bytes, every state of a run holds the leaf key `ev_leaf_keypair` computes for the current period,
with nothing of an earlier key left in its buffers, and that key is the one the commitment tree of
`ev_keygen` committed to (`CacheCoherent`, `evSigner_coherent`). A call of `ev_evolve` or
`ev_tree_advance` that fails leaves its state as it was, on any contents of the seed tree.
-/

set_option autoImplicit false
set_option relaxedAutoImplicit false

namespace EvMlDsa

open Library.HashTree Library.PerfectTree

/-- The secret key of the scheme on bytes. -/
abbrev ByteSk (mode : DilithiumMode) :=
  EvSk Block (PackedT1 mode) (Vector UInt8 (cryptoSecretkeybytes mode))

/-- The owner of a key on bytes. -/
abbrev ByteSigner (mode : DilithiumMode) :=
  Signer Block (PackedT1 mode) (Vector UInt8 (cryptoSecretkeybytes mode)) (List UInt8)

section Bytes

variable (host : ByteOrder) {mode : DilithiumMode} {Rnd : Type} (vendored : Vendored mode Rnd)
  (legacy : Bool)

/-- The cached values of a signer state agree with its seed tree, its commitment tree and the public
key. -/
structure CacheCoherent (pk : EvPk Block) (T : UInt32) (s : ByteSigner mode) : Prop where
  leafRho : s.sk.leafRho =
    evMatrixSeed (bytePrimitives host vendored) legacy pk.rho s.sk.tree.current
  /-- whatever the buffers held before -/
  leafKey : ∀ lpk lsk, ∃ leafPk leafSk, s.sk.leafPk = some leafPk ∧ s.sk.leafSk = some leafSk ∧
    (leafPk.toBuffer, leafSk) = evLeafKeypair vendored s.sk.leafRho (evTreeLeaf s.sk.tree) lpk lsk
  merkleLeaf : ∃ leafPk cells digest hashed, s.sk.leafPk = some leafPk ∧
    s.sk.mt.levels = some cells ∧
    evMerkleLeafdigest (bytePrimitives host vendored) true (some leafPk.t1) =
      some (digest, hashed) ∧
    loadNode cells (nodeOff s.sk.mt.par.depth.toNat s.sk.tree.current.toNat) = some digest
  root : ∃ cells, s.sk.mt.levels = some cells ∧ loadNode cells 0 = some pk.root
  current : s.sk.tree.current.toNat = s.evolved
  inLifetime : s.evolved ≤ T.toNat - 1
  refused : ∃ code sk', evEvolve (bytePrimitives host vendored) legacy s.sk = some (code, sk') ∧
    (code ≠ 0 ↔ s.sk.tree.current = T - 1)

variable {pk : EvPk Block} {rootSeed : Block} {depth : ℕ}
  {buffers : LeafPk Block (PackedT1 mode) × Vector UInt8 (cryptoSecretkeybytes mode)}

/-- The cached key of a coherent state, on bytes. -/
theorem leafKeypairAt_bytes (rho : Block) (p : ℕ)
    (lpk : Vector UInt8 (cryptoPublickeybytes mode))
    (lsk : Vector UInt8 (cryptoSecretkeybytes mode)) :
    let key := leafKeypairAt (bytePrimitives host vendored) legacy rho rootSeed depth buffers p
    (key.1.toBuffer, key.2) =
      evLeafKeypair vendored
        (evMatrixSeed (bytePrimitives host vendored) legacy rho (UInt32.ofNat p))
        (nodeSeed (evDeriveChild host) rootSeed depth p) lpk lsk := by
  simp only [leafKeypairAt, bytePrimitives, LeafPk.toBuffer_ofBuffer]
  exact evLeafKeypair_overwrites vendored _ _ _ _ _ _

theorem Running.cacheCoherent (hdepth : depth ≤ evMaxDepth) {s : ByteSigner mode}
    (hs : Running (bytePrimitives host vendored) legacy pk rootSeed depth buffers s) :
    CacheCoherent host vendored legacy pk (EvParams.ofDepth depth).T s := by
  have hcoherent := hs.coherent
  have hlifetime := hs.inLifetime
  have hD := toNat_ofDepth_depth hdepth
  have hT := toNat_ofDepth_T hdepth
  have hP := toNat_ofNat_of_lt_two_pow hdepth hlifetime
  have hcurrent : s.sk.tree.current = UInt32.ofNat s.evolved := by
    rw [hcoherent.tree, stateAt_current]
  have hleaf : evTreeLeaf s.sk.tree = nodeSeed (evDeriveChild host) rootSeed depth s.evolved := by
    rw [hcoherent.tree]
    exact evTreeLeaf_stateAt _ hdepth rootSeed _
  have hleafRho : s.sk.leafRho =
      evMatrixSeed (bytePrimitives host vendored) legacy pk.rho s.sk.tree.current := by
    rw [hcoherent.leafRho, hcurrent]
  obtain ⟨cells, hlevels, -, hcells⟩ := hcoherent.mt.node
  have hpar := hcoherent.mt.par_eq
  refine ⟨hleafRho, fun lpk lsk ↦ ⟨_, _, hcoherent.leafPk, hcoherent.leafSk, ?_⟩,
    ⟨_, cells, _, _, hcoherent.leafPk, hlevels, rfl, ?_⟩, ⟨cells, hlevels, ?_⟩, ?_, ?_, ?_⟩
  · rw [hleafRho, hcurrent, hleaf]
    exact leafKeypairAt_bytes host vendored legacy pk.rho s.evolved lpk lsk
  · have hcell := hcells depth s.evolved hD.ge hlifetime
    rw [hpar, hcurrent, hP, loadNode_nodeOff, hD, hcell, hD, Nat.sub_self]
    rfl
  · have hcell := hcells 0 0 (Nat.zero_le _) (by simp)
    rw [hD, Nat.sub_zero, ← hcoherent.root] at hcell
    exact congrArg Option.join hcell
  · rw [hcurrent, hP]
  · rw [hT]
    omega
  · have hpositive : 1 ≤ (EvParams.ofDepth depth).T := by
      rw [UInt32.le_iff_toNat_le, hT]
      exact Nat.one_le_two_pow
    have hlastT : ((EvParams.ofDepth depth).T - 1).toNat = 2 ^ depth - 1 := by
      rw [UInt32.toNat_sub_of_le _ _ hpositive, hT]
      rfl
    have hrefused : s.sk.tree.current = (EvParams.ofDepth depth).T - 1 ↔
        s.evolved + 1 = 2 ^ depth := by
      rw [← UInt32.toNat_inj, hlastT, hcurrent, hP]
      omega
    rw [hrefused]
    by_cases hmore : s.evolved + 1 < 2 ^ depth
    · obtain ⟨sk', hevolve, -⟩ := evEvolve_of_coherent _ legacy hdepth hcoherent hmore
      exact ⟨0, sk', hevolve, by omega⟩
    · exact ⟨-1, s.sk, evEvolve_last _ legacy hcoherent (by omega), by omega⟩

/-- The signer state at all times. After a successful `ev_keygen` with every allocation granted,
every run of `ev_sign` and `ev_evolve` calls whose messages fit ends in a state whose cached leaf
key, tree, root and period agree, with `ev_evolve` refused exactly at the last period. On any seed
tree of a lifetime `2 ^ depth` before its end, whatever its slots hold, a call of `ev_tree_advance`
or `ev_evolve` that does not return 0 changes nothing. -/
theorem evSigner_coherent
    (env : KeygenEnv Block (PackedT1 mode) (Vector UInt8 (cryptoSecretkeybytes mode)))
    (halloc : ∀ i, env.alloc i = true) (pk : EvPk Block) (sk : ByteSk mode) (T : UInt32)
    (rootSeedIn : Option Block)
    (result : KeygenResult Block (PackedT1 mode) (Vector UInt8 (cryptoSecretkeybytes mode)))
    (hkeygen : evKeygen (bytePrimitives host vendored) legacy env pk sk T rootSeedIn = some result)
    (hret : result.ret = 0) :
    (∀ run : List (Call Rnd), (∀ c ∈ run, c.Fits) →
      ∃ s, (Signer.start result.sk).calls (bytePrimitives host vendored) legacy run = some s ∧
        CacheCoherent host vendored legacy result.pk T s) ∧
    (∀ (st : EvTreeState Block) (depth : ℕ), depth ≤ evMaxDepth → st.par = .ofDepth depth →
      st.current < st.par.T → (evTreeAdvance (evDeriveChild host) st).1 ≠ 0 →
      (evTreeAdvance (evDeriveChild host) st).2 = st) ∧
    (∀ (sk sk' : ByteSk mode) (depth : ℕ) (code : ℤ), depth ≤ evMaxDepth →
      sk.tree.par = .ofDepth depth → sk.tree.current < sk.tree.par.T →
      evEvolve (bytePrimitives host vendored) legacy sk = some (code, sk') → code ≠ 0 →
      sk' = sk) := by
  refine ⟨?_, ?_, ?_⟩
  · intro run hrun
    obtain ⟨depth, hdepth, rfl, -, hgenerated⟩ :=
      exists_depth_of_evKeygen _ legacy env halloc pk sk hkeygen hret
    obtain ⟨s, hcalls, hs⟩ := calls_running (bytePrimitives host vendored) legacy hdepth
      (start_running _ legacy hgenerated) run hrun
    exact ⟨s, hcalls, hs.cacheCoherent host vendored legacy hdepth⟩
  · intro st depth _ _ _
    exact evTreeAdvance_unchanged (bytePrimitives host vendored) st
  · intro sk sk' depth code _ _ _
    exact evEvolve_unchanged (bytePrimitives host vendored) legacy

end Bytes

/-! ### A concrete leaf layer -/

/-- A leaf layer whose arithmetic is constant, which signs with zero bytes and accepts
everything. -/
def blankVendored : Vendored .two Unit where
  shake256 outlen _ := Vector.replicate outlen 0
  polyvecMatrixExpand _ := Vector.replicate _ (Vector.replicate _ (Vector.replicate _ 0))
  polyveclUniformEta _ _ := Vector.replicate _ (Vector.replicate _ 0)
  polyveckUniformEta _ _ := Vector.replicate _ (Vector.replicate _ 0)
  polyveclNtt s1 := s1
  polyvecMatrixPointwiseMontgomery _ _ := Vector.replicate _ (Vector.replicate _ 0)
  polyveckReduce t := t
  polyveckInvnttTomont t := t
  cryptoSignSignature _ _ _ := (0, List.replicate 2420 0)
  cryptoSignVerify _ _ _ := 0

/-- A seed tree of zero bytes. -/
def blankTree : EvTreeState Block :=
  ⟨⟨0, 0⟩, 0, Vector.replicate _ 0, Vector.replicate _ 0, Vector.replicate _ 0⟩

/-- Every allocation granted, every byte of memory and randomness zero. -/
def blankEnv : KeygenEnv Block (PackedT1 .two) (Vector UInt8 (cryptoSecretkeybytes .two)) where
  alloc _ := true
  random _ := 0
  locals := ⟨0, blankTree, 0, 0⟩
  stackPk := ⟨0, 0⟩
  stackSk := 0
  heapPk := ⟨0, 0⟩
  heapSk := 0

def blankPk : EvPk Block := ⟨⟨0, 0⟩, 0, 0⟩

def blankSk : ByteSk .two := ⟨⟨0, 0⟩, blankTree, ⟨⟨0, 0⟩, none, 0⟩, 0, 0, none, none⟩

/-- A lifetime of four periods: two evolutions, a signature and a third evolution. -/
theorem evSigner_coherent_witness :
    ∃ (result : KeygenResult Block (PackedT1 .two) (Vector UInt8 (cryptoSecretkeybytes .two)))
      (s : ByteSigner .two),
      (Signer.start result.sk).calls (bytePrimitives .little blankVendored) true
        [.evolve, .evolve, .sign [1, 2, 3] () true, .evolve] = some s ∧
      CacheCoherent .little blankVendored true result.pk (EvParams.ofDepth 2).T s := by
  obtain ⟨result, hkeygen, -, hgenerated⟩ :=
    evKeygen_spec (bytePrimitives .little blankVendored) true blankEnv (fun _ ↦ rfl)
      (by decide : 2 ≤ evMaxDepth) blankPk blankSk (some 0)
  obtain ⟨s, hcalls, hs⟩ := (evSigner_coherent .little blankVendored true blankEnv (fun _ ↦ rfl)
    blankPk blankSk _ (some 0) result hkeygen hgenerated.ret).1
      [.evolve, .evolve, .sign [1, 2, 3] () true, .evolve] (by simp [Call.Fits])
  exact ⟨result, s, hcalls, hs⟩

end EvMlDsa
