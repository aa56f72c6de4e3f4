import EvMlDsa.Merkle
import EvMlDsa.SeedTree
import EvMlDsa.Sha3

/-!
# The signature scheme

`evmldsa.c` over the operations of its hash and leaf layers (`Primitives`): key generation,
evolution, signing and verification, with the two matrix seed modes as the parameter `legacy` of
`EVMLDSA_LEGACY`. Blocks, packed `t1` vectors, leaf secret keys and leaf signatures are abstract
types here; a public leaf key is the pair of regions its buffer has.

Memory is explicit. Every call of `malloc` takes its outcome from a pattern of booleans in the order
of the calls, a pointer is an `Option`, and what the source leaves undefined (a write through a null
pointer, a read past the end of the signature, a message length that overflows `size_t`) has no
result. What the tree and leaf hashes are applied to is recorded.
-/

set_option autoImplicit false
set_option relaxedAutoImplicit false

namespace EvMlDsa

/-! ### Data -/

/-- A leaf public key: `rho` in the first `SEEDBYTES` bytes, the packed `t1` behind it. -/
structure LeafPk (Block T1 : Type) where
  rho : Block
  t1 : T1
deriving DecidableEq

/-- What the scheme uses of the hash and leaf layers. The buffers `ev_leaf_keypair` writes to are
arguments of it; it overwrites them completely and starts the public key with the seed it was
given. -/
structure Primitives (Block T1 LeafSk Fswa Rnd : Type) where
  /-- `ev_derive_child` -/
  evDeriveChild : Block → UInt8 → Block
  /-- `ev_hash_node` -/
  evHashNode : Block → Block → Block
  /-- the digest of `EV_DOM_LEAF` and a packed `t1` -/
  hashLeaf : T1 → Block
  /-- `ev_period_rho` -/
  evPeriodRho : Block → UInt32 → Block
  /-- the digest of a root seed -/
  hashRoot : Block → Block
  /-- `ev_leaf_keypair` on the seed of the matrix, the leaf seed and the two buffers -/
  evLeafKeypair : Block → Block → LeafPk Block T1 → LeafSk → LeafPk Block T1 × LeafSk
  /-- `memset(leaf_sk, 0, CRYPTO_SECRETKEYBYTES)` -/
  zeroSk : LeafSk
  /-- `crypto_sign_signature` with empty context: return code and the bytes written -/
  cryptoSignSignature : Rnd → List UInt8 → LeafSk → ℤ × Fswa
  /-- `crypto_sign_verify` with empty context -/
  cryptoSignVerify : Fswa → List UInt8 → LeafPk Block T1 → ℤ
  evLeafKeypair_overwrites : ∀ rhoP leafSeed pk pk' sk sk',
    evLeafKeypair rhoP leafSeed pk sk = evLeafKeypair rhoP leafSeed pk' sk'
  evLeafKeypair_rho : ∀ rhoP leafSeed pk sk, (evLeafKeypair rhoP leafSeed pk sk).1.rho = rhoP

/-- `ev_pk`. -/
structure EvPk (Block : Type) where
  par : EvParams
  rho : Block
  root : Block
deriving DecidableEq

/-- `ev_sk`. -/
structure EvSk (Block T1 LeafSk : Type) where
  par : EvParams
  tree : EvTreeState Block
  mt : EvMerkleTree Block
  rho : Block
  leafRho : Block
  leafPk : Option (LeafPk Block T1)
  leafSk : Option LeafSk

/-- An input of the leaf digest or of an inner node of the commitment tree. -/
inductive HashInput (Block T1 : Type) where
  | leaf (t1 : T1)
  | node (left right : Block)
deriving DecidableEq

/-- The hash inputs among the events of the tree code. -/
def hashInputs {Block T1 : Type} (events : List (MerkleEvent Block)) : List (HashInput Block T1) :=
  events.filterMap fun
    | .hash left right => some (.node left right)
    | _ => none

section Scheme

variable {Block T1 LeafSk Fswa Rnd : Type} [Zero Block] [DecidableEq Block]
  (prims : Primitives Block T1 LeafSk Fswa Rnd) (legacy : Bool)

/-- `ev_matrix_seed`. -/
def evMatrixSeed (rho : Block) (period : UInt32) : Block :=
  if legacy then rho else prims.evPeriodRho rho period

/-- `ev_leaf_t_commit`; `lpk` and `lsk` are what its two stack buffers hold on entry. -/
def evLeafTCommit (rho : Block) (period : UInt32) (leafSeed : Block) (lpk : LeafPk Block T1)
    (lsk : LeafSk) : T1 :=
  let rhoP := evMatrixSeed prims legacy rho period
  (prims.evLeafKeypair rhoP leafSeed lpk lsk).1.t1

/-- `ev_merkle_leafdigest` on a packed `t1` (`none` where its bytes cannot be read), with what was
hashed. A failed allocation substitutes the zero digest and reads nothing. -/
def evMerkleLeafdigest (allocated : Bool) (val : Option T1) :
    Option (Block × List (HashInput Block T1)) :=
  if allocated then do
    let val ← val
    return (prims.hashLeaf val, [.leaf val])
  else some (0, [])

/-! ### Key generation -/

/-- The local variables of `ev_keygen` that hold seed material. -/
structure KeygenLocals (Block : Type) where
  rootSeed : Block
  walk : EvTreeState Block
  loopLeafSeed : Block
  leafSeed : Block

/-- What a call of `ev_keygen` finds: the outcome of its `malloc` calls in order, the output of
`randombytes`, and the former contents of its stack frame and of fresh memory. -/
structure KeygenEnv (Block T1 LeafSk : Type) where
  alloc : ℕ → Bool
  random : ℕ → Block
  locals : KeygenLocals Block
  stackPk : LeafPk Block T1
  stackSk : LeafSk
  heapPk : LeafPk Block T1
  heapSk : LeafSk

/-- What a call of `ev_keygen` leaves: return code, keys, local variables, and the inputs of the
leaf and tree hashes. -/
structure KeygenResult (Block T1 LeafSk : Type) where
  ret : ℤ
  pk : EvPk Block
  sk : EvSk Block T1 LeafSk
  locals : KeygenLocals Block
  hashed : List (HashInput Block T1)

/-- `ev_randombytes`: `randombytes` aborts on failure, so the return code is always 0. -/
def evRandombytes {Bytes : Type} (random : Bytes) : ℤ × Bytes := (0, random)

/-- The loop `while ((1u << depth) < T) depth++`; `fuel` bounds the number of turns. -/
def depthLoop (T : UInt32) : (fuel : ℕ) → UInt32 → UInt32
  | 0, depth => depth
  | fuel + 1, depth => if 1 <<< depth < T then depthLoop T fuel (depth + 1) else depth

/-- The state of the loop over the periods. -/
structure KeygenWalk (Block T1 : Type) where
  walk : EvTreeState Block
  loopLeafSeed : Block
  digs : List Block
  hashed : List (HashInput Block T1)

/-- The body of the loop over the periods; the digest of period `p` is allocation `1 + p`. -/
def keygenTurn (env : KeygenEnv Block T1 LeafSk) (T : UInt32) (rho : Block)
    (w : KeygenWalk Block T1) (p : ℕ) : Option (KeygenWalk Block T1) := do
  let leafSeed := evTreeLeaf w.walk
  let t1 := evLeafTCommit prims legacy rho (UInt32.ofNat p) leafSeed env.stackPk env.stackSk
  let (digest, hashed) ← evMerkleLeafdigest prims (env.alloc (1 + p)) (some t1)
  return {
    walk := if p + 1 < T.toNat then (evTreeAdvance prims.evDeriveChild w.walk).2 else w.walk
    loopLeafSeed := leafSeed
    digs := w.digs ++ [digest]
    hashed := w.hashed ++ hashed }

/-- `ev_keygen` from the point where the seed tree is initialised. -/
def keygenTail (env : KeygenEnv Block T1 LeafSk) (T : UInt32) (locals : KeygenLocals Block)
    (pk : EvPk Block) (sk : EvSk Block T1 LeafSk) : Option (KeygenResult Block T1 LeafSk) :=
  if env.alloc 0 then do
    let start : KeygenWalk Block T1 :=
      { walk := sk.tree, loopLeafSeed := locals.loopLeafSeed, digs := [], hashed := [] }
    let w ← (List.range T.toNat).foldlM (keygenTurn prims legacy env T pk.rho) start
    let locals := { locals with walk := w.walk, loopLeafSeed := w.loopLeafSeed }
    let (code, mt, events) ←
      evMerkleBuild prims.evHashNode (env.alloc (1 + T.toNat)) sk.mt sk.par w.digs
    let sk := { sk with mt := mt }
    let hashed := w.hashed ++ hashInputs events
    if code ≠ 0 then return ⟨-4, pk, sk, locals, hashed⟩
    let cells ← mt.levels
    let root ← loadNode cells 0
    let pk := { pk with root := root }
    -- the two buffers of the cached leaf key; a null pointer is only found when it is written to
    let leafSk := if env.alloc (2 + T.toNat) then some env.heapSk else none
    let leafPk := if env.alloc (3 + T.toNat) then some env.heapPk else none
    let leafSeed := evTreeLeaf sk.tree
    let leafRho := evMatrixSeed prims legacy pk.rho 0
    let (newPk, newSk) := prims.evLeafKeypair leafRho leafSeed (← leafPk) (← leafSk)
    let sk := { sk with leafRho := leafRho, leafPk := some newPk, leafSk := some newSk }
    return ⟨0, pk, sk, { locals with leafSeed := leafSeed }, hashed⟩
  else some ⟨-3, pk, sk, locals, []⟩

/-- The root seed: the caller's, or random bytes. -/
def keygenRootSeed (random : Block) : Option Block → ℤ × Block
  | some seed => (0, seed)
  | none => evRandombytes random

/-- The public seed: random bytes, or the digest of the root seed in legacy mode. -/
def keygenRho (random rootSeed : Block) : ℤ × Block :=
  if legacy then (0, prims.hashRoot rootSeed) else evRandombytes random

/-- `ev_keygen`; `rootSeedIn` is `none` for the null pointer. -/
def evKeygen (env : KeygenEnv Block T1 LeafSk) (pk : EvPk Block) (sk : EvSk Block T1 LeafSk)
    (T : UInt32) (rootSeedIn : Option Block) : Option (KeygenResult Block T1 LeafSk) :=
  if T = 0 ∨ T &&& (T - 1) ≠ 0 ∨ 1 <<< UInt32.ofNat evMaxDepth < T then
    some ⟨-1, pk, sk, env.locals, []⟩
  else
    let par : EvParams := { T := T, depth := depthLoop T 32 0 }
    let sk := { sk with par := par }
    let pk := { pk with par := par }
    let (code, rootSeed) := keygenRootSeed (env.random 0) rootSeedIn
    let locals := { env.locals with rootSeed := rootSeed }
    if code ≠ 0 then some ⟨-2, pk, sk, locals, []⟩
    else
      let (code, rho) := keygenRho prims legacy (env.random 1) rootSeed
      let pk := { pk with rho := rho }
      if code ≠ 0 then some ⟨-2, pk, sk, { locals with rootSeed := 0 }, []⟩
      else
        let sk := { sk with rho := rho, tree := evTreeInit prims.evDeriveChild par rootSeed }
        keygenTail prims legacy env T locals pk sk

/-! ### Evolution and signing -/

/-- `ev_evolve`: return code and signer state. -/
def evEvolve (sk : EvSk Block T1 LeafSk) : Option (ℤ × EvSk Block T1 LeafSk) :=
  let (code, tree) := evTreeAdvance prims.evDeriveChild sk.tree
  let sk := { sk with tree := tree }
  if code ≠ 0 then some (-1, sk)
  else do
    let leafSeed := evTreeLeaf sk.tree
    let _ ← sk.leafSk
    let leafRho := evMatrixSeed prims legacy sk.rho sk.tree.current
    let (leafPk, leafSk) := prims.evLeafKeypair leafRho leafSeed (← sk.leafPk) prims.zeroSk
    return (0, { sk with leafRho := leafRho, leafPk := some leafPk, leafSk := some leafSk })

/-- The composite message `EV_DOM_M || tag || m`. -/
def compositeMessage (tag : Vector UInt8 4) (m : List UInt8) : List UInt8 :=
  evDomM :: (tag.toList ++ m)

/-- What `ev_sign` leaves: its return code and the fields it wrote to `sig`, in order. -/
structure SignResult (Block T1 Fswa : Type) where
  ret : ℤ
  tag : Option (Vector UInt8 4)
  fswa : Option Fswa
  t1 : Option T1
  path : Option (List Block)

/-- `ev_sign` up to the layout of its output; `allocated` is the outcome of the `malloc` of the
composite message. -/
def evSignFields (sk : EvSk Block T1 LeafSk) (m : List UInt8) (rnd : Rnd) (allocated : Bool) :
    Option (SignResult Block T1 Fswa) :=
  if 2 ^ 64 ≤ 1 + 4 + m.length then none
  else if allocated then do
    let tag := bigEndian sk.tree.current
    let (code, fswa) := prims.cryptoSignSignature rnd (compositeMessage tag m) (← sk.leafSk)
    if code ≠ 0 then return ⟨-2, some tag, some fswa, none, none⟩
    let leafPk ← sk.leafPk
    let (code, path, _) ← evMerklePath sk.mt sk.tree.current
    if code ≠ 0 then return ⟨-3, some tag, some fswa, some leafPk.t1, none⟩
    return ⟨0, some tag, some fswa, some leafPk.t1, some path⟩
  else some ⟨-1, none, none, none, none⟩

/-! ### Verification -/

/-- What `ev_verify` leaves: its return code and the inputs of the leaf and tree hashes. -/
structure VerifyResult (Block T1 : Type) where
  ret : ℤ
  hashed : List (HashInput Block T1)

/-- `ev_verify` behind the length check, on the fields of the signature: `none` where the bytes of a
field end past the buffer, `path` the whole blocks behind `t1`. The two allocations are those of the
leaf digest and of the composite message. -/
def evVerifyFields (alloc : ℕ → Bool) (pk : EvPk Block) (m : List UInt8) (tag : Vector UInt8 4)
    (fswa : Option Fswa) (t1 : Option T1) (path : List Block) :
    Option (VerifyResult Block T1) :=
  let p := readBigEndian tag
  if pk.par.T ≤ p then some ⟨-2, []⟩
  else do
    let (dg, leafHashed) ← evMerkleLeafdigest prims (alloc 0) t1
    let (ok, pairs) ← evMerkleVerify prims.evHashNode pk.root pk.par p dg path
    let hashed := leafHashed ++ pairs.map fun pair ↦ .node pair.1 pair.2
    if ok = 0 then return ⟨-3, hashed⟩
    let leafPk : LeafPk Block T1 :=
      { rho := evMatrixSeed prims legacy pk.rho p, t1 := ← t1 }
    if 2 ^ 64 ≤ 1 + 4 + m.length then none
    else if alloc 1 then
      let code := prims.cryptoSignVerify (← fswa) (compositeMessage tag m) leafPk
      return ⟨if code = 0 then 0 else -5, hashed⟩
    else return ⟨-4, hashed⟩

end Scheme

end EvMlDsa
