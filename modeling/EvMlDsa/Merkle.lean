import EvMlDsa.Params

/-!
# The commitment tree

`ev_merkle.c` over an abstract type of 32-byte blocks. The `levels` region is an array of 32-byte
slots, empty until written; offsets are the byte offsets of `node_off`. Reading a slot that was
never written, and reading or writing outside the region, has no result (`none`). Every access and
every call of `ev_hash_node` is recorded, oldest first.
-/

set_option autoImplicit false
set_option relaxedAutoImplicit false

namespace EvMlDsa

/-- What the tree code does to its memory and to the hash. -/
inductive MerkleEvent (Block : Type*)
  | read (off : ℕ)
  | write (off : ℕ)
  | hash (left right : Block)
deriving DecidableEq

/-- The `levels` region during a call, with the record of what was done to it. -/
structure NodeMem (Block : Type*) where
  cells : Array (Option Block)
  events : List (MerkleEvent Block)

/-- `ev_merkle_tree`; `levels` is `none` for the null pointer. -/
structure EvMerkleTree (Block : Type*) where
  par : EvParams
  levels : Option (Array (Option Block))
  mode : Int32
deriving DecidableEq

/-- `node_off`: the byte offset of a node in the level-order layout. -/
def nodeOff (level idx : ℕ) : ℕ := ((1 <<< level) - 1 + idx) * 32

section Merkle

variable {Block : Type*}

/-- The 32 bytes at a byte offset of the region. -/
def loadNode (cells : Array (Option Block)) (off : ℕ) : Option Block :=
  if off % 32 = 0 then (cells[off / 32]?).join else none

/-- Reads a node. -/
def NodeMem.load (mem : NodeMem Block) (off : ℕ) : Option (Block × NodeMem Block) := do
  let block ← loadNode mem.cells off
  return (block, { mem with events := mem.events ++ [.read off] })

/-- Writes a node. -/
def NodeMem.store (mem : NodeMem Block) (off : ℕ) (block : Block) : Option (NodeMem Block) :=
  if off % 32 = 0 ∧ off / 32 < mem.cells.size then
    some { cells := mem.cells.setIfInBounds (off / 32) (some block)
           events := mem.events ++ [.write off] }
  else none

variable (evHashNode : Block → Block → Block)

/-- `memcpy(mt->levels + leaf_base, leaf_digests, (1 << depth) * 32)`, block by block. -/
def copyLeaves (depth : ℕ) (leafDigests : List Block) (mem : NodeMem Block) :
    Option (NodeMem Block) :=
  (List.range (1 <<< depth)).foldlM (fun mem i ↦ do
    let digest ← leafDigests[i]?
    mem.store (nodeOff depth 0 + i * 32) digest) mem

/-- The body of the inner loop: hashes the nodes `i` and `i + 1` of level `l` into their parent. -/
def buildNode (l : ℕ) (mem : NodeMem Block) (i : ℕ) : Option (NodeMem Block) := do
  let (left, mem) ← mem.load (nodeOff l i)
  let (right, mem) ← mem.load (nodeOff l (i + 1))
  let mem : NodeMem Block := { mem with events := mem.events ++ [.hash left right] }
  mem.store (nodeOff (l - 1) (i >>> 1)) (evHashNode left right)

/-- The inner loop `for (i = 0; i < cnt; i += 2)` of level `l`; `cnt` is `1u << l`, which is defined
for fewer than 32 places only. -/
def buildLevel (mem : NodeMem Block) (l : ℕ) : Option (NodeMem Block) :=
  if l < 32 then (List.range' 0 ((1 <<< l) / 2) 2).foldlM (buildNode evHashNode l) mem else none

/-- The outer loop `for (l = depth; l > 0; l--)`. -/
def buildLevels : ℕ → NodeMem Block → Option (NodeMem Block)
  | 0, mem => some mem
  | l + 1, mem => do
    let mem ← buildLevel evHashNode mem (l + 1)
    buildLevels l mem

/-- `ev_merkle_build`: return code, tree and record. `allocated` is the outcome of its `malloc`. -/
def evMerkleBuild (allocated : Bool) (mt : EvMerkleTree Block) (par : EvParams)
    (leafDigests : List Block) :
    Option (ℤ × EvMerkleTree Block × List (MerkleEvent Block)) :=
  let totalNodes := 2 * (1 <<< par.depth.toNat) - 1
  if allocated then do
    let mem : NodeMem Block := { cells := Array.replicate totalNodes none, events := [] }
    let mem ← copyLeaves par.depth.toNat leafDigests mem
    let mem ← buildLevels evHashNode par.depth.toNat mem
    return (0, { par := par, levels := some mem.cells, mode := 1 }, mem.events)
  else some (-1, { mt with levels := none }, [])

/-- The loop of `ev_merkle_path`: the blocks written to `out_path[0 .. l - 1]`. -/
def pathLoop (cells : Array (Option Block)) :
    (l idx : ℕ) → Option (List Block × List (MerkleEvent Block))
  | 0, _ => some ([], [])
  | l + 1, idx => do
    let sib := idx ^^^ 1
    let block ← loadNode cells (nodeOff (l + 1) sib)
    let (blocks, events) ← pathLoop cells l (idx >>> 1)
    return (blocks ++ [block], .read (nodeOff (l + 1) sib) :: events)

/-- `ev_merkle_path`: return code, the blocks of `out_path` and the reads. -/
def evMerklePath (mt : EvMerkleTree Block) (p : UInt32) :
    Option (ℤ × List Block × List (MerkleEvent Block)) :=
  match mt.levels with
  | none => some (-1, [], [])
  | some cells => do
    let (blocks, events) ← pathLoop cells mt.par.depth.toNat p.toNat
    return (0, blocks, events)

/-- The path block at `path + l * 32`: the offset is computed in 32 bits. -/
def pathSlot (l : ℕ) : ℕ := (UInt32.ofNat l * 32).toNat / 32

/-- The loop of `ev_merkle_verify`: the final `cur` and the pairs hashed, deepest first. Reading a
path block past the end of `path` has no result. -/
def verifyLoop (path : List Block) :
    (l idx : ℕ) → Block → Option (Block × List (Block × Block))
  | 0, _, cur => some (cur, [])
  | l + 1, idx, cur => do
    let sib ← path[pathSlot l]?
    let pair := if idx &&& 1 = 1 then (sib, cur) else (cur, sib)
    let (root, pairs) ← verifyLoop path l (idx >>> 1) (evHashNode pair.1 pair.2)
    return (root, pair :: pairs)

/-- `ev_merkle_verify`: return code and the pairs hashed. -/
def evMerkleVerify [DecidableEq Block] (root : Block) (par : EvParams) (p : UInt32)
    (leafDigest : Block) (path : List Block) : Option (ℤ × List (Block × Block)) := do
  let (cur, pairs) ← verifyLoop evHashNode path par.depth.toNat p.toNat leafDigest
  return (if cur = root then 1 else 0, pairs)

end Merkle

end EvMlDsa
