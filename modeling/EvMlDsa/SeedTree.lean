import EvMlDsa.Library.FixedArray
import EvMlDsa.Params

/-!
# The puncturable seed tree

`ev_seedtree.c` over an abstract type of seeds: `0` is the all-zero block of `memset`, and
`evDeriveChild` is the one-way child derivation of `ev_hash.h`. Every array keeps the size the
source gives it. The descending loop of `ev_tree_init` and `ev_tree_advance` is the same code and
is one definition here (`deriveChildren`, `deriveDown`).
-/

set_option autoImplicit false
set_option relaxedAutoImplicit false

namespace EvMlDsa

open Library.FixedArray

/-- `ev_tree_state`. -/
@[ext] structure EvTreeState (Seed : Type*) where
  par : EvParams
  current : UInt32
  path : Vector Seed (evMaxDepth + 1)
  future : Vector Seed evMaxDepth
  futureValid : Vector Int32 evMaxDepth
deriving DecidableEq

/-- `level_index`: the index, within its level, of the node on the path to `leaf`. -/
def levelIndex (leaf depth level : UInt32) : UInt32 :=
  leaf >>> (depth - level)

section SeedTree

variable {Seed : Type*} [Zero Seed] (evDeriveChild : Seed → UInt8 → Seed)

/-- One round of the descending loop: both children of the path node at `lvl` are derived, then
the node itself is erased. -/
def deriveChildren (st : EvTreeState Seed) (lvl : ℕ) : EvTreeState Seed :=
  let left := evDeriveChild (st.path.getD lvl 0) evDomLeft
  let right := evDeriveChild (st.path.getD lvl 0) evDomRight
  { st with
    path := (st.path.setIfInBounds (lvl + 1) left).setIfInBounds lvl 0
    future := st.future.setIfInBounds lvl right
    futureValid := st.futureValid.setIfInBounds lvl 1 }

/-- The loop `for (lvl = first; lvl < depth; lvl++)` of `deriveChildren`. -/
def deriveDown (st : EvTreeState Seed) (first depth : ℕ) : EvTreeState Seed :=
  (List.range' first (depth - first)).foldl (deriveChildren evDeriveChild) st

/-- `ev_tree_init`. -/
def evTreeInit (par : EvParams) (rootSeed : Seed) : EvTreeState Seed :=
  let st : EvTreeState Seed :=
    { par := par
      current := 0
      path := (Vector.replicate _ 0).setIfInBounds 0 rootSeed
      future := Vector.replicate _ 0
      futureValid := Vector.replicate _ 0 }
  deriveDown evDeriveChild st 0 par.depth.toNat

/-- `ev_tree_leaf`: the seed of the current period. -/
def evTreeLeaf (st : EvTreeState Seed) : Seed :=
  st.path.getD st.par.depth.toNat 0

/-- The scan for `diff_level`: the shallowest level at which the paths to `p` and `p + 1`
differ. -/
def diffLevel (p depth : UInt32) : UInt32 :=
  ((List.range' 1 depth.toNat).map UInt32.ofNat).find?
    (fun lvl ↦ levelIndex p depth lvl != levelIndex (p + 1) depth lvl) |>.getD depth

/-- `ev_tree_advance`: the return code and the state after the call. -/
def evTreeAdvance (st : EvTreeState Seed) : ℤ × EvTreeState Seed :=
  let p := st.current
  let depth := st.par.depth
  if st.par.T ≤ p + 1 then (-1, st)
  else
    let diff := diffLevel p depth
    let parent := (diff - 1).toNat
    -- state corruption guard
    if st.futureValid.getD parent 0 = 0 then (-2, st)
    else
      let path := st.path.setIfInBounds diff.toNat (st.future.getD parent 0)
      let st' : EvTreeState Seed :=
        { st with
          -- every path node above the branch point is erased
          path := fill 0 path diff.toNat
          future := st.future.setIfInBounds parent 0
          futureValid := st.futureValid.setIfInBounds parent 0 }
      (0, { deriveDown evDeriveChild st' diff.toNat depth.toNat with current := p + 1 })

/-- `n` calls of `ev_tree_advance` in a row: their return codes and the final state. -/
def advanceTimes : ℕ → EvTreeState Seed → List ℤ × EvTreeState Seed
  | 0, st => ([], st)
  | n + 1, st =>
    let (codes, st') := advanceTimes n st
    let (code, st'') := evTreeAdvance evDeriveChild st'
    (codes ++ [code], st'')

end SeedTree

end EvMlDsa
