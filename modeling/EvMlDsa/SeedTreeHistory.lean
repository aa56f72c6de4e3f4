import EvMlDsa.SeedTreeCover

/-!
# The derivations of a lifetime

The seed tree code once more, with a record of every call of `ev_derive_child`: `evTreeInitLogged`
and `evTreeAdvanceLogged` make the same changes to the state (`evTreeInitLogged_fst`,
`evTreeAdvanceLogged_fst`) and append their calls in order. `operationCalls_eq` gives the calls of
every operation of a run in closed form: the operation that makes period `p` current derives both
children of exactly the nodes whose leftmost leaf is `p`.

To say which node a seed belongs to, a run is repeated over seeds that carry their node
(`TrackedSeed`): the child derivation moves the node along with the seed, and nothing else in the
code looks at it. `evTree_expands_once` counts the calls of that run by node and direction.
-/

set_option autoImplicit false
set_option relaxedAutoImplicit false

namespace EvMlDsa

open Library.FixedArray Library.PerfectTree

/-! ### The code with a record of its derivations -/

/-- One call of `ev_derive_child`: the seed and the label it is given. -/
structure DeriveCall (Seed : Type*) where
  seed : Seed
  dom : UInt8
deriving DecidableEq

section Logged

variable {Seed : Type*} [Zero Seed] (evDeriveChild : Seed → UInt8 → Seed)

/-- `ev_derive_child` with a record of its calls. -/
def deriveChildLogged (seed : Seed) (dom : UInt8) : StateM (List (DeriveCall Seed)) Seed :=
  fun calls ↦ (evDeriveChild seed dom, calls ++ [⟨seed, dom⟩])

/-- `deriveChildren` with a record of its calls. -/
def deriveChildrenLogged (st : EvTreeState Seed) (lvl : ℕ) :
    StateM (List (DeriveCall Seed)) (EvTreeState Seed) := do
  let left ← deriveChildLogged evDeriveChild (st.path.getD lvl 0) evDomLeft
  let right ← deriveChildLogged evDeriveChild (st.path.getD lvl 0) evDomRight
  return { st with
    path := (st.path.setIfInBounds (lvl + 1) left).setIfInBounds lvl 0
    future := st.future.setIfInBounds lvl right
    futureValid := st.futureValid.setIfInBounds lvl 1 }

/-- `deriveDown` with a record of its calls. -/
def deriveDownLogged (st : EvTreeState Seed) (first depth : ℕ) :
    StateM (List (DeriveCall Seed)) (EvTreeState Seed) :=
  (List.range' first (depth - first)).foldlM (deriveChildrenLogged evDeriveChild) st

/-- `ev_tree_init` with a record of its calls. -/
def evTreeInitLogged (par : EvParams) (rootSeed : Seed) :
    StateM (List (DeriveCall Seed)) (EvTreeState Seed) :=
  let st : EvTreeState Seed :=
    { par := par
      current := 0
      path := (Vector.replicate _ 0).setIfInBounds 0 rootSeed
      future := Vector.replicate _ 0
      futureValid := Vector.replicate _ 0 }
  deriveDownLogged evDeriveChild st 0 par.depth.toNat

/-- `ev_tree_advance` with a record of its calls. -/
def evTreeAdvanceLogged (st : EvTreeState Seed) (calls : List (DeriveCall Seed)) :
    (ℤ × EvTreeState Seed) × List (DeriveCall Seed) :=
  let p := st.current
  let depth := st.par.depth
  if st.par.T ≤ p + 1 then ((-1, st), calls)
  else
    let diff := diffLevel p depth
    let parent := (diff - 1).toNat
    if st.futureValid.getD parent 0 = 0 then ((-2, st), calls)
    else
      let path := st.path.setIfInBounds diff.toNat (st.future.getD parent 0)
      let st' : EvTreeState Seed :=
        { st with
          path := fill 0 path diff.toNat
          future := st.future.setIfInBounds parent 0
          futureValid := st.futureValid.setIfInBounds parent 0 }
      let descended := deriveDownLogged evDeriveChild st' diff.toNat depth.toNat calls
      ((0, { descended.1 with current := p + 1 }), descended.2)

/-- The calls of operation `j` of a run: `ev_tree_init` is operation 0, and operation `j + 1` is the
call of `ev_tree_advance` that follows `j` others. -/
def operationCalls (par : EvParams) (rootSeed : Seed) : ℕ → List (DeriveCall Seed)
  | 0 => (evTreeInitLogged evDeriveChild par rootSeed []).2
  | j + 1 =>
    (evTreeAdvanceLogged evDeriveChild
      (advanceTimes evDeriveChild j (evTreeInit evDeriveChild par rootSeed)).2 []).2

/-- The calls of `ev_tree_init` and `k` calls of `ev_tree_advance`, in order. -/
def runCalls (par : EvParams) (rootSeed : Seed) (k : ℕ) : List (DeriveCall Seed) :=
  (List.range (k + 1)).flatMap (operationCalls evDeriveChild par rootSeed)

/-! ### The record changes nothing -/

theorem deriveDownLogged_fst (st : EvTreeState Seed) (first depth : ℕ)
    (calls : List (DeriveCall Seed)) :
    (deriveDownLogged evDeriveChild st first depth calls).1 =
      deriveDown evDeriveChild st first depth := by
  unfold deriveDownLogged deriveDown
  induction List.range' first (depth - first) generalizing st calls with
  | nil => rfl
  | cons lvl levels ih =>
    rw [List.foldlM_cons, List.foldl_cons]
    exact ih _ _

theorem evTreeInitLogged_fst (par : EvParams) (rootSeed : Seed) (calls : List (DeriveCall Seed)) :
    (evTreeInitLogged evDeriveChild par rootSeed calls).1 =
      evTreeInit evDeriveChild par rootSeed :=
  deriveDownLogged_fst evDeriveChild _ _ _ calls

theorem evTreeAdvanceLogged_fst (st : EvTreeState Seed) (calls : List (DeriveCall Seed)) :
    (evTreeAdvanceLogged evDeriveChild st calls).1 = evTreeAdvance evDeriveChild st := by
  unfold evTreeAdvanceLogged evTreeAdvance
  dsimp only
  split_ifs with hlast hguard
  · rfl
  · rfl
  · rw [← deriveDownLogged_fst evDeriveChild _ _ _ calls]

/-! ### The calls of an operation -/

/-- The two calls that expand a node, left child first. -/
def expansion (rootSeed : Seed) (node : ℕ × ℕ) : List (DeriveCall Seed) :=
  [⟨nodeSeed evDeriveChild rootSeed node.1 node.2, evDomLeft⟩,
    ⟨nodeSeed evDeriveChild rootSeed node.1 node.2, evDomRight⟩]

/-- The descending loop expands the path nodes it passes, top down. -/
theorem deriveDownLogged_snd (rootSeed : Seed) (st : EvTreeState Seed) {first depth : ℕ}
    (index : ℕ) (hfirst : first ≤ depth) (hdepth : depth ≤ evMaxDepth)
    (hseed : st.path.getD first 0 = nodeSeed evDeriveChild rootSeed first index)
    (calls : List (DeriveCall Seed)) :
    (deriveDownLogged evDeriveChild st first depth calls).2 =
      calls ++ ((List.range' first (depth - first)).map fun level ↦
        (level, index * 2 ^ (level - first))).flatMap (expansion evDeriveChild rootSeed) := by
  obtain ⟨extra, rfl⟩ := Nat.exists_eq_add_of_le hfirst
  rw [Nat.add_sub_cancel_left]
  clear hfirst
  induction extra with
  | zero => simp [deriveDownLogged]; rfl
  | succ extra ih =>
    have hstep : deriveDownLogged evDeriveChild st first (first + (extra + 1)) calls =
        deriveChildrenLogged evDeriveChild (deriveDown evDeriveChild st first (first + extra))
          (first + extra) (deriveDownLogged evDeriveChild st first (first + extra) calls).2 := by
      rw [← deriveDownLogged_fst evDeriveChild st first (first + extra) calls]
      unfold deriveDownLogged
      rw [Nat.add_sub_cancel_left, Nat.add_sub_cancel_left, List.range'_1_concat,
        List.foldlM_append]
      rfl
    have hparent : (deriveDown evDeriveChild st first (first + extra)).path.getD (first + extra) 0 =
        nodeSeed evDeriveChild rootSeed (first + extra) (index * 2 ^ extra) := by
      rw [deriveDown_eq evDeriveChild rootSeed st index (Nat.le_add_right _ _) (by omega) hseed,
        getD_eq_getElem _ 0 (by omega)]
      simp
    have hcalls : (deriveChildrenLogged evDeriveChild
        (deriveDown evDeriveChild st first (first + extra)) (first + extra)
          (deriveDownLogged evDeriveChild st first (first + extra) calls).2).2 =
        (deriveDownLogged evDeriveChild st first (first + extra) calls).2 ++
          expansion evDeriveChild rootSeed (first + extra, index * 2 ^ extra) := by
      unfold expansion
      rw [← hparent]
      exact List.append_assoc _ _ _
    rw [hstep, hcalls, ih (by omega), List.range'_1_concat, List.map_append, List.flatMap_append,
      List.append_assoc]
    simp

/-- The operation that makes period `j` current expands the nodes whose leftmost leaf is `j`. -/
theorem operationCalls_eq {depth j : ℕ} (hdepth : depth ≤ evMaxDepth) (hj : j < 2 ^ depth)
    (rootSeed : Seed) :
    operationCalls evDeriveChild (.ofDepth depth) rootSeed j =
      (nodesStartingAt depth j).flatMap (expansion evDeriveChild rootSeed) := by
  cases j with
  | zero =>
    rw [operationCalls, evTreeInitLogged, toNat_ofDepth_depth hdepth,
      deriveDownLogged_snd evDeriveChild rootSeed _ 0 (Nat.zero_le depth) hdepth
        (by rw [getD_eq_getElem _ 0 (by omega)]; simp),
      nodesStartingAt_of_carry (le_refl depth) (dvd_zero _) (Or.inl rfl)]
    simp
  | succ p =>
    obtain ⟨k, hk, hdvd, hndvd, hmore, hdiff, hguard, hfuture⟩ :=
      exists_branch evDeriveChild hdepth rootSeed hj
    have hdiffNat := toNat_ofNat_of_le_evMaxDepth (show depth - k ≤ evMaxDepth by omega)
    rw [operationCalls, advanceTimes_eq_stateAt evDeriveChild hdepth (by omega)]
    unfold evTreeAdvanceLogged
    simp only [stateAt_par, stateAt_current, if_neg hmore, EvParams.ofDepth_depth, hdiff,
      toNat_branchParent hdepth hk, hdiffNat, if_neg hguard, hfuture,
      toNat_ofNat_of_le_evMaxDepth hdepth]
    have hlow : depth - (depth - k) = k := by omega
    rw [deriveDownLogged_snd evDeriveChild rootSeed _ ((p + 1) / 2 ^ k) (Nat.sub_le depth k) hdepth
      (getD_fill_setIfInBounds _ _ _ _ (by omega)),
      nodesStartingAt_of_carry hk.le hdvd (Or.inr hndvd), hlow, List.nil_append]

/-- The calls of a run. -/
theorem runCalls_eq {depth k : ℕ} (hdepth : depth ≤ evMaxDepth) (hk : k < 2 ^ depth)
    (rootSeed : Seed) :
    runCalls evDeriveChild (.ofDepth depth) rootSeed k =
      ((List.range (k + 1)).flatMap (nodesStartingAt depth)).flatMap
        (expansion evDeriveChild rootSeed) := by
  rw [runCalls, List.flatMap_assoc]
  refine List.flatMap_congr fun j hj ↦ ?_
  exact operationCalls_eq evDeriveChild hdepth (by rw [List.mem_range] at hj; omega) rootSeed

end Logged

/-! ### Seeds that carry their node -/

/-- A seed with the node it belongs to, as level and index; `none` for bytes that are no seed of the
tree. -/
@[ext] structure TrackedSeed (Seed : Type*) where
  seed : Seed
  node : Option (ℕ × ℕ)
deriving DecidableEq

instance {Seed : Type*} [Zero Seed] : Zero (TrackedSeed Seed) := ⟨⟨0, none⟩⟩

@[simp] theorem TrackedSeed.zero_node {Seed : Type*} [Zero Seed] :
    (0 : TrackedSeed Seed).node = none := rfl

/-- The root seed at the root of the tree. -/
def TrackedSeed.root {Seed : Type*} (rootSeed : Seed) : TrackedSeed Seed where
  seed := rootSeed
  node := some (0, 0)

section Tracked

variable {Seed : Type*} (evDeriveChild : Seed → UInt8 → Seed)

/-- The child derivation on tracked seeds: the label says which child the result is. -/
def trackedChild (parent : TrackedSeed Seed) (dom : UInt8) : TrackedSeed Seed where
  seed := evDeriveChild parent.seed dom
  node := parent.node.map fun node ↦
    (node.1 + 1, if dom = evDomRight then 2 * node.2 + 1 else 2 * node.2)

/-- A descent in the tracked tree ends at the node it leads to. -/
theorem nodeSeed_trackedChild (rootSeed : Seed) {level index : ℕ} (hindex : index < 2 ^ level) :
    nodeSeed (trackedChild evDeriveChild) (.root rootSeed) level index =
      ⟨nodeSeed evDeriveChild rootSeed level index, some (level, index)⟩ := by
  induction level generalizing index with
  | zero =>
    obtain rfl : index = 0 := by omega
    rfl
  | succ level ih =>
    unfold nodeSeed at ih ⊢
    rw [nodeLabel_succ, nodeLabel_succ, ih (by omega)]
    refine TrackedSeed.ext rfl (congrArg some (Prod.ext rfl ?_))
    by_cases hbit : index.testBit 0 = true
    · rw [hbit]
      rw [Nat.testBit_zero, decide_eq_true_eq] at hbit
      exact (by omega : 2 * (index / 2) + 1 = index)
    · rw [Bool.not_eq_true] at hbit
      rw [hbit]
      rw [Nat.testBit_zero, decide_eq_false_iff_not] at hbit
      exact (by omega : 2 * (index / 2) = index)

/-- The two calls that expand a node in the tracked tree. -/
theorem expansion_trackedChild (rootSeed : Seed) {node : ℕ × ℕ} (hindex : node.2 < 2 ^ node.1) :
    expansion (trackedChild evDeriveChild) (.root rootSeed) node =
      [⟨⟨nodeSeed evDeriveChild rootSeed node.1 node.2, some node⟩, evDomLeft⟩,
        ⟨⟨nodeSeed evDeriveChild rootSeed node.1 node.2, some node⟩, evDomRight⟩] := by
  rw [expansion, nodeSeed_trackedChild evDeriveChild rootSeed hindex]

variable [Zero Seed]

/-- A lifetime up to period `k`, seen by the calls of `ev_derive_child` over tracked seeds. -/
structure ExpandsOnce (depth : ℕ) (rootSeed : Seed) (k : ℕ) : Prop where
  /-- without the nodes, the calls are those of the run on plain seeds -/
  untracked :
    (runCalls (trackedChild evDeriveChild) (.ofDepth depth) (.root rootSeed) k).map
        (fun call ↦ ⟨call.seed.seed, call.dom⟩) =
      runCalls evDeriveChild (.ofDepth depth) rootSeed k
  /-- no node and direction comes up twice -/
  nodup :
    ((runCalls (trackedChild evDeriveChild) (.ofDepth depth) (.root rootSeed) k).map
      fun call ↦ (call.seed.node, call.dom)).Nodup
  /-- both children of a node are derived by the operation that makes its leftmost leaf current -/
  expands : ∀ level index, level < depth → index * 2 ^ (depth - level) ≤ k →
    ∀ dom ∈ [evDomLeft, evDomRight],
      ∃ call ∈ operationCalls (trackedChild evDeriveChild) (.ofDepth depth) (.root rootSeed)
        (index * 2 ^ (depth - level)), (call.seed.node, call.dom) = (some (level, index), dom)
  /-- every call of operation `j` is on a node whose leftmost leaf is `j`, the current leaf when it
  returns; the path slot of the node is zero then, and no other slot holds its seed -/
  erased : ∀ j ≤ k,
    let st := (advanceTimes (trackedChild evDeriveChild) j
      (evTreeInit (trackedChild evDeriveChild) (.ofDepth depth) (.root rootSeed))).2
    st.current = UInt32.ofNat j ∧
    ∀ call ∈ operationCalls (trackedChild evDeriveChild) (.ofDepth depth) (.root rootSeed) j,
      ∃ level index, call.seed.node = some (level, index) ∧ level < depth ∧
        index * 2 ^ (depth - level) = j ∧ st.path.getD level 0 = 0 ∧
        ∀ slot, (st.slot slot).node ≠ some (level, index)
  /-- after the last period every inner node has been expanded, in two calls each -/
  total : k = 2 ^ depth - 1 →
    (runCalls (trackedChild evDeriveChild) (.ofDepth depth) (.root rootSeed) k).length =
        2 * (2 ^ depth - 1) ∧
      ∀ level index, level < depth → index < 2 ^ level → ∀ dom ∈ [evDomLeft, evDomRight],
        ∃ call ∈ runCalls (trackedChild evDeriveChild) (.ofDepth depth) (.root rootSeed) k,
          (call.seed.node, call.dom) = (some (level, index), dom)
  /-- no call of `ev_tree_advance` derives more than this -/
  advance_le : ∀ j, 0 < j → j ≤ k →
    (operationCalls (trackedChild evDeriveChild) (.ofDepth depth) (.root rootSeed) j).length ≤
      2 * (depth - 1)

/-- The calls of one operation over tracked seeds. -/
theorem operationCalls_trackedChild {depth j : ℕ} (hdepth : depth ≤ evMaxDepth)
    (hj : j < 2 ^ depth) (rootSeed : Seed) :
    operationCalls (trackedChild evDeriveChild) (.ofDepth depth) (.root rootSeed) j =
      (nodesStartingAt depth j).flatMap fun node ↦
        [⟨⟨nodeSeed evDeriveChild rootSeed node.1 node.2, some node⟩, evDomLeft⟩,
          ⟨⟨nodeSeed evDeriveChild rootSeed node.1 node.2, some node⟩, evDomRight⟩] := by
  rw [operationCalls_eq (trackedChild evDeriveChild) hdepth hj]
  refine List.flatMap_congr fun node hnode ↦ ?_
  obtain ⟨hlevel, hstart⟩ := mem_nodesStartingAt.mp hnode
  exact expansion_trackedChild evDeriveChild rootSeed
    ((firstLeaf_lt_iff hlevel.le).mp (hstart.trans_lt hj))

/-- The calls of a run over tracked seeds. -/
theorem runCalls_trackedChild {depth k : ℕ} (hdepth : depth ≤ evMaxDepth) (hk : k < 2 ^ depth)
    (rootSeed : Seed) :
    runCalls (trackedChild evDeriveChild) (.ofDepth depth) (.root rootSeed) k =
      ((List.range (k + 1)).flatMap (nodesStartingAt depth)).flatMap fun node ↦
        [⟨⟨nodeSeed evDeriveChild rootSeed node.1 node.2, some node⟩, evDomLeft⟩,
          ⟨⟨nodeSeed evDeriveChild rootSeed node.1 node.2, some node⟩, evDomRight⟩] := by
  rw [runCalls, List.flatMap_assoc]
  refine List.flatMap_congr fun j hj ↦ ?_
  exact operationCalls_trackedChild evDeriveChild hdepth (by rw [List.mem_range] at hj; omega)
    rootSeed

/-- Two calls for every node. -/
theorem length_expansions {Node Call : Type*} (left right : Node → Call) (nodes : List Node) :
    (nodes.flatMap fun node ↦ [left node, right node]).length = 2 * nodes.length := by
  rw [List.length_flatMap]
  simp [Nat.mul_comm]

/-- The operation that makes a period current expands the nodes that start there. -/
theorem exists_mem_operationCalls {depth level index : ℕ} (hdepth : depth ≤ evMaxDepth)
    (hlevel : level < depth) (hindex : index < 2 ^ level) (rootSeed : Seed) {dom : UInt8}
    (hdom : dom ∈ [evDomLeft, evDomRight]) :
    ∃ call ∈ operationCalls (trackedChild evDeriveChild) (.ofDepth depth) (.root rootSeed)
        (index * 2 ^ (depth - level)), (call.seed.node, call.dom) = (some (level, index), dom) := by
  rw [operationCalls_trackedChild evDeriveChild hdepth ((firstLeaf_lt_iff hlevel.le).mpr hindex)]
  have hnode : (level, index) ∈ nodesStartingAt depth (index * 2 ^ (depth - level)) :=
    mem_nodesStartingAt.mpr ⟨hlevel, rfl⟩
  refine ⟨⟨⟨nodeSeed evDeriveChild rootSeed level index, some (level, index)⟩, dom⟩,
    List.mem_flatMap.mpr ⟨_, hnode, ?_⟩, rfl⟩
  rcases List.mem_pair.mp hdom with rfl | rfl
  · exact List.mem_cons_self
  · exact List.mem_cons_of_mem _ List.mem_cons_self

/-- No slot holds the seed of a node that starts at the current leaf. -/
theorem slot_node_ne {depth j level index : ℕ} (hj : j < 2 ^ depth) (hlevel : level < depth)
    (hstart : index * 2 ^ (depth - level) = j) (rootSeed : Seed) (slot : Slot) :
    ((stateAt (trackedChild evDeriveChild) depth (.root rootSeed) j).slot slot).node ≠
      some (level, index) := by
  rcases slot_stateAt_cases (trackedChild evDeriveChild) depth (.root rootSeed) j slot with
    hempty | ⟨level', index', hnode, hslot⟩
  · rw [hempty]
    exact Option.some_ne_none _ ∘ Eq.symm
  · rw [hslot, nodeSeed_trackedChild evDeriveChild rootSeed (hnode.index_lt hj)]
    intro h
    obtain ⟨rfl, rfl⟩ := Prod.ext_iff.mp (Option.some.inj h)
    have hcover : Covers depth level' index' j :=
      ⟨hlevel.le, by rw [← hstart, Nat.mul_div_cancel _ (by positivity)]⟩
    exact hlevel.ne (eq_leaf_of_frontier_covers_self hnode hcover)

/-- Every inner node of the seed tree is expanded once in a lifetime: by the operation that makes
its leftmost leaf current, after which nothing of its seed is left. -/
theorem evTree_expands_once {depth k : ℕ} (hdepth : depth ≤ evMaxDepth) (hk : k ≤ 2 ^ depth - 1)
    (rootSeed : Seed) : ExpandsOnce evDeriveChild depth rootSeed k := by
  have hpos : 0 < 2 ^ depth := by positivity
  have hlt : k < 2 ^ depth := by omega
  constructor
  · rw [runCalls_trackedChild evDeriveChild hdepth hlt, runCalls_eq evDeriveChild hdepth hlt,
      List.map_flatMap]
    rfl
  · rw [runCalls_trackedChild evDeriveChild hdepth hlt, List.map_flatMap, List.nodup_flatMap]
    constructor
    · intro node _
      simp [evDomLeft, evDomRight]
    · refine (nodup_flatMap_nodesStartingAt depth _).imp fun {node node'} hne call hcall hcall' ↦ ?_
      simp only [List.map_cons, List.map_nil, List.mem_pair] at hcall hcall'
      have hfst : call.1 = some node := by rcases hcall with rfl | rfl <;> rfl
      have hfst' : call.1 = some node' := by rcases hcall' with rfl | rfl <;> rfl
      exact hne (Option.some.inj (hfst.symm.trans hfst'))
  · intro level index hlevel hstart dom hdom
    exact exists_mem_operationCalls evDeriveChild hdepth hlevel
      ((firstLeaf_lt_iff hlevel.le).mp (by omega)) rootSeed hdom
  · intro j hj
    have hjlt : j < 2 ^ depth := by omega
    dsimp only
    rw [advanceTimes_eq_stateAt (trackedChild evDeriveChild) hdepth hjlt,
      operationCalls_trackedChild evDeriveChild hdepth hjlt]
    refine ⟨rfl, fun call hcall ↦ ?_⟩
    obtain ⟨⟨level, index⟩, hnode, hcall⟩ := List.mem_flatMap.mp hcall
    obtain ⟨hlevel, hstart⟩ := mem_nodesStartingAt.mp hnode
    refine ⟨level, index, ?_, hlevel, hstart, ?_, slot_node_ne evDeriveChild hjlt hlevel hstart
      rootSeed⟩
    · rcases List.mem_pair.mp hcall with rfl | rfl <;> rfl
    · rw [getD_eq_getElem _ 0 (by omega), getElem_path_stateAt, if_neg hlevel.ne]
  · rintro rfl
    constructor
    · have hnodes := length_flatMap_nodesStartingAt depth
      rw [runCalls_trackedChild evDeriveChild hdepth hlt, Nat.sub_add_cancel hpos,
        length_expansions, hnodes]
    · intro level index hlevel hindex dom hdom
      obtain ⟨call, hcall, hlabels⟩ :=
        exists_mem_operationCalls evDeriveChild hdepth hlevel hindex rootSeed hdom
      have hlast := (firstLeaf_lt_iff hlevel.le).mpr hindex
      exact ⟨call, List.mem_flatMap.mpr ⟨_, List.mem_range.mpr (by omega), hcall⟩, hlabels⟩
  · intro j hjpos hj
    have hnodes := length_nodesStartingAt_le hjpos (show j < 2 ^ depth by omega)
    rw [operationCalls_trackedChild evDeriveChild hdepth (by omega), length_expansions]
    exact Nat.mul_le_mul_left 2 hnodes

end Tracked

/-- The whole lifetime of 8 periods over a toy derivation: 14 calls. -/
theorem evTree_expands_once_witness :
    ExpandsOnce (fun (seed : ℕ) dom ↦ 10 * seed + dom.toNat) 3 7 (2 ^ 3 - 1) :=
  evTree_expands_once (fun (seed : ℕ) dom ↦ 10 * seed + dom.toNat) (by decide : 3 ≤ evMaxDepth)
    (le_refl _) 7

end EvMlDsa
