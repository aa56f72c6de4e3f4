import EvMlDsa.Library.HashTree
import EvMlDsa.Library.PerfectTree
import EvMlDsa.Merkle

/-!
# The builder of the commitment tree

`Built` is the invariant of the two loops of `ev_merkle_build`: the levels below `l` and the first
nodes of level `l` are in place. The copy of the leaves (`copyLeaves_built`), one round of the inner
loop (`buildNode_built`), the inner loop (`buildLevel_built`) and the outer one
(`buildLevels_built`) each advance it, and `evMerkleBuild_spec` is what the caller gets: the tree of
its leaves (`IsTreeOf`), with every access inside the allocated region. A build that returns 0 has
built this tree (`isTreeOf_of_evMerkleBuild`).
-/

set_option autoImplicit false
set_option relaxedAutoImplicit false

namespace EvMlDsa

open Library.HashTree Library.PerfectTree

variable {Block : Type*}

/-- The event touches only bytes below `size`. -/
def MerkleEvent.Inside (size : ℕ) : MerkleEvent Block → Prop
  | .read off => off + 32 ≤ size
  | .write off => off + 32 ≤ size
  | .hash _ _ => True

theorem nodeOff_eq (level idx : ℕ) : nodeOff level idx = levelOrder level idx * 32 := by
  rw [nodeOff, levelOrder, Nat.one_shiftLeft]

/-- The nodes of a level follow one another. -/
theorem nodeOff_add_mul (level idx : ℕ) : nodeOff level 0 + idx * 32 = nodeOff level idx := by
  rw [nodeOff_eq, nodeOff_eq, levelOrder, levelOrder]
  ring

theorem nodeOff_inside {depth level idx : ℕ} (hlevel : level ≤ depth) (hidx : idx < 2 ^ level) :
    nodeOff level idx + 32 ≤ (2 ^ (depth + 1) - 1) * 32 := by
  have hlt := levelOrder_lt hlevel hidx
  rw [nodeOff_eq]
  omega

theorem loadNode_nodeOff (cells : Array (Option Block)) (level idx : ℕ) :
    loadNode cells (nodeOff level idx) = (cells[levelOrder level idx]?).join := by
  rw [loadNode, nodeOff_eq, if_pos (Nat.mul_mod_left _ _), Nat.mul_div_cancel _ (by decide)]

/-- The nodes hashed into a node of level `l` are on the next level. -/
theorem double_add_one_lt {l idx : ℕ} (hidx : idx < 2 ^ l) : 2 * idx + 1 < 2 ^ (l + 1) := by
  rw [pow_succ]
  omega

theorem double_shiftRight_one (idx : ℕ) : (2 * idx) >>> 1 = idx := by
  rw [Nat.shiftRight_one]
  omega

/-- The inner loop makes one round for every two nodes. -/
theorem one_shiftLeft_succ_div_two (l : ℕ) : (1 <<< (l + 1)) / 2 = 2 ^ l := by
  rw [Nat.one_shiftLeft, pow_succ, Nat.mul_div_cancel _ (by decide)]

section Build

variable (evHashNode : Block → Block → Block) (leaves : ℕ → Block)

/-- The state of the builder when the levels below `l` and the first `count` nodes of level `l` are
in place: every node in place holds the hash of its subtree, its two children were hashed, and no
access left the region. -/
structure Built (depth l count : ℕ) (mem : NodeMem Block) : Prop where
  size : mem.cells.size = 2 ^ (depth + 1) - 1
  done : ∀ level idx, level ≤ depth → idx < 2 ^ level → (l < level ∨ level = l ∧ idx < count) →
    mem.cells[levelOrder level idx]? = some (some (treeHash evHashNode leaves (depth - level) idx))
  hashed : ∀ level idx, level < depth → idx < 2 ^ level → (l < level ∨ level = l ∧ idx < count) →
    .hash (treeHash evHashNode leaves (depth - (level + 1)) (2 * idx))
      (treeHash evHashNode leaves (depth - (level + 1)) (2 * idx + 1)) ∈ mem.events
  inside : ∀ event ∈ mem.events, event.Inside ((2 ^ (depth + 1) - 1) * 32)

variable {evHashNode leaves}

/-- A finished level is the start of the one above it. -/
theorem Built.up {depth l : ℕ} {mem : NodeMem Block}
    (h : Built evHashNode leaves depth (l + 1) (2 ^ (l + 1)) mem) :
    Built evHashNode leaves depth l 0 mem where
  size := h.size
  done level idx hlevel hidx hplace := by
    refine h.done level idx hlevel hidx ?_
    rcases hplace with hlt | ⟨_, hzero⟩
    · rcases Nat.lt_or_ge (l + 1) level with hlt' | hge
      · exact Or.inl hlt'
      · obtain rfl : level = l + 1 := by omega
        exact Or.inr ⟨rfl, hidx⟩
    · omega
  hashed level idx hlevel hidx hplace := by
    refine h.hashed level idx hlevel hidx ?_
    rcases hplace with hlt | ⟨_, hzero⟩
    · rcases Nat.lt_or_ge (l + 1) level with hlt' | hge
      · exact Or.inl hlt'
      · obtain rfl : level = l + 1 := by omega
        exact Or.inr ⟨rfl, hidx⟩
    · omega
  inside := h.inside

/-- Writing a node of level `l` in its place. -/
theorem store_nodeOff {depth l idx : ℕ} (mem : NodeMem Block)
    (hsize : mem.cells.size = 2 ^ (depth + 1) - 1) (hl : l ≤ depth) (hidx : idx < 2 ^ l)
    (block : Block) :
    mem.store (nodeOff l idx) block =
      some { cells := mem.cells.setIfInBounds (levelOrder l idx) (some block)
             events := mem.events ++ [.write (nodeOff l idx)] } := by
  have hlt := levelOrder_lt hl hidx
  rw [NodeMem.store, if_pos]
  · rw [nodeOff_eq, Nat.mul_div_cancel _ (by decide)]
  · rw [nodeOff_eq, Nat.mul_div_cancel _ (by decide), hsize]
    exact ⟨Nat.mul_mod_left _ _, hlt⟩

/-- Putting one more node of level `l` in place. -/
theorem Built.store {depth l idx : ℕ} {mem : NodeMem Block}
    (h : Built evHashNode leaves depth l idx mem) (hl : l ≤ depth) (hidx : idx < 2 ^ l)
    (extra : List (MerkleEvent Block))
    (hinside : ∀ event ∈ extra, event.Inside ((2 ^ (depth + 1) - 1) * 32))
    (hhashed : l < depth → .hash (treeHash evHashNode leaves (depth - (l + 1)) (2 * idx))
      (treeHash evHashNode leaves (depth - (l + 1)) (2 * idx + 1)) ∈ extra) :
    Built evHashNode leaves depth l (idx + 1)
      { cells := mem.cells.setIfInBounds (levelOrder l idx)
          (some (treeHash evHashNode leaves (depth - l) idx))
        events := mem.events ++ extra } where
  size := by simpa using h.size
  done level idx' hlevel hidx' hplace := by
    by_cases hsame : levelOrder level idx' = levelOrder l idx
    · obtain ⟨rfl, rfl⟩ := levelOrder_injective hidx' hidx hsame
      have hlt : levelOrder level idx' < mem.cells.size := by
        rw [h.size]
        exact levelOrder_lt hl hidx
      simp [hlt]
    · rw [Array.getElem?_setIfInBounds_ne (Ne.symm hsame)]
      refine h.done level idx' hlevel hidx' ?_
      rcases hplace with hlt | ⟨rfl, hle⟩
      · exact Or.inl hlt
      · refine Or.inr ⟨rfl, ?_⟩
        have hne : idx' ≠ idx := fun heq ↦ hsame (by rw [heq])
        omega
  hashed level idx' hlevel hidx' hplace := by
    rw [List.mem_append]
    by_cases hnew : level = l ∧ idx' = idx
    · obtain ⟨rfl, rfl⟩ := hnew
      exact Or.inr (hhashed hlevel)
    · exact Or.inl (h.hashed level idx' hlevel hidx' (by omega))
  inside event hmem := by
    rcases List.mem_append.mp hmem with hold | hnew
    · exact h.inside event hold
    · exact hinside event hnew

/-! ### The loops -/

/-- The copy of the leaf digests fills the deepest level. -/
theorem copyLeaves_built {depth : ℕ} (leafDigests : List Block)
    (hlength : leafDigests.length = 2 ^ depth)
    (hleaves : ∀ i (hi : i < leafDigests.length), leafDigests[i] = leaves i) {mem : NodeMem Block}
    (hmem : Built evHashNode leaves depth depth 0 mem) :
    ∃ mem', copyLeaves depth leafDigests mem = some mem' ∧
      Built evHashNode leaves depth depth (2 ^ depth) mem' := by
  unfold copyLeaves
  rw [Nat.one_shiftLeft]
  suffices hcount : ∀ count ≤ 2 ^ depth, ∃ mem',
      (List.range count).foldlM (fun mem i ↦ do
        let digest ← leafDigests[i]?
        mem.store (nodeOff depth 0 + i * 32) digest) mem = some mem' ∧
      Built evHashNode leaves depth depth count mem' from hcount _ le_rfl
  intro count hcount
  induction count with
  | zero => exact ⟨mem, rfl, hmem⟩
  | succ count ih =>
    obtain ⟨mem', hfold, hbuilt⟩ := ih (by omega)
    have hdigest : leafDigests[count]? = some (leaves count) := by
      rw [List.getElem?_eq_getElem (by omega), hleaves]
    have hstep := hbuilt.store le_rfl hcount [.write (nodeOff depth count)]
      (fun event hmem ↦ by
        rw [List.mem_singleton.mp hmem]
        exact nodeOff_inside le_rfl hcount)
      (fun hlt ↦ absurd hlt (lt_irrefl _))
    rw [Nat.sub_self, treeHash] at hstep
    refine ⟨_, ?_, hstep⟩
    rw [List.range_succ, List.foldlM_append, hfold]
    simp only [Option.bind_eq_bind, Option.bind_some, List.foldlM_cons, List.foldlM_nil, hdigest,
      nodeOff_add_mul, store_nodeOff mem' hbuilt.size le_rfl hcount]
    rfl

/-- One round of the inner loop puts the parent of two finished nodes in place. -/
theorem buildNode_built {depth l idx : ℕ} (hl : l < depth) (hidx : idx < 2 ^ l)
    {mem : NodeMem Block} (hmem : Built evHashNode leaves depth l idx mem) :
    ∃ mem', buildNode evHashNode (l + 1) mem (2 * idx) = some mem' ∧
      Built evHashNode leaves depth l (idx + 1) mem' := by
  have hchild := double_add_one_lt hidx
  have hleft := hmem.done (l + 1) (2 * idx) hl (by omega) (Or.inl (by omega))
  have hright := hmem.done (l + 1) (2 * idx + 1) hl hchild (Or.inl (by omega))
  have hheight : depth - l = depth - (l + 1) + 1 := by omega
  have hstep := hmem.store hl.le hidx
    [.read (nodeOff (l + 1) (2 * idx)), .read (nodeOff (l + 1) (2 * idx + 1)),
      .hash (treeHash evHashNode leaves (depth - (l + 1)) (2 * idx))
        (treeHash evHashNode leaves (depth - (l + 1)) (2 * idx + 1)),
      .write (nodeOff l idx)]
    (by
      simp only [List.forall_mem_cons, MerkleEvent.Inside, true_and]
      exact ⟨nodeOff_inside hl (by omega), nodeOff_inside hl hchild,
        nodeOff_inside hl.le hidx, fun _ h ↦ absurd h List.not_mem_nil⟩)
    (fun _ ↦ by simp)
  rw [hheight, treeHash_succ] at hstep
  refine ⟨_, ?_, hstep⟩
  simp only [buildNode, NodeMem.load, loadNode_nodeOff, hleft, hright, Option.join_some,
    Option.bind_eq_bind, Option.bind_some, Option.pure_def, Nat.add_sub_cancel,
    double_shiftRight_one]
  rw [@store_nodeOff _ depth _ _ _ (by exact hmem.size) hl.le hidx]
  simp

/-- The inner loop finishes the level above. -/
theorem buildLevel_built {depth l : ℕ} (hdepth : depth < 32) (hl : l < depth) {mem : NodeMem Block}
    (hmem : Built evHashNode leaves depth l 0 mem) :
    ∃ mem', buildLevel evHashNode mem (l + 1) = some mem' ∧
      Built evHashNode leaves depth l (2 ^ l) mem' := by
  unfold buildLevel
  rw [one_shiftLeft_succ_div_two, if_pos (by omega)]
  suffices hcount : ∀ count ≤ 2 ^ l, ∃ mem',
      (List.range' 0 count 2).foldlM (buildNode evHashNode (l + 1)) mem = some mem' ∧
      Built evHashNode leaves depth l count mem' from hcount _ le_rfl
  intro count hcount
  induction count with
  | zero => exact ⟨mem, rfl, hmem⟩
  | succ count ih =>
    obtain ⟨mem', hfold, hbuilt⟩ := ih (by omega)
    obtain ⟨mem'', hnode, hbuilt'⟩ := buildNode_built hl hcount hbuilt
    refine ⟨mem'', ?_, hbuilt'⟩
    rw [List.range'_concat, List.foldlM_append, hfold, Nat.zero_add]
    simp only [Option.bind_eq_bind, Option.bind_some, List.foldlM_cons, List.foldlM_nil, hnode]
    rfl

/-- The outer loop finishes the tree. -/
theorem buildLevels_built {depth l : ℕ} (hdepth : depth < 32) (hl : l ≤ depth) {mem : NodeMem Block}
    (hmem : Built evHashNode leaves depth l (2 ^ l) mem) :
    ∃ mem', buildLevels evHashNode l mem = some mem' ∧ Built evHashNode leaves depth 0 1 mem' := by
  induction l generalizing mem with
  | zero => exact ⟨mem, rfl, by simpa using hmem⟩
  | succ l ih =>
    obtain ⟨mem', hlevel, hbuilt⟩ := buildLevel_built hdepth hl hmem.up
    obtain ⟨mem'', hlevels, hbuilt'⟩ := ih (by omega) hbuilt
    refine ⟨mem'', ?_, hbuilt'⟩
    simp only [buildLevels, hlevel, Option.bind_eq_bind, Option.bind_some, hlevels]

end Build

/-! ### The finished tree -/

section Finished

variable (evHashNode : Block → Block → Block)

/-- The tree of a finished build: every node holds the hash of the leaves below it. -/
structure IsTreeOf (par : EvParams) (leaves : ℕ → Block) (mt : EvMerkleTree Block) : Prop where
  par_eq : mt.par = par
  node : ∃ cells, mt.levels = some cells ∧ cells.size = 2 ^ (par.depth.toNat + 1) - 1 ∧
    ∀ level idx, level ≤ par.depth.toNat → idx < 2 ^ level →
      cells[levelOrder level idx]? =
        some (some (treeHash evHashNode leaves (par.depth.toNat - level) idx))

/-- The leaves of a list, by index. -/
theorem exists_leaves {leafDigests : List Block} (hpos : 0 < leafDigests.length) :
    ∃ leaves : ℕ → Block, ∀ i (hi : i < leafDigests.length), leafDigests[i] = leaves i :=
  ⟨fun i ↦ leafDigests.getD i (leafDigests.get ⟨0, hpos⟩),
    fun _ _ ↦ (List.getD_eq_getElem _ _ _).symm⟩

/-- Whatever lies in the region of a finished tree is the hash of a node. -/
theorem IsTreeOf.exists_treeHash_eq {evHashNode : Block → Block → Block} {par : EvParams}
    {leaves : ℕ → Block} {mt : EvMerkleTree Block} (h : IsTreeOf evHashNode par leaves mt)
    {cells : Array (Option Block)} (hlevels : mt.levels = some cells) {i : ℕ} {block : Block}
    (hcell : cells[i]? = some (some block)) :
    ∃ height index, treeHash evHashNode leaves height index = block := by
  obtain ⟨cells', hlevels', hsize, hcells⟩ := h.node
  obtain rfl : cells' = cells := Option.some.inj (hlevels'.symm.trans hlevels)
  obtain ⟨hi, -⟩ := Array.getElem?_eq_some_iff.mp hcell
  obtain ⟨level, index, hlevel, hindex, rfl⟩ := exists_levelOrder_eq (hsize ▸ hi)
  rw [hcells level index hlevel hindex] at hcell
  exact ⟨_, index, Option.some.inj (Option.some.inj hcell)⟩

/-- A finished tree determines what its nodes hash to. -/
theorem IsTreeOf.treeHash_eq {evHashNode : Block → Block → Block} {par : EvParams}
    {leaves leaves' : ℕ → Block} {mt : EvMerkleTree Block} (h : IsTreeOf evHashNode par leaves mt)
    (h' : IsTreeOf evHashNode par leaves' mt) {level idx : ℕ} (hlevel : level ≤ par.depth.toNat)
    (hidx : idx < 2 ^ level) :
    treeHash evHashNode leaves (par.depth.toNat - level) idx =
      treeHash evHashNode leaves' (par.depth.toNat - level) idx := by
  obtain ⟨cells, hcells, -, hnode⟩ := h.node
  obtain ⟨cells', hcells', -, hnode'⟩ := h'.node
  obtain rfl : cells = cells' := Option.some.inj (hcells.symm.trans hcells')
  have hsame := (hnode level idx hlevel hidx).symm.trans (hnode' level idx hlevel hidx)
  exact Option.some.inj (Option.some.inj hsame)

/-- With its memory granted, `ev_merkle_build` returns 0 with the tree of the given leaves, having
hashed every pair of siblings and touched nothing outside the region. -/
theorem evMerkleBuild_spec (mt : EvMerkleTree Block) {par : EvParams}
    (hdepth : par.depth.toNat < 32) (leafDigests : List Block)
    (hlength : leafDigests.length = 2 ^ par.depth.toNat) (leaves : ℕ → Block)
    (hleaves : ∀ i (hi : i < leafDigests.length), leafDigests[i] = leaves i) :
    ∃ built events, evMerkleBuild evHashNode true mt par leafDigests = some (0, built, events) ∧
      IsTreeOf evHashNode par leaves built ∧
      (∀ level idx, level < par.depth.toNat → idx < 2 ^ level →
        .hash (treeHash evHashNode leaves (par.depth.toNat - (level + 1)) (2 * idx))
          (treeHash evHashNode leaves (par.depth.toNat - (level + 1)) (2 * idx + 1)) ∈ events) ∧
      ∀ event ∈ events, event.Inside ((2 ^ (par.depth.toNat + 1) - 1) * 32) := by
  have htotal : 2 * (1 <<< par.depth.toNat) - 1 = 2 ^ (par.depth.toNat + 1) - 1 := by
    rw [Nat.one_shiftLeft, pow_succ, Nat.mul_comm]
  have hempty : Built evHashNode leaves par.depth.toNat par.depth.toNat 0
      { cells := Array.replicate (2 * (1 <<< par.depth.toNat) - 1) none, events := [] } :=
    { size := by rw [Array.size_replicate, htotal]
      done := fun level idx hlevel _ hplace ↦ by omega
      hashed := fun level idx hlevel _ hplace ↦ by omega
      inside := fun event hmem ↦ absurd hmem List.not_mem_nil }
  obtain ⟨mem, hcopy, hfilled⟩ := copyLeaves_built leafDigests hlength hleaves hempty
  obtain ⟨mem', hlevels, hbuilt⟩ := buildLevels_built hdepth le_rfl hfilled
  have hfinal (level idx : ℕ) (hidx : idx < 2 ^ level) : 0 < level ∨ level = 0 ∧ idx < 1 := by
    rcases Nat.eq_zero_or_pos level with rfl | hpos
    · exact Or.inr ⟨rfl, by simpa using hidx⟩
    · exact Or.inl hpos
  refine ⟨{ par := par, levels := some mem'.cells, mode := 1 }, mem'.events, ?_,
    ⟨rfl, mem'.cells, rfl, hbuilt.size, fun level idx hlevel hidx ↦
      hbuilt.done level idx hlevel hidx (hfinal level idx hidx)⟩,
    fun level idx hlevel hidx ↦ hbuilt.hashed level idx hlevel hidx (hfinal level idx hidx),
    hbuilt.inside⟩
  simp only [evMerkleBuild, if_pos, hcopy, hlevels, Option.bind_eq_bind, Option.bind_some,
    Option.pure_def]

/-- Whenever `ev_merkle_build` returns 0, it has built the tree of the given leaves. -/
theorem isTreeOf_of_evMerkleBuild {allocated : Bool} {mt built : EvMerkleTree Block}
    {par : EvParams} (hdepth : par.depth.toNat < 32) {leafDigests : List Block}
    (hlength : leafDigests.length = 2 ^ par.depth.toNat) {leaves : ℕ → Block}
    (hleaves : ∀ i (hi : i < leafDigests.length), leafDigests[i] = leaves i)
    {events : List (MerkleEvent Block)}
    (hbuild : evMerkleBuild evHashNode allocated mt par leafDigests = some (0, built, events)) :
    IsTreeOf evHashNode par leaves built := by
  cases allocated with
  | false => simp [evMerkleBuild] at hbuild
  | true =>
    obtain ⟨built', events', hbuild', hmt, -⟩ :=
      evMerkleBuild_spec evHashNode mt hdepth leafDigests hlength leaves hleaves
    have hsame : built = built' ∧ events = events' := by
      simpa using hbuild.symm.trans hbuild'
    rw [hsame.1]
    exact hmt

end Finished

end EvMlDsa
