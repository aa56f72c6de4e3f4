import EvMlDsa.MerkleBuild
import Mathlib.Data.Set.Function

/-!
# The layout of the commitment tree

The nodes of a tree of a given depth have one 32-byte slot each, and no slot is left over
(`nodeOff_bijOn`). The builder reads only below the level it writes (`Ordered`), so it never writes
over what it has read (`evMerkleBuild_ordered`). `evMerkleBuild_layout` puts this together with the
contents of the slots: the leaves, the hashes of their slots below, and the hash of a segment of the
leaves (`TreeSlots`).
-/

set_option autoImplicit false
set_option relaxedAutoImplicit false

namespace EvMlDsa

open Library.HashTree Library.PerfectTree

variable {Block : Type*}

/-! ### Slots -/

/-- The nodes of a tree, by level and index. -/
def treeNodes (depth : ℕ) : Set (ℕ × ℕ) := {node | node.1 ≤ depth ∧ node.2 < 2 ^ node.1}

/-- The offsets of the 32-byte slots `0, …, 2 ^ (depth + 1) - 2`. -/
def slotOffsets (depth : ℕ) : Set ℕ := {off | ∃ slot ≤ 2 ^ (depth + 1) - 2, off = slot * 32}

theorem nodeOff_injective {level idx level' idx' : ℕ} (hidx : idx < 2 ^ level)
    (hidx' : idx' < 2 ^ level') (h : nodeOff level idx = nodeOff level' idx') :
    level = level' ∧ idx = idx' := by
  rw [nodeOff_eq, nodeOff_eq] at h
  exact levelOrder_injective hidx hidx' (Nat.eq_of_mul_eq_mul_right (by decide) h)

/-- `node_off` maps the nodes one to one onto the slots. -/
theorem nodeOff_bijOn (depth : ℕ) :
    Set.BijOn (fun node : ℕ × ℕ ↦ nodeOff node.1 node.2) (treeNodes depth) (slotOffsets depth) := by
  refine ⟨?_, ?_, ?_⟩
  · rintro ⟨level, idx⟩ ⟨hlevel, hidx⟩
    have hlt : levelOrder level idx < 2 ^ (depth + 1) - 1 := levelOrder_lt hlevel hidx
    have hslot : levelOrder level idx ≤ 2 ^ (depth + 1) - 2 := by omega
    exact ⟨levelOrder level idx, hslot, nodeOff_eq level idx⟩
  · rintro ⟨level, idx⟩ ⟨-, hidx⟩ ⟨level', idx'⟩ ⟨-, hidx'⟩ h
    obtain ⟨rfl, rfl⟩ := nodeOff_injective hidx hidx' h
    rfl
  · rintro off ⟨slot, hslot, rfl⟩
    have hpos : 0 < 2 ^ depth := by positivity
    have hposition : slot < 2 ^ (depth + 1) - 1 := by
      rw [pow_succ] at hslot ⊢
      omega
    obtain ⟨level, idx, hlevel, hidx, rfl⟩ := exists_levelOrder_eq hposition
    exact ⟨(level, idx), ⟨hlevel, hidx⟩, nodeOff_eq level idx⟩

/-- The slots of different nodes share no byte. -/
theorem nodeOff_disjoint {level idx level' idx' : ℕ} (hidx : idx < 2 ^ level)
    (hidx' : idx' < 2 ^ level') (hne : level ≠ level') :
    nodeOff level idx + 32 ≤ nodeOff level' idx' ∨
      nodeOff level' idx' + 32 ≤ nodeOff level idx := by
  have hslots : levelOrder level idx ≠ levelOrder level' idx' :=
    fun h ↦ hne (levelOrder_injective hidx hidx' h).1
  rw [nodeOff_eq, nodeOff_eq]
  omega

/-! ### The order of the accesses -/

/-- The second event writes none of the bytes the first one read. -/
def MerkleEvent.SparedBy : MerkleEvent Block → MerkleEvent Block → Prop
  | .read off, .write off' => off + 32 ≤ off' ∨ off' + 32 ≤ off
  | _, _ => True

/-- The accesses while level `l` is written: reads are below that level, and nothing read was
written later. -/
structure Ordered (l : ℕ) (events : List (MerkleEvent Block)) : Prop where
  reads : ∀ off, .read off ∈ events →
    ∃ level idx, l < level ∧ idx < 2 ^ level ∧ off = nodeOff level idx
  spared : events.Pairwise MerkleEvent.SparedBy

theorem Ordered.nil (l : ℕ) : Ordered l ([] : List (MerkleEvent Block)) where
  reads _ hread := absurd hread List.not_mem_nil
  spared := List.Pairwise.nil

/-- What is below a level is below the one above it. -/
theorem Ordered.up {l : ℕ} {events : List (MerkleEvent Block)} (h : Ordered (l + 1) events) :
    Ordered l events where
  reads off hread := by
    obtain ⟨level, idx, hlevel, hidx, hoff⟩ := h.reads off hread
    exact ⟨level, idx, by omega, hidx, hoff⟩
  spared := h.spared

/-- A later event that writes nothing. -/
theorem MerkleEvent.sparedBy_of_ne_write {first second : MerkleEvent Block}
    (hsecond : ∀ off, second ≠ .write off) : first.SparedBy second := by
  cases second with
  | write off => exact absurd rfl (hsecond off)
  | read off => cases first <;> exact trivial
  | hash left right => cases first <;> exact trivial

/-- One more event. -/
theorem Ordered.append {l : ℕ} {events : List (MerkleEvent Block)} (h : Ordered l events)
    {event : MerkleEvent Block}
    (hread : ∀ off, event = .read off →
      ∃ level idx, l < level ∧ idx < 2 ^ level ∧ off = nodeOff level idx)
    (hspared : ∀ first ∈ events, first.SparedBy event) : Ordered l (events ++ [event]) where
  reads off hmem := by
    rcases List.mem_append.mp hmem with hold | hnew
    · exact h.reads off hold
    · exact hread off (List.mem_singleton.mp hnew).symm
  spared := by
    apply List.pairwise_append.mpr
    refine ⟨h.spared, List.pairwise_singleton _ _, ?_⟩
    intro first hfirst second hsecond
    rw [List.mem_singleton.mp hsecond]
    exact hspared first hfirst

theorem Ordered.read {l level idx : ℕ} {events : List (MerkleEvent Block)} (h : Ordered l events)
    (hlevel : l < level) (hidx : idx < 2 ^ level) :
    Ordered l (events ++ [.read (nodeOff level idx)]) := by
  apply h.append
  · rintro off ⟨⟩
    exact ⟨level, idx, hlevel, hidx, rfl⟩
  · intro first _
    exact MerkleEvent.sparedBy_of_ne_write nofun

theorem Ordered.hash {l : ℕ} {events : List (MerkleEvent Block)} (h : Ordered l events)
    (left right : Block) : Ordered l (events ++ [.hash left right]) := by
  apply h.append
  · exact nofun
  · intro first _
    exact MerkleEvent.sparedBy_of_ne_write nofun

/-- A write to level `l` misses everything read so far. -/
theorem Ordered.write {l idx : ℕ} {events : List (MerkleEvent Block)} (h : Ordered l events)
    (hidx : idx < 2 ^ l) : Ordered l (events ++ [.write (nodeOff l idx)]) := by
  apply h.append
  · exact nofun
  · intro first hfirst
    cases first with
    | read off =>
      obtain ⟨level, idx', hlevel, hidx', rfl⟩ := h.reads off hfirst
      exact nodeOff_disjoint hidx' hidx hlevel.ne'
    | write off => exact trivial
    | hash left right => exact trivial

/-! ### The loops -/

theorem events_of_load {mem mem' : NodeMem Block} {off : ℕ} {block : Block}
    (h : mem.load off = some (block, mem')) : mem'.events = mem.events ++ [.read off] := by
  obtain ⟨_, -, hload⟩ := Option.bind_eq_some_iff.mp h
  obtain ⟨-, rfl⟩ := Prod.mk.inj (Option.some.inj hload)
  rfl

theorem events_of_store {mem mem' : NodeMem Block} {off : ℕ} {block : Block}
    (h : mem.store off block = some mem') : mem'.events = mem.events ++ [.write off] := by
  unfold NodeMem.store at h
  split_ifs at h
  rw [← Option.some.inj h]

/-- What every round of a loop keeps, the loop keeps. -/
theorem foldlM_keeps {State Index : Type*} (Keeps : State → Prop)
    {round : State → Index → Option State} {indices : List Index}
    (hround : ∀ i ∈ indices, ∀ st st', Keeps st → round st i = some st' → Keeps st')
    {st st' : State} (hst : Keeps st) (hloop : indices.foldlM round st = some st') : Keeps st' := by
  induction indices generalizing st with
  | nil => exact Option.some.inj hloop ▸ hst
  | cons i indices ih =>
    rw [List.foldlM_cons] at hloop
    obtain ⟨mid, hmid, hrest⟩ := Option.bind_eq_some_iff.mp hloop
    have hkeeps := hround i List.mem_cons_self st mid hst hmid
    exact ih (fun j hj ↦ hround j (List.mem_cons_of_mem _ hj)) hkeeps hrest

theorem copyLeaves_ordered {depth : ℕ} {leafDigests : List Block} {mem mem' : NodeMem Block}
    (hmem : Ordered depth mem.events) (hcopy : copyLeaves depth leafDigests mem = some mem') :
    Ordered depth mem'.events := by
  unfold copyLeaves at hcopy
  refine foldlM_keeps (fun mem ↦ Ordered depth mem.events) ?_ hmem hcopy
  intro i hi st st' hst hround
  rw [List.mem_range, Nat.one_shiftLeft] at hi
  obtain ⟨digest, -, hstore⟩ := Option.bind_eq_some_iff.mp hround
  rw [events_of_store hstore, nodeOff_add_mul]
  exact hst.write hi

section Build

variable {evHashNode : Block → Block → Block}

/-- One round of the inner loop reads below the node it writes. -/
theorem buildNode_ordered {l idx : ℕ} (hidx : idx < 2 ^ l) {mem mem' : NodeMem Block}
    (hmem : Ordered l mem.events)
    (hnode : buildNode evHashNode (l + 1) mem (2 * idx) = some mem') : Ordered l mem'.events := by
  have hchild := double_add_one_lt hidx
  obtain ⟨⟨left, mem₁⟩, hleft, hnode⟩ := Option.bind_eq_some_iff.mp hnode
  obtain ⟨⟨right, mem₂⟩, hright, hstore⟩ := Option.bind_eq_some_iff.mp hnode
  rw [events_of_store hstore, events_of_load hright, events_of_load hleft, double_shiftRight_one]
  apply Ordered.write _ hidx
  apply Ordered.hash
  apply Ordered.read _ (Nat.lt_succ_self l) hchild
  exact hmem.read (Nat.lt_succ_self l) (by omega)

/-- The inner loop starts its rounds at the even indices. -/
theorem buildLevel_ordered {l : ℕ} {mem mem' : NodeMem Block} (hmem : Ordered l mem.events)
    (hlevel : buildLevel evHashNode mem (l + 1) = some mem') : Ordered l mem'.events := by
  unfold buildLevel at hlevel
  split_ifs at hlevel
  refine foldlM_keeps (fun mem ↦ Ordered l mem.events) ?_ hmem hlevel
  intro i hi st st' hst hround
  rw [one_shiftLeft_succ_div_two, List.mem_range'] at hi
  obtain ⟨idx, hidx, rfl⟩ := hi
  rw [Nat.zero_add] at hround
  exact buildNode_ordered hidx hst hround

theorem buildLevels_ordered {l : ℕ} {mem mem' : NodeMem Block} (hmem : Ordered l mem.events)
    (hlevels : buildLevels evHashNode l mem = some mem') : Ordered 0 mem'.events := by
  induction l generalizing mem with
  | zero => exact Option.some.inj hlevels ▸ hmem
  | succ l ih =>
    obtain ⟨mid, hlevel, hrest⟩ := Option.bind_eq_some_iff.mp hlevels
    exact ih (buildLevel_ordered hmem.up hlevel) hrest

/-- The builder never writes over what it has read. -/
theorem evMerkleBuild_ordered {allocated : Bool} {mt built : EvMerkleTree Block} {par : EvParams}
    {leafDigests : List Block} {events : List (MerkleEvent Block)}
    (hbuild : evMerkleBuild evHashNode allocated mt par leafDigests = some (0, built, events)) :
    events.Pairwise MerkleEvent.SparedBy := by
  unfold evMerkleBuild at hbuild
  split_ifs at hbuild
  · obtain ⟨mem, hcopy, hbuild⟩ := Option.bind_eq_some_iff.mp hbuild
    obtain ⟨mem', hlevels, hbuild⟩ := Option.bind_eq_some_iff.mp hbuild
    simp only [Option.pure_def, Option.some.injEq, Prod.mk.injEq] at hbuild
    obtain ⟨-, -, rfl⟩ := hbuild
    exact (buildLevels_ordered (copyLeaves_ordered (Ordered.nil _) hcopy) hlevels).spared
  · simp at hbuild

end Build

/-! ### What the slots hold -/

/-- The slots of a finished build: the leaves at the deepest level, above it the hash of the two
slots below, and in every slot the hash of its segment of the leaves. -/
structure TreeSlots (evHashNode : Block → Block → Block) (depth : ℕ) (leafDigests : List Block)
    (cells : Array (Option Block)) : Prop where
  leaf : ∀ i < 2 ^ depth, loadNode cells (nodeOff depth i) = leafDigests[i]?
  inner : ∀ l < depth, ∀ i < 2 ^ l, ∃ left right,
    loadNode cells (nodeOff (l + 1) (2 * i)) = some left ∧
    loadNode cells (nodeOff (l + 1) (2 * i + 1)) = some right ∧
    loadNode cells (nodeOff l i) = some (evHashNode left right)
  segment : ∀ l ≤ depth, ∀ i < 2 ^ l, ∃ digest,
    loadNode cells (nodeOff l i) = some digest ∧
    listHash evHashNode (depth - l)
      ((leafDigests.drop (i * 2 ^ (depth - l))).take (2 ^ (depth - l))) = some digest

/-- A region that holds the tree hash of every node. -/
theorem treeSlots_of_treeHash {evHashNode : Block → Block → Block} {leaves : ℕ → Block}
    {depth : ℕ} {leafDigests : List Block} {cells : Array (Option Block)}
    (hlength : leafDigests.length = 2 ^ depth)
    (hleaves : ∀ i (hi : i < leafDigests.length), leafDigests[i] = leaves i)
    (hcells : ∀ level idx, level ≤ depth → idx < 2 ^ level →
      cells[levelOrder level idx]? = some (some (treeHash evHashNode leaves (depth - level) idx))) :
    TreeSlots evHashNode depth leafDigests cells := by
  have hslot {level idx : ℕ} (hlevel : level ≤ depth) (hidx : idx < 2 ^ level) :
      loadNode cells (nodeOff level idx) =
        some (treeHash evHashNode leaves (depth - level) idx) := by
    rw [loadNode_nodeOff, hcells level idx hlevel hidx, Option.join_some]
  constructor
  · intro i hi
    rw [hslot le_rfl hi, List.getElem?_eq_getElem (hlength ▸ hi), hleaves, Nat.sub_self, treeHash]
  · intro l hl i hi
    have hchild := double_add_one_lt hi
    have hheight : depth - l = depth - (l + 1) + 1 := by omega
    refine ⟨_, _, hslot hl (by omega), hslot hl hchild, ?_⟩
    rw [hslot hl.le hi, hheight, treeHash_succ]
  · intro l hl i hi
    have hend : (i + 1) * 2 ^ (depth - l) ≤ 2 ^ depth := by
      calc (i + 1) * 2 ^ (depth - l) ≤ 2 ^ l * 2 ^ (depth - l) := Nat.mul_le_mul_right _ hi
        _ = 2 ^ depth := by rw [← pow_add, Nat.add_sub_cancel' hl]
    rw [Nat.succ_mul] at hend
    refine ⟨_, hslot hl hi, listHash_eq_treeHash evHashNode leaves ?_ ?_⟩
    · rw [List.length_take, List.length_drop, hlength]
      omega
    · intro j hj
      rw [List.getElem_take, List.getElem_drop, hleaves]

/-- `node_off` gives every node its own slot and leaves none over. A build of `2 ^ depth` leaves
whose memory is granted returns 0, and whenever it returns 0 the slots hold the tree of these
leaves and no slot was written after it was read. -/
theorem evMerkleBuild_layout (evHashNode : Block → Block → Block) {depth : ℕ}
    (hdepth : depth ≤ evMaxDepth) {par : EvParams} (hpar : par.depth.toNat = depth)
    (mt : EvMerkleTree Block) (leafDigests : List Block)
    (hlength : leafDigests.length = 2 ^ depth) :
    Set.BijOn (fun node : ℕ × ℕ ↦ nodeOff node.1 node.2) (treeNodes depth) (slotOffsets depth) ∧
    (∃ built events,
      evMerkleBuild evHashNode true mt par leafDigests = some (0, built, events)) ∧
    ∀ allocated built events,
      evMerkleBuild evHashNode allocated mt par leafDigests = some (0, built, events) →
      (∃ cells, built.levels = some cells ∧ cells.size = 2 ^ (depth + 1) - 1 ∧
        TreeSlots evHashNode depth leafDigests cells) ∧
      events.Pairwise MerkleEvent.SparedBy := by
  subst hpar
  have hpos : 0 < leafDigests.length := by
    rw [hlength]
    positivity
  obtain ⟨leaves, hleaves⟩ := exists_leaves hpos
  have hsmall : par.depth.toNat < 32 := hdepth.trans_lt (by decide)
  obtain ⟨built, events, hbuild, -⟩ :=
    evMerkleBuild_spec evHashNode mt hsmall leafDigests hlength leaves hleaves
  refine ⟨nodeOff_bijOn _, ⟨built, events, hbuild⟩, ?_⟩
  intro allocated built' events' hbuild'
  constructor
  · have hmt := isTreeOf_of_evMerkleBuild evHashNode hsmall hlength hleaves hbuild'
    obtain ⟨cells, hlevels, hsize, hcells⟩ := hmt.node
    exact ⟨cells, hlevels, hsize, treeSlots_of_treeHash hlength hleaves hcells⟩
  · exact evMerkleBuild_ordered hbuild'

/-- A tree of depth 2 over a toy hash. -/
theorem evMerkleBuild_layout_witness :
    Set.BijOn (fun node : ℕ × ℕ ↦ nodeOff node.1 node.2) (treeNodes 2) (slotOffsets 2) ∧
    (∃ built events,
      evMerkleBuild (fun a b : ℕ ↦ 3 * a + b) true ⟨.ofDepth 0, none, 0⟩ (.ofDepth 2) [4, 5, 6, 7] =
        some (0, built, events)) ∧
    ∀ allocated built events,
      evMerkleBuild (fun a b : ℕ ↦ 3 * a + b) allocated ⟨.ofDepth 0, none, 0⟩ (.ofDepth 2)
        [4, 5, 6, 7] = some (0, built, events) →
      (∃ cells, built.levels = some cells ∧ cells.size = 2 ^ (2 + 1) - 1 ∧
        TreeSlots (fun a b : ℕ ↦ 3 * a + b) 2 [4, 5, 6, 7] cells) ∧
      events.Pairwise MerkleEvent.SparedBy :=
  evMerkleBuild_layout (fun a b : ℕ ↦ 3 * a + b) (by decide : 2 ≤ evMaxDepth)
    (toNat_ofDepth_depth (by decide)) ⟨.ofDepth 0, none, 0⟩ [4, 5, 6, 7] rfl

end EvMlDsa
