import EvMlDsa.SeedTreeRun

/-!
# What a tree state determines

The seeds an adversary holding a tree state can derive. A slot is any cell of `path` or `future`,
valid or not, and `Obtainable` is the closure of their contents under the two child derivations.

At period `p` the slots hold the seeds of the frontier nodes of `p` and zeroes
(`slot_stateAt_cases`, `exists_slot_of_frontierNode`). Under a free child derivation this decides
everything: the leaf seeds that can be obtained are those of the periods from `p` on
(`obtainable_leaf_iff`), each from one slot (`slot_unique`), and no slot holds a seed above a past
leaf or strictly above the current one (`slot_ne_nodeSeed`). `retained_seeds_cover` states this for
the seeds of the symbolic model (`FreeSeed`).
-/

set_option autoImplicit false
set_option relaxedAutoImplicit false

namespace EvMlDsa

open Library.PerfectTree

/-- A cell of the tree state that can hold seed material. -/
inductive Slot
  | path (level : Fin (evMaxDepth + 1))
  | future (level : Fin evMaxDepth)
deriving DecidableEq

/-- The content of a slot, whether or not it is marked valid. -/
def EvTreeState.slot {Seed : Type*} (st : EvTreeState Seed) : Slot → Seed
  | .path level => st.path[level]
  | .future level => st.future[level]

section Closure

variable {Seed : Type*} (evDeriveChild : Seed → UInt8 → Seed)

/-- A seed reached from some slot by child derivations, in any number. -/
def Obtainable (st : EvTreeState Seed) (seed : Seed) : Prop :=
  ∃ slot turns, descend (seedChild evDeriveChild) (st.slot slot) turns = seed

end Closure

/-! ### The slots of a reachable state -/

section Slots

variable {Seed : Type*} [Zero Seed] (evDeriveChild : Seed → UInt8 → Seed)

theorem slot_path_stateAt (depth : ℕ) (rootSeed : Seed) (p : ℕ) (level : Fin (evMaxDepth + 1)) :
    (stateAt evDeriveChild depth rootSeed p).slot (.path level) =
      if level.val = depth then nodeSeed evDeriveChild rootSeed depth p else 0 :=
  getElem_path_stateAt evDeriveChild depth rootSeed p level.isLt

theorem slot_future_stateAt (depth : ℕ) (rootSeed : Seed) (p : ℕ) (level : Fin evMaxDepth) :
    (stateAt evDeriveChild depth rootSeed p).slot (.future level) =
      if level.val < depth ∧ p.testBit (depth - 1 - level.val) = false then
        nodeSeed evDeriveChild rootSeed (level.val + 1) (p / 2 ^ (depth - 1 - level.val) + 1)
      else 0 :=
  getElem_future_stateAt evDeriveChild depth rootSeed p level.isLt

/-- A slot is empty or holds the seed of a frontier node. -/
theorem slot_stateAt_cases (depth : ℕ) (rootSeed : Seed) (p : ℕ) (slot : Slot) :
    (stateAt evDeriveChild depth rootSeed p).slot slot = 0 ∨
      ∃ level index, FrontierNode depth p level index ∧
        (stateAt evDeriveChild depth rootSeed p).slot slot =
          nodeSeed evDeriveChild rootSeed level index := by
  cases slot with
  | path level =>
    rw [slot_path_stateAt]
    split_ifs
    · exact Or.inr ⟨depth, p, .leaf, rfl⟩
    · exact Or.inl rfl
  | future level =>
    rw [slot_future_stateAt]
    split_ifs with hleft
    · exact Or.inr ⟨_, _, .sibling hleft.1 hleft.2, rfl⟩
    · exact Or.inl rfl

/-- Every frontier node has its slot. -/
theorem exists_slot_of_frontierNode {depth : ℕ} (hdepth : depth ≤ evMaxDepth) (rootSeed : Seed)
    {p level index : ℕ} (hnode : FrontierNode depth p level index) :
    ∃ slot, (stateAt evDeriveChild depth rootSeed p).slot slot =
      nodeSeed evDeriveChild rootSeed level index := by
  cases hnode with
  | leaf =>
    refine ⟨.path ⟨depth, by omega⟩, ?_⟩
    rw [slot_path_stateAt, if_pos rfl]
  | @sibling parent hlevel hleft =>
    refine ⟨.future ⟨parent, by omega⟩, ?_⟩
    rw [slot_future_stateAt, if_pos ⟨hlevel, hleft⟩]

end Slots

/-! ### Under a free derivation -/

section Free

variable {Seed : Type*} [Zero Seed] {evDeriveChild : Seed → UInt8 → Seed}

/-- Nothing of the tree can be derived from the zero block. -/
theorem descend_zero_ne_nodeSeed (hfree : FreeChild (seedChild evDeriveChild))
    (hzero : Underived (seedChild evDeriveChild) 0) {rootSeed : Seed}
    (hroot : Underived (seedChild evDeriveChild) rootSeed) (hne : rootSeed ≠ 0)
    (turns : List Bool) (level index : ℕ) :
    descend (seedChild evDeriveChild) 0 turns ≠ nodeSeed evDeriveChild rootSeed level index :=
  fun h ↦ hne (hfree.descend_injective hzero hroot h).1.symm

/-- A leaf seed is derived from a slot exactly when the slot holds a frontier node above it. -/
theorem reachable_from_slot_iff (hfree : FreeChild (seedChild evDeriveChild))
    (hzero : Underived (seedChild evDeriveChild) 0) {rootSeed : Seed}
    (hroot : Underived (seedChild evDeriveChild) rootSeed) (hne : rootSeed ≠ 0)
    {depth p leaf : ℕ} (hp : p < 2 ^ depth) (hleaf : leaf < 2 ^ depth) (slot : Slot) :
    (∃ turns, descend (seedChild evDeriveChild)
        ((stateAt evDeriveChild depth rootSeed p).slot slot) turns =
          nodeSeed evDeriveChild rootSeed depth leaf) ↔
      ∃ level index, FrontierNode depth p level index ∧
        (stateAt evDeriveChild depth rootSeed p).slot slot =
          nodeSeed evDeriveChild rootSeed level index ∧ Covers depth level index leaf := by
  constructor
  · rintro ⟨turns, hturns⟩
    rcases slot_stateAt_cases evDeriveChild depth rootSeed p slot with
      hempty | ⟨level, index, hnode, hslot⟩
    · rw [hempty] at hturns
      exact absurd hturns (descend_zero_ne_nodeSeed hfree hzero hroot hne turns depth leaf)
    · refine ⟨level, index, hnode, hslot, ?_⟩
      rw [hslot] at hturns
      exact (hfree.reachable_nodeLabel_iff hroot (hnode.index_lt hp) hleaf).mp ⟨turns, hturns⟩
  · rintro ⟨level, index, hnode, hslot, hcover⟩
    rw [hslot]
    exact (hfree.reachable_nodeLabel_iff hroot (hnode.index_lt hp) hleaf).mpr hcover

/-- The leaf seeds a state determines are those of the current and the later periods. -/
theorem obtainable_leaf_iff (hfree : FreeChild (seedChild evDeriveChild))
    (hzero : Underived (seedChild evDeriveChild) 0) {rootSeed : Seed}
    (hroot : Underived (seedChild evDeriveChild) rootSeed) (hne : rootSeed ≠ 0)
    {depth p leaf : ℕ} (hdepth : depth ≤ evMaxDepth) (hp : p < 2 ^ depth)
    (hleaf : leaf < 2 ^ depth) :
    Obtainable evDeriveChild (stateAt evDeriveChild depth rootSeed p)
      (nodeSeed evDeriveChild rootSeed depth leaf) ↔ p ≤ leaf := by
  rw [← frontier_covers_iff hleaf, Obtainable]
  simp only [reachable_from_slot_iff hfree hzero hroot hne hp hleaf]
  constructor
  · rintro ⟨_, level, index, hnode, _, hcover⟩
    exact ⟨level, index, hnode, hcover⟩
  · rintro ⟨level, index, hnode, hcover⟩
    obtain ⟨slot, hslot⟩ := exists_slot_of_frontierNode evDeriveChild hdepth rootSeed hnode
    exact ⟨slot, level, index, hnode, hslot, hcover⟩

/-- The slot a frontier node above a leaf sits in: the path slot for the current leaf, and for a
later one the sibling slot at the level where the two part. -/
theorem slot_of_covering (hfree : FreeChild (seedChild evDeriveChild)) {rootSeed : Seed}
    (hzero : Underived (seedChild evDeriveChild) 0)
    (hroot : Underived (seedChild evDeriveChild) rootSeed) (hne : rootSeed ≠ 0)
    {depth p leaf : ℕ} (hp : p < 2 ^ depth) {slot : Slot} {level index : ℕ}
    (hnode : FrontierNode depth p level index)
    (hslot : (stateAt evDeriveChild depth rootSeed p).slot slot =
      nodeSeed evDeriveChild rootSeed level index) (hcover : Covers depth level index leaf) :
    (leaf = p ∧ ∃ h, slot = .path ⟨depth, h⟩) ∨
      (p < leaf ∧ ∃ parent h, parent < depth ∧ p.testBit (depth - 1 - parent) = false ∧
        slot = .future ⟨parent, h⟩ ∧
        Covers depth (parent + 1) (p / 2 ^ (depth - 1 - parent) + 1) leaf) := by
  have hnonzero : (0 : Seed) ≠ nodeSeed evDeriveChild rootSeed level index :=
    descend_zero_ne_nodeSeed hfree hzero hroot hne [] level index
  have hsame {level' index' : ℕ} (hnode' : FrontierNode depth p level' index')
      (h : nodeSeed evDeriveChild rootSeed level' index' =
        nodeSeed evDeriveChild rootSeed level index) : level' = level ∧ index' = index :=
    hfree.nodeLabel_injective hroot (hnode'.index_lt hp) (hnode.index_lt hp) h
  cases slot with
  | path cell =>
    rw [slot_path_stateAt] at hslot
    split_ifs at hslot with hcell
    · obtain ⟨rfl, rfl⟩ := hsame .leaf hslot
      have hpath : Slot.path cell = Slot.path ⟨depth, by omega⟩ := by
        rw [Slot.path.injEq, Fin.ext_iff]
        exact hcell
      exact Or.inl ⟨leaf_covers_iff.mp hcover, by omega, hpath⟩
    · exact absurd hslot hnonzero
  | future cell =>
    rw [slot_future_stateAt] at hslot
    split_ifs at hslot with hleft
    · obtain ⟨rfl, rfl⟩ := hsame (.sibling hleft.1 hleft.2) hslot
      exact Or.inr
        ⟨lt_of_sibling_covers hleft.1 hcover, cell, cell.isLt, hleft.1, hleft.2, rfl, hcover⟩
    · exact absurd hslot hnonzero

/-- A leaf seed is derived from at most one slot. -/
theorem slot_unique (hfree : FreeChild (seedChild evDeriveChild))
    (hzero : Underived (seedChild evDeriveChild) 0) {rootSeed : Seed}
    (hroot : Underived (seedChild evDeriveChild) rootSeed) (hne : rootSeed ≠ 0)
    {depth p leaf : ℕ} (hp : p < 2 ^ depth) (hleaf : leaf < 2 ^ depth) {first second : Slot}
    (hfirst : ∃ turns, descend (seedChild evDeriveChild)
        ((stateAt evDeriveChild depth rootSeed p).slot first) turns =
          nodeSeed evDeriveChild rootSeed depth leaf)
    (hsecond : ∃ turns, descend (seedChild evDeriveChild)
        ((stateAt evDeriveChild depth rootSeed p).slot second) turns =
          nodeSeed evDeriveChild rootSeed depth leaf) :
    first = second := by
  rw [reachable_from_slot_iff hfree hzero hroot hne hp hleaf] at hfirst hsecond
  obtain ⟨_, _, hnode, hslot, hcover⟩ := hfirst
  obtain ⟨_, _, hnode', hslot', hcover'⟩ := hsecond
  rcases slot_of_covering hfree hzero hroot hne hp hnode hslot hcover with
    ⟨hself, hcell, rfl⟩ | ⟨hlater, parent, hcell, hparent, hleft, rfl, hbelow⟩
  · rcases slot_of_covering hfree hzero hroot hne hp hnode' hslot' hcover' with
      ⟨_, hcell', rfl⟩ | ⟨hlater, _⟩
    · rfl
    · omega
  · rcases slot_of_covering hfree hzero hroot hne hp hnode' hslot' hcover' with
      ⟨hself, _⟩ | ⟨_, parent', hcell', hparent', hleft', rfl, hbelow'⟩
    · omega
    · have hle := sibling_cover_unique hparent hparent' hleft' hbelow hbelow'
      have hge := sibling_cover_unique hparent' hparent hleft hbelow' hbelow
      have hsame : parent = parent' := by omega
      subst hsame
      rfl

/-- A slot that holds a node of the tree holds a frontier node. -/
theorem frontierNode_of_slot_eq (hfree : FreeChild (seedChild evDeriveChild))
    (hzero : Underived (seedChild evDeriveChild) 0) {rootSeed : Seed}
    (hroot : Underived (seedChild evDeriveChild) rootSeed) (hne : rootSeed ≠ 0)
    {depth p level index : ℕ} (hp : p < 2 ^ depth) (hindex : index < 2 ^ level) {slot : Slot}
    (hslot : (stateAt evDeriveChild depth rootSeed p).slot slot =
      nodeSeed evDeriveChild rootSeed level index) : FrontierNode depth p level index := by
  rcases slot_stateAt_cases evDeriveChild depth rootSeed p slot with
    hempty | ⟨level', index', hnode, hheld⟩
  · rw [hempty] at hslot
    exact absurd hslot (descend_zero_ne_nodeSeed hfree hzero hroot hne [] level index)
  · rw [hheld] at hslot
    obtain ⟨rfl, rfl⟩ := hfree.nodeLabel_injective hroot (hnode.index_lt hp) hindex hslot
    exact hnode

/-- No slot holds a node on the path to a past leaf, nor a strict ancestor of the current one. -/
theorem slot_ne_nodeSeed (hfree : FreeChild (seedChild evDeriveChild))
    (hzero : Underived (seedChild evDeriveChild) 0) {rootSeed : Seed}
    (hroot : Underived (seedChild evDeriveChild) rootSeed) (hne : rootSeed ≠ 0)
    {depth p leaf level : ℕ} (hp : p < 2 ^ depth) (hleaf : leaf ≤ p) (hlevel : level ≤ depth)
    (hpast : leaf < p ∨ level < depth) (slot : Slot) :
    (stateAt evDeriveChild depth rootSeed p).slot slot ≠
      nodeSeed evDeriveChild rootSeed level (leaf / 2 ^ (depth - level)) := by
  intro hslot
  have hindex : leaf / 2 ^ (depth - level) < 2 ^ level := by
    rw [Nat.div_lt_iff_lt_mul (by positivity), ← pow_add, Nat.add_sub_cancel' hlevel]
    omega
  have hnode := frontierNode_of_slot_eq hfree hzero hroot hne hp hindex hslot
  have hcover : Covers depth level (leaf / 2 ^ (depth - level)) leaf := ⟨hlevel, rfl⟩
  have hle := le_of_frontier_covers hnode hcover
  obtain rfl : leaf = p := le_antisymm hleaf hle
  have hself := eq_leaf_of_frontier_covers_self hnode hcover
  omega

end Free

/-! ### The symbolic seeds -/

/-- Seeds of the symbolic model: the zero block, independent root seeds, and children of seeds,
with the child derivation as a free constructor. -/
inductive FreeSeed (Root : Type*)
  | zero
  | root (name : Root)
  | child (seed : FreeSeed Root) (dom : UInt8)

instance (Root : Type*) : Zero (FreeSeed Root) := ⟨.zero⟩

theorem FreeSeed.freeChild (Root : Type*) :
    FreeChild (seedChild (@FreeSeed.child Root)) := by
  intro first second turn turn' h
  simp only [seedChild, FreeSeed.child.injEq] at h
  refine ⟨h.1, ?_⟩
  cases turn <;> cases turn' <;> first | rfl | exact absurd h.2 (by decide)

theorem FreeSeed.underived_zero (Root : Type*) :
    Underived (seedChild (@FreeSeed.child Root)) 0 :=
  nofun

theorem FreeSeed.underived_root {Root : Type*} (name : Root) :
    Underived (seedChild FreeSeed.child) (FreeSeed.root name) :=
  nofun

/-- The retained seeds are exactly a disjoint cover of the current and future periods: from the
slots of the state of period `p`, valid or not, the leaf seeds that can be derived are those of
the periods `p, …, 2 ^ depth - 1`; each is derived from exactly one nonzero slot; and no slot
holds a node on the path to a past leaf, nor a strict ancestor of leaf `p`. -/
theorem retained_seeds_cover {Root : Type*} (name : Root) {depth p : ℕ}
    (hdepth : depth ≤ evMaxDepth) (hp : p < 2 ^ depth) :
    let st := (advanceTimes FreeSeed.child p
      (evTreeInit FreeSeed.child (.ofDepth depth) (FreeSeed.root name))).2
    let node := nodeSeed FreeSeed.child (FreeSeed.root name)
    {leaf | leaf < 2 ^ depth ∧ Obtainable FreeSeed.child st (node depth leaf)} =
      {leaf | p ≤ leaf ∧ leaf < 2 ^ depth} ∧
    (∀ leaf, p ≤ leaf → leaf < 2 ^ depth → ∃! slot, st.slot slot ≠ 0 ∧
      ∃ turns, descend (seedChild FreeSeed.child) (st.slot slot) turns = node depth leaf) ∧
    (∀ slot leaf level, leaf < p → level ≤ depth →
      st.slot slot ≠ node level (leaf >>> (depth - level))) ∧
    (∀ slot level, level < depth → st.slot slot ≠ node level (p >>> (depth - level))) := by
  have hfree := FreeSeed.freeChild Root
  have hzero := FreeSeed.underived_zero Root
  have hroot := FreeSeed.underived_root name
  have hne : FreeSeed.root name ≠ 0 := nofun
  dsimp only
  rw [advanceTimes_eq_stateAt FreeSeed.child hdepth hp]
  refine ⟨?_, ?_, ?_, ?_⟩
  · ext leaf
    simp only [Set.mem_ofPred_eq]
    constructor
    · rintro ⟨hleaf, hobtain⟩
      exact ⟨(obtainable_leaf_iff hfree hzero hroot hne hdepth hp hleaf).mp hobtain, hleaf⟩
    · rintro ⟨hle, hleaf⟩
      exact ⟨hleaf, (obtainable_leaf_iff hfree hzero hroot hne hdepth hp hleaf).mpr hle⟩
  · intro leaf hle hleaf
    obtain ⟨slot, turns, hturns⟩ :=
      (obtainable_leaf_iff hfree hzero hroot hne hdepth hp hleaf).mpr hle
    refine ⟨slot, ⟨?_, turns, hturns⟩, ?_⟩
    · intro hempty
      rw [hempty] at hturns
      exact descend_zero_ne_nodeSeed hfree hzero hroot hne turns depth leaf hturns
    · rintro other ⟨_, hother⟩
      exact slot_unique hfree hzero hroot hne hp hleaf hother ⟨turns, hturns⟩
  · intro slot leaf level hlt hlevel
    rw [Nat.shiftRight_eq_div_pow]
    exact slot_ne_nodeSeed hfree hzero hroot hne hp hlt.le hlevel (Or.inl hlt) slot
  · intro slot level hlevel
    rw [Nat.shiftRight_eq_div_pow]
    exact slot_ne_nodeSeed hfree hzero hroot hne hp le_rfl hlevel.le (Or.inr hlevel) slot

/-- The cover at period 5 of a lifetime of 8 periods. -/
theorem retained_seeds_cover_witness :
    {leaf | leaf < 2 ^ 3 ∧ Obtainable FreeSeed.child (advanceTimes FreeSeed.child 5
        (evTreeInit FreeSeed.child (.ofDepth 3) (FreeSeed.root ()))).2
      (nodeSeed FreeSeed.child (FreeSeed.root ()) 3 leaf)} = {leaf | 5 ≤ leaf ∧ leaf < 2 ^ 3} :=
  (retained_seeds_cover () (by decide : 3 ≤ evMaxDepth) (by decide : 5 < 2 ^ 3)).1

end EvMlDsa
