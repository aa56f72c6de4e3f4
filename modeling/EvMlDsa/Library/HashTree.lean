import Mathlib.Data.Nat.Bitwise
import Mathlib.Tactic

/-!
# Hash trees over an abstract node hash

The tree hash of the `2 ^ height` leaves below a node (`treeHash`), which is the hash of the list of
these leaves (`listHash_eq_treeHash`), and the climb from a leaf to the root along the siblings of
its path, the side taken from the bits of the leaf index (`climb`).

`climb_honest` is completeness: along the siblings of the tree itself the climb computes the tree
hash. `climb_binding` is position binding without any assumption on the hash: two climbs at one
index that end in the same value start from the same digest with the same siblings, or two
different pairs hashed at one of their levels have the same hash (`Collides`).
-/

set_option autoImplicit false
set_option relaxedAutoImplicit false

namespace Library.HashTree

variable {Digest : Type*} (node : Digest → Digest → Digest)

/-! ### Tree hash and climb -/

/-- The hash of the subtree of a given height over the leaves
`index * 2 ^ height, …, (index + 1) * 2 ^ height - 1`. -/
def treeHash (leaves : ℕ → Digest) : (height index : ℕ) → Digest
  | 0, index => leaves index
  | height + 1, index =>
    node (treeHash leaves height (2 * index)) (treeHash leaves height (2 * index + 1))

theorem treeHash_succ (leaves : ℕ → Digest) (height index : ℕ) :
    treeHash node leaves (height + 1) index =
      node (treeHash node leaves height (2 * index))
        (treeHash node leaves height (2 * index + 1)) :=
  rfl

/-- The hash of a list of `2 ^ height` leaves, each half hashed on its own. -/
def listHash : ℕ → List Digest → Option Digest
  | 0, [leaf] => some leaf
  | 0, _ => none
  | height + 1, leaves => do
    let left ← listHash height (leaves.take (2 ^ height))
    let right ← listHash height (leaves.drop (2 ^ height))
    return node left right

/-- A list hashes to the tree hash of a node when it lists the leaves below that node. -/
theorem listHash_eq_treeHash (leaves : ℕ → Digest) {height index : ℕ} {segment : List Digest}
    (hlength : segment.length = 2 ^ height)
    (hsegment : ∀ j (hj : j < segment.length), segment[j] = leaves (index * 2 ^ height + j)) :
    listHash node height segment = some (treeHash node leaves height index) := by
  induction height generalizing index segment with
  | zero =>
    obtain ⟨leaf, rfl⟩ := List.length_eq_one_iff.mp hlength
    have hleaf := hsegment 0 (by simp)
    simp only [List.getElem_cons_zero, pow_zero, Nat.mul_one, Nat.add_zero] at hleaf
    rw [listHash, treeHash, hleaf]
  | succ height ih =>
    rw [pow_succ] at hlength
    have hleft : listHash node height (segment.take (2 ^ height)) =
        some (treeHash node leaves height (2 * index)) := by
      apply ih
      · rw [List.length_take]
        omega
      · intro j hj
        rw [List.getElem_take, hsegment, pow_succ]
        congr 1
        ring
    have hright : listHash node height (segment.drop (2 ^ height)) =
        some (treeHash node leaves height (2 * index + 1)) := by
      apply ih
      · rw [List.length_drop]
        omega
      · intro j hj
        rw [List.getElem_drop, hsegment, pow_succ]
        congr 1
        ring
    rw [listHash, hleft, hright, treeHash_succ]
    rfl

/-- The pair hashed above a node: the node on the side its index says. -/
def siblingPair (index : ℕ) (current sibling : Digest) : Digest × Digest :=
  if index % 2 = 1 then (sibling, current) else (current, sibling)

/-- The digest reached from a node of a given level by climbing to the root; `siblings level` is the
sibling of the path node at `level + 1`. -/
def climb (siblings : ℕ → Digest) : (level index : ℕ) → Digest → Digest
  | 0, _, current => current
  | level + 1, index, current =>
    let pair := siblingPair index current (siblings level)
    climb siblings level (index / 2) (node pair.1 pair.2)

/-- The pairs hashed by a climb, deepest first. -/
def climbPairs (siblings : ℕ → Digest) : (level index : ℕ) → Digest → List (Digest × Digest)
  | 0, _, _ => []
  | level + 1, index, current =>
    let pair := siblingPair index current (siblings level)
    pair :: climbPairs siblings level (index / 2) (node pair.1 pair.2)

theorem siblingPair_injective {index : ℕ} {current current' sibling sibling' : Digest}
    (h : siblingPair index current sibling = siblingPair index current' sibling') :
    current = current' ∧ sibling = sibling' := by
  unfold siblingPair at h
  split_ifs at h <;> simp_all

/-! ### Completeness -/

/-- The index next to `index` below the same parent. -/
def siblingIndex (index : ℕ) : ℕ := if index % 2 = 1 then index - 1 else index + 1

theorem siblingIndex_lt {index level : ℕ} (h : index < 2 ^ (level + 1)) :
    siblingIndex index < 2 ^ (level + 1) := by
  unfold siblingIndex
  rw [pow_succ] at h ⊢
  split_ifs <;> omega

theorem xor_one_eq_siblingIndex (index : ℕ) : index ^^^ 1 = siblingIndex index := by
  unfold siblingIndex
  split_ifs with hodd
  · exact Nat.xor_one_of_odd (Nat.odd_iff.mpr hodd)
  · exact Nat.xor_one_of_even (Nat.even_iff.mpr (by omega))

/-- A node and its sibling hash to their parent. -/
theorem node_siblingPair (leaves : ℕ → Digest) (height index : ℕ) :
    siblingPair index (treeHash node leaves height index)
        (treeHash node leaves height (siblingIndex index)) =
      (treeHash node leaves height (2 * (index / 2)),
        treeHash node leaves height (2 * (index / 2) + 1)) := by
  unfold siblingPair siblingIndex
  split_ifs with hodd
  · have hleft : index - 1 = 2 * (index / 2) := by omega
    have hright : index = 2 * (index / 2) + 1 := by omega
    rw [← hleft]
    nth_rewrite 2 [hright]
    rw [← hleft]
  · have hleft : index = 2 * (index / 2) := by omega
    rw [← hleft]

/-- Along the siblings of the tree, the climb from a node is the hash of the whole tree. -/
theorem climb_honest (leaves siblings : ℕ → Digest) {depth level index : ℕ} (hlevel : level ≤ depth)
    (hindex : index < 2 ^ level)
    (hsiblings : ∀ l < level, siblings l =
      treeHash node leaves (depth - (l + 1)) (siblingIndex (index / 2 ^ (level - (l + 1))))) :
    climb node siblings level index (treeHash node leaves (depth - level) index) =
      treeHash node leaves depth 0 := by
  induction level generalizing index with
  | zero =>
    have hzero : index = 0 := by simpa using hindex
    rw [climb, hzero, Nat.sub_zero]
  | succ level ih =>
    have hsibling := hsiblings level (by omega)
    simp only [Nat.sub_self, pow_zero, Nat.div_one] at hsibling
    have hparent : depth - level = depth - (level + 1) + 1 := by omega
    rw [climb, hsibling]
    simp only [node_siblingPair]
    rw [← treeHash_succ node, ← hparent]
    refine ih (by omega) (by rw [pow_succ] at hindex; omega) fun l hl ↦ ?_
    have hshift : level + 1 - (l + 1) = level - (l + 1) + 1 := by omega
    rw [hsiblings l (by omega), hshift, pow_succ', Nat.div_div_eq_div_mul]

/-- Along the siblings of the tree, a climb hashes sibling pairs of the tree only. -/
theorem mem_climbPairs_honest (leaves siblings : ℕ → Digest) {depth level index : ℕ}
    (hlevel : level ≤ depth) (hindex : index < 2 ^ level)
    (hsiblings : ∀ l < level, siblings l =
      treeHash node leaves (depth - (l + 1)) (siblingIndex (index / 2 ^ (level - (l + 1)))))
    {pair : Digest × Digest}
    (hpair : pair ∈
      climbPairs node siblings level index (treeHash node leaves (depth - level) index)) :
    ∃ l i, l < level ∧ i < 2 ^ l ∧
      pair = (treeHash node leaves (depth - (l + 1)) (2 * i),
        treeHash node leaves (depth - (l + 1)) (2 * i + 1)) := by
  induction level generalizing index with
  | zero => exact absurd hpair List.not_mem_nil
  | succ level ih =>
    have hsibling := hsiblings level (by omega)
    simp only [Nat.sub_self, pow_zero, Nat.div_one] at hsibling
    have hparent : depth - level = depth - (level + 1) + 1 := by omega
    have hhalf : index / 2 < 2 ^ level := by
      rw [pow_succ] at hindex
      omega
    rw [climbPairs, hsibling] at hpair
    simp only [node_siblingPair] at hpair
    rw [← treeHash_succ node, ← hparent] at hpair
    rcases List.mem_cons.mp hpair with rfl | hpair
    · exact ⟨level, index / 2, Nat.lt_succ_self _, hhalf, rfl⟩
    · obtain ⟨l, i, hl, hi, hpair⟩ := ih (by omega) hhalf (fun l hl ↦ by
        have hshift : level + 1 - (l + 1) = level - (l + 1) + 1 := by omega
        rw [hsiblings l (by omega), hshift, pow_succ', Nat.div_div_eq_div_mul]) hpair
      exact ⟨l, i, by omega, hi, hpair⟩

/-! ### Position binding -/

/-- Two lists of hashed pairs hold, at one position, different pairs with the same hash. -/
def Collides (first second : List (Digest × Digest)) : Prop :=
  ∃ pairs ∈ first.zip second, pairs.1 ≠ pairs.2 ∧
    node pairs.1.1 pairs.1.2 = node pairs.2.1 pairs.2.2

theorem Collides.cons {first second : List (Digest × Digest)} (h : Collides node first second)
    (pair pair' : Digest × Digest) : Collides node (pair :: first) (pair' :: second) := by
  obtain ⟨pairs, hmem, hne, heq⟩ := h
  exact ⟨pairs, List.mem_cons_of_mem _ hmem, hne, heq⟩

/-- Two climbs at one index with the same end agree everywhere or collide at one level. -/
theorem climb_binding (siblings siblings' : ℕ → Digest) {level index : ℕ}
    {current current' : Digest}
    (h : climb node siblings level index current = climb node siblings' level index current') :
    (current = current' ∧ ∀ l < level, siblings l = siblings' l) ∨
      Collides node (climbPairs node siblings level index current)
        (climbPairs node siblings' level index current') := by
  induction level generalizing index current current' with
  | zero => exact Or.inl ⟨h, fun l hl ↦ absurd hl (Nat.not_lt_zero l)⟩
  | succ level ih =>
    simp only [climb] at h
    simp only [climbPairs]
    rcases ih h with ⟨hhash, habove⟩ | hcollides
    · by_cases hpair : siblingPair index current (siblings level) =
        siblingPair index current' (siblings' level)
      · obtain ⟨hcurrent, hsibling⟩ := siblingPair_injective hpair
        refine Or.inl ⟨hcurrent, fun l hl ↦ ?_⟩
        rcases Nat.lt_succ_iff_lt_or_eq.mp hl with hlt | rfl
        · exact habove l hlt
        · exact hsibling
      · exact Or.inr ⟨(_, _), List.mem_cons_self, hpair, hhash⟩
    · exact Or.inr (hcollides.cons node _ _)

end Library.HashTree
