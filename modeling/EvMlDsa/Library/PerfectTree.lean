import Mathlib.Data.Nat.Bitwise
import Mathlib.Tactic

/-!
# Addresses in a perfect binary tree

A node of a perfect binary tree is a level and an index within the level; the turns from the root
to it are the bits of the index, most significant first (`msbBits`). A labelling that gives every
child a value computed from its parent labels the whole tree from the root (`nodeLabel`), and the
label of a child is the child operation on the label of its parent (`nodeLabel_succ`,
`nodeLabel_double`, `nodeLabel_double_add_one`).

Counting up by one changes an index exactly on the levels below the branch point
(`succ_div_two_pow_eq_iff`). The frontier of a leaf `p` is the leaf itself with the right sibling
of every path node that is a left child (`FrontierNode`); `frontier_covers_iff` and
`sibling_cover_unique` are its purpose: the subtrees below it hold the leaves from `p` on, each
of them once.

Every inner node has a leftmost leaf. Going through the leaves in order, with the nodes that start
at each (`nodesStartingAt`), meets every inner node once (`nodup_flatMap_nodesStartingAt`,
`mem_flatMap_nodesStartingAt`).

Two leaves with the same label come from a collision of the child operation
(`exists_coinciding_children`). When the operation is free (`FreeChild`), a node label determines
the node, and a label is reachable from another one exactly when the node lies below it
(`reachable_nodeLabel_iff`).
-/

set_option autoImplicit false
set_option relaxedAutoImplicit false

namespace Library.PerfectTree

/-! ### Turns of a node -/

/-- The lowest `level` bits of `index`, most significant first. -/
def msbBits (level index : ℕ) : List Bool :=
  (List.range level).map fun j ↦ index.testBit (level - 1 - j)

@[simp] theorem msbBits_zero (index : ℕ) : msbBits 0 index = [] := rfl

@[simp] theorem length_msbBits (level index : ℕ) : (msbBits level index).length = level := by
  simp [msbBits]

/-- The last turn is the lowest bit, the turns before it those of the parent. -/
theorem msbBits_succ (level index : ℕ) :
    msbBits (level + 1) index = msbBits level (index / 2) ++ [index.testBit 0] := by
  unfold msbBits
  rw [List.range_succ, List.map_append, List.map_singleton]
  congr 1
  · refine List.map_congr_left fun j hj ↦ ?_
    have hlt : j < level := List.mem_range.mp hj
    have hindex : level + 1 - 1 - j = (level - 1 - j) + 1 := by omega
    rw [hindex, Nat.testBit_succ]
  · simp

/-- The turns above a node, followed by the turns of a node in its subtree. -/
theorem msbBits_add (level extra index : ℕ) :
    msbBits (level + extra) index = msbBits level (index / 2 ^ extra) ++ msbBits extra index := by
  induction extra generalizing index with
  | zero => simp
  | succ extra ih =>
    have hdiv : index / 2 ^ (extra + 1) = index / 2 / 2 ^ extra := by
      rw [Nat.div_div_eq_div_mul, pow_succ']
    rw [← Nat.add_assoc, msbBits_succ, ih, msbBits_succ, hdiv, List.append_assoc]

theorem msbBits_injective {level first second : ℕ} (hfirst : first < 2 ^ level)
    (hsecond : second < 2 ^ level) (h : msbBits level first = msbBits level second) :
    first = second := by
  induction level generalizing first second with
  | zero => simp at hfirst hsecond; omega
  | succ level ih =>
    rw [msbBits_succ, msbBits_succ] at h
    have hparts := List.append_inj h (by simp)
    have hhalf := ih (by omega) (by omega) hparts.1
    have hlow : first % 2 = second % 2 := by
      have hbit : first.testBit 0 = second.testBit 0 := by simpa using hparts.2
      rw [Nat.testBit_zero, Nat.testBit_zero, decide_eq_decide] at hbit
      omega
    omega

/-- The turns of a node start those of a leaf exactly when the leaf lies in its subtree. -/
theorem msbBits_append_eq_iff {depth level index leaf : ℕ} (hindex : index < 2 ^ level)
    (hleaf : leaf < 2 ^ depth) :
    (∃ turns, msbBits level index ++ turns = msbBits depth leaf) ↔
      level ≤ depth ∧ leaf / 2 ^ (depth - level) = index := by
  constructor
  · rintro ⟨turns, hturns⟩
    have hlevel : level ≤ depth := by
      have hlength := congrArg List.length hturns
      simp only [List.length_append, length_msbBits] at hlength
      omega
    refine ⟨hlevel, ?_⟩
    have hsplit := msbBits_add level (depth - level) leaf
    rw [Nat.add_sub_cancel' hlevel] at hsplit
    rw [hsplit] at hturns
    have hhead := (List.append_inj hturns (by simp)).1
    refine (msbBits_injective hindex ?_ hhead).symm
    rw [Nat.div_lt_iff_lt_mul (by positivity), ← pow_add, Nat.add_sub_cancel' hlevel]
    exact hleaf
  · rintro ⟨hlevel, rfl⟩
    refine ⟨msbBits (depth - level) leaf, ?_⟩
    rw [← msbBits_add, Nat.add_sub_cancel' hlevel]

/-! ### Labels computed from the root -/

section Labels

variable {Label : Type*} (child : Label → Bool → Label)

/-- The label reached from `root` by a word of turns. -/
def descend (root : Label) (turns : List Bool) : Label :=
  turns.foldl child root

theorem descend_append (root : Label) (first second : List Bool) :
    descend child root (first ++ second) = descend child (descend child root first) second :=
  List.foldl_append

/-- The label of the node with a given level and index. -/
def nodeLabel (root : Label) (level index : ℕ) : Label :=
  descend child root (msbBits level index)

theorem nodeLabel_succ (root : Label) (level index : ℕ) :
    nodeLabel child root (level + 1) index =
      child (nodeLabel child root level (index / 2)) (index.testBit 0) := by
  unfold nodeLabel
  rw [msbBits_succ, descend_append]
  rfl

theorem nodeLabel_double (root : Label) (level index : ℕ) :
    nodeLabel child root (level + 1) (2 * index) =
      child (nodeLabel child root level index) false := by
  rw [nodeLabel_succ]
  simp [Nat.testBit_zero]

theorem nodeLabel_double_add_one (root : Label) (level index : ℕ) :
    nodeLabel child root (level + 1) (2 * index + 1) =
      child (nodeLabel child root level index) true := by
  rw [nodeLabel_succ]
  have hhalf : (2 * index + 1) / 2 = index := by omega
  simp [Nat.testBit_zero, hhalf]

end Labels

/-! ### Counting up -/

/-- Shifting out `k` bits hides the step from `p` to `p + 1` unless all `k` bits carry. -/
theorem succ_div_two_pow_eq_iff (p k : ℕ) : p / 2 ^ k = (p + 1) / 2 ^ k ↔ ¬ 2 ^ k ∣ p + 1 := by
  rw [Nat.succ_div]
  split_ifs with hdvd <;> simp [hdvd]

theorem succ_div_two_pow_of_dvd {p k : ℕ} (h : 2 ^ k ∣ p + 1) :
    (p + 1) / 2 ^ k = p / 2 ^ k + 1 := by
  rw [Nat.succ_div, if_pos h]

/-- The step to `p + 1` keeps the bits above the carry. -/
theorem testBit_succ_of_not_dvd {p k : ℕ} (h : ¬ 2 ^ k ∣ p + 1) :
    (p + 1).testBit k = p.testBit k := by
  rw [Nat.testBit_eq_decide_div_mod_eq, Nat.testBit_eq_decide_div_mod_eq,
    (succ_div_two_pow_eq_iff p k).mpr h]

/-- A carry out of the low `k` bits leaves them clear. -/
theorem testBit_false_of_dvd {q k j : ℕ} (hdvd : 2 ^ k ∣ q) (hj : j < k) :
    q.testBit j = false := by
  obtain ⟨c, rfl⟩ := hdvd
  rw [Nat.testBit_two_pow_mul]
  simp [hj]

/-- The bit a carry ends at is set after the step. -/
theorem testBit_true_of_carry {q k : ℕ} (hdvd : 2 ^ k ∣ q) (hndvd : ¬ 2 ^ (k + 1) ∣ q) :
    q.testBit k = true := by
  obtain ⟨c, rfl⟩ := hdvd
  rw [pow_succ, Nat.mul_dvd_mul_iff_left (by positivity)] at hndvd
  rw [Nat.testBit_two_pow_mul]
  simp only [Nat.sub_self, ge_iff_le, le_refl, decide_true, Bool.true_and, Nat.testBit_zero,
    decide_eq_true_eq]
  omega

/-- The bit a carry ends at is clear before the step. -/
theorem testBit_false_of_carry {p k : ℕ} (hdvd : 2 ^ k ∣ p + 1) (hndvd : ¬ 2 ^ (k + 1) ∣ p + 1) :
    p.testBit k = false := by
  have hset := testBit_true_of_carry hdvd hndvd
  rw [Nat.testBit_eq_decide_div_mod_eq, succ_div_two_pow_of_dvd hdvd, decide_eq_true_eq] at hset
  rw [Nat.testBit_eq_decide_div_mod_eq, decide_eq_false_iff_not]
  omega

/-- The left turns of `p + 1`: all of them below the branch point, and above it those of `p`. -/
theorem leftTurn_succ_iff {depth p k level : ℕ} (hk : k < depth) (hdvd : 2 ^ k ∣ p + 1)
    (hndvd : ¬ 2 ^ (k + 1) ∣ p + 1) :
    (level < depth ∧ (p + 1).testBit (depth - 1 - level) = false) ↔
      (depth - k ≤ level ∧ level < depth) ∨
        (level < depth - 1 - k ∧ p.testBit (depth - 1 - level) = false) := by
  rcases lt_trichotomy level (depth - 1 - k) with habove | rfl | hbelow
  · have hkeep : ¬ 2 ^ (depth - 1 - level) ∣ p + 1 := fun h ↦
      hndvd ((pow_dvd_pow 2 (by omega)).trans h)
    rw [testBit_succ_of_not_dvd hkeep]
    constructor
    · exact fun h ↦ Or.inr ⟨habove, h.2⟩
    · rintro (h | h)
      · omega
      · exact ⟨by omega, h.2⟩
  · have hheight : depth - 1 - (depth - 1 - k) = k := by omega
    rw [hheight, testBit_true_of_carry hdvd hndvd]
    simp only [Bool.true_eq_false, and_false, lt_self_iff_false, false_and, or_false, false_iff]
    omega
  · constructor
    · exact fun h ↦ Or.inl ⟨by omega, h.1⟩
    · rintro (h | h)
      · exact ⟨h.2, testBit_false_of_dvd hdvd (by omega)⟩
      · omega

/-- Below the branch point the sibling next to the new path continues the shifted index. -/
theorem div_two_pow_of_dvd {q k level depth : ℕ} (hk : k ≤ depth) (hdvd : 2 ^ k ∣ q)
    (hbelow : depth - k ≤ level) (hlevel : level < depth) :
    q / 2 ^ (depth - 1 - level) = 2 * (q / 2 ^ k * 2 ^ (level - (depth - k))) := by
  obtain ⟨c, rfl⟩ := hdvd
  obtain ⟨extra, hextra⟩ := Nat.exists_eq_add_of_le hbelow
  have hsplit : k = (depth - 1 - level) + (1 + extra) := by omega
  have hextra' : level - (depth - k) = extra := by omega
  rw [Nat.mul_div_cancel_left _ (by positivity), hextra', hsplit, pow_add, Nat.mul_assoc,
    Nat.mul_div_cancel_left _ (by positivity), pow_add]
  ring

/-! ### The frontier of a leaf -/

/-- The nodes retained for the leaves from `p` on: the leaf `p` itself, and next to every path
node that is a left child its right sibling. -/
inductive FrontierNode (depth p : ℕ) : ℕ → ℕ → Prop
  | leaf : FrontierNode depth p depth p
  | sibling {level : ℕ} (hlevel : level < depth) (hleft : p.testBit (depth - 1 - level) = false) :
    FrontierNode depth p (level + 1) (p / 2 ^ (depth - 1 - level) + 1)

theorem FrontierNode.index_lt {depth p level index : ℕ} (hp : p < 2 ^ depth)
    (hnode : FrontierNode depth p level index) : index < 2 ^ level := by
  cases hnode with
  | leaf => exact hp
  | @sibling parent hlevel hleft =>
    have hquot : p / 2 ^ (depth - 1 - parent) < 2 ^ (parent + 1) := by
      rw [Nat.div_lt_iff_lt_mul (by positivity), ← pow_add]
      have hexp : parent + 1 + (depth - 1 - parent) = depth := by omega
      rwa [hexp]
    rw [Nat.testBit_eq_decide_div_mod_eq, decide_eq_false_iff_not] at hleft
    rw [pow_succ] at hquot ⊢
    omega

/-- The leaf lies in the subtree of the node. -/
def Covers (depth level index leaf : ℕ) : Prop :=
  level ≤ depth ∧ leaf / 2 ^ (depth - level) = index

theorem sibling_covers_iff {depth p level leaf : ℕ} (hlevel : level < depth) :
    Covers depth (level + 1) (p / 2 ^ (depth - 1 - level) + 1) leaf ↔
      leaf / 2 ^ (depth - 1 - level) = p / 2 ^ (depth - 1 - level) + 1 := by
  have hheight : depth - (level + 1) = depth - 1 - level := by omega
  simp only [Covers, hheight, and_iff_right_iff_imp]
  intro _
  omega

theorem lt_of_sibling_covers {depth p level leaf : ℕ} (hlevel : level < depth)
    (hcover : Covers depth (level + 1) (p / 2 ^ (depth - 1 - level) + 1) leaf) : p < leaf := by
  rw [sibling_covers_iff hlevel] at hcover
  by_contra hle
  have hmono : leaf / 2 ^ (depth - 1 - level) ≤ p / 2 ^ (depth - 1 - level) :=
    Nat.div_le_div_right (Nat.le_of_not_lt hle)
  omega

theorem leaf_covers_iff {depth p leaf : ℕ} : Covers depth depth p leaf ↔ leaf = p := by
  simp [Covers]

/-- Nothing before `p` lies below the frontier of `p`. -/
theorem le_of_frontier_covers {depth p level index leaf : ℕ}
    (hnode : FrontierNode depth p level index) (hcover : Covers depth level index leaf) :
    p ≤ leaf := by
  cases hnode with
  | leaf => exact (leaf_covers_iff.mp hcover).ge
  | sibling hlevel _ => exact (lt_of_sibling_covers hlevel hcover).le

/-- A frontier node above the leaf `p` is that leaf. -/
theorem eq_leaf_of_frontier_covers_self {depth p level index : ℕ}
    (hnode : FrontierNode depth p level index) (hcover : Covers depth level index p) :
    level = depth := by
  cases hnode with
  | leaf => rfl
  | sibling hlevel _ => exact absurd (lt_of_sibling_covers hlevel hcover) (lt_irrefl p)

/-- Two leaves of a tree part ways at one level: there their indices differ by one, and the
smaller of the two turns left. -/
theorem exists_parting {depth p leaf : ℕ} (hlt : p < leaf) (hleaf : leaf < 2 ^ depth) :
    ∃ k < depth, p.testBit k = false ∧ leaf / 2 ^ k = p / 2 ^ k + 1 := by
  induction depth generalizing p leaf with
  | zero => simp at hleaf; omega
  | succ depth ih =>
    rcases Nat.lt_or_ge (p / 2) (leaf / 2) with hhalf | hhalf
    · obtain ⟨k, hk, hbit, hdiv⟩ := ih hhalf (by rw [pow_succ] at hleaf; omega)
      refine ⟨k + 1, by omega, by rwa [Nat.testBit_succ], ?_⟩
      have hstep (n : ℕ) : n / 2 ^ (k + 1) = n / 2 / 2 ^ k := by
        rw [Nat.div_div_eq_div_mul, pow_succ']
      rw [hstep, hstep, hdiv]
    · refine ⟨0, by omega, ?_, ?_⟩
      · rw [Nat.testBit_zero, decide_eq_false_iff_not]
        omega
      · simp only [pow_zero, Nat.div_one]
        omega

/-- Every leaf from `p` on lies below the frontier of `p`. -/
theorem exists_frontier_covers {depth p leaf : ℕ} (hle : p ≤ leaf) (hleaf : leaf < 2 ^ depth) :
    ∃ level index, FrontierNode depth p level index ∧ Covers depth level index leaf := by
  rcases hle.eq_or_lt with rfl | hlt
  · exact ⟨depth, p, .leaf, leaf_covers_iff.mpr rfl⟩
  · obtain ⟨k, hk, hbit, hdiv⟩ := exists_parting hlt hleaf
    have hheight : depth - 1 - (depth - 1 - k) = k := by omega
    refine ⟨depth - 1 - k + 1, p / 2 ^ (depth - 1 - (depth - 1 - k)) + 1,
      .sibling (by omega) (by rwa [hheight]), ?_⟩
    rw [sibling_covers_iff (by omega), hheight]
    exact hdiv

/-- The leaves below the frontier of `p` are those from `p` on. -/
theorem frontier_covers_iff {depth p leaf : ℕ} (hleaf : leaf < 2 ^ depth) :
    (∃ level index, FrontierNode depth p level index ∧ Covers depth level index leaf) ↔
      p ≤ leaf :=
  ⟨fun ⟨_, _, hnode, hcover⟩ ↦ le_of_frontier_covers hnode hcover,
    fun hle ↦ exists_frontier_covers hle hleaf⟩

/-- A leaf lies below at most one retained sibling. -/
theorem sibling_cover_unique {depth p leaf first second : ℕ} (hfirst : first < depth)
    (hsecond : second < depth) (hleft : p.testBit (depth - 1 - second) = false)
    (hcoverFirst : Covers depth (first + 1) (p / 2 ^ (depth - 1 - first) + 1) leaf)
    (hcoverSecond : Covers depth (second + 1) (p / 2 ^ (depth - 1 - second) + 1) leaf) :
    second ≤ first := by
  by_contra hlt
  rw [sibling_covers_iff hfirst] at hcoverFirst
  rw [sibling_covers_iff hsecond] at hcoverSecond
  obtain ⟨gap, hgap⟩ : ∃ gap, depth - 1 - first = depth - 1 - second + 1 + gap :=
    ⟨depth - 1 - first - (depth - 1 - second + 1), by omega⟩
  have hparent : leaf / 2 ^ (depth - 1 - second + 1) = p / 2 ^ (depth - 1 - second + 1) := by
    rw [Nat.testBit_eq_decide_div_mod_eq, decide_eq_false_iff_not] at hleft
    rw [pow_succ, ← Nat.div_div_eq_div_mul, ← Nat.div_div_eq_div_mul, hcoverSecond]
    omega
  rw [hgap, pow_add, ← Nat.div_div_eq_div_mul, ← Nat.div_div_eq_div_mul, hparent] at hcoverFirst
  omega

/-! ### Level order -/

/-- The position of a node when the levels of the tree are laid out one after the other. -/
def levelOrder (level index : ℕ) : ℕ := 2 ^ level - 1 + index

theorem levelOrder_lt {depth level index : ℕ} (hlevel : level ≤ depth)
    (hindex : index < 2 ^ level) :
    levelOrder level index < 2 ^ (depth + 1) - 1 := by
  have hpow : 2 ^ (level + 1) ≤ 2 ^ (depth + 1) := Nat.pow_le_pow_right (by omega) (by omega)
  rw [pow_succ] at hpow
  unfold levelOrder
  omega

/-- Every position is that of a node. -/
theorem exists_levelOrder_eq {depth position : ℕ} (hposition : position < 2 ^ (depth + 1) - 1) :
    ∃ level index, level ≤ depth ∧ index < 2 ^ level ∧ levelOrder level index = position := by
  have hlow := Nat.pow_log_le_self 2 (Nat.succ_ne_zero position)
  have hhigh := Nat.lt_pow_succ_log_self (show 1 < 2 by decide) (position + 1)
  have hlevel : Nat.log 2 (position + 1) < depth + 1 :=
    Nat.log_lt_of_lt_pow (Nat.succ_ne_zero position) (by omega)
  rw [Nat.succ_eq_add_one] at hlow
  rw [pow_succ] at hhigh
  refine ⟨Nat.log 2 (position + 1), position + 1 - 2 ^ Nat.log 2 (position + 1), by omega, by omega,
    ?_⟩
  have hpos : 0 < 2 ^ Nat.log 2 (position + 1) := by positivity
  unfold levelOrder
  omega

/-- The levels do not overlap. -/
theorem levelOrder_injective {level index level' index' : ℕ} (hindex : index < 2 ^ level)
    (hindex' : index' < 2 ^ level') (h : levelOrder level index = levelOrder level' index') :
    level = level' ∧ index = index' := by
  unfold levelOrder at h
  have hsame : level = level' := by
    by_contra hne
    rcases Nat.lt_or_gt_of_ne hne with hlt | hgt
    · have hpow : 2 ^ (level + 1) ≤ 2 ^ level' := Nat.pow_le_pow_right (by omega) hlt
      rw [pow_succ] at hpow
      omega
    · have hpow : 2 ^ (level' + 1) ≤ 2 ^ level := Nat.pow_le_pow_right (by omega) hgt
      rw [pow_succ] at hpow
      omega
  subst hsame
  exact ⟨rfl, by omega⟩

/-! ### Nodes by their first leaf -/

/-- The inner nodes whose leftmost leaf is `leaf`, from the top down. -/
def nodesStartingAt (depth leaf : ℕ) : List (ℕ × ℕ) :=
  ((List.range depth).filter fun level ↦ 2 ^ (depth - level) ∣ leaf).map fun level ↦
    (level, leaf / 2 ^ (depth - level))

theorem mem_nodesStartingAt {depth leaf level index : ℕ} :
    (level, index) ∈ nodesStartingAt depth leaf ↔
      level < depth ∧ index * 2 ^ (depth - level) = leaf := by
  simp only [nodesStartingAt, List.mem_map, List.mem_filter, List.mem_range, decide_eq_true_eq,
    Prod.mk.injEq]
  constructor
  · rintro ⟨_, ⟨hlevel, hdvd⟩, rfl, rfl⟩
    exact ⟨hlevel, Nat.div_mul_cancel hdvd⟩
  · rintro ⟨hlevel, rfl⟩
    exact ⟨level, ⟨hlevel, dvd_mul_left _ _⟩, rfl, Nat.mul_div_cancel _ (by positivity)⟩

/-- The nodes that start at the leaf a carry leads to are those of the levels below its branch
point. -/
theorem nodesStartingAt_of_carry {depth k leaf : ℕ} (hk : k ≤ depth) (hdvd : 2 ^ k ∣ leaf)
    (hmax : k = depth ∨ ¬ 2 ^ (k + 1) ∣ leaf) :
    nodesStartingAt depth leaf = (List.range' (depth - k) k).map fun level ↦
      (level, leaf / 2 ^ k * 2 ^ (level - (depth - k))) := by
  have hsplit : List.range depth = List.range (depth - k) ++ List.range' (depth - k) k := by
    have happend : List.range' 0 (depth - k) ++ List.range' (0 + (depth - k)) k =
        List.range' 0 (depth - k + k) := List.range'_append_1
    rw [Nat.zero_add, Nat.sub_add_cancel hk] at happend
    rw [List.range_eq_range', List.range_eq_range', happend]
  have habove : (List.range (depth - k)).filter
      (fun level ↦ decide (2 ^ (depth - level) ∣ leaf)) = [] := by
    refine List.filter_eq_nil_iff.mpr fun level hlevel ↦ ?_
    have hlt : level < depth - k := List.mem_range.mp hlevel
    rw [decide_eq_true_eq]
    intro hstarts
    rcases hmax with rfl | hndvd
    · omega
    · exact hndvd ((pow_dvd_pow 2 (by omega)).trans hstarts)
  have hbelow : (List.range' (depth - k) k).filter
      (fun level ↦ decide (2 ^ (depth - level) ∣ leaf)) = List.range' (depth - k) k := by
    refine List.filter_eq_self.mpr fun level hlevel ↦ ?_
    rw [List.mem_range'_1] at hlevel
    rw [decide_eq_true_eq]
    exact (pow_dvd_pow 2 (by omega)).trans hdvd
  unfold nodesStartingAt
  rw [hsplit, List.filter_append, habove, hbelow, List.nil_append]
  refine List.map_congr_left fun level hlevel ↦ ?_
  rw [List.mem_range'_1] at hlevel
  obtain ⟨extra, hextra⟩ := Nat.exists_eq_add_of_le hlevel.1
  have hheight : k = (depth - level) + extra := by omega
  have hextra' : level - (depth - k) = extra := by omega
  obtain ⟨c, rfl⟩ := hdvd
  rw [hextra', Nat.mul_div_cancel_left _ (by positivity)]
  nth_rewrite 1 [hheight]
  rw [pow_add, Nat.mul_assoc, Nat.mul_div_cancel_left _ (by positivity), Nat.mul_comm]

theorem nodup_nodesStartingAt (depth leaf : ℕ) : (nodesStartingAt depth leaf).Nodup := by
  refine (List.nodup_range.filter _).map ?_
  intro level level' h
  exact congrArg Prod.fst h

/-- Over all leaves every inner node comes up once. -/
theorem nodup_flatMap_nodesStartingAt (depth n : ℕ) :
    ((List.range n).flatMap (nodesStartingAt depth)).Nodup := by
  rw [List.nodup_flatMap]
  refine ⟨fun leaf _ ↦ nodup_nodesStartingAt depth leaf, ?_⟩
  refine List.nodup_range.imp fun {leaf leaf'} hne ↦ ?_
  rintro ⟨level, index⟩ hnode hnode'
  exact hne ((mem_nodesStartingAt.mp hnode).2.symm.trans (mem_nodesStartingAt.mp hnode').2)

/-- The first leaf of a node is a leaf of the tree exactly when the node is one of its level. -/
theorem firstLeaf_lt_iff {depth level index : ℕ} (hlevel : level ≤ depth) :
    index * 2 ^ (depth - level) < 2 ^ depth ↔ index < 2 ^ level := by
  have hsplit : 2 ^ depth = 2 ^ level * 2 ^ (depth - level) := by
    rw [← pow_add, Nat.add_sub_cancel' hlevel]
  rw [hsplit, Nat.mul_lt_mul_right (by positivity)]

/-- A node starts at a leaf of the tree exactly when it is an inner node. -/
theorem mem_flatMap_nodesStartingAt {depth level index : ℕ} :
    (level, index) ∈ (List.range (2 ^ depth)).flatMap (nodesStartingAt depth) ↔
      level < depth ∧ index < 2 ^ level := by
  simp only [List.mem_flatMap, List.mem_range, mem_nodesStartingAt]
  constructor
  · rintro ⟨_, hleaf, hlevel, rfl⟩
    exact ⟨hlevel, (firstLeaf_lt_iff hlevel.le).mp hleaf⟩
  · rintro ⟨hlevel, hindex⟩
    exact ⟨_, (firstLeaf_lt_iff hlevel.le).mpr hindex, hlevel, rfl⟩

/-- A perfect tree has one inner node less than it has leaves. -/
theorem length_flatMap_nodesStartingAt (depth : ℕ) :
    ((List.range (2 ^ depth)).flatMap (nodesStartingAt depth)).length = 2 ^ depth - 1 := by
  let nodes := (List.range (2 ^ depth)).flatMap (nodesStartingAt depth)
  have hinner {node : ℕ × ℕ} (hnode : node ∈ nodes) : node.1 < depth ∧ node.2 < 2 ^ node.1 :=
    mem_flatMap_nodesStartingAt.mp hnode
  have hnodup : (nodes.map fun node ↦ levelOrder node.1 node.2).Nodup := by
    refine (nodup_flatMap_nodesStartingAt depth _).map_on fun node hnode node' hnode' h ↦ ?_
    exact Prod.ext_iff.mpr (levelOrder_injective (hinner hnode).2 (hinner hnode').2 h)
  have hperm : (nodes.map fun node ↦ levelOrder node.1 node.2).Perm
      (List.range (2 ^ depth - 1)) := by
    rw [List.perm_ext_iff_of_nodup hnodup List.nodup_range]
    intro position
    rw [List.mem_map, List.mem_range]
    constructor
    · rintro ⟨node, hnode, rfl⟩
      obtain ⟨hlevel, hindex⟩ := hinner hnode
      have hlt := levelOrder_lt (Nat.le_sub_one_of_lt hlevel) hindex
      rwa [Nat.sub_add_cancel (by omega)] at hlt
    · intro hposition
      cases depth with
      | zero => simp at hposition
      | succ depth =>
        obtain ⟨level, index, hlevel, hindex, hat⟩ := exists_levelOrder_eq hposition
        exact ⟨(level, index), mem_flatMap_nodesStartingAt.mpr ⟨by omega, hindex⟩, hat⟩
  have hlength := hperm.length_eq
  rwa [List.length_map, List.length_range] at hlength

/-- No leaf after the first starts the whole tree. -/
theorem length_nodesStartingAt_le {depth leaf : ℕ} (hpos : 0 < leaf) (hleaf : leaf < 2 ^ depth) :
    (nodesStartingAt depth leaf).length ≤ depth - 1 := by
  unfold nodesStartingAt
  cases depth with
  | zero => simp
  | succ depth =>
    have hroot : ¬ 2 ^ (depth + 1 - 0) ∣ leaf := fun h ↦
      absurd (Nat.le_of_dvd hpos h) (by rw [Nat.sub_zero]; omega)
    rw [List.length_map, List.range_succ_eq_map, List.filter_cons_of_neg (by simpa using hroot)]
    refine (List.length_filter_le _ _).trans ?_
    simp

/-! ### Labels that coincide -/

/-- If two leaves have the same label, their descents part at inputs of the child operation that are
different and have the same child. -/
theorem exists_coinciding_children {Label : Type*} {child : Label → Bool → Label} {root : Label}
    {depth first second : ℕ} (hfirst : first < 2 ^ depth) (hsecond : second < 2 ^ depth)
    (hne : first ≠ second)
    (h : nodeLabel child root depth first = nodeLabel child root depth second) :
    ∃ level < depth,
      let parent leaf := nodeLabel child root level (leaf / 2 ^ (depth - level))
      let turn (leaf : ℕ) := leaf.testBit (depth - 1 - level)
      (parent first, turn first) ≠ (parent second, turn second) ∧
        child (parent first) (turn first) = child (parent second) (turn second) := by
  induction depth generalizing first second with
  | zero =>
    rw [pow_zero] at hfirst hsecond
    omega
  | succ depth ih =>
    rw [nodeLabel_succ, nodeLabel_succ] at h
    by_cases hlast : (nodeLabel child root depth (first / 2), first.testBit 0) =
        (nodeLabel child root depth (second / 2), second.testBit 0)
    · obtain ⟨hlabel, hbit⟩ := Prod.ext_iff.mp hlast
      have hhalf : first / 2 ≠ second / 2 := by
        intro hhalf
        simp only [Nat.testBit_zero, decide_eq_decide] at hbit
        omega
      rw [pow_succ] at hfirst hsecond
      obtain ⟨level, hlevel, hdiffer, hchild⟩ := ih (by omega) (by omega) hhalf hlabel
      refine ⟨level, by omega, ?_⟩
      have hdiv (leaf : ℕ) : leaf / 2 ^ (depth + 1 - level) = leaf / 2 / 2 ^ (depth - level) := by
        rw [Nat.succ_sub hlevel.le, pow_succ', Nat.div_div_eq_div_mul]
      have hturn (leaf : ℕ) :
          leaf.testBit (depth + 1 - 1 - level) = (leaf / 2).testBit (depth - 1 - level) := by
        rw [← Nat.testBit_succ]
        congr 1
        omega
      simp only [hdiv, hturn]
      exact ⟨hdiffer, hchild⟩
    · refine ⟨depth, Nat.lt_succ_self _, ?_⟩
      simp only [Nat.add_sub_cancel_left, Nat.add_sub_cancel, Nat.sub_self, pow_one]
      exact ⟨hlast, h⟩

/-! ### Free labellings -/

section Free

variable {Label : Type*} {child : Label → Bool → Label}

/-- A label that is no child of another one. -/
def Underived (child : Label → Bool → Label) (label : Label) : Prop :=
  ∀ parent turn, child parent turn ≠ label

/-- The child operation is a free constructor: a child determines its parent and its side. -/
def FreeChild (child : Label → Bool → Label) : Prop :=
  ∀ first second turn turn', child first turn = child second turn' → first = second ∧ turn = turn'

/-- Under a free child operation, two descents from underived labels meet only when they are the
same descent. -/
theorem FreeChild.descend_injective (hfree : FreeChild child) {first second : Label}
    (hfirst : Underived child first) (hsecond : Underived child second) {turns turns' : List Bool}
    (h : descend child first turns = descend child second turns') :
    first = second ∧ turns = turns' := by
  induction turns using List.reverseRecOn generalizing turns' with
  | nil =>
    rcases List.eq_nil_or_concat turns' with rfl | ⟨init, last, rfl⟩
    · exact ⟨h, rfl⟩
    · rw [List.concat_eq_append, descend_append] at h
      exact absurd h.symm (hfirst _ _)
  | append_singleton turns turn ih =>
    rcases List.eq_nil_or_concat turns' with rfl | ⟨init, last, rfl⟩
    · rw [descend_append] at h
      exact absurd h (hsecond _ _)
    · rw [List.concat_eq_append, descend_append, descend_append] at h
      obtain ⟨hparent, rfl⟩ := hfree _ _ _ _ h
      obtain ⟨hbase, rfl⟩ := ih hparent
      exact ⟨hbase, by simp⟩

/-- Labels of different nodes are different. -/
theorem FreeChild.nodeLabel_injective (hfree : FreeChild child) {root : Label}
    (hroot : Underived child root) {level index level' index' : ℕ} (hindex : index < 2 ^ level)
    (hindex' : index' < 2 ^ level')
    (h : nodeLabel child root level index = nodeLabel child root level' index') :
    level = level' ∧ index = index' := by
  have hturns := (hfree.descend_injective hroot hroot h).2
  have hlevel : level = level' := by simpa using congrArg List.length hturns
  subst hlevel
  exact ⟨rfl, msbBits_injective hindex hindex' hturns⟩

/-- A leaf label is reachable from a node label exactly when the leaf lies below the node. -/
theorem FreeChild.reachable_nodeLabel_iff (hfree : FreeChild child) {root : Label}
    (hroot : Underived child root) {depth level index leaf : ℕ} (hindex : index < 2 ^ level)
    (hleaf : leaf < 2 ^ depth) :
    (∃ turns, descend child (nodeLabel child root level index) turns =
        nodeLabel child root depth leaf) ↔ Covers depth level index leaf := by
  rw [Covers, ← msbBits_append_eq_iff hindex hleaf]
  refine exists_congr fun turns ↦ ?_
  rw [nodeLabel, ← descend_append]
  exact ⟨fun h ↦ (hfree.descend_injective hroot hroot h).2, fun h ↦ by rw [h, nodeLabel]⟩

end Free

end Library.PerfectTree
