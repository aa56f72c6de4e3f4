import EvMlDsa.SeedTree
import EvMlDsa.Library.PerfectTree

/-!
# Reachable states of the seed tree

`nodeSeed` is the seed of a tree node: the descent from the root along the bits of its index.
`stateAt` is the whole state of a period, in closed form. `evTreeInit_eq` places the initial state,
`evTreeAdvance_stateAt` is the step and `evTreeAdvance_last` the refusal after the last period, and
`advanceTimes_evTreeInit` is every run. `evTree_reachable` reads the reachable states off slot by
slot.

The step follows the carry of `p + 1`: the scan stops at the level the carry reaches
(`exists_diffLevel_eq`), the frontier seed of that level starts the new path, and the descending
loop (`deriveDown_eq`) refills the levels below it.
-/

set_option autoImplicit false
set_option relaxedAutoImplicit false

namespace EvMlDsa

open Library.FixedArray Library.PerfectTree

/-! ### Seeds of the tree nodes -/

section NodeSeeds

variable {Seed : Type*} (evDeriveChild : Seed → UInt8 → Seed)

/-- The child seed on the side of a turn: left on a clear bit, right on a set one. -/
def seedChild (seed : Seed) (turn : Bool) : Seed :=
  evDeriveChild seed (if turn then evDomRight else evDomLeft)

/-- The seed of a tree node: the descent from the root along the bits of its index, most
significant first. -/
def nodeSeed (rootSeed : Seed) (level index : ℕ) : Seed :=
  nodeLabel (seedChild evDeriveChild) rootSeed level index

@[simp] theorem nodeSeed_zero (rootSeed : Seed) (index : ℕ) :
    nodeSeed evDeriveChild rootSeed 0 index = rootSeed := rfl

theorem evDeriveChild_left_nodeSeed (rootSeed : Seed) (level index : ℕ) :
    evDeriveChild (nodeSeed evDeriveChild rootSeed level index) evDomLeft =
      nodeSeed evDeriveChild rootSeed (level + 1) (2 * index) :=
  (nodeLabel_double (seedChild evDeriveChild) rootSeed level index).symm

theorem evDeriveChild_right_nodeSeed (rootSeed : Seed) (level index : ℕ) :
    evDeriveChild (nodeSeed evDeriveChild rootSeed level index) evDomRight =
      nodeSeed evDeriveChild rootSeed (level + 1) (2 * index + 1) :=
  (nodeLabel_double_add_one (seedChild evDeriveChild) rootSeed level index).symm

end NodeSeeds

/-! ### The branch level -/

theorem toNat_levelIndex {leaf depth level : ℕ} (hleaf : leaf < 2 ^ 32)
    (hdepth : depth ≤ evMaxDepth) (hlevel : level ≤ depth) :
    (levelIndex (UInt32.ofNat leaf) (UInt32.ofNat depth) (UInt32.ofNat level)).toNat =
      leaf / 2 ^ (depth - level) := by
  have hdepthNat := toNat_ofNat_of_le_evMaxDepth hdepth
  have hlevelNat := toNat_ofNat_of_le_evMaxDepth (hlevel.trans hdepth)
  have hle : UInt32.ofNat level ≤ UInt32.ofNat depth := by
    rw [UInt32.le_iff_toNat_le, hdepthNat, hlevelNat]
    exact hlevel
  have hshift : depth - level < 32 := by
    unfold evMaxDepth at hdepth
    omega
  rw [levelIndex, UInt32.toNat_shiftRight, UInt32.toNat_sub_of_le _ _ hle, hdepthNat, hlevelNat,
    UInt32.toNat_ofNat_of_lt' hleaf, Nat.mod_eq_of_lt hshift, Nat.shiftRight_eq_div_pow]

/-- The scan stops at the level reached by the carry of `p + 1`. -/
theorem exists_diffLevel_eq {depth p : ℕ} (hdepth : depth ≤ evMaxDepth) (hp : p + 1 < 2 ^ depth) :
    ∃ k < depth, 2 ^ k ∣ p + 1 ∧ ¬ 2 ^ (k + 1) ∣ p + 1 ∧
      diffLevel (UInt32.ofNat p) (UInt32.ofNat depth) = UInt32.ofNat (depth - k) := by
  have hbound := two_pow_le_of_le_evMaxDepth hdepth
  let k := padicValNat 2 (p + 1)
  have hdvd (j : ℕ) : 2 ^ j ∣ p + 1 ↔ j ≤ k := padicValNat_dvd_iff_le (by omega)
  have hk : k < depth :=
    (Nat.pow_lt_pow_iff_right (a := 2) (by omega)).mp
      (lt_of_le_of_lt (Nat.le_of_dvd (by omega) ((hdvd k).mpr le_rfl)) hp)
  refine ⟨k, hk, (hdvd k).mpr le_rfl, fun h ↦ absurd ((hdvd _).mp h) (by omega), ?_⟩
  have hdiffers (lvl : ℕ) (hlvl : lvl ≤ depth) :
      (levelIndex (UInt32.ofNat p) (UInt32.ofNat depth) (UInt32.ofNat lvl) !=
        levelIndex (UInt32.ofNat p + 1) (UInt32.ofNat depth) (UInt32.ofNat lvl)) = true ↔
      depth - lvl ≤ k := by
    have hsucc : UInt32.ofNat p + 1 = UInt32.ofNat (p + 1) := by simp
    rw [bne_iff_ne, ne_eq, ← UInt32.toNat_inj, hsucc, toNat_levelIndex (by omega) hdepth hlvl,
      toNat_levelIndex (by omega) hdepth hlvl, succ_div_two_pow_eq_iff, not_not, hdvd]
  have hfound : (List.range' 1 depth).find? (fun lvl ↦
      levelIndex (UInt32.ofNat p) (UInt32.ofNat depth) (UInt32.ofNat lvl) !=
        levelIndex (UInt32.ofNat p + 1) (UInt32.ofNat depth) (UInt32.ofNat lvl)) =
      some (depth - k) := by
    rw [List.find?_range'_eq_some]
    refine ⟨(hdiffers _ (by omega)).mpr (by omega), by simp only [List.mem_range'_1]; omega, ?_⟩
    intro lvl hone hlt
    rw [Bool.not_eq_true', ← Bool.not_eq_true, hdiffers lvl (by omega)]
    omega
  rw [diffLevel, toNat_ofNat_of_le_evMaxDepth hdepth, List.find?_map, Function.comp_def, hfound]
  rfl

/-! ### The descending loop -/

section Run

variable {Seed : Type*} [Zero Seed] (evDeriveChild : Seed → UInt8 → Seed)

/-- The descending loop from a path node at level `first` writes the leftmost leaf below the node
and the right siblings on the way, and zeroes the path in between. -/
theorem deriveDown_eq (rootSeed : Seed) (st : EvTreeState Seed) {first depth : ℕ}
    (index : ℕ) (hfirst : first ≤ depth) (hdepth : depth ≤ evMaxDepth)
    (hseed : st.path.getD first 0 = nodeSeed evDeriveChild rootSeed first index) :
    deriveDown evDeriveChild st first depth =
      { st with
        path := Vector.ofFn fun l ↦
          if l.val = depth then
            nodeSeed evDeriveChild rootSeed depth (index * 2 ^ (depth - first))
          else if first ≤ l.val ∧ l.val < depth then 0 else st.path[l]
        future := Vector.ofFn fun l ↦
          if first ≤ l.val ∧ l.val < depth then
            nodeSeed evDeriveChild rootSeed (l.val + 1) (2 * (index * 2 ^ (l.val - first)) + 1)
          else st.future[l]
        futureValid := Vector.ofFn fun l ↦
          if first ≤ l.val ∧ l.val < depth then 1 else st.futureValid[l] } := by
  obtain ⟨extra, rfl⟩ := Nat.exists_eq_add_of_le hfirst
  unfold deriveDown
  rw [Nat.add_sub_cancel_left]
  clear hfirst
  induction extra with
  | zero =>
    have hpath : st.path[first] = nodeSeed evDeriveChild rootSeed first index := by
      rw [← getD_eq_getElem st.path 0 (by omega), hseed]
    ext l hl
    · rfl
    · rfl
    · by_cases h : l = first
      · simp [h, hpath]
      · simp [h]
    · simp
    · simp
  | succ extra ih =>
    rw [List.range'_1_concat, List.foldl_append, ih (by omega), List.foldl_cons, List.foldl_nil]
    unfold deriveChildren
    have hnode : (Vector.ofFn fun l : Fin (evMaxDepth + 1) ↦
          if l.val = first + extra then
            nodeSeed evDeriveChild rootSeed (first + extra) (index * 2 ^ extra)
          else if first ≤ l.val ∧ l.val < first + extra then 0 else st.path[l]).getD
        (first + extra) 0 =
          nodeSeed evDeriveChild rootSeed (first + extra) (index * 2 ^ extra) := by
      rw [getD_eq_getElem _ 0 (by omega)]
      simp
    have hleft : 2 * (index * 2 ^ extra) = index * 2 ^ (extra + 1) := by ring
    simp only [hnode, evDeriveChild_left_nodeSeed, evDeriveChild_right_nodeSeed, hleft]
    ext l hl
    · rfl
    · rfl
    · simp only [Vector.getElem_setIfInBounds hl, Vector.getElem_ofFn]
      split_ifs <;> first | rfl | omega
    · simp only [Vector.getElem_setIfInBounds hl, Vector.getElem_ofFn]
      by_cases h : first + extra = l
      · subst h
        simp [← Nat.add_assoc, hleft]
      · split_ifs <;> first | rfl | omega
    · simp only [Vector.getElem_setIfInBounds hl, Vector.getElem_ofFn]
      split_ifs <;> first | rfl | omega

/-! ### The state of a period -/

/-- The signer's tree state at period `p`: the leaf seed at the end of the path, and the seeds of
the right siblings that cover later periods. -/
def stateAt (depth : ℕ) (rootSeed : Seed) (p : ℕ) : EvTreeState Seed where
  par := .ofDepth depth
  current := UInt32.ofNat p
  path := Vector.ofFn fun l ↦ if l.val = depth then nodeSeed evDeriveChild rootSeed depth p else 0
  future := Vector.ofFn fun l ↦
    if l.val < depth ∧ p.testBit (depth - 1 - l.val) = false then
      nodeSeed evDeriveChild rootSeed (l.val + 1) (p / 2 ^ (depth - 1 - l.val) + 1)
    else 0
  futureValid := Vector.ofFn fun l ↦
    if l.val < depth ∧ p.testBit (depth - 1 - l.val) = false then 1 else 0

@[simp] theorem stateAt_par (depth : ℕ) (rootSeed : Seed) (p : ℕ) :
    (stateAt evDeriveChild depth rootSeed p).par = .ofDepth depth := rfl

@[simp] theorem stateAt_current (depth : ℕ) (rootSeed : Seed) (p : ℕ) :
    (stateAt evDeriveChild depth rootSeed p).current = UInt32.ofNat p := rfl

theorem getElem_path_stateAt (depth : ℕ) (rootSeed : Seed) (p : ℕ) {l : ℕ}
    (hl : l < evMaxDepth + 1) :
    (stateAt evDeriveChild depth rootSeed p).path[l] =
      if l = depth then nodeSeed evDeriveChild rootSeed depth p else 0 := by
  simp [stateAt]

theorem getElem_future_stateAt (depth : ℕ) (rootSeed : Seed) (p : ℕ) {l : ℕ} (hl : l < evMaxDepth) :
    (stateAt evDeriveChild depth rootSeed p).future[l] =
      if l < depth ∧ p.testBit (depth - 1 - l) = false then
        nodeSeed evDeriveChild rootSeed (l + 1) (p / 2 ^ (depth - 1 - l) + 1)
      else 0 := by
  simp [stateAt]

theorem getElem_futureValid_stateAt (depth : ℕ) (rootSeed : Seed) (p : ℕ) {l : ℕ}
    (hl : l < evMaxDepth) :
    (stateAt evDeriveChild depth rootSeed p).futureValid[l] =
      if l < depth ∧ p.testBit (depth - 1 - l) = false then 1 else 0 := by
  simp [stateAt]

theorem evTreeInit_eq {depth : ℕ} (hdepth : depth ≤ evMaxDepth) (rootSeed : Seed) :
    evTreeInit evDeriveChild (.ofDepth depth) rootSeed =
      stateAt evDeriveChild depth rootSeed 0 := by
  unfold evTreeInit
  rw [toNat_ofDepth_depth hdepth]
  rw [deriveDown_eq evDeriveChild rootSeed _ 0 (Nat.zero_le depth) hdepth
    (by rw [getD_eq_getElem _ 0 (by omega)]; simp)]
  unfold stateAt
  ext l hl
  · rfl
  · rfl
  · simp only [Vector.getElem_ofFn, Nat.zero_mul]
    by_cases h : l = depth
    · simp [h]
    · by_cases hbelow : l < depth
      · simp [h, hbelow]
      · have hpos : l ≠ 0 := by omega
        simp [h, hbelow, Vector.getElem_setIfInBounds hl, hpos.symm]
  · simp
  · simp

theorem evTreeLeaf_stateAt {depth : ℕ} (hdepth : depth ≤ evMaxDepth) (rootSeed : Seed) (p : ℕ) :
    evTreeLeaf (stateAt evDeriveChild depth rootSeed p) =
      nodeSeed evDeriveChild rootSeed depth p := by
  rw [evTreeLeaf, stateAt_par, toNat_ofDepth_depth hdepth, getD_eq_getElem _ 0 (by omega)]
  simp [stateAt]

theorem evTreeAdvance_last {depth : ℕ} (st : EvTreeState Seed)
    (hpar : st.par = .ofDepth depth) (hcurrent : st.current = UInt32.ofNat (2 ^ depth - 1)) :
    evTreeAdvance evDeriveChild st = (-1, st) := by
  have hpos : 0 < 2 ^ depth := by positivity
  have hlast : st.par.T ≤ st.current + 1 := by
    have hsucc : UInt32.ofNat (2 ^ depth - 1) + 1 = UInt32.ofNat (2 ^ depth - 1 + 1) := by simp
    rw [hpar, hcurrent, hsucc, Nat.sub_add_cancel hpos]
    exact UInt32.le_refl _
  simp only [evTreeAdvance, if_pos hlast]

/-- A frontier slot after the carry of `p + 1`: written below the branch point, emptied next to it,
kept above it. -/
theorem slot_of_carry {α : Type*} {depth k p l : ℕ} {written kept next empty : α} (hk : k < depth)
    (hdvd : 2 ^ k ∣ p + 1) (hndvd : ¬ 2 ^ (k + 1) ∣ p + 1)
    (hwritten : depth - k ≤ l → l < depth → written = next)
    (hkept : l < depth - 1 - k → kept = next) :
    (if depth - k ≤ l ∧ l < depth then written
      else if depth - 1 - k = l then empty
      else if l < depth ∧ p.testBit (depth - 1 - l) = false then kept else empty) =
    if l < depth ∧ (p + 1).testBit (depth - 1 - l) = false then next else empty := by
  simp only [leftTurn_succ_iff hk hdvd hndvd]
  by_cases hbelow : depth - k ≤ l ∧ l < depth
  · rw [if_pos hbelow, if_pos (Or.inl hbelow), hwritten hbelow.1 hbelow.2]
  · rw [if_neg hbelow]
    by_cases hleft : l < depth - 1 - k ∧ p.testBit (depth - 1 - l) = false
    · rw [if_neg (by omega), if_pos ⟨by omega, hleft.2⟩, if_pos (Or.inr hleft), hkept hleft.1]
    · rw [if_neg (not_or.mpr ⟨hbelow, hleft⟩)]
      split_ifs with hslot hold
      · rfl
      · exact absurd ⟨by omega, hold.2⟩ hleft
      · rfl

/-- The level above the branch point. -/
theorem toNat_branchParent {depth k : ℕ} (hdepth : depth ≤ evMaxDepth) (hk : k < depth) :
    (UInt32.ofNat (depth - k) - 1).toNat = depth - 1 - k := by
  have hdiffNat := toNat_ofNat_of_le_evMaxDepth (show depth - k ≤ evMaxDepth by omega)
  have hone : (1 : UInt32) ≤ UInt32.ofNat (depth - k) := by
    rw [UInt32.le_iff_toNat_le, hdiffNat]
    exact (by omega : 1 ≤ depth - k)
  rw [UInt32.toNat_sub_of_le _ _ hone, hdiffNat]
  exact (by omega : depth - k - 1 = depth - 1 - k)

/-- What a call of `ev_tree_advance` finds before the last period: the level the carry of `p + 1`
reaches, and next to it an occupied frontier slot with the seed the new path starts from. -/
theorem exists_branch {depth p : ℕ} (hdepth : depth ≤ evMaxDepth) (rootSeed : Seed)
    (hp : p + 1 < 2 ^ depth) :
    ∃ k < depth, 2 ^ k ∣ p + 1 ∧ ¬ 2 ^ (k + 1) ∣ p + 1 ∧
      ¬ (EvParams.ofDepth depth).T ≤ UInt32.ofNat p + 1 ∧
      diffLevel (UInt32.ofNat p) (UInt32.ofNat depth) = UInt32.ofNat (depth - k) ∧
      ¬ (stateAt evDeriveChild depth rootSeed p).futureValid.getD (depth - 1 - k) 0 = 0 ∧
      (stateAt evDeriveChild depth rootSeed p).future.getD (depth - 1 - k) 0 =
        nodeSeed evDeriveChild rootSeed (depth - k) ((p + 1) / 2 ^ k) := by
  obtain ⟨k, hk, hdvd, hndvd, hdiff⟩ := exists_diffLevel_eq hdepth hp
  have hheight : depth - 1 - (depth - 1 - k) = k := by omega
  have hlevel : depth - 1 - k + 1 = depth - k := by omega
  have hbit := testBit_false_of_carry hdvd hndvd
  refine ⟨k, hk, hdvd, hndvd, ?_, hdiff, ?_, ?_⟩
  · have hsucc : UInt32.ofNat p + 1 = UInt32.ofNat (p + 1) := by simp
    rw [UInt32.le_iff_toNat_le, toNat_ofDepth_T hdepth, hsucc,
      toNat_ofNat_of_lt_two_pow hdepth hp]
    omega
  · rw [getD_eq_getElem _ 0 (by omega), getElem_futureValid_stateAt, hheight,
      if_pos ⟨by omega, hbit⟩]
    decide
  · rw [getD_eq_getElem _ 0 (by omega), getElem_future_stateAt, hheight, hlevel,
      if_pos ⟨by omega, hbit⟩, succ_div_two_pow_of_dvd hdvd]

/-- One call of `ev_tree_advance` moves the state of period `p` to that of period `p + 1`. -/
theorem evTreeAdvance_stateAt {depth p : ℕ} (hdepth : depth ≤ evMaxDepth) (rootSeed : Seed)
    (hp : p + 1 < 2 ^ depth) :
    evTreeAdvance evDeriveChild (stateAt evDeriveChild depth rootSeed p) =
      (0, stateAt evDeriveChild depth rootSeed (p + 1)) := by
  obtain ⟨k, hk, hdvd, hndvd, hmore, hdiff, hguard, hfuture⟩ :=
    exists_branch evDeriveChild hdepth rootSeed hp
  have hdiffNat := toNat_ofNat_of_le_evMaxDepth (show depth - k ≤ evMaxDepth by omega)
  have hindex : (p + 1) / 2 ^ k * 2 ^ k = p + 1 := Nat.div_mul_cancel hdvd
  unfold evTreeAdvance
  simp only [stateAt_par, stateAt_current, if_neg hmore, EvParams.ofDepth_depth, hdiff,
    toNat_branchParent hdepth hk, hdiffNat, if_neg hguard, hfuture,
    toNat_ofNat_of_le_evMaxDepth hdepth]
  rw [deriveDown_eq evDeriveChild rootSeed _ ((p + 1) / 2 ^ k) (by omega) hdepth
    (getD_fill_setIfInBounds _ _ _ _ (by omega))]
  have hlow : depth - (depth - k) = k := by omega
  simp only [hlow, hindex]
  refine Prod.ext rfl ?_
  ext l hl
  · rfl
  · simp
  · simp only [Vector.getElem_ofFn, getElem_path_stateAt]
    by_cases hleaf : l = depth
    · simp [hleaf]
    · simp only [if_neg hleaf, Fin.getElem_fin, getElem_fill, Vector.getElem_setIfInBounds hl,
        getElem_path_stateAt]
      split_ifs <;> first | rfl | omega
  · simp only [Vector.getElem_ofFn, Fin.getElem_fin, Vector.getElem_setIfInBounds hl,
      getElem_future_stateAt]
    apply slot_of_carry hk hdvd hndvd
    · intro hfirst hlast
      rw [div_two_pow_of_dvd hk.le hdvd hfirst hlast]
    · intro habove
      have hkeep : ¬ 2 ^ (depth - 1 - l) ∣ p + 1 := fun h ↦
        hndvd ((pow_dvd_pow 2 (by omega)).trans h)
      rw [(succ_div_two_pow_eq_iff _ _).mpr hkeep]
  · simp only [Vector.getElem_ofFn, Fin.getElem_fin, Vector.getElem_setIfInBounds hl,
      getElem_futureValid_stateAt]
    exact slot_of_carry hk hdvd hndvd (fun _ _ ↦ rfl) (fun _ ↦ rfl)

/-- Every state of a run: the call that would leave the last period is refused, and every later
one with it. -/
theorem advanceTimes_evTreeInit {depth : ℕ} (hdepth : depth ≤ evMaxDepth) (rootSeed : Seed)
    (n : ℕ) :
    advanceTimes evDeriveChild n (evTreeInit evDeriveChild (.ofDepth depth) rootSeed) =
      (List.replicate (min n (2 ^ depth - 1)) 0 ++ List.replicate (n - (2 ^ depth - 1)) (-1),
        stateAt evDeriveChild depth rootSeed (min n (2 ^ depth - 1))) := by
  have hpos : 0 < 2 ^ depth := by positivity
  induction n with
  | zero => simp [advanceTimes, evTreeInit_eq evDeriveChild hdepth]
  | succ n ih =>
    simp only [advanceTimes, ih]
    rcases Nat.lt_or_ge n (2 ^ depth - 1) with hlt | hge
    · have hrest : n + 1 - (2 ^ depth - 1) = 0 := by omega
      rw [Nat.min_eq_left hlt.le, Nat.min_eq_left (by omega : n + 1 ≤ 2 ^ depth - 1), hrest,
        evTreeAdvance_stateAt evDeriveChild hdepth rootSeed (by omega), List.replicate_succ',
        Nat.sub_eq_zero_of_le hlt.le]
      simp
    · have hrest : n + 1 - (2 ^ depth - 1) = n - (2 ^ depth - 1) + 1 := by omega
      rw [Nat.min_eq_right hge, Nat.min_eq_right (by omega : 2 ^ depth - 1 ≤ n + 1), hrest,
        evTreeAdvance_last evDeriveChild _ rfl rfl, List.replicate_succ', List.append_assoc]

/-- The state of period `p` is what `p` calls of `ev_tree_advance` lead to. -/
theorem advanceTimes_eq_stateAt {depth p : ℕ} (hdepth : depth ≤ evMaxDepth) (hp : p < 2 ^ depth)
    (rootSeed : Seed) :
    advanceTimes evDeriveChild p (evTreeInit evDeriveChild (.ofDepth depth) rootSeed) =
      (List.replicate p 0, stateAt evDeriveChild depth rootSeed p) := by
  rw [advanceTimes_evTreeInit evDeriveChild hdepth, Nat.min_eq_left (by omega),
    Nat.sub_eq_zero_of_le (by omega), List.replicate_zero, List.append_nil]

/-- The exact reachable states of the seed tree. After `p` successful calls the path holds the leaf
seed of period `p` and nothing else, the frontier holds the right siblings of the left turns of
`p` and nothing else, the corruption guard is never taken in any run, and the call after the last
period is refused with the state unchanged. -/
theorem evTree_reachable {depth p : ℕ} (hdepth : depth ≤ evMaxDepth) (hp : p < 2 ^ depth)
    (rootSeed : Seed) :
    let init := evTreeInit evDeriveChild (.ofDepth depth) rootSeed
    let st := (advanceTimes evDeriveChild p init).2
    (advanceTimes evDeriveChild p init).1 = List.replicate p 0 ∧
    st.par = .ofDepth depth ∧ st.current = UInt32.ofNat p ∧
    (∀ l (hl : l < evMaxDepth + 1),
      st.path[l] = if l = depth then nodeSeed evDeriveChild rootSeed depth p else 0) ∧
    (∀ l (hl : l < evMaxDepth), l < depth ∧ p.testBit (depth - 1 - l) = false →
      st.futureValid[l] = 1 ∧
        st.future[l] = nodeSeed evDeriveChild rootSeed (l + 1) ((p >>> (depth - 1 - l)) + 1)) ∧
    (∀ l (hl : l < evMaxDepth), ¬ (l < depth ∧ p.testBit (depth - 1 - l) = false) →
      st.futureValid[l] = 0 ∧ st.future[l] = 0) ∧
    (∀ n, -2 ∉ (advanceTimes evDeriveChild n init).1) ∧
    evTreeAdvance evDeriveChild (advanceTimes evDeriveChild (2 ^ depth - 1) init).2 =
      (-1, (advanceTimes evDeriveChild (2 ^ depth - 1) init).2) := by
  have hpos : 0 < 2 ^ depth := by positivity
  dsimp only
  rw [advanceTimes_eq_stateAt evDeriveChild hdepth hp,
    advanceTimes_eq_stateAt evDeriveChild hdepth (by omega : 2 ^ depth - 1 < 2 ^ depth)]
  refine ⟨rfl, rfl, rfl, fun l hl ↦ getElem_path_stateAt evDeriveChild depth rootSeed p hl, ?_, ?_,
    ?_, evTreeAdvance_last evDeriveChild _ rfl rfl⟩
  · intro l hl hleft
    rw [getElem_futureValid_stateAt, getElem_future_stateAt, if_pos hleft, if_pos hleft,
      Nat.shiftRight_eq_div_pow]
    exact ⟨rfl, rfl⟩
  · intro l hl hleft
    rw [getElem_futureValid_stateAt, getElem_future_stateAt, if_neg hleft, if_neg hleft]
    exact ⟨rfl, rfl⟩
  · intro n hmem
    rw [advanceTimes_evTreeInit evDeriveChild hdepth, List.mem_append, List.mem_replicate,
      List.mem_replicate] at hmem
    omega

end Run

/-- The reachable states at period 5 of a lifetime of 8 periods, over a toy derivation. -/
theorem evTree_reachable_witness :
    (advanceTimes (fun (seed : ℕ) dom ↦ 10 * seed + dom.toNat) 5
      (evTreeInit (fun (seed : ℕ) dom ↦ 10 * seed + dom.toNat) (.ofDepth 3) 7)).1 =
        List.replicate 5 0 :=
  (evTree_reachable (fun (seed : ℕ) dom ↦ 10 * seed + dom.toNat) (by decide : 3 ≤ evMaxDepth)
    (by decide : 5 < 2 ^ 3) 7).1

end EvMlDsa
