import EvMlDsa.MerkleBuild
import EvMlDsa.Sha3

/-!
# Authentication paths

The extractor writes the siblings of the path (`evMerklePath_spec`, `honestPath`), and the verifier
climbs along what it is given (`verifyLoop_eq`, `evMerkleVerify_eq_one_iff`). `evMerkle_complete` is
completeness over every built tree. `evMerkleVerify_binding` is position binding for any root: two
accepted openings of one position agree in what the verifier reads of them or their walks collide,
and `positionsAgree` adds that an opening cannot move between positions of a built tree with
distinct leaves. The verifier reads the whole path up to depth `2 ^ 27` only, where its 32-bit
offset wraps (`evMerkle_position_binding`). Nothing is assumed of the hash.
-/

set_option autoImplicit false
set_option relaxedAutoImplicit false

namespace EvMlDsa

open Library.HashTree Library.PerfectTree

section Proof

variable {Block : Type*} (evHashNode : Block → Block → Block)

/-! ### The two loops -/

/-- The honest path of a leaf: at every level the hash of the sibling subtree. -/
def honestPath (leaves : ℕ → Block) (depth p : ℕ) : List Block :=
  (List.range depth).map fun j ↦
    treeHash evHashNode leaves (depth - (j + 1)) (siblingIndex (p / 2 ^ (depth - (j + 1))))

@[simp] theorem length_honestPath (leaves : ℕ → Block) (depth p : ℕ) :
    (honestPath evHashNode leaves depth p).length = depth := by
  simp [honestPath]

/-- The extractor reads the sibling of every node on the way up, inside the region. -/
theorem pathLoop_eq {depth : ℕ} {leaves : ℕ → Block} {cells : Array (Option Block)}
    (hcells : ∀ level idx, level ≤ depth → idx < 2 ^ level →
      cells[levelOrder level idx]? = some (some (treeHash evHashNode leaves (depth - level) idx)))
    {l idx : ℕ} (hl : l ≤ depth) (hidx : idx < 2 ^ l) :
    ∃ events, pathLoop cells l idx =
        some ((List.range l).map fun j ↦
          treeHash evHashNode leaves (depth - (j + 1)) (siblingIndex (idx / 2 ^ (l - (j + 1)))),
          events) ∧
      ∀ event ∈ events, event.Inside ((2 ^ (depth + 1) - 1) * 32) := by
  induction l generalizing idx with
  | zero => exact ⟨[], rfl, fun _ h ↦ absurd h List.not_mem_nil⟩
  | succ l ih =>
    have hsib := siblingIndex_lt hidx
    have hhalf : idx / 2 < 2 ^ l := by
      rw [pow_succ] at hidx
      omega
    obtain ⟨events, hrest, hinside⟩ := ih (by omega) hhalf
    refine ⟨.read (nodeOff (l + 1) (siblingIndex idx)) :: events, ?_, ?_⟩
    · simp only [pathLoop, xor_one_eq_siblingIndex, loadNode_nodeOff, hcells (l + 1) _ hl hsib,
        Option.join_some, Nat.shiftRight_one, hrest, Option.bind_eq_bind, Option.bind_some,
        Option.pure_def, Option.some.injEq, Prod.mk.injEq, and_true]
      rw [List.range_succ, List.map_append, List.map_singleton, Nat.sub_self, pow_zero, Nat.div_one]
      congr 1
      refine List.map_congr_left fun j hj ↦ ?_
      have hshift : l + 1 - (j + 1) = l - (j + 1) + 1 := by
        have hlt := List.mem_range.mp hj
        omega
      rw [hshift, pow_succ', Nat.div_div_eq_div_mul]
    · rintro event hmem
      rcases List.mem_cons.mp hmem with rfl | hmem
      · exact nodeOff_inside hl hsib
      · exact hinside event hmem

theorem evMerklePath_spec {par : EvParams} {leaves : ℕ → Block} {mt : EvMerkleTree Block}
    (hmt : IsTreeOf evHashNode par leaves mt) {p : UInt32} (hp : p.toNat < 2 ^ par.depth.toNat) :
    ∃ events, evMerklePath mt p =
        some (0, honestPath evHashNode leaves par.depth.toNat p.toNat, events) ∧
      ∀ event ∈ events, event.Inside ((2 ^ (par.depth.toNat + 1) - 1) * 32) := by
  obtain ⟨cells, hlevels, _, hcells⟩ := hmt.node
  obtain ⟨events, hloop, hinside⟩ := pathLoop_eq evHashNode hcells le_rfl hp
  refine ⟨events, ?_, hinside⟩
  simp only [evMerklePath, hlevels, hmt.par_eq, hloop, Option.bind_eq_bind, Option.bind_some,
    Option.pure_def, honestPath]

/-- Below `2 ^ 27` levels the 32-bit offset does not wrap. -/
theorem pathSlot_eq {l : ℕ} (hl : l < 2 ^ 27) : pathSlot l = l := by
  have hlevel : (UInt32.ofNat l).toNat = l :=
    UInt32.toNat_ofNat_of_lt' (show l < 4294967296 by omega)
  rw [pathSlot, UInt32.toNat_mul, hlevel]
  simp only [UInt32.reduceToNat]
  omega

/-- The siblings the verifier reads from a path. -/
def pathSiblings (path : List Block) (fallback : Block) (l : ℕ) : Block :=
  path.getD (pathSlot l) fallback

/-- With every path block in bounds the verifier's loop is the climb along them. -/
theorem verifyLoop_eq (path : List Block) (fallback : Block) {l : ℕ}
    (hl : ∀ i < l, pathSlot i < path.length) (idx : ℕ) (cur : Block) :
    verifyLoop evHashNode path l idx cur =
      some (climb evHashNode (pathSiblings path fallback) l idx cur,
        climbPairs evHashNode (pathSiblings path fallback) l idx cur) := by
  induction l generalizing idx cur with
  | zero => rfl
  | succ l ih =>
    have hbound := hl l (by omega)
    have hsib : path[pathSlot l]? = some (pathSiblings path fallback l) := by
      rw [List.getElem?_eq_getElem hbound, pathSiblings, List.getD_eq_getElem _ _ hbound]
    simp only [verifyLoop, hsib, Nat.and_one_is_mod, Nat.shiftRight_one,
      ih (fun i hi ↦ hl i (by omega)), Option.bind_eq_bind, Option.bind_some, Option.pure_def,
      climb, climbPairs, siblingPair]

/-- With a path block out of bounds the loop reads past the end. -/
theorem verifyLoop_eq_none {path : List Block} {l i : ℕ} (hi : i < l)
    (hbound : path.length ≤ pathSlot i) (idx : ℕ) (cur : Block) :
    verifyLoop evHashNode path l idx cur = none := by
  induction l generalizing idx cur with
  | zero => omega
  | succ l ih =>
    rcases Nat.lt_succ_iff_lt_or_eq.mp hi with hlt | rfl
    · cases hsib : path[pathSlot l]? with
      | none => simp only [verifyLoop, hsib, Option.bind_eq_bind, Option.bind_none]
      | some sib =>
        simp only [verifyLoop, hsib, ih hlt, Option.bind_eq_bind, Option.bind_some,
          Option.bind_none]
    · have hsib : path[pathSlot i]? = none := List.getElem?_eq_none hbound
      simp only [verifyLoop, hsib, Option.bind_eq_bind, Option.bind_none]

variable [DecidableEq Block]

/-- Acceptance by the verifier: every path block is there, and the climb along the path ends in
the root. -/
theorem evMerkleVerify_eq_one_iff {root leafDigest : Block} {par : EvParams} {p : UInt32}
    {path : List Block} {pairs : List (Block × Block)} :
    evMerkleVerify evHashNode root par p leafDigest path = some (1, pairs) ↔
      (∀ l < par.depth.toNat, pathSlot l < path.length) ∧
        climb evHashNode (pathSiblings path root) par.depth.toNat p.toNat leafDigest = root ∧
        climbPairs evHashNode (pathSiblings path root) par.depth.toNat p.toNat leafDigest =
          pairs := by
  by_cases hbound : ∀ l < par.depth.toNat, pathSlot l < path.length
  · simp only [evMerkleVerify, verifyLoop_eq evHashNode path root hbound, Option.bind_eq_bind,
      Option.bind_some, Option.pure_def, Option.some.injEq, Prod.mk.injEq, true_and,
      iff_true_intro hbound]
    refine and_congr_left fun _ ↦ ?_
    split_ifs with h
    · exact ⟨fun _ ↦ h, fun _ ↦ rfl⟩
    · exact ⟨fun hcode ↦ absurd hcode (by decide), fun hroot ↦ absurd hroot h⟩
  · obtain ⟨l, hl, hout⟩ : ∃ l < par.depth.toNat, path.length ≤ pathSlot l := by
      simpa only [not_forall, not_lt, exists_prop] using hbound
    simp only [evMerkleVerify, verifyLoop_eq_none evHashNode hl hout, Option.bind_eq_bind,
      Option.bind_none, reduceCtorEq, false_iff]
    exact fun h ↦ hbound h.1

/-! ### Completeness -/

omit [DecidableEq Block] in
/-- The blocks of an honest path, as the climb reads them. -/
theorem pathSiblings_honestPath (leaves : ℕ → Block) {depth p : ℕ} (hdepth : depth ≤ 2 ^ 27)
    (fallback : Block) {l : ℕ} (hl : l < depth) :
    pathSiblings (honestPath evHashNode leaves depth p) fallback l =
      treeHash evHashNode leaves (depth - (l + 1)) (siblingIndex (p / 2 ^ (depth - (l + 1)))) := by
  rw [pathSiblings, pathSlot_eq (by omega), List.getD_eq_getElem _ _ (by simpa using hl)]
  simp [honestPath]

/-- The honest path of a leaf climbs to the root of the tree, through sibling pairs of the tree. -/
theorem evMerkleVerify_honestPath (leaves : ℕ → Block) {par : EvParams} {p : UInt32}
    (hdepth : par.depth.toNat ≤ 2 ^ 27) (hp : p.toNat < 2 ^ par.depth.toNat) :
    ∃ pairs, evMerkleVerify evHashNode (treeHash evHashNode leaves par.depth.toNat 0) par p
        (leaves p.toNat) (honestPath evHashNode leaves par.depth.toNat p.toNat) = some (1, pairs) ∧
      ∀ pair ∈ pairs, ∃ l i, l < par.depth.toNat ∧ i < 2 ^ l ∧
        pair = (treeHash evHashNode leaves (par.depth.toNat - (l + 1)) (2 * i),
          treeHash evHashNode leaves (par.depth.toNat - (l + 1)) (2 * i + 1)) := by
  have hstart : leaves p.toNat =
      treeHash evHashNode leaves (par.depth.toNat - par.depth.toNat) p.toNat := by
    rw [Nat.sub_self, treeHash]
  have hsiblings (fallback : Block) (l : ℕ) (hl : l < par.depth.toNat) :=
    pathSiblings_honestPath evHashNode leaves (p := p.toNat) hdepth fallback hl
  refine ⟨_, (evMerkleVerify_eq_one_iff evHashNode).mpr ⟨fun l hl ↦ ?_, ?_, rfl⟩, ?_⟩
  · rwa [pathSlot_eq (by omega), length_honestPath]
  · rw [hstart]
    exact climb_honest evHashNode leaves _ le_rfl hp (hsiblings _)
  · intro pair hpair
    rw [hstart] at hpair
    exact mem_climbPairs_honest evHashNode leaves _ le_rfl hp (hsiblings _) hpair

/-- Merkle completeness: the path the extractor writes for leaf `p` of a built tree makes the
verifier accept that leaf against the stored root, and neither builder nor extractor touches a
byte outside the `(2 ^ (depth + 1) - 1) * 32` allocated ones. -/
theorem evMerkle_complete {depth p : ℕ} (hdepth : depth ≤ evMaxDepth) (hp : p < 2 ^ depth)
    (mt : EvMerkleTree Block) (leafDigests : List Block)
    (hlength : leafDigests.length = 2 ^ depth) :
    ∃ built buildEvents cells root path pathEvents pairs,
      evMerkleBuild evHashNode true mt (.ofDepth depth) leafDigests =
        some (0, built, buildEvents) ∧
      built.levels = some cells ∧ cells.size = 2 ^ (depth + 1) - 1 ∧ cells[0]? = some (some root) ∧
      evMerklePath built (UInt32.ofNat p) = some (0, path, pathEvents) ∧
      evMerkleVerify evHashNode root (.ofDepth depth) (UInt32.ofNat p)
        (leafDigests.get ⟨p, hlength ▸ hp⟩) path = some (1, pairs) ∧
      ∀ event ∈ buildEvents ++ pathEvents, event.Inside ((2 ^ (depth + 1) - 1) * 32) := by
  obtain ⟨leaves, hleaves⟩ := exists_leaves (Nat.zero_lt_of_lt (hlength ▸ hp))
  have hD := toNat_ofDepth_depth hdepth
  have hP := toNat_ofNat_of_lt_two_pow hdepth hp
  have hp' : (UInt32.ofNat p).toNat < 2 ^ (EvParams.ofDepth depth).depth.toNat := by
    rwa [hD, hP]
  have hD' : (EvParams.ofDepth depth).depth.toNat ≤ 20 := by
    rw [hD]
    exact hdepth
  obtain ⟨built, buildEvents, hbuild, hmt, _, hinside⟩ :=
    evMerkleBuild_spec evHashNode mt (show (EvParams.ofDepth depth).depth.toNat < 32 by omega)
      leafDigests (by rw [hD, hlength]) leaves hleaves
  obtain ⟨pathEvents, hpath, hinsidePath⟩ := evMerklePath_spec evHashNode hmt hp'
  obtain ⟨pairs, hverify, -⟩ := evMerkleVerify_honestPath evHashNode leaves (by omega) hp'
  obtain ⟨cells, hlevels, hsize, hcells⟩ := hmt.node
  have hroot := hcells 0 0 (Nat.zero_le _) (by simp)
  rw [hD] at hinside hinsidePath hsize
  have hleaf : leafDigests.get ⟨p, hlength ▸ hp⟩ = leaves (UInt32.ofNat p).toNat := by
    rw [hP, List.get_eq_getElem, hleaves]
  rw [hleaf]
  refine ⟨built, buildEvents, cells, _, _, pathEvents, pairs, hbuild, hlevels, hsize, hroot, hpath,
    hverify, ?_⟩
  intro event hmem
  rcases List.mem_append.mp hmem with hmem | hmem
  · exact hinside event hmem
  · exact hinsidePath event hmem

/-- A tree of depth 2 over a toy hash, opened at its third leaf. -/
theorem evMerkle_complete_witness :
    ∃ built buildEvents cells root path pathEvents pairs,
      evMerkleBuild (fun a b : ℕ ↦ 3 * a + b) true ⟨.ofDepth 0, none, 0⟩ (.ofDepth 2) [4, 5, 6, 7] =
        some (0, built, buildEvents) ∧
      built.levels = some cells ∧ cells.size = 2 ^ (2 + 1) - 1 ∧ cells[0]? = some (some root) ∧
      evMerklePath built (UInt32.ofNat 2) = some (0, path, pathEvents) ∧
      evMerkleVerify (fun a b : ℕ ↦ 3 * a + b) root (.ofDepth 2) (UInt32.ofNat 2) 6 path =
        some (1, pairs) ∧
      ∀ event ∈ buildEvents ++ pathEvents, event.Inside ((2 ^ (2 + 1) - 1) * 32) :=
  evMerkle_complete (fun a b : ℕ ↦ 3 * a + b) (by decide : 2 ≤ evMaxDepth) (by decide : 2 < 2 ^ 2)
    ⟨.ofDepth 0, none, 0⟩ [4, 5, 6, 7] rfl

/-! ### Position binding -/

/-- Two accepted openings of one position agree in the digest and in every path block the verifier
reads, or their walks hash two different pairs to one value at the same level. -/
theorem evMerkleVerify_binding {root leafDigest leafDigest' : Block} {par : EvParams} {p : UInt32}
    {path path' : List Block} {pairs pairs' : List (Block × Block)}
    (haccept : evMerkleVerify evHashNode root par p leafDigest path = some (1, pairs))
    (haccept' : evMerkleVerify evHashNode root par p leafDigest' path' = some (1, pairs')) :
    (leafDigest = leafDigest' ∧
        ∀ l < par.depth.toNat, path[pathSlot l]? = path'[pathSlot l]?) ∨
      Collides evHashNode pairs pairs' := by
  rw [evMerkleVerify_eq_one_iff] at haccept haccept'
  obtain ⟨hbound, hclimb, rfl⟩ := haccept
  obtain ⟨hbound', hclimb', rfl⟩ := haccept'
  rcases climb_binding evHashNode _ _ (hclimb.trans hclimb'.symm) with
    ⟨hleaf, hsiblings⟩ | hcollides
  · refine Or.inl ⟨hleaf, fun l hl ↦ ?_⟩
    have hsame := hsiblings l hl
    rw [pathSiblings, pathSiblings, List.getD_eq_getElem _ _ (hbound l hl),
      List.getD_eq_getElem _ _ (hbound' l hl)] at hsame
    rw [List.getElem?_eq_getElem (hbound l hl), List.getElem?_eq_getElem (hbound' l hl), hsame]
  · exact Or.inr hcollides

omit [DecidableEq Block] in
/-- Where offsets do not wrap, the blocks read are the first `depth` path entries. -/
theorem take_eq_take_of_pathSlot {path path' : List Block} {depth : ℕ} (hdepth : depth ≤ 2 ^ 27)
    (hread : ∀ l < depth, path[pathSlot l]? = path'[pathSlot l]?) :
    path.take depth = path'.take depth := by
  refine List.ext_getElem? fun l ↦ ?_
  rcases Nat.lt_or_ge l depth with hl | hl
  · have hsame := hread l hl
    rw [pathSlot_eq (by omega)] at hsame
    rw [List.getElem?_take_of_lt hl, List.getElem?_take_of_lt hl, hsame]
  · rw [List.getElem?_eq_none (by simp; omega), List.getElem?_eq_none (by simp; omega)]

omit [DecidableEq Block] in
/-- The builder only finishes where `1u << depth` is defined. -/
theorem depth_lt_of_evMerkleBuild {mt built : EvMerkleTree Block} {par : EvParams}
    {leafDigests : List Block} {events : List (MerkleEvent Block)}
    (hbuild : evMerkleBuild evHashNode true mt par leafDigests = some (0, built, events)) :
    par.depth.toNat < 32 := by
  by_contra hdepth
  obtain ⟨l, hl⟩ : ∃ l, par.depth.toNat = l + 1 := ⟨par.depth.toNat - 1, by omega⟩
  have hlevels (mem : NodeMem Block) : buildLevels evHashNode par.depth.toNat mem = none := by
    rw [hl, buildLevels, buildLevel, if_neg (by omega)]
    rfl
  simp only [evMerkleBuild, if_true, hlevels, Option.bind_eq_bind, Option.bind_none,
    Option.bind_eq_some_iff, reduceCtorEq, and_false, exists_false] at hbuild

/-- Two openings of one position that the verifier accepts under one root agree in the digest and in
all `depth` path blocks, or their walks expose a collision. -/
def OpeningsAgree (par : EvParams) : Prop :=
  ∀ (root leafDigest leafDigest' : Block) (p : UInt32) (path path' : List Block)
    (pairs pairs' : List (Block × Block)), p.toNat < 2 ^ par.depth.toNat →
    par.depth.toNat ≤ path.length → par.depth.toNat ≤ path'.length →
    evMerkleVerify evHashNode root par p leafDigest path = some (1, pairs) →
    evMerkleVerify evHashNode root par p leafDigest' path' = some (1, pairs') →
    (leafDigest = leafDigest' ∧ path.take par.depth.toNat = path'.take par.depth.toNat) ∨
      Collides evHashNode pairs pairs'

/-- Under the root of a tree that was built over pairwise distinct leaves, one opening accepted at
two positions exposes a collision with an honest walk, unless the positions are the same. -/
def PositionsAgree (par : EvParams) : Prop :=
  ∀ (mt built : EvMerkleTree Block) (leafDigests : List Block) (events : List (MerkleEvent Block))
    (cells : Array (Option Block)) (root leafDigest : Block) (p p' : UInt32) (path : List Block)
    (pairs pairs' : List (Block × Block)),
    leafDigests.length = 2 ^ par.depth.toNat → leafDigests.Nodup →
    evMerkleBuild evHashNode true mt par leafDigests = some (0, built, events) →
    built.levels = some cells → cells[0]? = some (some root) →
    p.toNat < 2 ^ par.depth.toNat → p'.toNat < 2 ^ par.depth.toNat →
    evMerkleVerify evHashNode root par p leafDigest path = some (1, pairs) →
    evMerkleVerify evHashNode root par p' leafDigest path = some (1, pairs') →
    ∃ honest honest' pathEvents pathEvents' honestPairs honestPairs' leaf leaf',
      evMerklePath built p = some (0, honest, pathEvents) ∧
      evMerklePath built p' = some (0, honest', pathEvents') ∧
      leafDigests[p.toNat]? = some leaf ∧ leafDigests[p'.toNat]? = some leaf' ∧
      evMerkleVerify evHashNode root par p leaf honest = some (1, honestPairs) ∧
      evMerkleVerify evHashNode root par p' leaf' honest' = some (1, honestPairs') ∧
      (p = p' ∨ Collides evHashNode pairs honestPairs ∨ Collides evHashNode pairs' honestPairs')

/-- Where offsets do not wrap, every path block is read, so openings agree. -/
theorem openingsAgree_of_le {par : EvParams} (hdepth : par.depth.toNat ≤ 2 ^ 27) :
    OpeningsAgree evHashNode par := by
  intro root leafDigest leafDigest' p path path' pairs pairs' _ _ _ haccept haccept'
  rcases evMerkleVerify_binding evHashNode haccept haccept' with ⟨hleaf, hread⟩ | hcollides
  · exact Or.inl ⟨hleaf, take_eq_take_of_pathSlot hdepth hread⟩
  · exact Or.inr hcollides

theorem positionsAgree (par : EvParams) : PositionsAgree evHashNode par := by
  intro mt built leafDigests events cells root leafDigest p p' path pairs pairs' hlength hnodup
    hbuild hlevels hroot hp hp' haccept haccept'
  have hdepth := depth_lt_of_evMerkleBuild evHashNode hbuild
  obtain ⟨leaves, hleaves⟩ := exists_leaves (Nat.zero_lt_of_lt (hlength ▸ hp))
  have hmt := isTreeOf_of_evMerkleBuild evHashNode hdepth hlength hleaves hbuild
  obtain rfl : root = treeHash evHashNode leaves par.depth.toNat 0 := by
    obtain ⟨cells', hlevels', _, hcells⟩ := hmt.node
    obtain rfl : cells = cells' := Option.some.inj (hlevels.symm.trans hlevels')
    have hstored := hcells 0 0 (Nat.zero_le _) (by simp)
    rw [show levelOrder 0 0 = 0 from rfl, hroot] at hstored
    simpa using hstored
  obtain ⟨pathEvents, hpath, -⟩ := evMerklePath_spec evHashNode hmt hp
  obtain ⟨pathEvents', hpath', -⟩ := evMerklePath_spec evHashNode hmt hp'
  obtain ⟨honestPairs, hhonest, -⟩ := evMerkleVerify_honestPath evHashNode leaves (by omega) hp
  obtain ⟨honestPairs', hhonest', -⟩ := evMerkleVerify_honestPath evHashNode leaves (by omega) hp'
  refine ⟨_, _, pathEvents, pathEvents', honestPairs, honestPairs', _, _, hpath, hpath', ?_, ?_,
    hhonest, hhonest', ?_⟩
  · rw [List.getElem?_eq_getElem (hlength ▸ hp), hleaves]
  · rw [List.getElem?_eq_getElem (hlength ▸ hp'), hleaves]
  · rcases evMerkleVerify_binding evHashNode haccept hhonest with ⟨hleaf, -⟩ | hcollides
    · rcases evMerkleVerify_binding evHashNode haccept' hhonest' with ⟨hleaf', -⟩ | hcollides
      · have hlt : p.toNat < leafDigests.length := hlength ▸ hp
        have hlt' : p'.toNat < leafDigests.length := hlength ▸ hp'
        have hsame : leafDigests[p.toNat] = leafDigests[p'.toNat] := by
          rw [hleaves, hleaves, ← hleaf, hleaf']
        exact Or.inl (UInt32.toNat_inj.mp (hnodup.getElem_inj_iff.mp hsame))
      · exact Or.inr (Or.inr hcollides)
    · exact Or.inr (Or.inl hcollides)

/-! ### Deeper trees -/

omit [DecidableEq Block] in
/-- No pair collides with itself. -/
theorem not_collides_self (pairs : List (Block × Block)) : ¬ Collides evHashNode pairs pairs := by
  rintro ⟨⟨pair, pair'⟩, hzip, hne, -⟩
  obtain ⟨i, hi, hpair⟩ := List.getElem_of_mem hzip
  rw [List.getElem_zip] at hpair
  exact hne ((Prod.mk.inj hpair).1.symm.trans (Prod.mk.inj hpair).2)

omit [DecidableEq Block] in
/-- Block `2 ^ 27` is never read: offsets wrap in front of it. -/
theorem pathSlot_lt (l : ℕ) : pathSlot l < 2 ^ 27 := by
  have hword := (UInt32.ofNat l * 32).toNat_lt
  rw [pathSlot]
  omega

/-- Above `2 ^ 27` levels every walk is accepted under its own end as root, whatever stands in block
`2 ^ 27` of the path. -/
theorem evMerkleVerify_set {par : EvParams} (hdepth : 2 ^ 27 < par.depth.toNat) (p : UInt32)
    (leafDigest block block' : Block) :
    ∃ root pairs,
      evMerkleVerify evHashNode root par p leafDigest (List.replicate par.depth.toNat block) =
        some (1, pairs) ∧
      evMerkleVerify evHashNode root par p leafDigest
        ((List.replicate par.depth.toNat block).set (2 ^ 27) block') = some (1, pairs) := by
  let siblings : ℕ → Block := fun _ ↦ block
  have haccept (path : List Block) (hlength : path.length = par.depth.toNat)
      (hread : ∀ l < 2 ^ 27, path.getD l block = block) :
      evMerkleVerify evHashNode (climb evHashNode siblings par.depth.toNat p.toNat leafDigest) par p
        leafDigest path =
          some (1, climbPairs evHashNode siblings par.depth.toNat p.toNat leafDigest) := by
    have hsiblings : pathSiblings path block = siblings :=
      funext fun l ↦ hread _ (pathSlot_lt l)
    have hbound : ∀ l < par.depth.toNat, pathSlot l < path.length :=
      fun l _ ↦ (pathSlot_lt l).trans (hlength ▸ hdepth)
    simp only [evMerkleVerify, verifyLoop_eq evHashNode path block hbound, hsiblings,
      Option.bind_eq_bind, Option.bind_some, if_true, Option.pure_def]
  refine ⟨_, _, haccept _ List.length_replicate fun l hl ↦ ?_, haccept _ ?_ fun l hl ↦ ?_⟩
  · rw [List.getD_eq_getElem _ _ (by rw [List.length_replicate]; omega), List.getElem_replicate]
  · rw [List.length_set, List.length_replicate]
  · rw [List.getD_eq_getElem _ _ (by rw [List.length_set, List.length_replicate]; omega),
      List.getElem_set_ne (by omega), List.getElem_replicate]

omit [DecidableEq Block] in
theorem set_ne_replicate {depth : ℕ} (hdepth : 2 ^ 27 < depth) {block block' : Block}
    (hne : block ≠ block') :
    List.replicate depth block ≠ (List.replicate depth block).set (2 ^ 27) block' := by
  intro hsame
  have hcell := congrArg (fun path : List Block ↦ path[2 ^ 27]?) hsame
  simp only [List.getElem?_set_self (show 2 ^ 27 < (List.replicate depth block).length by
    rwa [List.length_replicate]), List.getElem?_replicate_of_lt hdepth, Option.some.injEq] at hcell
  exact hne hcell

theorem not_openingsAgree [Nontrivial Block] {par : EvParams} (hdepth : 2 ^ 27 < par.depth.toNat) :
    ¬ OpeningsAgree evHashNode par := by
  intro hagree
  obtain ⟨block, block', hne⟩ := exists_pair_ne Block
  obtain ⟨root, pairs, haccept, haccept'⟩ :=
    evMerkleVerify_set evHashNode hdepth 0 block block block'
  have hlength : par.depth.toNat ≤ (List.replicate par.depth.toNat block).length := by
    rw [List.length_replicate]
  have hlength' :
      par.depth.toNat ≤ ((List.replicate par.depth.toNat block).set (2 ^ 27) block').length := by
    rw [List.length_set, List.length_replicate]
  rcases hagree root block block 0 _ _ pairs pairs (Nat.two_pow_pos _) hlength hlength' haccept
    haccept' with ⟨-, hpath⟩ | hcollides
  · rw [List.take_of_length_le (by rw [List.length_replicate]),
      List.take_of_length_le (by rw [List.length_set, List.length_replicate])] at hpath
    exact set_ne_replicate hdepth hne hpath
  · exact not_collides_self evHashNode pairs hcollides

/-- Merkle position binding, of openings and of positions, holds exactly up to depth `2 ^ 27`, where
the 32-bit path offset does not wrap. At every depth openings agree in what the verifier reads of
them and positions agree. -/
theorem evMerkle_position_binding [Nontrivial Block] (par : EvParams) :
    (OpeningsAgree evHashNode par ∧ PositionsAgree evHashNode par ↔ par.depth.toNat ≤ 2 ^ 27) ∧
    PositionsAgree evHashNode par ∧
    ∀ (root leafDigest leafDigest' : Block) (p : UInt32) (path path' : List Block)
      (pairs pairs' : List (Block × Block)),
      evMerkleVerify evHashNode root par p leafDigest path = some (1, pairs) →
      evMerkleVerify evHashNode root par p leafDigest' path' = some (1, pairs') →
      (leafDigest = leafDigest' ∧
          ∀ l < par.depth.toNat, path[pathSlot l]? = path'[pathSlot l]?) ∨
        Collides evHashNode pairs pairs' := by
  refine ⟨⟨fun hbinding ↦ ?_, fun hdepth ↦ ?_⟩, positionsAgree evHashNode par, ?_⟩
  · by_contra hdepth
    exact not_openingsAgree evHashNode (Nat.not_le.mp hdepth) hbinding.1
  · exact ⟨openingsAgree_of_le evHashNode hdepth, positionsAgree evHashNode par⟩
  · intro root leafDigest leafDigest' p path path' pairs pairs' haccept haccept'
    exact evMerkleVerify_binding evHashNode haccept haccept'

end Proof

/-- Over addition as the hash: two different openings of position 1 of the tree over 4, 5, 6 and 7
collide at the deepest level, and the opening of leaf 5, accepted at position 0 as well, collides
with the honest walk there. -/
theorem evMerkle_position_binding_witness :
    (((5 : ℕ) = 6 ∧ [13, 4].take (EvParams.ofDepth 2).depth.toNat =
        [13, 3].take (EvParams.ofDepth 2).depth.toNat) ∨
      Collides (fun a b : ℕ ↦ a + b) [(4, 5), (9, 13)] [(3, 6), (9, 13)]) ∧
    ∃ honest honest' pathEvents pathEvents' honestPairs honestPairs' leaf leaf',
      evMerklePath ⟨.ofDepth 2, some #[some 22, some 9, some 13, some 4, some 5, some 6, some 7], 1⟩
        1 = some (0, honest, pathEvents) ∧
      evMerklePath ⟨.ofDepth 2, some #[some 22, some 9, some 13, some 4, some 5, some 6, some 7], 1⟩
        0 = some (0, honest', pathEvents') ∧
      [4, 5, 6, 7][(1 : UInt32).toNat]? = some leaf ∧
      [4, 5, 6, 7][(0 : UInt32).toNat]? = some leaf' ∧
      evMerkleVerify (fun a b : ℕ ↦ a + b) 22 (.ofDepth 2) 1 leaf honest = some (1, honestPairs) ∧
      evMerkleVerify (fun a b : ℕ ↦ a + b) 22 (.ofDepth 2) 0 leaf' honest' =
        some (1, honestPairs') ∧
      ((1 : UInt32) = 0 ∨ Collides (fun a b : ℕ ↦ a + b) [(4, 5), (9, 13)] honestPairs ∨
        Collides (fun a b : ℕ ↦ a + b) [(5, 4), (9, 13)] honestPairs') :=
  have hbinding := (evMerkle_position_binding (fun a b : ℕ ↦ a + b) (.ofDepth 2)).1.mpr (by decide)
  ⟨hbinding.1 22 5 6 1 [13, 4] [13, 3] [(4, 5), (9, 13)] [(3, 6), (9, 13)] (by decide) (by decide)
      (by decide) (by decide) (by decide),
    hbinding.2 ⟨.ofDepth 0, none, 0⟩
      ⟨.ofDepth 2, some #[some 22, some 9, some 13, some 4, some 5, some 6, some 7], 1⟩ [4, 5, 6, 7]
      [.write 96, .write 128, .write 160, .write 192, .read 96, .read 128, .hash 4 5, .write 32,
        .read 160, .read 192, .hash 6 7, .write 64, .read 32, .read 64, .hash 9 13, .write 0]
      #[some 22, some 9, some 13, some 4, some 5, some 6, some 7] 22 5 1 0 [13, 4]
      [(4, 5), (9, 13)] [(5, 4), (9, 13)] (by decide) (by decide) (by decide) rfl rfl (by decide)
      (by decide) (by decide) (by decide)⟩

/-- Two paths of `2 ^ 27 + 1` blocks that differ in the last one only open the zero digest at
position 0 under one root, through the same pairs. -/
theorem evMerkle_position_binding_counterexample :
    let par : EvParams := { T := 1, depth := 2 ^ 27 + 1 }
    let path : List Block := List.replicate par.depth.toNat 0
    let path' : List Block := path.set (2 ^ 27) (Vector.replicate 32 1)
    ∃ root pairs, evMerkleVerify (evHashNode .little) root par 0 0 path = some (1, pairs) ∧
      evMerkleVerify (evHashNode .little) root par 0 0 path' = some (1, pairs) ∧
      path.length = par.depth.toNat ∧ path'.length = par.depth.toNat ∧ path ≠ path' ∧
      ¬ Collides (evHashNode .little) pairs pairs := by
  intro par path path'
  have hdepth : 2 ^ 27 < par.depth.toNat := by decide
  obtain ⟨root, pairs, haccept, haccept'⟩ := evMerkleVerify_set (evHashNode .little) hdepth 0
    (0 : Block) 0 (Vector.replicate 32 1)
  have hlength : path.length = par.depth.toNat := List.length_replicate
  exact ⟨root, pairs, haccept, haccept', hlength, by rw [List.length_set, hlength],
    set_ne_replicate hdepth (by decide), not_collides_self _ pairs⟩

end EvMlDsa
