import EvMlDsa.Library.Fips202
import EvMlDsa.Sha3

/-!
# The in-place permutation is Keccak-f[1600]

Each loop of `keccakf` is compared with one step mapping of the standard, through the reading of
the 25 words as the array of lanes (`laneArray`): `laneArray_thetaLoop`, `laneArray_rhoPiLoop`,
`laneArray_chiLoop`. The third loop fuses `ρ` and `π`; its invariant (`rhoPiTurns`) says that the
words already visited hold their rotated predecessors along `PI` and the others are untouched.
`laneArray_keccakf` puts the rounds together.
-/

set_option autoImplicit false
set_option relaxedAutoImplicit false

namespace EvMlDsa

open Library.FixedArray Library

/-- The array of lanes of the 25 words: lane `(x, y)` is word `5 * y + x`. -/
def laneArray (s : KeccakState) : Fips202.StateArray :=
  fun x y ↦ (s.getD (5 * y.val + x.val) 0).toBitVec

theorem toBitVec_rol (x : UInt64) {n : ℕ} (hpos : 0 < n) (hn : n < 64) :
    (rol x n).toBitVec = x.toBitVec.rotateLeft n := by
  have hleft : (UInt64.ofNat n).toBitVec % 64 = BitVec.ofNat 64 n := by
    apply BitVec.eq_of_toNat_eq
    simp; omega
  have hright : (UInt64.ofNat (64 - n)).toBitVec % 64 = BitVec.ofNat 64 (64 - n) := by
    apply BitVec.eq_of_toNat_eq
    simp; omega
  have hleft' : (BitVec.ofNat 64 n).toNat = n := by simp; omega
  have hright' : (BitVec.ofNat 64 (64 - n)).toNat = 64 - n := by simp; omega
  rw [rol, UInt64.toBitVec_or, UInt64.toBitVec_shiftLeft, UInt64.toBitVec_shiftRight, hleft, hright,
    BitVec.shiftLeft_eq', BitVec.ushiftRight_eq', hleft', hright', BitVec.rotateLeft_def,
    Nat.mod_eq_of_lt hn]

/-! ### `θ` -/

theorem getD_columnLoop (s : KeccakState) {i : ℕ} (hi : i < 5) :
    (columnLoop s).getD i 0 = s.getD i 0 ^^^ s.getD (i + 5) 0 ^^^ s.getD (i + 10) 0 ^^^
      s.getD (i + 15) 0 ^^^ s.getD (i + 20) 0 := by
  have hword := getD_fillFrom 0 (fun i ↦ s.getD i 0 ^^^ s.getD (i + 5) 0 ^^^ s.getD (i + 10) 0 ^^^
    s.getD (i + 15) 0 ^^^ s.getD (i + 20) 0) (Vector.replicate 5 0) 5 0
    (show 0 + i < 5 by omega)
  rwa [if_pos hi, zero_add] at hword

/-- The scratch words hold the column parities. -/
theorem toBitVec_columnLoop (s : KeccakState) (x : Fin 5) :
    ((columnLoop s).getD x.val 0).toBitVec = Fips202.columnParity (laneArray s) x := by
  rw [getD_columnLoop s x.isLt]
  simp only [UInt64.toBitVec_xor, Fips202.columnParity, laneArray, Fin.val_zero, Nat.mul_zero,
    Nat.zero_add, add_comm x.val]
  rfl

/-- The inner loop of `thetaLoop` changes the words of one column. -/
theorem getD_foldl_rowOffsets (s : KeccakState) (t : UInt64) {i k : ℕ} (hi : i < 5) (hk : k < 25) :
    (rowOffsets.foldl (fun s j ↦ s.setIfInBounds (j + i) (s.getD (j + i) 0 ^^^ t)) s).getD k 0 =
      if k % 5 = i then s.getD k 0 ^^^ t else s.getD k 0 := by
  have hcell : ∀ (s : KeccakState) (j : ℕ),
      (if j + i = k then s.getD k 0 ^^^ t else s.getD k 0) =
        (s.setIfInBounds (j + i) (s.getD (j + i) 0 ^^^ t)).getD k 0 := fun s j ↦ by
    rw [getD_setIfInBounds]
    by_cases hj : j + i = k
    · subst hj
      rw [if_pos rfl, if_pos ⟨rfl, hk⟩]
    · rw [if_neg hj, if_neg (fun h ↦ hj h.1)]
  have hfold : rowOffsets.foldl (fun word j ↦ if j + i = k then word ^^^ t else word) (s.getD k 0) =
      (rowOffsets.foldl (fun s j ↦ s.setIfInBounds (j + i) (s.getD (j + i) 0 ^^^ t)) s).getD k 0 :=
    List.foldl_hom (fun s : KeccakState ↦ s.getD k 0) hcell
  rw [← hfold]
  simp only [rowOffsets, List.foldl_cons, List.foldl_nil]
  split_ifs <;> first | rfl | omega

theorem getD_thetaLoop (bc : Vector UInt64 5) (s : KeccakState) {k : ℕ} (hk : k < 25) :
    (thetaLoop bc s).getD k 0 =
      s.getD k 0 ^^^ (bc.getD ((k % 5 + 4) % 5) 0 ^^^ rol (bc.getD ((k % 5 + 1) % 5) 0) 1) := by
  have hfront : ∀ n ≤ 5, ((List.range n).foldl (fun s i ↦
      rowOffsets.foldl (fun s j ↦ s.setIfInBounds (j + i) (s.getD (j + i) 0 ^^^
        (bc.getD ((i + 4) % 5) 0 ^^^ rol (bc.getD ((i + 1) % 5) 0) 1))) s) s).getD k 0 =
      if k % 5 < n then
        s.getD k 0 ^^^ (bc.getD ((k % 5 + 4) % 5) 0 ^^^ rol (bc.getD ((k % 5 + 1) % 5) 0) 1)
      else s.getD k 0 := by
    intro n hn
    induction n with
    | zero => simp
    | succ n ih =>
      rw [List.range_succ, List.foldl_append, List.foldl_cons, List.foldl_nil,
        getD_foldl_rowOffsets _ _ (by omega) hk, ih (by omega)]
      by_cases hcolumn : k % 5 = n
      · rw [if_pos hcolumn, if_neg (by omega), if_pos (by omega), hcolumn]
      · have hlt : k % 5 < n + 1 ↔ k % 5 < n := by omega
        simp only [if_neg hcolumn, hlt]
  have hfive := hfront 5 le_rfl
  rwa [if_pos (Nat.mod_lt k (by decide))] at hfive

theorem laneArray_thetaLoop (s : KeccakState) :
    laneArray (thetaLoop (columnLoop s) s) = Fips202.theta (laneArray s) := by
  funext x y
  have hcolumn : (5 * y.val + x.val) % 5 = x.val := by omega
  have hleft : (x.val + 4) % 5 = (x - 1).val := by fin_cases x <;> rfl
  have hright : (x.val + 1) % 5 = (x + 1).val := by fin_cases x <;> rfl
  rw [laneArray, getD_thetaLoop _ _ (by omega), hcolumn, hleft, hright, UInt64.toBitVec_xor,
    UInt64.toBitVec_xor, toBitVec_rol _ (by decide) (by decide), toBitVec_columnLoop,
    toBitVec_columnLoop]
  rfl

/-! ### `ρ` and `π` -/

theorem rotateLeft_zero (lane : BitVec 64) : lane.rotateLeft 0 = lane :=
  BitVec.eq_of_getLsbD_eq fun z hz ↦ by simp [hz]

/-- The word carried into turn `n`: word 1 at first, then the word replaced by the turn before. -/
def carriedFrom : ℕ → ℕ
  | 0 => 1
  | n + 1 => PI.getD n 0

/-- Two turns never visit the same word. -/
theorem PI_getD_ne {n i : ℕ} (hn : n < 24) (hi : i < n) : PI.getD n 0 ≠ PI.getD i 0 := by
  have htable : ∀ n < 24, ∀ i < n, PI.getD n 0 ≠ PI.getD i 0 := by decide
  exact htable n hn i hi

theorem PI_getD_lt {i : ℕ} (hi : i < 24) : PI.getD i 0 < 25 := by
  have htable : ∀ i < 24, PI.getD i 0 < 25 := by decide
  exact htable i hi

/-- The invariant of the third loop after `n` turns. -/
theorem rhoPiTurns (s : KeccakState) {n : ℕ} (hn : n ≤ 24) :
    let carried := (List.range n).foldl rhoPiTurn (s, s.getD 1 0)
    carried.2 = s.getD (carriedFrom n) 0 ∧
      (∀ i < n, carried.1.getD (PI.getD i 0) 0 =
        rol (s.getD (carriedFrom i) 0) (RHO.getD i 0)) ∧
      ∀ k, (∀ i < n, PI.getD i 0 ≠ k) → carried.1.getD k 0 = s.getD k 0 := by
  induction n with
  | zero => exact ⟨rfl, fun i hi ↦ absurd hi (Nat.not_lt_zero i), fun k _ ↦ rfl⟩
  | succ n ih =>
    obtain ⟨hcarried, hvisited, hrest⟩ := ih (by omega)
    rw [List.range_succ, List.foldl_append, List.foldl_cons, List.foldl_nil]
    refine ⟨?_, ?_, ?_⟩
    · exact hrest _ fun i hi ↦ (PI_getD_ne (by omega) hi).symm
    · intro i hi
      simp only [rhoPiTurn, getD_setIfInBounds]
      rcases Nat.lt_succ_iff_lt_or_eq.mp hi with hlt | rfl
      · rw [if_neg (fun h ↦ PI_getD_ne (by omega) hlt h.1)]
        exact hvisited i hlt
      · rw [if_pos ⟨rfl, PI_getD_lt (by omega)⟩, hcarried]
    · intro k hk
      simp only [rhoPiTurn, getD_setIfInBounds]
      rw [if_neg (fun h ↦ hk n (by omega) h.1)]
      exact hrest k fun i hi ↦ hk i (by omega)

/-- Every lane but `(0, 0)` is visited by the turn that carries the lane `π` moves there, with the
rotation offset of `ρ`. -/
theorem exists_turn (x y : Fin 5) (hlane : ¬ (x = 0 ∧ y = 0)) :
    ∃ i < 24, PI.getD i 0 = 5 * y.val + x.val ∧
      carriedFrom i = 5 * x.val + (x + 3 * y).val ∧ 0 < RHO.getD i 0 ∧ RHO.getD i 0 < 64 ∧
      RHO.getD i 0 = Fips202.rhoOffset (x + 3 * y) x % 64 := by
  revert x y
  decide +kernel

theorem laneArray_rhoPiLoop (s : KeccakState) :
    laneArray (rhoPiLoop s) = Fips202.pi (Fips202.rho (laneArray s)) := by
  obtain ⟨-, hvisited, hrest⟩ := rhoPiTurns s le_rfl
  funext x y
  by_cases hlane : x = 0 ∧ y = 0
  · obtain ⟨rfl, rfl⟩ := hlane
    have hzero : ∀ i < 24, PI.getD i 0 ≠ 0 := by decide
    have hoffset : Fips202.rhoOffset 0 0 = 0 := by decide
    have hword := congrArg UInt64.toBitVec (hrest 0 hzero)
    calc laneArray (rhoPiLoop s) 0 0 = laneArray s 0 0 := hword
      _ = (laneArray s 0 0).rotateLeft (Fips202.rhoOffset 0 0) := by
          rw [hoffset, rotateLeft_zero]
  · obtain ⟨i, hi, hword, hfrom, hpos, hsmall, hoffset⟩ := exists_turn x y hlane
    have hvalue := hvisited i hi
    rw [hword, hfrom] at hvalue
    calc laneArray (rhoPiLoop s) x y
        = (rol (s.getD (5 * x.val + (x + 3 * y).val) 0) (RHO.getD i 0)).toBitVec :=
          congrArg UInt64.toBitVec hvalue
      _ = (laneArray s (x + 3 * y) x).rotateLeft (Fips202.rhoOffset (x + 3 * y) x) := by
          rw [toBitVec_rol _ hpos hsmall, hoffset, BitVec.rotateLeft_mod_eq_rotateLeft]
          rfl

/-! ### `χ` -/

/-- The word `χ` writes at column `i` of a row. -/
def chiWord (s : KeccakState) (row i : ℕ) : UInt64 :=
  s.getD (5 * row + i) 0 ^^^
    (~~~s.getD (5 * row + (i + 1) % 5) 0 &&& s.getD (5 * row + (i + 2) % 5) 0)

/-- A turn of the fourth loop combines the words of its row. -/
theorem getD_chiRow (s : KeccakState) {row i : ℕ} (hrow : row < 5) (hi : i < 5) :
    (chiRow s (5 * row)).getD (5 * row + i) 0 = chiWord s row i := by
  have hscratch : ∀ i < 5, (fillFrom 0 (fun i ↦ s.getD (5 * row + i) 0)
      (Vector.replicate 5 0 : Vector UInt64 5) 5).getD i 0 = s.getD (5 * row + i) 0 := by
    intro i hi
    have hword := getD_fillFrom 0 (fun i ↦ s.getD (5 * row + i) 0)
      (Vector.replicate 5 0 : Vector UInt64 5) 5 0 (show 0 + i < 5 by omega)
    rwa [if_pos hi, zero_add] at hword
  rw [chiRow, getD_fillFrom _ _ _ _ _ (by omega), if_pos hi, hscratch i hi,
    hscratch _ (Nat.mod_lt _ (by decide)), hscratch _ (Nat.mod_lt _ (by decide)), chiWord]

/-- A turn of the fourth loop leaves the other rows alone. -/
theorem getD_chiRow_of_ne (s : KeccakState) {row row' i : ℕ} (hi : i < 5) (hne : row' ≠ row) :
    (chiRow s (5 * row')).getD (5 * row + i) 0 = s.getD (5 * row + i) 0 :=
  getD_fillFrom_of_outside _ _ _ _ _ (by omega)

theorem getD_chiLoop (s : KeccakState) {row i : ℕ} (hrow : row < 5) (hi : i < 5) :
    (chiLoop s).getD (5 * row + i) 0 = chiWord s row i := by
  have hturns : ∀ n ≤ 5, ∀ i < 5,
      ((List.range n).foldl (fun s row ↦ chiRow s (5 * row)) s).getD (5 * row + i) 0 =
        if row < n then chiWord s row i else s.getD (5 * row + i) 0 := by
    intro n hn
    induction n with
    | zero => simp
    | succ n ih =>
      intro i hi
      rw [List.range_succ, List.foldl_append, List.foldl_cons, List.foldl_nil]
      by_cases hturn : n = row
      · subst hturn
        rw [getD_chiRow _ hrow hi, chiWord, ih (by omega) i hi,
          ih (by omega) _ (Nat.mod_lt _ (by decide)), ih (by omega) _ (Nat.mod_lt _ (by decide))]
        simp only [lt_irrefl, if_false, Nat.lt_succ_self, if_true, chiWord]
      · have hlt : row < n + 1 ↔ row < n := by omega
        rw [getD_chiRow_of_ne _ hi hturn, ih (by omega) i hi]
        simp only [hlt]
  have hoffsets : rowOffsets = (List.range 5).map (5 * ·) := rfl
  rw [chiLoop, hoffsets, List.foldl_map, hturns 5 le_rfl i hi, if_pos hrow]

theorem laneArray_chiLoop (s : KeccakState) :
    laneArray (chiLoop s) = Fips202.chi (laneArray s) := by
  funext x y
  have hnext : (x.val + 1) % 5 = (x + 1).val := by fin_cases x <;> rfl
  have hafter : (x.val + 2) % 5 = (x + 2).val := by fin_cases x <;> rfl
  rw [laneArray, getD_chiLoop _ y.isLt x.isLt, chiWord, hnext, hafter, UInt64.toBitVec_xor,
    UInt64.toBitVec_and, UInt64.toBitVec_not]
  rfl

/-! ### Rounds -/

theorem toBitVec_RC {round : ℕ} (hround : round < 24) :
    (RC.getD round 0).toBitVec = Fips202.roundConstant round := by
  have htable : ∀ round < 24, (RC.getD round 0).toBitVec = Fips202.roundConstant round := by
    decide +kernel
  exact htable round hround

theorem laneArray_keccakRound (s : KeccakState) {round : ℕ} (hround : round < 24) :
    laneArray (keccakRound s round) = Fips202.round (laneArray s) round := by
  have hsteps : laneArray (chiLoop (rhoPiLoop (thetaLoop (columnLoop s) s))) =
      Fips202.chi (Fips202.pi (Fips202.rho (Fips202.theta (laneArray s)))) := by
    rw [laneArray_chiLoop, laneArray_rhoPiLoop, laneArray_thetaLoop]
  rw [Fips202.round, ← hsteps]
  funext x y
  rw [keccakRound, laneArray, getD_setIfInBounds, Fips202.iota]
  by_cases hlane : x = 0 ∧ y = 0
  · obtain ⟨rfl, rfl⟩ := hlane
    rw [if_pos ⟨rfl, by decide⟩, if_pos ⟨rfl, rfl⟩, UInt64.toBitVec_xor, toBitVec_RC hround]
    rfl
  · have hword : 0 ≠ 5 * y.val + x.val := fun h ↦
      hlane ⟨Fin.ext (by omega), Fin.ext (by omega)⟩
    rw [if_neg (fun h ↦ hword h.1), if_neg hlane]
    rfl

/-- The permutation of the code is the permutation of the standard. -/
theorem laneArray_keccakf (s : KeccakState) :
    laneArray (keccakf s) = (List.range 24).foldl Fips202.round (laneArray s) := by
  have hrounds : ∀ n ≤ 24, laneArray ((List.range n).foldl keccakRound s) =
      (List.range n).foldl Fips202.round (laneArray s) := by
    intro n hn
    induction n with
    | zero => rfl
    | succ n ih =>
      rw [List.range_succ, List.foldl_append, List.foldl_append, ← ih (by omega)]
      exact laneArray_keccakRound _ (by omega)
  exact hrounds 24 le_rfl

end EvMlDsa
