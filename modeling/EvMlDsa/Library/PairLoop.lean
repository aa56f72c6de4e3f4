import EvMlDsa.Library.FixedArray

/-!
# Loops over disjoint pairs of cells

The loop nest of an in-place transform: every block of `2 * len` cells is run through pair by pair,
cell `j` of the first half with cell `j` of the second half. No pair is touched twice, so a cell
holds in the end what the body makes of the two original cells of its pair (`getD_blockLoop`).
-/

set_option autoImplicit false
set_option relaxedAutoImplicit false

namespace Library.PairLoop

open Library.FixedArray

variable {Cell : Type*} {size : ℕ}

/-- Stores the two results of the body in the two cells it read. -/
def updatePair (body : Cell → Cell → Cell × Cell) (fallback : Cell) (first second : ℕ)
    (cells : Vector Cell size) : Vector Cell size :=
  let results := body (cells.getD first fallback) (cells.getD second fallback)
  (cells.setIfInBounds second results.2).setIfInBounds first results.1

/-- The pairs of one block, from left to right. -/
def pairLoop (body : Cell → Cell → Cell × Cell) (fallback : Cell) (len start : ℕ)
    (cells : Vector Cell size) : Vector Cell size :=
  (List.range len).foldl
    (fun cells j ↦ updatePair body fallback (start + j) (start + j + len) cells) cells

/-- The blocks, from left to right, each with a body of its own. -/
def blockLoop (body : ℕ → Cell → Cell → Cell × Cell) (fallback : Cell) (len blocks : ℕ)
    (cells : Vector Cell size) : Vector Cell size :=
  (List.range blocks).foldl
    (fun cells b ↦ pairLoop (body b) fallback len (2 * len * b) cells) cells

theorem getD_updatePair (body : Cell → Cell → Cell × Cell) (fallback : Cell) {first second : ℕ}
    (cells : Vector Cell size) {k : ℕ} (hk : k < size) :
    (updatePair body fallback first second cells).getD k fallback =
      if first = k then (body (cells.getD first fallback) (cells.getD second fallback)).1
      else if second = k then (body (cells.getD first fallback) (cells.getD second fallback)).2
      else cells.getD k fallback := by
  simp only [updatePair, getD_setIfInBounds, hk, and_true]

theorem getD_updatePair_of_ne (body : Cell → Cell → Cell × Cell) (fallback : Cell)
    {first second : ℕ} (cells : Vector Cell size) {k : ℕ} (hfirst : first ≠ k)
    (hsecond : second ≠ k) :
    (updatePair body fallback first second cells).getD k fallback = cells.getD k fallback := by
  simp only [updatePair, getD_setIfInBounds, hfirst, hsecond, false_and, if_false]

section OneBlock

variable (body : Cell → Cell → Cell × Cell) (fallback : Cell) {len start : ℕ}
  (cells : Vector Cell size)

/-- The first rounds of a block leave the other cells alone. -/
theorem getD_rounds_of_outside {rounds k : ℕ} (hleft : k < start ∨ start + rounds ≤ k)
    (hright : k < start + len ∨ start + len + rounds ≤ k) :
    ((List.range rounds).foldl (fun cells j ↦
        updatePair body fallback (start + j) (start + j + len) cells) cells).getD k fallback =
      cells.getD k fallback := by
  induction rounds with
  | zero => rfl
  | succ rounds ih =>
    rw [List.range_succ, List.foldl_append, List.foldl_cons, List.foldl_nil,
      getD_updatePair_of_ne _ _ _ (by omega) (by omega)]
    exact ih (by omega) (by omega)

/-- The first rounds of a block store the results for the cells as they were. -/
theorem getD_rounds {rounds j : ℕ} (hrounds : rounds ≤ len) (hj : j < rounds)
    (hsize : start + j + len < size) :
    let after := (List.range rounds).foldl (fun cells j ↦
      updatePair body fallback (start + j) (start + j + len) cells) cells
    let results := body (cells.getD (start + j) fallback) (cells.getD (start + j + len) fallback)
    after.getD (start + j) fallback = results.1 ∧
      after.getD (start + j + len) fallback = results.2 := by
  induction rounds with
  | zero => omega
  | succ rounds ih =>
    intro after results
    let before := (List.range rounds).foldl (fun cells j ↦
      updatePair body fallback (start + j) (start + j + len) cells) cells
    have hafter : after =
        updatePair body fallback (start + rounds) (start + rounds + len) before := by
      simp only [after, before, List.range_succ, List.foldl_append, List.foldl_cons,
        List.foldl_nil]
    rw [hafter]
    by_cases hlast : rounds = j
    · subst hlast
      have hfirst : before.getD (start + rounds) fallback = cells.getD (start + rounds) fallback :=
        getD_rounds_of_outside _ _ _ (by omega) (by omega)
      have hsecond : before.getD (start + rounds + len) fallback =
          cells.getD (start + rounds + len) fallback :=
        getD_rounds_of_outside _ _ _ (by omega) (by omega)
      rw [getD_updatePair _ _ _ (by omega), getD_updatePair _ _ _ hsize, if_pos rfl,
        if_neg (by omega), if_pos rfl, hfirst, hsecond]
      exact ⟨rfl, rfl⟩
    · rw [getD_updatePair_of_ne _ _ _ (by omega) (by omega),
        getD_updatePair_of_ne _ _ _ (by omega) (by omega)]
      exact ih (by omega) (by omega)

theorem getD_pairLoop_of_outside {k : ℕ} (hk : k < start ∨ start + 2 * len ≤ k) :
    (pairLoop body fallback len start cells).getD k fallback = cells.getD k fallback :=
  getD_rounds_of_outside _ _ _ (by omega) (by omega)

end OneBlock

section Blocks

variable (body : ℕ → Cell → Cell → Cell × Cell) (fallback : Cell) {len blocks : ℕ}
  (cells : Vector Cell size)

theorem blockLoop_succ :
    blockLoop body fallback len (blocks + 1) cells =
      pairLoop (body blocks) fallback len (2 * len * blocks)
        (blockLoop body fallback len blocks cells) := by
  simp only [blockLoop, List.range_succ, List.foldl_append, List.foldl_cons, List.foldl_nil]

/-- Cells behind the blocks keep their value. -/
theorem getD_blockLoop_of_outside {k : ℕ} (hk : 2 * len * blocks ≤ k) :
    (blockLoop body fallback len blocks cells).getD k fallback = cells.getD k fallback := by
  induction blocks with
  | zero => rfl
  | succ blocks ih =>
    rw [Nat.mul_succ] at hk
    rw [blockLoop_succ, getD_pairLoop_of_outside _ _ _ (by omega), ih (by omega)]

/-- Both cells of a pair hold the results for the two as they were. -/
theorem getD_blockLoop {b j : ℕ} (hb : b < blocks) (hj : j < len)
    (hsize : 2 * len * blocks ≤ size) :
    let after := blockLoop body fallback len blocks cells
    let first := 2 * len * b + j
    let results := body b (cells.getD first fallback) (cells.getD (first + len) fallback)
    after.getD first fallback = results.1 ∧ after.getD (first + len) fallback = results.2 := by
  induction blocks with
  | zero => omega
  | succ blocks ih =>
    intro after first results
    rw [Nat.mul_succ] at hsize
    have hafter : after = pairLoop (body blocks) fallback len (2 * len * blocks)
        (blockLoop body fallback len blocks cells) := blockLoop_succ _ _ _
    rw [hafter]
    by_cases hlast : blocks = b
    · subst hlast
      have hsize : 2 * len * blocks + j + len < size := by omega
      have hpair := getD_rounds (body blocks) fallback
        (blockLoop body fallback len blocks cells) le_rfl hj hsize
      rw [getD_blockLoop_of_outside _ _ _ (by omega),
        getD_blockLoop_of_outside _ _ _ (by omega)] at hpair
      exact hpair
    · have hle : 2 * len * (b + 1) ≤ 2 * len * blocks := Nat.mul_le_mul_left _ (by omega)
      rw [Nat.mul_succ] at hle
      rw [getD_pairLoop_of_outside _ _ _ (by omega), getD_pairLoop_of_outside _ _ _ (by omega)]
      exact ih (by omega) (by omega)

end Blocks

/-- A counter that every round advances by one numbers the rounds. -/
theorem foldl_counter {State : Type*} (step : ℕ → ℕ → State → State) (state : State)
    (counter rounds : ℕ) :
    (List.range rounds).foldl (fun s round ↦ (step (s.2 + 1) round s.1, s.2 + 1))
        (state, counter) =
      ((List.range rounds).foldl (fun s round ↦ step (counter + round + 1) round s) state,
        counter + rounds) := by
  induction rounds with
  | zero => rfl
  | succ rounds ih =>
    rw [List.range_succ, List.foldl_append, List.foldl_append, ih]
    rfl

/-- A counter that every round takes back by one numbers the rounds from above. -/
theorem foldl_countdown {State : Type*} (step : ℕ → ℕ → State → State) (state : State)
    (counter rounds : ℕ) :
    (List.range rounds).foldl (fun s round ↦ (step (s.2 - 1) round s.1, s.2 - 1))
        (state, counter) =
      ((List.range rounds).foldl (fun s round ↦ step (counter - 1 - round) round s) state,
        counter - rounds) := by
  induction rounds with
  | zero => rfl
  | succ rounds ih =>
    rw [List.range_succ, List.foldl_append, List.foldl_append, ih]
    simp only [List.foldl_cons, List.foldl_nil, Nat.sub_sub, Nat.add_comm rounds 1]

end Library.PairLoop
