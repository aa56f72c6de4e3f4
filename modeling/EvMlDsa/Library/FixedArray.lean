import Mathlib.Tactic

/-!
# Arrays of fixed size, read with a default and written in place

Reading in bounds ignores the default (`getD_eq_getElem`), and a loop that stores a value at every
index below a limit leaves the other cells alone (`getD_fillFrom`, `getElem_fill`). A cell of a
store is described for every index, in bounds or not (`getD_setIfInBounds`).
-/

set_option autoImplicit false
set_option relaxedAutoImplicit false

namespace Library.FixedArray

variable {Cell : Type*} {size : ℕ}

theorem getD_eq_getElem (cells : Vector Cell size) {i : ℕ} (fallback : Cell) (hi : i < size) :
    cells.getD i fallback = cells[i] := by
  have hsize : i < cells.toArray.size := by simpa using hi
  simp only [Vector.getD, Array.getD, dif_pos hsize]
  rfl

theorem getD_of_size_le (cells : Vector Cell size) {i : ℕ} (fallback : Cell) (hi : size ≤ i) :
    cells.getD i fallback = fallback := by
  have hsize : ¬ i < cells.toArray.size := by simpa using hi
  simp only [Vector.getD, Array.getD, dif_neg hsize]

theorem getD_toList (cells : Vector Cell size) (i : ℕ) (fallback : Cell) :
    cells.toList.getD i fallback = cells.getD i fallback := by
  by_cases hi : i < size
  · rw [getD_eq_getElem _ _ hi, List.getD_eq_getElem?_getD, List.getElem?_eq_getElem (by simpa)]
    simp
  · rw [getD_of_size_le _ _ (by omega), List.getD_eq_getElem?_getD,
      List.getElem?_eq_none (by simpa using hi)]
    rfl

theorem getD_setIfInBounds (cells : Vector Cell size) (i : ℕ) (value fallback : Cell) (k : ℕ) :
    (cells.setIfInBounds i value).getD k fallback =
      if i = k ∧ k < size then value else cells.getD k fallback := by
  by_cases hk : k < size
  · rw [getD_eq_getElem _ _ hk, getD_eq_getElem _ _ hk, Vector.getElem_setIfInBounds hk]
    simp only [hk, and_true]
  · rw [if_neg (fun h ↦ hk h.2), getD_of_size_le _ _ (by omega), getD_of_size_le _ _ (by omega)]

/-- Stores `value i` at index `start + i` for every `i` below `count`. -/
def fillFrom (start : ℕ) (value : ℕ → Cell) (cells : Vector Cell size) (count : ℕ) :
    Vector Cell size :=
  (List.range count).foldl (fun cells i ↦ cells.setIfInBounds (start + i) (value i)) cells

theorem getD_fillFrom (start : ℕ) (value : ℕ → Cell) (cells : Vector Cell size) (count : ℕ)
    (fallback : Cell) {i : ℕ} (hi : start + i < size) :
    (fillFrom start value cells count).getD (start + i) fallback =
      if i < count then value i else cells.getD (start + i) fallback := by
  unfold fillFrom
  induction count with
  | zero => simp
  | succ count ih =>
    rw [List.range_succ, List.foldl_append, List.foldl_cons, List.foldl_nil, getD_setIfInBounds,
      ih]
    by_cases hlast : count = i
    · subst hlast
      rw [if_pos ⟨rfl, hi⟩, if_pos (Nat.lt_succ_self _)]
    · have hcount : i < count + 1 ↔ i < count := by omega
      rw [if_neg (fun h ↦ hlast (Nat.add_left_cancel h.1))]
      simp only [hcount]

/-- Cells outside the filled range keep their value. -/
theorem getD_fillFrom_of_outside (start : ℕ) (value : ℕ → Cell) (cells : Vector Cell size)
    (count : ℕ) (fallback : Cell) {k : ℕ} (hk : k < start ∨ start + count ≤ k) :
    (fillFrom start value cells count).getD k fallback = cells.getD k fallback := by
  unfold fillFrom
  induction count with
  | zero => rfl
  | succ count ih =>
    rw [List.range_succ, List.foldl_append, List.foldl_cons, List.foldl_nil, getD_setIfInBounds,
      if_neg (by omega)]
    exact ih (by omega)

/-- Stores `value` at every index below `limit`. -/
def fill (value : Cell) (cells : Vector Cell size) (limit : ℕ) : Vector Cell size :=
  fillFrom 0 (fun _ ↦ value) cells limit

theorem getElem_fill (value : Cell) (cells : Vector Cell size) (limit : ℕ) {i : ℕ} (hi : i < size) :
    (fill value cells limit)[i] = if i < limit then value else cells[i] := by
  have hi' : 0 + i < size := by omega
  have hfill := getD_fillFrom 0 (fun _ ↦ value) cells limit value hi'
  rw [getD_eq_getElem _ _ hi', getD_eq_getElem _ _ hi'] at hfill
  simpa only [fill, zero_add] using hfill

/-- A cell stored just above the filled range keeps its value. -/
theorem getD_fill_setIfInBounds (value fallback cell : Cell) (cells : Vector Cell size) {i : ℕ}
    (hi : i < size) : (fill value (cells.setIfInBounds i cell) i).getD i fallback = cell := by
  rw [getD_eq_getElem _ _ hi, getElem_fill _ _ _ hi, if_neg (lt_irrefl i)]
  simp

end Library.FixedArray
