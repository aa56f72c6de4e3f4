import Mathlib.Data.List.Basic
import Mathlib.Order.Basic

/-!
# Rejection sampling from a stream

A sampler that keeps the values it accepts, asks for one more block as long as it has too few, and
stops in the middle of a block when it has enough. In the end it holds the first values that the
whole stream has to offer (`refill_eq`), so where the blocks end does not matter. `collect` fills an
array with the results of rounds that can fail. A call whose result does not depend on its bound has
one result (`Stable.exists_endsIn`), which the unbounded call has wherever it ends.
-/

set_option autoImplicit false
set_option relaxedAutoImplicit false

namespace Library.Rejection

variable {Value : Type*}

/-- Samples from block after block until there are `len` values. `sample block want` are the values
taken from a block when `want` are missing, and `fuel` bounds the number of blocks. -/
def refill (len : ℕ) (sample : ℕ → ℕ → List Value) : (fuel block : ℕ) → List Value →
    Option (List Value)
  | 0, _, values => if values.length < len then none else some values
  | fuel + 1, block, values =>
    if values.length < len then
      refill len sample fuel (block + 1) (values ++ sample block (len - values.length))
    else some values

section Refill

variable {len : ℕ} {sample : ℕ → ℕ → List Value}

/-- The sampler finds the first values of the stream. -/
theorem refill_eq {offered : ℕ → List Value}
    (hsample : ∀ block want, sample block want = (offered block).take want) (fuel block : ℕ)
    (before : List Value) :
    refill len sample fuel block (before.take len) =
      let all := before ++ (List.range' block fuel).flatMap offered
      if all.length < len then none else some (all.take len) := by
  induction fuel generalizing block before with
  | zero =>
    simp only [refill, List.range'_zero, List.flatMap_nil, List.append_nil, List.length_take]
    by_cases hlen : before.length < len
    · rw [if_pos (by omega), if_pos hlen]
    · rw [if_neg (by omega), if_neg hlen]
  | succ fuel ih =>
    simp only [refill, List.length_take]
    by_cases hlen : before.length < len
    · have htake : before.take len = before := List.take_of_length_le (by omega)
      have hnext : before.take len ++ sample block (len - min len before.length) =
          (before ++ offered block).take len := by
        have hmin : min len before.length = before.length := by omega
        rw [hsample, List.take_append, hmin]
      rw [if_pos (by omega), hnext, ih, List.range'_succ, List.flatMap_cons, List.append_assoc]
    · have hall : (before ++ (List.range' block (fuel + 1)).flatMap offered).take len =
          before.take len := List.take_append_of_le_length (by omega)
      rw [if_neg (by omega), if_neg (by rw [List.length_append]; omega), hall]

/-- The positions of consecutive blocks of `width` items of `step` positions each. -/
theorem flatMap_blocks (valuesAt : ℕ → List Value) (width step block count : ℕ) :
    ((List.range' block count).flatMap fun b ↦
        (List.range' (step * width * b) width step).flatMap valuesAt) =
      (List.range' (step * width * block) (width * count) step).flatMap valuesAt := by
  induction count generalizing block with
  | zero => rfl
  | succ count ih =>
    have hsplit : List.range' (step * width * block) width step ++
        List.range' (step * width * block + step * width) (width * count) step =
          List.range' (step * width * block) (width + width * count) step := List.range'_append
    rw [List.range'_succ, List.flatMap_cons, ih, Nat.mul_succ width, Nat.add_comm (width * count),
      ← hsplit, List.flatMap_append, Nat.mul_succ]

end Refill

/-- The results of the first `count` rounds, if none of them fails. -/
def collect (round : ℕ → Option Value) : (count : ℕ) → Option (Vector Value count)
  | 0 => some #v[]
  | count + 1 => do
    let values ← collect round count
    let value ← round count
    some (values.push value)

theorem collect_eq_some_iff {round : ℕ → Option Value} {count : ℕ} {values : Vector Value count} :
    collect round count = some values ↔ ∀ i (hi : i < count), round i = some values[i] := by
  induction count with
  | zero =>
    refine iff_of_true ?_ fun i hi ↦ absurd hi (Nat.not_lt_zero i)
    have hempty : values = #v[] := Vector.eq_empty
    rw [collect, hempty]
  | succ count ih =>
    simp only [collect, Option.bind_eq_bind, Option.bind_eq_some_iff, Option.some.injEq]
    constructor
    · rintro ⟨front, hfront, value, hvalue, rfl⟩ i hi
      rw [Vector.getElem_push]
      split_ifs with hlt
      · exact ih.mp hfront i hlt
      · obtain rfl : i = count := by omega
        exact hvalue
    · intro hrounds
      refine ⟨values.pop, ih.mpr fun i hi ↦ ?_, values[count], hrounds count (by omega), ?_⟩
      · rw [Vector.getElem_pop]
        exact hrounds i (by omega)
      · exact Vector.push_pop_back values

theorem collect_mono {round round' : ℕ → Option Value} {count : ℕ} {values : Vector Value count}
    (hround : ∀ i value, round i = some value → round' i = some value)
    (hvalues : collect round count = some values) : collect round' count = some values := by
  rw [collect_eq_some_iff] at hvalues ⊢
  intro i hi
  exact hround i _ (hvalues i hi)

/-- A loop whose rounds fail less often. -/
theorem foldlM_mono {State Item : Type*} {step step' : State → Item → Option State}
    (hstep : ∀ s i result, step s i = some result → step' s i = some result) {items : List Item}
    {s result : State} (hresult : items.foldlM step s = some result) :
    items.foldlM step' s = some result := by
  induction items generalizing s with
  | nil => exact hresult
  | cons item items ih =>
    rw [List.foldlM_cons, Option.bind_eq_bind, Option.bind_eq_some_iff] at hresult ⊢
    obtain ⟨next, hnext, hrest⟩ := hresult
    exact ⟨next, hstep s item next hnext, ih hrest⟩

/-- A loop none of whose rounds fails. -/
theorem exists_foldlM {State Item : Type*} {step : State → Item → Option State} {items : List Item}
    (hstep : ∀ item ∈ items, ∀ s, ∃ s', step s item = some s') (s : State) :
    ∃ s', items.foldlM step s = some s' := by
  induction items generalizing s with
  | nil => exact ⟨s, rfl⟩
  | cons item items ih =>
    obtain ⟨next, hnext⟩ := hstep item List.mem_cons_self s
    obtain ⟨last, hlast⟩ := ih (fun item hitem ↦ hstep item (List.mem_cons_of_mem _ hitem)) next
    refine ⟨last, ?_⟩
    rw [List.foldlM_cons, hnext]
    exact hlast

/-! ### Calls with a bound -/

/-- A call ends for some bound. -/
def Ends (call : ℕ → Option Value) : Prop := ∃ fuel value, call fuel = some value

/-- Wherever a call ends it has this result. -/
def EndsIn (call : ℕ → Option Value) (value : Value) : Prop :=
  ∀ ⦃fuel result⦄, call fuel = some result → result = value

/-- A larger bound leaves a result as it is. -/
def Stable (call : ℕ → Option Value) : Prop :=
  ∀ ⦃fuel more value⦄, call fuel = some value → fuel ≤ more → call more = some value

/-- A stable call has one result. -/
theorem Stable.exists_endsIn [Nonempty Value] {call : ℕ → Option Value} (hstable : Stable call) :
    ∃ value, EndsIn call value := by
  by_cases hends : Ends call
  · obtain ⟨fuel, value, hvalue⟩ := hends
    refine ⟨value, fun fuel' result hresult ↦ ?_⟩
    have hmore := hstable hvalue (Nat.le_max_left fuel fuel')
    exact Option.some.inj ((hstable hresult (Nat.le_max_right fuel fuel')).symm.trans hmore)
  · refine ⟨Classical.arbitrary Value, fun fuel result hresult ↦ ?_⟩
    exact absurd ⟨fuel, result, hresult⟩ hends

end Library.Rejection
