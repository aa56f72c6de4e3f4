import EvMlDsa.Lattice.Reduce
import EvMlDsa.Library.Fips204

/-!
# High bits and hints

`decompose`, `make_hint` and `use_hint` on machine integers. The multiplications and shifts of
`decompose` round to the nearest multiple of `2 * GAMMA2` on every standard representative, and the
masks put the one remaining value at zero (`decompose_parts`): it is the `Decompose` of FIPS 204
(`toInt_decompose`), as `power2round` is `Power2Round` (`toInt_power2round`), `use_hint` is
`UseHint` (`toInt_useHint`) and `make_hint` is `MakeHint` (`makeHint_eq`). So a hint is enough to
find the high bits again from a representative of the sum of high and low part
(`useHint_makeHint`).
-/

set_option autoImplicit false
set_option relaxedAutoImplicit false

open Library
open Library.Fips204 (Parts)

namespace EvMlDsa

/-- `decompose`: `a1` and `a0`. -/
def decompose (mode : DilithiumMode) (a : Int32) : Int32 × Int32 :=
  let a1 : Int32 := (a + 127) >>> (7 : Int32)
  let a1 : Int32 := match mode with
    | .two =>
      let a1 : Int32 := (a1 * 11275 + ((1 : Int32) <<< (23 : Int32))) >>> (24 : Int32)
      a1 ^^^ (((43 - a1) >>> (31 : Int32)) &&& a1)
    | _ =>
      let a1 : Int32 := (a1 * 1025 + ((1 : Int32) <<< (21 : Int32))) >>> (22 : Int32)
      a1 &&& 15
  let a0 := a - a1 * 2 * mode.gamma2
  (a1, a0 - ((((dilithiumQ - 1) / 2 - a0) >>> (31 : Int32)) &&& dilithiumQ))

/-- `make_hint`: whether the hint is one. -/
def makeHint (mode : DilithiumMode) (a0 a1 : Int32) : Bool :=
  a0 > mode.gamma2 || a0 < -mode.gamma2 || (a0 == -mode.gamma2 && a1 != 0)

/-- `use_hint`. -/
def useHint (mode : DilithiumMode) (a : Int32) (hint : Bool) : Int32 :=
  let (a1, a0) := decompose mode a
  if !hint then a1
  else match mode with
    | .two => if a0 > 0 then (if a1 == 43 then 0 else a1 + 1) else (if a1 == 0 then 43 else a1 - 1)
    | _ => if a0 > 0 then (a1 + 1) &&& 15 else (a1 - 1) &&& 15

/-- The number of high parts, `(Q - 1) / (2 * GAMMA2)`. -/
def DilithiumMode.highParts : DilithiumMode → ℤ
  | two => 44
  | three => 16
  | five => 16

/-! ### Masks -/

/-- An arithmetic shift by 31 leaves the sign. -/
theorem sshiftRight_thirtyOne (x : Int32) : x >>> 31 = if x.toInt < 0 then -1 else 0 := by
  have hsign : (x >>> 31).toInt = x.toInt / 2 ^ 31 := toInt_sshiftRight_eq_div x.toBitVec 31
  have hlo := x.le_toInt
  have hhi := x.toInt_lt
  split_ifs with hneg
  · rw [← Int32.toInt_inj, hsign]
    show x.toInt / 2 ^ 31 = -1
    omega
  · rw [← Int32.toInt_inj, hsign]
    show x.toInt / 2 ^ 31 = 0
    omega

/-- A mask of four bits. -/
theorem toInt_and_fifteen (x : Int32) : (x &&& 15).toInt = x.toInt % 16 := by
  have hmask : (x &&& 15).toBitVec.toNat = x.toBitVec.toNat % 2 ^ 4 := by
    rw [Int32.toBitVec_and, BitVec.toNat_and]
    exact Nat.and_two_pow_sub_one_eq_mod _ 4
  have hx := x.toBitVec.isLt
  rw [← Int32.toInt_toBitVec, ← Int32.toInt_toBitVec, BitVec.toInt_eq_toNat_cond,
    BitVec.toInt_eq_toNat_cond, hmask]
  split_ifs <;> omega

/-- The mask `(bound - x) >> 31` picks what lies above the bound. -/
theorem sshiftRight_sub_and {bound x y : Int32} (hlo : -2 ^ 31 ≤ bound.toInt - x.toInt)
    (hhi : bound.toInt - x.toInt < 2 ^ 31) :
    ((bound - x) >>> 31) &&& y = if bound.toInt < x.toInt then y else 0 := by
  rw [sshiftRight_thirtyOne, toInt_sub_of_fits hlo hhi]
  by_cases hlt : bound.toInt < x.toInt
  · rw [if_pos (by omega), if_pos hlt, Int32.neg_one_and]
  · rw [if_neg (by omega), if_neg hlt, Int32.zero_and]

/-! ### Decomposition -/

theorem toInt_gamma2 (mode : DilithiumMode) :
    mode.gamma2.toInt = if mode = .two then 95232 else 261888 := by
  cases mode <;> decide

theorem gamma2_cases (mode : DilithiumMode) :
    mode.gamma2.toInt = 95232 ∧ mode.highParts = 44 ∨
      mode.gamma2.toInt = 261888 ∧ mode.highParts = 16 := by
  cases mode <;> decide

/-- The division by 128, rounded up. -/
theorem toInt_scaled {a : Int32} (hlo : 0 ≤ a.toInt) (hhi : a.toInt < modulusQ) :
    ((a + 127) >>> (7 : Int32)).toInt = (a.toInt + 127) / 2 ^ 7 := by
  have hconst : (127 : Int32).toInt = 127 := by decide
  have hsum : (a + 127).toInt = a.toInt + 127 := by
    rw [cast_modulusQ] at hhi
    rw [toInt_add_of_fits, hconst] <;> rw [hconst] <;> omega
  rw [← hsum]
  exact toInt_sshiftRight_eq_div (a + 127).toBitVec 7

/-- The high part before it wraps around: multiplication by a reciprocal. -/
theorem toInt_reciprocal {x factor : Int32} {shift : ℕ} {k half : Int32}
    (hfits : 0 ≤ x.toInt * factor.toInt ∧ x.toInt * factor.toInt + half.toInt < 2 ^ 31)
    (hhalf : 0 ≤ half.toInt)
    (hk : ∀ y : Int32, y >>> k = ⟨⟨y.toBitVec.sshiftRight shift⟩⟩) :
    ((x * factor + half) >>> k).toInt = (x.toInt * factor.toInt + half.toInt) / 2 ^ shift := by
  have hproduct : (x * factor).toInt = x.toInt * factor.toInt :=
    toInt_mul_of_fits (by omega) (by omega)
  have hsum : (x * factor + half).toInt = x.toInt * factor.toInt + half.toInt := by
    rw [toInt_add_of_fits, hproduct] <;> rw [hproduct] <;> omega
  rw [hk, ← hsum]
  exact toInt_sshiftRight_eq_div (x * factor + half).toBitVec shift

/-- The high part in mode two. -/
theorem decompose_fst_two {a : Int32} (hlo : 0 ≤ a.toInt) (hhi : a.toInt < modulusQ) :
    (decompose .two a).1.toInt =
      if a.toInt < modulusQ - 95232 then (a.toInt + 95231) / 190464 else 0 := by
  rw [cast_modulusQ] at *
  have hscaled := toInt_scaled hlo hhi
  let x : Int32 := (a + 127) >>> (7 : Int32)
  have hx : x.toInt = (a.toInt + 127) / 2 ^ 7 := hscaled
  have hfactor : (11275 : Int32).toInt = 11275 := by decide
  have hhalf : ((1 : Int32) <<< (23 : Int32)).toInt = 2 ^ 23 := by decide
  let y : Int32 := (x * 11275 + ((1 : Int32) <<< (23 : Int32))) >>> (24 : Int32)
  have hy : y.toInt = (x.toInt * 11275 + 2 ^ 23) / 2 ^ 24 := by
    have hround : y.toInt = (x.toInt * (11275 : Int32).toInt +
        ((1 : Int32) <<< (23 : Int32)).toInt) / 2 ^ 24 :=
      toInt_reciprocal (by rw [hfactor, hhalf]; omega) (by rw [hhalf]; omega) fun y ↦ rfl
    rw [hfactor, hhalf] at hround
    exact hround
  have hbound : (43 : Int32).toInt = 43 := by decide
  have hresult : (decompose .two a).1 = y ^^^ (((43 - y) >>> (31 : Int32)) &&& y) := rfl
  have hmask : ((43 - y) >>> (31 : Int32)) &&& y = if (43 : ℤ) < y.toInt then y else 0 := by
    have hpick : ((43 - y) >>> (31 : Int32)) &&& y =
        if (43 : Int32).toInt < y.toInt then y else 0 :=
      sshiftRight_sub_and (by rw [hbound]; omega) (by rw [hbound]; omega)
    rw [hbound] at hpick
    exact hpick
  rw [hresult, hmask]
  split_ifs with hwrap hlt hlt
  · omega
  · rw [Int32.xor_self]
    rfl
  · rw [Int32.xor_zero]
    omega
  · omega

/-- The high part in the other modes. -/
theorem decompose_fst_of_ne {mode : DilithiumMode} (hmode : mode ≠ .two) {a : Int32}
    (hlo : 0 ≤ a.toInt) (hhi : a.toInt < modulusQ) :
    (decompose mode a).1.toInt =
      if a.toInt < modulusQ - 261888 then (a.toInt + 261887) / 523776 else 0 := by
  rw [cast_modulusQ] at *
  let x : Int32 := (a + 127) >>> (7 : Int32)
  have hx : x.toInt = (a.toInt + 127) / 2 ^ 7 := toInt_scaled hlo hhi
  have hfactor : (1025 : Int32).toInt = 1025 := by decide
  have hhalf : ((1 : Int32) <<< (21 : Int32)).toInt = 2 ^ 21 := by decide
  let y : Int32 := (x * 1025 + ((1 : Int32) <<< (21 : Int32))) >>> (22 : Int32)
  have hy : y.toInt = (x.toInt * 1025 + 2 ^ 21) / 2 ^ 22 := by
    have hround : y.toInt = (x.toInt * (1025 : Int32).toInt +
        ((1 : Int32) <<< (21 : Int32)).toInt) / 2 ^ 22 :=
      toInt_reciprocal (by rw [hfactor, hhalf]; omega) (by rw [hhalf]; omega) fun y ↦ rfl
    rw [hfactor, hhalf] at hround
    exact hround
  have hresult : (decompose mode a).1 = y &&& 15 := by
    cases mode with
    | two => exact absurd rfl hmode
    | three => rfl
    | five => rfl
  have hquotient : y.toInt = (x.toInt + 2045) / 4092 := by omega
  have hnested : (x.toInt + 2045) / 4092 = (a.toInt + 261887) / 523776 := by
    have hsum : x.toInt + 2045 = (a.toInt + 261887) / 128 := by omega
    rw [hsum, Int.ediv_ediv_of_nonneg (by norm_num)]
    norm_num
  rw [hresult, toInt_and_fifteen, hquotient, hnested]
  split_ifs with hwrap <;> omega

/-- The high part counts multiples of `2 * GAMMA2`; what lies above the last middle wraps around. -/
theorem decompose_fst (mode : DilithiumMode) {a : Int32} (hlo : 0 ≤ a.toInt)
    (hhi : a.toInt < modulusQ) :
    (decompose mode a).1.toInt =
      if a.toInt < modulusQ - mode.gamma2.toInt then
        (a.toInt + mode.gamma2.toInt - 1) / (2 * mode.gamma2.toInt)
      else 0 := by
  have hhalf (base : ℤ) : a.toInt + (base + 1) - 1 = a.toInt + base := by omega
  rw [toInt_gamma2]
  by_cases hmode : mode = .two
  · rw [if_pos hmode, hmode, decompose_fst_two hlo hhi]
    exact congrArg (ite _ · 0) (congrArg (· / 190464) (hhalf 95231).symm)
  · rw [if_neg hmode, decompose_fst_of_ne hmode hlo hhi]
    exact congrArg (ite _ · 0) (congrArg (· / 523776) (hhalf 261887).symm)

/-- The low part is what is left; it belongs to a multiple of `Q` if the high part wraps around. -/
theorem decompose_snd (mode : DilithiumMode) {a : Int32} (hlo : 0 ≤ a.toInt)
    (hhi : a.toInt < modulusQ) :
    (decompose mode a).2.toInt =
      if a.toInt < modulusQ - mode.gamma2.toInt then
        a.toInt - (decompose mode a).1.toInt * (2 * mode.gamma2.toInt)
      else a.toInt - modulusQ := by
  have hfst := decompose_fst mode hlo hhi
  have hcases := gamma2_cases mode
  rw [cast_modulusQ] at *
  have hresult : (decompose mode a).2 = (a - (decompose mode a).1 * 2 * mode.gamma2) -
      ((((dilithiumQ - 1) / 2 - (a - (decompose mode a).1 * 2 * mode.gamma2)) >>> (31 : Int32)) &&&
        dilithiumQ) := rfl
  have htwo : (2 : Int32).toInt = 2 := by decide
  have hhalf : ((dilithiumQ - 1) / 2).toInt = 4190208 := by decide
  have hmodulus : dilithiumQ.toInt = 8380417 := by decide
  generalize (decompose mode a).1 = a1 at *
  rw [hresult]
  generalize hgamma2 : mode.gamma2 = gamma2 at *
  -- the multiple of `2 * GAMMA2` is nowhere near the bounds of its type
  have hbounds : 0 ≤ a1.toInt ∧ a1.toInt ≤ 44 ∧
      a1.toInt * (2 * gamma2.toInt) - a.toInt < 261888 ∧
      0 ≤ a1.toInt * (2 * gamma2.toInt) ∧ a1.toInt * (2 * gamma2.toInt) ≤ 8380416 := by
    rcases hcases with ⟨hcase, -⟩ | ⟨hcase, -⟩ <;> rw [hcase] at hfst ⊢ <;> rw [hfst] <;>
      split_ifs <;> omega
  have hdouble : (a1 * 2).toInt = a1.toInt * 2 := by
    rw [toInt_mul_of_fits, htwo] <;> rw [htwo] <;> omega
  have hmultiple : (a1 * 2 * gamma2).toInt = a1.toInt * (2 * gamma2.toInt) := by
    rw [toInt_mul_of_fits, hdouble, mul_assoc] <;> rw [hdouble, mul_assoc] <;> omega
  have hrest : (a - a1 * 2 * gamma2).toInt = a.toInt - a1.toInt * (2 * gamma2.toInt) := by
    rw [toInt_sub_of_fits, hmultiple] <;> rw [hmultiple] <;> omega
  have hpick : (((dilithiumQ - 1) / 2 - (a - a1 * 2 * gamma2)) >>> (31 : Int32)) &&& dilithiumQ =
      if 4190208 < a.toInt - a1.toInt * (2 * gamma2.toInt) then dilithiumQ else 0 := by
    rw [sshiftRight_sub_and, hhalf, hrest] <;> rw [hhalf, hrest] <;> omega
  rw [hpick]
  by_cases hwrap : a.toInt < 8380417 - gamma2.toInt
  · have hlow : a.toInt - a1.toInt * (2 * gamma2.toInt) ≤ 261888 := by
      rw [if_pos hwrap] at hfst
      rcases hcases with ⟨hcase, -⟩ | ⟨hcase, -⟩ <;> rw [hcase] at hfst ⊢ <;> omega
    rw [if_neg (by omega), if_pos hwrap, Int32.sub_zero, hrest]
  · have hzero : a1.toInt = 0 := by rw [hfst, if_neg hwrap]
    have hhigh : 4190208 < a.toInt := by omega
    rw [hzero, zero_mul, sub_zero] at hrest
    rw [hzero, zero_mul, sub_zero, if_pos hhigh, if_neg hwrap, toInt_sub_of_fits, hrest,
      hmodulus] <;> rw [hrest, hmodulus] <;> omega

/-- `decompose` leaves the parts of every standard representative. -/
theorem decompose_parts (mode : DilithiumMode) {a : Int32} (hlo : 0 ≤ a.toInt)
    (hhi : a.toInt < modulusQ) :
    Parts modulusQ mode.gamma2.toInt mode.highParts a.toInt (decompose mode a).1.toInt
      (decompose mode a).2.toInt := by
  have hfst := decompose_fst mode hlo hhi
  have hsnd := decompose_snd mode hlo hhi
  have hmodulus := cast_modulusQ
  rcases gamma2_cases mode with ⟨hcase, hparts⟩ | ⟨hcase, hparts⟩ <;> rw [hcase] at hfst hsnd ⊢ <;>
    rw [hparts] <;> constructor <;> split_ifs at hfst hsnd <;> omega

theorem gamma2_pos (mode : DilithiumMode) : 0 < mode.gamma2.toInt := by cases mode <;> decide

theorem one_lt_highParts (mode : DilithiumMode) : 1 < mode.highParts := by cases mode <;> decide

/-- `highParts` multiples of `2 * GAMMA2` make up `Q - 1`. -/
theorem modulusQ_eq (mode : DilithiumMode) :
    (modulusQ : ℤ) = 2 * mode.gamma2.toInt * mode.highParts + 1 := by
  cases mode <;> decide

/-- `decompose` computes `Decompose`. -/
theorem toInt_decompose (mode : DilithiumMode) {a : Int32} (hlo : 0 ≤ a.toInt)
    (hhi : a.toInt < modulusQ) :
    Fips204.decompose modulusQ mode.gamma2.toInt a.toInt =
      ((decompose mode a).1.toInt, (decompose mode a).2.toInt) :=
  Fips204.decompose_eq (gamma2_pos mode) (modulusQ_eq mode) hlo hhi (decompose_parts mode hlo hhi)

/-- `power2round` computes `Power2Round`. -/
theorem toInt_power2round {a : Int32} (hlo : 0 ≤ a.toInt) (hhi : a.toInt < modulusQ) :
    Fips204.power2Round modulusQ 13 a.toInt =
      ((power2round a).1.toInt, (power2round a).2.toInt) := by
  have hmodulus := cast_modulusQ
  obtain ⟨-, ⟨hlow, hhigh⟩, hsum⟩ := power2round_of_range (a := a) (by omega) (by omega)
  have hscale : (2 : ℤ) ^ (12 + 1) = 2 ^ 13 := rfl
  apply Fips204.power2Round_eq (d := 12) hlo hhi
  · omega
  · exact hhigh
  · rw [hscale]
    exact hsum

/-! ### Hints -/

theorem pos_iff_toInt (x : Int32) : x > 0 ↔ 0 < x.toInt := Int32.lt_iff_toInt_lt

theorem useHint_true_two (a : Int32) :
    useHint .two a true =
      if (decompose .two a).2 > 0 then
        (if (decompose .two a).1 = 43 then 0 else (decompose .two a).1 + 1)
      else (if (decompose .two a).1 = 0 then 43 else (decompose .two a).1 - 1) := by
  rw [useHint]
  generalize decompose .two a = parts
  simp only [Bool.not_true, Bool.false_eq_true, if_false, beq_iff_eq]

theorem useHint_true_of_ne {mode : DilithiumMode} (hmode : mode ≠ .two) (a : Int32) :
    useHint mode a true =
      if (decompose mode a).2 > 0 then ((decompose mode a).1 + 1) &&& 15
      else ((decompose mode a).1 - 1) &&& 15 := by
  rw [useHint]
  generalize decompose mode a = parts
  simp only [Bool.not_true, Bool.false_eq_true, if_false]

theorem useHint_false (mode : DilithiumMode) (a : Int32) :
    useHint mode a false = (decompose mode a).1 := by
  rw [useHint]
  generalize decompose mode a = parts
  simp only [Bool.not_false, if_true]

/-- One step around the circle of high parts stays far away from the bounds of its type. -/
theorem toInt_step {x : Int32} (hx : 0 ≤ x.toInt ∧ x.toInt < 44) :
    (x + 1).toInt = x.toInt + 1 ∧ (x - 1).toInt = x.toInt - 1 := by
  have hone : (1 : Int32).toInt = 1 := by decide
  constructor
  · rw [toInt_add_of_fits, hone] <;> rw [hone] <;> omega
  · rw [toInt_sub_of_fits, hone] <;> rw [hone] <;> omega

/-- In mode two the ends of the circle are compared. -/
theorem toInt_circle_two {a1 : Int32} (hhigh : 0 ≤ a1.toInt ∧ a1.toInt < 44) :
    (if a1 = 43 then 0 else a1 + 1).toInt = (a1.toInt + 1) % 44 ∧
      (if a1 = 0 then 43 else a1 - 1).toInt = (a1.toInt - 1) % 44 := by
  have hlast : (43 : Int32).toInt = 43 := by decide
  have hzero : (0 : Int32).toInt = 0 := by decide
  obtain ⟨hsucc, hpred⟩ := toInt_step hhigh
  constructor
  · split_ifs with hend
    · rw [hend, hlast, hzero]
      rfl
    · have hne : a1.toInt ≠ 43 := fun h ↦ hend (Int32.toInt_inj.mp (h.trans hlast.symm))
      rw [hsucc]
      omega
  · split_ifs with hend
    · rw [hend, hlast, hzero]
      rfl
    · have hne : a1.toInt ≠ 0 := fun h ↦ hend (Int32.toInt_inj.mp (h.trans hzero.symm))
      rw [hpred]
      omega

/-- With a hint, `use_hint` goes one step around the circle of high parts, to the side of the low
part. -/
theorem toInt_useHint_true (mode : DilithiumMode) {a : Int32} (hlo : 0 ≤ a.toInt)
    (hhi : a.toInt < modulusQ) :
    (useHint mode a true).toInt =
      if 0 < (decompose mode a).2.toInt then ((decompose mode a).1.toInt + 1) % mode.highParts
      else ((decompose mode a).1.toInt - 1) % mode.highParts := by
  obtain ⟨hhigh, -, -⟩ := decompose_parts mode hlo hhi
  clear hlo hhi
  by_cases hmode : mode = .two
  · subst hmode
    have hparts : DilithiumMode.two.highParts = 44 := rfl
    rw [hparts] at hhigh
    obtain ⟨hup, hdown⟩ := toInt_circle_two hhigh
    rw [useHint_true_two, hparts]
    simp only [pos_iff_toInt]
    by_cases hpos : 0 < (decompose .two a).2.toInt
    · rw [if_pos hpos, if_pos hpos, hup]
    · rw [if_neg hpos, if_neg hpos, hdown]
  · have hparts : mode.highParts = 16 := by
      cases mode with
      | two => exact absurd rfl hmode
      | three => rfl
      | five => rfl
    rw [hparts] at hhigh
    obtain ⟨hsucc, hpred⟩ := toInt_step (x := (decompose mode a).1) (by omega)
    rw [useHint_true_of_ne hmode, hparts]
    simp only [pos_iff_toInt]
    split_ifs with hpos
    · rw [toInt_and_fifteen, hsucc]
    · rw [toInt_and_fifteen, hpred]

/-- `use_hint` computes `UseHint`. -/
theorem toInt_useHint (mode : DilithiumMode) {a : Int32} (hlo : 0 ≤ a.toInt)
    (hhi : a.toInt < modulusQ) (hint : Bool) :
    (useHint mode a hint).toInt = Fips204.useHint modulusQ mode.gamma2.toInt hint a.toInt := by
  rw [Fips204.useHint_eq (gamma2_pos mode) (modulusQ_eq mode) hlo hhi
    (decompose_parts mode hlo hhi)]
  cases hint with
  | false => rw [useHint_false, if_neg Bool.false_ne_true]
  | true => rw [toInt_useHint_true mode hlo hhi, if_pos rfl]

theorem makeHint_iff (mode : DilithiumMode) (a0 a1 : Int32) :
    makeHint mode a0 a1 = true ↔ mode.gamma2.toInt < a0.toInt ∨ a0.toInt < -mode.gamma2.toInt ∨
      a0.toInt = -mode.gamma2.toInt ∧ a1.toInt ≠ 0 := by
  have hneg : (-mode.gamma2).toInt = -mode.gamma2.toInt := by cases mode <;> decide
  have hzero : (0 : Int32).toInt = 0 := by decide
  rw [makeHint]
  simp only [Bool.or_eq_true, Bool.and_eq_true, decide_eq_true_eq, beq_iff_eq, bne_iff_ne, ne_eq,
    gt_iff_lt, Int32.lt_iff_toInt_lt, ← Int32.toInt_inj, hneg, hzero, or_assoc]

/-- `make_hint` computes `MakeHint`: from the high part of the changed value and from the low part
that was not reduced after the change. -/
theorem makeHint_eq {mode : DilithiumMode} {r z : ℤ} {a0 a1 : Int32} (hlo : 0 ≤ r)
    (hhi : r < modulusQ) (ha1 : 0 ≤ a1.toInt ∧ a1.toInt < mode.highParts)
    (ha0 : -(2 * mode.gamma2.toInt) < a0.toInt ∧ a0.toInt ≤ 2 * mode.gamma2.toInt)
    (hsum : (modulusQ : ℤ) ∣ r - (a1.toInt * (2 * mode.gamma2.toInt) + a0.toInt))
    (hz : Fips204.highBits modulusQ mode.gamma2.toInt (r + z) = a1.toInt) :
    makeHint mode a0 a1 = Fips204.makeHint modulusQ mode.gamma2.toInt z r := by
  rw [Bool.eq_iff_iff, makeHint_iff, Fips204.makeHint, hz, decide_eq_true_iff]
  exact (Fips204.highBits_ne_iff (gamma2_pos mode) (modulusQ_eq mode) (one_lt_highParts mode) ha1
    hlo hhi ha0 hsum).symm

/-- The hint for a change of the low part leads back to the high part. -/
theorem useHint_makeHint (mode : DilithiumMode) {r a0 a1 : Int32} (hlo : 0 ≤ r.toInt)
    (hhi : r.toInt < modulusQ) (ha1 : 0 ≤ a1.toInt ∧ a1.toInt < mode.highParts)
    (ha0 : -(2 * mode.gamma2.toInt) < a0.toInt ∧ a0.toInt ≤ 2 * mode.gamma2.toInt)
    (hsum : (modulusQ : ℤ) ∣ r.toInt - (a1.toInt * (2 * mode.gamma2.toInt) + a0.toInt)) :
    useHint mode r (makeHint mode a0 a1) = a1 := by
  -- the change that leads to the multiple itself
  let z := a1.toInt * (2 * mode.gamma2.toInt) - r.toInt
  have hpos := gamma2_pos mode
  have hmodulus := modulusQ_eq mode
  have hz : Fips204.highBits modulusQ mode.gamma2.toInt (r.toInt + z) = a1.toInt := by
    have hmultiple : r.toInt + z = a1.toInt * (2 * mode.gamma2.toInt) := by
      simp only [z]
      omega
    have hparts : Parts modulusQ mode.gamma2.toInt mode.highParts (r.toInt + z) a1.toInt 0 := by
      constructor <;> omega
    have hbelow : a1.toInt * (2 * mode.gamma2.toInt) ≤
        (mode.highParts - 1) * (2 * mode.gamma2.toInt) :=
      mul_le_mul_of_nonneg_right (by omega) (by omega)
    have htop : (mode.highParts - 1) * (2 * mode.gamma2.toInt) =
        modulusQ - 1 - 2 * mode.gamma2.toInt := by
      rw [hmodulus]
      ring
    have hnonneg : 0 ≤ a1.toInt * (2 * mode.gamma2.toInt) := mul_nonneg ha1.1 (by omega)
    rw [Fips204.highBits, Fips204.decompose_eq hpos hmodulus (by omega) (by omega) hparts]
  rw [← Int32.toInt_inj, toInt_useHint mode hlo hhi, makeHint_eq hlo hhi ha1 ha0 hsum hz,
    Fips204.useHint_makeHint hpos hmodulus (one_lt_highParts mode) ha1 hlo hhi ha0 hsum hz, hz]

end EvMlDsa
