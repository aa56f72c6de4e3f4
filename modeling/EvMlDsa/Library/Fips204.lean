import Mathlib.Tactic

/-!
# Rounding as FIPS 204 defines it

`Power2Round`, `Decompose`, `HighBits`, `MakeHint` and `UseHint` on integers, for any modulus `q`
with `q - 1 = 2 γ₂ m`. A decomposition is recognised by its two parts (`decompose_eq`), a low part
that leaves its bounds moves to the next high part (`Parts.of_gt`, `Parts.of_lt`), and a hint leads
back to the high part it was made for (`useHint_makeHint`).
-/

set_option autoImplicit false
set_option relaxedAutoImplicit false

namespace Library.Fips204

/-- `m mod± α`. -/
def modPlusMinus (m α : ℤ) : ℤ := if m % α ≤ α / 2 then m % α else m % α - α

/-- `Power2Round`. -/
def power2Round (q : ℤ) (d : ℕ) (r : ℤ) : ℤ × ℤ :=
  let rPlus := r % q
  let r0 := modPlusMinus rPlus (2 ^ d)
  ((rPlus - r0) / 2 ^ d, r0)

section

variable (q γ₂ : ℤ)

/-- `Decompose`. -/
def decompose (r : ℤ) : ℤ × ℤ :=
  let rPlus := r % q
  let r0 := modPlusMinus rPlus (2 * γ₂)
  if rPlus - r0 = q - 1 then (0, r0 - 1) else ((rPlus - r0) / (2 * γ₂), r0)

/-- `HighBits`. -/
def highBits (r : ℤ) : ℤ := (decompose q γ₂ r).1

/-- `MakeHint`. -/
def makeHint (z r : ℤ) : Bool := highBits q γ₂ r ≠ highBits q γ₂ (r + z)

/-- `UseHint`. -/
def useHint (h : Bool) (r : ℤ) : ℤ :=
  let m := (q - 1) / (2 * γ₂)
  let (r1, r0) := decompose q γ₂ r
  if h && r0 > 0 then (r1 + 1) % m else if h && r0 ≤ 0 then (r1 - 1) % m else r1

/-- The two parts of a residue: a multiple of `2 γ₂` and a rest around zero, or, at the upper end,
zero and a negative rest. -/
structure Parts (m r r1 r0 : ℤ) : Prop where
  high : 0 ≤ r1 ∧ r1 < m
  low : -γ₂ ≤ r0 ∧ r0 ≤ γ₂
  sum : r1 * (2 * γ₂) + r0 = r ∧ -γ₂ < r0 ∨ r1 = 0 ∧ r0 < 0 ∧ r0 = r - q

end

/-! ### Recognising the parts -/

/-- The rest around zero is the one within the bounds. -/
theorem modPlusMinus_eq {half r r1 r0 : ℤ} (hlow : -half < r0) (hhigh : r0 ≤ half)
    (hsum : r1 * (2 * half) + r0 = r) : modPlusMinus r (2 * half) = r0 := by
  have hhalf : 2 * half / 2 = half := by omega
  have hmod : r % (2 * half) = r0 % (2 * half) := by
    rw [← hsum, Int.add_comm, Int.add_mul_emod_self_right]
  rw [modPlusMinus, hmod, hhalf]
  rcases le_or_gt 0 r0 with hpos | hneg
  · rw [Int.emod_eq_of_lt hpos (by omega), if_pos hhigh]
  · have hwrap : r0 % (2 * half) = r0 + 2 * half := by
      rw [← Int.add_emod_right, Int.emod_eq_of_lt (by omega) (by omega)]
    rw [hwrap, if_neg (by omega), add_sub_cancel_right]

/-- `Power2Round` is recognised by its parts. -/
theorem power2Round_eq {q r r1 r0 : ℤ} {d : ℕ} (hlo : 0 ≤ r) (hhi : r < q)
    (hlow : -2 ^ d < r0) (hhigh : r0 ≤ 2 ^ d) (hsum : r1 * 2 ^ (d + 1) + r0 = r) :
    power2Round q (d + 1) r = (r1, r0) := by
  have hscale : (2 : ℤ) ^ (d + 1) = 2 * 2 ^ d := by rw [pow_succ, mul_comm]
  have hplus : r % q = r := Int.emod_eq_of_lt hlo hhi
  have hne : (2 : ℤ) * 2 ^ d ≠ 0 := by positivity
  rw [hscale] at hsum
  simp only [power2Round, hplus, hscale, modPlusMinus_eq hlow hhigh hsum]
  rw [← hsum, add_sub_cancel_right, Int.mul_ediv_cancel _ hne]

variable {q γ₂ m : ℤ} (hγ₂ : 0 < γ₂) (hq : q = 2 * γ₂ * m + 1)
include hγ₂ hq

/-- `Decompose` is recognised by its parts. -/
theorem decompose_eq {r r1 r0 : ℤ} (hlo : 0 ≤ r) (hhi : r < q) (hparts : Parts q γ₂ m r r1 r0) :
    decompose q γ₂ r = (r1, r0) := by
  obtain ⟨⟨hhigh, hhigh'⟩, ⟨hlow, hlow'⟩, hsum⟩ := hparts
  have hplus : r % q = r := Int.emod_eq_of_lt hlo hhi
  rcases hsum with ⟨hexact, hopen⟩ | ⟨rfl, hneg, hwrap⟩
  · have hquotient : r - r0 = r1 * (2 * γ₂) := by omega
    have hne : ¬r - r0 = q - 1 := by
      rw [hquotient, hq, add_sub_cancel_right, mul_comm]
      intro heq
      have := mul_left_cancel₀ (by omega : (2 * γ₂) ≠ 0) heq
      omega
    simp only [decompose, hplus, modPlusMinus_eq hopen hlow' hexact]
    rw [if_neg hne, hquotient, Int.mul_ediv_cancel _ (by omega)]
  · have hexact : m * (2 * γ₂) + (r0 + 1) = r := by
      rw [hwrap, hq]
      ring
    have htop : r - (r0 + 1) = q - 1 := by omega
    simp only [decompose, hplus, modPlusMinus_eq (by omega) (by omega) hexact]
    rw [if_pos htop, add_sub_cancel_right]

/-- What `UseHint` makes of the parts. -/
theorem useHint_eq {r r1 r0 : ℤ} (hlo : 0 ≤ r) (hhi : r < q) (hparts : Parts q γ₂ m r r1 r0)
    (h : Bool) :
    useHint q γ₂ h r = if h then if 0 < r0 then (r1 + 1) % m else (r1 - 1) % m else r1 := by
  have hcircle : (q - 1) / (2 * γ₂) = m := by
    rw [hq, add_sub_cancel_right, Int.mul_ediv_cancel_left _ (by omega)]
  rw [useHint, decompose_eq hγ₂ hq hlo hhi hparts, hcircle]
  cases h with
  | false => simp
  | true => by_cases hpos : 0 < r0 <;> simp [hpos]

/-! ### A low part outside its bounds -/

section Carry

variable {r r1 r0 : ℤ} (hhigh : 0 ≤ r1 ∧ r1 < m)
include hhigh

/-- The residue of a multiple and a short rest is their sum, unless the sum is negative. -/
theorem eq_or_eq_sub (hlo : 0 ≤ r) (hhi : r < q) (hlow : -(2 * γ₂) < r0 ∧ r0 ≤ 2 * γ₂)
    (hsum : q ∣ r - (r1 * (2 * γ₂) + r0)) :
    r1 * (2 * γ₂) + r0 = r ∨ r1 = 0 ∧ r0 < 0 ∧ r0 = r - q := by
  obtain ⟨k, hk⟩ := hsum
  have hlast : (r1 + 1) * (2 * γ₂) ≤ m * (2 * γ₂) :=
    mul_le_mul_of_nonneg_right (by omega) (by omega)
  have htop : m * (2 * γ₂) = q - 1 := by rw [hq]; ring
  have hnonneg : 0 ≤ r1 * (2 * γ₂) := mul_nonneg hhigh.1 (by omega)
  rw [htop, add_mul, one_mul] at hlast
  have hlower : -1 < k := by
    by_contra hneg
    have : q * k ≤ q * -1 := mul_le_mul_of_nonneg_left (by omega) (by omega)
    omega
  have hupper : k < 2 := by
    by_contra hbig
    have : q * 2 ≤ q * k := mul_le_mul_of_nonneg_left (by omega) (by omega)
    omega
  rcases (by omega : k = 0 ∨ k = 1) with rfl | rfl
  · exact Or.inl (by omega)
  · have hzero : r1 = 0 := by
      by_contra hne
      have : 1 * (2 * γ₂) ≤ r1 * (2 * γ₂) := mul_le_mul_of_nonneg_right (by omega) (by omega)
      omega
    rw [hzero, zero_mul] at hk
    exact Or.inr ⟨hzero, by omega, by omega⟩

variable (hsum : r1 * (2 * γ₂) + r0 = r ∨ r1 = 0 ∧ r0 < 0 ∧ r0 = r - q)
include hsum

/-- A low part above the upper end carries into the next high part. -/
theorem Parts.of_gt (hgt : γ₂ < r0) (hle : r0 ≤ 2 * γ₂) :
    Parts q γ₂ m r (if r1 + 1 = m then 0 else r1 + 1)
      (if r1 + 1 = m then r0 - 2 * γ₂ - 1 else r0 - 2 * γ₂) := by
  have hexact : r1 * (2 * γ₂) + r0 = r := by omega
  split_ifs with hlast
  · have hmultiple : r1 * (2 * γ₂) + 2 * γ₂ = q - 1 := by
      rw [hq, ← hlast]
      ring
    constructor <;> omega
  · have hmultiple : (r1 + 1) * (2 * γ₂) = r1 * (2 * γ₂) + 2 * γ₂ := by ring
    constructor
    · omega
    · omega
    · left
      rw [hmultiple]
      omega

/-- A low part below the lower end borrows from the high part before. -/
theorem Parts.of_lt (hlt : r0 < -γ₂ ∨ r0 = -γ₂ ∧ r1 ≠ 0) (hgt : -(2 * γ₂) < r0) (hr : 0 ≤ r) :
    Parts q γ₂ m r (if r1 = 0 then m - 1 else r1 - 1)
      (if r1 = 0 then r0 + 1 + 2 * γ₂ else r0 + 2 * γ₂) := by
  split_ifs with hfirst
  · subst hfirst
    have hmultiple : (m - 1) * (2 * γ₂) = q - 1 - 2 * γ₂ := by
      rw [hq]
      ring
    rw [zero_mul] at hsum
    constructor
    · omega
    · omega
    · left
      rw [hmultiple]
      omega
  · have hmultiple : (r1 - 1) * (2 * γ₂) = r1 * (2 * γ₂) - 2 * γ₂ := by ring
    constructor
    · omega
    · omega
    · left
      rw [hmultiple]
      omega

omit hq in
/-- A low part inside its bounds stays. -/
theorem Parts.of_within (hin : ¬γ₂ < r0 ∧ ¬(r0 < -γ₂ ∨ r0 = -γ₂ ∧ r1 ≠ 0)) (hr : 0 ≤ r) :
    Parts q γ₂ m r r1 r0 := by
  refine ⟨hhigh, by omega, hsum.imp_left fun hexact ↦ ⟨hexact, ?_⟩⟩
  by_contra hend
  have hzero : r1 = 0 := by omega
  rw [hzero, zero_mul] at hexact
  omega

end Carry

/-! ### Hints -/

section Hint

variable {r r1 r0 : ℤ} (hm : 1 < m) (hhigh : 0 ≤ r1 ∧ r1 < m) (hlo : 0 ≤ r) (hhi : r < q)
  (hlow : -(2 * γ₂) < r0 ∧ r0 ≤ 2 * γ₂) (hsum : q ∣ r - (r1 * (2 * γ₂) + r0))
include hm hhigh hlo hhi hlow hsum

/-- The high part changes when the low part leaves its bounds. -/
theorem highBits_ne_iff :
    highBits q γ₂ r ≠ r1 ↔ γ₂ < r0 ∨ r0 < -γ₂ ∨ r0 = -γ₂ ∧ r1 ≠ 0 := by
  have hwhole := eq_or_eq_sub hγ₂ hq hhigh hlo hhi hlow hsum
  by_cases hgt : γ₂ < r0
  · rw [highBits, decompose_eq hγ₂ hq hlo hhi (Parts.of_gt hγ₂ hq hhigh hwhole hgt hlow.2)]
    refine iff_of_true ?_ (Or.inl hgt)
    show (if r1 + 1 = m then 0 else r1 + 1) ≠ r1
    split_ifs <;> omega
  · by_cases hlt : r0 < -γ₂ ∨ r0 = -γ₂ ∧ r1 ≠ 0
    · rw [highBits, decompose_eq hγ₂ hq hlo hhi (Parts.of_lt hγ₂ hq hhigh hwhole hlt hlow.1 hlo)]
      refine iff_of_true ?_ (Or.inr hlt)
      show (if r1 = 0 then m - 1 else r1 - 1) ≠ r1
      split_ifs <;> omega
    · have hparts : Parts q γ₂ m r r1 r0 := Parts.of_within hγ₂ hhigh hwhole ⟨hgt, hlt⟩ hlo
      rw [highBits, decompose_eq hγ₂ hq hlo hhi hparts]
      exact iff_of_false (fun hne ↦ hne rfl) (by omega)

/-- A hint leads back to the high part it was made for. -/
theorem useHint_makeHint {z : ℤ} (hz : highBits q γ₂ (r + z) = r1) :
    useHint q γ₂ (makeHint q γ₂ z r) r = highBits q γ₂ (r + z) := by
  have hwhole := eq_or_eq_sub hγ₂ hq hhigh hlo hhi hlow hsum
  have hne := highBits_ne_iff hγ₂ hq hm hhigh hlo hhi hlow hsum
  have hmod : r1 % m = r1 := Int.emod_eq_of_lt hhigh.1 hhigh.2
  rw [makeHint, hz]
  by_cases hgt : γ₂ < r0
  · rw [decide_eq_true (hne.mpr (Or.inl hgt)),
      useHint_eq hγ₂ hq hlo hhi (Parts.of_gt hγ₂ hq hhigh hwhole hgt hlow.2), if_pos rfl,
      if_neg (by split_ifs <;> omega)]
    split_ifs with hlast
    · have hback : (0 - 1 : ℤ) = r1 - m := by omega
      rw [hback, Int.sub_emod_right, hmod]
    · rw [add_sub_cancel_right, hmod]
  · by_cases hlt : r0 < -γ₂ ∨ r0 = -γ₂ ∧ r1 ≠ 0
    · rw [decide_eq_true (hne.mpr (Or.inr hlt)),
        useHint_eq hγ₂ hq hlo hhi (Parts.of_lt hγ₂ hq hhigh hwhole hlt hlow.1 hlo), if_pos rfl,
        if_pos (by split_ifs <;> omega)]
      split_ifs with hfirst
      · rw [hfirst, sub_add_cancel, Int.emod_self]
      · rw [sub_add_cancel, hmod]
    · have hparts : Parts q γ₂ m r r1 r0 := Parts.of_within hγ₂ hhigh hwhole ⟨hgt, hlt⟩ hlo
      have hsame : ¬highBits q γ₂ r ≠ r1 := fun hchanged ↦ (hne.mp hchanged).elim hgt hlt
      rw [decide_eq_false hsame, useHint_eq hγ₂ hq hlo hhi hparts]
      rfl

end Hint

end Library.Fips204
