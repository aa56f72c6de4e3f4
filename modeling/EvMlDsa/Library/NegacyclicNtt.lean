import EvMlDsa.Library.Negacyclic

/-!
# The number theoretic transform modulo `X ^ (2 ^ depth) + 1`

A layer of the transform splits every block of `2 * len` entries into two halves. The factors form
a binary tree with the node numbers of a heap, in which every factor is a square root of the root of
its block (`Twiddles`). The last layer leaves the values of a polynomial at the roots of
`X ^ (2 ^ depth) + 1` (`layers_eq_value`), and taking values is a ring homomorphism (`value`), so
products become products of values. Running the layers backwards with inverse factors multiplies by
`2 ^ depth`, on either side (`inverseLayers_layers`, `layers_inverseLayers`).
-/

set_option autoImplicit false
set_option relaxedAutoImplicit false

namespace Library.NegacyclicNtt

open Library.Negacyclic Polynomial

variable {R : Type*} [CommRing R]

/-! ### One layer -/

/-- Entry `j` of the first half of a block and entry `j` of the second half become their sum and
their difference, the second one multiplied by the factor of the block. -/
def layer (zeta : ℕ → R) (len : ℕ) (f : ℕ → R) (i : ℕ) : R :=
  if i % (2 * len) < len then f i + zeta (i / (2 * len)) * f (i + len)
  else f (i - len) - zeta (i / (2 * len)) * f i

/-- Back from the sums and the differences to twice the entries. -/
def inverseLayer (zeta : ℕ → R) (len : ℕ) (f : ℕ → R) (i : ℕ) : R :=
  if i % (2 * len) < len then f i + f (i + len)
  else zeta (i / (2 * len)) * (f (i - len) - f i)

/-- Every position of the first blocks lies in one of the two halves of one of them. -/
theorem exists_position {len blocks i : ℕ} (hi : i < 2 * len * blocks) :
    ∃ b j, b < blocks ∧ j < len ∧ (i = 2 * len * b + j ∨ i = 2 * len * b + j + len) := by
  have hlen : 0 < 2 * len := Nat.pos_of_mul_pos_right (Nat.zero_lt_of_lt hi)
  have hb : i / (2 * len) < blocks := Nat.div_lt_of_lt_mul hi
  have hdiv := Nat.div_add_mod i (2 * len)
  have hmod := Nat.mod_lt i hlen
  by_cases hleft : i % (2 * len) < len
  · exact ⟨i / (2 * len), i % (2 * len), hb, hleft, Or.inl (by omega)⟩
  · exact ⟨i / (2 * len), i % (2 * len) - len, hb, by omega, Or.inr (by omega)⟩

theorem div_left {len j : ℕ} (b : ℕ) (hj : j < len) : (2 * len * b + j) / (2 * len) = b := by
  rw [Nat.mul_add_div (by omega), Nat.div_eq_of_lt (by omega), Nat.add_zero]

theorem mod_left {len j : ℕ} (b : ℕ) (hj : j < len) : (2 * len * b + j) % (2 * len) = j := by
  rw [Nat.mul_add_mod, Nat.mod_eq_of_lt (by omega)]

theorem div_right {len j : ℕ} (b : ℕ) (hj : j < len) :
    (2 * len * b + j + len) / (2 * len) = b := by
  rw [Nat.add_assoc, Nat.mul_add_div (by omega), Nat.div_eq_of_lt (by omega), Nat.add_zero]

theorem mod_right {len j : ℕ} (b : ℕ) (hj : j < len) :
    (2 * len * b + j + len) % (2 * len) = j + len := by
  rw [Nat.add_assoc, Nat.mul_add_mod, Nat.mod_eq_of_lt (by omega)]

section Halves

variable (zeta : ℕ → R) {len j : ℕ} (f : ℕ → R) (b : ℕ) (hj : j < len)
include hj

theorem layer_left :
    layer zeta len f (2 * len * b + j) =
      f (2 * len * b + j) + zeta b * f (2 * len * b + j + len) := by
  rw [layer, mod_left b hj, if_pos hj, div_left b hj]

theorem layer_right :
    layer zeta len f (2 * len * b + j + len) =
      f (2 * len * b + j) - zeta b * f (2 * len * b + j + len) := by
  rw [layer, mod_right b hj, if_neg (by omega), div_right b hj, Nat.add_sub_cancel]

theorem inverseLayer_left :
    inverseLayer zeta len f (2 * len * b + j) =
      f (2 * len * b + j) + f (2 * len * b + j + len) := by
  rw [inverseLayer, mod_left b hj, if_pos hj]

theorem inverseLayer_right :
    inverseLayer zeta len f (2 * len * b + j + len) =
      zeta b * (f (2 * len * b + j) - f (2 * len * b + j + len)) := by
  rw [inverseLayer, mod_right b hj, if_neg (by omega), div_right b hj, Nat.add_sub_cancel]

end Halves

theorem right_lt {len blocks b j : ℕ} (hj : j < len) (hb : b < blocks) :
    2 * len * b + j + len < 2 * len * blocks := by
  have hle : 2 * len * (b + 1) ≤ 2 * len * blocks := Nat.mul_le_mul_left _ hb
  rw [Nat.mul_succ] at hle
  omega

/-- An inverse layer undoes a layer, up to the factor two. -/
theorem inverseLayer_layer {zeta zetaInv : ℕ → R} {len blocks : ℕ}
    (hinv : ∀ b < blocks, zetaInv b * zeta b = 1) (f : ℕ → R) {i : ℕ}
    (hi : i < 2 * len * blocks) :
    inverseLayer zetaInv len (layer zeta len f) i = 2 * f i := by
  obtain ⟨b, j, hb, hj, rfl | rfl⟩ := exists_position hi
  · rw [inverseLayer_left _ _ _ hj, layer_left _ _ _ hj, layer_right _ _ _ hj]
    ring
  · rw [inverseLayer_right _ _ _ hj, layer_left _ _ _ hj, layer_right _ _ _ hj]
    calc zetaInv b * (f (2 * len * b + j) + zeta b * f (2 * len * b + j + len) -
          (f (2 * len * b + j) - zeta b * f (2 * len * b + j + len)))
        = 2 * (zetaInv b * zeta b) * f (2 * len * b + j + len) := by ring
      _ = 2 * f (2 * len * b + j + len) := by rw [hinv b hb, mul_one]

/-- A layer undoes an inverse layer, up to the factor two. -/
theorem layer_inverseLayer {zeta zetaInv : ℕ → R} {len blocks : ℕ}
    (hinv : ∀ b < blocks, zetaInv b * zeta b = 1) (f : ℕ → R) {i : ℕ}
    (hi : i < 2 * len * blocks) :
    layer zeta len (inverseLayer zetaInv len f) i = 2 * f i := by
  obtain ⟨b, j, hb, hj, hpos⟩ := exists_position hi
  have hfactor : zeta b * (zetaInv b * (f (2 * len * b + j) - f (2 * len * b + j + len))) =
      f (2 * len * b + j) - f (2 * len * b + j + len) := by
    rw [← mul_assoc, mul_comm (zeta b), hinv b hb, one_mul]
  rcases hpos with rfl | rfl
  · rw [layer_left _ _ _ hj, inverseLayer_left _ _ _ hj, inverseLayer_right _ _ _ hj, hfactor]
    ring
  · rw [layer_right _ _ _ hj, inverseLayer_left _ _ _ hj, inverseLayer_right _ _ _ hj, hfactor]
    ring

/-- A layer reads no position behind the last whole block. -/
theorem layer_congr (zeta : ℕ → R) {len blocks : ℕ} {f g : ℕ → R}
    (hfg : ∀ i < 2 * len * blocks, f i = g i) {i : ℕ} (hi : i < 2 * len * blocks) :
    layer zeta len f i = layer zeta len g i := by
  obtain ⟨b, j, hb, hj, hpos⟩ := exists_position hi
  have hlt := right_lt hj hb
  have hright := hfg _ hlt
  have hleft := hfg (2 * len * b + j) (by omega)
  rcases hpos with rfl | rfl
  · rw [layer_left _ _ _ hj, layer_left _ _ _ hj, hleft, hright]
  · rw [layer_right _ _ _ hj, layer_right _ _ _ hj, hleft, hright]

theorem inverseLayer_congr (zeta : ℕ → R) {len blocks : ℕ} {f g : ℕ → R}
    (hfg : ∀ i < 2 * len * blocks, f i = g i) {i : ℕ} (hi : i < 2 * len * blocks) :
    inverseLayer zeta len f i = inverseLayer zeta len g i := by
  obtain ⟨b, j, hb, hj, hpos⟩ := exists_position hi
  have hlt := right_lt hj hb
  have hright := hfg _ hlt
  have hleft := hfg (2 * len * b + j) (by omega)
  rcases hpos with rfl | rfl
  · rw [inverseLayer_left _ _ _ hj, inverseLayer_left _ _ _ hj, hleft, hright]
  · rw [inverseLayer_right _ _ _ hj, inverseLayer_right _ _ _ hj, hleft, hright]

theorem layer_smul (zeta : ℕ → R) (len : ℕ) (c : R) (f : ℕ → R) (i : ℕ) :
    layer zeta len (fun i ↦ c * f i) i = c * layer zeta len f i := by
  unfold layer
  split_ifs <;> ring

theorem inverseLayer_smul (zeta : ℕ → R) (len : ℕ) (c : R) (f : ℕ → R) (i : ℕ) :
    inverseLayer zeta len (fun i ↦ c * f i) i = c * inverseLayer zeta len f i := by
  unfold inverseLayer
  split_ifs <;> ring

/-! ### All layers -/

section Layers

variable (zeta zetaInv : ℕ → R) (depth : ℕ)

/-- The half of a block in layer `s`. -/
def halfLen (s : ℕ) : ℕ := 2 ^ (depth - 1 - s)

/-- The first `s` layers; block `b` of layer `s` takes the factor of node `2 ^ s + b`. -/
def layers : ℕ → (ℕ → R) → ℕ → R
  | 0, f => f
  | s + 1, f => layer (fun b ↦ zeta (2 ^ s + b)) (halfLen depth s) (layers s f)

/-- The first `s` layers backwards, the last one first. -/
def inverseLayers : ℕ → (ℕ → R) → ℕ → R
  | 0, f => f
  | s + 1, f =>
    inverseLayers s (inverseLayer (fun b ↦ zetaInv (2 ^ s + b)) (halfLen depth s) f)

variable {zeta zetaInv depth}

/-- The blocks of a layer fill the sequence. -/
theorem two_mul_halfLen {s : ℕ} (hs : s < depth) : 2 * halfLen depth s * 2 ^ s = 2 ^ depth := by
  rw [halfLen, ← Nat.pow_succ', ← Nat.pow_add]
  congr 1
  omega

theorem inverseLayers_congr {s : ℕ} (hs : s ≤ depth) {f g : ℕ → R}
    (hfg : ∀ i < 2 ^ depth, f i = g i) {i : ℕ} (hi : i < 2 ^ depth) :
    inverseLayers zetaInv depth s f i = inverseLayers zetaInv depth s g i := by
  induction s generalizing f g with
  | zero => exact hfg i hi
  | succ s ih =>
    apply ih (by omega)
    intro k hk
    rw [← two_mul_halfLen (show s < depth by omega)] at hk hfg
    exact inverseLayer_congr _ hfg hk

theorem inverseLayers_smul (s : ℕ) (c : R) (f : ℕ → R) (i : ℕ) :
    inverseLayers zetaInv depth s (fun i ↦ c * f i) i = c * inverseLayers zetaInv depth s f i := by
  induction s generalizing f with
  | zero => rfl
  | succ s ih =>
    have hlayer := funext (inverseLayer_smul (fun b ↦ zetaInv (2 ^ s + b)) (halfLen depth s) c f)
    rw [inverseLayers, hlayer, ih]
    rfl

section Inverse

variable (hinv : ∀ k, 0 < k → k < 2 ^ depth → zetaInv k * zeta k = 1)
include hinv

theorem inverse_factor {s : ℕ} (hs : s < depth) (b : ℕ) (hb : b < 2 ^ s) :
    zetaInv (2 ^ s + b) * zeta (2 ^ s + b) = 1 := by
  have hpos := Nat.two_pow_pos s
  have hpow : 2 ^ (s + 1) ≤ 2 ^ depth := Nat.pow_le_pow_right (by omega) hs
  rw [Nat.pow_succ] at hpow
  exact hinv _ (by omega) (by omega)

/-- The layers backwards undo the layers, up to the factor `2 ^ s`. -/
theorem inverseLayers_layers {s : ℕ} (hs : s ≤ depth) (f : ℕ → R) {i : ℕ} (hi : i < 2 ^ depth) :
    inverseLayers zetaInv depth s (layers zeta depth s f) i = 2 ^ s * f i := by
  induction s with
  | zero => rw [pow_zero, one_mul]; rfl
  | succ s ih =>
    have hlayer : ∀ k < 2 ^ depth,
        inverseLayer (fun b ↦ zetaInv (2 ^ s + b)) (halfLen depth s)
          (layers zeta depth (s + 1) f) k = 2 * layers zeta depth s f k := by
      intro k hk
      rw [← two_mul_halfLen (show s < depth by omega)] at hk
      exact inverseLayer_layer (inverse_factor hinv (by omega)) _ hk
    rw [inverseLayers, inverseLayers_congr (by omega) hlayer hi, inverseLayers_smul,
      ih (by omega), ← mul_assoc, ← pow_succ']

/-- The layers undo the layers backwards, up to the factor `2 ^ s`. -/
theorem layers_inverseLayers {s : ℕ} (hs : s ≤ depth) (f : ℕ → R) {i : ℕ} (hi : i < 2 ^ depth) :
    layers zeta depth s (inverseLayers zetaInv depth s f) i = 2 ^ s * f i := by
  induction s generalizing f i with
  | zero => rw [pow_zero, one_mul]; rfl
  | succ s ih =>
    have hfill := two_mul_halfLen (show s < depth by omega)
    have hinner : ∀ k < 2 * halfLen depth s * 2 ^ s,
        layers zeta depth s (inverseLayers zetaInv depth (s + 1) f) k =
          2 ^ s * inverseLayer (fun b ↦ zetaInv (2 ^ s + b)) (halfLen depth s) f k := by
      intro k hk
      rw [hfill] at hk
      exact ih (by omega) _ hk
    rw [← hfill] at hi
    rw [layers, layer_congr _ hinner hi, layer_smul,
      layer_inverseLayer (inverse_factor hinv (by omega)) f hi]
    ring

end Inverse

end Layers

/-! ### The layers evaluate -/

/-- The value of a block of a sequence. -/
def blockValue (f : ℕ → R) (start len : ℕ) (x : R) : R :=
  ∑ j ∈ Finset.range len, f (start + j) * x ^ j

theorem blockValue_two_mul (f : ℕ → R) (start len : ℕ) (x : R) :
    blockValue f start (2 * len) x =
      ∑ j ∈ Finset.range len, (f (start + j) + x ^ len * f (start + j + len)) * x ^ j := by
  have hsplit := Finset.sum_range_add (fun j ↦ f (start + j) * x ^ j) len len
  rw [← Nat.two_mul] at hsplit
  rw [blockValue, hsplit, ← Finset.sum_add_distrib]
  refine Finset.sum_congr rfl fun j _ ↦ ?_
  rw [show start + (len + j) = start + j + len by omega, pow_add]
  ring

/-- The first half of a block has the value of the block where `x ^ len` is the factor. -/
theorem blockValue_layer_left (zeta : ℕ → R) (len : ℕ) (f : ℕ → R) (b : ℕ) {x : R}
    (hx : x ^ len = zeta b) :
    blockValue (layer zeta len f) (2 * len * b) len x =
      blockValue f (2 * len * b) (2 * len) x := by
  rw [blockValue_two_mul, hx, blockValue]
  refine Finset.sum_congr rfl fun j hj ↦ ?_
  rw [layer_left _ _ _ (Finset.mem_range.mp hj)]

/-- The second half has it where `x ^ len` is minus the factor. -/
theorem blockValue_layer_right (zeta : ℕ → R) (len : ℕ) (f : ℕ → R) (b : ℕ) {x : R}
    (hx : x ^ len = -zeta b) :
    blockValue (layer zeta len f) (2 * len * b + len) len x =
      blockValue f (2 * len * b) (2 * len) x := by
  rw [blockValue_two_mul, hx, blockValue]
  refine Finset.sum_congr rfl fun j hj ↦ ?_
  rw [Nat.add_right_comm, layer_right _ _ _ (Finset.mem_range.mp hj)]
  ring

/-- The root of a node: `-1` at the top, and the factor of the parent with either sign below. -/
def root (zeta : ℕ → R) (k : ℕ) : R :=
  if k = 1 then -1 else if k % 2 = 0 then zeta (k / 2) else -zeta (k / 2)

theorem root_left (zeta : ℕ → R) (k : ℕ) : root zeta (2 * k) = zeta k := by
  rw [root, if_neg (by omega), if_pos (by omega), Nat.mul_div_cancel_left k (by omega)]

theorem root_right (zeta : ℕ → R) {k : ℕ} (hk : 0 < k) : root zeta (2 * k + 1) = -zeta k := by
  rw [root, if_neg (by omega), if_neg (by omega)]
  congr 2
  omega

/-- Every factor is a square root of the root of its node. -/
structure Twiddles (zeta : ℕ → R) (depth : ℕ) : Prop where
  sq : ∀ k, 0 < k → k < 2 ^ depth → zeta k ^ 2 = root zeta k

namespace Twiddles

variable {zeta : ℕ → R} {depth : ℕ} (tw : Twiddles zeta depth)

include tw

theorem root_sq {k : ℕ} (hk : 0 < k) (hlt : k < 2 ^ depth) (side : ℕ) (hside : side < 2) :
    root zeta (2 * k + side) ^ 2 = root zeta k := by
  obtain rfl | rfl : side = 0 ∨ side = 1 := by omega
  · rw [Nat.add_zero, root_left, tw.sq k hk hlt]
  · rw [root_right zeta hk, neg_sq, tw.sq k hk hlt]

/-- The roots of a layer are roots of minus one. -/
theorem root_pow {s : ℕ} (hs : s ≤ depth) {b : ℕ} (hb : b < 2 ^ s) :
    root zeta (2 ^ s + b) ^ 2 ^ s = -1 := by
  induction s generalizing b with
  | zero =>
    obtain rfl : b = 0 := by omega
    rw [pow_zero, pow_one]
    rfl
  | succ s ih =>
    have hpos := Nat.two_pow_pos s
    have hpow : 2 ^ (s + 1) ≤ 2 ^ depth := Nat.pow_le_pow_right (by omega) hs
    rw [Nat.pow_succ] at hb hpow
    have hnode : 2 ^ (s + 1) + b = 2 * (2 ^ s + b / 2) + b % 2 := by
      rw [Nat.pow_succ]
      omega
    rw [hnode, pow_succ' 2 s, pow_mul,
      tw.root_sq (by omega) (by omega) (b % 2) (Nat.mod_lt b (by omega))]
    exact ih (by omega) (by omega)

/-- After `s` layers, the block of a node has the value of the whole sequence wherever a power of
the argument is the root of the node. -/
theorem layers_eval {s : ℕ} (hs : s ≤ depth) (f : ℕ → R) {b : ℕ} (hb : b < 2 ^ s) {x : R}
    (hx : x ^ 2 ^ (depth - s) = root zeta (2 ^ s + b)) :
    blockValue (layers zeta depth s f) (2 ^ (depth - s) * b) (2 ^ (depth - s)) x =
      blockValue f 0 (2 ^ depth) x := by
  induction s generalizing b with
  | zero =>
    obtain rfl : b = 0 := by omega
    rfl
  | succ s ih =>
    have hpos := Nat.two_pow_pos s
    have hpow : 2 ^ (s + 1) ≤ 2 ^ depth := Nat.pow_le_pow_right (by omega) hs
    rw [Nat.pow_succ] at hb hpow
    have hlen : 2 ^ (depth - (s + 1)) = halfLen depth s := by
      rw [halfLen]
      congr 1
      omega
    have hblock : 2 ^ (depth - s) = 2 * halfLen depth s := by
      rw [← hlen, ← Nat.pow_succ']
      congr 1
      omega
    have hnode : 2 ^ (s + 1) + b = 2 * (2 ^ s + b / 2) + b % 2 := by
      rw [Nat.pow_succ]
      omega
    -- the block of the parent has the right value, and one layer keeps it
    have hparent : x ^ 2 ^ (depth - s) = root zeta (2 ^ s + b / 2) := by
      rw [hblock, Nat.mul_comm, pow_mul, ← hlen, hx, hnode]
      exact tw.root_sq (by omega) (by omega) _ (Nat.mod_lt b (by omega))
    rw [← ih (by omega) (show b / 2 < 2 ^ s by omega) hparent, hblock, hlen]
    rw [hlen, hnode] at hx
    rcases Nat.mod_two_eq_zero_or_one b with hside | hside
    · have hstart : halfLen depth s * b = 2 * halfLen depth s * (b / 2) := by
        conv_lhs => rw [← Nat.div_add_mod b 2, hside]
        ring
      rw [hside, Nat.add_zero, root_left] at hx
      rw [hstart]
      exact blockValue_layer_left _ _ _ _ hx
    · have hstart : halfLen depth s * b = 2 * halfLen depth s * (b / 2) + halfLen depth s := by
        conv_lhs => rw [← Nat.div_add_mod b 2, hside]
        ring
      rw [hside, root_right zeta (by omega)] at hx
      rw [hstart]
      exact blockValue_layer_right _ _ _ _ hx

/-- The last layer leaves the values at the roots of the leaves. -/
theorem layers_depth (f : ℕ → R) {i : ℕ} (hi : i < 2 ^ depth) :
    layers zeta depth depth f i = blockValue f 0 (2 ^ depth) (root zeta (2 ^ depth + i)) := by
  have heval := tw.layers_eval le_rfl f hi (x := root zeta (2 ^ depth + i))
  rw [Nat.sub_self, pow_zero, pow_one] at heval
  rw [← heval rfl]
  simp [blockValue]

/-! ### Values of ring elements -/

section Values

variable {zetaInv : ℕ → R} (hinv : ∀ k, 0 < k → k < 2 ^ depth → zetaInv k * zeta k = 1)
  {n : ℕ} (hn : 2 ^ depth = n)

/-- The value of a ring element at the root of a leaf. -/
noncomputable def value (i : Fin n) : NegacyclicRing R n →+* R :=
  AdjoinRoot.lift (RingHom.id R) (root zeta (n + i.val)) (by
    subst hn
    rw [eval₂_add, eval₂_X_pow, eval₂_one, tw.root_pow le_rfl i.isLt, neg_add_cancel])

theorem value_algebraMap (i : Fin n) (c : R) :
    tw.value hn i (algebraMap R (NegacyclicRing R n) c) = c :=
  AdjoinRoot.lift_of _

variable [NeZero n] [Nontrivial R]

theorem value_ofCoeffs (i : Fin n) (f : ℕ → R) :
    tw.value hn i (ofCoeffs R n fun k ↦ f k.val) = blockValue f 0 n (root zeta (n + i.val)) := by
  rw [ofCoeffs_eq_sum, map_sum, blockValue, Finset.sum_range]
  refine Finset.sum_congr rfl fun k _ ↦ ?_
  rw [Algebra.smul_def, map_mul, map_pow, Nat.zero_add]
  congr 1
  · exact tw.value_algebraMap hn i (f k.val)
  · rw [value, AdjoinRoot.lift_root]

/-- The transform takes the coefficients of a ring element to its values. -/
theorem layers_eq_value (f : ℕ → R) (i : Fin n) :
    layers zeta depth depth f i.val = tw.value hn i (ofCoeffs R n fun k ↦ f k.val) := by
  rw [tw.value_ofCoeffs, tw.layers_depth f (hn ▸ i.isLt), hn]

include hinv

/-- The inverse transform takes the values of a ring element to `2 ^ depth` times its
coefficients. -/
theorem inverseLayers_value {v : ℕ → R} (r : NegacyclicRing R n)
    (hv : ∀ i : Fin n, v i.val = tw.value hn i r) (k : Fin n) :
    inverseLayers zetaInv depth depth v k.val = 2 ^ depth * coeffs R n r k := by
  let f : ℕ → R := fun k ↦ if hk : k < n then coeffs R n r ⟨k, hk⟩ else 0
  have hcoeff (k : Fin n) : f k.val = coeffs R n r k := dif_pos k.isLt
  have hring : ofCoeffs R n (fun k ↦ f k.val) = r := by
    rw [funext hcoeff]
    exact (coeffs R n).symm_apply_apply r
  have hlayers : ∀ i < 2 ^ depth, v i = layers zeta depth depth f i := by
    intro i hi
    rw [hv ⟨i, hn ▸ hi⟩, ← hring]
    exact (tw.layers_eq_value hn f ⟨i, hn ▸ hi⟩).symm
  have hk : k.val < 2 ^ depth := hn ▸ k.isLt
  rw [inverseLayers_congr le_rfl hlayers hk, inverseLayers_layers hinv le_rfl f hk, hcoeff]

/-- Any sequence holds the values of the ring element that the inverse transform gives. -/
theorem value_inverseLayers (v : ℕ → R) (i : Fin n) :
    tw.value hn i (ofCoeffs R n fun k ↦ inverseLayers zetaInv depth depth v k.val) =
      2 ^ depth * v i.val := by
  rw [← tw.layers_eq_value, layers_inverseLayers hinv le_rfl v (hn ▸ i.isLt)]

end Values

end Twiddles

end Library.NegacyclicNtt
