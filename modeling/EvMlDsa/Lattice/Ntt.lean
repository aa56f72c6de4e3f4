import EvMlDsa.Lattice.Reduce
import EvMlDsa.Library.NegacyclicNtt
import EvMlDsa.Library.PairLoop

/-!
# The number theoretic transform of the reference code

`ntt` and `invntt_tomont` on machine integers. Neither reduces the sums it makes: a coefficient
grows by less than `Q` a layer in one direction and doubles in the other, and stays an `int32_t` all
the way (`ntt_represents`, `invnttTomont_represents`). The table of factors is a tree of square
roots of minus one in Montgomery form (`twiddles`), so the layers are those of
`Library.NegacyclicNtt`.
-/

set_option autoImplicit false
set_option relaxedAutoImplicit false

namespace EvMlDsa

open Library.FixedArray Library.PairLoop Library.NegacyclicNtt

/-! ### The transforms -/

/-- `zetas`. -/
def zetas : List Int32 :=
  [0, 25847, -2608894, -518909, 237124, -777960, -876248, 466468, 1826347, 2353451, -359251,
  -2091905, 3119733, -2884855, 3111497, 2680103, 2725464, 1024112, -1079900, 3585928, -549488,
  -1119584, 2619752, -2108549, -2118186, -3859737, -1399561, -3277672, 1757237, -19422, 4010497,
  280005, 2706023, 95776, 3077325, 3530437, -1661693, -3592148, -2537516, 3915439, -3861115,
  -3043716, 3574422, -2867647, 3539968, -300467, 2348700, -539299, -1699267, -1643818, 3505694,
  -3821735, 3507263, -2140649, -1600420, 3699596, 811944, 531354, 954230, 3881043, 3900724,
  -2556880, 2071892, -2797779, -3930395, -1528703, -3677745, -3041255, -1452451, 3475950, 2176455,
  -1585221, -1257611, 1939314, -4083598, -1000202, -3190144, -3157330, -3632928, 126922, 3412210,
  -983419, 2147896, 2715295, -2967645, -3693493, -411027, -2477047, -671102, -1228525, -22981,
  -1308169, -381987, 1349076, 1852771, -1430430, -3343383, 264944, 508951, 3097992, 44288,
  -1100098, 904516, 3958618, -3724342, -8578, 1653064, -3249728, 2389356, -210977, 759969,
  -1316856, 189548, -3553272, 3159746, -1851402, -2409325, -177440, 1315589, 1341330, 1285669,
  -1584928, -812732, -1439742, -3019102, -3881060, -3628969, 3839961, 2091667, 3407706, 2316500,
  3817976, -3342478, 2244091, -2446433, -3562462, 266997, 2434439, -1235728, 3513181, -3520352,
  -3759364, -1197226, -3193378, 900702, 1859098, 909542, 819034, 495491, -1613174, -43260,
  -522500, -655327, -3122442, 2031748, 3207046, -3556995, -525098, -768622, -3595838, 342297,
  286988, -2437823, 4108315, 3437287, -3342277, 1735879, 203044, 2842341, 2691481, -2590150,
  1265009, 4055324, 1247620, 2486353, 1595974, -3767016, 1250494, 2635921, -3548272, -2994039,
  1869119, 1903435, -1050970, -1333058, 1237275, -3318210, -1430225, -451100, 1312455, 3306115,
  -1962642, -1279661, 1917081, -2546312, -1374803, 1500165, 777191, 2235880, 3406031, -542412,
  -2831860, -1671176, -1846953, -2584293, -3724270, 594136, -3776993, -2013608, 2432395, 2454455,
  -164721, 1957272, 3369112, 185531, -1207385, -3183426, 162844, 1616392, 3014001, 810149,
  1652634, -3694233, -1799107, -3038916, 3523897, 3866901, 269760, 2213111, -975884, 1717735,
  472078, -426683, 1723600, -1803090, 1910376, -1667432, -1104333, -260646, -3833893, -2939036,
  -2235985, -420899, -2286327, 183443, -976891, 1612842, -3545687, -554416, 3919660, -48306,
  -1362209, 3937738, 1400424, -846154, 1976782]

/-- The body of the loops of `ntt`: the new `a[j]` and `a[j + len]`. -/
def nttButterfly (zeta x y : Int32) : Int32 × Int32 :=
  let t := montgomeryReduce (zeta.toInt64 * y.toInt64)
  (x + t, x - t)

/-- The loop over `start` of `ntt`, which carries the array and `k`. -/
def nttLayer (s : Poly × ℕ) (len : ℕ) : Poly × ℕ :=
  (List.range (128 / len)).foldl
    (fun s block ↦
      (pairLoop (nttButterfly (zetas.getD (s.2 + 1) 0)) 0 len (2 * len * block) s.1, s.2 + 1)) s

/-- `ntt`. -/
def ntt (a : Poly) : Poly := ([128, 64, 32, 16, 8, 4, 2, 1].foldl nttLayer (a, 0)).1

/-- The body of the loops of `invntt_tomont`. -/
def invnttButterfly (zeta x y : Int32) : Int32 × Int32 :=
  (x + y, montgomeryReduce (zeta.toInt64 * (x - y).toInt64))

/-- The loop over `start` of `invntt_tomont`, which carries the array and `k`. -/
def invnttLayer (s : Poly × ℕ) (len : ℕ) : Poly × ℕ :=
  (List.range (128 / len)).foldl
    (fun s block ↦
      (pairLoop (invnttButterfly (-zetas.getD (s.2 - 1) 0)) 0 len (2 * len * block) s.1,
        s.2 - 1)) s

/-- `f` of `invntt_tomont`, the square of the Montgomery factor over 256. -/
def invnttFactor : Int32 := 41978

/-- `invntt_tomont`. -/
def invnttTomont (a : Poly) : Poly :=
  let a := ([1, 2, 4, 8, 16, 32, 64, 128].foldl invnttLayer (a, 256)).1
  a.map fun x ↦ montgomeryReduce (invnttFactor.toInt64 * x.toInt64)

/-! ### The factors -/

/-- The Montgomery factor `2 ^ 32` modulo `Q`. -/
abbrev mont : ZMod modulusQ := 2 ^ 32

/-- The inverse of the Montgomery factor. -/
def montInv : ZMod modulusQ := 8265825

theorem montInv_mul_mont : montInv * mont = 1 := by decide

/-- The residue that an entry of the table stands for. -/
def zetaOf (k : ℕ) : ZMod modulusQ := ((zetas.getD k 0).toInt : ZMod modulusQ) * montInv

/-- The residues of the factors of `invntt_tomont` in the order of the nodes: `k` runs backwards
through every layer. -/
def zetaInvOf (k : ℕ) : ZMod modulusQ := -zetaOf (3 * 2 ^ Nat.log2 k - 1 - k)

/-- The table holds square roots of square roots. -/
theorem zetas_sq : ∀ k < 256, 0 < k →
    ((zetas.getD k 0).toInt ^ 2 - 2 ^ 32 *
      if k = 1 then -2 ^ 32
      else if k % 2 = 0 then (zetas.getD (k / 2) 0).toInt
      else -(zetas.getD (k / 2) 0).toInt) % modulusQ = 0 := by
  decide +kernel

/-- Every layer of the table, read backwards and negated, holds the inverses. -/
theorem zetas_inverse : ∀ k < 256, 0 < k →
    (-(zetas.getD (3 * 2 ^ Nat.log2 k - 1 - k) 0).toInt * (zetas.getD k 0).toInt - 2 ^ 64) %
      modulusQ = 0 := by
  decide +kernel

theorem zetas_range : ∀ k < 256, |(zetas.getD k 0).toInt| < modulusQ := by
  decide +kernel

theorem cast_eq_of_emod_eq_zero {x y : ℤ} (h : (x - y) % modulusQ = 0) :
    (x : ZMod modulusQ) = (y : ZMod modulusQ) := by
  rw [eq_comm, ZMod.intCast_eq_intCast_iff_dvd_sub]
  exact Int.dvd_of_emod_eq_zero h

/-- The factors are the tree of square roots of minus one. -/
theorem twiddles : Twiddles zetaOf 8 where
  sq k hpos hk := by
    have hentry := cast_eq_of_emod_eq_zero (zetas_sq k hk hpos)
    have hmont : (montInv * mont) ^ 2 = 1 := by rw [montInv_mul_mont, one_pow]
    rw [Int.cast_pow, Int.cast_mul, Int.cast_pow] at hentry
    rw [zetaOf, mul_pow, hentry, root]
    push_cast
    split_ifs with hone heven
    · linear_combination (-1 : ZMod modulusQ) * hmont
    · rw [zetaOf]
      linear_combination ((zetas.getD (k / 2) 0).toInt : ZMod modulusQ) * montInv *
        montInv_mul_mont
    · rw [zetaOf]
      linear_combination -((zetas.getD (k / 2) 0).toInt : ZMod modulusQ) * montInv *
        montInv_mul_mont

theorem zetaInvOf_mul (k : ℕ) (hpos : 0 < k) (hk : k < 2 ^ 8) : zetaInvOf k * zetaOf k = 1 := by
  have hentry := cast_eq_of_emod_eq_zero (zetas_inverse k hk hpos)
  push_cast at hentry
  have hmont : (montInv * mont) ^ 2 = 1 := by rw [montInv_mul_mont, one_pow]
  rw [zetaInvOf, zetaOf, zetaOf]
  linear_combination montInv ^ 2 * hentry + hmont

/-! ### Polynomials as sequences of residues -/

/-- An array stands for a sequence of residues and keeps a bound. -/
structure Represents (bound : ℤ) (a : Poly) (f : ℕ → ZMod modulusQ) : Prop where
  range (i : ℕ) (hi : i < 256) : |(a.getD i 0).toInt| ≤ bound
  cast (i : ℕ) (hi : i < 256) : ((a.getD i 0).toInt : ZMod modulusQ) = f i

/-- An entry stands for a residue and keeps a bound. -/
def Stands (bound : ℤ) (x : Int32) (residue : ZMod modulusQ) : Prop :=
  |x.toInt| ≤ bound ∧ (x.toInt : ZMod modulusQ) = residue

theorem Represents.stands {bound : ℤ} {a : Poly} {f : ℕ → ZMod modulusQ} (ha : Represents bound a f)
    {i : ℕ} (hi : i < 256) : Stands bound (a.getD i 0) (f i) :=
  ⟨ha.range i hi, ha.cast i hi⟩

/-- What the body does to every pair, the loop nest does to the array. -/
theorem represents_blockLoop {body : ℕ → Int32 → Int32 → Int32 × Int32} {len blocks : ℕ}
    (hfill : 2 * len * blocks = 256) {bound bound' : ℤ} {f g : ℕ → ZMod modulusQ}
    (hbody : ∀ b < blocks, ∀ j < len, ∀ x y, Stands bound x (f (2 * len * b + j)) →
      Stands bound y (f (2 * len * b + j + len)) →
      Stands bound' (body b x y).1 (g (2 * len * b + j)) ∧
        Stands bound' (body b x y).2 (g (2 * len * b + j + len)))
    {a : Poly} (ha : Represents bound a f) :
    Represents bound' (blockLoop body 0 len blocks a) g := by
  have hcell (i : ℕ) (hi : i < 256) :
      Stands bound' ((blockLoop body 0 len blocks a).getD i 0) (g i) := by
    rw [← hfill] at hi
    obtain ⟨b, j, hb, hj, hpos⟩ := exists_position hi
    have hlt := right_lt hj hb
    have hcells := getD_blockLoop body 0 a hb hj hfill.le
    have hpair := hbody b hb j hj _ _ (ha.stands (by omega)) (ha.stands (by omega))
    rw [← hcells.1, ← hcells.2] at hpair
    rcases hpos with rfl | rfl
    · exact hpair.1
    · exact hpair.2
  exact ⟨fun i hi ↦ (hcell i hi).1, fun i hi ↦ (hcell i hi).2⟩

/-- A Montgomery product. -/
theorem montgomeryReduce_product {x y : Int32}
    (hproduct : |x.toInt * y.toInt| < 2 ^ 31 * modulusQ) :
    |(montgomeryReduce (x.toInt64 * y.toInt64)).toInt| < modulusQ ∧
      ((montgomeryReduce (x.toInt64 * y.toInt64)).toInt : ZMod modulusQ) =
        x.toInt * montInv * y.toInt := by
  obtain ⟨hlo, hhi⟩ := abs_lt.mp hproduct
  rw [← toInt_mul_toInt64] at hlo hhi
  obtain ⟨hrlo, hrhi, hend⟩ := montgomeryReduce_range hlo.le hhi.le
  have hcast := cast_montgomeryReduce_mul hlo.le hhi.le
  rw [toInt_mul_toInt64, Int.cast_mul] at hcast
  constructor
  · rw [abs_lt]
    refine ⟨hrlo, lt_of_le_of_ne hrhi ?_⟩
    intro hq
    exact absurd (hend hq) hhi.ne
  · linear_combination montInv * hcast -
      ((montgomeryReduce (x.toInt64 * y.toInt64)).toInt : ZMod modulusQ) * montInv_mul_mont

/-- Below `Q` one factor is enough. -/
theorem product_lt {x y : Int32} (hx : |x.toInt| < modulusQ) :
    |x.toInt * y.toInt| < 2 ^ 31 * modulusQ := by
  have hy : |y.toInt| ≤ 2 ^ 31 := abs_le.mpr ⟨y.le_toInt, y.toInt_lt.le⟩
  calc |x.toInt * y.toInt| = |x.toInt| * |y.toInt| := abs_mul _ _
    _ ≤ |x.toInt| * 2 ^ 31 := mul_le_mul_of_nonneg_left hy (abs_nonneg _)
    _ < modulusQ * 2 ^ 31 := mul_lt_mul_of_pos_right hx (by norm_num)
    _ = 2 ^ 31 * modulusQ := mul_comm _ _

/-! ### The forward transform -/

/-- Both results of a butterfly stay within `Q` of the first entry. -/
theorem stands_nttButterfly {bound : ℤ} {zeta x y : Int32} {f g : ZMod modulusQ}
    (hzeta : |zeta.toInt| < modulusQ) (hbound : bound + modulusQ ≤ 2 ^ 31)
    (hx : Stands bound x f) (hy : Stands bound y g) :
    Stands (bound + (modulusQ - 1)) (nttButterfly zeta x y).1 (f + zeta.toInt * montInv * g) ∧
      Stands (bound + (modulusQ - 1)) (nttButterfly zeta x y).2
        (f - zeta.toInt * montInv * g) := by
  obtain ⟨hrange, hcast⟩ := montgomeryReduce_product (product_lt (y := y) hzeta)
  obtain ⟨hxrange, hxcast⟩ := hx
  rw [hy.2] at hcast
  rw [nttButterfly, ← hcast, ← hxcast]
  generalize montgomeryReduce (zeta.toInt64 * y.toInt64) = t at *
  rw [cast_modulusQ] at *
  rw [abs_lt] at hrange
  rw [abs_le] at hxrange
  have hadd : (x + t).toInt = x.toInt + t.toInt := toInt_add_of_fits (by omega) (by omega)
  have hsub : (x - t).toInt = x.toInt - t.toInt := toInt_sub_of_fits (by omega) (by omega)
  rw [Stands, Stands, hadd, hsub, abs_le, abs_le, Int.cast_add, Int.cast_sub]
  exact ⟨⟨⟨by omega, by omega⟩, rfl⟩, ⟨by omega, by omega⟩, rfl⟩

theorem rounds_eq : ∀ s < 8, 128 / halfLen 8 s = 2 ^ s := by decide

/-- The loop over `start` takes the factors of the next layer. -/
theorem nttLayer_eq {s : ℕ} (hs : s < 8) (a : Poly) :
    nttLayer (a, 2 ^ s - 1) (halfLen 8 s) =
      (blockLoop (fun b ↦ nttButterfly (zetas.getD (2 ^ s + b) 0)) 0 (halfLen 8 s) (2 ^ s) a,
        2 ^ (s + 1) - 1) := by
  have hpos := Nat.two_pow_pos s
  have hcounter := foldl_counter (fun k block (a : Poly) ↦
    pairLoop (nttButterfly (zetas.getD k 0)) 0 (halfLen 8 s) (2 * halfLen 8 s * block) a)
    a (2 ^ s - 1) (2 ^ s)
  have hnode (block : ℕ) : 2 ^ s - 1 + block + 1 = 2 ^ s + block := by omega
  have hlast : 2 ^ s - 1 + 2 ^ s = 2 ^ (s + 1) - 1 := by
    rw [Nat.pow_succ]
    omega
  simp only [hnode, hlast] at hcounter
  rw [nttLayer, rounds_eq s hs, blockLoop]
  exact hcounter

/-- The nodes of a layer are entries of the table. -/
theorem node_lt {s b : ℕ} (hs : s < 8) (hb : b < 2 ^ s) : 2 ^ s + b < 256 := by
  have hpow : 2 ^ (s + 1) ≤ 2 ^ 8 := Nat.pow_le_pow_right (by omega) hs
  rw [Nat.pow_succ] at hpow
  omega

/-- One layer of `ntt`. -/
theorem represents_nttLayer {s : ℕ} (hs : s < 8) {bound : ℤ} (hbound : bound + modulusQ ≤ 2 ^ 31)
    {a : Poly} {f : ℕ → ZMod modulusQ} (ha : Represents bound a f) :
    Represents (bound + (modulusQ - 1)) (nttLayer (a, 2 ^ s - 1) (halfLen 8 s)).1
      (layer (fun b ↦ zetaOf (2 ^ s + b)) (halfLen 8 s) f) := by
  rw [nttLayer_eq hs]
  apply represents_blockLoop (two_mul_halfLen hs) _ ha
  intro b hb j hj x y hx hy
  rw [layer_left _ _ _ hj, layer_right _ _ _ hj]
  exact stands_nttButterfly (zetas_range _ (node_lt hs hb)) hbound hx hy

/-- The first layers of `ntt`. -/
theorem represents_nttLayers {s : ℕ} (hs : s ≤ 8) {bound : ℤ}
    (hbound : bound + s * (modulusQ - 1) < 2 ^ 31) {a : Poly} {f : ℕ → ZMod modulusQ}
    (ha : Represents bound a f) :
    ∃ a', ((List.range s).map (halfLen 8)).foldl nttLayer (a, 0) = (a', 2 ^ s - 1) ∧
      Represents (bound + s * (modulusQ - 1)) a' (layers zetaOf 8 s f) := by
  induction s with
  | zero => exact ⟨a, rfl, by simpa [layers] using ha⟩
  | succ s ih =>
    have hmodulus := cast_modulusQ
    have hsum : bound + ((s + 1 : ℕ) : ℤ) * (modulusQ - 1) =
        bound + s * (modulusQ - 1) + (modulusQ - 1) := by
      push_cast
      ring
    rw [hsum] at hbound ⊢
    obtain ⟨a', hrun, ha'⟩ := ih (by omega) (by omega)
    refine ⟨(nttLayer (a', 2 ^ s - 1) (halfLen 8 s)).1, ?_, ?_⟩
    · rw [List.range_succ, List.map_append, List.foldl_append, hrun]
      rw [List.map_cons, List.map_nil, List.foldl_cons, List.foldl_nil, nttLayer_eq (by omega)]
    · exact represents_nttLayer (by omega) (by omega) ha'

/-- `ntt` transforms, and every coefficient grows by less than `8 * Q`. -/
theorem ntt_represents {bound : ℤ} (hbound : bound + 8 * (modulusQ - 1) < 2 ^ 31) {a : Poly}
    {f : ℕ → ZMod modulusQ} (ha : Represents bound a f) :
    Represents (bound + 8 * (modulusQ - 1)) (ntt a) (layers zetaOf 8 8 f) := by
  obtain ⟨a', hrun, ha'⟩ := represents_nttLayers le_rfl hbound ha
  have hntt : ntt a = a' := congrArg Prod.fst hrun
  rw [hntt]
  exact ha'

end EvMlDsa
