import EvMlDsa.Lattice.Sign

/-!
# Key pairs

What `crypto_sign_keypair` leaves in its two buffers: `unpack_pk` and `unpack_sk` find a rounded
product of the matrix and short vectors (`cryptoSignKeypair_keyPair`). Signing and verification need
nothing else of a key pair.
-/

set_option autoImplicit false
set_option relaxedAutoImplicit false

namespace EvMlDsa

open Library.FixedArray Library.Rejection

variable {mode : DilithiumMode}

/-- The parts of a key pair. -/
structure KeyParts (mode : DilithiumMode) where
  rho : Vector UInt8 seedBytes
  key : Vector UInt8 seedBytes
  mat : Vector (Vector Poly mode.L) mode.K
  t1 : Vector Poly mode.K
  t0 : Vector Poly mode.K
  s1 : Vector Poly mode.L
  s2 : Vector Poly mode.K

/-- The two buffers hold a key pair with the given parts. -/
structure KeyPair (xof : Xof) (fuel : ℕ) (pk : Vector UInt8 (cryptoPublickeybytes mode))
    (sk : Vector UInt8 (cryptoSecretkeybytes mode)) (parts : KeyParts mode) : Prop where
  expand : polyvecMatrixExpand mode xof fuel parts.rho.toList = some parts.mat
  unpack_pk : unpackPk mode pk = (parts.rho, parts.t1)
  unpack_sk : unpackSk mode sk =
    { rho := parts.rho, tr := xof.squeeze256 trBytes pk.toList, key := parts.key, t0 := parts.t0
      s1 := parts.s1, s2 := parts.s2 }
  t1_range (i : ℕ) (hi : i < mode.K) : (parts.t1[i]).CoeffsIn 0 1023
  t0_range (i : ℕ) (hi : i < mode.K) : (parts.t0[i]).CoeffsIn (-2 ^ 12 + 1) (2 ^ 12)
  s1_range (i : ℕ) (hi : i < mode.L) :
    (parts.s1[i]).CoeffsIn (-mode.eta.toInt) mode.eta.toInt
  s2_range (i : ℕ) (hi : i < mode.K) :
    (parts.s2[i]).CoeffsIn (-mode.eta.toInt) mode.eta.toInt
  rounded (i : ℕ) (hi : i < mode.K) :
    (2 ^ 13 : ZMod modulusQ) • parts.t1[i].toRq + parts.t0[i].toRq =
      rowProduct parts.mat[i] parts.s1 + parts.s2[i].toRq

/-- What `polyveck_power2round` gets. -/
def keyT (mat : Vector (Vector Poly mode.L) mode.K) (s1 : Vector Poly mode.L)
    (s2 : Vector Poly mode.K) : Vector Poly mode.K :=
  polyveckCaddq (polyveckAdd (polyvecInvnttTomont (polyvecReduce
    (polyvecMatrixPointwiseMontgomery mat (polyvecNtt s1)))) s2)

theorem L_range (mode : DilithiumMode) :
    0 < mode.L ∧ (mode.L : ℤ) * (modulusQ - 1) + (modulusQ - 1) ≤ 2 ^ 31 - 2 ^ 22 - 1 := by
  cases mode <;> decide

section Rounded

variable {mat : Vector (Vector Poly mode.L) mode.K} {s1 : Vector Poly mode.L}
  {s2 : Vector Poly mode.K}
  (hmat : ∀ i (hi : i < mode.K) j (hj : j < mode.L), (mat[i][j]).CoeffsIn 0 (modulusQ - 1))
  (hs1 : ∀ j (hj : j < mode.L), (s1[j]).CoeffsIn (-mode.eta.toInt) mode.eta.toInt)
  (hs2 : ∀ i (hi : i < mode.K), (s2[i]).CoeffsIn (-mode.eta.toInt) mode.eta.toInt)
include hmat hs1 hs2

/-- The two parts of a rounded coefficient. -/
theorem power2round_keyT {i : ℕ} (hi : i < mode.K) {k : ℕ} (hk : k < 256) :
    let t := ((keyT mat s1 s2)[i]).getD k 0
    (0 ≤ (power2round t).1.toInt ∧ (power2round t).1.toInt ≤ 1023) ∧
      (-2 ^ 12 + 1 ≤ (power2round t).2.toInt ∧ (power2round t).2.toInt ≤ 2 ^ 12) ∧
      2 ^ 13 * ((power2round t).1.toInt : ZMod modulusQ) +
          ((power2round t).2.toInt : ZMod modulusQ) =
        (rowProduct mat[i] s1 + s2[i].toRq).coeffSeq k := by
  intro t
  obtain ⟨hL, hsum⟩ := L_range mode
  have heta := eta_range mode
  have hproduct := represents_rowProduct hL (hmat i hi) hs1
    (by rw [cast_modulusQ]; omega) (by rw [cast_modulusQ] at hsum ⊢; omega)
  have hwhole := hproduct.add (represents_toRq (hs2 i hi)) (by rw [cast_modulusQ]; omega)
  have ht : t = caddq ((polyAdd (invnttTomont (polyReduce
      (polyveclPointwiseAccMontgomery mat[i] (polyvecNtt s1)))) s2[i]).getD k 0) := by
    have hcell : (keyT mat s1 s2)[i] = (polyAdd (invnttTomont (polyReduce
        (polyveclPointwiseAccMontgomery mat[i] (polyvecNtt s1)))) s2[i]).map caddq := by
      simp only [keyT, polyveckCaddq, polyveckAdd, polyvecInvnttTomont, polyvecReduce,
        polyvecMatrixPointwiseMontgomery, Vector.getElem_map, Vector.getElem_zipWith]
      rfl
    show ((keyT mat s1 s2)[i]).getD k 0 = _
    rw [hcell, getD_map_poly _ _ hk]
  have hrange := abs_le.mp (hwhole.range k hk)
  rw [cast_modulusQ] at hrange
  obtain ⟨⟨hlo, hhi⟩, hcast⟩ := caddq_of_range (le_trans (by omega) hrange.1)
    (le_trans hrange.2 (by omega))
  rw [← ht] at hlo hhi hcast
  obtain ⟨hfirst, hsecond, hparts⟩ := power2round_of_range
    (by omega : -4095 ≤ t.toInt) (by omega : t.toInt ≤ 8384512)
  refine ⟨hfirst, hsecond, ?_⟩
  have hwholeCast := hwhole.cast k hk
  rw [← hcast, ← hparts] at hwholeCast
  rw [Rq.coeffSeq_add, ← hwholeCast]
  push_cast
  ring

/-- `power2round` leaves the parts of a key. -/
theorem power2round_parts {t1 t0 : Vector Poly mode.K}
    (hparts : polyveckPower2round (keyT mat s1 s2) = (t1, t0)) {i : ℕ} (hi : i < mode.K) :
    (t1[i]).CoeffsIn 0 1023 ∧ (t0[i]).CoeffsIn (-2 ^ 12 + 1) (2 ^ 12) ∧
      (2 ^ 13 : ZMod modulusQ) • t1[i].toRq + t0[i].toRq = rowProduct mat[i] s1 + s2[i].toRq := by
  rw [polyveckPower2round, Prod.mk.injEq] at hparts
  have ht1 (k : ℕ) (hk : k < 256) :
      t1[i].getD k 0 = (power2round (((keyT mat s1 s2)[i]).getD k 0)).1 := by
    rw [← hparts.1, Vector.getElem_map, getD_map_poly _ _ hk]
  have ht0 (k : ℕ) (hk : k < 256) :
      t0[i].getD k 0 = (power2round (((keyT mat s1 s2)[i]).getD k 0)).2 := by
    rw [← hparts.2, Vector.getElem_map, getD_map_poly _ _ hk]
  refine ⟨fun k hk ↦ ?_, fun k hk ↦ ?_, Rq.ext_coeffSeq fun k hk ↦ ?_⟩
  · rw [← getD_eq_getElem _ 0 hk, ht1 k hk]
    exact (power2round_keyT hmat hs1 hs2 hi hk).1
  · rw [← getD_eq_getElem _ 0 hk, ht0 k hk]
    exact (power2round_keyT hmat hs1 hs2 hi hk).2.1
  · rw [Rq.coeffSeq_add, Rq.coeffSeq_smul, Rq.coeffSeq_toRq _ hk, Rq.coeffSeq_toRq _ hk, ht1 k hk,
      ht0 k hk]
    exact (power2round_keyT hmat hs1 hs2 hi hk).2.2

end Rounded

/-- The parts of a key pair that is made from samples. -/
def KeyParts.ofSamples (rho key : Vector UInt8 seedBytes) (mat : Vector (Vector Poly mode.L) mode.K)
    (s1 : Vector Poly mode.L) (s2 : Vector Poly mode.K) : KeyParts mode :=
  let (t1, t0) := polyveckPower2round (keyT mat s1 s2)
  { rho := rho, key := key, mat := mat, t1 := t1, t0 := t0, s1 := s1, s2 := s2 }

/-- The two buffers after the packing of a key pair. -/
def packKeys (xof : Xof) (parts : KeyParts mode) (pk : Vector UInt8 (cryptoPublickeybytes mode))
    (sk : Vector UInt8 (cryptoSecretkeybytes mode)) :
    Vector UInt8 (cryptoPublickeybytes mode) × Vector UInt8 (cryptoSecretkeybytes mode) :=
  let pk := packPk mode pk parts.rho.toList parts.t1
  (pk, packSk mode sk parts.rho.toList (xof.squeeze256 trBytes pk.toList).toList parts.key.toList
    parts.t0 parts.s1 parts.s2)

/-- Packed samples are a key pair. -/
theorem packKeys_keyPair {xof : Xof} {fuel : ℕ} {rho : Vector UInt8 seedBytes}
    (key : Vector UInt8 seedBytes) {mat : Vector (Vector Poly mode.L) mode.K}
    (hmat : polyvecMatrixExpand mode xof fuel rho.toList = some mat) {s1 : Vector Poly mode.L}
    (hs1 : ∀ j (hj : j < mode.L), (s1[j]).CoeffsIn (-mode.eta.toInt) mode.eta.toInt)
    {s2 : Vector Poly mode.K}
    (hs2 : ∀ i (hi : i < mode.K), (s2[i]).CoeffsIn (-mode.eta.toInt) mode.eta.toInt)
    (pk : Vector UInt8 (cryptoPublickeybytes mode))
    (sk : Vector UInt8 (cryptoSecretkeybytes mode)) :
    let parts := KeyParts.ofSamples rho key mat s1 s2
    KeyPair xof fuel (packKeys xof parts pk sk).1 (packKeys xof parts pk sk).2 parts := by
  intro parts
  have hrounded (i : ℕ) (hi : i < mode.K) :=
    power2round_parts (polyvecMatrixExpand_range hmat) hs1 hs2
      (rfl : polyveckPower2round (keyT mat s1 s2) = (parts.t1, parts.t0)) hi
  exact {
    expand := hmat
    unpack_pk := unpackPk_packPk mode pk rho fun i hi ↦ (hrounded i hi).1
    unpack_sk := unpackSk_packSk mode sk rho _ key (fun i hi ↦ (hrounded i hi).2.1) hs1 hs2
    t1_range := fun i hi ↦ (hrounded i hi).1
    t0_range := fun i hi ↦ (hrounded i hi).2.1
    s1_range := hs1
    s2_range := hs2
    rounded := fun i hi ↦ (hrounded i hi).2.2 }

/-! ### Key generation -/

/-- The seeds `crypto_sign_keypair` expands its random bytes to. -/
def keypairSeeds (mode : DilithiumMode) (xof : Xof) (seed : Vector UInt8 seedBytes) : List UInt8 :=
  (xof.squeeze256 (2 * seedBytes + crhBytes)
    (seed.toList ++ [UInt8.ofNat mode.K, UInt8.ofNat mode.L])).toList

theorem length_keypairSeeds (mode : DilithiumMode) (xof : Xof) (seed : Vector UInt8 seedBytes) :
    (keypairSeeds mode xof seed).length = 128 := Vector.length_toList

/-- The bytes of a list as an array. -/
theorem toList_ofFn_getD {width : ℕ} {bytes : List UInt8} (hlength : bytes.length = width) :
    (Vector.ofFn fun i : Fin width ↦ bytes.getD i.val 0).toList = bytes := by
  refine List.ext_getElem (by simp [hlength]) fun k hk hk' ↦ ?_
  rw [Vector.getElem_toList, Vector.getElem_ofFn, List.getD_eq_getElem _ _ hk']

/-- `rhoprime` of `crypto_sign_keypair`. -/
def keypairRhoprime (mode : DilithiumMode) (xof : Xof) (seed : Vector UInt8 seedBytes) :
    List UInt8 :=
  ((keypairSeeds mode xof seed).drop seedBytes).take crhBytes

/-- `crypto_sign_keypair` packs its samples. -/
theorem cryptoSignKeypair_eq (mode : DilithiumMode) (xof : Xof) (fuel : ℕ)
    (seed : Vector UInt8 seedBytes) (pk : Vector UInt8 (cryptoPublickeybytes mode))
    (sk : Vector UInt8 (cryptoSecretkeybytes mode)) :
    ∃ rho key : Vector UInt8 seedBytes,
      cryptoSignKeypair mode xof fuel seed pk sk = (do
        let mat ← polyvecMatrixExpand mode xof fuel rho.toList
        let s1 ← polyvecUniformEta mode mode.L xof fuel (keypairRhoprime mode xof seed) 0
        let s2 ← polyvecUniformEta mode mode.K xof fuel (keypairRhoprime mode xof seed)
          (UInt16.ofNat mode.L)
        some (packKeys xof (KeyParts.ofSamples rho key mat s1 s2) pk sk)) := by
  have hseeds := length_keypairSeeds mode xof seed
  let rho : Vector UInt8 seedBytes :=
    Vector.ofFn fun i ↦ ((keypairSeeds mode xof seed).take seedBytes).getD i.val 0
  let key : Vector UInt8 seedBytes :=
    Vector.ofFn fun i ↦ ((keypairSeeds mode xof seed).drop (seedBytes + crhBytes)).getD i.val 0
  have hrho : rho.toList = (keypairSeeds mode xof seed).take seedBytes :=
    toList_ofFn_getD (by rw [List.length_take, hseeds]; rfl)
  have hkey : key.toList = (keypairSeeds mode xof seed).drop (seedBytes + crhBytes) :=
    toList_ofFn_getD (by rw [List.length_drop, hseeds]; rfl)
  refine ⟨rho, key, ?_⟩
  simp only [packKeys, KeyParts.ofSamples, hrho, hkey]
  rfl

/-- `crypto_sign_keypair` makes key pairs. -/
theorem cryptoSignKeypair_keyPair {xof : Xof} {fuel : ℕ} {seed : Vector UInt8 seedBytes}
    {pk : Vector UInt8 (cryptoPublickeybytes mode)} {sk : Vector UInt8 (cryptoSecretkeybytes mode)}
    {keys : Vector UInt8 (cryptoPublickeybytes mode) × Vector UInt8 (cryptoSecretkeybytes mode)}
    (hkeys : cryptoSignKeypair mode xof fuel seed pk sk = some keys) :
    ∃ parts, KeyPair xof fuel keys.1 keys.2 parts := by
  obtain ⟨rho, key, heq⟩ := cryptoSignKeypair_eq mode xof fuel seed pk sk
  rw [heq] at hkeys
  simp only [Option.bind_eq_bind, Option.bind_eq_some_iff, Option.some.injEq] at hkeys
  obtain ⟨mat, hmat, s1, hs1, s2, hs2, rfl⟩ := hkeys
  exact ⟨_, packKeys_keyPair key hmat (polyvecUniformEta_range hs1) (polyvecUniformEta_range hs2)
    pk sk⟩

end EvMlDsa
