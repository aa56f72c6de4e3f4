import EvMlDsa.LeafKey
import EvMlDsa.Unpack
import EvMlDsa.Library.Negacyclic

/-!
# Leaf keys are valid

The sum `A * s1 + s2` leaves the standard representatives by up to `ETA` on both sides before
`caddq` and `power2round` see it. It stays far enough from the bounds of the packings
(`caddq_of_range`, `power2round_of_range`), so what the samplers and the arithmetic modulo `Q` are
documented to do (`Vendored.Documented`) is enough for `unpack_pk` and `unpack_sk` to find a key
pair of `A` in the two buffers of `ev_leaf_keypair` (`evLeafKeypair_valid`).
-/

set_option autoImplicit false
set_option relaxedAutoImplicit false

namespace EvMlDsa

open Library.FixedArray Library.Negacyclic

/-! ### Rounding -/

/-- `Q` as a modulus. -/
abbrev modulusQ : ℕ := 8380417

instance : Fact (1 < modulusQ) := ⟨by decide⟩

/-- A sum that fits is the sum. -/
theorem toInt_add_of_fits {x y : Int32} (hlo : -2 ^ 31 ≤ x.toInt + y.toInt)
    (hhi : x.toInt + y.toInt < 2 ^ 31) : (x + y).toInt = x.toInt + y.toInt := by
  rw [Int32.toInt_add]
  exact Int.bmod_eq_of_le (by omega) (by omega)

/-- An arithmetic shift to the right divides and rounds down. -/
theorem toInt_sshiftRight_eq_div (x : BitVec 32) (k : ℕ) :
    (x.sshiftRight k).toInt = x.toInt / 2 ^ k := by
  rw [BitVec.toInt_sshiftRight, Int.shiftRight_eq_div_pow]
  push_cast
  rfl

/-- `caddq` adds `Q` to negative values. -/
theorem caddq_eq (a : Int32) : caddq a = if a.toInt < 0 then a + dilithiumQ else a := by
  have hsign : (a >>> 31).toInt = a.toInt / 2 ^ 31 := toInt_sshiftRight_eq_div a.toBitVec 31
  have hlo := a.le_toInt
  have hhi := a.toInt_lt
  rw [caddq]
  split_ifs with hneg
  · have hones : a >>> 31 = -1 := by
      rw [← Int32.toInt_inj, hsign]
      show a.toInt / 2 ^ 31 = -1
      omega
    rw [hones, Int32.neg_one_and]
  · have hzero : a >>> 31 = 0 := by
      rw [← Int32.toInt_inj, hsign]
      show a.toInt / 2 ^ 31 = 0
      omega
    rw [hzero, Int32.zero_and, Int32.add_zero]

theorem caddq_of_range {a : Int32} (hlo : -8380420 ≤ a.toInt) (hhi : a.toInt ≤ 8380420) :
    (-3 ≤ (caddq a).toInt ∧ (caddq a).toInt ≤ 8380420) ∧
      ((caddq a).toInt : ZMod modulusQ) = (a.toInt : ZMod modulusQ) := by
  have hmodulus : dilithiumQ.toInt = 8380417 := by decide
  rw [caddq_eq]
  split_ifs with hneg
  · have hsum : (a + dilithiumQ).toInt = a.toInt + 8380417 := by
      rw [toInt_add_of_fits (by omega) (by omega), hmodulus]
    rw [hsum]
    refine ⟨by omega, ?_⟩
    rw [ZMod.intCast_eq_intCast_iff_dvd_sub]
    exact ⟨-1, by push_cast; omega⟩
  · exact ⟨by omega, rfl⟩

/-- Away from the bounds of its type, `power2round` rounds to the nearest multiple of `2 ^ D`, down
from the middle. -/
theorem power2round_of_range {a : Int32} (hlo : -4095 ≤ a.toInt) (hhi : a.toInt ≤ 8384512) :
    (0 ≤ (power2round a).1.toInt ∧ (power2round a).1.toInt ≤ 1023) ∧
      (-2 ^ 12 + 1 ≤ (power2round a).2.toInt ∧ (power2round a).2.toInt ≤ 2 ^ 12) ∧
      (power2round a).1.toInt * 2 ^ 13 + (power2round a).2.toInt = a.toInt := by
  have hsub : (a + ((1 : Int32) <<< 12) - 1).toInt = a.toInt + 4095 := by
    have hconst : ((1 : Int32) <<< 12).toInt = 4096 := by decide
    have hone : (1 : Int32).toInt = 1 := by decide
    have hadd : (a + ((1 : Int32) <<< 12)).toInt = a.toInt + 4096 := by
      rw [toInt_add_of_fits (by omega) (by omega), hconst]
    rw [toInt_sub_of_fits (by omega) (by omega), hadd, hone]
    omega
  have hfirst : (power2round a).1.toInt = (a.toInt + 4095) / 2 ^ 13 := by
    rw [← hsub]
    exact toInt_sshiftRight_eq_div (a + ((1 : Int32) <<< 12) - 1).toBitVec 13
  have hmultiple : ((power2round a).1 <<< 13).toInt = (power2round a).1.toInt * 2 ^ 13 := by
    have hmul : (power2round a).1 <<< 13 = (power2round a).1 * 8192 := by
      rw [← Int32.toBitVec_inj]
      exact BitVec.shiftLeft_eq_mul_twoPow _ _
    rw [hmul, Int32.toInt_mul]
    have hfactor : (8192 : Int32).toInt = 2 ^ 13 := by decide
    rw [hfactor]
    exact Int.bmod_eq_of_le (by omega) (by omega)
  have hsecond : (power2round a).2.toInt = a.toInt - (power2round a).1.toInt * 2 ^ 13 := by
    have hdef : (power2round a).2 = a - ((power2round a).1 <<< 13) := rfl
    rw [hdef, toInt_sub_of_fits (by omega) (by omega), hmultiple]
  omega

/-! ### The ring -/

/-- `Z_Q[X] / (X ^ N + 1)`. -/
abbrev Rq := NegacyclicRing (ZMod modulusQ) 256

/-- The residues of the coefficients of a polynomial. -/
def Poly.residues (a : Poly) : Fin 256 → ZMod modulusQ := fun k ↦ (a[k].toInt : ZMod modulusQ)

/-- The ring element that a polynomial stands for. -/
noncomputable def Poly.toRq (a : Poly) : Rq := ofCoeffs (ZMod modulusQ) 256 a.residues

@[simp] theorem Poly.coeffs_toRq (a : Poly) : coeffs (ZMod modulusQ) 256 a.toRq = a.residues :=
  coeffs_ofCoeffs a.residues

theorem Poly.CoeffsIn.getElem {lo hi : ℤ} {a : Poly} (ha : a.CoeffsIn lo hi) (k : Fin 256) :
    lo ≤ (a[k]).toInt ∧ (a[k]).toInt ≤ hi :=
  ha k k.isLt

/-- The ring vector that a vector of polynomials stands for. -/
noncomputable def vecToRq {count : ℕ} (vec : Vector Poly count) : Fin count → Rq :=
  fun i ↦ vec[i].toRq

section Contract

variable {mode : DilithiumMode} {Rnd : Type}

/-- `invntt_tomont` of `reduce` of `pointwise_montgomery` of `ntt`. -/
def Vendored.product (vendored : Vendored mode Rnd) (mat : Vector (Vector Poly mode.L) mode.K)
    (s1 : Vector Poly mode.L) : Vector Poly mode.K :=
  vendored.polyveckInvnttTomont (vendored.polyveckReduce
    (vendored.polyvecMatrixPointwiseMontgomery mat (vendored.polyveclNtt s1)))

/-- What the samplers and the arithmetic modulo `Q` are documented to do, where `matrix` is the
matrix over the ring that an expanded array stands for. -/
structure Vendored.Documented (vendored : Vendored mode Rnd)
    (matrix : Vector (Vector Poly mode.L) mode.K → Matrix (Fin mode.K) (Fin mode.L) Rq) :
    Prop where
  polyveclUniformEta (seed : List UInt8) (nonce : UInt16) (i : Fin mode.L) :
    ((vendored.polyveclUniformEta seed nonce)[i]).CoeffsIn (-mode.eta.toInt) mode.eta.toInt
  polyveckUniformEta (seed : List UInt8) (nonce : UInt16) (i : Fin mode.K) :
    ((vendored.polyveckUniformEta seed nonce)[i]).CoeffsIn (-mode.eta.toInt) mode.eta.toInt
  /-- every coefficient has an absolute value below `Q` -/
  product_range (rho : Block) {s1 : Vector Poly mode.L}
    (hs1 : ∀ i : Fin mode.L, s1[i].CoeffsIn (-mode.eta.toInt) mode.eta.toInt) (i : Fin mode.K) :
    ((vendored.product (vendored.polyvecMatrixExpand rho) s1)[i]).CoeffsIn
      (-(modulusQ - 1)) (modulusQ - 1)
  /-- and is congruent to the one of `A * s1` -/
  product_eq (rho : Block) {s1 : Vector Poly mode.L}
    (hs1 : ∀ i : Fin mode.L, s1[i].CoeffsIn (-mode.eta.toInt) mode.eta.toInt) :
    vecToRq (vendored.product (vendored.polyvecMatrixExpand rho) s1) =
      (matrix (vendored.polyvecMatrixExpand rho)).mulVec (vecToRq s1)

/-! ### The parts of a leaf key -/

variable (vendored : Vendored mode Rnd) (rhoP leafSeed : Block)

/-- `exp`. -/
def leafExp : Vector UInt8 (crhBytes + seedBytes) :=
  vendored.shake256 (crhBytes + seedBytes)
    (evDomLeafkey :: UInt8.ofNat mode.K :: UInt8.ofNat mode.L :: leafSeed.toList)

/-- `rhoprime`, the first `CRHBYTES` bytes of `exp`. -/
def leafRhoprime : List UInt8 := (leafExp vendored leafSeed).toList.take crhBytes

/-- `key`, the bytes of `exp` from `CRHBYTES` on. -/
def leafKey : Vector UInt8 seedBytes :=
  Vector.ofFn fun i ↦ (leafExp vendored leafSeed).getD (crhBytes + i.val) 0

/-- `s1` as sampled. -/
def leafS1 : Vector Poly mode.L := vendored.polyveclUniformEta (leafRhoprime vendored leafSeed) 0

/-- `s2` as sampled. -/
def leafS2 : Vector Poly mode.K :=
  vendored.polyveckUniformEta (leafRhoprime vendored leafSeed) (UInt16.ofNat mode.L)

/-- What `polyveck_power2round` gets. -/
def leafT : Vector Poly mode.K :=
  polyveckCaddq (polyveckAdd
    (vendored.product (vendored.polyvecMatrixExpand rhoP) (leafS1 vendored leafSeed))
    (leafS2 vendored leafSeed))

theorem toList_leafKey :
    (leafKey vendored leafSeed).toList = (leafExp vendored leafSeed).toList.drop crhBytes := by
  refine List.ext_getElem (by simp) fun k hk hk' ↦ ?_
  have hsize : crhBytes + k < crhBytes + seedBytes := by
    rw [Vector.length_toList] at hk
    omega
  simp only [leafKey, Vector.getElem_toList, Vector.getElem_ofFn, List.getElem_drop]
  exact getD_eq_getElem _ 0 hsize

theorem evLeafKeypair_eq (leafPk : Vector UInt8 (cryptoPublickeybytes mode))
    (leafSk : Vector UInt8 (cryptoSecretkeybytes mode)) :
    evLeafKeypair vendored rhoP leafSeed leafPk leafSk =
      (packPk mode leafPk rhoP.toList (polyveckPower2round (leafT vendored rhoP leafSeed)).1,
        packSk mode leafSk rhoP.toList
          (vendored.shake256 trBytes (packPk mode leafPk rhoP.toList
            (polyveckPower2round (leafT vendored rhoP leafSeed)).1).toList).toList
          (leafKey vendored leafSeed).toList (polyveckPower2round (leafT vendored rhoP leafSeed)).2
          (leafS1 vendored leafSeed) (leafS2 vendored leafSeed)) := by
  rw [toList_leafKey]
  rfl

variable {vendored}
  {matrix : Vector (Vector Poly mode.L) mode.K → Matrix (Fin mode.K) (Fin mode.L) Rq}

theorem eta_range (mode : DilithiumMode) : 0 < mode.eta.toInt ∧ mode.eta.toInt ≤ 4 := by
  cases mode <;> decide

theorem Vendored.Documented.leafS1_range (hdoc : vendored.Documented matrix) (i : Fin mode.L) :
    ((leafS1 vendored leafSeed)[i]).CoeffsIn (-mode.eta.toInt) mode.eta.toInt :=
  hdoc.polyveclUniformEta _ _ i

theorem Vendored.Documented.leafS2_range (hdoc : vendored.Documented matrix) (i : Fin mode.K) :
    ((leafS2 vendored leafSeed)[i]).CoeffsIn (-mode.eta.toInt) mode.eta.toInt :=
  hdoc.polyveckUniformEta _ _ i

/-- The coefficients of `A * s1 + s2`. -/
noncomputable def leafCoeffs (vendored : Vendored mode Rnd)
    (matrix : Vector (Vector Poly mode.L) mode.K → Matrix (Fin mode.K) (Fin mode.L) Rq)
    (rhoP leafSeed : Block) (i : Fin mode.K) : Fin 256 → ZMod modulusQ :=
  coeffs (ZMod modulusQ) 256 (((matrix (vendored.polyvecMatrixExpand rhoP)).mulVec
    (vecToRq (leafS1 vendored leafSeed)) + vecToRq (leafS2 vendored leafSeed)) i)

/-- The coefficients that are rounded: at most `ETA` outside of the standard representatives, and
congruent to those of `A * s1 + s2`. -/
theorem Vendored.Documented.leafT_coeff (hdoc : vendored.Documented matrix) (i : Fin mode.K)
    (j : Fin 256) :
    (-3 ≤ ((leafT vendored rhoP leafSeed)[i][j]).toInt ∧
        ((leafT vendored rhoP leafSeed)[i][j]).toInt ≤ 8380420) ∧
      (((leafT vendored rhoP leafSeed)[i][j]).toInt : ZMod modulusQ) =
        leafCoeffs vendored matrix rhoP leafSeed i j := by
  have heta := eta_range mode
  have hs1 := hdoc.leafS1_range leafSeed
  have hcoeffs : leafCoeffs vendored matrix rhoP leafSeed i j =
      ((vendored.product (vendored.polyvecMatrixExpand rhoP)
          (leafS1 vendored leafSeed))[i]).residues j +
        ((leafS2 vendored leafSeed)[i]).residues j := by
    rw [leafCoeffs, ← hdoc.product_eq rhoP hs1, Pi.add_apply, map_add, Pi.add_apply, vecToRq,
      vecToRq, Poly.coeffs_toRq, Poly.coeffs_toRq]
  have hw := (hdoc.product_range rhoP hs1 i).getElem j
  have hs := (hdoc.leafS2_range leafSeed i).getElem j
  have ht : (leafT vendored rhoP leafSeed)[i][j] =
      caddq ((vendored.product (vendored.polyvecMatrixExpand rhoP)
        (leafS1 vendored leafSeed))[i][j] + (leafS2 vendored leafSeed)[i][j]) := by
    simp [leafT, polyveckCaddq, polyveckAdd]
  rw [ht, hcoeffs, Poly.residues, Poly.residues]
  generalize (vendored.product (vendored.polyvecMatrixExpand rhoP) (leafS1 vendored leafSeed))[i][j]
    = w at *
  generalize (leafS2 vendored leafSeed)[i][j] = s at *
  have hmodulus : (modulusQ : ℤ) = 8380417 := rfl
  have hsum : (w + s).toInt = w.toInt + s.toInt := toInt_add_of_fits (by omega) (by omega)
  have hlo : -8380420 ≤ (w + s).toInt := by omega
  have hhi : (w + s).toInt ≤ 8380420 := by omega
  have hcaddq := caddq_of_range hlo hhi
  rw [hsum, Int.cast_add] at hcaddq
  exact hcaddq

/-- The two parts of a rounded coefficient fit their packings and make up the coefficient. -/
theorem Vendored.Documented.power2round_leafT (hdoc : vendored.Documented matrix) (i : Fin mode.K)
    (j : Fin 256) {t1 t0 : Vector Poly mode.K}
    (hparts : polyveckPower2round (leafT vendored rhoP leafSeed) = (t1, t0)) :
    (0 ≤ (t1[i][j]).toInt ∧ (t1[i][j]).toInt ≤ 1023) ∧
      (-2 ^ 12 + 1 ≤ (t0[i][j]).toInt ∧ (t0[i][j]).toInt ≤ 2 ^ 12) ∧
      (((t1[i][j]).toInt * 2 ^ 13 + (t0[i][j]).toInt : ℤ) : ZMod modulusQ) =
        leafCoeffs vendored matrix rhoP leafSeed i j := by
  rw [polyveckPower2round, Prod.mk.injEq] at hparts
  have ht1 : t1[i][j] = (power2round (leafT vendored rhoP leafSeed)[i][j]).1 := by
    simp [← hparts.1]
  have ht0 : t0[i][j] = (power2round (leafT vendored rhoP leafSeed)[i][j]).2 := by
    simp [← hparts.2]
  obtain ⟨⟨hlo, hhi⟩, hcoeff⟩ := hdoc.leafT_coeff rhoP leafSeed i j
  generalize (leafT vendored rhoP leafSeed)[i][j] = t at *
  have hlo' : -4095 ≤ t.toInt := by omega
  have hhi' : t.toInt ≤ 8384512 := by omega
  obtain ⟨hfirst, hsecond, hwhole⟩ := power2round_of_range hlo' hhi'
  rw [ht1, ht0, hwhole]
  exact ⟨hfirst, hsecond, hcoeff⟩

/-- The two keys hold a key pair of the matrix: what `unpack_pk` and `unpack_sk` find, and how `t1`
and `t0` are related to the secret vectors. -/
structure ValidLeafKey (vendored : Vendored mode Rnd)
    (matrix : Vector (Vector Poly mode.L) mode.K → Matrix (Fin mode.K) (Fin mode.L) Rq)
    (rhoP leafSeed : Block) (leafPk : Vector UInt8 (cryptoPublickeybytes mode))
    (leafSk : Vector UInt8 (cryptoSecretkeybytes mode)) (t1 t0 : Vector Poly mode.K) : Prop where
  unpack_pk : unpackPk mode leafPk = (rhoP, t1)
  unpack_sk : unpackSk mode leafSk =
    { rho := rhoP
      tr := vendored.shake256 trBytes leafPk.toList
      key := leafKey vendored leafSeed
      t0 := t0
      s1 := leafS1 vendored leafSeed
      s2 := leafS2 vendored leafSeed }
  t1_range (i : Fin mode.K) (j : Fin 256) : 0 ≤ (t1[i][j]).toInt ∧ (t1[i][j]).toInt ≤ 1023
  t0_range (i : Fin mode.K) (j : Fin 256) :
    -2 ^ 12 < (t0[i][j]).toInt ∧ (t0[i][j]).toInt ≤ 2 ^ 12
  congruent (i : Fin mode.K) (j : Fin 256) :
    (((t1[i][j]).toInt * 2 ^ 13 + (t0[i][j]).toInt : ℤ) : ZMod modulusQ) =
      leafCoeffs vendored matrix rhoP leafSeed i j

/-- `ev_leaf_keypair` makes valid leaf keys. -/
theorem evLeafKeypair_valid (hdoc : vendored.Documented matrix) (rhoP leafSeed : Block)
    (leafPk : Vector UInt8 (cryptoPublickeybytes mode))
    (leafSk : Vector UInt8 (cryptoSecretkeybytes mode)) :
    ∃ t1 t0, ValidLeafKey vendored matrix rhoP leafSeed
      (evLeafKeypair vendored rhoP leafSeed leafPk leafSk).1
      (evLeafKeypair vendored rhoP leafSeed leafPk leafSk).2 t1 t0 := by
  obtain ⟨t1, t0, hparts⟩ :
      ∃ t1 t0, polyveckPower2round (leafT vendored rhoP leafSeed) = (t1, t0) := ⟨_, _, rfl⟩
  have hround (i : Fin mode.K) (j : Fin 256) :=
    hdoc.power2round_leafT rhoP leafSeed i j hparts
  refine ⟨t1, t0, ?_⟩
  rw [evLeafKeypair_eq, hparts]
  constructor
  · apply unpackPk_packPk
    intro i hi j hj
    exact (hround ⟨i, hi⟩ ⟨j, hj⟩).1
  · apply unpackSk_packSk
    · intro i hi j hj
      exact (hround ⟨i, hi⟩ ⟨j, hj⟩).2.1
    · intro i hi
      exact hdoc.leafS1_range leafSeed ⟨i, hi⟩
    · intro i hi
      exact hdoc.leafS2_range leafSeed ⟨i, hi⟩
  · intro i j
    exact (hround i j).1
  · intro i j
    have hrange := (hround i j).2.1
    omega
  · intro i j
    exact (hround i j).2.2

end Contract

/-! ### The documented behaviour can be had -/

/-- The standard representative of a residue. -/
def ofResidue (x : ZMod modulusQ) : Int32 := Int32.ofNat x.val

theorem toInt_ofResidue (x : ZMod modulusQ) : (ofResidue x).toInt = x.val := by
  have hlt : x.val < 8380417 := ZMod.val_lt x
  exact Int32.toInt_ofNat_of_lt (by omega)

/-- A polynomial with the given residues. -/
def polyOfResidues (residues : Fin 256 → ZMod modulusQ) : Poly :=
  Vector.ofFn fun k ↦ ofResidue (residues k)

/-- Coefficients taken from the bytes of a seed, `ETA` subtracted. -/
def polyOfSeed (mode : DilithiumMode) (seed : List UInt8) (nonce : ℕ) : Poly :=
  Vector.ofFn fun k ↦
    Int32.ofNat ((seed.getD ((k.val + nonce) % 64) 0).toNat % (2 * mode.eta.toInt.toNat + 1)) -
      mode.eta

/-- Multiplication in the ring by the definition of the product, in place of the number theoretic
transform. -/
def schoolbook (mode : DilithiumMode) : Vendored mode Unit where
  shake256 outlen input := Vector.ofFn fun i ↦ input.getD (i.val % input.length) 0 + UInt8.ofNat i
  polyvecMatrixExpand rho := Vector.ofFn fun i ↦ Vector.ofFn fun j ↦ Vector.ofFn fun k ↦
    Int32.ofNat (rho.getD ((i.val + j.val + k.val) % 32) 0).toNat
  polyveclUniformEta seed nonce := Vector.ofFn fun i ↦ polyOfSeed mode seed (nonce.toNat + i.val)
  polyveckUniformEta seed nonce := Vector.ofFn fun i ↦ polyOfSeed mode seed (nonce.toNat + i.val)
  polyveclNtt s := s
  polyvecMatrixPointwiseMontgomery mat s := Vector.ofFn fun i ↦ polyOfResidues fun k ↦
    ∑ j : Fin mode.L, convolution mat[i][j].residues s[j].residues k
  polyveckReduce t := t
  polyveckInvnttTomont t := t
  cryptoSignSignature _ _ _ := (0, [])
  cryptoSignVerify _ _ _ := 0

/-- The ring elements of the polynomials of a matrix. -/
noncomputable def schoolbookMatrix (mode : DilithiumMode)
    (mat : Vector (Vector Poly mode.L) mode.K) : Matrix (Fin mode.K) (Fin mode.L) Rq :=
  .of fun i j ↦ mat[i][j].toRq

theorem residues_polyOfResidues (residues : Fin 256 → ZMod modulusQ) :
    (polyOfResidues residues).residues = residues := by
  funext k
  have hcoeff : (polyOfResidues residues)[k] = ofResidue (residues k) := by
    simp [polyOfResidues]
  rw [Poly.residues, hcoeff, toInt_ofResidue, Int.cast_natCast, ZMod.natCast_zmod_val]

theorem polyOfResidues_range (residues : Fin 256 → ZMod modulusQ) :
    (polyOfResidues residues).CoeffsIn (-(modulusQ - 1)) (modulusQ - 1) := by
  intro k hk
  have hcoeff : (polyOfResidues residues)[k] = ofResidue (residues ⟨k, hk⟩) := by
    simp [polyOfResidues]
  have hlt : (residues ⟨k, hk⟩).val < modulusQ := ZMod.val_lt _
  rw [hcoeff, toInt_ofResidue]
  omega

theorem polyOfSeed_range (mode : DilithiumMode) (seed : List UInt8) (nonce : ℕ) :
    (polyOfSeed mode seed nonce).CoeffsIn (-mode.eta.toInt) mode.eta.toInt := by
  intro k hk
  have heta := eta_range mode
  have hcoeff : (polyOfSeed mode seed nonce)[k] =
      Int32.ofNat ((seed.getD ((k + nonce) % 64) 0).toNat %
        (2 * mode.eta.toInt.toNat + 1)) - mode.eta := by
    simp [polyOfSeed]
  rw [hcoeff]
  generalize (seed.getD ((k + nonce) % 64) 0).toNat = byte
  have hmod : byte % (2 * mode.eta.toInt.toNat + 1) < 2 * mode.eta.toInt.toNat + 1 :=
    Nat.mod_lt byte (Nat.succ_pos _)
  have hcode : (Int32.ofNat (byte % (2 * mode.eta.toInt.toNat + 1))).toInt =
      (byte % (2 * mode.eta.toInt.toNat + 1) : ℕ) := Int32.toInt_ofNat_of_lt (by omega)
  rw [toInt_sub_of_fits (by omega) (by omega), hcode]
  omega

/-- The schoolbook product behaves as documented. -/
theorem schoolbook_documented (mode : DilithiumMode) :
    (schoolbook mode).Documented (schoolbookMatrix mode) := by
  have hproduct (mat : Vector (Vector Poly mode.L) mode.K) (s1 : Vector Poly mode.L)
      (i : Fin mode.K) :
      ((schoolbook mode).product mat s1)[i] = polyOfResidues fun k ↦
        ∑ j : Fin mode.L, convolution mat[i][j].residues s1[j].residues k := by
    simp [Vendored.product, schoolbook]
  constructor
  · intro seed nonce i
    simp only [schoolbook, Fin.getElem_fin, Vector.getElem_ofFn]
    exact polyOfSeed_range mode seed _
  · intro seed nonce i
    simp only [schoolbook, Fin.getElem_fin, Vector.getElem_ofFn]
    exact polyOfSeed_range mode seed _
  · intro rho s1 _ i
    rw [hproduct]
    exact polyOfResidues_range _
  · intro rho s1 _
    funext i
    rw [vecToRq, hproduct, Poly.toRq, residues_polyOfResidues]
    simp only [Matrix.mulVec, dotProduct, schoolbookMatrix, Matrix.of_apply, vecToRq, Poly.toRq,
      ← ofCoeffs_mul]
    rw [← map_sum]
    congr 1
    funext k
    rw [Finset.sum_apply]

/-- A leaf key in mode three. -/
theorem schoolbook_leafKey_valid :
    ∃ leafPk leafSk t1 t0,
      evLeafKeypair (schoolbook .three) (Vector.replicate 32 7) (Vector.replicate 32 1)
        (Vector.replicate _ 0) (Vector.replicate _ 0) = (leafPk, leafSk) ∧
      ValidLeafKey (schoolbook .three) (schoolbookMatrix .three) (Vector.replicate 32 7)
        (Vector.replicate 32 1) leafPk leafSk t1 t0 := by
  obtain ⟨t1, t0, hvalid⟩ := evLeafKeypair_valid (schoolbook_documented .three)
    (Vector.replicate 32 7) (Vector.replicate 32 1) (Vector.replicate _ 0) (Vector.replicate _ 0)
  exact ⟨_, _, t1, t0, rfl, hvalid⟩

end EvMlDsa
