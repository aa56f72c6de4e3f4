import EvMlDsa.Lattice.Packing
import EvMlDsa.Library.Rejection

/-!
# Samplers

The samplers read the output of SHAKE128 and SHAKE256 block by block. `poly_uniform` and
`poly_uniform_eta` return the first 256 values that the whole stream offers (`polyUniform_eq`,
`polyUniformEta_eq`): neither the ends of the blocks nor the bytes carried over between them matter.
-/

set_option autoImplicit false
set_option relaxedAutoImplicit false

namespace EvMlDsa

open Library.FixedArray Library.Rejection

/-- The extendable output functions: all bytes delivered for an input. -/
structure Xof where
  shake128 : List UInt8 → ℕ → UInt8
  shake256 : List UInt8 → ℕ → UInt8

/-- `SHAKE128_RATE` and `STREAM128_BLOCKBYTES`. -/
abbrev shake128Rate : ℕ := 168

/-- `SHAKE256_RATE` and `STREAM256_BLOCKBYTES`. -/
abbrev shake256Rate : ℕ := 136

/-- `shake128_squeezeblocks` and `shake256_squeezeblocks` after `block` blocks. -/
def squeezeblocks (rate : ℕ) (stream : ℕ → UInt8) (block nblocks : ℕ) : List UInt8 :=
  (List.range' (rate * block) (rate * nblocks)).map stream

/-- `t` of the functions that set up a stream. -/
def nonceBytes (nonce : UInt16) : List UInt8 := [nonce.toUInt8, (nonce >>> 8).toUInt8]

/-- `dilithium_shake128_stream_init`. -/
def stream128Init (xof : Xof) (seed : List UInt8) (nonce : UInt16) : ℕ → UInt8 :=
  xof.shake128 (seed ++ nonceBytes nonce)

/-- `dilithium_shake256_stream_init`. -/
def stream256Init (xof : Xof) (seed : List UInt8) (nonce : UInt16) : ℕ → UInt8 :=
  xof.shake256 (seed ++ nonceBytes nonce)

/-- The polynomial with the given coefficients. -/
def polyOfList (coeffs : List Int32) : Poly := Vector.ofFn fun i ↦ coeffs.getD i.val 0

/-! ### Uniform coefficients -/

/-- What `rej_uniform` makes of three bytes. -/
def uniformCoeff (b0 b1 b2 : UInt8) : Option Int32 :=
  let t := (b0.toUInt32 ||| (b1.toUInt32 <<< 8) ||| (b2.toUInt32 <<< 16)) &&& 0x7FFFFF
  if t < 8380417 then some t.toInt32 else none

/-- `rej_uniform`: the coefficients it writes. -/
def rejUniform : (len : ℕ) → (buf : List UInt8) → List Int32
  | len + 1, b0 :: b1 :: b2 :: buf =>
    match uniformCoeff b0 b1 b2 with
    | some t => t :: rejUniform len buf
    | none => rejUniform (len + 1) buf
  | _, _ => []

/-- The loop of `poly_uniform`, where `block` blocks were squeezed and `a` are the coefficients so
far. -/
def polyUniformLoop (stream : ℕ → UInt8) : (fuel block : ℕ) → (buf : List UInt8) → List Int32 →
    Option (List Int32)
  | 0, _, _, a => if a.length < 256 then none else some a
  | fuel + 1, block, buf, a =>
    if a.length < 256 then
      let off := buf.length % 3
      let buf := buf.drop (buf.length - off) ++ squeezeblocks shake128Rate stream block 1
      polyUniformLoop stream fuel (block + 1) buf (a ++ rejUniform (256 - a.length) buf)
    else some a

/-- `POLY_UNIFORM_NBLOCKS`. -/
def polyUniformNblocks : ℕ := (768 + shake128Rate - 1) / shake128Rate

/-- `poly_uniform`, with at most `fuel` blocks after the first ones. -/
def polyUniform (xof : Xof) (fuel : ℕ) (seed : List UInt8) (nonce : UInt16) : Option Poly :=
  let stream := stream128Init xof seed nonce
  let buf := squeezeblocks shake128Rate stream 0 polyUniformNblocks
  (polyUniformLoop stream fuel polyUniformNblocks buf (rejUniform 256 buf)).map polyOfList

/-- `polyvec_matrix_expand`. -/
def polyvecMatrixExpand (mode : DilithiumMode) (xof : Xof) (fuel : ℕ) (rho : List UInt8) :
    Option (Vector (Vector Poly mode.L) mode.K) :=
  collect (fun i ↦
    collect (fun j ↦ polyUniform xof fuel rho (UInt16.ofNat ((i <<< 8) + j))) mode.L) mode.K

/-! ### Short coefficients -/

/-- What `rej_eta` makes of half a byte. -/
def etaCoeff (mode : DilithiumMode) (t : UInt32) : Option Int32 :=
  match mode with
  | .three => if t < 9 then some ((4 : UInt32) - t).toInt32 else none
  | _ =>
    if t < 15 then some ((2 : UInt32) - (t - ((205 * t) >>> (10 : UInt32)) * 5)).toInt32 else none

/-- `rej_eta`: the coefficients it writes. -/
def rejEta (mode : DilithiumMode) : (len : ℕ) → (buf : List UInt8) → List Int32
  | len + 1, b :: buf =>
    let t0 := (etaCoeff mode (b &&& 0x0F).toUInt32).toList
    let t1 := if t0.length < len + 1 then (etaCoeff mode (b >>> 4).toUInt32).toList else []
    t0 ++ t1 ++ rejEta mode (len + 1 - t0.length - t1.length) buf
  | _, _ => []

/-- The loop of `poly_uniform_eta`. -/
def polyUniformEtaLoop (mode : DilithiumMode) (stream : ℕ → UInt8) : (fuel block : ℕ) →
    List Int32 → Option (List Int32)
  | 0, _, a => if a.length < 256 then none else some a
  | fuel + 1, block, a =>
    if a.length < 256 then
      let buf := squeezeblocks shake256Rate stream block 1
      polyUniformEtaLoop mode stream fuel (block + 1) (a ++ rejEta mode (256 - a.length) buf)
    else some a

/-- `POLY_UNIFORM_ETA_NBLOCKS`. -/
def DilithiumMode.polyUniformEtaNblocks : DilithiumMode → ℕ
  | two => (136 + shake256Rate - 1) / shake256Rate
  | three => (227 + shake256Rate - 1) / shake256Rate
  | five => (136 + shake256Rate - 1) / shake256Rate

/-- `poly_uniform_eta`, with at most `fuel` blocks after the first ones. -/
def polyUniformEta (mode : DilithiumMode) (xof : Xof) (fuel : ℕ) (seed : List UInt8)
    (nonce : UInt16) : Option Poly :=
  let stream := stream256Init xof seed nonce
  let buf := squeezeblocks shake256Rate stream 0 mode.polyUniformEtaNblocks
  (polyUniformEtaLoop mode stream fuel mode.polyUniformEtaNblocks (rejEta mode 256 buf)).map
    polyOfList

/-- `polyvecl_uniform_eta` and `polyveck_uniform_eta`. -/
def polyvecUniformEta (mode : DilithiumMode) (count : ℕ) (xof : Xof) (fuel : ℕ) (seed : List UInt8)
    (nonce : UInt16) : Option (Vector Poly count) :=
  collect (fun i ↦ polyUniformEta mode xof fuel seed (nonce + UInt16.ofNat i)) count

/-! ### Masks -/

/-- `POLY_UNIFORM_GAMMA1_NBLOCKS`. -/
def DilithiumMode.polyUniformGamma1Nblocks (mode : DilithiumMode) : ℕ :=
  (mode.polyzPackedBytes + shake256Rate - 1) / shake256Rate

/-- `poly_uniform_gamma1`. -/
def polyUniformGamma1 (mode : DilithiumMode) (xof : Xof) (seed : List UInt8) (nonce : UInt16) :
    Poly :=
  let stream := stream256Init xof seed nonce
  let buf := squeezeblocks shake256Rate stream 0 mode.polyUniformGamma1Nblocks
  polyzUnpack mode fun k ↦ buf.getD k 0

/-- `polyvecl_uniform_gamma1`. -/
def polyveclUniformGamma1 (mode : DilithiumMode) (xof : Xof) (seed : List UInt8) (nonce : UInt16) :
    Vector Poly mode.L :=
  Vector.ofFn fun i ↦
    polyUniformGamma1 mode xof seed (UInt16.ofNat mode.L * nonce + UInt16.ofNat i.val)

/-! ### Scanning a buffer -/

theorem getD_squeezeblocks (rate : ℕ) (stream : ℕ → UInt8) (block : ℕ) {nblocks k : ℕ}
    (hk : k < rate * nblocks) :
    (squeezeblocks rate stream block nblocks).getD k 0 = stream (rate * block + k) := by
  rw [squeezeblocks, List.getD_eq_getElem _ _ (by simpa using hk), List.getElem_map,
    List.getElem_range', Nat.one_mul]

/-- The coefficients that three bytes of a stream offer. -/
def uniformCoeffsAt (stream : ℕ → UInt8) (k : ℕ) : List Int32 :=
  (uniformCoeff (stream k) (stream (k + 1)) (stream (k + 2))).toList

/-- The coefficients that a byte of a stream offers. -/
def etaCoeffsAt (mode : DilithiumMode) (stream : ℕ → UInt8) (k : ℕ) : List Int32 :=
  (etaCoeff mode (stream k &&& 0x0F).toUInt32).toList ++
    (etaCoeff mode (stream k >>> 4).toUInt32).toList

theorem rejUniform_zero (buf : List UInt8) : rejUniform 0 buf = [] := by
  rcases buf with _ | ⟨b0, _ | ⟨b1, _ | ⟨b2, buf⟩⟩⟩ <;> rfl

theorem rejEta_zero (mode : DilithiumMode) (buf : List UInt8) : rejEta mode 0 buf = [] := by
  cases buf <;> rfl

/-- `rej_uniform` takes what the groups of three bytes offer. -/
theorem rejUniform_eq (stream : ℕ → UInt8) (len start groups : ℕ) :
    rejUniform len ((List.range' start (3 * groups)).map stream) =
      ((List.range' start groups 3).flatMap (uniformCoeffsAt stream)).take len := by
  induction groups generalizing len start with
  | zero => cases len <;> rfl
  | succ groups ih =>
    rcases len with _ | len
    · rw [rejUniform_zero, List.take_zero]
    · have hbytes : (List.range' start (3 * (groups + 1))).map stream =
          stream start :: stream (start + 1) :: stream (start + 2) ::
            (List.range' (start + 3) (3 * groups)).map stream := rfl
      rw [hbytes, rejUniform, List.range'_succ, List.flatMap_cons]
      rcases hcoeff : uniformCoeff (stream start) (stream (start + 1)) (stream (start + 2)) with
        _ | coeff
      · simp only [uniformCoeffsAt, hcoeff, Option.toList_none, List.nil_append]
        exact ih (len + 1) (start + 3)
      · simp only [uniformCoeffsAt, hcoeff, Option.toList_some, List.singleton_append,
          List.take_succ_cons]
        exact congrArg _ (ih len (start + 3))

/-- `rej_eta` takes what the bytes offer. -/
theorem rejEta_eq (mode : DilithiumMode) (stream : ℕ → UInt8) (len start bytes : ℕ) :
    rejEta mode len ((List.range' start bytes).map stream) =
      ((List.range' start bytes).flatMap (etaCoeffsAt mode stream)).take len := by
  induction bytes generalizing len start with
  | zero => cases len <;> rfl
  | succ bytes ih =>
    rcases len with _ | len
    · rw [rejEta_zero, List.take_zero]
    · rw [List.range'_succ, List.map_cons, List.flatMap_cons, rejEta, ih, etaCoeffsAt]
      rcases etaCoeff mode (stream start &&& 0x0F).toUInt32 with _ | t0 <;>
        rcases etaCoeff mode (stream start >>> 4).toUInt32 with _ | t1 <;>
        rcases len with _ | len <;> simp

/-! ### The first values of a stream -/

/-- The polynomial with the first coefficients of a list, if there are enough. -/
def firstCoeffs (coeffs : List Int32) : Option Poly :=
  if coeffs.length < 256 then none else some (polyOfList (coeffs.take 256))

theorem map_firstCoeffs (coeffs : List Int32) :
    (if coeffs.length < 256 then none else some (coeffs.take 256)).map polyOfList =
      firstCoeffs coeffs := by
  rw [firstCoeffs]
  split_ifs with hlen <;> rfl

/-- No bytes are carried over: the blocks are a whole number of groups. -/
theorem polyUniformLoop_eq_refill (stream : ℕ → UInt8) (fuel block : ℕ) {buf : List UInt8}
    (hbuf : buf.length % 3 = 0) (a : List Int32) :
    polyUniformLoop stream fuel block buf a =
      refill 256 (fun block want ↦ rejUniform want (squeezeblocks shake128Rate stream block 1)) fuel
        block a := by
  induction fuel generalizing block buf a with
  | zero => rfl
  | succ fuel ih =>
    have hcarried : buf.drop (buf.length - 0) = [] := by
      rw [Nat.sub_zero, List.drop_length]
    simp only [polyUniformLoop, refill, hbuf, hcarried, List.nil_append]
    rw [ih]
    simp [squeezeblocks, shake128Rate]

theorem polyUniformEtaLoop_eq_refill (mode : DilithiumMode) (stream : ℕ → UInt8) (fuel block : ℕ)
    (a : List Int32) :
    polyUniformEtaLoop mode stream fuel block a =
      refill 256 (fun block want ↦ rejEta mode want (squeezeblocks shake256Rate stream block 1))
        fuel block a := by
  induction fuel generalizing block a with
  | zero => rfl
  | succ fuel ih => simp only [polyUniformEtaLoop, refill, ih]

/-- What is squeezed first and the blocks after it are one stretch of the stream. -/
theorem flatMap_first_append_blocks (valuesAt : ℕ → List Int32) (width step first count : ℕ) :
    (List.range' (step * width * 0) (width * first) step).flatMap valuesAt ++
        (List.range' first count).flatMap (fun b ↦
          (List.range' (step * width * b) (width * 1) step).flatMap valuesAt) =
      (List.range' 0 (width * (first + count)) step).flatMap valuesAt := by
  have hsplit : List.range' 0 (width * first) step ++
      List.range' (0 + step * (width * first)) (width * count) step =
        List.range' 0 (width * first + width * count) step := List.range'_append
  rw [Nat.mul_one, flatMap_blocks, Nat.mul_zero, ← List.flatMap_append, Nat.mul_add, ← hsplit,
    Nat.zero_add, Nat.mul_assoc]

/-- `poly_uniform` returns the first coefficients that the stream offers, three bytes at a time. -/
theorem polyUniform_eq (xof : Xof) (fuel : ℕ) (seed : List UInt8) (nonce : UInt16) :
    polyUniform xof fuel seed nonce =
      firstCoeffs ((List.range' 0 (56 * (5 + fuel)) 3).flatMap
        (uniformCoeffsAt (stream128Init xof seed nonce))) := by
  have hnblocks : polyUniformNblocks = 5 := rfl
  have hrate (stream : ℕ → UInt8) (block nblocks : ℕ) :
      squeezeblocks shake128Rate stream block nblocks =
        (List.range' (3 * 56 * block) (3 * (56 * nblocks))).map stream := by
    rw [squeezeblocks, ← Nat.mul_assoc]
  have hbuf : (squeezeblocks shake128Rate (stream128Init xof seed nonce) 0 5).length % 3 = 0 := by
    simp [squeezeblocks, shake128Rate]
  simp only [polyUniform, hnblocks]
  rw [polyUniformLoop_eq_refill _ _ _ hbuf]
  simp only [hrate, rejUniform_eq]
  rw [refill_eq (fun _ _ ↦ rfl), flatMap_first_append_blocks]
  exact map_firstCoeffs _

/-- `poly_uniform_eta` returns the first coefficients that the stream offers, a byte at a time. -/
theorem polyUniformEta_eq (mode : DilithiumMode) (xof : Xof) (fuel : ℕ) (seed : List UInt8)
    (nonce : UInt16) :
    polyUniformEta mode xof fuel seed nonce =
      firstCoeffs ((List.range' 0 (136 * (mode.polyUniformEtaNblocks + fuel))).flatMap
        (etaCoeffsAt mode (stream256Init xof seed nonce))) := by
  have hrate (stream : ℕ → UInt8) (block nblocks : ℕ) :
      squeezeblocks shake256Rate stream block nblocks =
        (List.range' (1 * 136 * block) (136 * nblocks)).map stream := by
    rw [squeezeblocks, Nat.one_mul]
  simp only [polyUniformEta, polyUniformEtaLoop_eq_refill, hrate, rejEta_eq]
  rw [refill_eq (fun _ _ ↦ rfl), flatMap_first_append_blocks]
  exact map_firstCoeffs _

/-! ### Ranges -/

theorem uniformCoeff_range {b0 b1 b2 : UInt8} {t : Int32} (ht : uniformCoeff b0 b1 b2 = some t) :
    0 ≤ t.toInt ∧ t.toInt ≤ modulusQ - 1 := by
  rw [uniformCoeff] at ht
  generalize (b0.toUInt32 ||| (b1.toUInt32 <<< 8) ||| (b2.toUInt32 <<< 16)) &&& 0x7FFFFF = code
    at ht
  split_ifs at ht with hlt
  obtain rfl := Option.some.inj ht
  have hcode : code.toNat < 8380417 := UInt32.lt_iff_toNat_lt.mp hlt
  have hvalue : code.toInt32.toBitVec.toNat = code.toNat := rfl
  rw [← Int32.toInt_toBitVec, BitVec.toInt_eq_toNat_cond, hvalue, if_pos (by omega)]
  have hmodulus := cast_modulusQ
  omega

theorem etaCoeff_range {mode : DilithiumMode} {t : UInt32} {x : Int32}
    (hx : etaCoeff mode t = some x) : -mode.eta.toInt ≤ x.toInt ∧ x.toInt ≤ mode.eta.toInt := by
  have hfew (bound : ℕ) (hbound : bound ≤ 15) (ht : t.toNat < bound) :
      ∃ n < bound, t = UInt32.ofNat n := ⟨t.toNat, ht, (UInt32.ofNat_toNat).symm⟩
  cases mode with
  | three =>
    simp only [etaCoeff] at hx
    split_ifs at hx with hlt
    obtain rfl := Option.some.inj hx
    obtain ⟨n, hn, rfl⟩ := hfew 9 (by decide) (UInt32.lt_iff_toNat_lt.mp hlt)
    interval_cases n <;> decide
  | two =>
    simp only [etaCoeff] at hx
    split_ifs at hx with hlt
    obtain rfl := Option.some.inj hx
    obtain ⟨n, hn, rfl⟩ := hfew 15 le_rfl (UInt32.lt_iff_toNat_lt.mp hlt)
    interval_cases n <;> decide
  | five =>
    simp only [etaCoeff] at hx
    split_ifs at hx with hlt
    obtain rfl := Option.some.inj hx
    obtain ⟨n, hn, rfl⟩ := hfew 15 le_rfl (UInt32.lt_iff_toNat_lt.mp hlt)
    interval_cases n <;> decide

theorem coeffsIn_of_firstCoeffs {lo hi : ℤ} {coeffs : List Int32} {a : Poly}
    (hcoeffs : ∀ x ∈ coeffs, lo ≤ x.toInt ∧ x.toInt ≤ hi) (ha : firstCoeffs coeffs = some a) :
    a.CoeffsIn lo hi := by
  rw [firstCoeffs] at ha
  split_ifs at ha with hlen
  obtain rfl := Option.some.inj ha
  intro k hk
  have hlength : k < (coeffs.take 256).length := by
    rw [List.length_take]
    omega
  rw [polyOfList, Vector.getElem_ofFn, List.getD_eq_getElem _ _ hlength]
  exact hcoeffs _ (List.mem_of_mem_take (List.getElem_mem hlength))

theorem polyUniform_range {xof : Xof} {fuel : ℕ} {seed : List UInt8} {nonce : UInt16} {a : Poly}
    (ha : polyUniform xof fuel seed nonce = some a) : a.CoeffsIn 0 (modulusQ - 1) := by
  rw [polyUniform_eq] at ha
  apply coeffsIn_of_firstCoeffs _ ha
  intro x hx
  obtain ⟨k, -, hk⟩ := List.mem_flatMap.mp hx
  exact uniformCoeff_range (Option.mem_toList.mp hk)

theorem polyUniformEta_range {mode : DilithiumMode} {xof : Xof} {fuel : ℕ} {seed : List UInt8}
    {nonce : UInt16} {a : Poly} (ha : polyUniformEta mode xof fuel seed nonce = some a) :
    a.CoeffsIn (-mode.eta.toInt) mode.eta.toInt := by
  rw [polyUniformEta_eq] at ha
  apply coeffsIn_of_firstCoeffs _ ha
  intro x hx
  obtain ⟨k, -, hk⟩ := List.mem_flatMap.mp hx
  rcases List.mem_append.mp hk with hlow | hhigh
  · exact etaCoeff_range (Option.mem_toList.mp hlow)
  · exact etaCoeff_range (Option.mem_toList.mp hhigh)

/-- Unpacking reads `POLYZ_PACKEDBYTES` bytes. -/
theorem polyzUnpack_congr (mode : DilithiumMode) {bytes bytes' : ℕ → UInt8}
    (hbytes : ∀ k < mode.polyzPackedBytes, bytes k = bytes' k) :
    polyzUnpack mode bytes = polyzUnpack mode bytes' := by
  apply polyzUnpack_polyzBytes mode (polyzUnpack_range mode bytes')
  intro k hk
  rw [hbytes k hk, polyzBytes_polyzUnpack mode bytes' hk]

/-- `poly_uniform_gamma1` unpacks the first bytes of the stream. -/
theorem polyUniformGamma1_eq (mode : DilithiumMode) (xof : Xof) (seed : List UInt8)
    (nonce : UInt16) :
    polyUniformGamma1 mode xof seed nonce = polyzUnpack mode (stream256Init xof seed nonce) := by
  have hfits : mode.polyzPackedBytes ≤ shake256Rate * mode.polyUniformGamma1Nblocks := by
    cases mode <;> decide
  apply polyzUnpack_congr
  intro k hk
  rw [getD_squeezeblocks _ _ _ (by omega), Nat.mul_zero, Nat.zero_add]

theorem polyUniformGamma1_range (mode : DilithiumMode) (xof : Xof) (seed : List UInt8)
    (nonce : UInt16) : (polyUniformGamma1 mode xof seed nonce).CoeffsIn (-mode.gamma1.toInt + 1)
      mode.gamma1.toInt :=
  polyzUnpack_range mode _

theorem polyvecMatrixExpand_range {mode : DilithiumMode} {xof : Xof} {fuel : ℕ} {rho : List UInt8}
    {mat : Vector (Vector Poly mode.L) mode.K}
    (hmat : polyvecMatrixExpand mode xof fuel rho = some mat) (i : ℕ) (hi : i < mode.K) (j : ℕ)
    (hj : j < mode.L) : (mat[i][j]).CoeffsIn 0 (modulusQ - 1) :=
  polyUniform_range (collect_eq_some_iff.mp (collect_eq_some_iff.mp hmat i hi) j hj)

theorem polyvecUniformEta_range {mode : DilithiumMode} {count : ℕ} {xof : Xof} {fuel : ℕ}
    {seed : List UInt8} {nonce : UInt16} {v : Vector Poly count}
    (hv : polyvecUniformEta mode count xof fuel seed nonce = some v) (i : ℕ) (hi : i < count) :
    (v[i]).CoeffsIn (-mode.eta.toInt) mode.eta.toInt :=
  polyUniformEta_range (collect_eq_some_iff.mp hv i hi)

/-! ### More fuel -/

theorem firstCoeffs_append {coeffs : List Int32} {a : Poly} (ha : firstCoeffs coeffs = some a)
    (more : List Int32) : firstCoeffs (coeffs ++ more) = some a := by
  rw [firstCoeffs] at ha ⊢
  split_ifs at ha with hlen
  rw [if_neg (by rw [List.length_append]; omega), List.take_append_of_le_length (by omega)]
  exact ha

/-- The first coefficients of a longer stretch of the stream. -/
theorem firstCoeffs_mono {valuesAt : ℕ → List Int32} {step count count' : ℕ} {a : Poly}
    (ha : firstCoeffs ((List.range' 0 count step).flatMap valuesAt) = some a)
    (hcount : count ≤ count') :
    firstCoeffs ((List.range' 0 count' step).flatMap valuesAt) = some a := by
  have hsplit : List.range' 0 count step ++ List.range' (0 + step * count) (count' - count) step =
      List.range' 0 (count + (count' - count)) step := List.range'_append
  rw [Nat.add_sub_cancel' hcount] at hsplit
  rw [← hsplit, List.flatMap_append]
  exact firstCoeffs_append ha _

theorem polyUniform_mono {xof : Xof} {fuel more : ℕ} {seed : List UInt8} {nonce : UInt16} {a : Poly}
    (ha : polyUniform xof fuel seed nonce = some a) (hmore : fuel ≤ more) :
    polyUniform xof more seed nonce = some a := by
  rw [polyUniform_eq] at ha ⊢
  exact firstCoeffs_mono ha (Nat.mul_le_mul_left _ (Nat.add_le_add_left hmore _))

theorem polyUniformEta_mono {mode : DilithiumMode} {xof : Xof} {fuel more : ℕ} {seed : List UInt8}
    {nonce : UInt16} {a : Poly} (ha : polyUniformEta mode xof fuel seed nonce = some a)
    (hmore : fuel ≤ more) : polyUniformEta mode xof more seed nonce = some a := by
  rw [polyUniformEta_eq] at ha ⊢
  exact firstCoeffs_mono ha (Nat.mul_le_mul_left _ (Nat.add_le_add_left hmore _))

theorem polyvecMatrixExpand_mono {mode : DilithiumMode} {xof : Xof} {fuel more : ℕ}
    {rho : List UInt8} {mat : Vector (Vector Poly mode.L) mode.K}
    (hmat : polyvecMatrixExpand mode xof fuel rho = some mat) (hmore : fuel ≤ more) :
    polyvecMatrixExpand mode xof more rho = some mat :=
  collect_mono (fun _ _ hrow ↦ collect_mono (fun _ _ ha ↦ polyUniform_mono ha hmore) hrow) hmat

theorem polyvecUniformEta_mono {mode : DilithiumMode} {count : ℕ} {xof : Xof} {fuel more : ℕ}
    {seed : List UInt8} {nonce : UInt16} {v : Vector Poly count}
    (hv : polyvecUniformEta mode count xof fuel seed nonce = some v) (hmore : fuel ≤ more) :
    polyvecUniformEta mode count xof more seed nonce = some v :=
  collect_mono (fun _ _ ha ↦ polyUniformEta_mono ha hmore) hv

end EvMlDsa
