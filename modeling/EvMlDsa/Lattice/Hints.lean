import EvMlDsa.Lattice.Packing

/-!
# Packing of signatures

`pack_sig` writes the positions of the ones of every hint polynomial in ascending order, zeros up to
`OMEGA` and the running number of ones behind every polynomial (`HintRegion`). `unpack_sig` accepts
nothing else: a signature is unpacked to what it was packed from (`unpackSig_packSig`), and one that
is accepted is the only signature with its parts (`packSig_of_unpackSig`), so that it accepts
exactly the packings (`unpackSig_eq_some_iff`).
-/

set_option autoImplicit false
set_option relaxedAutoImplicit false

namespace EvMlDsa

open Library.FixedArray

/-! ### The functions -/

/-- The loop over `j` of `pack_sig`, which carries the buffer and `k`. -/
def packHint {size : ℕ} (off : ℕ) (a : Poly) (s : Vector UInt8 size × ℕ) : Vector UInt8 size × ℕ :=
  (List.range 256).foldl
    (fun s j ↦
      if a.getD j 0 != 0 then (s.1.setIfInBounds (off + s.2) (UInt8.ofNat j), s.2 + 1) else s) s

/-- The loop over `i` of `pack_sig`. -/
def packHints {size : ℕ} (omega rows : ℕ) (off : ℕ) (h : ℕ → Poly) (sig : Vector UInt8 size) :
    Vector UInt8 size × ℕ :=
  (List.range rows).foldl
    (fun s i ↦
      let s := packHint off (h i) s
      (s.1.setIfInBounds (off + omega + i) (UInt8.ofNat s.2), s.2)) (sig, 0)

/-- `pack_sig`. -/
def packSig (mode : DilithiumMode) (sig : Vector UInt8 (cryptoBytes mode))
    (c : Vector UInt8 mode.ctildeBytes) (z : Vector Poly mode.L) (h : Vector Poly mode.K) :
    Vector UInt8 (cryptoBytes mode) :=
  let sig := storeBytes sig 0 c.toList
  let sig := packVec (polyzPack mode) mode.polyzPackedBytes sig mode.ctildeBytes z
  let off := mode.ctildeBytes + mode.L * mode.polyzPackedBytes
  let sig := fillFrom off (fun _ ↦ 0) sig (mode.omega + mode.K)
  (packHints mode.omega mode.K off (fun i ↦ h.getD i zeroPoly) sig).1

/-- One round of the loop over `i` of `unpack_sig`: the hint polynomial and the new `k`. -/
def unpackHint (omega : ℕ) (sig : ℕ → UInt8) (i k : ℕ) : Option (Poly × ℕ) :=
  let limit := (sig (omega + i)).toNat
  if limit < k || limit > omega then none
  else if (List.range' k (limit - k)).any fun j ↦ j > k && sig j ≤ sig (j - 1) then none
  else
    some ((List.range' k (limit - k)).foldl (fun a j ↦ a.setIfInBounds (sig j).toNat 1) zeroPoly,
      limit)

/-- The loops of `unpack_sig` that decode `h`. -/
def unpackHints (omega rows : ℕ) (sig : ℕ → UInt8) : Option (Vector Poly rows) := do
  let (h, k) ← (List.range rows).foldlM
    (fun (s : Vector Poly rows × ℕ) i ↦ do
      let (a, k) ← unpackHint omega sig i s.2
      some (s.1.setIfInBounds i a, k)) (Vector.replicate rows zeroPoly, 0)
  if (List.range' k (omega - k)).any fun j ↦ sig j != 0 then none else some h

/-- `unpack_sig`: `c`, `z` and `h`, or nothing if the signature is malformed. -/
def unpackSig (mode : DilithiumMode) (sig : Vector UInt8 (cryptoBytes mode)) :
    Option (Vector UInt8 mode.ctildeBytes × Vector Poly mode.L × Vector Poly mode.K) :=
  let c := Vector.ofFn fun i ↦ sig.getD i.val 0
  let z := unpackVec mode.L (polyzUnpack mode) mode.polyzPackedBytes fun k ↦
    sig.getD (mode.ctildeBytes + k) 0
  let off := mode.ctildeBytes + mode.L * mode.polyzPackedBytes
  (unpackHints mode.omega mode.K fun k ↦ sig.getD (off + k) 0).map fun h ↦ (c, z, h)

/-! ### Positions -/

/-- The positions of the coefficients that are not zero. -/
def hintPositions (a : Poly) : List UInt8 :=
  ((List.range 256).filter fun j ↦ a.getD j 0 != 0).map UInt8.ofNat

/-- A polynomial with ones at the given positions. -/
def hintPoly (positions : List UInt8) : Poly :=
  positions.foldl (fun a b ↦ a.setIfInBounds b.toNat 1) zeroPoly

theorem toNat_ofNat_of_lt_size {j : ℕ} (hj : j < 256) : (UInt8.ofNat j).toNat = j :=
  UInt8.toNat_ofNat_of_lt' hj

theorem mem_hintPositions (a : Poly) (b : UInt8) :
    b ∈ hintPositions a ↔ a.getD b.toNat 0 ≠ 0 := by
  simp only [hintPositions, List.mem_map, List.mem_filter, List.mem_range, bne_iff_ne]
  constructor
  · rintro ⟨j, ⟨hj, ha⟩, rfl⟩
    rwa [toNat_ofNat_of_lt_size hj]
  · intro ha
    exact ⟨b.toNat, ⟨b.toNat_lt, ha⟩, UInt8.ofNat_toNat⟩

/-- Positions ascend. -/
theorem pairwise_hintPositions (a : Poly) : (hintPositions a).Pairwise (· < ·) := by
  rw [hintPositions, List.pairwise_map]
  have hrange : ((List.range 256).filter fun j ↦ a.getD j 0 != 0).Pairwise (· < ·) :=
    List.Pairwise.filter _ List.pairwise_lt_range
  refine hrange.imp_of_mem fun {i j} hi hj hlt ↦ ?_
  have hi := List.mem_range.mp (List.mem_filter.mp hi).1
  have hj := List.mem_range.mp (List.mem_filter.mp hj).1
  rw [UInt8.lt_iff_toNat_lt, toNat_ofNat_of_lt_size hi, toNat_ofNat_of_lt_size hj]
  exact hlt

theorem getD_foldl_setIfInBounds (positions : List UInt8) (a : Poly) {j : ℕ} (hj : j < 256) :
    (positions.foldl (fun a b ↦ a.setIfInBounds b.toNat 1) a).getD j 0 =
      if UInt8.ofNat j ∈ positions then 1 else a.getD j 0 := by
  induction positions generalizing a with
  | nil => simp
  | cons b positions ih =>
    rw [List.foldl_cons, ih, getD_setIfInBounds]
    have hb : b.toNat = j ↔ UInt8.ofNat j = b := by
      rw [← UInt8.toNat_inj, toNat_ofNat_of_lt_size hj]
      exact eq_comm
    simp only [List.mem_cons, hj, and_true, hb]
    by_cases hmem : UInt8.ofNat j ∈ positions <;> simp [hmem]

theorem getD_hintPoly (positions : List UInt8) {j : ℕ} (hj : j < 256) :
    (hintPoly positions).getD j 0 = if UInt8.ofNat j ∈ positions then 1 else 0 := by
  rw [hintPoly, getD_foldl_setIfInBounds _ _ hj, getD_zeroPoly]

/-- Ascending positions are the positions of their polynomial. -/
theorem hintPositions_hintPoly {positions : List UInt8} (hsorted : positions.Pairwise (· < ·)) :
    hintPositions (hintPoly positions) = positions := by
  apply List.Pairwise.eq_of_mem_iff (pairwise_hintPositions _) hsorted
  intro b
  rw [mem_hintPositions, getD_hintPoly _ b.toNat_lt, UInt8.ofNat_toNat]
  split_ifs with hmem
  · exact iff_of_true (by decide) hmem
  · exact iff_of_false (fun h ↦ h rfl) hmem

/-- A polynomial of zeros and ones is given by the positions of its ones. -/
theorem hintPoly_hintPositions {a : Poly} (ha : a.CoeffsIn 0 1) :
    hintPoly (hintPositions a) = a := by
  refine Vector.ext fun j hj ↦ ?_
  have hcoeff := ha.getD j hj
  rw [← getD_eq_getElem _ 0 hj, ← getD_eq_getElem a 0 hj, getD_hintPoly _ hj]
  have hmem : UInt8.ofNat j ∈ hintPositions a ↔ a.getD j 0 ≠ 0 := by
    rw [mem_hintPositions, toNat_ofNat_of_lt_size hj]
  have hone : (1 : Int32).toInt = 1 := by decide
  have hzero : (0 : Int32).toInt = 0 := by decide
  split_ifs with hpos
  · have hne := hmem.mp hpos
    rw [← Int32.toInt_inj, hone]
    have hne' : (a.getD j 0).toInt ≠ 0 := fun h ↦ hne (Int32.toInt_inj.mp (h.trans hzero.symm))
    omega
  · have heq := not_not.mp ((not_congr hmem).mp hpos)
    exact heq.symm

/-! ### The region of the hints -/

/-- The positions of the first rows, one row after the other. -/
def hintRows (ls : ℕ → List UInt8) (rows : ℕ) : List UInt8 := (List.range rows).flatMap ls

theorem hintRows_succ (ls : ℕ → List UInt8) (rows : ℕ) :
    hintRows ls (rows + 1) = hintRows ls rows ++ ls rows := by
  rw [hintRows, List.range_succ, List.flatMap_append, List.flatMap_singleton]
  rfl

theorem length_hintRows_mono (ls : ℕ → List UInt8) {i rows : ℕ} (hi : i ≤ rows) :
    (hintRows ls i).length ≤ (hintRows ls rows).length := by
  induction rows with
  | zero =>
    obtain rfl : i = 0 := by omega
    exact le_rfl
  | succ rows ih =>
    rcases Nat.lt_or_ge rows i with hlt | hge
    · obtain rfl : i = rows + 1 := by omega
      exact le_rfl
    · rw [hintRows_succ, List.length_append]
      have hle := ih hge
      omega

/-- The first rows stand in front of the others. -/
theorem getD_hintRows (ls : ℕ → List UInt8) {i rows k : ℕ} (hi : i ≤ rows)
    (hk : k < (hintRows ls i).length) :
    (hintRows ls rows).getD k 0 = (hintRows ls i).getD k 0 := by
  induction rows with
  | zero =>
    obtain rfl : i = 0 := by omega
    rfl
  | succ rows ih =>
    rcases Nat.lt_or_ge rows i with hlt | hge
    · obtain rfl : i = rows + 1 := by omega
      rfl
    · have hle := length_hintRows_mono ls hge
      rw [hintRows_succ, List.getD_append _ _ _ _ (by omega), ih hge]

/-- A region of bytes holds the positions, zeros up to `omega`, and the number of positions up to
every row. -/
structure HintRegion (omega rows : ℕ) (ls : ℕ → List UInt8) (sig : ℕ → UInt8) : Prop where
  total : (hintRows ls rows).length ≤ omega
  position (k : ℕ) (hk : k < omega) : sig k = (hintRows ls rows).getD k 0
  limit (i : ℕ) (hi : i < rows) : sig (omega + i) = UInt8.ofNat (hintRows ls (i + 1)).length

/-- The positions determine the region. -/
theorem HintRegion.unique {omega rows : ℕ} {ls : ℕ → List UInt8} {sig sig' : ℕ → UInt8}
    (hsig : HintRegion omega rows ls sig) (hsig' : HintRegion omega rows ls sig') {k : ℕ}
    (hk : k < omega + rows) : sig k = sig' k := by
  rcases Nat.lt_or_ge k omega with hlt | hge
  · rw [hsig.position k hlt, hsig'.position k hlt]
  · have hlimit := hsig.limit (k - omega) (by omega)
    have hlimit' := hsig'.limit (k - omega) (by omega)
    rw [Nat.add_sub_cancel' hge] at hlimit hlimit'
    rw [hlimit, hlimit']

/-! ### Packing -/

/-- The loop over the coefficients writes their positions. -/
theorem packHint_eq {size : ℕ} (off : ℕ) (a : Poly) (s : Vector UInt8 size × ℕ) :
    packHint off a s =
      (storeBytes s.1 (off + s.2) (hintPositions a), s.2 + (hintPositions a).length) := by
  rw [packHint, hintPositions]
  induction List.range 256 generalizing s with
  | nil => rfl
  | cons j js ih =>
    rw [List.foldl_cons, ih]
    by_cases hj : a.getD j 0 != 0
    · have hbyte : s.1.setIfInBounds (off + s.2) (UInt8.ofNat j) =
          storeBytes s.1 (off + s.2) [UInt8.ofNat j] := rfl
      have happend := storeBytes_append s.1 (off + s.2) [UInt8.ofNat j]
        ((js.filter fun j ↦ a.getD j 0 != 0).map UInt8.ofNat)
      rw [if_pos hj, List.filter_cons, if_pos hj, List.map_cons, hbyte, List.length_cons]
      rw [List.length_singleton, List.singleton_append, Nat.add_assoc] at happend
      rw [← happend, Nat.add_assoc s.2, Nat.add_comm 1]
    · rw [if_neg hj, List.filter_cons, if_neg hj]

/-- The buffer after some rows. -/
theorem packHints_spec {size : ℕ} {omega rows : ℕ} (off : ℕ) (h : ℕ → Poly)
    (sig : Vector UInt8 size)
    (htotal : (hintRows (fun i ↦ hintPositions (h i)) rows).length ≤ omega) :
    let ls := fun i ↦ hintPositions (h i)
    (packHints omega rows off h sig).2 = (hintRows ls rows).length ∧
      ∀ k < size, (packHints omega rows off h sig).1.getD k 0 =
        if off ≤ k ∧ k < off + (hintRows ls rows).length then (hintRows ls rows).getD (k - off) 0
        else if off + omega ≤ k ∧ k < off + omega + rows then
          UInt8.ofNat (hintRows ls (k - (off + omega) + 1)).length
        else sig.getD k 0 := by
  intro ls
  induction rows with
  | zero =>
    refine ⟨rfl, fun k hk ↦ ?_⟩
    rw [if_neg (by simp [hintRows]), if_neg (by omega)]
    rfl
  | succ rows ih =>
    have htotal : (hintRows ls (rows + 1)).length ≤ omega := htotal
    have hle : (hintRows ls rows).length ≤ (hintRows ls (rows + 1)).length :=
      length_hintRows_mono ls (Nat.le_succ rows)
    obtain ⟨hcount, hcells⟩ := ih (hle.trans htotal)
    have hsucc : packHints omega (rows + 1) off h sig =
        (fun s : Vector UInt8 size × ℕ ↦
          let s := packHint off (h rows) s
          (s.1.setIfInBounds (off + omega + rows) (UInt8.ofNat s.2), s.2))
          (packHints omega rows off h sig) := by
      simp only [packHints, List.range_succ, List.foldl_append, List.foldl_cons, List.foldl_nil]
    have hlength : (hintRows ls (rows + 1)).length =
        (hintRows ls rows).length + (hintPositions (h rows)).length := by
      rw [hintRows_succ, List.length_append]
    rw [hsucc]
    simp only [packHint_eq, hcount]
    refine ⟨hlength.symm, fun k hk ↦ ?_⟩
    have hend : off + (hintRows ls rows).length + (hintPositions (h rows)).length =
        off + (hintRows ls (rows + 1)).length := by omega
    rw [getD_setIfInBounds, getD_storeBytes _ _ _ hk, hcells k hk, ← hlength, hend]
    by_cases hlimit : off + omega + rows = k
    · rw [if_pos ⟨hlimit, hk⟩, if_neg (by omega), if_pos (by omega)]
      congr 3
      omega
    · rw [if_neg (fun hlast ↦ hlimit hlast.1)]
      by_cases hrow :
          off + (hintRows ls rows).length ≤ k ∧ k < off + (hintRows ls (rows + 1)).length
      · have hback : k - off - (hintRows ls rows).length = k - (off + (hintRows ls rows).length) :=
          Nat.sub_sub _ _ _
        rw [if_pos hrow, if_pos (by omega), hintRows_succ,
          List.getD_append_right _ _ _ _ (by omega), hback]
      · rw [if_neg hrow]
        by_cases hrows : off ≤ k ∧ k < off + (hintRows ls rows).length
        · rw [if_pos hrows, if_pos (by omega), getD_hintRows ls (Nat.le_succ rows) (by omega)]
        · have hrows' : ¬(off ≤ k ∧ k < off + (hintRows ls (rows + 1)).length) := by omega
          rw [if_neg hrows, if_neg hrows']
          by_cases hlimits : off + omega ≤ k ∧ k < off + omega + rows
          · rw [if_pos hlimits, if_pos (by omega)]
          · rw [if_neg hlimits, if_neg (by omega)]

/-- `pack_sig` leaves the region of its hints. -/
theorem hintRegion_packHints {size : ℕ} {omega rows : ℕ} {off : ℕ} {h : ℕ → Poly}
    {sig : Vector UInt8 size} (hsize : off + omega + rows ≤ size)
    (hzero : ∀ k < omega, sig.getD (off + k) 0 = 0)
    (htotal : (hintRows (fun i ↦ hintPositions (h i)) rows).length ≤ omega) :
    HintRegion omega rows (fun i ↦ hintPositions (h i)) fun k ↦
      (packHints omega rows off h sig).1.getD (off + k) 0 := by
  obtain ⟨-, hcells⟩ := packHints_spec off h sig htotal
  refine ⟨htotal, fun k hk ↦ ?_, fun i hi ↦ ?_⟩
  · rw [hcells (off + k) (by omega), Nat.add_sub_cancel_left]
    by_cases hrows : k < (hintRows (fun i ↦ hintPositions (h i)) rows).length
    · rw [if_pos (by omega)]
    · rw [if_neg (by omega), if_neg (by omega), hzero k hk, List.getD_eq_default _ _ (by omega)]
  · rw [hcells (off + (omega + i)) (by omega), if_neg (by omega), if_pos (by omega)]
    congr 3
    omega

/-! ### Unpacking -/

/-- The check of `unpack_sig` finds out whether the positions ascend. -/
theorem any_descent_eq_false (sig : ℕ → UInt8) (k count : ℕ) :
    ((List.range' k count).any fun j ↦ j > k && sig j ≤ sig (j - 1)) = false ↔
      ((List.range' k count).map sig).Pairwise (· < ·) := by
  rw [← List.isChain_iff_pairwise, List.isChain_iff_getElem]
  simp only [List.any_eq_false, List.mem_range'_1, Bool.and_eq_true, decide_eq_true_eq, not_and,
    UInt8.not_le, List.length_map, List.length_range', List.getElem_map, List.getElem_range',
    Nat.one_mul]
  constructor
  · intro hascend i hi
    have hnext := hascend (k + (i + 1)) ⟨by omega, by omega⟩ (by omega)
    exact hnext
  · rintro hascend j ⟨hlo, hhi⟩ hj
    have hnext := hascend (j - 1 - k) (by omega)
    have hprev : k + (j - 1 - k) = j - 1 := by omega
    have hthis : k + (j - 1 - k + 1) = j := by omega
    rwa [hprev, hthis] at hnext

/-- One round of `unpack_sig` accepts ascending positions up to a later limit. -/
theorem unpackHint_eq_some_iff {omega : ℕ} {sig : ℕ → UInt8} {i k limit : ℕ} {a : Poly} :
    unpackHint omega sig i k = some (a, limit) ↔
      (sig (omega + i)).toNat = limit ∧ k ≤ limit ∧ limit ≤ omega ∧
        ((List.range' k (limit - k)).map sig).Pairwise (· < ·) ∧
        a = hintPoly ((List.range' k (limit - k)).map sig) := by
  have hfold (count : ℕ) : (List.range' k count).foldl
      (fun a j ↦ a.setIfInBounds (sig j).toNat 1) zeroPoly =
        hintPoly ((List.range' k count).map sig) := by
    rw [hintPoly, List.foldl_map]
  rw [unpackHint]
  simp only [hfold]
  split_ifs with hlimit hdescent
  · simp only [Bool.or_eq_true, decide_eq_true_eq] at hlimit
    exact iff_of_false (by simp) (fun ⟨hvalue, hlo, hhi, _⟩ ↦ by omega)
  · refine iff_of_false (by simp) ?_
    rintro ⟨rfl, -, -, hsorted, -⟩
    exact absurd hdescent (by rw [(any_descent_eq_false _ _ _).mpr hsorted]; decide)
  · simp only [Bool.or_eq_true, decide_eq_true_eq, not_or, not_lt] at hlimit
    rw [Bool.not_eq_true, any_descent_eq_false] at hdescent
    rw [Option.some.injEq, Prod.mk.injEq]
    constructor
    · rintro ⟨rfl, rfl⟩
      exact ⟨rfl, hlimit.1, hlimit.2, hdescent, rfl⟩
    · rintro ⟨rfl, -, -, -, rfl⟩
      exact ⟨rfl, rfl⟩

section Rows

variable {omega rows : ℕ} {sig : ℕ → UInt8}

/-- The loop over `i` of `unpack_sig`, with the number of rounds left open. -/
def unpackRows (omega rows : ℕ) (sig : ℕ → UInt8) (rounds : ℕ) : Option (Vector Poly rows × ℕ) :=
  (List.range rounds).foldlM
    (fun (s : Vector Poly rows × ℕ) i ↦ do
      let (a, k) ← unpackHint omega sig i s.2
      some (s.1.setIfInBounds i a, k)) (Vector.replicate rows zeroPoly, 0)

theorem unpackHints_eq :
    unpackHints omega rows sig = (unpackRows omega rows sig rows).bind fun s ↦
      if (List.range' s.2 (omega - s.2)).any fun j ↦ sig j != 0 then none else some s.1 :=
  rfl

theorem unpackRows_succ (rounds : ℕ) :
    unpackRows omega rows sig (rounds + 1) = (unpackRows omega rows sig rounds).bind fun s ↦
      (unpackHint omega sig rounds s.2).bind fun r ↦ some (s.1.setIfInBounds rounds r.1, r.2) := by
  rw [unpackRows, List.range_succ, List.foldlM_append]
  simp only [List.foldlM_cons, List.foldlM_nil, bind_pure]
  rfl

theorem hintRows_congr {ls ls' : ℕ → List UInt8} {rounds : ℕ} (hls : ∀ i < rounds, ls i = ls' i) :
    hintRows ls rounds = hintRows ls' rounds := by
  induction rounds with
  | zero => rfl
  | succ rounds ih =>
    rw [hintRows_succ, hintRows_succ, ih fun i hi ↦ hls i (by omega), hls rounds (by omega)]

/-- What is known after some accepted rounds: the rows read so far are the first bytes. -/
structure RowsRead (omega rows : ℕ) (sig : ℕ → UInt8) (rounds : ℕ) (h : Vector Poly rows) (k : ℕ) :
    Prop where
  bits (i : ℕ) : (h.getD i zeroPoly).CoeffsIn 0 1
  within : k ≤ omega
  read : hintRows (fun i ↦ hintPositions (h.getD i zeroPoly)) rounds = (List.range k).map sig
  limit (i : ℕ) (hi : i < rounds) : sig (omega + i) =
    UInt8.ofNat (hintRows (fun i ↦ hintPositions (h.getD i zeroPoly)) (i + 1)).length

theorem zeroPoly_coeffsIn : zeroPoly.CoeffsIn 0 1 := by
  intro k hk
  rw [Vector.getElem_replicate]
  decide

theorem hintPoly_coeffsIn (positions : List UInt8) : (hintPoly positions).CoeffsIn 0 1 := by
  intro k hk
  rw [← getD_eq_getElem _ 0 hk, getD_hintPoly _ hk]
  split_ifs <;> decide

/-- One more accepted round. -/
theorem RowsRead.step {rounds k limit : ℕ} {h : Vector Poly rows} {a : Poly}
    (hread : RowsRead omega rows sig rounds h k) (hrounds : rounds < rows)
    (hrow : unpackHint omega sig rounds k = some (a, limit)) :
    RowsRead omega rows sig (rounds + 1) (h.setIfInBounds rounds a) limit := by
  obtain ⟨hvalue, hlo, hhi, hsorted, rfl⟩ := unpackHint_eq_some_iff.mp hrow
  let positions := (List.range' k (limit - k)).map sig
  let h' := h.setIfInBounds rounds (hintPoly positions)
  have hother (i : ℕ) (hi : i ≠ rounds) : h'.getD i zeroPoly = h.getD i zeroPoly := by
    rw [getD_setIfInBounds, if_neg (fun heq ↦ hi heq.1.symm)]
  have hthis : h'.getD rounds zeroPoly = hintPoly positions := by
    rw [getD_setIfInBounds, if_pos ⟨rfl, hrounds⟩]
  have hrows (i : ℕ) (hi : i ≤ rounds) :
      hintRows (fun i ↦ hintPositions (h'.getD i zeroPoly)) i =
        hintRows (fun i ↦ hintPositions (h.getD i zeroPoly)) i := by
    apply hintRows_congr
    intro j hj
    rw [hother j (by omega)]
  have hall : hintRows (fun i ↦ hintPositions (h'.getD i zeroPoly)) (rounds + 1) =
      (List.range limit).map sig := by
    have hrange : List.range limit = List.range k ++ List.range' k (limit - k) := by
      have happend : List.range' 0 k ++ List.range' (0 + 1 * k) (limit - k) =
          List.range' 0 (k + (limit - k)) := List.range'_append
      rw [Nat.add_sub_cancel' hlo, Nat.zero_add, Nat.one_mul] at happend
      rw [List.range_eq_range', List.range_eq_range', happend]
    rw [hintRows_succ, hrows rounds le_rfl, hread.read, hthis, hintPositions_hintPoly hsorted,
      hrange, List.map_append]
  refine ⟨fun i ↦ ?_, hhi, hall, fun i hi ↦ ?_⟩
  · by_cases hi : i = rounds
    · rw [hi, hthis]
      exact hintPoly_coeffsIn positions
    · rw [hother i hi]
      exact hread.bits i
  · by_cases hlast : i = rounds
    · rw [hlast, hall, List.length_map, List.length_range, ← hvalue, UInt8.ofNat_toNat]
    · rw [hrows (i + 1) (by omega), hread.limit i (by omega)]

/-- Accepted rounds. -/
theorem rowsRead_of_unpackRows {rounds : ℕ} (hrounds : rounds ≤ rows) {h : Vector Poly rows} {k : ℕ}
    (hrun : unpackRows omega rows sig rounds = some (h, k)) :
    RowsRead omega rows sig rounds h k := by
  induction rounds generalizing h k with
  | zero =>
    obtain ⟨rfl, rfl⟩ := Prod.mk.inj (Option.some.inj hrun)
    refine ⟨fun i ↦ ?_, Nat.zero_le _, rfl, fun i hi ↦ absurd hi (Nat.not_lt_zero i)⟩
    have hempty : (Vector.replicate rows zeroPoly).getD i zeroPoly = zeroPoly := by
      rcases Nat.lt_or_ge i rows with hi | hi
      · rw [getD_eq_getElem _ _ hi, Vector.getElem_replicate]
      · rw [getD_of_size_le _ _ hi]
    rw [hempty]
    exact zeroPoly_coeffsIn
  | succ rounds ih =>
    rw [unpackRows_succ] at hrun
    obtain ⟨⟨h', k'⟩, hbefore, hrow⟩ := Option.bind_eq_some_iff.mp hrun
    obtain ⟨⟨a, limit⟩, hround, hlast⟩ := Option.bind_eq_some_iff.mp hrow
    obtain ⟨rfl, rfl⟩ := Prod.mk.inj (Option.some.inj hlast)
    exact (ih (by omega) hbefore).step (by omega) hround

/-- What `unpack_sig` accepts is the region of the hints it finds. -/
theorem hintRegion_of_unpackHints {h : Vector Poly rows}
    (hunpack : unpackHints omega rows sig = some h) :
    HintRegion omega rows (fun i ↦ hintPositions (h.getD i zeroPoly)) sig ∧
      ∀ i, (h.getD i zeroPoly).CoeffsIn 0 1 := by
  rw [unpackHints_eq] at hunpack
  obtain ⟨⟨h', k⟩, hrun, hpadding⟩ := Option.bind_eq_some_iff.mp hunpack
  have hread := rowsRead_of_unpackRows le_rfl hrun
  split_ifs at hpadding with hextra
  obtain rfl := Option.some.inj hpadding
  rw [Bool.not_eq_true] at hextra
  simp only [List.any_eq_false, List.mem_range'_1, bne_iff_ne, ne_eq, not_not] at hextra
  refine ⟨⟨?_, fun j hj ↦ ?_, hread.limit⟩, hread.bits⟩
  · rw [hread.read, List.length_map, List.length_range]
    exact hread.within
  · rw [hread.read]
    rcases Nat.lt_or_ge j k with hlt | hge
    · rw [List.getD_eq_getElem _ _ (by simpa using hlt)]
      simp
    · rw [List.getD_eq_default _ _ (by simpa using hge)]
      exact hextra j ⟨hge, by omega⟩

/-- The rows of a region are accepted one after the other. -/
theorem unpackRows_of_hintRegion {ls : ℕ → List UInt8} (homega : omega < 256)
    (hregion : HintRegion omega rows ls sig) (hsorted : ∀ i, (ls i).Pairwise (· < ·)) {rounds : ℕ}
    (hrounds : rounds ≤ rows) :
    ∃ h : Vector Poly rows, unpackRows omega rows sig rounds =
        some (h, (hintRows ls rounds).length) ∧
      ∀ i < rounds, h.getD i zeroPoly = hintPoly (ls i) := by
  induction rounds with
  | zero => exact ⟨Vector.replicate rows zeroPoly, rfl, fun i hi ↦ absurd hi (Nat.not_lt_zero i)⟩
  | succ rounds ih =>
    obtain ⟨h, hrun, hrows⟩ := ih (by omega)
    have hmono := length_hintRows_mono ls (Nat.le_succ rounds)
    have htotal := (length_hintRows_mono ls hrounds).trans hregion.total
    have hlength : (hintRows ls (rounds + 1)).length - (hintRows ls rounds).length =
        (ls rounds).length := by
      rw [hintRows_succ, List.length_append, Nat.add_sub_cancel_left]
    have hpositions : (List.range' (hintRows ls rounds).length (ls rounds).length).map sig =
        ls rounds := by
      refine List.ext_getElem (by simp) fun k hk hk' ↦ ?_
      have hend : (hintRows ls rounds).length + k < (hintRows ls (rounds + 1)).length := by
        omega
      rw [List.getElem_map, List.getElem_range', Nat.one_mul, hregion.position _ (by omega),
        getD_hintRows ls hrounds hend, hintRows_succ, List.getD_append_right _ _ _ _ (by omega),
        Nat.add_sub_cancel_left, List.getD_eq_getElem _ _ hk']
    have hlimit : (sig (omega + rounds)).toNat = (hintRows ls (rounds + 1)).length := by
      rw [hregion.limit rounds (by omega), toNat_ofNat_of_lt_size (by omega)]
    have hround : unpackHint omega sig rounds (hintRows ls rounds).length =
        some (hintPoly (ls rounds), (hintRows ls (rounds + 1)).length) := by
      rw [unpackHint_eq_some_iff, hlength, hpositions]
      exact ⟨hlimit, hmono, htotal, hsorted rounds, rfl⟩
    refine ⟨h.setIfInBounds rounds (hintPoly (ls rounds)), ?_, fun i hi ↦ ?_⟩
    · rw [unpackRows_succ, hrun, Option.bind_some, hround]
      rfl
    · rw [getD_setIfInBounds]
      by_cases hlast : rounds = i
      · subst hlast
        rw [if_pos ⟨rfl, by omega⟩]
      · rw [if_neg (fun heq ↦ hlast heq.1), hrows i (by omega)]

/-- `unpack_sig` finds the hints of a region. -/
theorem unpackHints_of_hintRegion {ls : ℕ → List UInt8} (homega : omega < 256)
    (hregion : HintRegion omega rows ls sig) (hsorted : ∀ i, (ls i).Pairwise (· < ·)) :
    ∃ h : Vector Poly rows, unpackHints omega rows sig = some h ∧
      ∀ i < rows, h.getD i zeroPoly = hintPoly (ls i) := by
  obtain ⟨h, hrun, hrows⟩ := unpackRows_of_hintRegion homega hregion hsorted le_rfl
  refine ⟨h, ?_, hrows⟩
  have hpadding : (List.range' (hintRows ls rows).length
      (omega - (hintRows ls rows).length)).any (fun j ↦ sig j != 0) = false := by
    simp only [List.any_eq_false, List.mem_range'_1, bne_iff_ne, ne_eq, not_not]
    rintro j ⟨hlo, hhi⟩
    rw [hregion.position j (by omega), List.getD_eq_default _ _ (by omega)]
  rw [unpackHints_eq, hrun, Option.bind_some]
  exact if_neg (by rw [hpadding]; decide)

end Rows

/-! ### Signatures -/

section Signature

variable (mode : DilithiumMode)

/-- The number of ones of a vector of hints. -/
def hintCount {rows : ℕ} (h : Vector Poly rows) : ℕ :=
  (hintRows (fun i ↦ hintPositions (h.getD i zeroPoly)) rows).length

/-- The parts of a signature that `pack_sig` can write. -/
structure Packable (z : Vector Poly mode.L) (h : Vector Poly mode.K) : Prop where
  z_range (i : ℕ) (hi : i < mode.L) : z[i].CoeffsIn (-mode.gamma1.toInt + 1) mode.gamma1.toInt
  h_bits (i : ℕ) (hi : i < mode.K) : h[i].CoeffsIn 0 1
  h_count : hintCount h ≤ mode.omega

theorem omega_lt (mode : DilithiumMode) : mode.omega < 256 := by
  cases mode <;> decide

/-- Where the hints start in a signature. -/
def hintOff : ℕ := mode.ctildeBytes + mode.L * mode.polyzPackedBytes

theorem cryptoBytes_eq : cryptoBytes mode = hintOff mode + mode.omega + mode.K := by
  rw [cryptoBytes, hintOff]
  omega

variable {mode} (sig : Vector UInt8 (cryptoBytes mode)) (c : Vector UInt8 mode.ctildeBytes)
  {z : Vector Poly mode.L} {h : Vector Poly mode.K}

theorem length_front (z : Vector Poly mode.L) :
    (c.toList ++ vecBytes (polyzBytes mode) z).length = hintOff mode := by
  rw [List.length_append, Vector.length_toList, length_vecBytes (length_polyzBytes mode), hintOff]

/-- The packed bytes of an unpacked vector are the bytes it was unpacked from. -/
theorem vecBytes_unpackVec_polyz (bytes : ℕ → UInt8) {k : ℕ}
    (hk : k < mode.L * mode.polyzPackedBytes) :
    (vecBytes (polyzBytes mode)
      (unpackVec mode.L (polyzUnpack mode) mode.polyzPackedBytes bytes)).getD k 0 = bytes k := by
  have hwidth : 0 < mode.polyzPackedBytes := by cases mode <;> decide
  have hdiv := Nat.div_add_mod k mode.polyzPackedBytes
  have hmod := Nat.mod_lt k hwidth
  have hround : k / mode.polyzPackedBytes < mode.L :=
    Nat.div_lt_of_lt_mul (by rwa [Nat.mul_comm])
  rw [← hdiv, vecBytes, getD_flatMap_range (fun _ ↦ length_polyzBytes mode _) hround hmod,
    getD_eq_getElem _ _ hround, unpackVec, Vector.getElem_ofFn, polyzBytes_polyzUnpack mode _ hmod,
    Nat.mul_comm]

/-- The buffer of `pack_sig` before the hints are written. -/
def packSigFront (z : Vector Poly mode.L) : Vector UInt8 (cryptoBytes mode) :=
  fillFrom (hintOff mode) (fun _ ↦ 0)
    (storeBytes sig 0 (c.toList ++ vecBytes (polyzBytes mode) z)) (mode.omega + mode.K)

theorem packSig_eq (z : Vector Poly mode.L) (h : Vector Poly mode.K) :
    packSig mode sig c z h =
      (packHints mode.omega mode.K (hintOff mode) (fun i ↦ h.getD i zeroPoly)
        (packSigFront sig c z)).1 := by
  have happend := storeBytes_append sig 0 c.toList (vecBytes (polyzBytes mode) z)
  rw [Vector.length_toList, Nat.zero_add] at happend
  rw [packSigFront, ← happend, ← packVec_eq (polyzPack_eq mode) (length_polyzBytes mode)]
  rfl

/-- Nothing of the former contents of the buffer is left. -/
theorem packSig_overwrites (sig' : Vector UInt8 (cryptoBytes mode)) (z : Vector Poly mode.L)
    (h : Vector Poly mode.K) : packSig mode sig c z h = packSig mode sig' c z h := by
  have hsize := cryptoBytes_eq mode
  have hlength := length_front c z
  have hfront : packSigFront sig c z = packSigFront sig' c z := by
    refine buffer_ext fun k hk ↦ ?_
    rw [packSigFront, packSigFront]
    by_cases hlow : k < hintOff mode
    · rw [getD_fillFrom_of_outside _ _ _ _ _ (Or.inl hlow),
        getD_fillFrom_of_outside _ _ _ _ _ (Or.inl hlow), getD_storeBytes _ _ _ hk,
        getD_storeBytes _ _ _ hk, if_pos (by omega), if_pos (by omega)]
    · obtain ⟨i, rfl⟩ : ∃ i, k = hintOff mode + i := ⟨k - hintOff mode, by omega⟩
      rw [getD_fillFrom _ _ _ _ _ hk, getD_fillFrom _ _ _ _ _ hk, if_pos (by omega),
        if_pos (by omega)]
  rw [packSig_eq, packSig_eq, hfront]

/-- The hints leave the front alone. -/
theorem getD_packSig_front (hcount : hintCount h ≤ mode.omega) {k : ℕ} (hk : k < hintOff mode) :
    (packSig mode sig c z h).getD k 0 =
      (c.toList ++ vecBytes (polyzBytes mode) z).getD k 0 := by
  have hsize := cryptoBytes_eq mode
  have hlength := length_front c z
  obtain ⟨-, hcells⟩ := packHints_spec (hintOff mode) (fun i ↦ h.getD i zeroPoly)
    (packSigFront sig c z) hcount
  rw [packSig_eq, hcells k (by omega), if_neg (by omega), if_neg (by omega), packSigFront,
    getD_fillFrom_of_outside _ _ _ _ _ (Or.inl hk), getD_storeBytes _ _ _ (by omega),
    if_pos (by omega), Nat.sub_zero]

/-- `pack_sig` leaves the region of its hints. -/
theorem hintRegion_packSig (hcount : hintCount h ≤ mode.omega) :
    HintRegion mode.omega mode.K (fun i ↦ hintPositions (h.getD i zeroPoly)) fun k ↦
      (packSig mode sig c z h).getD (hintOff mode + k) 0 := by
  have hsize := cryptoBytes_eq mode
  rw [packSig_eq]
  apply hintRegion_packHints (by omega) _ hcount
  intro k hk
  have hcell := getD_fillFrom (hintOff mode) (fun _ ↦ (0 : UInt8))
    (storeBytes sig 0 (c.toList ++ vecBytes (polyzBytes mode) z)) (mode.omega + mode.K) 0
    (by omega : hintOff mode + k < cryptoBytes mode)
  rw [packSigFront, hcell, if_pos (by omega)]

/-- `unpack_sig` finds what `pack_sig` was given. -/
theorem unpackSig_packSig (hpackable : Packable mode z h) :
    unpackSig mode (packSig mode sig c z h) = some (c, z, h) := by
  have hcount := hpackable.h_count
  have hlength := length_front c z
  have hc : (Vector.ofFn fun i : Fin mode.ctildeBytes ↦ (packSig mode sig c z h).getD i.val 0) =
      c := by
    refine Vector.ext fun i hi ↦ ?_
    rw [Vector.getElem_ofFn, getD_packSig_front sig c hcount (by rw [hintOff]; omega),
      List.getD_append _ _ _ _ (by rwa [Vector.length_toList]), getD_toList,
      getD_eq_getElem _ _ hi]
  have hz : unpackVec mode.L (polyzUnpack mode) mode.polyzPackedBytes
      (fun k ↦ (packSig mode sig c z h).getD (mode.ctildeBytes + k) 0) = z := by
    apply unpackVec_vecBytes (length_polyzBytes mode) z
    · intro i hi bytes hbytes
      exact polyzUnpack_polyzBytes mode (hpackable.z_range i hi) hbytes
    · intro k hk
      rw [getD_packSig_front sig c hcount (by rw [hintOff]; omega),
        List.getD_append_right _ _ _ _ (by rw [Vector.length_toList]; omega),
        Vector.length_toList, Nat.add_sub_cancel_left]
  have hregion := hintRegion_packSig sig c (z := z) hcount
  obtain ⟨h', hunpack, hrows⟩ := unpackHints_of_hintRegion (omega_lt mode) hregion
    fun i ↦ pairwise_hintPositions _
  have hh : h' = h := by
    refine Vector.ext fun i hi ↦ ?_
    have hrow := hrows i hi
    rw [getD_eq_getElem _ _ hi, getD_eq_getElem _ _ hi,
      hintPoly_hintPositions (hpackable.h_bits i hi)] at hrow
    exact hrow
  rw [unpackSig, hc, hz]
  show (unpackHints mode.omega mode.K
    fun k ↦ (packSig mode sig c z h).getD (hintOff mode + k) 0).map _ = _
  rw [hunpack, hh]
  rfl

/-- What `unpack_sig` accepts can be packed. -/
theorem packable_of_unpackSig {sig : Vector UInt8 (cryptoBytes mode)}
    {c : Vector UInt8 mode.ctildeBytes} (hunpack : unpackSig mode sig = some (c, z, h)) :
    Packable mode z h := by
  obtain ⟨h', hhints, heq⟩ := Option.map_eq_some_iff.mp hunpack
  obtain ⟨-, hparts⟩ := Prod.mk.inj heq
  obtain ⟨rfl, rfl⟩ := Prod.mk.inj hparts
  obtain ⟨hregion, hbits⟩ := hintRegion_of_unpackHints hhints
  refine ⟨fun i hi ↦ ?_, fun i hi ↦ ?_, hregion.total⟩
  · rw [unpackVec, Vector.getElem_ofFn]
    exact polyzUnpack_range mode _
  · rw [← getD_eq_getElem _ zeroPoly hi]
    exact hbits i

/-- An accepted signature is the packing of what was found in it, in whatever buffer it is written
to. -/
theorem packSig_of_unpackSig {sig : Vector UInt8 (cryptoBytes mode)}
    {c : Vector UInt8 mode.ctildeBytes} (hunpack : unpackSig mode sig = some (c, z, h))
    (sig' : Vector UInt8 (cryptoBytes mode)) : packSig mode sig' c z h = sig := by
  have hcount := (packable_of_unpackSig hunpack).h_count
  have hwritten := hintRegion_packSig sig' c (z := z) hcount
  obtain ⟨h', hhints, heq⟩ := Option.map_eq_some_iff.mp hunpack
  have hread := (hintRegion_of_unpackHints hhints).1
  obtain ⟨rfl, hparts⟩ := Prod.mk.inj heq
  obtain ⟨rfl, rfl⟩ := Prod.mk.inj hparts
  have hsize := cryptoBytes_eq mode
  refine buffer_ext fun k hk ↦ ?_
  rcases Nat.lt_or_ge k (hintOff mode) with hfront | hhint
  · rw [getD_packSig_front sig' _ hcount hfront]
    rcases Nat.lt_or_ge k mode.ctildeBytes with hc | hz
    · rw [List.getD_append _ _ _ _ (by rwa [Vector.length_toList]), getD_toList,
        getD_eq_getElem _ _ hc, Vector.getElem_ofFn]
    · rw [hintOff] at hfront
      rw [List.getD_append_right _ _ _ _ (by rwa [Vector.length_toList]), Vector.length_toList,
        vecBytes_unpackVec_polyz _ (by omega), Nat.add_sub_cancel' hz]
  · have hback : mode.ctildeBytes + mode.L * mode.polyzPackedBytes + (k - hintOff mode) = k :=
      Nat.add_sub_cancel' hhint
    have hregion := hwritten.unique hread (k := k - hintOff mode) (by omega)
    simpa only [Nat.add_sub_cancel' hhint, hback] using hregion

/-- `unpack_sig` accepts the packings of packable parts and nothing else, and finds the parts. -/
theorem unpackSig_eq_some_iff (sig' : Vector UInt8 (cryptoBytes mode)) (z : Vector Poly mode.L)
    (h : Vector Poly mode.K) :
    unpackSig mode sig = some (c, z, h) ↔ Packable mode z h ∧ packSig mode sig' c z h = sig := by
  constructor
  · intro hunpack
    exact ⟨packable_of_unpackSig hunpack, packSig_of_unpackSig hunpack sig'⟩
  · rintro ⟨hpackable, rfl⟩
    exact unpackSig_packSig sig' c hpackable

end Signature

end EvMlDsa
