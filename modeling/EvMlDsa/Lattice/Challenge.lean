import EvMlDsa.Lattice.Sampling
import EvMlDsa.RefFips202

/-!
# The challenge

`poly_challenge` reads SHAKE256 through a buffer of one block and shifts the signs out of a word.
What it computes is the sampler of the standard (`polyChallenge_eq`), which reads one byte after the
other and takes the signs by their number (`sampleInBall`); its result has exactly `TAU`
coefficients that are not zero, all of them `1` or `-1` (`sampleInBall_weight`).
-/

set_option autoImplicit false
set_option relaxedAutoImplicit false

namespace EvMlDsa

open Library.FixedArray Library.Rejection

/-! ### The function -/

/-- The buffer of `poly_challenge`, the number of blocks squeezed and the next byte of it. -/
structure ChallengeReader where
  buf : List UInt8
  blocks : ℕ
  pos : ℕ

/-- The loop `do … while (b > i)`, with at most `fuel` rounds. -/
def challengeByte (stream : ℕ → UInt8) (i : ℕ) : (fuel : ℕ) → ChallengeReader →
    Option (UInt8 × ChallengeReader)
  | 0, _ => none
  | fuel + 1, reader =>
    let reader :=
      if reader.pos ≥ shake256Rate then
        { buf := squeezeblocks shake256Rate stream reader.blocks 1
          blocks := reader.blocks + 1
          pos := 0 }
      else reader
    let b := reader.buf.getD reader.pos 0
    let reader := { reader with pos := reader.pos + 1 }
    if b.toNat > i then challengeByte stream i fuel reader else some (b, reader)

/-- What the loop over `i` of `poly_challenge` carries. -/
structure ChallengeState where
  c : Poly
  signs : UInt64
  reader : ChallengeReader

/-- One round of the loop over `i`. -/
def challengeRound (stream : ℕ → UInt8) (fuel : ℕ) (s : ChallengeState) (i : ℕ) :
    Option ChallengeState := do
  let (b, reader) ← challengeByte stream i fuel s.reader
  let c := s.c.setIfInBounds i (s.c.getD b.toNat 0)
  let c := c.setIfInBounds b.toNat (1 - 2 * (s.signs &&& 1)).toUInt32.toInt32
  some { c := c, signs := s.signs >>> 1, reader := reader }

/-- `poly_challenge`. -/
def polyChallenge (mode : DilithiumMode) (xof : Xof) (fuel : ℕ) (seed : List UInt8) : Option Poly :=
  let stream := xof.shake256 seed
  let buf := squeezeblocks shake256Rate stream 0 1
  let signs := (List.range 8).foldl
    (fun signs i ↦ signs ||| ((buf.getD i 0).toUInt64 <<< UInt64.ofNat (8 * i))) 0
  ((List.range' (256 - mode.tau) mode.tau).foldlM (challengeRound stream fuel)
    { c := zeroPoly, signs := signs, reader := { buf := buf, blocks := 1, pos := 8 } }).map (·.c)

/-! ### The sampler of the standard -/

/-- The first byte from a position on that is at most `i`, and the position behind it. -/
def scan (stream : ℕ → UInt8) (i : ℕ) : (fuel pos : ℕ) → Option (ℕ × ℕ)
  | 0, _ => none
  | fuel + 1, pos =>
    if (stream pos).toNat > i then scan stream i fuel (pos + 1)
    else some ((stream pos).toNat, pos + 1)

/-- One round of `SampleInBall`. -/
def sampleRound (tau : ℕ) (stream : ℕ → UInt8) (fuel : ℕ) (s : Poly × ℕ) (i : ℕ) :
    Option (Poly × ℕ) := do
  let (j, pos) ← scan stream i fuel s.2
  let bit := i + tau - 256
  let sign := (stream (bit / 8)).toNat.testBit (bit % 8)
  let c := s.1.setIfInBounds i (s.1.getD j 0)
  some (c.setIfInBounds j (if sign then -1 else 1), pos)

/-- `SampleInBall`. -/
def sampleInBall (tau : ℕ) (stream : ℕ → UInt8) (fuel : ℕ) : Option Poly :=
  ((List.range' (256 - tau) tau).foldlM (sampleRound tau stream fuel) (zeroPoly, 8)).map Prod.fst

/-! ### The buffer -/

/-- The reader holds a block of the stream and stands in front of byte `pos`. -/
structure Reads (stream : ℕ → UInt8) (reader : ChallengeReader) (pos : ℕ) : Prop where
  buf : reader.buf = squeezeblocks shake256Rate stream (reader.blocks - 1) 1
  started : 0 < reader.blocks
  within : reader.pos ≤ shake256Rate
  pos : pos = shake256Rate * (reader.blocks - 1) + reader.pos

/-- Reading through the buffer is reading one byte after the other. -/
theorem challengeByte_eq {stream : ℕ → UInt8} (i fuel : ℕ) {reader : ChallengeReader} {pos : ℕ}
    (hreads : Reads stream reader pos) :
    (challengeByte stream i fuel reader = none ∧ scan stream i fuel pos = none) ∨
      ∃ b reader' pos', challengeByte stream i fuel reader = some (b, reader') ∧
        scan stream i fuel pos = some (b.toNat, pos') ∧ Reads stream reader' pos' := by
  induction fuel generalizing reader pos with
  | zero => exact Or.inl ⟨rfl, rfl⟩
  | succ fuel ih =>
    -- the reader after the refill stands in front of the same byte
    obtain ⟨full, hfull, hfullReads, hlt⟩ : ∃ full : ChallengeReader,
        full = (if reader.pos ≥ shake256Rate then
          { buf := squeezeblocks shake256Rate stream reader.blocks 1
            blocks := reader.blocks + 1
            pos := 0 } else reader) ∧ Reads stream full pos ∧ full.pos < shake256Rate := by
      refine ⟨_, rfl, ?_⟩
      have hpos := hreads.pos
      have hwithin := hreads.within
      have hstarted := hreads.started
      split_ifs with hend
      · refine ⟨⟨rfl, Nat.succ_pos _, Nat.zero_le _, ?_⟩, Nat.succ_pos 135⟩
        have hblocks : reader.blocks - 1 + 1 = reader.blocks := Nat.sub_add_cancel hstarted
        rw [hpos, Nat.add_sub_cancel, Nat.add_zero, ← hblocks, Nat.mul_succ, hblocks]
        omega
      · exact ⟨hreads, by omega⟩
    have hbyte : full.buf.getD full.pos 0 = stream pos := by
      rw [hfullReads.buf, getD_squeezeblocks _ _ _ (by omega), ← hfullReads.pos]
    have hnext : Reads stream { full with pos := full.pos + 1 } (pos + 1) := by
      refine ⟨hfullReads.buf, hfullReads.started, hlt, ?_⟩
      rw [hfullReads.pos]
      rfl
    simp only [challengeByte, scan, ← hfull, hbyte]
    split_ifs with hgt
    · exact ih hnext
    · exact Or.inr ⟨_, _, _, rfl, rfl, hnext⟩

/-! ### The signs -/

/-- The lowest of the signs that are left. -/
theorem sign_eq (word : UInt64) :
    (1 - 2 * (word &&& 1)).toUInt32.toInt32 = if word.toBitVec.getLsbD 0 then -1 else 1 := by
  have hbit : word &&& 1 = if word.toBitVec.getLsbD 0 then 1 else 0 := by
    rw [← UInt64.toBitVec_inj]
    refine BitVec.eq_of_getLsbD_eq fun z hz ↦ ?_
    have hone : (1 : UInt64).toBitVec.getLsbD z = decide (z = 0) := by
      rcases z with _ | z
      · rfl
      · simp
    rw [UInt64.toBitVec_and, BitVec.getLsbD_and, hone]
    split_ifs with hlow
    · rw [hone]
      by_cases hz0 : z = 0
      · rw [hz0, hlow]
        rfl
      · simp [hz0]
    · by_cases hz0 : z = 0
      · rw [hz0, Bool.eq_false_of_not_eq_true hlow]
        rfl
      · simp [hz0]
  rw [hbit]
  split_ifs <;> decide

/-- A sign is a bit of the first eight bytes. -/
theorem getLsbD_signs (stream : ℕ → UInt8) {bit : ℕ} (hbit : bit < 64) :
    (Ref.load64 stream >>> UInt64.ofNat bit).toBitVec.getLsbD 0 =
      (stream (bit / 8)).toNat.testBit (bit % 8) := by
  have hshift : (UInt64.ofNat bit).toBitVec.toNat % 64 = bit := by
    have hvalue : (UInt64.ofNat bit).toNat = bit := UInt64.toNat_ofNat_of_lt' (by
      show bit < 2 ^ 64
      omega)
    show (UInt64.ofNat bit).toNat % 64 = bit
    rw [hvalue, Nat.mod_eq_of_lt hbit]
  have hword : (Ref.load64 stream >>> UInt64.ofNat bit).toBitVec.getLsbD 0 =
      (Ref.load64 stream).toBitVec.getLsbD bit := by
    rw [UInt64.toBitVec_shiftRight, BitVec.ushiftRight_eq', BitVec.getLsbD_ushiftRight,
      BitVec.toNat_umod, Nat.add_zero]
    exact congrArg _ hshift
  rw [hword, Ref.getLsbD_load64 stream hbit]
  rfl

theorem shiftRight_succ (word : UInt64) {n : ℕ} (hn : n + 1 < 64) :
    (word >>> UInt64.ofNat n) >>> 1 = word >>> UInt64.ofNat (n + 1) := by
  have hvalue (k : ℕ) (hk : k < 64) : (UInt64.ofNat k).toNat % 64 = k := by
    rw [UInt64.toNat_ofNat_of_lt' (by show k < 2 ^ 64; omega), Nat.mod_eq_of_lt hk]
  have hone : (1 : UInt64).toNat % 64 = 1 := rfl
  rw [← UInt64.toNat_inj, UInt64.toNat_shiftRight, UInt64.toNat_shiftRight,
    UInt64.toNat_shiftRight, hvalue n (by omega), hvalue (n + 1) hn, hone, ← Nat.shiftRight_add]

/-! ### The rounds -/

/-- What the code carries stands for what the standard carries in front of round `i`. -/
structure Tracks (tau : ℕ) (stream : ℕ → UInt8) (i : ℕ) (s : ChallengeState) (t : Poly × ℕ) :
    Prop where
  c : s.c = t.1
  signs : s.signs = Ref.load64 stream >>> UInt64.ofNat (i + tau - 256)
  reads : Reads stream s.reader t.2

theorem Tracks.round {tau : ℕ} {stream : ℕ → UInt8} {i : ℕ} {s : ChallengeState} {t : Poly × ℕ}
    (htracks : Tracks tau stream i s t) (fuel : ℕ) (hlo : 256 ≤ i + tau)
    (hhi : i + tau - 256 < 63) :
    (challengeRound stream fuel s i = none ∧ sampleRound tau stream fuel t i = none) ∨
      ∃ s' t', challengeRound stream fuel s i = some s' ∧
        sampleRound tau stream fuel t i = some t' ∧
        Tracks tau stream (i + 1) s' t' := by
  rcases challengeByte_eq i fuel htracks.reads with
    ⟨hbyte, hscan⟩ | ⟨b, reader, pos, hbyte, hscan, hreads⟩
  · refine Or.inl ⟨?_, ?_⟩
    · rw [challengeRound, hbyte]
      rfl
    · rw [sampleRound, hscan]
      rfl
  · have hcode : challengeRound stream fuel s i = some
        { c := (s.c.setIfInBounds i (s.c.getD b.toNat 0)).setIfInBounds b.toNat
            (1 - 2 * (s.signs &&& 1)).toUInt32.toInt32
          signs := s.signs >>> 1
          reader := reader } := by
      rw [challengeRound, hbyte]
      rfl
    have hstandard : sampleRound tau stream fuel t i = some
        ((t.1.setIfInBounds i (t.1.getD b.toNat 0)).setIfInBounds b.toNat
          (if (stream ((i + tau - 256) / 8)).toNat.testBit ((i + tau - 256) % 8) then -1 else 1),
          pos) := by
      rw [sampleRound, hscan]
      rfl
    refine Or.inr ⟨_, _, hcode, hstandard, ?_, ?_, hreads⟩
    · have hbit := getLsbD_signs stream (by omega : i + tau - 256 < 64)
      simp only [htracks.c, htracks.signs, sign_eq, hbit]
    · have hnext : i + 1 + tau - 256 = i + tau - 256 + 1 := by omega
      simp only [htracks.signs, hnext]
      exact shiftRight_succ _ (by omega)

theorem Tracks.rounds {tau : ℕ} (htau : tau ≤ 63) {stream : ℕ → UInt8} (fuel : ℕ) {count i : ℕ}
    (hend : i + count = 256) (hlo : 256 ≤ i + tau) {s : ChallengeState} {t : Poly × ℕ}
    (htracks : Tracks tau stream i s t) :
    ((List.range' i count).foldlM (challengeRound stream fuel) s).map (·.c) =
      ((List.range' i count).foldlM (sampleRound tau stream fuel) t).map Prod.fst := by
  induction count generalizing i s t with
  | zero => exact congrArg some htracks.c
  | succ count ih =>
    rw [List.range'_succ, List.foldlM_cons, List.foldlM_cons]
    rcases htracks.round fuel hlo (by omega) with
      ⟨hcode, hstandard⟩ | ⟨s', t', hcode, hstandard, hnext⟩
    · rw [hcode, hstandard]
      rfl
    · rw [hcode, hstandard]
      exact ih (by omega) (by omega) hnext

/-- `poly_challenge` is the sampler of the standard. -/
theorem polyChallenge_eq (mode : DilithiumMode) (xof : Xof) (fuel : ℕ) (seed : List UInt8) :
    polyChallenge mode xof fuel seed = sampleInBall mode.tau (xof.shake256 seed) fuel := by
  have htau : mode.tau ≤ 63 := by cases mode <;> decide
  have hsigns : (List.range 8).foldl (fun signs i ↦ signs |||
      (((squeezeblocks shake256Rate (xof.shake256 seed) 0 1).getD i 0).toUInt64 <<<
        UInt64.ofNat (8 * i))) 0 = Ref.load64 (xof.shake256 seed) := by
    rw [Ref.load64]
    refine List.foldl_ext _ _ _ fun signs i hi ↦ ?_
    have hlt := List.mem_range.mp hi
    have hblock : i < shake256Rate * 1 := Nat.lt_of_lt_of_le hlt (by decide : 8 ≤ 136)
    rw [getD_squeezeblocks _ _ _ hblock, Nat.mul_zero, Nat.zero_add]
  simp only [polyChallenge, hsigns, sampleInBall]
  apply Tracks.rounds htau fuel (by omega) (by omega)
  refine ⟨rfl, ?_, ⟨rfl, Nat.one_pos, (by decide : 8 ≤ 136), rfl⟩⟩
  have hfirst : 256 - mode.tau + mode.tau - 256 = 0 := by omega
  have hzero : UInt64.ofNat 0 = 0 := rfl
  rw [hfirst, hzero, UInt64.shiftRight_zero]

/-! ### The weight -/

/-- The coefficients that are not zero. -/
def support (c : Poly) : Finset ℕ := (Finset.range 256).filter fun k ↦ c.getD k 0 ≠ 0

theorem mem_support {c : Poly} {k : ℕ} : k ∈ support c ↔ k < 256 ∧ c.getD k 0 ≠ 0 := by
  rw [support, Finset.mem_filter, Finset.mem_range]

theorem scan_le {stream : ℕ → UInt8} {i fuel pos j pos' : ℕ}
    (hscan : scan stream i fuel pos = some (j, pos')) : j ≤ i := by
  induction fuel generalizing pos with
  | zero => exact absurd hscan (by simp [scan])
  | succ fuel ih =>
    rw [scan] at hscan
    split_ifs at hscan with hgt
    · exact ih hscan
    · obtain ⟨rfl, -⟩ := Prod.mk.inj (Option.some.inj hscan)
      exact Nat.not_lt.mp hgt

/-- What holds in front of round `i`: so far there is a coefficient for every round, all of them
below `i`. -/
structure Sampled (tau i : ℕ) (c : Poly) : Prop where
  ternary : c.CoeffsIn (-1) 1
  card : (support c).card + 256 = i + tau
  rest (k : ℕ) (hk : i ≤ k) : c.getD k 0 = 0

/-- The two writes of a round add one place to the support. -/
theorem support_round {c : Poly} {i j : ℕ} (hi : i < 256) (hj : j ≤ i) {sign : Int32}
    (hsign : sign ≠ 0) (hrest : c.getD i 0 = 0) :
    support ((c.setIfInBounds i (c.getD j 0)).setIfInBounds j sign) =
      insert (if c.getD j 0 = 0 then j else i) (support c) := by
  ext k
  rw [Finset.mem_insert, mem_support, mem_support, getD_setIfInBounds, getD_setIfInBounds]
  by_cases hjk : j = k
  · subst hjk
    have hlt : j < 256 := by omega
    rw [if_pos ⟨rfl, hlt⟩]
    split_ifs with hzero
    · simp [hlt, hsign]
    · simp [hlt, hsign, hzero]
  · rw [if_neg (fun h ↦ hjk h.1)]
    by_cases hik : i = k
    · subst hik
      rw [if_pos ⟨rfl, hi⟩]
      split_ifs with hzero
      · simp [hzero, hrest, Ne.symm hjk]
      · simp [hzero, hi]
    · rw [if_neg (fun h ↦ hik h.1)]
      split_ifs with hzero
      · simp [Ne.symm hjk]
      · simp [Ne.symm hik]

theorem Sampled.round {tau i : ℕ} {stream : ℕ → UInt8} {fuel : ℕ} {s s' : Poly × ℕ}
    (hsampled : Sampled tau i s.1) (hi : i < 256)
    (hround : sampleRound tau stream fuel s i = some s') : Sampled tau (i + 1) s'.1 := by
  rw [sampleRound, Option.bind_eq_bind, Option.bind_eq_some_iff] at hround
  obtain ⟨⟨j, pos⟩, hscan, hs'⟩ := hround
  have hj := scan_le hscan
  obtain ⟨sign, hsign, hunit⟩ : ∃ sign : Int32, (sign = -1 ∨ sign = 1) ∧
      s' = ((s.1.setIfInBounds i (s.1.getD j 0)).setIfInBounds j sign, pos) := by
    refine ⟨_, ?_, (Option.some.inj hs').symm⟩
    split_ifs
    · exact Or.inl rfl
    · exact Or.inr rfl
  have hne : sign ≠ 0 := by rcases hsign with rfl | rfl <;> decide
  have hrange : -1 ≤ sign.toInt ∧ sign.toInt ≤ 1 := by rcases hsign with rfl | rfl <;> decide
  have hzero := hsampled.rest i le_rfl
  rw [hunit]
  refine ⟨fun k hk ↦ ?_, ?_, fun k hk ↦ ?_⟩
  · rw [← getD_eq_getElem _ 0 hk, getD_setIfInBounds, getD_setIfInBounds]
    split_ifs
    · exact hrange
    · exact hsampled.ternary.getD j (by omega)
    · exact hsampled.ternary.getD k hk
  · have hnew : (if s.1.getD j 0 = 0 then j else i) ∉ support s.1 := by
      rw [mem_support]
      split_ifs with hj0
      · exact fun h ↦ h.2 hj0
      · exact fun h ↦ h.2 hzero
    rw [support_round hi hj hne hzero, Finset.card_insert_of_notMem hnew]
    have hcard := hsampled.card
    omega
  · rw [getD_setIfInBounds, getD_setIfInBounds, if_neg (by omega), if_neg (by omega)]
    exact hsampled.rest k (by omega)

theorem Sampled.rounds {tau count i : ℕ} {stream : ℕ → UInt8} {fuel : ℕ} {s s' : Poly × ℕ}
    (hsampled : Sampled tau i s.1) (hend : i + count = 256)
    (hrounds : (List.range' i count).foldlM (sampleRound tau stream fuel) s = some s') :
    Sampled tau 256 s'.1 := by
  induction count generalizing i s with
  | zero =>
    obtain rfl : i = 256 := hend
    obtain rfl := Option.some.inj hrounds
    exact hsampled
  | succ count ih =>
    rw [List.range'_succ, List.foldlM_cons, Option.bind_eq_bind, Option.bind_eq_some_iff] at hrounds
    obtain ⟨next, hnext, hrest⟩ := hrounds
    exact ih (hsampled.round (by omega) hnext) (by omega) hrest

/-- The sampler of the standard returns `tau` coefficients `1` or `-1`. -/
theorem sampleInBall_weight {tau : ℕ} (htau : tau ≤ 256) {stream : ℕ → UInt8} {fuel : ℕ} {c : Poly}
    (hc : sampleInBall tau stream fuel = some c) : c.CoeffsIn (-1) 1 ∧ (support c).card = tau := by
  rw [sampleInBall, Option.map_eq_some_iff] at hc
  obtain ⟨s, hrounds, rfl⟩ := hc
  have hempty : support zeroPoly = ∅ := by
    ext k
    simp [mem_support, getD_zeroPoly]
  have hstart : Sampled tau (256 - tau) zeroPoly := by
    refine ⟨fun k hk ↦ ?_, ?_, fun k _ ↦ getD_zeroPoly k⟩
    · rw [Vector.getElem_replicate]
      decide
    · rw [hempty, Finset.card_empty]
      omega
  have hend := hstart.rounds (by omega) hrounds
  have hcard := hend.card
  exact ⟨hend.ternary, by omega⟩

/-! ### More fuel -/

theorem scan_mono {stream : ℕ → UInt8} {i fuel more pos : ℕ} {result : ℕ × ℕ}
    (hresult : scan stream i fuel pos = some result) (hmore : fuel ≤ more) :
    scan stream i more pos = some result := by
  induction fuel generalizing more pos with
  | zero => exact absurd hresult (by simp [scan])
  | succ fuel ih =>
    obtain ⟨more, rfl⟩ : ∃ n, more = n + 1 := ⟨more - 1, by omega⟩
    rw [scan] at hresult ⊢
    split_ifs at hresult ⊢ with hgt
    · exact ih hresult (by omega)
    · exact hresult

theorem sampleRound_mono {tau : ℕ} {stream : ℕ → UInt8} {fuel more : ℕ} (hmore : fuel ≤ more)
    (s : Poly × ℕ) (i : ℕ) (result : Poly × ℕ)
    (hresult : sampleRound tau stream fuel s i = some result) :
    sampleRound tau stream more s i = some result := by
  rw [sampleRound, Option.bind_eq_bind, Option.bind_eq_some_iff] at hresult ⊢
  obtain ⟨found, hscan, hrest⟩ := hresult
  exact ⟨found, scan_mono hscan hmore, hrest⟩

theorem polyChallenge_mono {mode : DilithiumMode} {xof : Xof} {fuel more : ℕ} {seed : List UInt8}
    {c : Poly} (hc : polyChallenge mode xof fuel seed = some c) (hmore : fuel ≤ more) :
    polyChallenge mode xof more seed = some c := by
  rw [polyChallenge_eq, sampleInBall, Option.map_eq_some_iff] at hc ⊢
  obtain ⟨s, hrounds, hs⟩ := hc
  exact ⟨s, foldlM_mono (sampleRound_mono hmore) hrounds, hs⟩

end EvMlDsa
