import EvMlDsa.Coherence
import EvMlDsa.Wire

/-!
# What the verifier reads

`ev_verify` over the memory a signature lies in, with a record of every range of bytes it reads or
passes on (`evVerifyReads`). The one guard compares the length with `ev_sig_bytes`, which is
computed in 32 bits, while the path loop runs through the unwrapped depth. All reads stay inside the
signature exactly if a signature that gets past the guard and the tag check belongs to a depth whose
length does not wrap (`evVerify_reads_iff`). As long as they do, the outcome is that of `evVerify`
(`evVerifyReads_ret`).
-/

set_option autoImplicit false
set_option relaxedAutoImplicit false

namespace EvMlDsa

open Library.FixedArray

/-! ### The verifier on memory -/

/-- The `size` bytes at an offset. -/
def readBytes (size : ℕ) (sig : ℕ → UInt8) (off : ℕ) : Vector UInt8 size :=
  Vector.ofFn fun i ↦ sig (off + i.val)

/-- What a call of `ev_verify` does: its return code (`none` where the message length overflows
`size_t`), and the ranges of `sig` it reads, as offset and size. -/
structure VerifyRun where
  ret : Option ℤ
  reads : List (ℕ × ℕ)

/-- The offset of `path + (l - 1) * 32` from the start of the path, in the loop turn of `l + 1`. -/
def siblingOffset (l : ℕ) : ℕ := (UInt32.ofNat l * 32).toNat

section Memory

variable (host : ByteOrder)

/-- The loop of `ev_merkle_verify` on a path at `path`: the final `cur` and the ranges read. -/
def verifyLoopReads (sig : ℕ → UInt8) (path : ℕ) :
    (l idx : ℕ) → Block → Block × List (ℕ × ℕ)
  | 0, _, cur => (cur, [])
  | l + 1, idx, cur =>
    let off := path + siblingOffset l
    let sib : Block := readBytes 32 sig off
    let tmp := if idx &&& 1 = 1 then evHashNode host sib cur else evHashNode host cur sib
    let rest := verifyLoopReads sig path l (idx >>> 1) tmp
    (rest.1, (off, 32) :: rest.2)

variable {mode : DilithiumMode} {Rnd : Type} (vendored : Vendored mode Rnd) (legacy : Bool)

/-- `ev_verify` on the memory at `sig`, every allocation granted. -/
def evVerifyReads (pk : EvPk Block) (m : List UInt8) (sig : ℕ → UInt8) (siglen : ℕ) : VerifyRun :=
  if siglen ≠ (evSigBytes mode pk.par.depth).toNat then ⟨some (-1), []⟩
  else
    let tag := readBytes 4 sig 0
    let p := readBigEndian tag
    let reads := [(0, 4)]
    if pk.par.T ≤ p then ⟨some (-2), reads⟩
    else
      let fswa := 4
      let t1 := fswa + cryptoBytes mode
      let path := t1 + t1Bytes mode
      let t1Packed : PackedT1 mode := readBytes (t1Bytes mode) sig t1
      let reads := reads ++ [(t1, t1Bytes mode)]
      let dg := (bytePrimitives host vendored).hashLeaf t1Packed
      let folded := verifyLoopReads host sig path pk.par.depth.toNat p.toNat dg
      let reads := reads ++ folded.2
      if folded.1 ≠ pk.root then ⟨some (-3), reads⟩
      else
        -- the second copy of `t1`, into the leaf key
        let reads := reads ++ [(t1, t1Bytes mode)]
        let leafPk : LeafPk Block (PackedT1 mode) :=
          { rho := evMatrixSeed (bytePrimitives host vendored) legacy pk.rho p, t1 := t1Packed }
        if 2 ^ 64 ≤ 1 + 4 + m.length then ⟨none, reads⟩
        else
          let cm := compositeMessage tag m
          let reads := reads ++ [(0, 4), (fswa, cryptoBytes mode)]
          let code := (bytePrimitives host vendored).cryptoSignVerify
            (readBytes (cryptoBytes mode) sig fswa).toList cm leafPk
          ⟨some (if code = 0 then 0 else -5), reads⟩

/-- Every byte read or passed on lies inside the signature. -/
def VerifyRun.InBounds (run : VerifyRun) (siglen : ℕ) : Prop :=
  ∀ read ∈ run.reads, read.1 + read.2 ≤ siglen

/-! ### Which ranges are read -/

/-- The path loop reads one block for every level. -/
theorem verifyLoopReads_reads (sig : ℕ → UInt8) (path l idx : ℕ) (cur : Block) :
    ∀ read, read ∈ (verifyLoopReads host sig path l idx cur).2 ↔
      ∃ i < l, read = (path + siblingOffset i, 32) := by
  induction l generalizing idx cur with
  | zero => simp [verifyLoopReads]
  | succ l ih =>
    intro read
    rw [verifyLoopReads, List.mem_cons, ih]
    constructor
    · rintro (rfl | ⟨i, hi, rfl⟩)
      · exact ⟨l, Nat.lt_succ_self l, rfl⟩
      · exact ⟨i, by omega, rfl⟩
    · rintro ⟨i, hi, rfl⟩
      rcases Nat.lt_succ_iff_lt_or_eq.mp hi with hlt | rfl
      · exact Or.inr ⟨i, hlt, rfl⟩
      · exact Or.inl rfl

/-- The call gets past the guard on the length and the check of the tag. -/
def PastChecks (mode : DilithiumMode) (pk : EvPk Block) (sig : ℕ → UInt8) (siglen : ℕ) : Prop :=
  siglen = (evSigBytes mode pk.par.depth).toNat ∧ readBigEndian (readBytes 4 sig 0) < pk.par.T

/-- The ranges read past the checks: tag, `t1` and path, and after the fold at most `t1`, the tag
and the leaf signature once more. -/
theorem exists_reads_of_pastChecks {pk : EvPk Block} {sig : ℕ → UInt8} {siglen : ℕ}
    (hpast : PastChecks mode pk sig siglen) (m : List UInt8) :
    ∃ idx cur again, (evVerifyReads host vendored legacy pk m sig siglen).reads =
        [(0, 4), (4 + cryptoBytes mode, t1Bytes mode)] ++
          (verifyLoopReads host sig (pathOffset mode) pk.par.depth.toNat idx cur).2 ++ again ∧
      ∀ read ∈ again,
        read ∈ [(0, 4), (4, cryptoBytes mode), (4 + cryptoBytes mode, t1Bytes mode)] := by
  obtain ⟨hlength, htag⟩ := hpast
  refine ⟨(readBigEndian (readBytes 4 sig 0)).toNat,
    (bytePrimitives host vendored).hashLeaf (readBytes (t1Bytes mode) sig (4 + cryptoBytes mode)),
    ?_⟩
  unfold evVerifyReads
  rw [if_neg (not_not.mpr hlength), if_neg (UInt32.not_le.mpr htag)]
  dsimp only
  split_ifs
  · exact ⟨[], (List.append_nil _).symm, by simp⟩
  · exact ⟨_, rfl, by simp⟩
  · exact ⟨_, by rw [List.append_assoc]; rfl, by simp⟩
  · exact ⟨_, by rw [List.append_assoc]; rfl, by simp⟩

/-! ### Lengths and offsets in 32 bits -/

theorem siblingOffset_eq {i : ℕ} (hi : i < 2 ^ 32) : siblingOffset i = 32 * i % 2 ^ 32 := by
  rw [siblingOffset, UInt32.toNat_mul, UInt32.toNat_ofNat_of_lt' hi, Nat.mul_comm]
  rfl

theorem toNat_evSigBytes_wrapped (mode : DilithiumMode) (depth : UInt32) :
    (evSigBytes mode depth).toNat = (pathOffset mode + 32 * depth.toNat) % 2 ^ 32 := by
  have hfixed : 4 + cryptoBytes mode + t1Bytes mode < 2 ^ 32 := by
    cases mode <;> decide
  rw [evSigBytes, UInt32.toNat_add, UInt32.toNat_mul, UInt32.toNat_ofNat_of_lt' hfixed]
  simp only [evHashBytes, UInt32.reduceOfNat, UInt32.reduceToNat, pathOffset]
  omega

/-- Even a wrapped length leaves room for the tag. -/
theorem four_le_toNat_evSigBytes (mode : DilithiumMode) (depth : UInt32) :
    4 ≤ (evSigBytes mode depth).toNat := by
  have hresidue : 4 ≤ pathOffset mode % 32 := by
    cases mode <;> decide
  rw [toNat_evSigBytes_wrapped]
  omega

/-! ### Reads in bounds -/

variable {host vendored legacy}

/-- If the length wraps, a signature that gets past the checks is read past its end: `t1` does not
fit, or the path loop goes through the whole range of its 32-bit offset. -/
theorem not_inBounds_of_wrap {pk : EvPk Block} {sig : ℕ → UInt8} {siglen : ℕ}
    (hpast : PastChecks mode pk sig siglen) (m : List UInt8)
    (hwrap : 2 ^ 32 ≤ pathOffset mode + 32 * pk.par.depth.toNat) :
    ¬ (evVerifyReads host vendored legacy pk m sig siglen).InBounds siglen := by
  intro hbounds
  obtain ⟨idx, cur, again, hreads, -⟩ :=
    exists_reads_of_pastChecks host vendored legacy hpast m
  unfold VerifyRun.InBounds at hbounds
  rw [hreads] at hbounds
  have hsiglen : siglen = (pathOffset mode + 32 * pk.par.depth.toNat) % 2 ^ 32 :=
    hpast.1.trans (toNat_evSigBytes_wrapped mode pk.par.depth)
  rcases Nat.lt_or_ge pk.par.depth.toNat (2 ^ 27) with hsmall | hlarge
  · have ht1 := hbounds (4 + cryptoBytes mode, t1Bytes mode) (by simp)
    have hend : pathOffset mode ≤ siglen := ht1
    omega
  · have hread := (verifyLoopReads_reads host sig (pathOffset mode) pk.par.depth.toNat idx cur
      _).mpr ⟨2 ^ 27 - 1, by omega, rfl⟩
    have hlast := hbounds _ (List.mem_append_left _ (List.mem_append_right _ hread))
    rw [siblingOffset_eq (by decide)] at hlast
    omega

/-- Without a wrap every read is in bounds. -/
theorem inBounds_of_no_wrap {pk : EvPk Block} {sig : ℕ → UInt8} {siglen : ℕ}
    (hpast : PastChecks mode pk sig siglen) (m : List UInt8)
    (hwrap : pathOffset mode + 32 * pk.par.depth.toNat < 2 ^ 32) :
    (evVerifyReads host vendored legacy pk m sig siglen).InBounds siglen := by
  obtain ⟨idx, cur, again, hreads, hagain⟩ :=
    exists_reads_of_pastChecks host vendored legacy hpast m
  have hsiglen : siglen = pathOffset mode + 32 * pk.par.depth.toNat := by
    rw [hpast.1, toNat_evSigBytes_wrapped, Nat.mod_eq_of_lt hwrap]
  have hfields : ∀ read ∈ [(0, 4), (4, cryptoBytes mode), (4 + cryptoBytes mode, t1Bytes mode)],
      read.1 + read.2 ≤ siglen := by
    have hoffset : pathOffset mode = 4 + cryptoBytes mode + t1Bytes mode := rfl
    intro read hread
    simp only [List.mem_cons, List.not_mem_nil, or_false] at hread
    rcases hread with rfl | rfl | rfl <;> dsimp only <;> omega
  intro read hread
  rw [hreads, List.mem_append, List.mem_append] at hread
  rcases hread with (hread | hread) | hread
  · refine hfields read ?_
    rcases List.mem_pair.mp hread with rfl | rfl <;> simp
  · obtain ⟨i, hi, rfl⟩ := (verifyLoopReads_reads host sig _ _ idx cur read).mp hread
    have hoffset : siblingOffset i = 32 * i := by
      rw [siblingOffset_eq (by omega), Nat.mod_eq_of_lt (by omega)]
    dsimp only
    omega
  · exact hfields read (hagain read hread)

variable (host vendored legacy)

/-- The verifier reads inside the signature exactly if no signature gets past its checks at a depth
whose length wraps. -/
theorem evVerify_reads_iff (pk : EvPk Block) (m : List UInt8) (sig : ℕ → UInt8) (siglen : ℕ) :
    (evVerifyReads host vendored legacy pk m sig siglen).InBounds siglen ↔
      ¬ (siglen = (evSigBytes mode pk.par.depth).toNat ∧
        readBigEndian (readBytes 4 sig 0) < pk.par.T ∧
        2 ^ 32 ≤ pathOffset mode + 32 * pk.par.depth.toNat) := by
  constructor
  · rintro hbounds ⟨hlength, htag, hwrap⟩
    exact not_inBounds_of_wrap ⟨hlength, htag⟩ m hwrap hbounds
  · intro hsafe
    by_cases hlength : siglen = (evSigBytes mode pk.par.depth).toNat
    · by_cases htag : readBigEndian (readBytes 4 sig 0) < pk.par.T
      · exact inBounds_of_no_wrap ⟨hlength, htag⟩ m
          (Nat.lt_of_not_le fun hwrap ↦ hsafe ⟨hlength, htag, hwrap⟩)
      · intro read hread
        have hfour := four_le_toNat_evSigBytes mode pk.par.depth
        unfold evVerifyReads at hread
        rw [if_neg (not_not.mpr hlength), if_pos (UInt32.not_lt.mp htag)] at hread
        obtain rfl := List.mem_singleton.mp hread
        exact hfour.trans hlength.ge
    · intro read hread
      unfold evVerifyReads at hread
      rw [if_pos hlength] at hread
      exact absurd hread List.not_mem_nil

/-! ### Agreement with the verifier on byte strings -/

/-- With the whole path in bounds the loop on memory is the loop on the blocks of the path. -/
theorem verifyLoop_pathBlocks {sig : List UInt8} {depth : ℕ} (hdepth : depth < 2 ^ 27)
    (hlength : sig.length = pathOffset mode + 32 * depth) {l : ℕ} (hl : l ≤ depth) (idx : ℕ)
    (cur : Block) :
    ∃ pairs, verifyLoop (evHashNode host) (pathBlocks mode sig) l idx cur =
      some
        ((verifyLoopReads host (fun i ↦ sig.getD i 0) (pathOffset mode) l idx cur).1, pairs) := by
  induction l generalizing idx cur with
  | zero => exact ⟨[], rfl⟩
  | succ l ih =>
    have hslot : pathSlot l = l := pathSlot_eq (by omega)
    have hoffset : siblingOffset l = 32 * l := by
      rw [siblingOffset_eq (by omega), Nat.mod_eq_of_lt (by omega)]
    have hcount : (sig.length - pathOffset mode) / 32 = depth := by omega
    have hsib : (pathBlocks mode sig)[pathSlot l]? =
        some (readBytes 32 (fun i ↦ sig.getD i 0) (pathOffset mode + siblingOffset l)) := by
      rw [hslot, hoffset, pathBlocks, hcount, List.getElem?_map, List.getElem?_range hl]
      rfl
    let sib : Block := readBytes 32 (fun i ↦ sig.getD i 0) (pathOffset mode + siblingOffset l)
    by_cases hodd : idx &&& 1 = 1
    · obtain ⟨pairs, hrest⟩ := ih (by omega) (idx >>> 1) (evHashNode host sib cur)
      refine ⟨(sib, cur) :: pairs, ?_⟩
      simp only [verifyLoop, verifyLoopReads, hsib, if_pos hodd, Option.bind_eq_bind,
        Option.bind_some, Option.pure_def]
      rw [hrest]
      rfl
    · obtain ⟨pairs, hrest⟩ := ih (by omega) (idx >>> 1) (evHashNode host cur sib)
      refine ⟨(cur, sib) :: pairs, ?_⟩
      simp only [verifyLoop, verifyLoopReads, hsib, if_neg hodd, Option.bind_eq_bind,
        Option.bind_some, Option.pure_def]
      rw [hrest]
      rfl

/-- The verifier of the tree then compares the root with what the loop on memory ends with. -/
theorem evMerkleVerify_pathBlocks {sig : List UInt8} {par : EvParams}
    (hdepth : par.depth.toNat < 2 ^ 27)
    (hlength : sig.length = pathOffset mode + 32 * par.depth.toNat) (root : Block) (p : UInt32)
    (dg : Block) :
    ∃ pairs, evMerkleVerify (evHashNode host) root par p dg (pathBlocks mode sig) =
      some (if (verifyLoopReads host (fun i ↦ sig.getD i 0) (pathOffset mode) par.depth.toNat
        p.toNat dg).1 = root then 1 else 0, pairs) := by
  obtain ⟨pairs, hloop⟩ := verifyLoop_pathBlocks host hdepth hlength le_rfl p.toNat dg
  refine ⟨pairs, ?_⟩
  rw [evMerkleVerify, hloop]
  rfl

theorem bytesAt_eq_readBytes {sig : List UInt8} {off size : ℕ} (h : off + size ≤ sig.length) :
    bytesAt sig off size = some (readBytes size (fun i ↦ sig.getD i 0) off) :=
  if_pos h

/-- As long as the reads stay in bounds, the verifier on memory returns what `evVerify` does. -/
theorem evVerifyReads_ret (pk : EvPk Block) (m sig : List UInt8)
    (hbounds : (evVerifyReads host vendored legacy pk m (fun i ↦ sig.getD i 0) sig.length).InBounds
      sig.length) :
    (evVerify host vendored legacy (fun _ ↦ true) pk m sig).map VerifyResult.ret =
      (evVerifyReads host vendored legacy pk m (fun i ↦ sig.getD i 0) sig.length).ret := by
  by_cases hlength : sig.length = (evSigBytes mode pk.par.depth).toNat
  · let mem : ℕ → UInt8 := fun i ↦ sig.getD i 0
    let p := readBigEndian (readBytes 4 mem 0)
    let t1 : PackedT1 mode := readBytes (t1Bytes mode) mem (4 + cryptoBytes mode)
    let dg := (bytePrimitives host vendored).hashLeaf t1
    have htag : bytesAt sig 0 4 = some (readBytes 4 mem 0) :=
      bytesAt_eq_readBytes ((four_le_toNat_evSigBytes mode pk.par.depth).trans hlength.ge)
    by_cases hT : pk.par.T ≤ p
    · rw [evVerify, if_neg (not_not.mpr hlength), htag, Option.bind_eq_bind, Option.bind_some,
        evVerifyFields, evVerifyReads, if_neg (not_not.mpr hlength), if_pos hT, if_pos hT]
      rfl
    · have hwrap : pathOffset mode + 32 * pk.par.depth.toNat < 2 ^ 32 :=
        Nat.lt_of_not_le fun hwrap ↦
          not_inBounds_of_wrap ⟨hlength, UInt32.not_le.mp hT⟩ m hwrap hbounds
      have hsize : sig.length = pathOffset mode + 32 * pk.par.depth.toNat := by
        rw [hlength, toNat_evSigBytes_wrapped, Nat.mod_eq_of_lt hwrap]
      have hoffset : pathOffset mode = 4 + cryptoBytes mode + t1Bytes mode := rfl
      have hfswa : fswaAt mode sig = some (readBytes (cryptoBytes mode) mem 4).toList := by
        rw [fswaAt, bytesAt_eq_readBytes (by omega), Option.map_some]
      have ht1 : bytesAt sig (4 + cryptoBytes mode) (t1Bytes mode) = some t1 :=
        bytesAt_eq_readBytes (by omega)
      obtain ⟨pairs, hfold⟩ := evMerkleVerify_pathBlocks host
        (show pk.par.depth.toNat < 2 ^ 27 by omega) hsize pk.root p dg
      let root := (verifyLoopReads host mem (pathOffset mode) pk.par.depth.toNat p.toNat dg).1
      have hopens : evMerkleVerify (bytePrimitives host vendored).evHashNode pk.root pk.par p dg
          (pathBlocks mode sig) = some (if root = pk.root then 1 else 0, pairs) := hfold
      rw [evVerify, if_neg (not_not.mpr hlength), htag, Option.bind_eq_bind, Option.bind_some,
        evVerifyFields, evVerifyReads, if_neg (not_not.mpr hlength), if_neg hT, if_neg hT, ht1,
        hfswa]
      simp only [evMerkleLeafdigest, if_true, Option.bind_eq_bind, Option.bind_some,
        Option.pure_def]
      rw [hopens]
      by_cases hroot : root = pk.root
      · simp only [if_pos hroot, Option.bind_some, one_ne_zero, if_false]
        refine Eq.trans ?_ (congrArg VerifyRun.ret (if_neg (not_not.mpr hroot)).symm)
        by_cases hlong : 2 ^ 64 ≤ 1 + 4 + m.length
        · rw [if_pos hlong, if_pos hlong]
          rfl
        · rw [if_neg hlong, if_neg hlong]
          rfl
      · simp only [if_neg hroot, Option.bind_some, if_true]
        refine Eq.trans ?_ (congrArg VerifyRun.ret (if_pos hroot).symm)
        rfl
  · rw [evVerify, if_pos hlength, evVerifyReads, if_pos hlength]
    rfl

end Memory

/-! ### A failing input -/

/-- A public key of one period with a depth `ev_verify` does not question: the length of its
signatures wraps to 24 bytes. -/
def wrappingPk : EvPk Block := ⟨⟨1, 2 ^ 27 - 115⟩, 0, 0⟩

/-- A signature of 24 zero bytes passes the length check and the tag check, and the leaf digest
reads 1280 bytes at offset 2424. -/
theorem evVerify_reads_counterexample :
    (2424, 1280) ∈ (evVerifyReads .little blankVendored true wrappingPk [] (fun _ ↦ 0) 24).reads ∧
      ¬ (evVerifyReads .little blankVendored true wrappingPk [] (fun _ ↦ 0) 24).InBounds 24 := by
  have hpast : PastChecks .two wrappingPk (fun _ ↦ 0) 24 := by
    constructor
    · rw [toNat_evSigBytes_wrapped]
      decide
    · decide
  constructor
  · obtain ⟨idx, cur, again, hreads, -⟩ :=
      exists_reads_of_pastChecks .little blankVendored true hpast []
    rw [hreads]
    exact List.mem_append_left _ (List.mem_append_left _ (List.mem_cons_of_mem _
      (List.mem_singleton.mpr rfl)))
  · apply not_inBounds_of_wrap hpast
    decide

end EvMlDsa
