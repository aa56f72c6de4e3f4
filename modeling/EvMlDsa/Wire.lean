import EvMlDsa.LeafKey

/-!
# The layout of a signature

`sigLayout` is the byte string `p(4) | FSwA-sig | t1 | path` of the header. Reading the fields of a
layout gives them back (`fields_sigLayout`), and every byte string of the length `ev_sig_bytes`
computes is the layout of the fields read from it (`eq_sigLayout_of_length`). Up to the maximal
depth that length does not wrap (`toNat_evSigBytes`), and `ev_verify` on a layout is `ev_verify` on
its fields (`evVerify_sigLayout`).
-/

set_option autoImplicit false
set_option relaxedAutoImplicit false

namespace EvMlDsa

open Library.FixedArray

/-! ### Reading bytes -/

theorem bytesAt_eq_some_iff {sig : List UInt8} {off size : ℕ} {v : Vector UInt8 size} :
    bytesAt sig off size = some v ↔
      off + size ≤ sig.length ∧ (sig.drop off).take size = v.toList := by
  have hread (hsize : off + size ≤ sig.length) :
      (Vector.ofFn fun i : Fin size ↦ sig.getD (off + i.val) 0).toList =
        (sig.drop off).take size := by
    refine List.ext_getElem (by simp; omega) fun k hk hk' ↦ ?_
    have hk'' : off + k < sig.length := by
      have : k < size := by simpa using hk
      omega
    rw [List.getElem_take, List.getElem_drop, Vector.getElem_toList, Vector.getElem_ofFn,
      List.getD_eq_getElem _ _ hk'']
  unfold bytesAt
  by_cases hsize : off + size ≤ sig.length
  · rw [if_pos hsize, Option.some.injEq, ← hread hsize, Vector.toList_inj]
    exact ⟨fun h ↦ ⟨hsize, h⟩, fun h ↦ h.2⟩
  · rw [if_neg hsize]
    exact ⟨fun h ↦ absurd h (by simp), fun h ↦ absurd h.1 hsize⟩

/-- Reading a region of a concatenation. -/
theorem bytesAt_append (before after : List UInt8) {off size : ℕ} (hoff : before.length = off)
    (v : Vector UInt8 size) : bytesAt (before ++ (v.toList ++ after)) off size = some v := by
  subst hoff
  refine bytesAt_eq_some_iff.mpr ⟨by simp, ?_⟩
  rw [List.drop_left]
  exact List.take_left' Vector.length_toList

/-! ### The layout -/

/-- The bytes of a signature with the given fields. -/
def sigLayout {mode : DilithiumMode} (tag : Vector UInt8 4) (fswa : List UInt8)
    (t1 : PackedT1 mode) (path : List Block) : List UInt8 :=
  tag.toList ++ (fswa ++ (t1.toList ++ path.flatMap (·.toList)))

theorem length_flatMap_toList (path : List Block) :
    (path.flatMap (·.toList)).length = 32 * path.length := by
  simp [List.length_flatMap, Nat.mul_comm]

theorem length_sigLayout {mode : DilithiumMode} (tag : Vector UInt8 4) {fswa : List UInt8}
    (hfswa : fswa.length = cryptoBytes mode) (t1 : PackedT1 mode) (path : List Block) :
    (sigLayout tag fswa t1 path).length = pathOffset mode + 32 * path.length := by
  simp only [sigLayout, List.length_append, Vector.length_toList, hfswa, length_flatMap_toList,
    pathOffset]
  omega

/-- The block at index `i` behind a prefix is block `i` of the list that was written there. -/
theorem getD_flatMap_toList (path : List Block) (i j : ℕ) (hj : j < 32) (fallback : Block) :
    (path.flatMap (·.toList)).getD (32 * i + j) 0 =
      if i < path.length then (path.getD i fallback).getD j 0 else 0 := by
  induction path generalizing i with
  | nil => simp
  | cons block path ih =>
    have hblock : block.toList.length = 32 := Vector.length_toList
    rw [List.flatMap_cons]
    cases i with
    | zero =>
      rw [List.getD_append _ _ _ _ (by omega), if_pos (by simp), List.getD_cons_zero, Nat.mul_zero,
        Nat.zero_add, getD_toList]
    | succ i =>
      rw [List.getD_append_right _ _ _ _ (by omega), hblock, List.getD_cons_succ,
        show 32 * (i + 1) + j - 32 = 32 * i + j by omega, ih i]
      simp only [List.length_cons, Nat.add_lt_add_iff_right]

/-- The fields of a layout, read back. -/
theorem fields_sigLayout {mode : DilithiumMode} (tag : Vector UInt8 4) {fswa : List UInt8}
    (hfswa : fswa.length = cryptoBytes mode) (t1 : PackedT1 mode) (path : List Block) :
    bytesAt (sigLayout tag fswa t1 path) 0 4 = some tag ∧
      fswaAt mode (sigLayout tag fswa t1 path) = some fswa ∧
      bytesAt (sigLayout tag fswa t1 path) (4 + cryptoBytes mode) (t1Bytes mode) = some t1 ∧
      pathBlocks mode (sigLayout tag fswa t1 path) = path := by
  refine ⟨bytesAt_append [] _ rfl tag, ?_, ?_, ?_⟩
  · let v : Vector UInt8 (cryptoBytes mode) := ⟨fswa.toArray, by simpa using hfswa⟩
    have hv : v.toList = fswa := rfl
    have hread := bytesAt_append tag.toList (t1.toList ++ path.flatMap (·.toList))
      Vector.length_toList v
    rw [hv] at hread
    rw [fswaAt, sigLayout, hread, Option.map_some, hv]
  · have hread := bytesAt_append (tag.toList ++ fswa) (path.flatMap (·.toList))
      (by simp [hfswa] : _ = 4 + cryptoBytes mode) t1
    rwa [List.append_assoc] at hread
  · have hlength := length_sigLayout tag hfswa t1 path
    have hcount : ((sigLayout tag fswa t1 path).length - pathOffset mode) / 32 = path.length := by
      omega
    have hfront : (tag.toList ++ (fswa ++ t1.toList)).length = pathOffset mode := by
      simp only [List.length_append, Vector.length_toList, hfswa, pathOffset]
      omega
    refine List.ext_getElem (by simp [pathBlocks, hcount]) fun i hi hi' ↦ ?_
    refine Vector.ext fun j hj ↦ ?_
    have hsig : sigLayout tag fswa t1 path =
        (tag.toList ++ (fswa ++ t1.toList)) ++ path.flatMap (·.toList) := by
      simp only [sigLayout, List.append_assoc]
    have hbyte := getD_flatMap_toList path i j hj path[i]
    rw [if_pos hi', List.getD_eq_getElem _ _ hi', getD_eq_getElem _ _ hj] at hbyte
    simp only [pathBlocks, List.getElem_map, List.getElem_range, Vector.getElem_ofFn]
    rw [hsig, List.getD_append_right _ _ _ _ (by omega), hfront,
      show pathOffset mode + 32 * i + j - pathOffset mode = 32 * i + j by omega, hbyte]

/-- The bytes behind the packed `t1`, cut into blocks. -/
theorem flatMap_pathBlocks {mode : DilithiumMode} {sig : List UInt8} {count : ℕ}
    (hlength : sig.length = pathOffset mode + 32 * count) :
    (pathBlocks mode sig).flatMap (·.toList) = sig.drop (pathOffset mode) := by
  have hcount : (sig.length - pathOffset mode) / 32 = count := by omega
  have hblocks : (pathBlocks mode sig).length = count := by simp [pathBlocks, hcount]
  refine List.ext_getElem (by rw [length_flatMap_toList, hblocks, List.length_drop]; omega)
    fun k hk hk' ↦ ?_
  have hk'' : k / 32 < (pathBlocks mode sig).length := by
    rw [length_flatMap_toList] at hk
    omega
  have hsplit : 32 * (k / 32) + k % 32 = k := Nat.div_add_mod k 32
  have hbyte := getD_flatMap_toList (pathBlocks mode sig) (k / 32) (k % 32)
    (Nat.mod_lt _ (by decide)) (pathBlocks mode sig)[k / 32]
  rw [if_pos hk'', hsplit, List.getD_eq_getElem _ _ hk, List.getD_eq_getElem _ _ hk'',
    getD_eq_getElem _ _ (Nat.mod_lt _ (by decide))] at hbyte
  rw [hbyte, List.getElem_drop]
  rw [List.length_drop] at hk'
  simp only [pathBlocks, List.getElem_map, List.getElem_range, Vector.getElem_ofFn]
  rw [add_assoc, hsplit, List.getD_eq_getElem _ _ (by omega)]

/-- A byte string with a whole number of path blocks is the layout of some fields. -/
theorem eq_sigLayout_of_length {mode : DilithiumMode} {sig : List UInt8} {count : ℕ}
    (hlength : sig.length = pathOffset mode + 32 * count) :
    ∃ tag fswa, ∃ t1 : PackedT1 mode, ∃ path : List Block,
      fswa.length = cryptoBytes mode ∧ path.length = count ∧
        sig = sigLayout tag fswa t1 path := by
  have hoffset : pathOffset mode = 4 + (cryptoBytes mode + t1Bytes mode) := by
    unfold pathOffset
    omega
  have hcount : (sig.length - pathOffset mode) / 32 = count := by omega
  refine ⟨⟨(sig.take 4).toArray, by simp; omega⟩, (sig.drop 4).take (cryptoBytes mode),
    ⟨((sig.drop (4 + cryptoBytes mode)).take (t1Bytes mode)).toArray, by simp; omega⟩,
    pathBlocks mode sig, by simp; omega, by simp [pathBlocks, hcount], ?_⟩
  simp only [sigLayout, Vector.toList_mk, flatMap_pathBlocks hlength]
  have hpath : sig.drop (pathOffset mode) =
      (sig.drop (4 + cryptoBytes mode)).drop (t1Bytes mode) := by
    rw [List.drop_drop, pathOffset]
  have ht1 : sig.drop (4 + cryptoBytes mode) = (sig.drop 4).drop (cryptoBytes mode) := by
    rw [List.drop_drop]
  rw [hpath, List.take_append_drop, ht1, List.take_append_drop, List.take_append_drop]

/-- Up to the maximal depth the length does not wrap. -/
theorem toNat_evSigBytes (mode : DilithiumMode) {depth : ℕ} (hdepth : depth ≤ evMaxDepth) :
    (evSigBytes mode (EvParams.ofDepth depth).depth).toNat = pathOffset mode + 32 * depth := by
  have hD := toNat_ofDepth_depth hdepth
  have hbound : depth ≤ 20 := hdepth
  have hfixed : 4 + cryptoBytes mode + t1Bytes mode < 2 ^ 14 := by
    cases mode <;> decide
  rw [evSigBytes, UInt32.toNat_add, UInt32.toNat_mul, hD,
    UInt32.toNat_ofNat_of_lt' (show _ < 4294967296 by omega)]
  simp only [evHashBytes, UInt32.reduceOfNat, UInt32.reduceToNat, pathOffset]
  omega

/-- Verification of a layout is verification of its fields. -/
theorem evVerify_sigLayout (host : ByteOrder) {mode : DilithiumMode} {Rnd : Type}
    (vendored : Vendored mode Rnd) (legacy : Bool) (alloc : ℕ → Bool) {pk : EvPk Block} {depth : ℕ}
    (hdepth : depth ≤ evMaxDepth) (hpar : pk.par = .ofDepth depth) (m : List UInt8)
    (tag : Vector UInt8 4) {fswa : List UInt8} (hfswa : fswa.length = cryptoBytes mode)
    (t1 : PackedT1 mode) {path : List Block} (hpath : path.length = depth) :
    evVerify host vendored legacy alloc pk m (sigLayout tag fswa t1 path) =
      evVerifyFields (bytePrimitives host vendored) legacy alloc pk m tag (some fswa) (some t1)
        path := by
  obtain ⟨htag, hread, ht1, hblocks⟩ := fields_sigLayout tag hfswa t1 path
  have hlength : (sigLayout tag fswa t1 path).length = (evSigBytes mode pk.par.depth).toNat := by
    rw [length_sigLayout tag hfswa, hpath, hpar, toNat_evSigBytes mode hdepth]
  rw [evVerify, if_neg (not_not.mpr hlength), htag, hread, ht1, hblocks, Option.bind_eq_bind,
    Option.bind_some]

end EvMlDsa
