import Mathlib.Tactic

/-!
# Sponges byte by byte

A sponge absorbs and squeezes one byte after the other at a place of its block, and permutes its
state at the end of the block. In this form it does not matter how input and output are cut into
pieces: what was absorbed is a list (`absorb_append`), and what is squeezed is a `stream`, of which
a state knows how many bytes it has delivered (`squeezed`). Loops over blocks are compared with it
by what they do within a block (`absorb_within`, `absorb_fill`, `refill_squeezed`,
`squeezed_within`).
-/

set_option autoImplicit false
set_option relaxedAutoImplicit false

namespace Library.Sponge

/-- A permutation of a state with a block of places for bytes. -/
structure Ops (State Byte : Type*) where
  permute : State → State
  /-- adds a byte at a place of the block -/
  add : State → ℕ → Byte → State
  /-- the byte at a place of the block -/
  byteAt : State → ℕ → Byte

variable {State Byte : Type*} (ops : Ops State Byte) (rate : ℕ)

/-! ### Absorbing -/

/-- Absorbs a byte: the state and the next place of the block. -/
def absorbByte (x : State × ℕ) (b : Byte) : State × ℕ :=
  let s := ops.add x.1 x.2 b
  if x.2 + 1 = rate then (ops.permute s, 0) else (s, x.2 + 1)

/-- Absorbs a list of bytes. -/
def absorb (x : State × ℕ) (bytes : List Byte) : State × ℕ := bytes.foldl (absorbByte ops rate) x

/-- Adds bytes from a place of the block on. -/
def addBytes (s : State) : (pos : ℕ) → List Byte → State
  | _, [] => s
  | pos, b :: bytes => addBytes (ops.add s pos b) (pos + 1) bytes

theorem absorb_append (x : State × ℕ) (first second : List Byte) :
    absorb ops rate x (first ++ second) = absorb ops rate (absorb ops rate x first) second :=
  List.foldl_append

variable {rate}

/-- Bytes that do not fill the block. -/
theorem absorb_within (s : State) {pos : ℕ} {bytes : List Byte}
    (hfits : pos + bytes.length < rate) :
    absorb ops rate (s, pos) bytes = (addBytes ops s pos bytes, pos + bytes.length) := by
  induction bytes generalizing s pos with
  | nil => rfl
  | cons b bytes ih =>
    rw [List.length_cons] at hfits
    have hstep : absorbByte ops rate (s, pos) b = (ops.add s pos b, pos + 1) := if_neg (by omega)
    rw [absorb, List.foldl_cons, hstep]
    refine (ih _ (by omega)).trans ?_
    rw [addBytes, List.length_cons, Nat.add_assoc, Nat.add_comm 1]

/-- Bytes that fill the block. -/
theorem absorb_fill (s : State) {pos : ℕ} (hpos : pos < rate) {bytes : List Byte}
    (hfill : pos + bytes.length = rate) :
    absorb ops rate (s, pos) bytes = (ops.permute (addBytes ops s pos bytes), 0) := by
  induction bytes generalizing s pos with
  | nil =>
    rw [List.length_nil] at hfill
    omega
  | cons b bytes ih =>
    rw [List.length_cons] at hfill
    rw [absorb, List.foldl_cons, addBytes]
    by_cases hlast : pos + 1 = rate
    · have hstep : absorbByte ops rate (s, pos) b = (ops.permute (ops.add s pos b), 0) :=
        if_pos hlast
      obtain rfl : bytes = [] := List.eq_nil_of_length_eq_zero (by omega)
      rw [hstep]
      rfl
    · have hstep : absorbByte ops rate (s, pos) b = (ops.add s pos b, pos + 1) := if_neg hlast
      rw [hstep]
      exact ih _ (by omega) (by omega)

/-- The next place stays within the block. -/
theorem absorb_pos_lt (hrate : 0 < rate) {x : State × ℕ} (hx : x.2 < rate) (bytes : List Byte) :
    (absorb ops rate x bytes).2 < rate := by
  induction bytes generalizing x with
  | nil => exact hx
  | cons b bytes ih =>
    rw [absorb, List.foldl_cons]
    apply ih
    rw [absorbByte]
    split_ifs with hlast
    · exact hrate
    · show x.2 + 1 < rate
      omega

variable (rate)

/-- The state after a number of blocks of a message. -/
def absorbBlocks (s : State) (count : ℕ) (bytes : List Byte) : State :=
  (List.range count).foldl
    (fun s i ↦ ops.permute (addBytes ops s 0 ((bytes.drop (rate * i)).take rate))) s

variable {rate}

/-- A message is absorbed as its full blocks and a rest. -/
theorem absorb_eq_blocks (hrate : 0 < rate) (s : State) (bytes : List Byte) :
    absorb ops rate (s, 0) bytes =
      (addBytes ops (absorbBlocks ops rate s (bytes.length / rate) bytes) 0
        (bytes.drop (rate * (bytes.length / rate))), bytes.length % rate) := by
  have hfront : ∀ count, rate * count ≤ bytes.length →
      absorb ops rate (s, 0) (bytes.take (rate * count)) =
        (absorbBlocks ops rate s count bytes, 0) := by
    intro count hcount
    induction count with
    | zero => rfl
    | succ count ih =>
      rw [Nat.mul_succ] at hcount ⊢
      have hblock : ((bytes.drop (rate * count)).take rate).length = rate := by
        rw [List.length_take, List.length_drop]
        omega
      rw [List.take_add, absorb_append, ih (by omega), absorb_fill ops _ hrate (by omega),
        absorbBlocks, absorbBlocks, List.range_succ, List.foldl_append, List.foldl_cons,
        List.foldl_nil]
  have hdiv := Nat.div_add_mod bytes.length rate
  have hmod := Nat.mod_lt bytes.length hrate
  have hrest : (bytes.drop (rate * (bytes.length / rate))).length = bytes.length % rate := by
    rw [List.length_drop]
    omega
  conv_lhs => rw [← List.take_append_drop (rate * (bytes.length / rate)) bytes]
  rw [absorb_append, hfront _ (by omega), absorb_within ops _ (by omega), hrest, Nat.zero_add]

/-! ### Squeezing -/

variable (rate)

/-- Byte `n` of the output that begins with the next permutation of a state. -/
def stream (s : State) (n : ℕ) : Byte := ops.byteAt (ops.permute^[n / rate + 1] s) (n % rate)

/-- The state and the place behind the last byte after `n` bytes of output. -/
def squeezed (s : State) (n : ℕ) : State × ℕ :=
  if n = 0 then (s, rate) else (ops.permute^[(n - 1) / rate + 1] s, (n - 1) % rate + 1)

/-- Permutes at the end of the block. -/
def refill (x : State × ℕ) : State × ℕ := if x.2 = rate then (ops.permute x.1, 0) else x

variable {rate}

/-- In front of byte `n` the state is the one that byte comes from. -/
theorem refill_squeezed (hrate : 0 < rate) (s : State) (n : ℕ) :
    refill ops rate (squeezed ops rate s n) = (ops.permute^[n / rate + 1] s, n % rate) := by
  rcases n with _ | n
  · rw [squeezed, if_pos rfl, refill, if_pos rfl, Nat.zero_div, Nat.zero_mod]
    rfl
  · have hdiv := Nat.div_add_mod n rate
    have hmod := Nat.mod_lt n hrate
    rw [squeezed, if_neg (Nat.succ_ne_zero n), Nat.add_sub_cancel, refill]
    by_cases hend : n % rate + 1 = rate
    · obtain ⟨hquotient, hrest⟩ : (n + 1) / rate = n / rate + 1 ∧ (n + 1) % rate = 0 :=
        (Nat.div_mod_unique hrate).mpr ⟨by rw [Nat.mul_succ]; omega, hrate⟩
      rw [if_pos hend, hquotient, hrest, Function.iterate_succ_apply' ops.permute (n / rate + 1)]
    · obtain ⟨hquotient, hrest⟩ : (n + 1) / rate = n / rate ∧ (n + 1) % rate = n % rate + 1 :=
        (Nat.div_mod_unique hrate).mpr ⟨by omega, by omega⟩
      rw [if_neg hend, hquotient, hrest]

/-- Within the block the output goes on in the same state. -/
theorem stream_within (s : State) {n j : ℕ} (hfits : n % rate + j < rate) :
    stream ops rate s (n + j) = ops.byteAt (ops.permute^[n / rate + 1] s) (n % rate + j) := by
  have hdiv := Nat.div_add_mod n rate
  obtain ⟨hquotient, hrest⟩ : (n + j) / rate = n / rate ∧ (n + j) % rate = n % rate + j :=
    (Nat.div_mod_unique (by omega)).mpr ⟨by omega, hfits⟩
  rw [stream, hquotient, hrest]

/-- Behind `count` bytes of the block. -/
theorem squeezed_within (s : State) {n count : ℕ} (hpos : 0 < count)
    (hfits : n % rate + count ≤ rate) :
    squeezed ops rate s (n + count) = (ops.permute^[n / rate + 1] s, n % rate + count) := by
  have hdiv := Nat.div_add_mod n rate
  obtain ⟨hquotient, hrest⟩ : (n + count - 1) / rate = n / rate ∧
      (n + count - 1) % rate = n % rate + count - 1 :=
    (Nat.div_mod_unique (by omega)).mpr ⟨by omega, by omega⟩
  rw [squeezed, if_neg (by omega), hquotient, hrest, Nat.sub_add_cancel (by omega)]

/-- At the end of a block. -/
theorem squeezed_blocks (hrate : 0 < rate) (s : State) (count : ℕ) :
    squeezed ops rate s (rate * count) = (ops.permute^[count] s, rate) := by
  rcases count with _ | count
  · rfl
  · have hwithin := squeezed_within ops s hrate
      (by rw [Nat.mul_mod_right]; omega : rate * count % rate + rate ≤ rate)
    rw [Nat.mul_div_cancel_left count hrate, Nat.mul_mod_right, Nat.zero_add] at hwithin
    rw [Nat.mul_succ, hwithin]

end Library.Sponge
