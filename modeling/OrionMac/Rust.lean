import Mathlib.Data.Vector.Basic
import Mathlib.Tactic.Ring

/-!
# Rust as a debug build runs it

The source is modelled as a debug build executes it. Integer overflow on `+`, `*` and `-`
panics, as do an index past the end of an array and `unwrap` on an `Err`; a computation
that may panic returns `Except Panic`. Wrapping operations, `as` casts and shifts by a
constant are total, as in Rust.

Integers are `Nat`s. A `u32` (`u64`) is a number below `2 ^ 32` (`2 ^ 64`): the checked
operations, masks and casts below keep every result in its range.
-/

namespace OrionMac

/-- Why a debug build panics. -/
inductive Panic
  /-- `attempt to add with overflow`, and the same for `*` and `-`. -/
  | overflow
  /-- `index out of bounds`, and a slice past the end of an array. -/
  | outOfBounds
  /-- `called Result::unwrap() on an Err value`. -/
  | unwrapErr
  deriving DecidableEq, Repr

@[simp] theorem ok_bind (a : α) (f : α → Except ε β) : (Except.ok a >>= f) = f a := rfl

@[simp] theorem pure_eq_ok (a : α) : (pure a : Except ε α) = .ok a := rfl

theorem bind_eq_ok {x : Except ε α} {f : α → Except ε β} {b : β} :
    x >>= f = .ok b ↔ ∃ a, x = .ok a ∧ f a = .ok b := by
  cases x <;> simp [bind, Except.bind]

-- ---------------------------------------------------------------------------
-- Integer arithmetic
-- ---------------------------------------------------------------------------

/-- A result that must fit in `w` bits, or the overflow panic. -/
def checked (w v : Nat) : Except Panic Nat := if v < 2 ^ w then .ok v else .error .overflow

def add32 (a b : Nat) : Except Panic Nat := checked 32 (a + b)
def mul32 (a b : Nat) : Except Panic Nat := checked 32 (a * b)
def add64 (a b : Nat) : Except Panic Nat := checked 64 (a + b)
def mul64 (a b : Nat) : Except Panic Nat := checked 64 (a * b)

/-- `usize` subtraction, which panics below zero. -/
def checkedSub (a b : Nat) : Except Panic Nat := if b ≤ a then .ok (a - b) else .error .overflow

def wrappingAdd32 (a b : Nat) : Nat := (a + b) % 2 ^ 32
def wrappingSub32 (a b : Nat) : Nat := (a + (2 ^ 32 - b)) % 2 ^ 32

/-- `x as u32` for a `u64`: the low 32 bits. -/
def asU32 (x : Nat) : Nat := x % 2 ^ 32

/-- `x << k` on a `u32`: the bits shifted past bit 31 are lost. -/
def shl32 (x k : Nat) : Nat := (x <<< k) % 2 ^ 32

/-- `!x` on a `u32`. -/
def not32 (x : Nat) : Nat := 2 ^ 32 - 1 - x

theorem checked_of_lt {w v : Nat} (h : v < 2 ^ w) : checked w v = .ok v := if_pos h

theorem checked_eq_ok {w v x : Nat} : checked w v = .ok x ↔ v < 2 ^ w ∧ v = x := by
  unfold checked; split <;> simp [*]

theorem checkedSub_of_le {a b : Nat} (h : b ≤ a) : checkedSub a b = .ok (a - b) := if_pos h

-- ---------------------------------------------------------------------------
-- Results and arrays
-- ---------------------------------------------------------------------------

/-- `Result::unwrap`: the value, or the panic on `Err`. -/
def unwrap : Except ε α → Except Panic α
  | .ok a => .ok a
  | .error _ => .error .unwrapErr

@[simp] theorem unwrap_ok (a : α) : unwrap (.ok a : Except ε α) = .ok a := rfl

/-- `buf[i]` on a fixed-size array, which panics when `i` is out of bounds. -/
def getAt (buf : Mathlib.Vector α n) (i : Nat) : Except Panic α :=
  if h : i < n then .ok (buf.get ⟨i, h⟩) else .error .outOfBounds

theorem getAt_of_lt {buf : Mathlib.Vector α n} (h : i < n) : getAt buf i = .ok (buf.get ⟨i, h⟩) :=
  dif_pos h

/-- `buf[i] = x` on a fixed-size array, which panics when `i` is out of bounds. -/
def setAt (buf : Mathlib.Vector α n) (i : Nat) (x : α) : Except Panic (Mathlib.Vector α n) :=
  if h : i < n then .ok (buf.set ⟨i, h⟩ x) else .error .outOfBounds

theorem setAt_of_lt {buf : Mathlib.Vector α n} {x : α} (h : i < n) :
    setAt buf i x = .ok (buf.set ⟨i, h⟩ x) := dif_pos h

/-- `buf[..bytes.len()].copy_from_slice(bytes)`, which panics when `bytes` is longer than
`buf`. -/
def copyPrefix (buf : Mathlib.Vector α n) (bytes : List α) : Except Panic (Mathlib.Vector α n) :=
  if h : bytes.length ≤ n then
    .ok ⟨bytes ++ buf.toList.drop bytes.length, by simp; omega⟩
  else .error .outOfBounds

theorem copyPrefix_of_le {buf : Mathlib.Vector α n} {bytes : List α} (h : bytes.length ≤ n) :
    copyPrefix buf bytes = .ok ⟨bytes ++ buf.toList.drop bytes.length, by simp; omega⟩ :=
  dif_pos h

/-- `&bytes[i..j]`; the model only takes ranges inside the array it slices. -/
def slice (bytes : List α) (i j : Nat) : List α := (bytes.drop i).take (j - i)

-- ---------------------------------------------------------------------------
-- Two computations side by side
-- ---------------------------------------------------------------------------

/-- Two computations that fail alike, with the same error, or both return, with results
related by `R`. -/
def Lift (R : α → β → Prop) : Except ε α → Except ε β → Prop
  | .ok a, .ok b => R a b
  | .error e, .error e' => e = e'
  | _, _ => False

section
variable {R : α → β → Prop} {S : γ → δ → Prop}

theorem Lift.refl {R : α → α → Prop} (hR : ∀ a, R a a) : ∀ x : Except ε α, Lift R x x
  | .ok a => hR a
  | .error _ => rfl

theorem Lift.imp {x : Except ε α} {y : Except ε β} (h : Lift R x y) {R' : α → β → Prop}
    (hR : ∀ a b, R a b → R' a b) : Lift R' x y := by
  cases x <;> cases y <;> first | exact hR _ _ h | exact h

theorem Lift.bind {x : Except ε α} {y : Except ε β} (h : Lift R x y)
    {f : α → Except ε γ} {g : β → Except ε δ} (hfg : ∀ a b, R a b → Lift S (f a) (g b)) :
    Lift S (x >>= f) (y >>= g) := by
  cases x <;> cases y <;> first | exact hfg _ _ h | exact h | exact (h : False).elim

theorem Lift.bind_ok {x : Except ε α} {y : Except ε β} (h : Lift R x y)
    {f : α → Except ε γ} {g : β → Except ε δ}
    (hfg : ∀ a b, R a b → y = .ok b → Lift S (f a) (g b)) : Lift S (x >>= f) (y >>= g) := by
  cases x <;> cases y <;> first | exact hfg _ _ h rfl | exact h | exact (h : False).elim

theorem Lift.bind_same_of (x : Except ε α) {f : α → Except ε γ} {g : α → Except ε δ}
    (hfg : ∀ a, x = .ok a → Lift S (f a) (g a)) : Lift S (x >>= f) (x >>= g) := by
  cases x with
  | ok a => exact hfg a rfl
  | error _ => rfl

theorem Lift.bind_same (x : Except ε α) {f : α → Except ε γ} {g : α → Except ε δ}
    (hfg : ∀ a, Lift S (f a) (g a)) : Lift S (x >>= f) (x >>= g) :=
  Lift.bind_same_of x fun a _ => hfg a

theorem Lift.symm {x : Except ε α} {y : Except ε β} (h : Lift R x y) :
    Lift (fun b a => R a b) y x := by
  cases x <;> cases y <;> first | exact h | exact Eq.symm h

theorem Lift.map {x : Except ε α} {y : Except ε β} (h : Lift R x y) {f : α → γ} {g : β → δ}
    (hfg : ∀ a b, R a b → S (f a) (g b)) : Lift S (x.map f) (y.map g) := by
  cases x <;> cases y <;> first | exact hfg _ _ h | exact h

theorem Lift.unwrap {x : Except ε α} {y : Except ε β} (h : Lift R x y) :
    Lift R (unwrap x) (unwrap y) := by
  cases x <;> cases y <;> first | exact h | rfl

theorem Lift.trans {x : Except ε α} {y : Except ε β} {z : Except ε γ} (h₁ : Lift R x y)
    {R' : β → γ → Prop} (h₂ : Lift R' y z) {T : α → γ → Prop}
    (hT : ∀ a b c, R a b → R' b c → T a c) : Lift T x z := by
  cases x <;> cases y <;> cases z <;> first
    | exact hT _ _ _ h₁ h₂ | exact Eq.trans h₁ h₂ | exact (h₁ : False).elim
    | exact (h₂ : False).elim

end

-- ---------------------------------------------------------------------------
-- Little-endian bytes
-- ---------------------------------------------------------------------------

/-- Modelled from the spec: the `byteorder` crate is not under src/. The number a byte string
encodes, least significant byte first. -/
def littleEndian : List UInt8 → Nat
  | [] => 0
  | b :: bs => b.toNat + 2 ^ 8 * littleEndian bs

/-- Modelled from the spec: `LittleEndian::read_u32` of a four-byte slice. -/
def readU32 (bytes : List UInt8) : Nat := littleEndian (bytes.take 4)

/-- Modelled from the spec: the four bytes of a `u32`, least significant first. -/
def u32Bytes (w : Nat) : List UInt8 :=
  [UInt8.ofNat w, UInt8.ofNat (w >>> 8), UInt8.ofNat (w >>> 16), UInt8.ofNat (w >>> 24)]

/-- Modelled from the spec: `LittleEndian::write_u32_into`, the words one after the other, each
little-endian. -/
def writeU32Into (words : List Nat) : List UInt8 := words.flatMap u32Bytes

@[simp] theorem uint8_toNat_ofNat (n : Nat) : (UInt8.ofNat n).toNat = n % 2 ^ 8 :=
  BitVec.toNat_ofNat n 8

@[simp] theorem uint32_toNat_ofNat (n : Nat) : (UInt32.ofNat n).toNat = n % 2 ^ 32 :=
  BitVec.toNat_ofNat n 32

theorem uint8_toNat_lt (b : UInt8) : b.toNat < 2 ^ 8 := b.toNat_lt_size

theorem uint32_toNat_lt (w : UInt32) : w.toNat < 2 ^ 32 := w.toNat_lt_size

@[simp] theorem littleEndian_nil : littleEndian [] = 0 := rfl

@[simp] theorem littleEndian_cons (b : UInt8) (bs : List UInt8) :
    littleEndian (b :: bs) = b.toNat + 2 ^ 8 * littleEndian bs := rfl

theorem littleEndian_append (xs ys : List UInt8) :
    littleEndian (xs ++ ys) = littleEndian xs + 2 ^ (8 * xs.length) * littleEndian ys := by
  induction xs with
  | nil => simp
  | cons x xs ih => simp only [List.cons_append, littleEndian_cons, ih, List.length_cons]; ring

theorem two_pow_eight_mul_succ (n : Nat) : 2 ^ (8 * (n + 1)) = 2 ^ 8 * 2 ^ (8 * n) := by
  rw [Nat.mul_add_one, Nat.pow_add, Nat.mul_comm]

theorem littleEndian_lt (bs : List UInt8) : littleEndian bs < 2 ^ (8 * bs.length) := by
  induction bs with
  | nil => simp
  | cons b bs ih =>
    have hb := uint8_toNat_lt b
    have : 2 ^ 8 * (littleEndian bs + 1) ≤ 2 ^ 8 * 2 ^ (8 * bs.length) :=
      Nat.mul_le_mul_left _ ih
    rw [littleEndian_cons, List.length_cons, two_pow_eight_mul_succ]
    omega

theorem littleEndian_take (bs : List UInt8) (n : Nat) :
    littleEndian (bs.take n) = littleEndian bs % 2 ^ (8 * n) := by
  induction bs generalizing n with
  | nil => simp
  | cons b bs ih =>
    cases n with
    | zero => simp [Nat.mod_one]
    | succ n =>
      have hb := uint8_toNat_lt b
      rw [List.take_succ_cons, littleEndian_cons, littleEndian_cons, ih, two_pow_eight_mul_succ,
        Nat.mod_mul, Nat.add_mul_div_left _ _ (by norm_num), Nat.add_mul_mod_self_left,
        Nat.div_eq_of_lt hb, Nat.mod_eq_of_lt hb, Nat.zero_add]

theorem littleEndian_drop (bs : List UInt8) (n : Nat) :
    littleEndian (bs.drop n) = littleEndian bs / 2 ^ (8 * n) := by
  induction bs generalizing n with
  | nil => simp
  | cons b bs ih =>
    cases n with
    | zero => simp
    | succ n =>
      have hb := uint8_toNat_lt b
      rw [List.drop_succ_cons, ih, littleEndian_cons, two_pow_eight_mul_succ,
        ← Nat.div_div_eq_div_mul, Nat.add_mul_div_left _ _ (by norm_num), Nat.div_eq_of_lt hb,
        Nat.zero_add]

theorem littleEndian_slice (bs : List UInt8) (i j : Nat) :
    littleEndian (slice bs i j) = littleEndian bs / 2 ^ (8 * i) % 2 ^ (8 * (j - i)) := by
  rw [slice, littleEndian_take, littleEndian_drop]

theorem littleEndian_u32Bytes {w : Nat} (h : w < 2 ^ 32) : littleEndian (u32Bytes w) = w := by
  simp only [u32Bytes, littleEndian_cons, littleEndian_nil, uint8_toNat_ofNat,
    Nat.shiftRight_eq_div_pow]
  omega

theorem length_writeU32Into (words : List Nat) : (writeU32Into words).length = 4 * words.length := by
  induction words with
  | nil => rfl
  | cons w ws ih => simp [writeU32Into, u32Bytes] at ih ⊢; omega

end OrionMac
