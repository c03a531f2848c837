import OrionMac.Poly1305.Spec
import OrionMac.Bits
import Mathlib.Data.Nat.ModEq
import Mathlib.Tactic.GCongr

/-!
# `process_block` and `initialize` compute in ℕ, modulo `2 ^ 130 - 5`

Each section of `process_block` is shown twice over: its checked `u32`/`u64` code never
overflows and computes what the same formulas compute over ℕ (`addMessage_eq`, `mulR_eq`,
`partialReduce_eq`), and those formulas do the arithmetic of the RFC modulo `p`
(`msgLimbs_value`, `mulRNat_modEq`, `partialReduceNat_modEq`). The bounds that make the first
hold are the ones the second keeps (`AccBound`, `RBound`); `initializeKey` gives an `r`
within them whose value is the clamped key (`value_r_initializeKey`).
-/

namespace OrionMac.Poly1305

/-- The number limbs stand for, in radix `2 ^ 26`. -/
def Limbs.value (x : Limbs Nat) : Nat :=
  x.l0 + 2 ^ 26 * x.l1 + 2 ^ 52 * x.l2 + 2 ^ 78 * x.l3 + 2 ^ 104 * x.l4

def Limbs.add (x y : Limbs Nat) : Limbs Nat :=
  ⟨x.l0 + y.l0, x.l1 + y.l1, x.l2 + y.l2, x.l3 + y.l3, x.l4 + y.l4⟩

/-- The bound on the accumulator `process_block` keeps: limbs below `2 ^ 26`, except `a1`,
which may hold the carry out of `a0` on top. -/
structure AccBound (a : Limbs Nat) : Prop where
  l0 : a.l0 < 2 ^ 26
  l1 : a.l1 < 2 ^ 26 + 2 ^ 6
  l2 : a.l2 < 2 ^ 26
  l3 : a.l3 < 2 ^ 26
  l4 : a.l4 < 2 ^ 26

/-- The bound clamping puts on `r`. -/
structure RBound (r : Limbs Nat) : Prop where
  l0 : r.l0 < 2 ^ 26
  l1 : r.l1 < 2 ^ 26
  l2 : r.l2 < 2 ^ 26
  l3 : r.l3 < 2 ^ 26
  l4 : r.l4 < 2 ^ 20

instance (a : Limbs Nat) : Decidable (AccBound a) :=
  decidable_of_iff (a.l0 < 2 ^ 26 ∧ a.l1 < 2 ^ 26 + 2 ^ 6 ∧ a.l2 < 2 ^ 26 ∧ a.l3 < 2 ^ 26 ∧
    a.l4 < 2 ^ 26) ⟨fun ⟨h0, h1, h2, h3, h4⟩ => ⟨h0, h1, h2, h3, h4⟩,
      fun ⟨h0, h1, h2, h3, h4⟩ => ⟨h0, h1, h2, h3, h4⟩⟩

@[simp] theorem Limbs.toNat_l0 (x : Limbs UInt32) : x.toNat.l0 = x.l0.toNat := rfl
@[simp] theorem Limbs.toNat_l1 (x : Limbs UInt32) : x.toNat.l1 = x.l1.toNat := rfl
@[simp] theorem Limbs.toNat_l2 (x : Limbs UInt32) : x.toNat.l2 = x.l2.toNat := rfl
@[simp] theorem Limbs.toNat_l3 (x : Limbs UInt32) : x.toNat.l3 = x.l3.toNat := rfl
@[simp] theorem Limbs.toNat_l4 (x : Limbs UInt32) : x.toNat.l4 = x.l4.toNat := rfl

theorem Limbs.toNat_ofNat {x : Limbs Nat} (h0 : x.l0 < 2 ^ 32) (h1 : x.l1 < 2 ^ 32)
    (h2 : x.l2 < 2 ^ 32) (h3 : x.l3 < 2 ^ 32) (h4 : x.l4 < 2 ^ 32) :
    (Limbs.ofNat x).toNat = x := by
  simp only [Limbs.ofNat, Limbs.toNat, Limbs.map, uint32_toNat_ofNat, Nat.mod_eq_of_lt, *]

theorem AccBound.toNat_ofNat {a : Limbs Nat} (h : AccBound a) : (Limbs.ofNat a).toNat = a :=
  Limbs.toNat_ofNat (by have := h.l0; omega) (by have := h.l1; omega) (by have := h.l2; omega)
    (by have := h.l3; omega) (by have := h.l4; omega)

-- ---------------------------------------------------------------------------
-- h += m[i]
-- ---------------------------------------------------------------------------

theorem readU32_slice (bs : List UInt8) (i j : Nat) (h : j = i + 4) :
    readU32 (slice bs i j) = littleEndian bs / 2 ^ (8 * i) % 2 ^ 32 := by
  rw [readU32, slice, h, Nat.add_sub_cancel_left, List.take_take, min_self, littleEndian_take,
    littleEndian_drop]

def HiBit (hibit : Nat) : Prop := hibit = 0 ∨ hibit = 2 ^ 24

theorem lor_hibit {x hibit : Nat} (hx : x < 2 ^ 24) (hh : HiBit hibit) : x ||| hibit = x + hibit := by
  rcases hh with rfl | rfl
  · simp
  · simpa using lor_two_pow_mul 1 hx

theorem msgLimbs_eq {data : List UInt8} (hd : data.length = 16) {hibit : Nat} (hh : HiBit hibit) :
    msgLimbs data hibit =
      ⟨littleEndian data % 2 ^ 26, littleEndian data / 2 ^ 26 % 2 ^ 26,
        littleEndian data / 2 ^ 52 % 2 ^ 26, littleEndian data / 2 ^ 78 % 2 ^ 26,
        littleEndian data / 2 ^ 104 + hibit⟩ := by
  have hx : littleEndian data < 2 ^ 128 := by simpa [hd] using littleEndian_lt data
  have e4 := readU32_slice data 12 16 rfl
  have h4 : readU32 (slice data 12 16) >>> 8 < 2 ^ 24 := by
    rw [e4, Nat.shiftRight_eq_div_pow]; omega
  rw [msgLimbs, lor_hibit h4 hh]
  simp only [readU32_slice data 0 4 rfl, readU32_slice data 3 7 rfl, readU32_slice data 6 10 rfl,
    readU32_slice data 9 13 rfl, e4, land_3ffffff, Nat.shiftRight_eq_div_pow, Limbs.mk.injEq]
  omega

theorem msgLimbs_value {data : List UInt8} (hd : data.length = 16) {hibit : Nat}
    (hh : HiBit hibit) :
    (msgLimbs data hibit).value = littleEndian data + 2 ^ 104 * hibit := by
  have hx : littleEndian data < 2 ^ 128 := by simpa [hd] using littleEndian_lt data
  simp only [msgLimbs_eq hd hh, Limbs.value]
  omega

theorem Limbs.value_add (x y : Limbs Nat) : (x.add y).value = x.value + y.value := by
  simp only [Limbs.value, Limbs.add]; ring

structure HBound (h : Limbs Nat) : Prop where
  l0 : h.l0 < 2 ^ 27
  l1 : h.l1 < 2 ^ 27 + 2 ^ 6
  l2 : h.l2 < 2 ^ 27
  l3 : h.l3 < 2 ^ 27
  l4 : h.l4 < 2 ^ 26 + 2 ^ 25

theorem HBound.add {a : Limbs Nat} (ha : AccBound a) {data : List UInt8} (hd : data.length = 16)
    {hibit : Nat} (hh : HiBit hibit) : HBound (a.add (msgLimbs data hibit)) := by
  have hx : littleEndian data < 2 ^ 128 := by simpa [hd] using littleEndian_lt data
  obtain ⟨a0, a1, a2, a3, a4⟩ := ha
  have hh' : hibit = 0 ∨ hibit = 2 ^ 24 := hh
  rw [msgLimbs_eq hd hh]
  constructor <;> simp only [Limbs.add] <;> omega

theorem addMessage_eq {a m : Limbs Nat} (h : HBound (a.add m)) :
    addMessage a m = .ok (a.add m) := by
  obtain ⟨h0, h1, h2, h3, h4⟩ := h
  simp only [Limbs.add] at h0 h1 h2 h3 h4
  simp (disch := omega) only [addMessage, add32, checked_of_lt, ok_bind]
  rfl

-- ---------------------------------------------------------------------------
-- h *= r
-- ---------------------------------------------------------------------------

theorem dot5_eq {h0 x0 h1 x1 h2 x2 h3 x3 h4 x4 : Nat}
    (h : h0 * x0 + h1 * x1 + h2 * x2 + h3 * x3 + h4 * x4 < 2 ^ 64) :
    dot5 h0 x0 h1 x1 h2 x2 h3 x3 h4 x4 = .ok (h0 * x0 + h1 * x1 + h2 * x2 + h3 * x3 + h4 * x4) := by
  simp (disch := omega) only [dot5, mul64, add64, checked_of_lt, ok_bind]

def mulRNat (h r : Limbs Nat) : Limbs Nat :=
  ⟨h.l0 * r.l0 + h.l1 * (r.l4 * 5) + h.l2 * (r.l3 * 5) + h.l3 * (r.l2 * 5) + h.l4 * (r.l1 * 5),
    h.l0 * r.l1 + h.l1 * r.l0 + h.l2 * (r.l4 * 5) + h.l3 * (r.l3 * 5) + h.l4 * (r.l2 * 5),
    h.l0 * r.l2 + h.l1 * r.l1 + h.l2 * r.l0 + h.l3 * (r.l4 * 5) + h.l4 * (r.l3 * 5),
    h.l0 * r.l3 + h.l1 * r.l2 + h.l2 * r.l1 + h.l3 * r.l0 + h.l4 * (r.l4 * 5),
    h.l0 * r.l4 + h.l1 * r.l3 + h.l2 * r.l2 + h.l3 * r.l1 + h.l4 * r.l0⟩

structure DBound (d : Limbs Nat) : Prop where
  l0 : d.l0 < 2 ^ 57
  l1 : d.l1 < 2 ^ 57
  l2 : d.l2 < 2 ^ 56
  l3 : d.l3 < 2 ^ 56
  l4 : d.l4 < 2 ^ 55

theorem mulRNat_bound {h r : Limbs Nat} (hh : HBound h) (hr : RBound r) :
    DBound (mulRNat h r) := by
  obtain ⟨h0, h1, h2, h3, h4⟩ := hh
  obtain ⟨r0, r1, r2, r3, r4⟩ := hr
  constructor <;> simp only [mulRNat]
  · calc _ ≤ 2 ^ 27 * 2 ^ 26 + (2 ^ 27 + 2 ^ 6) * (2 ^ 20 * 5) + 2 ^ 27 * (2 ^ 26 * 5) +
          2 ^ 27 * (2 ^ 26 * 5) + (2 ^ 26 + 2 ^ 25) * (2 ^ 26 * 5) := by gcongr
      _ < 2 ^ 57 := by decide
  · calc _ ≤ 2 ^ 27 * 2 ^ 26 + (2 ^ 27 + 2 ^ 6) * 2 ^ 26 + 2 ^ 27 * (2 ^ 20 * 5) +
          2 ^ 27 * (2 ^ 26 * 5) + (2 ^ 26 + 2 ^ 25) * (2 ^ 26 * 5) := by gcongr
      _ < 2 ^ 57 := by decide
  · calc _ ≤ 2 ^ 27 * 2 ^ 26 + (2 ^ 27 + 2 ^ 6) * 2 ^ 26 + 2 ^ 27 * 2 ^ 26 +
          2 ^ 27 * (2 ^ 20 * 5) + (2 ^ 26 + 2 ^ 25) * (2 ^ 26 * 5) := by gcongr
      _ < 2 ^ 56 := by decide
  · calc _ ≤ 2 ^ 27 * 2 ^ 26 + (2 ^ 27 + 2 ^ 6) * 2 ^ 26 + 2 ^ 27 * 2 ^ 26 +
          2 ^ 27 * 2 ^ 26 + (2 ^ 26 + 2 ^ 25) * (2 ^ 20 * 5) := by gcongr
      _ < 2 ^ 56 := by decide
  · calc _ ≤ 2 ^ 27 * 2 ^ 20 + (2 ^ 27 + 2 ^ 6) * 2 ^ 26 + 2 ^ 27 * 2 ^ 26 +
          2 ^ 27 * 2 ^ 26 + (2 ^ 26 + 2 ^ 25) * 2 ^ 26 := by gcongr
      _ < 2 ^ 55 := by decide

theorem mulR_eq {h r : Limbs Nat} (hh : HBound h) (hr : RBound r) :
    mulR h r = .ok (mulRNat h r) := by
  obtain ⟨d0, d1, d2, d3, d4⟩ := mulRNat_bound hh hr
  obtain ⟨-, r1, r2, r3, r4⟩ := hr
  simp only [mulRNat] at d0 d1 d2 d3 d4
  simp (disch := omega) only [mulR, mul32, checked_of_lt, ok_bind, dot5_eq]
  rfl

theorem two_pow_130_cast : ((p : Nat) : ℤ) = 2 ^ 130 - 5 := by norm_num [p]

theorem mulRNat_modEq (h r : Limbs Nat) : (mulRNat h r).value ≡ h.value * r.value [MOD p] := by
  rw [Nat.modEq_iff_dvd, two_pow_130_cast]
  refine ⟨h.l1 * r.l4 + h.l2 * r.l3 + h.l3 * r.l2 + h.l4 * r.l1 +
    2 ^ 26 * (h.l2 * r.l4 + h.l3 * r.l3 + h.l4 * r.l2) + 2 ^ 52 * (h.l3 * r.l4 + h.l4 * r.l3) +
    2 ^ 78 * (h.l4 * r.l4), ?_⟩
  simp only [Limbs.value, mulRNat]
  push_cast
  ring

-- ---------------------------------------------------------------------------
-- (partial) h %= p
-- ---------------------------------------------------------------------------

theorem asU32_of_lt {x : Nat} (h : x < 2 ^ 32) : asU32 x = x := Nat.mod_eq_of_lt h

theorem modEq_of_add_p_mul {x y : Nat} (k : Nat) (h : x + p * k = y) : x ≡ y [MOD p] := by
  rw [Nat.ModEq, ← h, Nat.add_mul_mod_self_left]

def partialReduceNat (d : Limbs Nat) : Limbs Nat :=
  let d1 := d.l1 + d.l0 / 2 ^ 26
  let d2 := d.l2 + d1 / 2 ^ 26
  let d3 := d.l3 + d2 / 2 ^ 26
  let d4 := d.l4 + d3 / 2 ^ 26
  let h0 := d.l0 % 2 ^ 26 + d4 / 2 ^ 26 * 5
  ⟨h0 % 2 ^ 26, d1 % 2 ^ 26 + h0 / 2 ^ 26, d2 % 2 ^ 26, d3 % 2 ^ 26, d4 % 2 ^ 26⟩

theorem partialReduce_eq {d : Limbs Nat} (hd : DBound d) :
    partialReduce d = .ok (partialReduceNat d) := by
  obtain ⟨d0, d1, d2, d3, d4⟩ := hd
  simp (disch := omega) only [partialReduce, carryStep, add64, add32, mul32, checked_of_lt,
    ok_bind, asU32_of_lt, Nat.shiftRight_eq_div_pow, land_3ffffff]
  simp only [partialReduceNat, Except.ok.injEq, Limbs.mk.injEq]

theorem partialReduceNat_bound {d : Limbs Nat} (hd : DBound d) : AccBound (partialReduceNat d) := by
  obtain ⟨d0, d1, d2, d3, d4⟩ := hd
  constructor <;> simp only [partialReduceNat] <;> omega

theorem partialReduceNat_modEq (d : Limbs Nat) : (partialReduceNat d).value ≡ d.value [MOD p] :=
  modEq_of_add_p_mul ((d.l4 + (d.l3 + (d.l2 + (d.l1 + d.l0 / 2 ^ 26) / 2 ^ 26) / 2 ^ 26) /
    2 ^ 26) / 2 ^ 26) (by simp only [partialReduceNat, Limbs.value, p]; omega)

-- ---------------------------------------------------------------------------
-- process_block
-- ---------------------------------------------------------------------------

/-- `process_block` over ℕ. -/
def processBlockNat (a r : Limbs Nat) (data : List UInt8) (hibit : Nat) : Limbs Nat :=
  partialReduceNat (mulRNat (a.add (msgLimbs data hibit)) r)

theorem hiBit_ite (b : Bool) : HiBit (if b then 0 else 1 <<< 24) := by
  cases b
  · exact .inr rfl
  · exact .inl rfl

theorem processBlock_eq {st : Poly1305} (ha : AccBound st.a.toNat) (hr : RBound st.r.toNat)
    {data : List UInt8} (hd : data.length = 16) :
    processBlock st data = .ok (.ok { st with a := Limbs.ofNat (processBlockNat st.a.toNat
      st.r.toNat data (if st.isFinalized then 0 else 1 <<< 24)) }) := by
  have hH := HBound.add ha hd (hiBit_ite st.isFinalized)
  simp only [processBlock, hd, poly1305Blocksize, ne_eq, not_true_eq_false, if_false,
    addMessage_eq hH, ok_bind, mulR_eq hH hr, partialReduce_eq (mulRNat_bound hH hr)]
  rfl

theorem processBlockNat_bound {a r : Limbs Nat} (ha : AccBound a) (hr : RBound r)
    {data : List UInt8} (hd : data.length = 16) {hibit : Nat} (hh : HiBit hibit) :
    AccBound (processBlockNat a r data hibit) :=
  partialReduceNat_bound (mulRNat_bound (HBound.add ha hd hh) hr)

theorem processBlockNat_modEq (a r : Limbs Nat) {data : List UInt8} (hd : data.length = 16)
    {hibit : Nat} (hh : HiBit hibit) :
    (processBlockNat a r data hibit).value ≡
      (a.value + littleEndian data + 2 ^ 104 * hibit) * r.value [MOD p] := by
  calc (processBlockNat a r data hibit).value
      ≡ (mulRNat (a.add (msgLimbs data hibit)) r).value [MOD p] := partialReduceNat_modEq _
    _ ≡ (a.add (msgLimbs data hibit)).value * r.value [MOD p] := mulRNat_modEq _ _
    _ = (a.value + littleEndian data + 2 ^ 104 * hibit) * r.value := by
      rw [Limbs.value_add, msgLimbs_value hd hh, Nat.add_assoc]

-- ---------------------------------------------------------------------------
-- The clamp of r
-- ---------------------------------------------------------------------------

theorem land_of_mod_eq {y z m : Nat} (hm : m < 2 ^ 26) (h : y % 2 ^ 26 = z % 2 ^ 26) :
    y &&& m = z &&& m := by
  rw [← mod_two_pow_land y hm, h, mod_two_pow_land z hm]

theorem r_initializeKey (st : Poly1305) (key : OneTimeKey) :
    (initializeKey st key).r.toNat =
      let x := littleEndian (key.unprotectedAsBytes.take 16)
      ⟨x &&& 0x3ffffff, (x >>> 26) &&& 0x3ffff03, (x >>> 52) &&& 0x3ffc0ff,
        (x >>> 78) &&& 0x3f03fff, (x >>> 104) &&& 0x00fffff⟩ := by
  have hm := fun (y : Nat) (m : Nat) (h : m < 2 ^ 26) =>
    Nat.mod_eq_of_lt ((Nat.and_lt_two_pow y h).trans (by decide : 2 ^ 26 < 2 ^ 32))
  simp only [initializeKey, Limbs.toNat, Limbs.map, uint32_toNat_ofNat,
    hm _ _ (by decide : 0x3ffffff < 2 ^ 26), hm _ _ (by decide : 0x3ffff03 < 2 ^ 26),
    hm _ _ (by decide : 0x3ffc0ff < 2 ^ 26), hm _ _ (by decide : 0x3f03fff < 2 ^ 26),
    hm _ _ (by decide : 0x00fffff < 2 ^ 26), littleEndian_take, Limbs.mk.injEq,
    readU32_slice _ 0 4 rfl, readU32_slice _ 3 7 rfl, readU32_slice _ 6 10 rfl,
    readU32_slice _ 9 13 rfl, readU32_slice _ 12 16 rfl]
  refine ⟨land_of_mod_eq (by decide) ?_, land_of_mod_eq (by decide) ?_,
    land_of_mod_eq (by decide) ?_, land_of_mod_eq (by decide) ?_,
    land_of_mod_eq (by decide) ?_⟩ <;> (try simp only [Nat.shiftRight_eq_div_pow]) <;> omega

theorem value_r_initializeKey (st : Poly1305) (key : OneTimeKey) :
    (initializeKey st key).r.toNat.value = clampedR key := by
  have hM : (0x0ffffffc0ffffffc0ffffffc0fffffff : Nat) = 0x3ffffff + 2 ^ 26 * (0x3ffff03 +
      2 ^ 26 * (0x3ffc0ff + 2 ^ 26 * (0x3f03fff + 2 ^ 26 * 0x00fffff))) := by decide
  rw [r_initializeKey, clampedR, hM, land_split _ _ (by decide), land_split _ _ (by decide),
    land_split _ _ (by decide), land_split _ _ (by decide)]
  simp only [Limbs.value, ← Nat.shiftRight_add, Nat.reduceAdd,
    mod_two_pow_land _ (by decide : (0x3ffffff : Nat) < 2 ^ 26),
    mod_two_pow_land _ (by decide : (0x3ffff03 : Nat) < 2 ^ 26),
    mod_two_pow_land _ (by decide : (0x3ffc0ff : Nat) < 2 ^ 26),
    mod_two_pow_land _ (by decide : (0x3f03fff : Nat) < 2 ^ 26)]
  ring

theorem rBound_initializeKey (st : Poly1305) (key : OneTimeKey) :
    RBound (initializeKey st key).r.toNat := by
  rw [r_initializeKey]
  exact ⟨Nat.and_lt_two_pow _ (by decide), Nat.and_lt_two_pow _ (by decide),
    Nat.and_lt_two_pow _ (by decide), Nat.and_lt_two_pow _ (by decide),
    Nat.and_lt_two_pow _ (by decide)⟩

-- ---------------------------------------------------------------------------
-- One block under a key
-- ---------------------------------------------------------------------------

/-- On an accumulator within `AccBound` and `r` from `initialize`, `process_block` on a
16-byte block returns `Ok` and moves the accumulator by one step of the RFC's evaluation:
`a ← (a + le(b) + h · 2 ^ 128) · r (mod p)`, with `h = 0` once finalized. -/
theorem processBlock_initializeKey_modEq (st : Poly1305) (key : OneTimeKey) (data : List UInt8)
    (ha : AccBound st.a.toNat) (hd : data.length = 16) :
    ∃ a', processBlock (initializeKey st key) data = .ok (.ok { initializeKey st key with a := a' }) ∧
      a'.toNat.value ≡ (st.a.toNat.value + littleEndian data +
        2 ^ 128 * (if st.isFinalized then 0 else 1)) * clampedR key [MOD p] := by
  have hh := hiBit_ite st.isFinalized
  refine ⟨_, @processBlock_eq (initializeKey st key) ha (rBound_initializeKey st key) _ hd, ?_⟩
  rw [initializeKey_a, initializeKey_isFinalized,
    AccBound.toNat_ofNat (processBlockNat_bound ha (rBound_initializeKey st key) hd hh),
    ← value_r_initializeKey st key]
  refine (processBlockNat_modEq _ _ hd hh).trans ?_
  cases st.isFinalized <;> rfl

/-- A state whose accumulator sits at the top of `AccBound`, above `p`. -/
def topAccState : Poly1305 :=
  { a := ⟨0x3ffffff, 0x400003f, 0x3ffffff, 0x3ffffff, 0x3ffffff⟩, r := ⟨0, 0, 0, 0, 0⟩,
    s := ⟨0xffffffff, 0xffffffff, 0xffffffff, 0xffffffff⟩, leftover := 0,
    buffer := Mathlib.Vector.replicate _ 0, isFinalized := false }

/-- The key of all `0xff` bytes: `r` is the clamp mask itself. -/
def onesKey : OneTimeKey := ⟨Mathlib.Vector.replicate _ 0xff⟩

theorem processBlock_initializeKey_modEq_top :
    AccBound topAccState.a.toNat ∧ (List.replicate 16 (0xff : UInt8)).length = 16 ∧
    ∃ a', processBlock (initializeKey topAccState onesKey) (List.replicate 16 0xff) =
        .ok (.ok { initializeKey topAccState onesKey with a := a' }) ∧
      a'.toNat.value ≡ (topAccState.a.toNat.value + littleEndian (List.replicate 16 0xff) +
        2 ^ 128 * (if topAccState.isFinalized then 0 else 1)) * clampedR onesKey [MOD p] :=
  ⟨by decide, rfl,
    processBlock_initializeKey_modEq topAccState onesKey _ (by decide) rfl⟩

end OrionMac.Poly1305
