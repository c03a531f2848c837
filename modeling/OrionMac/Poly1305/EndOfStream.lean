import OrionMac.Poly1305.Block

/-!
# `process_end_of_stream` leaves the tag's words in `a[0..4]`

The four stages of `process_end_of_stream`, each first shown to compute a formula over ℕ
and then what that formula means:

* the full carry neither overflows nor changes the value modulo `p`, and leaves every limb
  below `2 ^ 26` (`fullCarry_eq`, `fullCarryNat_allLt`, `fullCarryNat_modEq`);
* `g = h + 5 - 2 ^ 130` has its sign bit clear exactly when `h ≥ p`, and is then `h - p`
  (`minusP_eq`, `minusPNat_l4_lt_iff`, `minusPNat_value`); the masks pick `g` exactly then
  (`select_eq`), so the result is `h mod p`;
* the repacking keeps the low 128 bits (`pack_eq`), and the word-wise addition of the pad is
  an addition modulo `2 ^ 128` (`addPad_eq`).
-/

namespace OrionMac.Poly1305

/-- Every limb below `n`. -/
structure Limbs.AllLt (x : Limbs Nat) (n : Nat) : Prop where
  l0 : x.l0 < n
  l1 : x.l1 < n
  l2 : x.l2 < n
  l3 : x.l3 < n
  l4 : x.l4 < n

/-- Every word below `n`. -/
structure Words.AllLt (x : Words Nat) (n : Nat) : Prop where
  w0 : x.w0 < n
  w1 : x.w1 < n
  w2 : x.w2 < n
  w3 : x.w3 < n

/-- The number words stand for, in radix `2 ^ 32`. -/
def Words.value (x : Words Nat) : Nat := x.w0 + 2 ^ 32 * x.w1 + 2 ^ 64 * x.w2 + 2 ^ 96 * x.w3

/-- The four little-endian 32-bit words of `v mod 2 ^ 128`. -/
def Words.split (v : Nat) : Words Nat :=
  ⟨v % 2 ^ 32, v / 2 ^ 32 % 2 ^ 32, v / 2 ^ 64 % 2 ^ 32, v / 2 ^ 96 % 2 ^ 32⟩

theorem Words.split_allLt (v : Nat) : (Words.split v).AllLt (2 ^ 32) :=
  ⟨Nat.mod_lt _ (by decide), Nat.mod_lt _ (by decide), Nat.mod_lt _ (by decide),
    Nat.mod_lt _ (by decide)⟩

theorem Words.value_split (v : Nat) : (Words.split v).value = v % 2 ^ 128 := by
  simp only [Words.split, Words.value]; omega

theorem Words.split_mod_add (v w : Nat) : Words.split (v % 2 ^ 128 + w) = Words.split (v + w) := by
  simp only [Words.split, Words.mk.injEq]; omega

theorem Words.toNat_allLt (x : Words UInt32) : x.toNat.AllLt (2 ^ 32) :=
  ⟨uint32_toNat_lt _, uint32_toNat_lt _, uint32_toNat_lt _, uint32_toNat_lt _⟩

theorem Limbs.AllLt.value_lt {x : Limbs Nat} (h : x.AllLt (2 ^ 26)) : x.value < 2 ^ 130 := by
  obtain ⟨h0, h1, h2, h3, h4⟩ := h
  simp only [Limbs.value]; omega

-- ---------------------------------------------------------------------------
-- full carry h
-- ---------------------------------------------------------------------------

/-- `fullCarry` over ℕ. -/
def fullCarryNat (a : Limbs Nat) : Limbs Nat :=
  let t2 := a.l2 + a.l1 / 2 ^ 26
  let t3 := a.l3 + t2 / 2 ^ 26
  let t4 := a.l4 + t3 / 2 ^ 26
  let t0 := a.l0 + t4 / 2 ^ 26 * 5
  ⟨t0 % 2 ^ 26, a.l1 % 2 ^ 26 + t0 / 2 ^ 26, t2 % 2 ^ 26, t3 % 2 ^ 26, t4 % 2 ^ 26⟩

theorem fullCarry_eq {a : Limbs Nat} (ha : AccBound a) : fullCarry a = .ok (fullCarryNat a) := by
  obtain ⟨a0, a1, a2, a3, a4⟩ := ha
  simp (disch := omega) only [fullCarry, fullCarryStep, add32, mul32, checked_of_lt, ok_bind,
    Nat.shiftRight_eq_div_pow, land_3ffffff]
  rfl

theorem fullCarryNat_allLt {a : Limbs Nat} (ha : AccBound a) : (fullCarryNat a).AllLt (2 ^ 26) := by
  obtain ⟨a0, a1, a2, a3, a4⟩ := ha
  constructor <;> simp only [fullCarryNat] <;> omega

theorem fullCarryNat_modEq (a : Limbs Nat) : (fullCarryNat a).value ≡ a.value [MOD p] :=
  modEq_of_add_p_mul ((a.l4 + (a.l3 + (a.l2 + a.l1 / 2 ^ 26) / 2 ^ 26) / 2 ^ 26) / 2 ^ 26)
    (by simp only [fullCarryNat, Limbs.value, p]; omega)

-- ---------------------------------------------------------------------------
-- compute h + -p
-- ---------------------------------------------------------------------------

/-- `minusP` over ℕ: `h + 5` carried, with `2 ^ 26` taken from the top limb modulo `2 ^ 32`. -/
def minusPNat (h : Limbs Nat) : Limbs Nat :=
  let t0 := h.l0 + 5
  let t1 := h.l1 + t0 / 2 ^ 26
  let t2 := h.l2 + t1 / 2 ^ 26
  let t3 := h.l3 + t2 / 2 ^ 26
  ⟨t0 % 2 ^ 26, t1 % 2 ^ 26, t2 % 2 ^ 26, t3 % 2 ^ 26,
    (h.l4 + t3 / 2 ^ 26 + (2 ^ 32 - 2 ^ 26)) % 2 ^ 32⟩

theorem minusP_eq {h : Limbs Nat} (hh : h.AllLt (2 ^ 26)) : minusP h = minusPNat h := by
  obtain ⟨h0, h1, h2, h3, h4⟩ := hh
  simp (disch := omega) only [minusP, minusPStep, wrappingAdd32, wrappingSub32,
    Nat.shiftRight_eq_div_pow, land_3ffffff, Nat.mod_eq_of_lt, Nat.shiftLeft_eq, Nat.one_mul]
  simp only [minusPNat, Limbs.mk.injEq]

theorem minusPNat_l4_lt_iff {h : Limbs Nat} (hh : h.AllLt (2 ^ 26)) :
    (minusPNat h).l4 < 2 ^ 31 ↔ p ≤ h.value := by
  obtain ⟨h0, h1, h2, h3, h4⟩ := hh
  simp only [minusPNat, Limbs.value, p]
  omega

theorem minusPNat_value {h : Limbs Nat} (hh : h.AllLt (2 ^ 26)) (hp : p ≤ h.value) :
    (minusPNat h).value = h.value - p ∧ (minusPNat h).AllLt (2 ^ 26) := by
  obtain ⟨h0, h1, h2, h3, h4⟩ := hh
  simp only [Limbs.value, p] at hp
  refine ⟨?_, ⟨?_, ?_, ?_, ?_, ?_⟩⟩ <;> simp only [minusPNat, Limbs.value, p] <;> omega

theorem minusPNat_allLt {h : Limbs Nat} : (minusPNat h).AllLt (2 ^ 32) := by
  constructor <;> simp only [minusPNat] <;> omega

-- ---------------------------------------------------------------------------
-- select h if h < p, or h + -p if h >= p
-- ---------------------------------------------------------------------------

theorem mask_eq {g4 : Nat} (hg : g4 < 2 ^ 32) :
    wrappingSub32 (g4 >>> (32 - 1)) 1 = if g4 < 2 ^ 31 then 0xffffffff else 0 := by
  rw [Nat.shiftRight_eq_div_pow, wrappingSub32]
  split <;> omega

theorem select_eq {h g : Limbs Nat} (hh : h.AllLt (2 ^ 32)) (hg : g.AllLt (2 ^ 32)) :
    select h g = if g.l4 < 2 ^ 31 then g else h := by
  obtain ⟨h0, h1, h2, h3, h4⟩ := hh
  obtain ⟨g0, g1, g2, g3, g4⟩ := hg
  simp only [select, mask_eq g4]
  split
  · simp (disch := omega) only [Limbs.map, land_ffffffff, Nat.mod_eq_of_lt, not32, Nat.and_zero,
      Nat.zero_or, Nat.reducePow, Nat.reduceSub]
  · simp (disch := omega) only [Limbs.map, land_ffffffff, Nat.mod_eq_of_lt, not32, Nat.and_zero,
      Nat.or_zero, Nat.reducePow, Nat.reduceSub, Nat.sub_zero]

/-- What the select stores: `h - p` when `h ≥ p`, and `h` otherwise. -/
def reduceOnce (h : Limbs Nat) : Limbs Nat := if p ≤ h.value then minusPNat h else h

theorem select_minusP {h : Limbs Nat} (hh : h.AllLt (2 ^ 26)) :
    select h (minusP h) = reduceOnce h := by
  have h32 : h.AllLt (2 ^ 32) := by obtain ⟨h0, h1, h2, h3, h4⟩ := hh; constructor <;> omega
  rw [minusP_eq hh, select_eq h32 minusPNat_allLt, reduceOnce]
  simp only [minusPNat_l4_lt_iff hh]

theorem reduceOnce_value {h : Limbs Nat} (hh : h.AllLt (2 ^ 26)) :
    (reduceOnce h).value = h.value % p ∧ (reduceOnce h).AllLt (2 ^ 26) := by
  have hlt := hh.value_lt
  unfold reduceOnce
  split
  · obtain ⟨hv, hb⟩ := minusPNat_value hh ‹_›
    refine ⟨?_, hb⟩
    rw [hv, Nat.mod_eq_sub_mod ‹_›, Nat.mod_eq_of_lt (by simp only [p] at *; omega)]
  · exact ⟨(Nat.mod_eq_of_lt (by omega)).symm, hh⟩

-- ---------------------------------------------------------------------------
-- h = h % (2^128), mac = (h + pad) % (2^128)
-- ---------------------------------------------------------------------------

theorem shl32_eq (b : Nat) {k : Nat} (hk : k ≤ 32) : shl32 b k = 2 ^ k * (b % 2 ^ (32 - k)) := by
  rw [shl32, Nat.shiftLeft_eq, Nat.mul_comm, ← Nat.mul_mod_mul_left, ← Nat.pow_add,
    Nat.add_sub_cancel' hk]

theorem lor_shl32 {a k : Nat} (b : Nat) (ha : a < 2 ^ k) (hk : k ≤ 32) :
    a ||| shl32 b k = a + 2 ^ k * (b % 2 ^ (32 - k)) := by
  rw [shl32_eq b hk, lor_two_pow_mul _ ha]

theorem pack_eq {h : Limbs Nat} (hh : h.AllLt (2 ^ 26)) : pack h = Words.split h.value := by
  obtain ⟨h0, h1, h2, h3, h4⟩ := hh
  simp only [pack, Nat.shiftRight_eq_div_pow]
  simp (disch := omega) only [lor_shl32, land_ffffffff, Nat.reducePow, Nat.reduceSub]
  simp only [Words.split, Limbs.value, Words.mk.injEq]
  omega

theorem addPad_eq {h s : Words Nat} (hh : h.AllLt (2 ^ 32)) (hs : s.AllLt (2 ^ 32)) :
    addPad h s = .ok (Words.split (h.value + s.value)) := by
  obtain ⟨h0, h1, h2, h3⟩ := hh
  obtain ⟨s0, s1, s2, s3⟩ := hs
  simp (disch := omega) only [addPad, padStep, add64, checked_of_lt, ok_bind, asU32,
    Nat.shiftRight_eq_div_pow]
  simp only [Words.split, Words.value, Except.ok.injEq, Words.mk.injEq]
  omega

-- ---------------------------------------------------------------------------
-- process_end_of_stream
-- ---------------------------------------------------------------------------

theorem processEndOfStream_eq {st : Poly1305} (ha : AccBound st.a.toNat) :
    processEndOfStream st =
      let t := Words.split (st.a.toNat.value % p + st.s.toNat.value)
      .ok { st with a := { st.a with l0 := .ofNat t.w0, l1 := .ofNat t.w1, l2 := .ofNat t.w2,
                                      l3 := .ofNat t.w3 } } := by
  have hc := fullCarryNat_allLt ha
  obtain ⟨hv, hr⟩ := reduceOnce_value hc
  have hmod : (fullCarryNat st.a.toNat).value % p = st.a.toNat.value % p := fullCarryNat_modEq _
  simp only [processEndOfStream, fullCarry_eq ha, ok_bind, select_minusP hc, pack_eq hr,
    addPad_eq (Words.split_allLt _) (Words.toNat_allLt _), Words.value_split, Words.split_mod_add,
    hv, hmod]

/-- From an accumulator within `AccBound`: the full carry leaves limbs below `2 ^ 26` and the
value modulo `p` unchanged; on such limbs the mask select gives `h - p` exactly when `h ≥ p`,
so `h mod p`; and `process_end_of_stream` writes into `a[0..4]` the four little-endian words
of `(a mod p + s) mod 2 ^ 128`, leaving `a[4]` and the rest of the state as they were. -/
theorem processEndOfStream_correct (st : Poly1305) (ha : AccBound st.a.toNat) :
    (∃ h, fullCarry st.a.toNat = .ok h ∧ h.AllLt (2 ^ 26) ∧ h.value ≡ st.a.toNat.value [MOD p]) ∧
    (∀ h : Limbs Nat, h.AllLt (2 ^ 26) →
      select h (minusP h) = (if p ≤ h.value then minusP h else h) ∧
      (p ≤ h.value → (minusP h).value = h.value - p) ∧
      (select h (minusP h)).value = h.value % p) ∧
    processEndOfStream st =
      let t := Words.split (st.a.toNat.value % p + st.s.toNat.value)
      .ok { st with a := { st.a with l0 := .ofNat t.w0, l1 := .ofNat t.w1, l2 := .ofNat t.w2,
                                      l3 := .ofNat t.w3 } } := by
  refine ⟨⟨_, fullCarry_eq ha, fullCarryNat_allLt ha, fullCarryNat_modEq _⟩,
    fun h hh => ⟨?_, fun hp => ?_, ?_⟩, processEndOfStream_eq ha⟩
  · rw [select_minusP hh, reduceOnce, minusP_eq hh]
  · rw [minusP_eq hh]; exact (minusPNat_value hh hp).1
  · rw [select_minusP hh]; exact (reduceOnce_value hh).1

theorem processEndOfStream_correct_top :
    AccBound topAccState.a.toNat ∧
    (∃ h, fullCarry topAccState.a.toNat = .ok h ∧ h.AllLt (2 ^ 26) ∧
      h.value ≡ topAccState.a.toNat.value [MOD p]) ∧
    (∀ h : Limbs Nat, h.AllLt (2 ^ 26) →
      select h (minusP h) = (if p ≤ h.value then minusP h else h) ∧
      (p ≤ h.value → (minusP h).value = h.value - p) ∧
      (select h (minusP h)).value = h.value % p) ∧
    processEndOfStream topAccState =
      let t := Words.split (topAccState.a.toNat.value % p + topAccState.s.toNat.value)
      .ok { topAccState with a := { topAccState.a with l0 := .ofNat t.w0, l1 := .ofNat t.w1,
                                                        l2 := .ofNat t.w2, l3 := .ofNat t.w3 } } :=
  ⟨by decide, processEndOfStream_correct topAccState (by decide)⟩

end OrionMac.Poly1305
