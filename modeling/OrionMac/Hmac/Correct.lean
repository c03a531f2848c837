import OrionMac.Hmac.State

/-!
# HMAC-SHA512: the tag, the finalization gate, and `reset`

`init key` feeds `K ⊕ 0x36¹²⁸` to the inner hasher and `K ⊕ 0x5C¹²⁸` to the outer one
(`init_spec`); updates append to the inner hasher, and `finalize` returns
`H (K ⊕ 0x5C¹²⁸ ‖ H (K ⊕ 0x36¹²⁸ ‖ m))`, for any digest `H`
(`run_updates_finalize_tag`).

`reset` feeds `ipad` to the inner hasher again without replacing it first. That restores the
state `init` gave only after a `finalize`, which swapped in a new hasher (`run_reset_spec`);
right after `init` or an `update`, the inner hasher keeps what it had, and the tags that
follow change (`reset_after_init_feeds_ipad_twice`).
-/

namespace OrionMac.Hmac

/-- `K ⊕ pad¹²⁸`: the key xored bytewise with 128 copies of a pad byte. -/
def xorPad (key : SecretKey) (pad : UInt8) : List UInt8 :=
  List.zipWith (· ^^^ ·) (List.replicate sha2Blocksize pad) key.unprotectedAsBytes

@[simp] theorem Sha512.input_absorbed (h : Sha512) (data : List UInt8) :
    (h.input data).absorbed = h.absorbed ++ data := rfl

theorem Sha512.input_input (h : Sha512) (a b : List UInt8) :
    (h.input a).input b = h.input (a ++ b) := by
  simp only [Sha512.input, List.append_assoc]

-- ---------------------------------------------------------------------------
-- pad_key_io
-- ---------------------------------------------------------------------------

theorem xorAt_toList {buf : Mathlib.Vector UInt8 n} {pre suf : List UInt8} {c : UInt8}
    (h : buf.toList = pre ++ c :: suf) (itm : UInt8) :
    ∃ v, xorAt buf pre.length itm = .ok v ∧ v.toList = pre ++ (c ^^^ itm) :: suf := by
  have hn : pre.length < n := by
    have := buf.toList_length
    rw [h] at this
    simp only [List.length_append, List.length_cons] at this
    omega
  have hget : buf.get ⟨pre.length, hn⟩ = c := by
    simp [Mathlib.Vector.get_eq_get, h, List.getElem_append_right]
  refine ⟨_, by rw [xorAt, getAt_of_lt hn, ok_bind, hget, setAt_of_lt hn], ?_⟩
  rw [Mathlib.Vector.toList_set, h, List.set_append_right _ _ le_rfl, Nat.sub_self]
  rfl

theorem xorKeyInto_toList (bs : List UInt8) :
    ∀ (ipad opad : Mathlib.Vector UInt8 n) (pi si po so : List UInt8),
      ipad.toList = pi ++ si → opad.toList = po ++ so → po.length = pi.length →
      bs.length ≤ si.length → bs.length ≤ so.length →
      ∃ i' o', xorKeyInto ipad opad pi.length bs = .ok (i', o') ∧
        i'.toList = pi ++ List.zipWith (· ^^^ ·) si bs ++ si.drop bs.length ∧
        o'.toList = po ++ List.zipWith (· ^^^ ·) so bs ++ so.drop bs.length := by
  induction bs with
  | nil =>
    intro ipad opad pi si po so hi ho _ _ _
    exact ⟨ipad, opad, rfl, by simpa using hi, by simpa using ho⟩
  | cons b bs ih =>
    intro ipad opad pi si po so hi ho hl hsi hso
    cases si with
    | nil => simp at hsi
    | cons c si =>
    cases so with
    | nil => simp at hso
    | cons d so =>
    obtain ⟨i₁, hi₁, hi₁l⟩ := xorAt_toList hi b
    obtain ⟨o₁, ho₁, ho₁l⟩ := xorAt_toList ho b
    obtain ⟨i', o', hrec, hi', ho'⟩ := ih i₁ o₁ (pi ++ [c ^^^ b]) si (po ++ [d ^^^ b]) so
      (by simpa using hi₁l) (by simpa using ho₁l) (by simp [hl])
      (by simp only [List.length_cons] at hsi; omega)
      (by simp only [List.length_cons] at hso; omega)
    refine ⟨i', o', ?_, by simpa using hi', by simpa using ho'⟩
    rw [xorKeyInto, hi₁, ok_bind, ← hl, ho₁, ok_bind, hl]
    simpa using hrec

theorem init_spec (key : SecretKey) :
    ∃ st, init key = .ok st ∧ st.ipad.toList = xorPad key 0x36 ∧
      st.ipadHasher.absorbed = xorPad key 0x36 ∧ st.opadHasher.absorbed = xorPad key 0x5C ∧
      st.isFinalized = false := by
  obtain ⟨i', o', hloop, hi, ho⟩ := xorKeyInto_toList key.unprotectedAsBytes
    (Mathlib.Vector.replicate sha2Blocksize 0x36) (Mathlib.Vector.replicate sha2Blocksize 0x5C)
    [] (List.replicate sha2Blocksize 0x36) [] (List.replicate sha2Blocksize 0x5C) rfl rfl rfl
    (by simp) (by simp)
  have hdrop : ∀ c : UInt8,
      (List.replicate sha2Blocksize c).drop key.unprotectedAsBytes.length = [] := by simp
  simp only [hdrop, List.nil_append, List.append_nil] at hi ho
  refine ⟨_, by rw [init, padKeyIo, ← List.length_nil, hloop, ok_bind], hi, ?_, ?_, rfl⟩
  · simp [Sha512.default, hi, xorPad]
  · simp [Sha512.default, ho, xorPad]

-- ---------------------------------------------------------------------------
-- update, finalize
-- ---------------------------------------------------------------------------

variable (H : List UInt8 → Mathlib.Vector UInt8 hlen)

theorem update_of_not_finalized {st : Hmac} (hf : st.isFinalized = false) (data : List UInt8) :
    update st data = (.ok (), { st with ipadHasher := st.ipadHasher.input data }) := by
  rw [update, if_neg (by simp [hf])]

theorem finalize_of_not_finalized {st : Hmac} (hf : st.isFinalized = false) :
    finalize H st = .ok (.ok ⟨H (st.opadHasher.absorbed ++ (H st.ipadHasher.absorbed).toList)⟩,
      { st with isFinalized := true, ipadHasher := Sha512.default }) := by
  rw [finalize, if_neg (by simp [hf])]
  simp only [Sha512.result, Sha512.input_absorbed, ok_bind,
    MacTag.fromSlice_of_length (Mathlib.Vector.toList_length _), unwrap_ok]
  rfl

theorem run_updates {st : Hmac} (hf : st.isFinalized = false) (ms : List (List UInt8)) :
    run (step H) st (ms.map Call.update) =
      .ok (List.replicate ms.length (.ok none),
        { st with ipadHasher := st.ipadHasher.input ms.flatten }) := by
  induction ms generalizing st with
  | nil => simp [Sha512.input]
  | cons m ms ih =>
    have hstep : step H st (.update m) =
        .ok (.ok none, { st with ipadHasher := st.ipadHasher.input m }) := by
      rw [step, update_of_not_finalized hf]
      rfl
    rw [List.map_cons, run_cons _ _ hstep, @ih { st with ipadHasher := st.ipadHasher.input m } hf,
      List.flatten_cons, ← Sha512.input_input]
    rfl

theorem hmac_eq (key : SecretKey) (m : List UInt8) :
    hmac H key m = .ok ⟨H (xorPad key 0x5C ++ (H (xorPad key 0x36 ++ m)).toList)⟩ := by
  obtain ⟨st₀, hinit, -, hi, ho, hf⟩ := init_spec key
  rw [hmac, hinit, ok_bind]
  simp only [update_of_not_finalized hf, unwrap_ok, ok_bind,
    @finalize_of_not_finalized H { st₀ with ipadHasher := st₀.ipadHasher.input m } hf,
    Sha512.input_absorbed, hi, ho]

/-- `verify` answers `Ok(true)` exactly for the HMAC tag, and `Err` for any other tag, never
`Ok(false)`. -/
theorem verify_eq_hmacTag (expected : Tag) (key : SecretKey) (m : List UInt8) :
    verify H expected key m =
      .ok (if expected = ⟨H (xorPad key 0x5C ++ (H (xorPad key 0x36 ++ m)).toList)⟩ then .ok true
        else .error {}) := by
  rw [verify, hmac_eq]
  rfl

/-- `init`, then `update` with each piece (each returning `Ok`), then `finalize`, returns
`H (K ⊕ 0x5C¹²⁸ ‖ H (K ⊕ 0x36¹²⁸ ‖ m))` for the concatenation `m`, and so does the one-shot
`hmac`. -/
theorem run_updates_finalize_tag (key : SecretKey) (ms : List (List UInt8)) :
    ∃ st₀ st, init key = .ok st₀ ∧
      run (step H) st₀ (ms.map Call.update ++ [Call.finalize]) =
        .ok (List.replicate ms.length (.ok none) ++
          [.ok (some ⟨H (xorPad key 0x5C ++ (H (xorPad key 0x36 ++ ms.flatten)).toList)⟩)], st) ∧
      hmac H key ms.flatten =
        .ok ⟨H (xorPad key 0x5C ++ (H (xorPad key 0x36 ++ ms.flatten)).toList)⟩ := by
  obtain ⟨st₀, hinit, -, hi, ho, hf⟩ := init_spec key
  have hfin :=
    @finalize_of_not_finalized H { st₀ with ipadHasher := st₀.ipadHasher.input ms.flatten } hf
  refine ⟨st₀, { st₀ with isFinalized := true, ipadHasher := Sha512.default }, hinit, ?_,
    hmac_eq H key ms.flatten⟩
  rw [run_append (run_updates H hf ms), run_cons _ _ (by rw [step, hfin]; rfl)]
  simp only [Sha512.input_absorbed, hi, ho]
  rfl

-- ---------------------------------------------------------------------------
-- The finalization gate, and reset
-- ---------------------------------------------------------------------------

structure Inv (st₀ st : Hmac) : Prop where
  ipad : st.ipad = st₀.ipad
  opadHasher : st.opadHasher = st₀.opadHasher
  ipadHasher : st.isFinalized = true → st.ipadHasher = Sha512.default

theorem gate (st₀ : Hmac) : Gate (step H) (·.isFinalized) (Inv st₀) where
  refuse st c _ hf hc := by
    cases c with
    | update d => rw [step, update, if_pos hf]; rfl
    | finalize => rw [step, finalize, if_pos hf]; rfl
    | reset => exact absurd rfl hc
  update st d h hf :=
    ⟨{ st with ipadHasher := st.ipadHasher.input d },
      by rw [step, update_of_not_finalized hf]; rfl,
      ⟨h.ipad, h.opadHasher, fun h' => absurd (hf.symm.trans h') Bool.false_ne_true⟩, hf⟩
  finalize st h hf :=
    ⟨_, { st with isFinalized := true, ipadHasher := Sha512.default },
      by rw [step, finalize_of_not_finalized H hf]; rfl, ⟨h.ipad, h.opadHasher, fun _ => rfl⟩, rfl⟩
  reset st h := ⟨st.reset, rfl, ⟨h.ipad, h.opadHasher, fun h' => absurd h' Bool.false_ne_true⟩, rfl⟩

theorem Inv.init {st₀ : Hmac} (h : st₀.isFinalized = false) : Inv st₀ st₀ :=
  ⟨rfl, rfl, fun h' => absurd (h.symm.trans h') Bool.false_ne_true⟩

theorem Inv.reset_eq {st₀ st : Hmac} (h : Inv st₀ st) (hf₀ : st₀.isFinalized = false)
    (hi₀ : st₀.ipadHasher.absorbed = st₀.ipad.toList) (hf : st.isFinalized = true) :
    st.reset = st₀ := by
  have hin := h.ipadHasher hf
  obtain ⟨ipad, opadHasher, ipadHasher, isFinalized⟩ := st
  obtain ⟨ipad₀, opadHasher₀, ⟨abs₀⟩, isFinalized₀⟩ := st₀
  obtain ⟨rfl, rfl, -⟩ := h
  simp only at hin hi₀ hf₀
  subst hin hi₀ hf₀
  simp [reset, Sha512.input, Sha512.default]

/-- Over every run from `init key`, the outer hasher still holds `K ⊕ 0x5C¹²⁸` alone, and
`reset` appends `K ⊕ 0x36¹²⁸` to whatever the inner hasher holds; after a `finalize` that
gives back the state `init` gave. -/
theorem run_reset_spec (key : SecretKey) (calls : List Call) :
    ∃ st₀ rs st, init key = .ok st₀ ∧ run (step H) st₀ calls = .ok (rs, st) ∧
      st.opadHasher.absorbed = xorPad key 0x5C ∧
      st.reset.ipadHasher.absorbed = st.ipadHasher.absorbed ++ xorPad key 0x36 ∧
      (st.isFinalized = true → st.reset = st₀) := by
  obtain ⟨st₀, hinit, hipad, hi, ho, hf⟩ := init_spec key
  obtain ⟨rs, st, hrun, h, -⟩ := (gate H st₀).run_spec (Inv.init hf) calls
  exact ⟨st₀, rs, st, hinit, hrun, h.opadHasher ▸ ho, by simp [reset, h.ipad, hipad],
    h.reset_eq hf (hi.trans hipad.symm)⟩

/-- A key whose first byte is `1` and whose other bytes are `0`. -/
def oneKey : SecretKey := ⟨⟨1 :: List.replicate 127 0, rfl⟩⟩

/-- A digest that sums the bytes modulo 256 into its first byte. -/
def byteSum (bs : List UInt8) : Mathlib.Vector UInt8 hlen :=
  ⟨UInt8.ofNat (bs.map UInt8.toNat).sum :: List.replicate 63 0, rfl⟩

theorem length_xorPad (key : SecretKey) (pad : UInt8) : (xorPad key pad).length = 128 := by
  simp [xorPad, sha2Blocksize]

theorem sum_xorPad_oneKey (c : UInt8) :
    ((xorPad oneKey c).map UInt8.toNat).sum = (c ^^^ 1).toNat + 127 * (c ^^^ 0).toNat := by
  show ((List.zipWith (· ^^^ ·) (c :: List.replicate 127 c) (1 :: List.replicate 127 0)).map
    UInt8.toNat).sum = _
  simp only [List.zipWith_cons_cons, List.zipWith_replicate', List.map_cons, List.sum_cons,
    List.map_replicate, List.sum_replicate, smul_eq_mul]

/-- `reset` right after `init` does not give back the state `init` gave: the inner hasher takes
`K ⊕ 0x36¹²⁸` a second time, on top of the first. The tags that follow change: under the
digest `byteSum` and the key `oneKey`, `reset` then `finalize` gives another tag than
`finalize` alone. -/
theorem reset_after_init_feeds_ipad_twice :
    (∀ key : SecretKey, ∃ st₀, init key = .ok st₀ ∧ st₀.ipadHasher.absorbed = xorPad key 0x36 ∧
      st₀.reset.ipadHasher.absorbed = xorPad key 0x36 ++ xorPad key 0x36 ∧ st₀.reset ≠ st₀) ∧
    ∃ st₀, init oneKey = .ok st₀ ∧
      (finalize byteSum st₀.reset).map Prod.fst ≠ (finalize byteSum st₀).map Prod.fst := by
  refine ⟨fun key => ?_, ?_⟩
  · obtain ⟨st₀, hinit, hipad, hi, -, -⟩ := init_spec key
    have hr : st₀.reset.ipadHasher.absorbed = xorPad key 0x36 ++ xorPad key 0x36 := by
      simp [reset, hi, hipad]
    refine ⟨st₀, hinit, hi, hr, fun he => ?_⟩
    have := congrArg (fun st : Hmac => st.ipadHasher.absorbed.length) he
    simp only [hr, hi, List.length_append, length_xorPad] at this
    omega
  · obtain ⟨st₀, hinit, hipad, hi, ho, hf⟩ := init_spec oneKey
    refine ⟨st₀, hinit, ?_⟩
    rw [@finalize_of_not_finalized byteSum st₀.reset rfl, finalize_of_not_finalized byteSum hf]
    simp only [reset, Sha512.input_absorbed, hi, ho, hipad, Except.map, ne_eq, Except.ok.injEq,
      MacTag.mk.injEq]
    -- the first bytes of the two tags already differ
    intro he
    have h1 := congrArg (fun v : Mathlib.Vector UInt8 hlen => (v.toList.headD 0).toNat) he
    simp only [byteSum, Mathlib.Vector.toList_mk, List.headD_cons, uint8_toNat_ofNat,
      List.map_append, List.sum_append, List.map_cons, List.sum_cons, List.map_replicate,
      List.sum_replicate, sum_xorPad_oneKey] at h1
    revert h1
    decide

end OrionMac.Hmac
