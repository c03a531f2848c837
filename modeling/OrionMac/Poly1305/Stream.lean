import OrionMac.Poly1305.EndOfStream

/-!
# `update` and `finalize` compute the RFC 8439 tag of everything absorbed

`Absorbs key done pend st` says what a state that is not finalized holds after `init key`
and some updates: the whole blocks `done` are in the accumulator, modulo `p`
(`Accumulated`), and the rest `pend`, shorter than a block, waits in the first `leftover`
bytes of the buffer. `update` moves it by the bytes given (`update_spec`), whatever the
leftover and however the bytes straddle block boundaries, and `finalize` returns
`rfcTag key (done ++ pend)` (`finalize_spec`).

The one-shot `poly1305` and any run of updates then a finalize give the RFC tag of the
concatenation. Of the key, the state keeps exactly the clamped `r` and `s`
(`init_eq_init_iff`).
-/

namespace OrionMac.Poly1305

-- ---------------------------------------------------------------------------
-- Bytes in and out
-- ---------------------------------------------------------------------------

theorem take_succ_set {l : List α} {i : Nat} (h : i < l.length) (x : α) :
    (l.set i x).take (i + 1) = l.take i ++ [x] := by
  rw [List.set_eq_take_append_cons_drop, if_pos h, List.take_append_eq_append_take, List.take_take,
    Nat.min_eq_right (Nat.le_succ i), List.length_take, Nat.min_eq_left h.le, Nat.add_sub_cancel_left]
  rfl

theorem copyInto_take {n : Nat} (bs : List UInt8) :
    ∀ (buffer : Mathlib.Vector UInt8 n) (start : Nat), start + bs.length ≤ n →
      ∃ v, copyInto buffer start bs = .ok v ∧
        v.toList.take (start + bs.length) = buffer.toList.take start ++ bs := by
  induction bs with
  | nil => exact fun buffer start _ => ⟨buffer, rfl, by simp⟩
  | cons b bs ih =>
    intro buffer start h
    have hs : start < n := by simp only [List.length_cons] at h; omega
    obtain ⟨v, hv, htake⟩ := ih (buffer.set ⟨start, hs⟩ b) (start + 1)
      (by simp only [List.length_cons] at h; omega)
    refine ⟨v, by rw [copyInto, setAt_of_lt hs, ok_bind, hv], ?_⟩
    rw [List.length_cons, ← Nat.add_assoc, Nat.add_right_comm, htake, Mathlib.Vector.toList_set,
      take_succ_set (by simpa using hs), List.append_assoc, List.singleton_append]

theorem littleEndian_replicate_zero (k : Nat) : littleEndian (List.replicate k 0) = 0 := by
  induction k with
  | zero => rfl
  | succ k ih => simp [List.replicate_succ, ih]

theorem lastBlock_eq {buffer : Mathlib.Vector UInt8 16} {lo : Nat} (h : lo < 16) :
    (zeroFrom (buffer.set ⟨lo, h⟩ 1) (lo + 1)).toList =
      buffer.toList.take lo ++ 1 :: List.replicate (15 - lo) 0 := by
  rw [zeroFrom, Mathlib.Vector.toList_mk, Mathlib.Vector.toList_set,
    take_succ_set (by simpa using h), List.append_assoc, List.singleton_append,
    show 16 - (lo + 1) = 15 - lo by omega]

theorem value_s_initializeKey (st : Poly1305) (key : OneTimeKey) :
    (initializeKey st key).s.toNat.value = padS key := by
  have hk : littleEndian key.unprotectedAsBytes < 2 ^ 256 := by
    simpa [poly1305Keysize] using littleEndian_lt key.unprotectedAsBytes
  simp only [initializeKey, Words.toNat, Words.value, uint32_toNat_ofNat, padS, littleEndian_drop,
    readU32_slice _ 16 20 rfl, readU32_slice _ 20 24 rfl, readU32_slice _ 24 28 rfl,
    readU32_slice _ 28 32 rfl]
  omega

-- ---------------------------------------------------------------------------
-- The key schedule
-- ---------------------------------------------------------------------------

theorem Limbs.eq_of_value_eq {x y : Limbs Nat} (hx : RBound x) (hy : RBound y)
    (h : x.value = y.value) : x = y := by
  obtain ⟨x0, x1, x2, x3, x4⟩ := x
  obtain ⟨y0, y1, y2, y3, y4⟩ := y
  obtain ⟨_, _, _, _, _⟩ := hx
  obtain ⟨_, _, _, _, _⟩ := hy
  simp only [Limbs.value, Limbs.mk.injEq] at *
  omega

theorem Words.eq_of_value_eq {x y : Words Nat} (hx : x.AllLt (2 ^ 32)) (hy : y.AllLt (2 ^ 32))
    (h : x.value = y.value) : x = y := by
  obtain ⟨x0, x1, x2, x3⟩ := x
  obtain ⟨y0, y1, y2, y3⟩ := y
  obtain ⟨_, _, _, _⟩ := hx
  obtain ⟨_, _, _, _⟩ := hy
  simp only [Words.value, Words.mk.injEq] at *
  omega

theorem Limbs.eq_of_toNat_eq {x y : Limbs UInt32} (h : x.toNat = y.toNat) : x = y := by
  obtain ⟨x0, x1, x2, x3, x4⟩ := x
  simp only [Limbs.toNat, Limbs.map, Limbs.mk.injEq] at h
  rw [UInt32.toNat.inj h.1, UInt32.toNat.inj h.2.1, UInt32.toNat.inj h.2.2.1,
    UInt32.toNat.inj h.2.2.2.1, UInt32.toNat.inj h.2.2.2.2]

theorem Words.eq_of_toNat_eq {x y : Words UInt32} (h : x.toNat = y.toNat) : x = y := by
  obtain ⟨x0, x1, x2, x3⟩ := x
  simp only [Words.toNat, Words.mk.injEq] at h
  rw [UInt32.toNat.inj h.1, UInt32.toNat.inj h.2.1, UInt32.toNat.inj h.2.2.1,
    UInt32.toNat.inj h.2.2.2]

/-- Two one-time keys give the same state exactly when they agree on the clamped `r` and on
`s`: `initialize` drops the bits the clamp clears, and nothing else of the key. -/
theorem init_eq_init_iff (k k' : OneTimeKey) :
    init k = init k' ↔ clampedR k = clampedR k' ∧ padS k = padS k' := by
  have hr : ∀ k, (init k).r.toNat.value = clampedR k := fun k => value_r_initializeKey _ k
  have hs : ∀ k, (init k).s.toNat.value = padS k := fun k => value_s_initializeKey _ k
  constructor
  · intro h
    exact ⟨by rw [← hr, ← hr, h], by rw [← hs, ← hs, h]⟩
  · rintro ⟨hc, hp⟩
    have hr' : (init k).r = (init k').r := Limbs.eq_of_toNat_eq <|
      Limbs.eq_of_value_eq (rBound_initializeKey _ k) (rBound_initializeKey _ k') (by rw [hr, hr, hc])
    have hs' : (init k).s = (init k').s := Words.eq_of_toNat_eq <|
      Words.eq_of_value_eq (Words.toNat_allLt _) (Words.toNat_allLt _) (by rw [hs, hs, hp])
    calc init k = { init k' with r := (init k).r, s := (init k).s } := rfl
      _ = init k' := by rw [hr', hs']

theorem writeU32Into_split (v : Nat) :
    writeU32Into [(Words.split v).w0, (Words.split v).w1, (Words.split v).w2, (Words.split v).w3] =
      leBytes 16 v := by
  obtain ⟨h0, h1, h2, h3⟩ := Words.split_allLt v
  refine eq_of_littleEndian_eq (by rw [length_writeU32Into, length_leBytes]; rfl) ?_
  simp only [writeU32Into, List.flatMap_cons, List.flatMap_nil, List.append_nil,
    littleEndian_append, littleEndian_u32Bytes h0, littleEndian_u32Bytes h1,
    littleEndian_u32Bytes h2, littleEndian_u32Bytes h3, littleEndian_leBytes]
  have := Words.value_split v
  simp only [Words.value, u32Bytes, List.length_cons, List.length_nil] at this ⊢
  omega

-- ---------------------------------------------------------------------------
-- The accumulator
-- ---------------------------------------------------------------------------

structure Accumulated (key : OneTimeKey) (done : List UInt8) (a : Limbs UInt32) : Prop where
  whole : done.length % 16 = 0
  bound : AccBound a.toNat
  value : a.toNat.value % p = accumulate (clampedR key) 0 (chunks done)

section
variable {key : OneTimeKey}

theorem processBlock_step {st : Poly1305} (ha : AccBound st.a.toNat) (hr : st.r = (init key).r)
    {data : List UInt8} (hd : data.length = 16) :
    ∃ a, processBlock st data = .ok (.ok { st with a := a }) ∧ AccBound a.toNat ∧
      a.toNat.value % p = (st.a.toNat.value % p + littleEndian data +
        (if st.isFinalized then 0 else 2 ^ 128)) * clampedR key % p := by
  have hR : RBound st.r.toNat := hr ▸ rBound_initializeKey _ key
  have hh := hiBit_ite st.isFinalized
  have hb := processBlockNat_bound ha hR hd hh
  refine ⟨_, processBlock_eq ha hR hd, by rwa [AccBound.toNat_ofNat hb], ?_⟩
  have hv : st.r.toNat.value = clampedR key := by rw [hr]; exact value_r_initializeKey _ key
  have hH : 2 ^ 104 * (if st.isFinalized then 0 else 1 <<< 24) =
      if st.isFinalized then 0 else 2 ^ 128 := by cases st.isFinalized <;> rfl
  rw [AccBound.toNat_ofNat hb]
  refine (processBlockNat_modEq _ _ hd hh).trans ?_
  rw [hH, hv]
  exact (((Nat.mod_modEq _ _).symm.add_right _).add_right _).mul_right _

theorem Accumulated.processBlock {st : Poly1305} {done : List UInt8}
    (h : Accumulated key done st.a) (hr : st.r = (init key).r) (hf : st.isFinalized = false)
    {data : List UInt8} (hd : data.length = 16) :
    ∃ a, processBlock st data = .ok (.ok { st with a := a }) ∧ Accumulated key (done ++ data) a := by
  obtain ⟨a, hpb, hb, hv⟩ := processBlock_step h.bound hr hd
  refine ⟨a, hpb, ⟨by simp [hd, h.whole], hb, ?_⟩⟩
  rw [hv, h.value, hf, accumulate_chunks_append h.whole (List.ne_nil_of_length_pos (by omega))
    (by omega), hd]
  rfl

theorem absorbBlocks_spec {st : Poly1305} {done : List UInt8} (hr : st.r = (init key).r)
    (hf : st.isFinalized = false) (h : Accumulated key done st.a) (bytes : List UInt8) :
    ∃ a, absorbBlocks st bytes = .ok ({ st with a := a }, bytes.drop (bytes.length / 16 * 16)) ∧
      Accumulated key (done ++ bytes.take (bytes.length / 16 * 16)) a := by
  rw [absorbBlocks]
  split
  case isTrue hlen =>
    simp only [poly1305Blocksize] at hlen
    have hblock : (slice bytes 0 poly1305Blocksize).length = 16 := by
      simp [slice, poly1305Blocksize]; omega
    obtain ⟨a₁, hpb, h₁⟩ := h.processBlock hr hf hblock
    obtain ⟨a₂, hrest, h₂⟩ := @absorbBlocks_spec { st with a := a₁ } _ hr hf h₁
      (bytes.drop poly1305Blocksize)
    have hk : bytes.length / 16 * 16 = 16 + (bytes.length - 16) / 16 * 16 := by omega
    refine ⟨a₂, ?_, ?_⟩
    · rw [hpb, ok_bind, unwrap_ok, ok_bind, hrest]
      simp only [poly1305Blocksize, List.length_drop, List.drop_drop, hk]
    · simpa only [slice, poly1305Blocksize, List.drop_zero, Nat.sub_zero, List.length_drop,
        List.append_assoc, hk, List.take_add] using h₂
  case isFalse hlen =>
    have hk : bytes.length / 16 * 16 = 0 := by simp only [poly1305Blocksize] at hlen; omega
    exact ⟨st.a, by rw [hk, List.drop_zero], by simpa [hk] using h⟩
termination_by bytes.length
decreasing_by simp only [poly1305Blocksize, List.length_drop] at *; omega

structure Absorbs (key : OneTimeKey) (done pend : List UInt8) (st : Poly1305) : Prop where
  r : st.r = (init key).r
  s : st.s = (init key).s
  isFinalized : st.isFinalized = false
  acc : Accumulated key done st.a
  pend_lt : pend.length < 16
  leftover : st.leftover = pend.length
  buffer : st.buffer.toList.take st.leftover = pend

theorem absorbs_init (key : OneTimeKey) : Absorbs key [] [] (init key) :=
  ⟨rfl, rfl, rfl, ⟨rfl, show AccBound (Limbs.toNat ⟨0, 0, 0, 0, 0⟩) by decide, by rw [chunks_nil]; rfl⟩,
    by decide, rfl, rfl⟩

theorem absorbRest_spec {st : Poly1305} {done : List UInt8} (hr : st.r = (init key).r)
    (hs : st.s = (init key).s) (hf : st.isFinalized = false) (h : Accumulated key done st.a)
    (bytes : List UInt8) :
    ∃ st', absorbRest st bytes = .ok (.ok (), st') ∧
      Absorbs key (done ++ bytes.take (bytes.length / 16 * 16))
        (bytes.drop (bytes.length / 16 * 16)) st' := by
  obtain ⟨a, hab, ha⟩ := absorbBlocks_spec hr hf h bytes
  have hlt : (bytes.drop (bytes.length / 16 * 16)).length < 16 := by
    simp only [List.length_drop]; omega
  rw [absorbRest, hab, ok_bind]
  dsimp only
  rw [copyPrefix_of_le (by simp only [poly1305Blocksize]; omega), ok_bind]
  exact ⟨_, rfl, hr, hs, hf, ha, hlt, rfl, List.take_left' rfl⟩

theorem update_spec {st : Poly1305} {done pend : List UInt8} (h : Absorbs key done pend st)
    (data : List UInt8) :
    ∃ done' pend' st', update st data = .ok (.ok (), st') ∧ Absorbs key done' pend' st' ∧
      done' ++ pend' = done ++ pend ++ data := by
  have hlt : st.leftover < 16 := h.leftover ▸ h.pend_lt
  rw [update, if_neg (by simp [h.isFinalized])]
  by_cases hlo : st.leftover = 0
  case pos =>
    have hp : pend = [] := List.length_eq_zero.mp (h.leftover ▸ hlo)
    subst hp
    obtain ⟨st', hst', habs⟩ := absorbRest_spec h.r h.s h.isFinalized h.acc data
    exact ⟨_, _, st', by rw [if_neg (not_not.mpr hlo), hst'], habs, by simp⟩
  case neg =>
    rw [if_pos hlo]
    simp only [poly1305Blocksize, checkedSub_of_le hlt.le, ok_bind]
    generalize hw : min (16 - st.leftover) data.length = want
    have hwl : (data.take want).length = want := by rw [List.length_take]; omega
    obtain ⟨v, hv, htake⟩ := copyInto_take (data.take want) st.buffer st.leftover
      (by rw [hwl]; simp only [poly1305Blocksize]; omega)
    rw [hwl, h.buffer] at htake
    rw [hv, ok_bind]
    split
    case isTrue hshort =>
      -- the bytes only fill the buffer further
      have hall : want = data.length := by omega
      subst hall
      rw [List.take_length] at htake
      refine ⟨done, pend ++ data, _, rfl, ⟨h.r, h.s, h.isFinalized, h.acc, ?_, ?_, htake⟩, by simp⟩
      · simp only [List.length_append, ← h.leftover]; omega
      · simp only [List.length_append, ← h.leftover]
    case isFalse hfull =>
      -- the buffer fills a block, absorbed before the rest of the bytes
      have hblock : v.toList = pend ++ data.take want := by
        rw [← htake, show st.leftover + want = 16 by omega,
          List.take_of_length_le (by simp [poly1305Blocksize])]
      obtain ⟨a, hpb, ha⟩ := @Accumulated.processBlock key
        { st with buffer := v, leftover := st.leftover + want } done h.acc h.r h.isFinalized v.toList
        (by simp [poly1305Blocksize])
      obtain ⟨st', hst', habs⟩ := @absorbRest_spec key { st with buffer := v, a := a, leftover := 0 }
        _ h.r h.s h.isFinalized ha (data.drop want)
      refine ⟨_, _, st', by rw [hpb, ok_bind, unwrap_ok, ok_bind]; exact hst', habs, ?_⟩
      simp only [hblock, List.append_assoc, List.take_append_drop]

theorem processLastBlock_spec {st : Poly1305} {done pend : List UInt8} (h : Absorbs key done pend st) :
    ∃ a, processLastBlock { st with isFinalized := true } = .ok { st with isFinalized := true, a := a } ∧
      AccBound a.toNat ∧ a.toNat.value % p = accumulate (clampedR key) 0 (chunks (done ++ pend)) := by
  have hlt : st.leftover < 16 := h.leftover ▸ h.pend_lt
  rw [processLastBlock]
  by_cases hlo : st.leftover = 0
  case pos =>
    have hp : pend = [] := List.length_eq_zero.mp (h.leftover ▸ hlo)
    subst hp
    exact ⟨st.a, by rw [if_neg (not_not.mpr hlo)], h.acc.bound, by rw [List.append_nil]; exact h.acc.value⟩
  case neg =>
    have hblock := @lastBlock_eq st.buffer _ hlt
    rw [h.buffer] at hblock
    have hlen : (pend ++ 1 :: List.replicate (15 - st.leftover) 0).length = 16 := by
      simp [← h.leftover]; omega
    obtain ⟨a, hpb, hb, hv⟩ := @processBlock_step key { st with isFinalized := true }
      h.acc.bound h.r _ hlen
    refine ⟨a, ?_, hb, ?_⟩
    · simp only [if_pos hlo, setAt_of_lt (show st.leftover < poly1305Blocksize from hlt), ok_bind]
      rw [hblock, hpb, ok_bind, unwrap_ok]
    · have hpend : pend ≠ [] := fun hp => hlo (by rw [h.leftover, hp]; rfl)
      rw [hv, h.acc.value, accumulate_chunks_append h.acc.whole hpend h.pend_lt.le,
        littleEndian_append, littleEndian_cons, littleEndian_replicate_zero, ← h.leftover]
      simp [Nat.add_assoc]

theorem finalize_spec {st : Poly1305} {done pend : List UInt8} (h : Absorbs key done pend st) :
    ∃ st', finalize st = .ok (.ok (rfcTag key (done ++ pend)), st') ∧ st'.isFinalized = true ∧
      st'.r = st.r ∧ st'.s = st.s ∧ st'.leftover = st.leftover := by
  obtain ⟨a, hlast, hb, hv⟩ := processLastBlock_spec h
  have hs : st.s.toNat.value = padS key := by rw [h.s]; exact value_s_initializeKey _ key
  rw [finalize, if_neg (by simp [h.isFinalized])]
  simp only [hlast, ok_bind, @processEndOfStream_eq { st with isFinalized := true, a := a } hb]
  simp only [uint32_toNat_ofNat, Nat.mod_eq_of_lt (Words.split_allLt _).w0,
    Nat.mod_eq_of_lt (Words.split_allLt _).w1, Nat.mod_eq_of_lt (Words.split_allLt _).w2,
    Nat.mod_eq_of_lt (Words.split_allLt _).w3, writeU32Into_split]
  rw [MacTag.fromSlice_of_length
      (show (leBytes 16 _).length = poly1305Blocksize from length_leBytes _ _),
    unwrap_ok, ok_bind, rfcTag_eq, ← hv, ← hs]
  exact ⟨_, rfl, rfl, rfl, rfl, rfl⟩

theorem update_finalize {st : Poly1305} {done pend : List UInt8} (h : Absorbs key done pend st)
    (data : List UInt8) :
    ∃ st₁ st₂, update st data = .ok (.ok (), st₁) ∧
      finalize st₁ = .ok (.ok (rfcTag key (done ++ pend ++ data)), st₂) := by
  obtain ⟨done', pend', st₁, hu, h₁, hcat⟩ := update_spec h data
  obtain ⟨st₂, hf, -⟩ := finalize_spec h₁
  exact ⟨st₁, st₂, hu, hcat ▸ hf⟩

-- ---------------------------------------------------------------------------
-- Calls
-- ---------------------------------------------------------------------------

theorem step_update {st : Poly1305} {done pend : List UInt8} (h : Absorbs key done pend st)
    (data : List UInt8) :
    ∃ done' pend' st', step st (.update data) = .ok (.ok none, st') ∧ Absorbs key done' pend' st' ∧
      done' ++ pend' = done ++ pend ++ data := by
  obtain ⟨done', pend', st', hu, h', hcat⟩ := update_spec h data
  exact ⟨done', pend', st', by rw [step, hu]; rfl, h', hcat⟩

theorem step_finalize {st : Poly1305} {done pend : List UInt8} (h : Absorbs key done pend st) :
    ∃ st', step st .finalize = .ok (.ok (some (rfcTag key (done ++ pend))), st') ∧
      st'.isFinalized = true ∧ st'.r = st.r ∧ st'.s = st.s ∧ st'.leftover = st.leftover := by
  obtain ⟨st', hf, h'⟩ := finalize_spec h
  exact ⟨st', by rw [step, hf]; rfl, h'⟩

theorem run_updates {st : Poly1305} {done pend : List UInt8} (h : Absorbs key done pend st)
    (ms : List (List UInt8)) :
    ∃ done' pend' st', run step st (ms.map Call.update) =
        .ok (List.replicate ms.length (.ok none), st') ∧ Absorbs key done' pend' st' ∧
      done' ++ pend' = done ++ pend ++ ms.flatten := by
  induction ms generalizing done pend st with
  | nil => exact ⟨done, pend, st, rfl, h, by simp⟩
  | cons m ms ih =>
    obtain ⟨d₁, p₁, st₁, hs₁, h₁, hc₁⟩ := step_update h m
    obtain ⟨d₂, p₂, st₂, hs₂, h₂, hc₂⟩ := ih h₁
    refine ⟨d₂, p₂, st₂, by rw [List.map_cons, run_cons _ _ hs₁, hs₂]; rfl, h₂, ?_⟩
    rw [hc₂, hc₁, List.flatten_cons, List.append_assoc, List.append_assoc]

end

-- ---------------------------------------------------------------------------
-- The one-shot tag, and a run of updates
-- ---------------------------------------------------------------------------

theorem poly1305_of_update_finalize {key : OneTimeKey} {m : List UInt8} {st₁ st₂ : Poly1305}
    {tag : Tag} (hu : (init key).update m = .ok (.ok (), st₁))
    (hf : st₁.finalize = .ok (.ok tag, st₂)) : poly1305 key m = .ok (.ok tag) := by
  rw [poly1305, hu]
  simp only [ok_bind, unwrap_ok, hf]

/-- `poly1305` returns `Ok` with the RFC 8439 tag, for every key and every message. -/
theorem poly1305_eq_rfcTag (key : OneTimeKey) (m : List UInt8) :
    poly1305 key m = .ok (.ok (rfcTag key m)) := by
  obtain ⟨st₁, st₂, hu, hf⟩ := update_finalize (absorbs_init key) m
  rw [List.nil_append, List.nil_append] at hf
  exact poly1305_of_update_finalize hu hf

/-- `init`, then `update` with each piece (each returning `Ok`), then `finalize`, returns the
tag the one-shot `poly1305` gives for the concatenation: its RFC 8439 tag. -/
theorem run_updates_finalize_eq_poly1305 (key : OneTimeKey) (ms : List (List UInt8)) :
    ∃ tag st, run step (init key) (ms.map Call.update ++ [Call.finalize]) =
        .ok (List.replicate ms.length (.ok none) ++ [.ok (some tag)], st) ∧
      poly1305 key ms.flatten = .ok (.ok tag) ∧ tag = rfcTag key ms.flatten := by
  obtain ⟨done, pend, st, hrun, habs, hcat⟩ := run_updates (absorbs_init key) ms
  obtain ⟨st', hfin, -⟩ := step_finalize habs
  obtain ⟨st₁, st₂, hu, hf⟩ := update_finalize (absorbs_init key) ms.flatten
  rw [List.nil_append, List.nil_append] at hcat hf
  refine ⟨rfcTag key ms.flatten, st', ?_, poly1305_of_update_finalize hu hf, rfl⟩
  rw [run_append hrun, run_cons _ _ hfin, hcat]
  rfl

/-- `verify` answers `Ok(true)` exactly for the RFC 8439 tag, and `Err` for any other tag,
never `Ok(false)`. -/
theorem verify_eq_rfcTag (expected : Tag) (key : OneTimeKey) (m : List UInt8) :
    verify expected key m = .ok (if rfcTag key m = expected then .ok true else .error {}) := by
  obtain ⟨st₁, st₂, hu, hf⟩ := update_finalize (absorbs_init key) m
  rw [List.nil_append, List.nil_append] at hf
  rw [verify, poly1305_of_update_finalize hu hf]
  rfl

end OrionMac.Poly1305
