import OrionMac.Poly1305.Stream

/-!
# Every run of calls from `init key`

`Inv key` holds of every state reached from `init key` by any calls: the key material is
what `initialize` stored, the leftover count is below a block, and a state that is not
finalized `Absorbs` what it was given. `Poly1305.gate` shows that the calls keep it and
keep the finalization gate; with `Gate.run_spec` this gives, over every run:

* the limb bounds under which `process_block` and `process_end_of_stream` neither overflow
  nor truncate (`run_bounds_no_overflow`);
* that `reset` gives back the state `init` gave (`run_reset_eq_init`);
* that no call panics and `leftover` stays below 16 (`run_no_panic`).
-/

namespace OrionMac.Poly1305

structure Inv (key : OneTimeKey) (st : Poly1305) : Prop where
  r : st.r = (init key).r
  s : st.s = (init key).s
  leftover : st.leftover < 16
  absorbs : st.isFinalized = false → ∃ done pend, Absorbs key done pend st

section
variable {key : OneTimeKey}

theorem Absorbs.inv {st : Poly1305} {done pend : List UInt8} (h : Absorbs key done pend st) :
    Inv key st :=
  ⟨h.r, h.s, h.leftover ▸ h.pend_lt, fun _ => ⟨done, pend, h⟩⟩

theorem reset_eq_init {st : Poly1305} (hr : st.r = (init key).r) (hs : st.s = (init key).s) :
    st.reset = init key := by
  cases st
  subst hr hs
  rfl

theorem Inv.rBound {st : Poly1305} (h : Inv key st) : RBound st.r.toNat :=
  h.r ▸ rBound_initializeKey _ key

theorem Absorbs.step_finalize_inv {st : Poly1305} {done pend : List UInt8}
    (h : Absorbs key done pend st) :
    ∃ st', step st .finalize = .ok (.ok (some (rfcTag key (done ++ pend))), st') ∧ Inv key st' ∧
      st'.isFinalized = true := by
  obtain ⟨st', hs, hfin, hr, hs', hl⟩ := step_finalize h
  have hinv := h.inv
  refine ⟨st', hs, ⟨hr ▸ hinv.r, hs' ▸ hinv.s, hl ▸ hinv.leftover, fun h' => ?_⟩, hfin⟩
  simp [hfin] at h'

end

theorem gate (key : OneTimeKey) : Gate step (·.isFinalized) (Inv key) where
  refuse st c _ hf hc := by
    cases c with
    | update d => rw [step, update, if_pos hf]; rfl
    | finalize => rw [step, finalize, if_pos hf]; rfl
    | reset => exact absurd rfl hc
  update st d h hf := by
    obtain ⟨done, pend, habs⟩ := h.absorbs hf
    obtain ⟨_, _, st', hs, h', -⟩ := step_update habs d
    exact ⟨st', hs, h'.inv, h'.isFinalized⟩
  finalize st h hf := by
    obtain ⟨done, pend, habs⟩ := h.absorbs hf
    obtain ⟨st', hs, h', hfin⟩ := habs.step_finalize_inv
    exact ⟨_, st', hs, h', hfin⟩
  reset st h := ⟨st.reset, rfl, reset_eq_init h.r h.s ▸ (absorbs_init key).inv, rfl⟩

-- ---------------------------------------------------------------------------
-- No overflow
-- ---------------------------------------------------------------------------

/-- Over every run from `init key`: `r` stays within its clamp bound and, while the state is
not finalized (the only states from which `update` and `finalize` reach `process_block` and
`process_end_of_stream`), the accumulator within `AccBound`. Within these bounds
`process_block` on 16 bytes neither overflows nor truncates a cast, stores exactly what the
formulas compute over ℕ, and keeps `AccBound`; the checked additions and products of
`process_end_of_stream` (the full carry and the pad) do not overflow either. -/
theorem run_bounds_no_overflow (key : OneTimeKey) (calls : List Call) :
    (∃ rs st, run step (init key) calls = .ok (rs, st) ∧ RBound st.r.toNat ∧
      (st.isFinalized = false → AccBound st.a.toNat)) ∧
    (∀ st : Poly1305, AccBound st.a.toNat → RBound st.r.toNat →
      ∀ data : List UInt8, data.length = 16 →
      ∃ a, processBlock st data = .ok (.ok { st with a := a }) ∧
        a.toNat = processBlockNat st.a.toNat st.r.toNat data
          (if st.isFinalized then 0 else 1 <<< 24) ∧ AccBound a.toNat) ∧
    (∀ a : Limbs Nat, AccBound a → fullCarry a = .ok (fullCarryNat a)) ∧
    (∀ h s : Words Nat, h.AllLt (2 ^ 32) → s.AllLt (2 ^ 32) →
      addPad h s = .ok (Words.split (h.value + s.value))) := by
  obtain ⟨rs, st, hrun, h, -⟩ := (gate key).run_spec (absorbs_init key).inv calls
  refine ⟨⟨rs, st, hrun, h.rBound, fun hf => ?_⟩, fun st ha hr data hd => ?_,
    fun _ => fullCarry_eq, fun _ _ => addPad_eq⟩
  · obtain ⟨done, pend, habs⟩ := h.absorbs hf
    exact habs.acc.bound
  · have hb := processBlockNat_bound ha hr hd (hiBit_ite st.isFinalized)
    exact ⟨_, processBlock_eq ha hr hd, AccBound.toNat_ofNat hb, by rwa [AccBound.toNat_ofNat hb]⟩

-- ---------------------------------------------------------------------------
-- reset
-- ---------------------------------------------------------------------------

/-- Over every run from `init key`, no call has changed `r` or `s`, and `reset` gives back
the state `init key` gave, in every field; a second `reset` changes nothing. -/
theorem run_reset_eq_init (key : OneTimeKey) (calls : List Call) :
    ∃ rs st, run step (init key) calls = .ok (rs, st) ∧ st.r = (init key).r ∧
      st.s = (init key).s ∧ st.reset = init key ∧ st.reset.reset = st.reset := by
  obtain ⟨rs, st, hrun, h, -⟩ := (gate key).run_spec (absorbs_init key).inv calls
  exact ⟨rs, st, hrun, h.r, h.s, reset_eq_init h.r h.s, rfl⟩

-- ---------------------------------------------------------------------------
-- No panic
-- ---------------------------------------------------------------------------

/-- No run from `init key` panics (no subtraction underflows, no index is out of bounds, no
`unwrap` meets an `Err`, so every `process_block` gets 16 bytes), and `leftover` stays at
most 15; the one-shot `poly1305` does not panic either. -/
theorem run_no_panic (key : OneTimeKey) (calls : List Call) :
    (∃ rs st, run step (init key) calls = .ok (rs, st) ∧ st.leftover ≤ 15) ∧
    ∀ m : List UInt8, ∃ tag, poly1305 key m = .ok (.ok tag) := by
  obtain ⟨rs, st, hrun, h, -⟩ := (gate key).run_spec (absorbs_init key).inv calls
  refine ⟨⟨rs, st, hrun, Nat.le_of_lt_succ h.leftover⟩, fun m => ?_⟩
  obtain ⟨st₁, st₂, hu, hf⟩ := update_finalize (absorbs_init key) m
  exact ⟨_, poly1305_of_update_finalize hu hf⟩

end OrionMac.Poly1305
