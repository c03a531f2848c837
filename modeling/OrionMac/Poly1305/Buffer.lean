import OrionMac.Poly1305.Stream

/-!
# The buffer past `leftover` is never read

`update` keeps the bytes it has not absorbed yet in the first `leftover` bytes of `buffer`;
what stands after them is left from earlier blocks, or the zeros of `reset`. `finalize`
pads its copy of the buffer with a `1` byte and zeros before the last block, so none of it
reaches the tag. `Agree st st'` says that two states differ at most in those bytes.

Each call is taken apart into what it runs, one `_lift` lemma each: `process_block` reads only
`a`, `r` and `is_finalized` and changes only `a`; the end of `update` sets the buffer and
`leftover` without reading them; the last block of `finalize` is the buffered bytes, a `1`
and zeros.

* `run_agree`: from two agreeing states, every sequence of calls returns the same, call by
  call, or panics alike, and ends in agreeing states. This holds of every state, reachable
  or not.
* `update_append`: `update` with `a ++ b` returns what `update` with `a` and then with `b`
  returns, and ends in a state that agrees with theirs: the same limbs, not only the same
  value modulo `p`. This holds of every state with at most a block buffered. Both sides are
  the end of `update` on the buffered bytes followed by the new ones
  (`update_lift_absorbRest`).
-/

namespace OrionMac.Poly1305

/-- Two states that differ at most in the bytes of `buffer` at or past `leftover`. -/
structure Agree (st st' : Poly1305) : Prop where
  a : st.a = st'.a
  r : st.r = st'.r
  s : st.s = st'.s
  leftover : st.leftover = st'.leftover
  buffer : st.buffer.toList.take st.leftover = st'.buffer.toList.take st.leftover
  isFinalized : st.isFinalized = st'.isFinalized

namespace Agree

variable {st st' : Poly1305}

theorem refl (st : Poly1305) : Agree st st := ⟨rfl, rfl, rfl, rfl, rfl, rfl⟩

theorem eq_setBuffer (h : Agree st st') : st' = { st with buffer := st'.buffer } := by
  obtain ⟨a, r, s, l, b, f⟩ := st
  obtain ⟨a', r', s', l', b', f'⟩ := st'
  obtain ⟨rfl, rfl, rfl, rfl, -, rfl⟩ := h
  rfl

theorem setA (h : Agree st st') (x : Limbs UInt32) :
    Agree { st with a := x } { st' with a := x } :=
  ⟨rfl, h.r, h.s, h.leftover, h.buffer, h.isFinalized⟩

theorem setFinalized (h : Agree st st') (b : Bool) :
    Agree { st with isFinalized := b } { st' with isFinalized := b } :=
  ⟨h.a, h.r, h.s, h.leftover, h.buffer, rfl⟩

theorem reset (h : Agree st st') : Agree st.reset st'.reset := ⟨rfl, h.r, h.s, rfl, rfl, rfl⟩

theorem symm (h : Agree st st') : Agree st' st :=
  ⟨h.a.symm, h.r.symm, h.s.symm, h.leftover.symm, by rw [← h.leftover]; exact h.buffer.symm,
    h.isFinalized.symm⟩

theorem trans {st'' : Poly1305} (h₁ : Agree st st') (h₂ : Agree st' st'') : Agree st st'' :=
  ⟨h₁.a.trans h₂.a, h₁.r.trans h₂.r, h₁.s.trans h₂.s, h₁.leftover.trans h₂.leftover,
    h₁.buffer.trans (by rw [h₁.leftover]; exact h₂.buffer), h₁.isFinalized.trans h₂.isFinalized⟩

end Agree

structure SameCore (st st' : Poly1305) : Prop where
  a : st.a = st'.a
  r : st.r = st'.r
  s : st.s = st'.s
  isFinalized : st.isFinalized = st'.isFinalized

theorem Agree.core {st st' : Poly1305} (h : Agree st st') : SameCore st st' :=
  ⟨h.a, h.r, h.s, h.isFinalized⟩

theorem SameCore.setA {st st' : Poly1305} (h : SameCore st st') (x : Limbs UInt32) :
    SameCore { st with a := x } { st' with a := x } :=
  ⟨rfl, h.r, h.s, h.isFinalized⟩

theorem SameCore.setBuffer (st : Poly1305) (b : Mathlib.Vector UInt8 poly1305Blocksize) (l : Nat) :
    SameCore st { st with buffer := b, leftover := l } :=
  ⟨rfl, rfl, rfl, rfl⟩

/-- Calls on agreeing states: the same result, and agreeing states after. -/
def SameResult (p q : α × Poly1305) : Prop := p.1 = q.1 ∧ Agree p.2 q.2

theorem SameResult.symm {p q : α × Poly1305} (h : SameResult p q) : SameResult q p :=
  ⟨h.1.symm, h.2.symm⟩

theorem SameResult.trans {p q u : α × Poly1305} (h₁ : SameResult p q) (h₂ : SameResult q u) :
    SameResult p u :=
  ⟨h₁.1.trans h₂.1, h₁.2.trans h₂.2⟩

-- ---------------------------------------------------------------------------
-- One call
-- ---------------------------------------------------------------------------

theorem copyInto_lift {n : Nat} (bs : List UInt8) :
    ∀ {b b' : Mathlib.Vector UInt8 n} {start : Nat},
      b.toList.take start = b'.toList.take start →
      Lift (fun v v' : Mathlib.Vector UInt8 n =>
          v.toList.take (start + bs.length) = v'.toList.take (start + bs.length))
        (copyInto b start bs) (copyInto b' start bs) := by
  induction bs with
  | nil => exact fun h => h
  | cons x bs ih =>
    intro b b' start h
    simp only [copyInto]
    by_cases hs : start < n
    · rw [setAt_of_lt hs, setAt_of_lt hs, ok_bind, ok_bind]
      refine (ih ?_).imp fun v v' hv => ?_
      · rw [Mathlib.Vector.toList_set, Mathlib.Vector.toList_set, take_succ_set (by simpa using hs),
          take_succ_set (by simpa using hs), h]
      · rwa [List.length_cons, ← Nat.add_assoc, Nat.add_right_comm]
    · simp only [setAt, dif_neg hs]
      rfl

theorem processBlock_lift {st st' : Poly1305} (h : SameCore st st') (R : Poly1305 → Poly1305 → Prop)
    (hR : ∀ x, R { st with a := x } { st' with a := x }) (data : List UInt8) :
    Lift (Lift R) (processBlock st data) (processBlock st' data) := by
  obtain ⟨a, r, s, l, b, f⟩ := st
  obtain ⟨a', r', s', l', b', f'⟩ := st'
  obtain ⟨rfl, rfl, -, rfl⟩ := h
  rw [processBlock, processBlock]
  by_cases hd : data.length ≠ poly1305Blocksize
  · rw [if_pos hd, if_pos hd]
    rfl
  · rw [if_neg hd, if_neg hd]
    exact Lift.bind_same _ fun _ => Lift.bind_same _ fun _ => Lift.bind_same _ fun _ => hR _

theorem absorbBlocks_lift {st st' : Poly1305} (h : SameCore st st') (bytes : List UInt8) :
    Lift (fun p q => SameCore p.1 q.1 ∧ p.2 = q.2) (absorbBlocks st bytes)
      (absorbBlocks st' bytes) := by
  rw [absorbBlocks, absorbBlocks]
  split_ifs
  · exact (processBlock_lift h SameCore h.setA _).bind fun _ _ hr => hr.unwrap.bind fun _ _ ht =>
      absorbBlocks_lift ht _
  · exact ⟨h, rfl⟩
termination_by bytes.length
decreasing_by simp only [poly1305Blocksize, List.length_drop] at *; omega

theorem absorbRest_lift {st st' : Poly1305} (h : SameCore st st') (bytes : List UInt8) :
    Lift SameResult (absorbRest st bytes) (absorbRest st' bytes) := by
  rw [absorbRest, absorbRest]
  refine (absorbBlocks_lift h bytes).bind ?_
  rintro ⟨t, rest⟩ ⟨t', rest'⟩ ⟨ht, rfl⟩
  dsimp only
  by_cases hle : rest.length ≤ poly1305Blocksize
  · rw [copyPrefix_of_le hle, copyPrefix_of_le hle]
    exact ⟨rfl, ht.a, ht.r, ht.s, rfl, by simp, ht.isFinalized⟩
  · simp only [copyPrefix, dif_neg hle]
    rfl

theorem update_lift {st st' : Poly1305} (h : Agree st st') (data : List UInt8) :
    Lift SameResult (update st data) (update st' data) := by
  obtain ⟨b', rfl⟩ : ∃ b', st' = { st with buffer := b' } := ⟨_, h.eq_setBuffer⟩
  rw [update, update]
  dsimp only
  split_ifs with hf hl
  · exact ⟨rfl, h⟩
  · refine Lift.bind_same _ fun w => (copyInto_lift _ h.buffer).bind fun v v' hv => ?_
    have hw : (data.take (min w data.length)).length = min w data.length := by
      rw [List.length_take]; omega
    rw [hw] at hv
    split_ifs with hlt
    · exact ⟨rfl, rfl, rfl, rfl, rfl, hv, rfl⟩
    · -- a whole block: the two buffers are the same
      have hL : poly1305Blocksize ≤ st.leftover + min w data.length := by omega
      have hvv : v = v' := Mathlib.Vector.toList_injective (by
        rwa [List.take_of_length_le (by simpa using hL),
          List.take_of_length_le (by simpa using hL)] at hv)
      subst hvv
      exact (processBlock_lift ⟨rfl, rfl, rfl, rfl⟩ SameCore (fun _ => ⟨rfl, rfl, rfl, rfl⟩) _).bind
        fun _ _ hr => hr.unwrap.bind fun t t' ht =>
          @absorbRest_lift { t with leftover := 0 } { t' with leftover := 0 } ⟨ht.a, ht.r, ht.s,
            ht.isFinalized⟩ _
  · exact absorbRest_lift h.core data

theorem processLastBlock_lift {st st' : Poly1305} (h : Agree st st') :
    Lift Agree (processLastBlock st) (processLastBlock st') := by
  obtain ⟨b', rfl⟩ : ∃ b', st' = { st with buffer := b' } := ⟨_, h.eq_setBuffer⟩
  rw [processLastBlock, processLastBlock]
  dsimp only
  split_ifs
  · by_cases hs : st.leftover < poly1305Blocksize
    · rw [setAt_of_lt hs, setAt_of_lt hs, ok_bind, ok_bind]
      have hlast : zeroFrom (b'.set ⟨_, hs⟩ 1) (st.leftover + 1) =
          zeroFrom (st.buffer.set ⟨_, hs⟩ 1) (st.leftover + 1) :=
        Mathlib.Vector.toList_injective (by rw [lastBlock_eq hs, lastBlock_eq hs, ← h.buffer])
      rw [hlast]
      exact (processBlock_lift h.core Agree h.setA _).bind fun _ _ hr => hr.unwrap
    · simp only [setAt, dif_neg hs]
      rfl
  · exact h

theorem processEndOfStream_lift {st st' : Poly1305} (h : Agree st st') :
    Lift Agree st.processEndOfStream st'.processEndOfStream := by
  obtain ⟨b', rfl⟩ : ∃ b', st' = { st with buffer := b' } := ⟨_, h.eq_setBuffer⟩
  rw [processEndOfStream, processEndOfStream]
  exact Lift.bind_same _ fun _ => Lift.bind_same _ fun _ => h.setA _

theorem finalize_lift {st st' : Poly1305} (h : Agree st st') :
    Lift SameResult st.finalize st'.finalize := by
  obtain ⟨b', rfl⟩ : ∃ b', st' = { st with buffer := b' } := ⟨_, h.eq_setBuffer⟩
  rw [finalize, finalize]
  dsimp only
  split_ifs
  · exact ⟨rfl, h⟩
  · refine (processLastBlock_lift (h.setFinalized true)).bind fun _ _ ht =>
      (processEndOfStream_lift ht).bind fun u u' hu => ?_
    obtain ⟨b'', rfl⟩ : ∃ b'', u' = { u with buffer := b'' } := ⟨_, hu.eq_setBuffer⟩
    exact Lift.bind_same _ fun _ => ⟨rfl, hu⟩

theorem step_lift {st st' : Poly1305} (h : Agree st st') (c : Call) :
    Lift SameResult (step st c) (step st' c) := by
  cases c with
  | update d =>
    exact (update_lift h d).map fun (_, _) (_, _) ⟨e, ht⟩ => ⟨congrArg (Except.map _) e, ht⟩
  | finalize =>
    exact (finalize_lift h).map fun (_, _) (_, _) ⟨e, ht⟩ => ⟨congrArg (Except.map _) e, ht⟩
  | reset => exact ⟨rfl, h.reset⟩

-- ---------------------------------------------------------------------------
-- Every run
-- ---------------------------------------------------------------------------

/-- From two states that differ at most in the buffer past `leftover`, every sequence of
calls returns the same, call by call, or panics alike, and ends in states that again differ
at most there. -/
theorem run_agree {st st' : Poly1305} (h : Agree st st') (calls : List Call) :
    Lift SameResult (run step st calls) (run step st' calls) :=
  run_lift Agree (fun _ _ c h => step_lift h c) h calls

/-- A state of `init onesKey`, whose clamped `r` and pad `s` are not zero, with the bytes
`1, 2, 3` buffered and `fill` in the rest of the buffer. -/
def pendingState (fill : UInt8) : Poly1305 :=
  { init onesKey with
    leftover := 3, buffer := ⟨[1, 2, 3] ++ List.replicate 13 fill, by simp [poly1305Blocksize]⟩ }

theorem run_agree_pending :
    Agree (pendingState 0) (pendingState 0xff) ∧
      Lift SameResult (run step (pendingState 0) [.update [4], .finalize, .reset, .finalize])
        (run step (pendingState 0xff) [.update [4], .finalize, .reset, .finalize]) :=
  ⟨⟨rfl, rfl, rfl, rfl, rfl, rfl⟩,
    @run_agree (pendingState 0) (pendingState 0xff) ⟨rfl, rfl, rfl, rfl, rfl, rfl⟩
      [.update [4], .finalize, .reset, .finalize]⟩

-- ---------------------------------------------------------------------------
-- `update` as a stream of bytes
-- ---------------------------------------------------------------------------

theorem absorbBlocks_of_lt {st : Poly1305} {bytes : List UInt8}
    (h : bytes.length < poly1305Blocksize) : absorbBlocks st bytes = .ok (st, bytes) := by
  rw [absorbBlocks, if_neg (Nat.not_le.mpr h)]

theorem absorbBlocks_of_le {st : Poly1305} {bytes : List UInt8}
    (h : poly1305Blocksize ≤ bytes.length) :
    absorbBlocks st bytes = (do
      let st ← unwrap (← st.processBlock (slice bytes 0 poly1305Blocksize))
      absorbBlocks st (bytes.drop poly1305Blocksize)) := by
  rw [absorbBlocks, if_pos h]

theorem absorbRest_of_le {st : Poly1305} {bytes : List UInt8}
    (h : poly1305Blocksize ≤ bytes.length) :
    absorbRest st bytes = (do
      let st ← unwrap (← st.processBlock (slice bytes 0 poly1305Blocksize))
      absorbRest st (bytes.drop poly1305Blocksize)) := by
  rw [absorbRest, absorbBlocks_of_le h, bind_assoc]
  refine bind_congr fun _ => ?_
  rw [bind_assoc]
  rfl

theorem processBlock_frame {st t : Poly1305} {data : List UInt8}
    (h : processBlock st data = .ok (.ok t)) : t = { st with a := t.a } := by
  rw [processBlock] at h
  by_cases hd : data.length ≠ poly1305Blocksize
  · rw [if_pos hd] at h
    cases h
  · rw [if_neg hd] at h
    obtain ⟨_, -, h⟩ := bind_eq_ok.mp h
    obtain ⟨_, -, h⟩ := bind_eq_ok.mp h
    obtain ⟨_, -, h⟩ := bind_eq_ok.mp h
    cases h
    rfl

theorem absorbBlocks_frame {st t : Poly1305} {bytes rest : List UInt8}
    (h : absorbBlocks st bytes = .ok (t, rest)) :
    t = { st with a := t.a } ∧ rest.length < poly1305Blocksize := by
  by_cases hb : poly1305Blocksize ≤ bytes.length
  · rw [absorbBlocks_of_le hb] at h
    obtain ⟨r, hr, h⟩ := bind_eq_ok.mp h
    obtain ⟨t₁, ht₁, h⟩ := bind_eq_ok.mp h
    cases r with
    | error => cases ht₁
    | ok t₀ =>
      cases ht₁
      obtain ⟨ht, hrest⟩ := absorbBlocks_frame h
      exact ⟨by rw [ht, processBlock_frame hr], hrest⟩
  · rw [absorbBlocks_of_lt (Nat.lt_of_not_le hb)] at h
    cases h
    exact ⟨rfl, Nat.lt_of_not_le hb⟩
termination_by bytes.length
decreasing_by simp only [poly1305Blocksize, List.length_drop] at *; omega

theorem absorbRest_frame {st : Poly1305} {bytes : List UInt8}
    {q : Except FinalizationCryptoError Unit × Poly1305} (h : absorbRest st bytes = .ok q) :
    q.2.isFinalized = st.isFinalized ∧ q.2.leftover < poly1305Blocksize := by
  rw [absorbRest] at h
  obtain ⟨⟨t, rest⟩, hab, h⟩ := bind_eq_ok.mp h
  obtain ⟨ht, hrest⟩ := absorbBlocks_frame hab
  obtain ⟨v, -, h⟩ := bind_eq_ok.mp h
  cases h
  exact ⟨show t.isFinalized = st.isFinalized by rw [ht], hrest⟩

theorem absorbBlocks_append (st : Poly1305) (x y : List UInt8) :
    absorbBlocks st (x ++ y) = absorbBlocks st x >>= fun p => absorbBlocks p.1 (p.2 ++ y) := by
  by_cases hx : poly1305Blocksize ≤ x.length
  · have hxy : poly1305Blocksize ≤ (x ++ y).length := by
      simp only [List.length_append]; omega
    have hs : slice (x ++ y) 0 poly1305Blocksize = slice x 0 poly1305Blocksize := by
      simp only [slice, List.drop_zero, Nat.sub_zero]
      exact List.take_append_of_le_length hx
    rw [absorbBlocks_of_le hxy, absorbBlocks_of_le hx, hs]
    simp only [bind_assoc]
    refine bind_congr fun _ => bind_congr fun t => ?_
    rw [List.drop_append_of_le_length hx]
    exact absorbBlocks_append t _ y
  · rw [absorbBlocks_of_lt (Nat.lt_of_not_le hx), ok_bind]
termination_by x.length
decreasing_by simp only [poly1305Blocksize, List.length_drop] at *; omega

theorem absorbRest_append (st : Poly1305) (x y : List UInt8) :
    Lift SameResult (absorbRest st (x ++ y))
      (absorbRest st x >>= fun p =>
        absorbRest { p.2 with leftover := 0 } (p.2.buffer.toList.take p.2.leftover ++ y)) := by
  have e : absorbRest st (x ++ y) = absorbBlocks st x >>= fun p => absorbRest p.1 (p.2 ++ y) := by
    rw [absorbRest, absorbBlocks_append, bind_assoc]
    rfl
  rw [e, absorbRest, bind_assoc]
  refine Lift.bind_same_of _ ?_
  rintro ⟨t, rest⟩ hx
  dsimp only
  rw [copyPrefix_of_le (absorbBlocks_frame hx).2.le, ok_bind, ok_bind]
  dsimp only
  rw [Mathlib.Vector.toList_mk, List.take_left]
  exact absorbRest_lift (SameCore.setBuffer t _ 0) _

theorem update_lift_absorbRest {st : Poly1305} (hf : st.isFinalized = false)
    (hl : st.leftover ≤ 16) (data : List UInt8) :
    Lift SameResult (update st data)
      (absorbRest { st with leftover := 0 } (st.buffer.toList.take st.leftover ++ data)) := by
  have hpend : (st.buffer.toList.take st.leftover).length = st.leftover := by
    simp only [List.length_take, Mathlib.Vector.toList_length, poly1305Blocksize]; omega
  rw [update, if_neg (by simp [hf])]
  by_cases hl0 : st.leftover = 0
  case pos =>
    rw [if_neg (not_not.mpr hl0), hl0, List.take_zero, List.nil_append]
    exact absorbRest_lift (SameCore.setBuffer st st.buffer 0) data
  case neg =>
    rw [if_pos hl0]
    simp only [poly1305Blocksize, checkedSub_of_le hl, ok_bind]
    generalize hw : min (16 - st.leftover) data.length = want
    have hwl : (data.take want).length = want := by rw [List.length_take]; omega
    obtain ⟨v, hv, htake⟩ := copyInto_take (data.take want) st.buffer st.leftover
      (by rw [hwl]; simp only [poly1305Blocksize]; omega)
    rw [hwl] at htake
    rw [hv, ok_bind]
    split
    case isTrue hshort =>
      -- the bytes only fill the buffer further
      have hall : want = data.length := by omega
      subst hall
      rw [List.take_length] at htake
      have hlen : (st.buffer.toList.take st.leftover ++ data).length = st.leftover + data.length := by
        rw [List.length_append, hpend]
      rw [absorbRest, absorbBlocks_of_lt (by rw [hlen, poly1305Blocksize]; omega), ok_bind]
      dsimp only
      rw [copyPrefix_of_le (by rw [hlen, poly1305Blocksize]; omega), ok_bind]
      exact ⟨rfl, rfl, rfl, rfl, hlen.symm, by rw [htake, Mathlib.Vector.toList_mk,
        List.take_left' hlen], rfl⟩
    case isFalse hfull =>
      -- a whole block of the buffered bytes and `data`, then the rest of `data`
      have hwant : want = 16 - st.leftover := by omega
      have hv16 : v.toList.length ≤ st.leftover + want := by
        simp only [Mathlib.Vector.toList_length, poly1305Blocksize]; omega
      have hblock : v.toList = st.buffer.toList.take st.leftover ++ data.take want := by
        rw [← htake, List.take_of_length_le hv16]
      have hlen : poly1305Blocksize ≤ (st.buffer.toList.take st.leftover ++ data).length := by
        rw [List.length_append, hpend, poly1305Blocksize]; omega
      have hp16 : (st.buffer.toList.take st.leftover).length ≤ poly1305Blocksize := by
        rw [hpend, poly1305Blocksize]; omega
      have hs : slice (st.buffer.toList.take st.leftover ++ data) 0 poly1305Blocksize = v.toList := by
        rw [hblock, slice, List.drop_zero, Nat.sub_zero, List.take_append_eq_append_take,
          List.take_of_length_le hp16, hpend, hwant]
        rfl
      have hd : (st.buffer.toList.take st.leftover ++ data).drop poly1305Blocksize =
          data.drop want := by
        rw [List.drop_append_eq_append_drop, List.drop_eq_nil_of_le hp16, hpend, List.nil_append,
          hwant]
        rfl
      rw [absorbRest_of_le hlen, hs, hd]
      exact (@processBlock_lift { st with buffer := v, leftover := st.leftover + want }
        { st with leftover := 0 } ⟨rfl, rfl, rfl, rfl⟩ SameCore (fun _ => ⟨rfl, rfl, rfl, rfl⟩) _).bind
        fun _ _ hr => hr.unwrap.bind fun t t' ht =>
          @absorbRest_lift { t with leftover := 0 } t' ⟨ht.a, ht.r, ht.s, ht.isFinalized⟩ _

/-- `update` with `a ++ b` returns what `update` with `a` and then with `b` returns, and ends
in a state that agrees with theirs, on every state with at most a block buffered: both
panic alike, or both absorb the same blocks into the same limbs and buffer the same rest. -/
theorem update_append {st : Poly1305} (hl : st.leftover ≤ 16) (a b : List UInt8) :
    Lift SameResult (update st (a ++ b)) (update st a >>= fun p => update p.2 b) := by
  cases hf : st.isFinalized
  case true =>
    have e : ∀ d, update st d = .ok (.error {}, st) := fun d => by rw [update, if_pos hf]
    simp only [e, ok_bind]
    exact ⟨rfl, Agree.refl st⟩
  case false =>
    -- both sides are the end of `update` on the buffered bytes, then `a`, then `b`
    have hL := update_lift_absorbRest hf hl (a ++ b)
    rw [← List.append_assoc] at hL
    have hR : Lift SameResult (update st a >>= fun p => update p.2 b)
        (absorbRest { st with leftover := 0 } (st.buffer.toList.take st.leftover ++ a) >>= fun q =>
          absorbRest { q.2 with leftover := 0 } (q.2.buffer.toList.take q.2.leftover ++ b)) :=
      (update_lift_absorbRest hf hl a).bind_ok fun _ _ hpq hq =>
        (update_lift hpq.2 b).trans (update_lift_absorbRest ((absorbRest_frame hq).1.trans hf)
          (absorbRest_frame hq).2.le b) fun _ _ _ => SameResult.trans
    exact (hL.trans (absorbRest_append _ _ b) fun _ _ _ => SameResult.trans).trans hR.symm
      fun _ _ _ h₁ h₂ => h₁.trans h₂.symm

theorem update_append_pending :
    (pendingState 0).leftover ≤ 16 ∧
      Lift SameResult (update (pendingState 0) ([4, 5] ++ List.replicate 20 6))
        (update (pendingState 0) [4, 5] >>= fun p => update p.2 (List.replicate 20 6)) :=
  ⟨by decide, @update_append (pendingState 0) (by decide) [4, 5] (List.replicate 20 6)⟩

end OrionMac.Poly1305
