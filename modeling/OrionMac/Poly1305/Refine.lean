import OrionMac.Poly1305.Run

/-!
# Poly1305 refines the streaming MAC it implements

The spec's state machine for a MAC under one key, with nothing of the limb code: a state is
the bytes given since `init` or the last `reset` and whether a `finalize` has returned since;
`update` appends, `finalize` returns the RFC 8439 tag of the bytes, both refused once
finalized, and `reset` starts over (`Stream.step`).

`run_refines`: from `init key`, every sequence of calls returns exactly what the streaming
MAC returns, call by call, whatever the updates' lengths and wherever the resets fall. The
simulation (`Simulates`) is `Absorbs` with `done ++ pend` the stream's bytes.
-/

namespace OrionMac.Poly1305

/-- A state of the streaming MAC: the bytes given since `init` or the last `reset`, and
whether a `finalize` has returned `Ok` since. -/
structure Stream where
  msg : List UInt8
  finalized : Bool
  deriving DecidableEq, Repr

/-- One call on the streaming MAC under `key`. -/
def Stream.step (key : OneTimeKey) (s : Stream) : Call → Returned Tag × Stream
  | .update d => if s.finalized then (.error {}, s) else (.ok none, ⟨s.msg ++ d, false⟩)
  | .finalize =>
    if s.finalized then (.error {}, s) else (.ok (some (rfcTag key s.msg)), ⟨s.msg, true⟩)
  | .reset => (.ok none, ⟨[], false⟩)

/-- The calls made in order on the streaming MAC, collecting what each returned. -/
def Stream.run (key : OneTimeKey) (s : Stream) : List Call → List (Returned Tag) × Stream
  | [] => ([], s)
  | c :: cs =>
    ((s.step key c).1 :: ((s.step key c).2.run key cs).1, ((s.step key c).2.run key cs).2)

structure Simulates (key : OneTimeKey) (s : Stream) (st : Poly1305) : Prop where
  inv : Inv key st
  finalized : st.isFinalized = s.finalized
  absorbs : s.finalized = false → ∃ done pend, Absorbs key done pend st ∧ done ++ pend = s.msg

section
variable {key : OneTimeKey}

theorem Simulates.init (key : OneTimeKey) : Simulates key ⟨[], false⟩ (init key) :=
  ⟨(absorbs_init key).inv, rfl, fun _ => ⟨[], [], absorbs_init key, rfl⟩⟩

theorem Simulates.step {s : Stream} {st : Poly1305} (h : Simulates key s st) (c : Call) :
    ∃ st', step st c = .ok ((s.step key c).1, st') ∧ Simulates key (s.step key c).2 st' := by
  by_cases hr : c = .reset
  · subst hr
    refine ⟨st.reset, rfl, ?_⟩
    rw [reset_eq_init h.inv.r h.inv.s]
    exact Simulates.init key
  cases hf : s.finalized with
  | true =>
    -- both refuse, and neither moves
    have hs : s.step key c = (.error {}, s) := by cases c <;> simp_all [Stream.step]
    rw [hs]
    exact ⟨st, (gate key).refuse st c h.inv (h.finalized.trans hf) hr, h⟩
  | false =>
    obtain ⟨done, pend, habs, hmsg⟩ := h.absorbs hf
    cases c with
    | reset => exact absurd rfl hr
    | update d =>
      obtain ⟨done', pend', st', hs, habs', hcat⟩ := step_update habs d
      refine ⟨st', by simpa [Stream.step, hf] using hs, ?_⟩
      simp only [Stream.step, hf, Bool.false_eq_true, if_false]
      exact ⟨habs'.inv, habs'.isFinalized, fun _ => ⟨done', pend', habs', by rw [hcat, hmsg]⟩⟩
    | finalize =>
      obtain ⟨st', hs, hinv, hfin⟩ := habs.step_finalize_inv
      refine ⟨st', by simpa [Stream.step, hf, hmsg] using hs, ?_⟩
      simp only [Stream.step, hf, Bool.false_eq_true, if_false]
      exact ⟨hinv, hfin, fun h' => Bool.noConfusion h'⟩

theorem Simulates.run {s : Stream} {st : Poly1305} (h : Simulates key s st) (calls : List Call) :
    ∃ st', OrionMac.run Poly1305.step st calls = .ok ((s.run key calls).1, st') ∧
      Simulates key (s.run key calls).2 st' := by
  induction calls generalizing s st with
  | nil => exact ⟨st, rfl, h⟩
  | cons c cs ih =>
    obtain ⟨st₁, hs₁, h₁⟩ := h.step c
    obtain ⟨st₂, hs₂, h₂⟩ := ih h₁
    exact ⟨st₂, by rw [run_cons _ _ hs₁, hs₂]; rfl, h₂⟩

end

/-- From `init key`, every sequence of `update`, `finalize` and `reset` calls returns, call by
call, what the streaming MAC returns: `Ok` for each update and reset, the RFC 8439 tag of the
bytes since the last reset for a `finalize`, and `Err` for an update or a finalize after a
finalize. -/
theorem run_refines (key : OneTimeKey) (calls : List Call) :
    ∃ st, run step (init key) calls = .ok ((Stream.run key ⟨[], false⟩ calls).1, st) :=
  let ⟨st, hs, _⟩ := (Simulates.init key).run calls
  ⟨st, hs⟩

end OrionMac.Poly1305
