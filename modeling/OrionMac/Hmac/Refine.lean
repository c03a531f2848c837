import OrionMac.Hmac.Correct

/-!
# HMAC refines the streaming HMAC while every `reset` follows a `finalize`

The spec's streaming MAC under one key, with the digest `H` (`Hmac.Stream.step`): a state is
the bytes given since `init` or the last `reset` and whether a `finalize` has returned since;
`update` appends, `finalize` returns `H (K ⊕ 0x5C¹²⁸ ‖ H (K ⊕ 0x36¹²⁸ ‖ m))` (`hmacTag`),
both refused once finalized, and `reset` starts over.

`reset` feeds `ipad` to the inner hasher without replacing it first, so the code follows
that machine only where each `reset` meets a finalized state, whose inner hasher `finalize`
has replaced (`resetsFinalized`):

* `run_refines_of_resetsFinalized`: from `init key`, every such sequence of calls returns,
  call by call, what the streaming HMAC returns. The simulation (`Simulates`) is `Inv` with
  `K ⊕ 0x36¹²⁸ ‖ m` in the inner hasher while not finalized.
* `run_reset_eq_init_iff`: after any calls, `reset` gives back the state `init` gave exactly
  when the state is finalized. Otherwise the inner hasher keeps `K ⊕ 0x36¹²⁸` and what
  followed it (`Padded`), and `reset` appends a second `K ⊕ 0x36¹²⁸`.
-/

namespace OrionMac.Hmac

variable (H : List UInt8 → Mathlib.Vector UInt8 hlen)

/-- RFC 2104: `H (K ⊕ opad ‖ H (K ⊕ ipad ‖ m))`. -/
def hmacTag (key : SecretKey) (m : List UInt8) : Tag :=
  ⟨H (xorPad key 0x5C ++ (H (xorPad key 0x36 ++ m)).toList)⟩

/-- A state of the streaming HMAC: the bytes given since `init` or the last `reset`, and
whether a `finalize` has returned `Ok` since. -/
structure Stream where
  msg : List UInt8
  finalized : Bool
  deriving DecidableEq, Repr

/-- One call on the streaming HMAC under `key`. -/
def Stream.step (key : SecretKey) (s : Stream) : Call → Returned Tag × Stream
  | .update d => if s.finalized then (.error {}, s) else (.ok none, ⟨s.msg ++ d, false⟩)
  | .finalize =>
    if s.finalized then (.error {}, s) else (.ok (some (hmacTag H key s.msg)), ⟨s.msg, true⟩)
  | .reset => (.ok none, ⟨[], false⟩)

/-- The calls made in order on the streaming HMAC, collecting what each returned. -/
def Stream.run (key : SecretKey) (s : Stream) : List Call → List (Returned Tag) × Stream
  | [] => ([], s)
  | c :: cs =>
    ((s.step H key c).1 :: ((s.step H key c).2.run key cs).1, ((s.step H key c).2.run key cs).2)

/-- Whether every `reset` in `calls` meets a finalized state, `fin` saying whether the state
is finalized before them: `finalize` sets the flag, `reset` clears it, `update` keeps it. -/
def resetsFinalized (fin : Bool) : List Call → Bool
  | [] => true
  | .update _ :: cs => resetsFinalized fin cs
  | .finalize :: cs => resetsFinalized true cs
  | .reset :: cs => fin && resetsFinalized false cs

theorem resetsFinalized_cons {s : Stream} {key : SecretKey} {c : Call} {cs : List Call}
    (h : resetsFinalized s.finalized (c :: cs) = true) :
    (c = .reset → s.finalized = true) ∧ resetsFinalized (s.step H key c).2.finalized cs = true := by
  cases c <;> cases hf : s.finalized <;> simp_all [resetsFinalized, Stream.step]

-- ---------------------------------------------------------------------------
-- The simulation
-- ---------------------------------------------------------------------------

structure Initial (key : SecretKey) (st₀ : Hmac) : Prop where
  ipad : st₀.ipad.toList = xorPad key 0x36
  ipadHasher : st₀.ipadHasher.absorbed = xorPad key 0x36
  opadHasher : st₀.opadHasher.absorbed = xorPad key 0x5C
  isFinalized : st₀.isFinalized = false

theorem initial_init (key : SecretKey) : ∃ st₀, init key = .ok st₀ ∧ Initial key st₀ :=
  let ⟨st₀, h, hp, hi, ho, hf⟩ := init_spec key
  ⟨st₀, h, hp, hi, ho, hf⟩

structure Simulates (key : SecretKey) (st₀ : Hmac) (s : Stream) (st : Hmac) : Prop where
  inv : Inv st₀ st
  finalized : st.isFinalized = s.finalized
  inner : s.finalized = false → st.ipadHasher.absorbed = xorPad key 0x36 ++ s.msg

section
variable {H} {key : SecretKey} {st₀ : Hmac}

theorem Simulates.init (h0 : Initial key st₀) : Simulates key st₀ ⟨[], false⟩ st₀ :=
  ⟨Inv.init h0.isFinalized, h0.isFinalized, fun _ => by rw [h0.ipadHasher, List.append_nil]⟩

theorem Simulates.step (h0 : Initial key st₀) {s : Stream} {st : Hmac}
    (h : Simulates key st₀ s st) (c : Call) (hc : c = .reset → s.finalized = true) :
    ∃ st', Hmac.step H st c = .ok ((s.step H key c).1, st') ∧
      Simulates key st₀ (s.step H key c).2 st' := by
  cases hf : s.finalized with
  | true =>
    by_cases hr : c = .reset
    · -- the inner hasher is the new one `finalize` swapped in
      subst hr
      have hin : st.ipadHasher = Sha512.default := h.inv.ipadHasher (h.finalized.trans hf)
      refine ⟨st.reset, rfl, ⟨h.inv.ipad, h.inv.opadHasher, fun h' => Bool.noConfusion h'⟩, rfl,
        fun _ => ?_⟩
      simp only [reset, Sha512.input_absorbed, hin, h.inv.ipad, h0.ipad, Sha512.default,
        Stream.step, List.nil_append, List.append_nil]
    · -- both refuse, and neither moves
      have hs : s.step H key c = (.error {}, s) := by cases c <;> simp_all [Stream.step]
      rw [hs]
      exact ⟨st, (gate H st₀).refuse st c h.inv (h.finalized.trans hf) hr, h⟩
  | false =>
    have hfin : st.isFinalized = false := h.finalized.trans hf
    cases c with
    | reset => exact absurd (hc rfl) (by simp [hf])
    | update d =>
      simp only [Stream.step, hf, Bool.false_eq_true, if_false]
      refine ⟨{ st with ipadHasher := st.ipadHasher.input d }, ?_,
        ⟨h.inv.ipad, h.inv.opadHasher, fun h' => absurd (hfin.symm.trans h') (by simp)⟩, hfin,
        fun _ => by rw [Sha512.input_absorbed, h.inner hf, List.append_assoc]⟩
      rw [Hmac.step, update_of_not_finalized hfin]
      rfl
    | finalize =>
      simp only [Stream.step, hf, Bool.false_eq_true, if_false]
      refine ⟨{ st with isFinalized := true, ipadHasher := Sha512.default }, ?_,
        ⟨h.inv.ipad, h.inv.opadHasher, fun _ => rfl⟩, rfl, fun h' => Bool.noConfusion h'⟩
      rw [Hmac.step, finalize_of_not_finalized H hfin, h.inner hf, h.inv.opadHasher, h0.opadHasher]
      rfl

theorem Simulates.run (h0 : Initial key st₀) {s : Stream} {st : Hmac}
    (h : Simulates key st₀ s st) (calls : List Call)
    (hc : resetsFinalized s.finalized calls = true) :
    ∃ st', OrionMac.run (Hmac.step H) st calls = .ok ((s.run H key calls).1, st') ∧
      Simulates key st₀ (s.run H key calls).2 st' := by
  induction calls generalizing s st with
  | nil => exact ⟨st, rfl, h⟩
  | cons c cs ih =>
    obtain ⟨hr, hcs⟩ := resetsFinalized_cons H hc
    obtain ⟨st₁, hs₁, h₁⟩ := h.step h0 c hr
    obtain ⟨st₂, hs₂, h₂⟩ := ih h₁ hcs
    exact ⟨st₂, by rw [run_cons _ _ hs₁, hs₂]; rfl, h₂⟩

end

/-- From `init key`, every sequence of calls in which each `reset` comes on a finalized state
returns, call by call, what the streaming HMAC returns: `Ok` for each update and reset,
`H (K ⊕ 0x5C¹²⁸ ‖ H (K ⊕ 0x36¹²⁸ ‖ m))` for a `finalize`, with `m` the bytes since the last
reset, and `Err` for an update or a finalize after a finalize. -/
theorem run_refines_of_resetsFinalized (key : SecretKey) (calls : List Call)
    (hc : resetsFinalized false calls = true) :
    ∃ st₀ st, init key = .ok st₀ ∧
      run (step H) st₀ calls = .ok ((Stream.run H key ⟨[], false⟩ calls).1, st) := by
  obtain ⟨st₀, hinit, h0⟩ := initial_init key
  obtain ⟨st, hrun, -⟩ := (Simulates.init h0).run h0 calls hc
  exact ⟨st₀, st, hinit, hrun⟩

/-- The calls `init`, `update`, `finalize`, `reset`, `update`, `finalize`, under the key
`oneKey` and the digest `byteSum`, which reads every byte: each `reset` comes on a finalized
state. -/
theorem run_refines_of_resetsFinalized_twice :
    resetsFinalized false [.update [1], .finalize, .reset, .update [2], .finalize] = true ∧
    ∃ st₀ st, init oneKey = .ok st₀ ∧
      run (step byteSum) st₀ [.update [1], .finalize, .reset, .update [2], .finalize] =
        .ok ((Stream.run byteSum oneKey ⟨[], false⟩
          [.update [1], .finalize, .reset, .update [2], .finalize]).1, st) :=
  ⟨by decide, run_refines_of_resetsFinalized _ _ _ (by decide)⟩

-- ---------------------------------------------------------------------------
-- reset, over every run
-- ---------------------------------------------------------------------------

structure Padded (key : SecretKey) (st₀ st : Hmac) : Prop where
  inv : Inv st₀ st
  inner : st.isFinalized = false → ∃ x, st.ipadHasher.absorbed = xorPad key 0x36 ++ x

section
variable {H} {key : SecretKey} {st₀ : Hmac}

theorem Padded.init (h0 : Initial key st₀) : Padded key st₀ st₀ :=
  ⟨Inv.init h0.isFinalized, fun _ => ⟨[], by rw [h0.ipadHasher, List.append_nil]⟩⟩

theorem Padded.reset_absorbed (h0 : Initial key st₀) {st : Hmac} (h : Padded key st₀ st)
    (hf : st.isFinalized = false) :
    ∃ x, st.ipadHasher.absorbed = xorPad key 0x36 ++ x ∧
      st.reset.ipadHasher.absorbed = xorPad key 0x36 ++ x ++ xorPad key 0x36 := by
  obtain ⟨x, hx⟩ := h.inner hf
  exact ⟨x, hx, by simp only [reset, Sha512.input_absorbed, hx, h.inv.ipad, h0.ipad]⟩

theorem Padded.step (h0 : Initial key st₀) {st : Hmac} (h : Padded key st₀ st) (c : Call) :
    ∃ r st', Hmac.step H st c = .ok (r, st') ∧ Padded key st₀ st' := by
  cases c with
  | reset =>
    refine ⟨_, st.reset, rfl, ⟨h.inv.ipad, h.inv.opadHasher, fun h' => Bool.noConfusion h'⟩,
      fun _ => ?_⟩
    cases hf : st.isFinalized
    · obtain ⟨x, -, hx⟩ := h.reset_absorbed h0 hf
      exact ⟨x ++ xorPad key 0x36, by rw [hx, List.append_assoc]⟩
    · exact ⟨[], by simp only [reset, Sha512.input_absorbed, h.inv.ipadHasher hf, h.inv.ipad,
        h0.ipad, Sha512.default, List.nil_append, List.append_nil]⟩
  | update d =>
    cases hf : st.isFinalized
    · obtain ⟨x, hx⟩ := h.inner hf
      have hs : Hmac.step H st (.update d) =
          .ok (.ok none, { st with ipadHasher := st.ipadHasher.input d }) := by
        rw [Hmac.step, update_of_not_finalized hf]
        rfl
      exact ⟨_, _, hs, ⟨h.inv.ipad, h.inv.opadHasher, fun h' => absurd (hf.symm.trans h') (by simp)⟩,
        fun _ => ⟨x ++ d, by rw [Sha512.input_absorbed, hx, List.append_assoc]⟩⟩
    · exact ⟨_, st, (gate H st₀).refuse st _ h.inv hf (by simp), h⟩
  | finalize =>
    cases hf : st.isFinalized
    · obtain ⟨_, st', hs, hi, hfin⟩ := (gate H st₀).finalize st h.inv hf
      exact ⟨_, st', hs, hi, fun h' => absurd (hfin.symm.trans h') (by simp)⟩
    · exact ⟨_, st, (gate H st₀).refuse st _ h.inv hf (by simp), h⟩

end

theorem Padded.run {key : SecretKey} {st₀ : Hmac} (h0 : Initial key st₀) (calls : List Call) :
    ∃ rs st, run (Hmac.step H) st₀ calls = .ok (rs, st) ∧ Padded key st₀ st :=
  run_invariant (Padded key st₀) (fun _ c h => h.step h0 c) (Padded.init h0) calls

/-- Over every run from `init key`, `reset` gives back the state `init` gave exactly when the
state is finalized; on any other state the inner hasher already holds `K ⊕ 0x36¹²⁸` and what
followed it, and `reset` feeds it a second `K ⊕ 0x36¹²⁸`. -/
theorem run_reset_eq_init_iff (key : SecretKey) (calls : List Call) :
    ∃ st₀ rs st, init key = .ok st₀ ∧ run (step H) st₀ calls = .ok (rs, st) ∧
      (st.reset = st₀ ↔ st.isFinalized = true) ∧
      (st.isFinalized = false → ∃ x, st.ipadHasher.absorbed = xorPad key 0x36 ++ x ∧
        st.reset.ipadHasher.absorbed = xorPad key 0x36 ++ x ++ xorPad key 0x36) := by
  obtain ⟨st₀, hinit, h0⟩ := initial_init key
  obtain ⟨rs, st, hrun, h⟩ := Padded.run H h0 calls
  refine ⟨st₀, rs, st, hinit, hrun, ⟨fun he => ?_,
    h.inv.reset_eq h0.isFinalized (h0.ipadHasher.trans h0.ipad.symm)⟩, h.reset_absorbed h0⟩
  by_contra hf
  obtain ⟨x, hx⟩ := h.inner (by simpa using hf)
  have hlen := congrArg (fun t : Hmac => t.ipadHasher.absorbed.length) he
  simp only [reset, Sha512.input_absorbed, hx, h0.ipadHasher, List.length_append, length_xorPad,
    Mathlib.Vector.toList_length, sha2Blocksize] at hlen
  omega

end OrionMac.Hmac
