import OrionMac.Poly1305.Run
import OrionMac.Hmac.Correct

/-!
# The finalization gate of both MACs

Both states keep the finalization gate of `OrionMac.Lifecycle` (`Poly1305.gate`,
`Hmac.gate`). From the state `init` gives, whatever calls came before, the next `update` or
`finalize` returns `Err(FinalizationCryptoError)` exactly when a `finalize` has returned `Ok`
since `init` or the last `reset`, and a call that returns `Err` leaves the state as it was.
-/

namespace OrionMac

/-- After any calls on a state from `init`, Poly1305's or HMAC's, the next call returns
`Err` exactly when it is an `update` or a `finalize` and a `finalize` has returned `Ok` since
the last `reset`; and a call that returns `Err` changes no field. -/
theorem finalization_gate (H : List UInt8 → Mathlib.Vector UInt8 hlen)
    (oneTimeKey : Poly1305.OneTimeKey) (secretKey : Hmac.SecretKey) (calls : List Call) (c : Call) :
    (∃ rs st r st', run Poly1305.step (Poly1305.init oneTimeKey) calls = .ok (rs, st) ∧
      Poly1305.step st c = .ok (r, st') ∧
      (r.isErr = true ↔ c ≠ .reset ∧ finalizedSinceReset (calls.zip rs) = true) ∧
      (r.isErr = true → st' = st)) ∧
    (∃ st₀, Hmac.init secretKey = .ok st₀ ∧
      ∃ rs st r st', run (Hmac.step H) st₀ calls = .ok (rs, st) ∧ Hmac.step H st c = .ok (r, st') ∧
      (r.isErr = true ↔ c ≠ .reset ∧ finalizedSinceReset (calls.zip rs) = true) ∧
      (r.isErr = true → st' = st)) := by
  obtain ⟨st₀, hinit, -, -, -, hf⟩ := Hmac.init_spec secretKey
  exact ⟨(Poly1305.gate oneTimeKey).call_spec (Poly1305.absorbs_init oneTimeKey).inv rfl calls c,
    st₀, hinit, (Hmac.gate H st₀).call_spec (Hmac.Inv.init hf) hf calls c⟩

end OrionMac
