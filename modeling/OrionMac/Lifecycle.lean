import OrionMac.Types

/-!
# Runs of calls and the finalization gate

`Poly1305` and `Hmac` are driven the same way: after `init`, any sequence of `update`,
`finalize` and `reset` calls. `run` makes such a sequence on either state, collecting what
each call returned. Three facts are proved here once, for any state:

* `run_invariant`: a property that every call keeps, without panicking, holds after every run;
* `run_lift`: a relation between two states that every call keeps, both calls returning the
  same, holds after every run from related states, both runs returning the same or panicking
  alike;
* `Gate.call_spec`: on a state that keeps the finalization gate, `update` and `finalize`
  return `Err` exactly when a `finalize` has returned `Ok` since the last `reset`, and an
  `Err` leaves the state as it was.
-/

namespace OrionMac

/-- A call on a MAC state after `init`. -/
inductive Call
  | update (data : List UInt8)
  | finalize
  | reset
  deriving DecidableEq, Repr

/-- What a call returned: `Err(FinalizationCryptoError)`, or `Ok` with the tag when the call
was a `finalize`. `reset` returns nothing, recorded as `Ok`. -/
abbrev Returned (τ : Type) := Except FinalizationCryptoError (Option τ)

variable {σ τ : Type}

/-- Makes the calls in order, collecting what each returned, up to a panic. -/
def run (step : σ → Call → Except Panic (Returned τ × σ)) (st : σ) :
    List Call → Except Panic (List (Returned τ) × σ)
  | [] => .ok ([], st)
  | c :: cs => do
    let (r, st) ← step st c
    let (rs, st) ← run step st cs
    .ok (r :: rs, st)

/-- Whether a `finalize` has returned `Ok` since the last `reset`, after `events`, when `fin`
says whether one had before them. -/
def finalizedAfter (fin : Bool) : List (Call × Returned τ) → Bool
  | [] => fin
  | (.reset, _) :: rest => finalizedAfter false rest
  | (.finalize, .ok _) :: rest => finalizedAfter true rest
  | _ :: rest => finalizedAfter fin rest

/-- Whether a `finalize` has returned `Ok` since `init` or the most recent `reset`. -/
def finalizedSinceReset (events : List (Call × Returned τ)) : Bool := finalizedAfter false events

/-- Whether a call returned `Err`. -/
def Returned.isErr : Returned τ → Bool
  | .error _ => true
  | .ok _ => false

variable {step : σ → Call → Except Panic (Returned τ × σ)}

@[simp] theorem run_nil (st : σ) : run step st [] = .ok ([], st) := rfl

theorem run_cons {st st' : σ} {r : Returned τ} (c : Call) (cs : List Call)
    (h : step st c = .ok (r, st')) :
    run step st (c :: cs) = (run step st' cs).map fun (rs, st'') => (r :: rs, st'') := by
  simp only [run, h, ok_bind]
  cases run step st' cs <;> rfl

theorem run_append {st st' : σ} {rs : List (Returned τ)} {xs : List Call}
    (h : run step st xs = .ok (rs, st')) (ys : List Call) :
    run step st (xs ++ ys) = (run step st' ys).map fun (rs', st'') => (rs ++ rs', st'') := by
  induction xs generalizing st rs with
  | nil => cases h; rw [List.nil_append]; cases run step st' ys <;> rfl
  | cons c cs ih =>
    obtain ⟨⟨r, st₁⟩, hc, h⟩ := bind_eq_ok.mp h
    obtain ⟨⟨rs₁, st₂⟩, hcs, ⟨⟩⟩ := bind_eq_ok.mp h
    rw [List.cons_append, run_cons c _ hc, ih hcs]
    cases run step st' ys <;> rfl

theorem run_invariant (Inv : σ → Prop)
    (hstep : ∀ st c, Inv st → ∃ r st', step st c = .ok (r, st') ∧ Inv st')
    {st : σ} (h0 : Inv st) (calls : List Call) :
    ∃ rs st', run step st calls = .ok (rs, st') ∧ Inv st' := by
  induction calls generalizing st with
  | nil => exact ⟨[], st, rfl, h0⟩
  | cons c cs ih =>
    obtain ⟨r, st₁, hc, h₁⟩ := hstep st c h0
    obtain ⟨rs, st₂, hrun, h₂⟩ := ih h₁
    exact ⟨r :: rs, st₂, by rw [run_cons c cs hc, hrun]; rfl, h₂⟩

theorem run_lift (R : σ → σ → Prop)
    (hstep : ∀ st st' c, R st st' →
      Lift (fun p q => p.1 = q.1 ∧ R p.2 q.2) (step st c) (step st' c))
    {st st' : σ} (h : R st st') (calls : List Call) :
    Lift (fun p q => p.1 = q.1 ∧ R p.2 q.2) (run step st calls) (run step st' calls) := by
  induction calls generalizing st st' with
  | nil => exact ⟨rfl, h⟩
  | cons c cs ih =>
    refine (hstep st st' c h).bind ?_
    rintro ⟨r, t⟩ ⟨r', t'⟩ ⟨rfl, ht⟩
    refine (ih ht).bind ?_
    rintro ⟨rs, u⟩ ⟨rs', u'⟩ ⟨rfl, hu⟩
    exact ⟨rfl, hu⟩

-- ---------------------------------------------------------------------------
-- The finalization gate
-- ---------------------------------------------------------------------------

structure Gate (step : σ → Call → Except Panic (Returned τ × σ)) (fin : σ → Bool) (Inv : σ → Prop) :
    Prop where
  refuse : ∀ st c, Inv st → fin st = true → c ≠ .reset → step st c = .ok (.error {}, st)
  update : ∀ st d, Inv st → fin st = false →
    ∃ st', step st (.update d) = .ok (.ok none, st') ∧ Inv st' ∧ fin st' = false
  finalize : ∀ st, Inv st → fin st = false →
    ∃ t st', step st .finalize = .ok (.ok (some t), st') ∧ Inv st' ∧ fin st' = true
  reset : ∀ st, Inv st → ∃ st', step st .reset = .ok (.ok none, st') ∧ Inv st' ∧ fin st' = false

theorem finalizedAfter_cons (fin : Bool) (c : Call) (r : Returned τ)
    (rest : List (Call × Returned τ)) :
    finalizedAfter fin ((c, r) :: rest) = finalizedAfter (finalizedAfter fin [(c, r)]) rest := by
  cases c <;> cases r <;> rfl

variable {fin : σ → Bool} {Inv : σ → Prop}

theorem Gate.step_spec (g : Gate step fin Inv) {st : σ} (c : Call) (h : Inv st) :
    ∃ r st', step st c = .ok (r, st') ∧ Inv st' ∧ fin st' = finalizedAfter (fin st) [(c, r)] ∧
      (r.isErr = true ↔ c ≠ .reset ∧ fin st = true) ∧ (r.isErr = true → st' = st) := by
  cases hf : fin st
  case false =>
    -- every call returns `Ok`, so only the flag is left to follow
    obtain ⟨r, st', hs, hi, hf'⟩ : ∃ (r : Option τ) (st' : σ), step st c = .ok (.ok r, st') ∧
        Inv st' ∧ fin st' = finalizedAfter false [(c, .ok r)] := by
      cases c with
      | update d => obtain ⟨st', hs, hi, hf'⟩ := g.update st d h hf; exact ⟨_, st', hs, hi, hf'⟩
      | finalize => obtain ⟨t, st', hs, hi, hf'⟩ := g.finalize st h hf; exact ⟨_, st', hs, hi, hf'⟩
      | reset => obtain ⟨st', hs, hi, hf'⟩ := g.reset st h; exact ⟨_, st', hs, hi, hf'⟩
    exact ⟨_, st', hs, hi, hf', by simp [Returned.isErr], by simp [Returned.isErr]⟩
  case true =>
    cases c with
    | reset =>
      obtain ⟨st', hs, hi, hf'⟩ := g.reset st h
      exact ⟨_, st', hs, hi, hf', by simp [Returned.isErr], by simp [Returned.isErr]⟩
    | update _ | finalize =>
      exact ⟨_, st, g.refuse st _ h hf (by simp), h, hf, by simp [Returned.isErr], fun _ => rfl⟩

theorem Gate.run_spec (g : Gate step fin Inv) {st : σ} (h : Inv st) (calls : List Call) :
    ∃ rs st', run step st calls = .ok (rs, st') ∧ Inv st' ∧
      fin st' = finalizedAfter (fin st) (calls.zip rs) := by
  induction calls generalizing st with
  | nil => exact ⟨[], st, rfl, h, rfl⟩
  | cons c cs ih =>
    obtain ⟨r, st₁, hc, h₁, hf₁, -⟩ := g.step_spec c h
    obtain ⟨rs, st₂, hrun, h₂, hf₂⟩ := ih h₁
    refine ⟨r :: rs, st₂, by rw [run_cons c cs hc, hrun]; rfl, h₂, ?_⟩
    rw [List.zip_cons_cons, finalizedAfter_cons, ← hf₁, hf₂]

theorem Gate.call_spec (g : Gate step fin Inv) {st₀ : σ} (h : Inv st₀) (hf : fin st₀ = false)
    (calls : List Call) (c : Call) :
    ∃ rs st r st', run step st₀ calls = .ok (rs, st) ∧ step st c = .ok (r, st') ∧
      (r.isErr = true ↔ c ≠ .reset ∧ finalizedSinceReset (calls.zip rs) = true) ∧
      (r.isErr = true → st' = st) := by
  obtain ⟨rs, st, hrun, hi, hfin⟩ := g.run_spec h calls
  obtain ⟨r, st', hc, -, -, herr, hsame⟩ := g.step_spec c hi
  refine ⟨rs, st, r, st', hrun, hc, ?_, hsame⟩
  rw [herr, hfin, hf, finalizedSinceReset]

end OrionMac
