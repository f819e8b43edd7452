/-! Running the steps of a computation over a state that may fail, and what it keeps
of the state whether it fails or not. -/

namespace TaggedRuntime

variable {ε σ α β : Type}

@[simp] theorem run_getThe (s : σ) : (getThe σ : EStateM ε σ σ).run s = .ok s s := rfl

@[simp] theorem run_throwThe (e : ε) (s : σ) :
    (throw e : EStateM ε σ α).run s = .error e s := rfl

/-- The state that a computation leaves, whether it fails or not. -/
def left (x : EStateM ε σ α) (s : σ) : σ :=
  match x.run s with
  | .ok _ s' => s'
  | .error _ s' => s'

/-- The state that is left depends on the outcome only. Two computations with the same outcome from
a state leave the same, whatever their steps are. -/
theorem left_congr {x y : EStateM ε σ α} {s : σ} (hRun : x.run s = y.run s) :
    left x s = left y s := by
  unfold left
  rw [hRun]

theorem left_of_ok {x : EStateM ε σ α} {s s' : σ} {a : α} (hRun : x.run s = .ok a s') :
    left x s = s' := by
  unfold left
  rw [hRun]

theorem left_of_error {x : EStateM ε σ α} {s s' : σ} {e : ε} (hRun : x.run s = .error e s') :
    left x s = s' := by
  unfold left
  rw [hRun]

/-- What a sequence leaves: the second part starts from what the first one leaves, and where the
first fails the second is not run. -/
theorem left_bind (x : EStateM ε σ α) (f : α → EStateM ε σ β) (s : σ) :
    left (x >>= f) s =
      match x.run s with
      | .ok a s' => left (f a) s'
      | .error _ s' => s' := by
  unfold left
  rw [EStateM.run_bind]
  cases x.run s <;> rfl

/-- A computation keeps a property of its state, whether it fails or not. -/
def Keeps (inv : σ → Prop) (x : EStateM ε σ α) : Prop := ∀ s, inv s → inv (left x s)

variable {inv : σ → Prop}

theorem Keeps.pure (a : α) : Keeps inv (Pure.pure a : EStateM ε σ α) := fun _ hInv => hInv

theorem Keeps.throw (e : ε) : Keeps inv (throw e : EStateM ε σ α) := fun _ hInv => hInv

/-- A sequence keeps what both parts keep. The second part has to keep it for every answer of the
first, since nothing is known of that answer. -/
theorem Keeps.bind {x : EStateM ε σ α} {f : α → EStateM ε σ β} (hx : Keeps inv x)
    (hf : ∀ a, Keeps inv (f a)) : Keeps inv (x >>= f) := by
  intro s hInv
  have hFirst := hx s hInv
  rw [left_bind]
  cases hRun : x.run s with
  | ok a s' => exact hf a s' (left_of_ok hRun ▸ hFirst)
  | error e s' => exact left_of_error hRun ▸ hFirst

end TaggedRuntime
