import TaggedRuntime.Run
import TaggedRuntime.Proofs.Effects

/-! What an operation ensures: one condition on its result and the state it is
left with, and one on the state when the operation fails and the program goes
on. Nothing is ensured where memory runs out, since that ends the program. -/

namespace TaggedRuntime

theorem RuntimeError.located_kind (kind : ErrorKind) (loc : Location) :
    (located kind loc).kind = kind := by
  unfold located
  split <;> rfl

/-- Running out of memory ends the program, wherever it happens. So nothing has to be ensured of
what it leaves. -/
theorem RuntimeError.isFatal_outOfMemory (loc : Location) :
    (located .outOfMemory loc).isFatal = true := by
  rw [isFatal, located_kind]
  rfl

variable {σ α β : Type} {done : α → σ → Prop} {failed : σ → Prop}

/-- What an operation of the host ensures from a state on. -/
def HostM.Ensures (x : HostM σ α) (s : σ) (done : α → σ → Prop) (failed : σ → Prop) : Prop :=
  match x.run s with
  | .ok a s' => done a s'
  | .error (.fault _) s' => failed s'
  | .error (.refused _) _ => True

namespace HostM

/-- An operation whose run is known ensures what holds of its result and of the state that it
leaves. Nothing is asked of its failures, since there are none from this state. -/
theorem Ensures.of_ok {x : HostM σ α} {s s' : σ} {a : α} (hRun : x.run s = .ok a s')
    (hDone : done a s') : HostM.Ensures x s done failed := by
  unfold HostM.Ensures
  rw [hRun]
  exact hDone

/-- A sequence ensures what its second part ensures from where the first ends. A failure of the
first part has to be one that is allowed for the whole. -/
theorem Ensures.bind {x : HostM σ α} {f : α → HostM σ β} {s : σ} {done : β → σ → Prop}
    (hx : HostM.Ensures x s (fun a s' => HostM.Ensures (f a) s' done failed) failed) :
    HostM.Ensures (x >>= f) s done failed := by
  unfold HostM.Ensures at hx ⊢
  rw [EStateM.run_bind]
  cases hRun : x.run s with
  | ok a s' =>
      rw [hRun] at hx
      exact hx
  | error e s' =>
      rw [hRun] at hx
      cases e <;> exact hx

theorem Ensures.pure {a : α} {s : σ} (hDone : done a s) :
    HostM.Ensures (Pure.pure a) s done failed := hDone

/-- Both conditions may be weakened. The state before takes no part in them. -/
theorem Ensures.mono {x : HostM σ α} {s : σ} {done' : α → σ → Prop} {failed' : σ → Prop}
    (hx : HostM.Ensures x s done failed) (hDone : ∀ a s', done a s' → done' a s')
    (hFailed : ∀ s', failed s' → failed' s') : HostM.Ensures x s done' failed' := by
  unfold HostM.Ensures at hx ⊢
  cases hRun : x.run s with
  | ok a s' =>
      rw [hRun] at hx
      exact hDone a s' hx
  | error e s' =>
      rw [hRun] at hx
      cases e with
      | fault f => exact hFailed s' hx
      | refused e => trivial

end HostM

namespace Run

/-- What an operation of the runtime ensures. -/
def Ensures (x : Run σ α) (config : Config) (j : Journal σ) (done : α → σ → Prop)
    (failed : σ → Prop) : Prop :=
  match x config j with
  | .ok a j' => done a j'.host
  | .error (.raised e) j' => e.isFatal = true ∨ failed j'.host
  | .error (.fault _) j' => failed j'.host

variable {config : Config} {j : Journal σ}

/-- A sequence of operations, run. The settings are the same for both parts, and a failure of the
first one is the failure of the whole. -/
theorem bind_run (x : Run σ α) (f : α → Run σ β) (config : Config) (j : Journal σ) :
    (x >>= f) config j =
      match x config j with
      | .ok a j' => f a config j'
      | .error e j' => .error e j' := by
  change EStateM.bind (x config) (fun a => f a config) j = _
  unfold EStateM.bind
  cases x config j <;> rfl

/-- A sequence ensures what its second part ensures from where the first ends. Only the host is
handed on: the events and the output of the first part can be anything. -/
theorem Ensures.bind {x : Run σ α} {f : α → Run σ β} {done : β → σ → Prop}
    (hx : Ensures x config j
      (fun a s => ∀ j', j'.host = s → Ensures (f a) config j' done failed) failed) :
    Ensures (x >>= f) config j done failed := by
  unfold Ensures at hx ⊢
  rw [bind_run]
  cases hRun : x config j with
  | ok a j' =>
      rw [hRun] at hx
      exact hx j' rfl
  | error e j' =>
      rw [hRun] at hx
      cases e <;> exact hx

/-- What computes nothing ensures whatever holds of its result and of the host. -/
theorem Ensures.pure {a : α} (hDone : done a j.host) :
    Ensures (Pure.pure a : Run σ α) config j done failed := hDone

/-- Looking at the settings changes nothing, so what holds of the settings and of the host is
ensured. -/
theorem Ensures.read {done : Config → σ → Prop} (hDone : done config j.host) :
    Ensures (MonadReader.read : Run σ Config) config j done failed := hDone

/-- A computation beside the host leaves the host as it is, whether it gives a result or a fault. -/
theorem Ensures.ofFault {x : Except Fault α} (hDone : ∀ a, x = .ok a → done a j.host)
    (hFailed : ∀ f, x = .error f → failed j.host) :
    Ensures (Run.ofFault x) config j done failed := by
  cases x with
  | ok a => exact hDone a rfl
  | error f => exact hFailed f rfl

/-- The journal after an event was reported. -/
def reported (config : Config) (e : Event) (j : Journal σ) : Journal σ :=
  if config.trace = true then { j with events := j.events ++ [e] } else j

/-- An event that is reported says something about the host and does not change it. -/
@[simp] theorem host_reported (config : Config) (e : Event) (j : Journal σ) :
    (reported config e j).host = j.host := by
  unfold reported
  split <;> rfl

theorem emit_run (e : Event) (config : Config) (j : Journal σ) :
    (emit e : Run σ Unit) config j = .ok () (reported config e j) := by
  change (if config.trace = true then
    (modify fun j => { j with events := j.events ++ [e] } : Run σ Unit) else pure ()) config j = _
  unfold reported
  split <;> rfl

/-- An error is made by reporting it. It is an answer here and not a failure, so the run goes on. -/
theorem error_run (kind : ErrorKind) (loc : Location) (config : Config) (j : Journal σ) :
    (error kind loc : Run σ RuntimeError) config j =
      .ok (RuntimeError.located kind loc)
        (reported config (.raised (RuntimeError.located kind loc)) j) := by
  unfold error
  rw [bind_run, emit_run]
  rfl

/-- To fail with an error is to make it first, so it is reported once and the host is left alone. -/
theorem raise_run (kind : ErrorKind) (loc : Location) (config : Config) (j : Journal σ) :
    (raise kind loc : Run σ α) config j =
      .error (.raised (RuntimeError.located kind loc))
        (reported config (.raised (RuntimeError.located kind loc)) j) := by
  unfold raise
  rw [bind_run, error_run]
  rfl

/-- What comes after a failure is not run. The two sides report the same event, and there is one
event only. -/
theorem raise_bind (kind : ErrorKind) (loc : Location) (f : α → Run σ β) :
    Run.raise kind loc >>= f = Run.raise kind loc := by
  funext config j
  rw [bind_run, raise_run, raise_run]

/-- An operation of the host, run from a journal. The events and the output stay as they are, and a
refusal becomes the failure that the program sees. -/
theorem host_run (loc : Location) (x : HostM σ α) (config : Config) (j : Journal σ) :
    Run.host loc x config j =
      match x.run j.host with
      | .ok a s => .ok a { j with host := s }
      | .error (.fault f) s => .error (.fault f) { j with host := s }
      | .error (.refused _) s => (raise .outOfMemory loc : Run σ α) config { j with host := s } := by
  unfold Run.host
  change (match x.run j.host with
    | .ok a s => (do set { j with host := s }; return a : Run σ α)
    | .error (.fault f) s => (do set { j with host := s }; throw (Failure.fault f) : Run σ α)
    | .error (.refused _) s => (do set { j with host := s }; raise .outOfMemory loc : Run σ α))
      config j = _
  cases x.run j.host with
  | ok a s => rfl
  | error e s => cases e <;> rfl

/-- Operations of the host that follow each other are one. They may be put together or taken apart,
since the host is handed on as it is. -/
theorem host_bind (loc : Location) (x : HostM σ α) (f : α → HostM σ β) :
    Run.host loc (x >>= f) = Run.host loc x >>= fun a => Run.host loc (f a) := by
  funext config j
  rw [bind_run, host_run, host_run, EStateM.run_bind]
  cases x.run j.host with
  | ok a s =>
      dsimp only
      rw [host_run]
  | error e s =>
      cases e with
      | fault f => rfl
      | refused e => simp only [raise_run]

/-- An operation of the host that is refused memory ends the program. Every other failure leaves
what the operation ensures of failures. -/
theorem Ensures.host {x : HostM σ α} (loc : Location)
    (hx : HostM.Ensures x j.host done failed) :
    Ensures (Run.host loc x) config j done failed := by
  unfold HostM.Ensures at hx
  unfold Ensures
  rw [host_run]
  cases hRun : x.run j.host with
  | ok a s =>
      rw [hRun] at hx
      exact hx
  | error e s =>
      rw [hRun] at hx
      cases e with
      | fault f => exact hx
      | refused e =>
          simp only [raise_run]
          exact Or.inl (RuntimeError.isFatal_outOfMemory loc)

/-! ### What is kept whether an operation fails or not -/

section Keeps

variable {inv : σ → Prop}

theorem left_of_ok {x : Run σ α} {config : Config} {j j' : Journal σ} {a : α}
    (hRun : x config j = .ok a j') : left (x config) j = j' :=
  TaggedRuntime.left_of_ok (x := x config) hRun

theorem left_of_error {x : Run σ α} {config : Config} {j j' : Journal σ} {failure : Failure}
    (hRun : x config j = .error failure j') : left (x config) j = j' :=
  TaggedRuntime.left_of_error (x := x config) hRun

/-- What a sequence leaves, for operations with settings and a journal. It is the rule of the plain
effects, read from their definition. -/
theorem left_bind (x : Run σ α) (f : α → Run σ β) (config : Config) (j : Journal σ) :
    left ((x >>= f) config) j =
      match x config j with
      | .ok a j' => left (f a config) j'
      | .error _ j' => j' := by
  have hBind := bind_run x f config j
  cases hFirst : x config j with
  | error e j' =>
      rw [hFirst] at hBind
      exact left_of_error hBind
  | ok a j' =>
      rw [hFirst] at hBind
      cases hSecond : f a config j' with
      | ok b j₂ => exact (left_of_ok (hBind.trans hSecond)).trans (left_of_ok hSecond).symm
      | error e j₂ => exact (left_of_error (hBind.trans hSecond)).trans (left_of_error hSecond).symm

/-- An answer that is replaced by another one at the end leaves no trace in the journal. -/
theorem left_bind_pure (x : Run σ α) (b : β) (config : Config) (j : Journal σ) :
    left ((x >>= fun _ => (Pure.pure b : Run σ β)) config) j = left (x config) j := by
  rw [left_bind]
  cases hRun : x config j with
  | ok a j' => exact (left_of_ok hRun).symm
  | error e j' => exact (left_of_error hRun).symm

/-- An operation keeps a property of the host, whether it fails or not. -/
def Keeps (inv : σ → Prop) (x : Run σ α) : Prop :=
  ∀ config, TaggedRuntime.Keeps (fun j : Journal σ => inv j.host) (x config)

theorem Keeps.pure (a : α) : Keeps inv (Pure.pure a : Run σ α) :=
  fun _ => TaggedRuntime.Keeps.pure a

theorem Keeps.get : Keeps inv (getThe (Journal σ) : Run σ (Journal σ)) := fun _ _ hInv => hInv

theorem Keeps.read : Keeps inv (MonadReader.read : Run σ Config) := fun _ _ hInv => hInv

theorem Keeps.fault (f : Fault) : Keeps inv (throw (.fault f) : Run σ α) :=
  fun _ => TaggedRuntime.Keeps.throw _

theorem Keeps.bind {x : Run σ α} {f : α → Run σ β} (hx : Keeps inv x)
    (hf : ∀ a, Keeps inv (f a)) : Keeps inv (x >>= f) :=
  fun config => TaggedRuntime.Keeps.bind (hx config) fun a => hf a config

/-- Failing with an error keeps everything of the host. The event that goes with it is no part of
the host. -/
theorem Keeps.raise (kind : ErrorKind) (loc : Location) :
    Keeps inv (Run.raise kind loc : Run σ α) := by
  intro config j hInv
  rw [left_of_error (x := Run.raise kind loc) (raise_run kind loc config j), host_reported]
  exact hInv

/-- A calculation keeps everything of the host, whether it gives a result or is refused. -/
theorem Keeps.ofExcept (loc : Location) (x : Except ErrorKind α) :
    Keeps inv (Run.ofExcept loc x : Run σ α) := by
  cases x with
  | ok a => exact .pure a
  | error kind => exact .raise kind loc

theorem Keeps.ofFault (x : Except Fault α) : Keeps inv (Run.ofFault x : Run σ α) := by
  cases x with
  | ok a => exact .pure a
  | error f => exact .fault f

/-- An operation of the host leaves it as it does when it is run alone. Neither the events nor the
place have a say in it. -/
theorem left_host (loc : Location) (x : HostM σ α) (config : Config) (j : Journal σ) :
    (left (Run.host loc x config) j).host = left x j.host := by
  have hRun := host_run loc x config j
  cases hOutcome : x.run j.host with
  | ok a s =>
      rw [hOutcome] at hRun
      rw [left_of_ok hRun, TaggedRuntime.left_of_ok hOutcome]
  | error failure s =>
      rw [hOutcome] at hRun
      rw [TaggedRuntime.left_of_error hOutcome]
      cases failure with
      | fault f => rw [left_of_error hRun]
      | refused e =>
          simp only [raise_run] at hRun
          rw [left_of_error hRun]
          exact host_reported ..

/-- What an operation keeps by itself it keeps when it is run from a journal, also when it fails. -/
theorem Keeps.host {x : HostM σ α} (loc : Location) (hx : TaggedRuntime.Keeps inv x) :
    Keeps inv (Run.host loc x) := by
  intro config j hInv
  rw [left_host]
  exact hx j.host hInv

end Keeps

/-! ### Where errors are made -/

section RaisesAt

variable {loc : Location}

/-- The errors that an operation fails with are made at a location. -/
def RaisesAt (loc : Location) (x : Run σ α) : Prop :=
  ∀ config j e j', x config j = .error (.raised e) j' → ∃ kind, e = RuntimeError.located kind loc

theorem RaisesAt.pure (a : α) : RaisesAt loc (Pure.pure a : Run σ α) := by
  rintro config j e j' ⟨⟩

/-- A sequence raises at a place if both of its parts do. The second one has to for every answer of
the first. -/
theorem RaisesAt.bind {x : Run σ α} {f : α → Run σ β} (hx : RaisesAt loc x)
    (hf : ∀ a, RaisesAt loc (f a)) : RaisesAt loc (x >>= f) := by
  intro config j e j' hRun
  rw [bind_run] at hRun
  cases hFirst : x config j with
  | ok a j₁ =>
      rw [hFirst] at hRun
      exact hf a config j₁ e j' hRun
  | error failure j₁ =>
      rw [hFirst] at hRun
      cases hRun
      exact hx config j e j' hFirst

theorem RaisesAt.read : RaisesAt loc (MonadReader.read : Run σ Config) := by
  rintro config j e j' ⟨⟩

theorem RaisesAt.get : RaisesAt loc (getThe (Journal σ) : Run σ (Journal σ)) := by
  rintro config j e j' ⟨⟩

theorem RaisesAt.fault (f : Fault) : RaisesAt loc (throw (.fault f) : Run σ α) := by
  rintro config j e j' ⟨⟩

theorem RaisesAt.emit (event : Event) : RaisesAt loc (Run.emit event : Run σ Unit) := by
  intro config j e j' hRun
  rw [emit_run] at hRun
  cases hRun

/-- An error is raised at the place that it is given, whatever its kind. -/
theorem RaisesAt.raise (kind : ErrorKind) : RaisesAt loc (Run.raise kind loc : Run σ α) := by
  intro config j e j' hRun
  rw [raise_run] at hRun
  cases hRun
  exact ⟨kind, rfl⟩

/-- A calculation that is refused raises at the place that it is given. -/
theorem RaisesAt.ofExcept (x : Except ErrorKind α) :
    RaisesAt loc (Run.ofExcept loc x : Run σ α) := by
  cases x with
  | ok a => exact .pure a
  | error kind => exact .raise kind

theorem RaisesAt.ofFault (x : Except Fault α) : RaisesAt loc (Run.ofFault x : Run σ α) := by
  cases x with
  | ok a => exact .pure a
  | error f => exact .fault f

/-- An operation of the host raises at the place that it is run for: the host itself knows of no
places. -/
theorem RaisesAt.host (x : HostM σ α) : RaisesAt loc (Run.host loc x) := by
  intro config j e j' hRun
  rw [host_run] at hRun
  cases hOutcome : x.run j.host with
  | ok a s =>
      rw [hOutcome] at hRun
      cases hRun
  | error failure s =>
      rw [hOutcome] at hRun
      cases failure with
      | fault f => cases hRun
      | refused _ => exact RaisesAt.raise .outOfMemory config _ e j' hRun

end RaisesAt

end Run

end TaggedRuntime
