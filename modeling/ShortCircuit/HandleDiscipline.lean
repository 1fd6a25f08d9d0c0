import ShortCircuit.SocketRuns

set_option autoImplicit false

/-!
# Handle discipline

`Owner` is the application that opens a socket, closes it at most once and waits for
`on_close` before it opens the socket again. libuv is then used correctly exactly when
no close follows a connect, bind or accept that did not initialise the handle.
-/
namespace ShortCircuit.HandleDiscipline
open Message Boundary OutputMachine Receive Backend Socket SocketRuns

/-- What the application last did with the socket. -/
inductive Owner where
  | idle
  | opened (initialised : Bool)
  | closing
  deriving DecidableEq, Repr

/-- The application opens an idle socket, closes an opened one, and becomes idle at `on_close`. -/
def ownerNext : Owner → Event → Option Owner
  | .idle, .connect uri env => some (.opened (initialises (.connect uri env)))
  | .idle, .bind uri env => some (.opened (initialises (.bind uri env)))
  | .idle, .accept srvProto ans => some (.opened (initialises (.accept srvProto ans)))
  | .opened _, .close => some .closing
  | .closing, .closed => some .idle
  | _, .connect _ _ | _, .bind _ _ | _, .accept _ _ | _, .close | _, .closed => none
  | o, _ => some o

def ownerStep : Step Owner Event Unit := fun o e => (ownerNext o e).map fun o' => (o', [])

def Disciplined (es : List Event) : Prop := run ownerStep .idle es ≠ none

def ClosesInitialised (o : Owner) (e : Event) : Prop := e = .close → o = .opened true

/-- `uv_close` gets a live handle, and the init calls a handle that never lived or is closed. -/
def HandleOk : Effect → Prop
  | .uvClose before => before = .active
  | .uvInit _ before => before = .uninit ∨ before = .closed
  | _ => True

instance (x : Effect) : Decidable (HandleOk x) := by
  unfold HandleOk
  split <;> infer_instance

def Tied : Owner → HandlePhase → Prop
  | .idle, phase | .opened false, phase => phase = .uninit ∨ phase = .closed
  | .opened true, phase => phase = .active
  | .closing, phase => phase = .closing

theorem handleOk_of_family {effects : List Effect} (h : ∀ x ∈ effects, x.family ≠ .handle) :
    ∀ x ∈ effects, HandleOk x := by
  intro x hx
  have hf := h x hx
  cases x <;> trivial

theorem handleOk_of_plain {effects : List Effect} (h : ∀ x ∈ effects, Plain x) :
    ∀ x ∈ effects, HandleOk x := by
  apply handleOk_of_family
  intro x hx
  rw [h x hx]
  decide

theorem opened_handle {uv v : SocketUv} {effects : List Effect} {ok : Bool}
    (h : Opened uv v effects ok) (hidle : uv.stream.phase = .uninit ∨ uv.stream.phase = .closed) :
    (∀ x ∈ effects, HandleOk x) ∧ Tied (.opened ok) v.stream.phase := by
  cases h with
  | untouched hs hr he => exact ⟨handleOk_of_plain he, by rw [hs]; exact hidle⟩
  | refused proto pre rest hs hr he hpre hrest =>
    rw [he, List.forall_mem_append, List.forall_mem_cons]
    exact ⟨⟨handleOk_of_plain hpre, hidle, handleOk_of_plain hrest⟩, by rw [hs]; exact hidle⟩
  | ready proto reading connecting pre rest hone hs hr he hpre hrest =>
    rw [he, List.forall_mem_append, List.forall_mem_cons]
    exact ⟨⟨handleOk_of_plain hpre, hidle, handleOk_of_plain hrest⟩, by rw [hs]; rfl⟩

theorem ownerNext_opens {o o' : Owner} {e : Event} (he : opens e) (h : ownerNext o e = some o') :
    o = .idle ∧ o' = .opened (initialises e) := by
  cases e <;> first | exact absurd he id | (cases o <;> simp [ownerNext] at h ⊢; exact h.symm)

theorem tied_opened {ok : Bool} {phase : HandlePhase} (h : Tied (.opened ok) phase) :
    phase = .active ↔ ok = true := by
  cases ok with
  | false => rcases h with rfl | rfl <;> decide
  | true => exact iff_of_true h rfl

def Passive : Event → Prop
  | .connect _ _ | .bind _ _ | .accept _ _ | .close | .closed => False
  | _ => True

theorem ownerNext_passive {o o' : Owner} {e : Event} (he : Passive e)
    (h : ownerNext o e = some o') : o' = o := by
  cases e <;> first | exact absurd he id | (cases o <;> exact (Option.some.inj h).symm)

theorem handle_passive {s u : ScSocket} {e : Event} {effects : List Effect} {o o' : Owner}
    (ht : Tied o s.backend.stream.phase) (ho : ownerNext o e = some o') (he : Passive e)
    (hu : u.backend.stream.phase = s.backend.stream.phase) (hok : ∀ x ∈ effects, HandleOk x) :
    Tied o' u.backend.stream.phase ∧ ((∀ x ∈ effects, HandleOk x) ↔ ClosesInitialised o e) := by
  obtain rfl := ownerNext_passive he ho
  refine ⟨hu ▸ ht, iff_of_true hok ?_⟩
  rintro rfl
  exact absurd he id

variable {heap : Heap}

/-- One event keeps the application's view right, and uses the handle well exactly when it is not
a close of a handle that was not initialised. -/
theorem handle_step {s u : ScSocket} {e : Event} {effects : List Effect} {o o' : Owner}
    (ht : Tied o s.backend.stream.phase) (ho : ownerNext o e = some o')
    (hs : step heap s e = some (u, effects)) :
    Tied o' u.backend.stream.phase ∧ ((∀ x ∈ effects, HandleOk x) ↔ ClosesInitialised o e) := by
  cases step_stepped hs with
  | opened e u effects hopen h =>
    obtain ⟨rfl, rfl⟩ := ownerNext_opens hopen ho
    obtain ⟨hok, htied⟩ := opened_handle h ht
    refine ⟨htied, iff_of_true hok ?_⟩
    rintro rfl
    exact absurd hopen id
  | closing =>
    cases o with
    | idle => cases ho
    | closing => cases ho
    | opened ok =>
      obtain rfl := Option.some.inj ho
      refine ⟨rfl, ?_⟩
      have hdel : ∀ x ∈ uriDelEffects s, HandleOk x := by
        unfold uriDelEffects
        split <;> simp [HandleOk]
      rw [List.forall_mem_cons, and_iff_left hdel]
      simp only [ClosesInitialised, forall_const, Owner.opened.injEq]
      exact tied_opened ht
  | closed hp hw hc =>
    cases o with
    | idle => cases ho
    | opened ok => cases ho
    | closing =>
      obtain rfl := Option.some.inj ho
      refine ⟨.inr rfl, iff_of_true (by simp [HandleOk]) ?_⟩
      intro h
      cases h
  | submitted msg result =>
    refine handle_passive ht ho trivial ?_ (by simp [HandleOk])
    simp only [scSocketSend, buvSend]
    split <;> rfl
  | received e r effects hactive hreading hr =>
    refine handle_passive ht ho trivial rfl (handleOk_of_family ?_)
    intro x hx
    rw [recv_family hr x hx]
    decide
  | _ => exact handle_passive ht ho trivial rfl (by simp [HandleOk])

theorem handle_run {es : List Event} {s v : ScSocket} {effects : List Effect} {o : Owner}
    (ht : Tied o s.backend.stream.phase) (ho : run ownerStep o es ≠ none)
    (hrun : run (step heap) s es = some (v, effects)) :
    (∀ x ∈ effects, HandleOk x) ↔ EveryStep ownerStep ClosesInitialised o es := by
  induction es generalizing s effects o with
  | nil =>
    simp only [run_nil, Option.some.injEq, Prod.mk.injEq] at hrun
    obtain ⟨_, rfl⟩ := hrun
    simp [EveryStep]
  | cons e es ih =>
    obtain ⟨u, out, outs, hu, hr, rfl⟩ := (run_cons_iff _ _ _ _ _ _).mp hrun
    cases hn : ownerNext o e with
    | none => simp [run, ownerStep, hn] at ho
    | some o' =>
      have hstep : ownerStep o e = some (o', []) := by rw [ownerStep, hn]; rfl
      have ho' : run ownerStep o' es ≠ none := by
        rw [run_cons ownerStep es hstep] at ho
        exact fun hnone => ho (by rw [hnone]; rfl)
      obtain ⟨ht', hiff⟩ := handle_step ht hn hu
      rw [everyStep_cons es hstep, ← hiff, ← ih ht' ho' hr, List.forall_mem_append]

/-- For a disciplined application, every `uv_close` and every init call is legal exactly when each
close follows a connect, bind or accept that initialised the handle. -/
theorem handle_discipline_iff (heap : Heap) (es : List Event) (v : ScSocket)
    (effects : List Effect) (hdisc : Disciplined es)
    (hrun : run (step heap) newSocket es = some (v, effects)) :
    (∀ x ∈ effects, HandleOk x) ↔ EveryStep ownerStep ClosesInitialised .idle es :=
  handle_run (.inl rfl) hdisc hrun

theorem handle_discipline_reuse :
    ∃ v effects, run (step (reliable zeroBlocks)) newSocket
        [.accept .tcp ⟨0, 0, 0⟩, .close, .closed, .accept .tcp ⟨0, -1, 0⟩, .close] =
          some (v, effects) ∧ ∀ x ∈ effects, HandleOk x := by
  have h := handle_discipline_iff (reliable zeroBlocks)
    [.accept .tcp ⟨0, 0, 0⟩, .close, .closed, .accept .tcp ⟨0, -1, 0⟩, .close] _ _
    (by simp [Disciplined, run, ownerStep, ownerNext]) rfl
  refine ⟨_, _, rfl, h.mpr ?_⟩
  iterate 5 refine (everyStep_cons _ rfl).mpr ⟨(by intro h; first | rfl | cases h), ?_⟩
  trivial

/-- A connect to a text that is no URI, and the close after it. -/
theorem close_after_bad_uri :
    Disciplined [.connect ⟨[120], by decide⟩ noErrors, .close] ∧
    ∃ v effects, run (step (reliable zeroBlocks)) newSocket
        [.connect ⟨[120], by decide⟩ noErrors, .close] = some (v, effects) ∧
      effects = [.uvClose .uninit] ∧ ¬ ∀ x ∈ effects, HandleOk x := by
  refine ⟨by simp [Disciplined, run, ownerStep, ownerNext], _, _, rfl, by decide, by decide⟩

end ShortCircuit.HandleDiscipline
