import ShortCircuit.NestedCalls

set_option autoImplicit false

/-!
# The life of a socket

`sc_socket_del` frees a socket at once. libuv keeps pointers into it while its handle is
open or a request is pending, and `read_wrap` goes on with it after `on_recv`. A program
that keeps libuv's rules for handles and requests, and that deletes sockets which were
never opened or whose `on_close` was called, is safe wherever it does so, inside
callbacks as well.
-/
namespace ShortCircuit.SocketLifetime
open Message Boundary OutputMachine Receive Backend Socket SocketRuns Watchers NestedCalls

/-- The handle was never opened, or its close is over. -/
def Ended (phase : HandlePhase) : Prop := phase = .uninit ∨ phase = .closed

/-- Nothing is pending at a handle that is not open. -/
def Quiescent (s : ScSocket) : Prop :=
  Ended s.backend.stream.phase →
    s.backend.stream.connecting = false ∧ s.backend.stream.writing = none

def Live {H : Type} (w : World H) (i : ℕ) : Prop := ∀ slot, w.slots[i]? = some slot → slot.freed = false

/-- libuv's rules for one handle: it is opened when it was never opened or its close is over,
listens, sends and closes while it is open, and has one write at a time. -/
def Permits (stream : UvStream) : Event → Prop
  | .connect _ _ | .bind _ _ | .accept _ _ => Ended stream.phase
  | .listen _ _ | .close => stream.phase = .active
  | .send _ _ => stream.phase = .active ∧ stream.writing = none
  | _ => True

/-- The application keeps the rules for handles, uses no socket it has deleted, and deletes none
with an open handle. -/
def Legal {H : Type} (w : World H) : Move H → Prop
  | .new _ _ | .loop _ _ | .ret => True
  | .del i =>
    Live w i ∧ ∀ slot, w.slots[i]? = some slot → Ended slot.socket.backend.stream.phase
  | .on i _ _ => Live w i
  | .call i e =>
    Live w i ∧ ∀ slot, w.slots[i]? = some slot → Permits slot.socket.backend.stream e
  | .accept server client _ =>
    Live w server ∧ Live w client ∧
      (∀ slot, w.slots[server]? = some slot → slot.socket.backend.stream.phase = .active) ∧
      ∀ slot, w.slots[client]? = some slot → Ended slot.socket.backend.stream.phase

section Sockets

variable {heap : Heap} {s t : ScSocket} {e : Event} {effects : List Effect}

theorem quiescent_of_not_ended (h : ¬ Ended t.backend.stream.phase) : Quiescent t :=
  fun hended => absurd hended h

theorem not_ended_active : ¬ Ended .active := by simp [Ended]

theorem not_ended_closing : ¬ Ended .closing := by simp [Ended]

theorem opened_stream {uv v : SocketUv} {ok : Bool} (h : Opened uv v effects ok) :
    v.stream = uv.stream ∨ v.stream.phase = .active := by
  cases h with
  | untouched hs _ _ => exact .inl hs
  | refused _ _ _ hs _ _ _ _ => exact .inl hs
  | ready _ _ _ _ _ _ hs _ _ _ _ => exact .inr (by rw [hs])

theorem step_quiescent (h : step heap s e = some (t, effects)) (hq : Quiescent s)
    (hwrite : ∀ msg, e = .send msg 0 → s.backend.stream.phase = .active) : Quiescent t := by
  cases step_stepped h with
  | opened e t effects _ ho =>
    rcases opened_stream ho with hs | hs
    · intro hended
      rw [hs] at hended ⊢
      exact hq hended
    · exact quiescent_of_not_ended (by rw [hs]; exact not_ended_active)
  | listened => exact hq
  | submitted msg result =>
    by_cases hr : result = 0
    · subst hr
      refine quiescent_of_not_ended ?_
      simp only [scSocketSend, buvSend, if_true, hwrite msg rfl]
      exact not_ended_active
    · simp only [scSocketSend, buvSend, hr, if_false]
      exact hq
  | closing => exact quiescent_of_not_ended not_ended_closing
  | connected errcode hc =>
    intro hended
    exact ⟨rfl, (hq hended).2⟩
  | connection => exact hq
  | received => exact hq
  | flushed n left hw _ =>
    intro hended
    rw [(hq hended).2] at hw
    cases hw
  | sent errcode left hw _ =>
    intro hended
    exact ⟨(hq hended).1, rfl⟩
  | closed _ hw hc => exact fun _ => ⟨hc, hw⟩

/-- A call of the application does not end the life of an open handle. -/
theorem call_not_ended (h : step heap s e = some (t, effects)) (he : isLoop e = false)
    (hopen : ¬ Ended s.backend.stream.phase) : ¬ Ended t.backend.stream.phase := by
  cases step_stepped h with
  | opened e t effects _ ho =>
    rcases opened_stream ho with hs | hs
    · rw [hs]
      exact hopen
    · rw [hs]
      exact not_ended_active
  | listened => exact hopen
  | submitted msg result =>
    simp only [scSocketSend, buvSend]
    split <;> exact hopen
  | closing => exact not_ended_closing
  | _ => cases he

/-- The loop calls back only for an open handle. -/
theorem loop_not_ended (h : step heap s e = some (t, effects)) (he : isLoop e = true)
    (hq : Quiescent s) : ¬ Ended s.backend.stream.phase := by
  intro hended
  obtain ⟨hc, hw⟩ := hq hended
  have hactive : s.backend.stream.phase ≠ .active := fun ha => not_ended_active (ha ▸ hended)
  cases step_stepped h with
  | opened e t effects ho _ => cases e <;> first | exact absurd ho id | cases he
  | listened => cases he
  | submitted => cases he
  | closing => cases he
  | connected errcode hconn => simp [hc] at hconn
  | connection errcode => simp [step, hactive] at h
  | received e r effects ha _ _ => exact hactive ha
  | flushed n left hw' _ => simp [hw] at hw'
  | sent errcode left hw' _ => simp [hw] at hw'
  | closed hp _ _ => exact not_ended_closing (hp ▸ hended)

theorem stepRest_stream (s : ScSocket) (c : Callback) :
    (stepRest s c).1.backend.stream = s.backend.stream := by
  cases c <;> rfl

/-- What holds of the stream after a whole function holds already when it calls back. -/
theorem head_stream (h : stepHead heap s e = some (t, effects)) :
    ∃ u all, step heap s e = some (u, all) ∧ u.backend.stream = t.backend.stream := by
  rcases step_of_head h with ⟨_, hs⟩ | ⟨c, _, hs⟩
  · exact ⟨_, _, hs, rfl⟩
  · exact ⟨_, _, hs, stepRest_stream t c⟩

end Sockets

/-- Only the read callback of an active handle calls `on_recv`. -/
theorem recv_called_active {heap : Heap} {s v : ScSocket} {e : Event} {effects : List Effect}
    (h : stepHead heap s e = some (v, effects)) (hc : calledBack effects = some .recv) :
    v.backend.stream.phase = .active := by
  by_cases he : ∃ r, e = .recv r
  · obtain ⟨r, rfl⟩ := he
    simp only [stepHead, Option.ite_none_right_eq_some, Option.map_eq_some_iff] at h
    obtain ⟨⟨hactive, _⟩, x, _, hx⟩ := h
    obtain ⟨rfl, _⟩ := Prod.mk.inj hx
    exact hactive
  · have hne : ∀ r, e ≠ .recv r := fun r hr => he ⟨r, hr⟩
    have hstep : step heap s e = some (v, effects) := stepHead_eq s hne ▸ h
    obtain ⟨x, hx, hfam⟩ := calledBack_recv hc
    exact absurd hfam (step_quiet hstep hne x hx)

section Worlds

variable {H : Type} {heaps : ℕ → Heap} {w u : World H} {i : ℕ} {e : Event}
  {out : List (Outcome H)} {slot : Slot H}

/-- `busy` says that an `on_recv` of the socket is running. -/
structure Sound (busy : Prop) (slot : Slot H) : Prop where
  quiescent : Quiescent slot.socket
  ended : slot.freed = true → Ended slot.socket.backend.stream.phase
  running : busy → ¬ Ended slot.socket.backend.stream.phase

def AllSound (w : World H) : Prop :=
  ∀ i slot, w.slots[i]? = some slot → Sound ((i, .recv) ∈ w.stack) slot

theorem allSound_set {stack : List (ℕ × Callback)} {new : Slot H} (h : AllSound w)
    (hi : w.slots[i]? = some slot) (hnew : Sound ((i, .recv) ∈ stack) new)
    (hstack : ∀ j, j ≠ i → (j, .recv) ∈ stack → (j, .recv) ∈ w.stack) :
    AllSound { w.setSlot i new with stack := stack } := by
  intro j other hj
  by_cases hji : i = j
  · subst hji
    have hget := setSlot_get hi new
    obtain rfl : new = other := Option.some.inj (hget.symm.trans hj)
    exact hnew
  · have hget : w.slots[j]? = some other := (setSlot_ne hji new).symm.trans hj
    obtain ⟨hq, hended, hrun⟩ := h j other hget
    exact ⟨hq, hended, fun hbusy => hrun (hstack j (Ne.symm hji) hbusy)⟩

theorem forall_slot {P : Slot H → Prop} (hi : w.slots[i]? = some slot) (h : P slot) :
    ∀ other, w.slots[i]? = some other → P other := by
  intro other hother
  obtain rfl : slot = other := Option.some.inj (hi.symm.trans hother)
  exact h

theorem touch_live (h : slot.freed = false) : touch i slot = [] := by simp [touch, h]

theorem not_touched {effects : List Effect} (j : ℕ) :
    Outcome.touched j ∉ effects.map (Outcome.effect (H := H) i) := by
  intro hmem
  obtain ⟨x, _, hx⟩ := List.mem_map.mp hmem
  cases hx

/-- A function of the library that works on a live socket. -/
theorem advance_sound (h : Advanced heaps w i e u out) (hw : AllSound w)
    (hidle : isLoop e = true → w.stack = [])
    (hlive : ∀ slot, w.slots[i]? = some slot → slot.freed = false)
    (hwrite : ∀ slot msg, w.slots[i]? = some slot → e = .send msg 0 →
      slot.socket.backend.stream.phase = .active) :
    AllSound u ∧ ∀ j, Outcome.touched j ∉ out := by
  have hmain : ∀ (slot : Slot H) (v new : ScSocket) (effects : List Effect),
      w.slots[i]? = some slot → stepHead (heaps i) slot.socket e = some (v, effects) →
      new.backend.stream = v.backend.stream →
      Sound ((i, .recv) ∈ w.stack) { slot with socket := new } := by
    intro slot v new effects hi hs hnew
    obtain ⟨t, all, hstep, hstream⟩ := head_stream hs
    have hold := hw i slot hi
    refine ⟨?_, ?_, ?_⟩
    · have hq := step_quiescent hstep hold.quiescent fun msg he => hwrite slot msg hi he
      intro hended
      rw [hnew] at hended ⊢
      rw [← hstream] at hended ⊢
      exact hq hended
    · intro hfreed
      rw [hlive slot hi] at hfreed
      cases hfreed
    · intro hbusy
      have hcall : isLoop e = false := by
        by_contra hloop
        rw [hidle (by simpa using hloop)] at hbusy
        cases hbusy
      rw [hnew, ← hstream]
      exact call_not_ended hstep hcall (hold.running hbusy)
  cases h with
  | quiet slot v effects hi hs hc =>
    refine ⟨allSound_set hw hi (hmain slot v v effects hi hs rfl) fun _ _ hmem => hmem, ?_⟩
    intro j
    rw [touch_live (hlive slot hi)]
    exact not_touched j
  | waiting slot v effects c f hi hs hc hh =>
    have hold := hmain slot v v effects hi hs rfl
    constructor
    · refine allSound_set hw hi ⟨hold.quiescent, hold.ended, ?_⟩ ?_
      · intro hmem
        rcases List.mem_cons.mp hmem with heq | hmem
        · obtain rfl := (Prod.mk.inj heq).2
          rw [recv_called_active hs hc]
          exact not_ended_active
        · exact hold.running hmem
      · intro j hj hmem
        rcases List.mem_cons.mp hmem with heq | hmem
        · exact absurd (Prod.mk.inj heq).1 hj
        · exact hmem
    · intro j
      rw [touch_live (hlive slot hi)]
      simp
  | warned slot v effects c hi hs hc hh =>
    refine ⟨allSound_set hw hi (hmain slot v _ effects hi hs (stepRest_stream v c))
      fun _ _ hmem => hmem, ?_⟩
    intro j
    rw [touch_live (hlive slot hi)]
    simp

theorem advanced_head (h : Advanced heaps w i e u out) :
    ∃ slot v effects, w.slots[i]? = some slot ∧
      stepHead (heaps i) slot.socket e = some (v, effects) := by
  cases h with
  | quiet slot v effects hi hs hc => exact ⟨slot, v, effects, hi, hs⟩
  | waiting slot v effects c f hi hs hc hh => exact ⟨slot, v, effects, hi, hs⟩
  | warned slot v effects c hi hs hc hh => exact ⟨slot, v, effects, hi, hs⟩

theorem loop_live (h : Advanced heaps w i e u out) (hw : AllSound w) (he : isLoop e = true) :
    Live w i := by
  obtain ⟨slot, v, effects, hi, hs⟩ := advanced_head h
  obtain ⟨t, all, hstep, _⟩ := head_stream hs
  refine forall_slot hi ?_
  have hopen := loop_not_ended hstep he (hw i slot hi).quiescent
  exact Bool.eq_false_iff.mpr fun hfreed => hopen ((hw i slot hi).ended hfreed)

theorem new_sound (hn : Nested w) (hw : AllSound w) :
    AllSound { w with slots := w.slots ++ [⟨newSocket, scWatcherInit, false⟩] } := by
  intro j other hj
  by_cases hlt : j < w.slots.length
  · have hget : w.slots[j]? = some other := by
      rw [← hj]
      exact (List.getElem?_append_left hlt).symm
    exact hw j other hget
  · have hfree : (j, Callback.recv) ∉ w.stack := fun hmem => hlt (hn.inside _ hmem)
    have hlast : other = ⟨newSocket, scWatcherInit, false⟩ := by
      have hj' : ([⟨newSocket, scWatcherInit, false⟩] : List (Slot H))[j - w.slots.length]? =
          some other := by
        rw [← hj]
        exact (List.getElem?_append_right (by omega)).symm
      simpa using List.mem_of_getElem? hj'
    subst hlast
    exact ⟨fun _ => ⟨rfl, rfl⟩, fun hfreed => (by cases hfreed), fun hbusy => absurd hbusy hfree⟩

/-- One move of a careful program keeps every socket sound and touches no freed one. -/
theorem move_sound {m : Move H} (hn : Nested w) (hw : AllSound w) (hlegal : Legal w m)
    (h : Made heaps w m u out) : AllSound u ∧ ∀ j, Outcome.touched j ∉ out := by
  cases h with
  | unmade => exact ⟨hw, fun _ => List.not_mem_nil⟩
  | made => exact ⟨new_sound hn hw, fun _ => List.not_mem_nil⟩
  | deleted k slot hk =>
    have hold := hw k slot hk
    refine ⟨allSound_set hw hk ⟨hold.quiescent, fun _ => hlegal.2 slot hk, hold.running⟩
      fun _ _ hmem => hmem, ?_⟩
    rw [touch_live (hlegal.1 slot hk)]
    simp
  | registered k c cb slot hk =>
    have hold := hw k slot hk
    refine ⟨allSound_set hw hk ⟨hold.quiescent, hold.ended, hold.running⟩ fun _ _ hmem => hmem, ?_⟩
    rw [touch_live (hlegal slot hk)]
    simp
  | called k e u out he h =>
    refine advance_sound h hw ?_ hlegal.1 ?_
    · rw [isLoop_of_isCall he]
      intro hloop
      cases hloop
    · rintro slot msg hk rfl
      exact (hlegal.2 slot hk).1
  | accepted server client ans slot u out hk h =>
    obtain ⟨hu, hout⟩ := advance_sound h hw (by intro hloop; cases hloop) hlegal.2.1
      (by intro _ _ _ hsend; cases hsend)
    rw [touch_live (hlegal.1 slot hk)]
    exact ⟨hu, hout⟩
  | looped k e u out hidle he h =>
    refine advance_sound h hw (fun _ => hidle) (loop_live h hw he) ?_
    rintro slot msg _ rfl
    cases he
  | returned k c rest hstack hc =>
    refine ⟨?_, fun _ => List.not_mem_nil⟩
    intro j other hj
    obtain ⟨hq, hended, hrun⟩ := hw j other hj
    refine ⟨hq, hended, fun hbusy => hrun ?_⟩
    rw [hstack]
    exact List.mem_cons_of_mem _ hbusy
  | received k rest slot hstack hk =>
    have hold := hw k slot hk
    have hopen : ¬ Ended slot.socket.backend.stream.phase :=
      hold.running (by rw [hstack]; exact List.mem_cons_self)
    have hlive : slot.freed = false := Bool.eq_false_iff.mpr fun hfreed => hopen (hold.ended hfreed)
    refine ⟨allSound_set hw hk ⟨hold.quiescent, hold.ended, fun _ => hopen⟩ ?_, ?_⟩
    · intro j _ hmem
      rw [hstack]
      exact List.mem_cons_of_mem _ hmem
    · intro j
      rw [touch_live hlive]
      exact not_touched j

end Worlds

/-- A program that keeps the rules for handles and deletes a socket only when it was never opened or
its close is over: whatever is nested in what, no function of the library touches a socket that was
freed. -/
theorem no_use_after_free {H : Type} (heaps : ℕ → Heap) (ms : List (Move H)) (w : World H)
    (out : List (Outcome H)) (hlegal : EveryStep (worldStep heaps) Legal .start ms)
    (hrun : run (worldStep heaps) .start ms = some (w, out)) : ∀ i, Outcome.touched i ∉ out := by
  have hstart : AllSound (World.start (H := H)) := by
    intro i slot hi
    cases hi
  have htrace := run_traced
    (fun w _ past => (Nested w ∧ AllSound w) ∧ ∀ i, Outcome.touched i ∉ past) Legal ?_
    ⟨⟨nested_start, hstart⟩, fun _ => List.not_mem_nil⟩ hlegal hrun
  · exact htrace.2
  · intro w m u seen past out hm hI hs
    have hmade := worldStep_made hs
    obtain ⟨hsound, hout⟩ := move_sound hI.1.1 hI.1.2 hm hmade
    refine ⟨⟨move_nested hI.1.1 hmade, hsound⟩, ?_⟩
    intro i hmem
    exact (List.mem_append.mp hmem).elim (hI.2 i) (hout i)

/-- A socket that is deleted inside its own `on_close`. -/
def deletedAtClose : List (Move ℕ) :=
  [.new true true, .on 0 .close (some 1), .call 0 (.bind pipeUri noErrors), .call 0 .close,
    .loop 0 .closed, .del 0, .ret]

theorem no_use_after_free_at_close :
    ∃ w out, run (worldStep fun _ => reliable zeroBlocks) .start deletedAtClose = some (w, out) ∧
      ∀ i, Outcome.touched i ∉ out := by
  have hlegal : EveryStep (worldStep fun _ => reliable zeroBlocks) Legal .start deletedAtClose := by
    refine (everyStep_cons _ rfl).mpr ⟨trivial, ?_⟩
    refine (everyStep_cons _ rfl).mpr ⟨forall_slot rfl rfl, ?_⟩
    refine (everyStep_cons _ rfl).mpr ⟨⟨forall_slot rfl rfl, forall_slot rfl (.inl rfl)⟩, ?_⟩
    refine (everyStep_cons _ rfl).mpr ⟨⟨forall_slot rfl rfl, forall_slot rfl rfl⟩, ?_⟩
    refine (everyStep_cons _ rfl).mpr ⟨trivial, ?_⟩
    refine (everyStep_cons _ rfl).mpr ⟨⟨forall_slot rfl rfl, forall_slot rfl (.inr rfl)⟩, ?_⟩
    exact (everyStep_cons _ rfl).mpr ⟨trivial, trivial⟩
  exact ⟨_, _, rfl, no_use_after_free _ deletedAtClose _ _ hlegal rfl⟩

example :
    ∃ w out, run (worldStep fun _ => reliable zeroBlocks) .start
        (nestedServer.take 13 ++ [.del 1, .ret]) = some (w, out) ∧ Outcome.touched 1 ∈ out :=
  ⟨_, _, rfl, by decide⟩

end ShortCircuit.SocketLifetime
