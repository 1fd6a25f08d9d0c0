import ShortCircuit.FramingRoundTrip

set_option autoImplicit false

/-!
# Isolation of successive connections

`read_wrap` drops the message in progress at the end of a stream and on errors, but
neither `buv_close` nor `buv_accept` does. The `on_recv` calls of a connection are
those of a new socket exactly when no received byte is held at the accept.
-/
namespace ShortCircuit.ConnectionIsolation
open Message Boundary OutputMachine FrameParser Receive ReceiveRefinement
open Backend Socket SocketRuns

theorem Refines.forget {uv : Receiver} {p : Parser} (h : Refines uv p) :
    Refines { uv with offered := none } ⟨p.pending, none⟩ :=
  ⟨h.idle, h.held, rfl, fun _ hk => (nomatch hk)⟩

variable {blocks : ℕ → Block}

theorem reachable_refines {es : List Event} {s : ScSocket} {effects : List Effect}
    (hrun : run (step (reliable blocks)) newSocket es = some (s, effects)) :
    ∃ p, Refines s.backend.toReceiver p :=
  run_receiver (I := fun uv => ∃ p, Refines uv p) (E := fun _ => True) ⟨_, refines_init⟩
    (fun _ ⟨_, hp⟩ => ⟨_, Refines.forget hp⟩) (fun _ _ _ _ _ ⟨_, hp⟩ hs => refines_step hp hs)
    (fun _ _ => trivial) hrun

/-- The `on_recv` calls of the connection for which `s` is accepted next. -/
def nextConnection (blocks : ℕ → Block) (s : ScSocket) (proto : Proto) (reads : List ReadEvent) :
    Option (List (Option Delivery × Int)) :=
  (run (step (reliable blocks)) s (.accept proto ⟨0, 0, 0⟩ :: reads.map .recv)).map
    fun r => onRecvs r.2

def Isolated (s : ScSocket) : Prop :=
  ∀ blocks blocks' proto reads, proto ≠ .noset →
    nextConnection blocks s proto reads = nextConnection blocks' newSocket proto reads

/-- No byte of an earlier connection is held. -/
def Clean (s : ScSocket) : Prop := s.backend.msg = none ∨ s.backend.reader.headPos = 0

theorem nextConnection_eq (blocks : ℕ → Block) {s : ScSocket} {p : Parser} {proto : Proto}
    (hp : Refines s.backend.toReceiver p) (hproto : proto ≠ .noset) (reads : List ReadEvent) :
    nextConnection blocks s proto reads =
      (run parserStep ⟨p.pending, none⟩ reads).map fun r => r.2 := by
  have hag := recvRun_agree blocks (Refines.forget hp) reads
  rw [nextConnection, run_cons _ _ (accept_ok _ s hproto),
    run_recv (s := acceptedSocket s proto) _ rfl rfl]
  change Agree Refines onRecvs id (run _ (acceptedSocket s proto).backend.toReceiver reads) _ at hag
  generalize run (recvStep (reliable blocks)) (acceptedSocket s proto).backend.toReceiver reads = x
    at hag ⊢
  generalize run parserStep ⟨p.pending, none⟩ reads = y at hag ⊢
  cases hag with
  | none => rfl
  | some h =>
    simp only [Option.map_some, onRecvs_append, h.2]
    rfl

theorem clean_iff {s : ScSocket} {p : Parser} (hp : Refines s.backend.toReceiver p) :
    Clean s ↔ p.pending = .empty := by
  constructor
  · rintro (hm | hpos)
    · exact hp.idle hm
    · cases hm : s.backend.msg with
      | none => exact hp.idle hm
      | some msg =>
        have hnil : p.pending.head = [] := by
          rw [← List.length_eq_zero_iff, ← (hp.held msg hm).headPos]
          exact hpos
        exact Pending.ext hnil (Pending.body_nil (by rw [hnil]; decide))
  · intro he
    cases hm : s.backend.msg with
    | none => exact .inl hm
    | some msg =>
      right
      rw [(hp.held msg hm).headPos, he]
      rfl

theorem feed_zero {p : Pending} (h : (p.feed [0]).2 = [[]]) : p = .empty := by
  have ht := Pending.feed_taken p [0] (by simp) p.room_pos
  generalize (p.feed [0]).1 = q at ht
  generalize (p.feed [0]).2 = out at ht h
  cases ht with
  | early hh hz =>
    have hnil : p.head = [] := by
      by_contra hne
      have := p.unfinished hne
      exact WordBytes.leading_append_ne_zero (by omega) [0] hz
    exact Pending.ext hnil (Pending.body_nil (by rw [hnil]; decide))
  | header hh hz _ hq hb => simp at h
  | done hh hd => simp at h
  | partway hh hd _ hq hb => simp at h

/-- In every reachable state the next connection is isolated from everything before it exactly when
the socket holds no byte of an earlier one. -/
theorem isolated_iff (blocks : ℕ → Block) (es : List Event) (s : ScSocket) (effects : List Effect)
    (hrun : run (step (reliable blocks)) newSocket es = some (s, effects)) :
    Isolated s ↔ Clean s := by
  obtain ⟨p, hp⟩ := reachable_refines hrun
  rw [clean_iff hp]
  constructor
  · intro h
    have hz := h blocks blocks .tcp [.alloc 1, .read [0]] (by decide)
    have hroom : ([0] : List UInt8).length ≤ min p.pending.room (WordBytes.u32 1) :=
      le_min p.pending.room_pos (by decide)
    rw [nextConnection_eq blocks hp (by decide),
      nextConnection_eq (s := newSocket) blocks refines_init (by decide)] at hz
    simp only [run, parserStep, hroom, if_true, Option.map_some, List.nil_append,
      List.append_nil] at hz
    have hout : (p.pending.feed [0]).2.map message = [message []] := Option.some.inj hz
    apply feed_zero
    cases hf : (p.pending.feed [0]).2 with
    | nil => simp [hf] at hout
    | cons d ds =>
      simp only [hf, List.map_cons, List.cons.injEq, List.map_eq_nil_iff, message, Prod.mk.injEq,
        Option.some.injEq, Delivery.mk.injEq] at hout
      rw [hout.1.1.2, hout.2]
  · intro he blocks₁ blocks₂ proto reads hproto
    rw [nextConnection_eq blocks₁ hp hproto, he,
      nextConnection_eq (s := newSocket) blocks₂ refines_init hproto]
    rfl

theorem isolated_after_eof :
    ∃ s effects, run (step (reliable zeroBlocks)) newSocket
        [.accept .tcp ⟨0, 0, 0⟩, .recv (.alloc 65536), .recv (.read [0, 0, 0, 2]),
          .recv (.alloc 65536), .recv (.stop uvEof), .close, .closed] = some (s, effects) ∧
      Isolated s := by
  have h := isolated_iff zeroBlocks [.accept .tcp ⟨0, 0, 0⟩, .recv (.alloc 65536),
    .recv (.read [0, 0, 0, 2]), .recv (.alloc 65536), .recv (.stop uvEof), .close, .closed] _ _ rfl
  exact ⟨_, _, rfl, h.mpr (.inl rfl)⟩

/-- A connection that is closed in the middle of a message: the next peer sends two zero bytes. -/
theorem closed_partway_leaks :
    ∃ s effects, run (step (reliable zeroBlocks)) newSocket
        [.accept .tcp ⟨0, 0, 0⟩, .recv (.alloc 65536), .recv (.read [0, 0, 0, 2]), .close,
          .closed] = some (s, effects) ∧
      nextConnection zeroBlocks s .tcp [.alloc 65536, .read [0, 0]] =
        some [(some ⟨2, [0, 0]⟩, 0)] ∧
      nextConnection zeroBlocks newSocket .tcp [.alloc 65536, .read [0, 0]] =
        some [(some ⟨0, []⟩, 0)] ∧ ¬ Isolated s := by
  refine ⟨_, _, rfl, rfl, rfl, ?_⟩
  intro h
  have hz := h zeroBlocks zeroBlocks .tcp [.alloc 65536, .read [0, 0]] (by decide)
  exact absurd hz (by decide)

end ShortCircuit.ConnectionIsolation
