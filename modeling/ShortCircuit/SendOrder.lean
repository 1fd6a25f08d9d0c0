import ShortCircuit.SocketRuns

set_option autoImplicit false

/-!
# Sends on one socket

A socket has one write request and `buv_send` does not check whether libuv still owns
it. When the application waits for `on_send` before it sends again, as the test client
does, `sends_in_order` accounts for every send: it is submitted once, its bytes are
written in order, and it is reported once.
-/
namespace ShortCircuit.SendOrder
open Message Boundary OutputMachine Receive Backend Socket SocketRuns

/-- The part of a run that concerns the write request. -/
inductive WriteCall where
  | submit (owned : Bool) (bytes : List UInt8)
  | written (bytes : List UInt8)
  | done (errcode : Int)
  deriving DecidableEq, Repr

/-- A call of `uv_write` that returned an error submitted nothing. -/
def write? : Effect → Option WriteCall
  | .uvWrite owned bytes result => if result = 0 then some (.submit owned bytes) else none
  | .written bytes => some (.written bytes)
  | .onSend errcode => some (.done errcode)
  | _ => none

def writeCalls (effects : List Effect) : List WriteCall := effects.filterMap write?

def WriteCall.written? : WriteCall → Option (List UInt8)
  | .written bytes => some bytes
  | _ => none

def writtenBytes (calls : List WriteCall) : List UInt8 :=
  (calls.filterMap WriteCall.written?).flatten

/-- The encoding of the message of a send that returned zero. -/
def accepted : Event → Option (List UInt8)
  | .send msg result => if result = 0 then some (sendBuffers msg).flatten else none
  | _ => none

/-- A submitted send, of which libuv has written some pieces. -/
structure Sending where
  bytes : List UInt8
  pieces : List (List UInt8)
  left : List UInt8
  split : bytes = pieces.flatten ++ left

def Sending.log (t : Sending) : List WriteCall := .submit false t.bytes :: t.pieces.map .written

/-- A send that was reported; with status zero all of it was written. -/
structure Completed extends Sending where
  errcode : Int
  whole : errcode = 0 → left = []

def Completed.log (c : Completed) : List WriteCall := c.toSending.log ++ [.done c.errcode]

/-- A send or a new connection starts only while no submitted send waits for its `on_send`. -/
def Serialised (s : ScSocket) (e : Event) : Prop :=
  ((∃ msg result, e = .send msg result) ∨ opens e) → s.backend.stream.writing = none

/-- The write calls are those of the completed sends, in the order of the calls of
`sc_socket_send` that returned zero, and of at most one send in progress. -/
def WriteAccount (s : ScSocket) (es : List Event) (effects : List Effect) (done : List Completed)
    (pending : Option Sending) : Prop :=
  es.filterMap accepted = done.map (fun c => c.bytes) ++ (pending.map Sending.bytes).toList ∧
    writeCalls effects = done.flatMap Completed.log ++ (pending.map Sending.log).getD [] ∧
    pending.map Sending.left = s.backend.stream.writing

theorem writeCalls_append (xs ys : List Effect) :
    writeCalls (xs ++ ys) = writeCalls xs ++ writeCalls ys := List.filterMap_append

theorem writeCalls_nil {effects : List Effect} (h : ∀ x ∈ effects, x.family ≠ .write) :
    writeCalls effects = [] := by
  rw [writeCalls, List.filterMap_eq_nil_iff]
  intro x hx
  have hf := h x hx
  cases x <;> first | rfl | exact absurd rfl hf

theorem accepted_snoc (es : List Event) {e : Event} (h : accepted e = none) :
    (es ++ [e]).filterMap accepted = es.filterMap accepted := by
  simp [h]

theorem WriteAccount.keep {s u : ScSocket} {e : Event} {es : List Event} {past effects : List Effect}
    {done : List Completed} {pending : Option Sending} (h : WriteAccount s es past done pending)
    (hw : u.backend.stream.writing = s.backend.stream.writing) (he : accepted e = none)
    (hq : writeCalls effects = []) : WriteAccount u (es ++ [e]) (past ++ effects) done pending := by
  obtain ⟨hcalls, hlog, hpend⟩ := h
  refine ⟨?_, ?_, ?_⟩
  · rw [accepted_snoc es he, hcalls]
  · rw [writeCalls_append, hlog, hq, List.append_nil]
  · rw [hw, hpend]

theorem WriteAccount.pending_none {s : ScSocket} {es : List Event} {past : List Effect}
    {done : List Completed} {pending : Option Sending} (h : WriteAccount s es past done pending)
    (hw : s.backend.stream.writing = none) : pending = none := by
  have hp := h.2.2
  rw [hw] at hp
  exact Option.map_eq_none_iff.mp hp

theorem WriteAccount.pending_some {s : ScSocket} {es : List Event} {past : List Effect}
    {done : List Completed} {pending : Option Sending} {left : List UInt8}
    (h : WriteAccount s es past done pending) (hw : s.backend.stream.writing = some left) :
    ∃ t : Sending, pending = some t ∧ t.left = left := by
  have hp := h.2.2
  rw [hw] at hp
  exact Option.map_eq_some_iff.mp hp

theorem WriteAccount.submit {s : ScSocket} {es : List Event} {past : List Effect} {done : List Completed}
    {pending : Option Sending} (h : WriteAccount s es past done pending)
    (hw : s.backend.stream.writing = none) (msg : ScMsg) (result : Int) :
    ∃ pending', WriteAccount (scSocketSend result s msg).1 (es ++ [.send msg result])
      (past ++ [.uvWrite s.backend.stream.writing.isSome (sendBuffers msg).flatten result])
      done pending' := by
  by_cases hr : result = 0
  · obtain rfl := h.pending_none hw
    obtain ⟨hcalls, hlog, _⟩ := h
    subst hr
    refine ⟨some ⟨(sendBuffers msg).flatten, [], (sendBuffers msg).flatten, rfl⟩, ?_, ?_, rfl⟩
    · simp [accepted, hcalls]
    · rw [writeCalls_append, hlog, hw]
      simp [writeCalls, write?, Sending.log]
  · refine ⟨pending, h.keep ?_ (by simp [accepted, hr]) (by simp [writeCalls, write?, hr])⟩
    simp [scSocketSend, buvSend, hr]

theorem WriteAccount.flush {s : ScSocket} {es : List Event} {past : List Effect} {done : List Completed}
    {pending : Option Sending} {left : List UInt8} (h : WriteAccount s es past done pending)
    (hw : s.backend.stream.writing = some left) (n : ℕ) :
    ∃ pending', WriteAccount (withStream s { s.backend.stream with writing := some (left.drop n) })
      (es ++ [.flushed n]) (past ++ [.written (left.take n)]) done pending' := by
  obtain ⟨t, rfl, rfl⟩ := h.pending_some hw
  obtain ⟨hcalls, hlog, _⟩ := h
  refine ⟨some ⟨t.bytes, t.pieces ++ [t.left.take n], t.left.drop n, ?_⟩, ?_, ?_, rfl⟩
  · rw [t.split]
    simp
  · rw [accepted_snoc es rfl, hcalls]
    rfl
  · rw [writeCalls_append, hlog]
    simp [writeCalls, write?, Sending.log]

theorem WriteAccount.report {s : ScSocket} {es : List Event} {past : List Effect} {done : List Completed}
    {pending : Option Sending} {left : List UInt8} (h : WriteAccount s es past done pending)
    (hw : s.backend.stream.writing = some left) (errcode : Int) (hz : errcode = 0 → left = []) :
    ∃ done', WriteAccount (withStream s { s.backend.stream with writing := none })
      (es ++ [.sent errcode]) (past ++ [.onSend errcode]) done' none := by
  obtain ⟨t, rfl, rfl⟩ := h.pending_some hw
  obtain ⟨hcalls, hlog, _⟩ := h
  refine ⟨done ++ [⟨t, errcode, hz⟩], ?_, ?_, rfl⟩
  · rw [accepted_snoc es rfl, hcalls]
    simp
  · rw [writeCalls_append, hlog]
    simp [writeCalls, write?, Completed.log]

theorem not_write_of_plain {effects : List Effect} (h : ∀ x ∈ effects, Plain x) :
    ∀ x ∈ effects, x.family ≠ .write := by
  intro x hx
  rw [h x hx]
  decide

theorem opened_writes {uv v : SocketUv} {effects : List Effect} {ok : Bool}
    (h : Opened uv v effects ok)
    (hw : uv.stream.writing = none) :
    v.stream.writing = none ∧ ∀ x ∈ effects, x.family ≠ .write := by
  cases h with
  | untouched hs hr he => exact ⟨by rw [hs, hw], not_write_of_plain he⟩
  | refused proto pre rest hs hr he hpre hrest =>
    rw [he, List.forall_mem_append, List.forall_mem_cons]
    exact ⟨by rw [hs, hw], not_write_of_plain hpre, by simp [Effect.family], not_write_of_plain hrest⟩
  | ready proto reading connecting pre rest hone hs hr he hpre hrest =>
    rw [he, List.forall_mem_append, List.forall_mem_cons]
    exact ⟨by rw [hs], not_write_of_plain hpre, by simp [Effect.family], not_write_of_plain hrest⟩

theorem uriDel_writes (s : ScSocket) : writeCalls (uriDelEffects s) = [] := by
  unfold uriDelEffects
  split <;> rfl

theorem accepted_of_opens {e : Event} (h : opens e) : accepted e = none := by
  cases e <;> first | rfl | exact absurd h id

variable {heap : Heap}

theorem writeAccount_step {s u : ScSocket} {e : Event} {es : List Event} {past effects : List Effect}
    (he : Serialised s e) (h : ∃ done pending, WriteAccount s es past done pending)
    (hs : step heap s e = some (u, effects)) :
    ∃ done pending, WriteAccount u (es ++ [e]) (past ++ effects) done pending := by
  obtain ⟨done, pending, h⟩ := h
  cases step_stepped hs with
  | opened e u effects hopen ho =>
    have hw := he (.inr hopen)
    obtain ⟨hw', hq⟩ := opened_writes ho hw
    exact ⟨done, pending, h.keep (by rw [hw, hw']) (accepted_of_opens hopen) (writeCalls_nil hq)⟩
  | listened backlog result => exact ⟨done, pending, h.keep rfl rfl rfl⟩
  | submitted msg result => exact ⟨done, h.submit (he (.inl ⟨msg, result, rfl⟩)) msg result⟩
  | closing => exact ⟨done, pending, h.keep rfl rfl (uriDel_writes s)⟩
  | connected errcode hc => exact ⟨done, pending, h.keep rfl rfl rfl⟩
  | connection errcode => exact ⟨done, pending, h.keep rfl rfl rfl⟩
  | received e r effects hactive hreading hr =>
    refine ⟨done, pending, h.keep rfl rfl (writeCalls_nil ?_)⟩
    intro x hx
    rw [recv_family hr x hx]
    decide
  | flushed n left hw hn => exact ⟨done, h.flush hw n⟩
  | sent errcode left hw hz =>
    obtain ⟨done', h'⟩ := h.report hw errcode hz
    exact ⟨done', none, h'⟩
  | closed hp hw hc => exact ⟨done, pending, h.keep rfl rfl rfl⟩

/-- `uv_write` never got a request that libuv owned. -/
def Unshared (effects : List Effect) : Prop := ∀ bytes result, .uvWrite true bytes result ∉ effects

theorem unshared_of_family {effects : List Effect} (h : ∀ x ∈ effects, x.family ≠ .write) :
    Unshared effects := fun _ _ hx => h _ hx rfl

theorem unshared_step {s u : ScSocket} {e : Event} {effects : List Effect} (he : Serialised s e)
    (hs : step heap s e = some (u, effects)) : Unshared effects := by
  intro bytes result
  cases step_stepped hs with
  | opened e u effects hopen ho =>
    exact unshared_of_family (opened_writes ho (he (.inr hopen))).2 bytes result
  | submitted msg result => simp [he (.inl ⟨msg, result, rfl⟩)]
  | closing =>
    unfold uriDelEffects
    split <;> simp
  | received e r effects hactive hreading hr =>
    refine unshared_of_family ?_ bytes result
    intro x hx
    rw [recv_family hr x hx]
    decide
  | _ => simp

theorem writtenBytes_append (xs ys : List WriteCall) :
    writtenBytes (xs ++ ys) = writtenBytes xs ++ writtenBytes ys := by
  simp [writtenBytes]

theorem writtenBytes_log (t : Sending) : writtenBytes t.log = t.pieces.flatten := by
  have hp : (t.pieces.map WriteCall.written).filterMap WriteCall.written? = t.pieces := by
    rw [List.filterMap_map]
    exact List.filterMap_some
  rw [writtenBytes, Sending.log, List.filterMap_cons_none rfl, hp]

theorem writtenBytes_completed {done : List Completed} (h : ∀ c ∈ done, c.errcode = 0) :
    writtenBytes (done.flatMap Completed.log) = (done.map fun c => c.bytes).flatten := by
  induction done with
  | nil => rfl
  | cons c done ih =>
    obtain ⟨hc, hdone⟩ := List.forall_mem_cons.mp h
    rw [List.flatMap_cons, writtenBytes_append, ih hdone, Completed.log, writtenBytes_append,
      writtenBytes_log, List.map_cons, List.flatten_cons, c.split, c.whole hc]
    simp [writtenBytes, WriteCall.written?]

/-- When each send waits for the `on_send` of the one before it, no request is submitted twice,
every send that returned zero is reported exactly once, and the bytes written are the encodings in
call order, as long as no write fails. -/
theorem sends_in_order (heap : Heap) (es : List Event) (v : ScSocket) (effects : List Effect)
    (hserial : EveryStep (step heap) Serialised newSocket es)
    (hrun : run (step heap) newSocket es = some (v, effects)) :
    Unshared effects ∧ ∃ done pending, WriteAccount v es effects done pending ∧
      ((∀ c ∈ done, c.errcode = 0) →
        writtenBytes (writeCalls effects) ++ v.backend.stream.writing.getD [] =
          (es.filterMap accepted).flatten) := by
  have hinit : Unshared [] ∧ ∃ done pending, WriteAccount newSocket [] [] done pending :=
    ⟨fun _ _ hx => (nomatch hx), [], none, rfl, rfl, rfl⟩
  have htrace := run_traced
    (fun s es past => Unshared past ∧ ∃ done pending, WriteAccount s es past done pending) Serialised
    (fun s e u seen past out hp hI hs => ⟨fun bytes result hx =>
      (List.mem_append.mp hx).elim (hI.1 bytes result) (unshared_step hp hs bytes result),
      writeAccount_step hp hI.2 hs⟩) hinit hserial hrun
  obtain ⟨hun, done, pending, hcount⟩ := htrace
  refine ⟨hun, done, pending, hcount, ?_⟩
  intro hzero
  obtain ⟨hcalls, hlog, hpend⟩ := hcount
  rw [hcalls, hlog, ← hpend, writtenBytes_append, writtenBytes_completed hzero,
    List.flatten_append, List.append_assoc]
  cases pending with
  | none => rfl
  | some t => simp [writtenBytes_log, t.split]

theorem sends_in_order_two :
    ∃ v effects, run (step (reliable zeroBlocks)) newSocket
        [.accept .tcp ⟨0, 0, 0⟩, .send shortMsg 0, .flushed 2, .flushed 3, .sent 0, .send shortMsg 0] =
          some (v, effects) ∧
      Unshared effects ∧
      writtenBytes (writeCalls effects) ++ v.backend.stream.writing.getD [] =
        [0, 0, 0, 1, 7, 0, 0, 0, 1, 7] := by
  have hserial : EveryStep (step (reliable zeroBlocks)) Serialised newSocket
      [.accept .tcp ⟨0, 0, 0⟩, .send shortMsg 0, .flushed 2, .flushed 3, .sent 0,
        .send shortMsg 0] := by
    iterate 6 refine (everyStep_cons _ rfl).mpr ⟨(by intro h; first | rfl | simp [opens] at h), ?_⟩
    trivial
  obtain ⟨hun, _⟩ := sends_in_order (reliable zeroBlocks)
    [.accept .tcp ⟨0, 0, 0⟩, .send shortMsg 0, .flushed 2, .flushed 3, .sent 0, .send shortMsg 0]
    _ _ hserial rfl
  exact ⟨_, _, rfl, hun, by decide⟩

/-- A second send before the first one was reported: both calls return zero, one is reported. -/
theorem send_overlaps :
    ∃ v effects, run (step (reliable zeroBlocks)) newSocket
        [.accept .tcp ⟨0, 0, 0⟩, .send shortMsg 0, .send shortMsg 0, .flushed 5, .sent 0] =
          some (v, effects) ∧
      ¬ Unshared effects ∧ writtenBytes (writeCalls effects) = [0, 0, 0, 1, 7] ∧
      effects.count (.onSend 0) = 1 ∧ v.backend.stream.writing = none := by
  refine ⟨_, _, rfl, ?_, by decide, by decide, rfl⟩
  intro h
  exact h [0, 0, 0, 1, 7] 0 (by decide)

end ShortCircuit.SendOrder
