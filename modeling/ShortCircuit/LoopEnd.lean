import ShortCircuit.PrintedLines

set_option autoImplicit false

/-!
# When the loops of the two programs end

`uv_run` returns when no handle is active, no request is pending and no handle is being
closed. `main` then calls `uv_loop_close`, which fails if a handle is still open, and
deletes the sockets.
-/
namespace ShortCircuit.LoopEnd
open Message Boundary OutputMachine Receive Backend Socket SocketRuns SendOrder LineInput
open FrameParser SuccessfulOpen HandleDiscipline SocketLifetime
open WordBytes ReceiveRefinement ReceiveBounds
open ConnectionIsolation (Refines.forget)
open CStrings (CString)
open Watchers (isLoop)

section Client

open ClientProgram

/-- The loop of the client goes on. -/
def clientAlive (client : Client) : Bool :=
  client.asyncOpen || client.idleOpen || client.signalsOpen ||
    client.socket.backend.stream.phase == .closing || client.socket.backend.stream.connecting ||
    client.socket.backend.stream.writing.isSome

/-- All handles of the client are closed. -/
def ClientClosed (client : Client) : Prop :=
  client.asyncOpen = false ∧ client.idleOpen = false ∧ client.signalsOpen = false ∧
    client.socket.backend.stream.phase = .closed

/-- In which order the client closes its handles. -/
structure Closing (client : Client) : Prop where
  asked : client.asyncOpen = true → client.terminate = false
  stopped : client.idleOpen = false →
    client.terminate = true ∧ client.socket.backend.stream.phase ≠ .active
  opened : client.socket.backend.stream.phase ≠ .uninit
  closed : client.socket.backend.stream.phase = .closed →
    client.socket.backend.stream.writing = none ∧
      client.socket.backend.stream.connecting = false ∧ client.signalsOpen = false

variable {client next : Client} {effects : List Effect}

theorem Closing.all_closed (h : Closing client) (hs : SendsOnly client)
    (hphase : client.socket.backend.stream.phase = .closed) : ClientClosed client := by
  have hidle : client.idleOpen = false := by
    by_contra hopen
    rw [hs.active (by simpa using hopen)] at hphase
    cases hphase
  have hasync : client.asyncOpen = false := by
    by_contra hopen
    have hterm := h.asked (by simpa using hopen)
    rw [(h.stopped hidle).1] at hterm
    cases hterm
  exact ⟨hasync, hidle, (h.closed hphase).2.2, hphase⟩

theorem Closing.alive_iff (h : Closing client) (hs : SendsOnly client) :
    clientAlive client = false ↔ client.socket.backend.stream.phase = .closed := by
  constructor
  · intro hend
    simp only [clientAlive, Bool.or_eq_false_iff, beq_eq_false_iff_ne] at hend
    obtain ⟨⟨⟨⟨⟨_, hidle⟩, _⟩, hclosing⟩, _⟩, _⟩ := hend
    have hactive := (h.stopped hidle).2
    have hopened := h.opened
    cases hp : client.socket.backend.stream.phase with
    | uninit => exact absurd hp hopened
    | active => exact absurd hp hactive
    | closing => exact absurd hp hclosing
    | closed => rfl
  · intro hphase
    obtain ⟨hasync, hidle, hsignals, _⟩ := h.all_closed hs hphase
    obtain ⟨hwriting, hconnecting, _⟩ := h.closed hphase
    simp [clientAlive, hasync, hidle, hsignals, hphase, hwriting, hconnecting]

theorem Closing.congr (h : Closing client)
    (hs : next.socket.backend.stream = client.socket.backend.stream)
    (hasync : next.asyncOpen = client.asyncOpen) (hidle : next.idleOpen = client.idleOpen)
    (hsignals : next.signalsOpen = client.signalsOpen)
    (hterm : next.terminate = client.terminate) : Closing next := by
  constructor
  · rw [hasync, hterm]
    exact h.asked
  · rw [hidle, hterm, hs]
    exact h.stopped
  · rw [hs]
    exact h.opened
  · rw [hs, hsignals]
    exact h.closed

theorem closing_idle (h : Closing client) (hs : SendsOnly client) (hidle : client.idleOpen = true)
    (sendResult : Int) (readFails : Bool) : Closing (idleCb sendResult readFails client).1 := by
  have hactive := hs.active hidle
  unfold idleCb
  by_cases hterm : client.terminate = true
  · rw [if_pos hterm]
    refine ⟨h.asked, fun _ => ⟨hterm, ?_⟩, ?_, ?_⟩
    · intro hno
      cases hno
    · intro hno
      cases hno
    · intro hno
      cases hno
  · rw [if_neg hterm]
    by_cases hgo : (!client.inputEof && client.readySend) = true
    · rw [if_pos hgo]
      cases readFails with
      | true => exact h.congr rfl rfl rfl rfl rfl
      | false =>
        simp only [Bool.false_eq_true, if_false]
        split
        · rename_i line file hline
          have hphase : ∀ msg, (scSocketSend sendResult client.socket msg).1.backend.stream.phase =
              .active := by
            intro msg
            rw [← hactive]
            simp only [scSocketSend, buvSend]
            split <;> rfl
          have hsent : ∀ (msg : ScMsg) (next : Client),
              next.socket = (scSocketSend sendResult client.socket msg).1 →
              next.asyncOpen = client.asyncOpen → next.idleOpen = true →
              next.terminate = client.terminate → Closing next := by
            intro msg next hsock hasync hopen hsame
            refine ⟨?_, ?_, ?_, ?_⟩
            · rw [hasync, hsame]
              exact h.asked
            · intro hno
              rw [hopen] at hno
              cases hno
            · rw [hsock, hphase]
              decide
            · rw [hsock, hphase]
              intro hno
              cases hno
          split
          · exact hsent _ _ rfl rfl hidle rfl
          · exact hsent _ _ rfl rfl hidle rfl
        · split
          · exact h.congr rfl rfl rfl rfl rfl
          · exact h.congr rfl rfl rfl rfl rfl
    · rw [if_neg hgo]
      exact h

theorem closing_socket {heap : Heap} {e : Event} {s : ScSocket} (h : Closing client)
    (hst : SendsOnly client) (he : isLoop e = true)
    (hs : step heap client.socket e = some (s, effects)) :
    Closing (reactAll { client with socket := s } effects).1 := by
  cases step_stepped hs with
  | opened e u effects ho _ => cases e <;> first | exact absurd ho id | cases he
  | listened => cases he
  | submitted => cases he
  | closing => cases he
  | connected errcode hc =>
    have hnot : client.socket.backend.stream.phase ≠ .closed := by
      intro hphase
      rw [(h.closed hphase).2.1] at hc
      cases hc
    rw [reactAll_one]
    simp only [react, onConnect, fatal]
    split <;> exact ⟨h.asked, h.stopped, h.opened, fun hphase => absurd hphase hnot⟩
  | connection errcode => exact h.congr rfl rfl rfl rfl rfl
  | received e r effects _ hreading _ =>
    rw [hst.deaf] at hreading
    cases hreading
  | flushed n left hw hn =>
    have hnot : client.socket.backend.stream.phase ≠ .closed := by
      intro hphase
      rw [(h.closed hphase).1] at hw
      cases hw
    exact ⟨h.asked, h.stopped, h.opened, fun hphase => absurd hphase hnot⟩
  | sent errcode left hw hz =>
    have hnot : client.socket.backend.stream.phase ≠ .closed := by
      intro hphase
      rw [(h.closed hphase).1] at hw
      cases hw
    rw [reactAll_one]
    simp only [react, onSend, fatal]
    split <;> exact ⟨h.asked, h.stopped, h.opened, fun hphase => absurd hphase hnot⟩
  | closed hp hw hc =>
    have hidle : client.idleOpen = false := by
      by_contra hopen
      rw [hst.active (by simpa using hopen)] at hp
      cases hp
    refine ⟨h.asked, fun _ => ⟨(h.stopped hidle).1, ?_⟩, ?_, fun _ => ⟨hw, hc, rfl⟩⟩
    · intro hno
      cases hno
    · intro hno
      cases hno

theorem closing_step {heap : Heap} {e : ClientEvent} (h : Closing client) (hst : SendsOnly client)
    (hs : clientStep heap client e = some (next, effects)) : Closing next := by
  cases e with
  | idle sendResult readFails =>
    simp only [clientStep, Option.ite_none_left_eq_some, not_or, Bool.not_eq_true,
      Option.some.injEq] at hs
    obtain ⟨⟨_, hidle⟩, heq⟩ := hs
    obtain rfl : (idleCb sendResult readFails client).1 = next := congrArg Prod.fst heq
    exact closing_idle h hst (by simpa using hidle) sendResult readFails
  | async =>
    simp only [clientStep, Option.ite_none_left_eq_some, not_or, Bool.not_eq_true,
      Option.some.injEq, Prod.mk.injEq] at hs
    obtain ⟨_, rfl, rfl⟩ := hs
    exact ⟨fun hno => (by cases hno), fun hidle => ⟨rfl, (h.stopped hidle).2⟩, h.opened, h.closed⟩
  | signal =>
    simp only [clientStep, Option.ite_none_left_eq_some, not_or, Bool.not_eq_true,
      Option.some.injEq, Prod.mk.injEq] at hs
    obtain ⟨_, rfl, rfl⟩ := hs
    unfold signalCb
    split
    · exact h
    · exact h.congr rfl rfl rfl rfl rfl
  | socket e =>
    simp only [clientStep, Option.ite_none_left_eq_some, not_or, Bool.not_eq_true] at hs
    obtain ⟨⟨_, hloop⟩, hs⟩ := hs
    split at hs
    · cases hs
    · rename_i s out hstep
      obtain ⟨rfl, rfl⟩ := Prod.mk.inj (Option.some.inj hs)
      exact closing_socket h hst (by simpa using hloop) hstep

theorem closing_start {socket : ScSocket} (msg : ScMsg) (input : List UInt8)
    (h : socket.backend.stream = ⟨.active, false, true, none⟩) :
    Closing (.start socket msg input) := by
  refine ⟨fun _ => rfl, fun hno => (by cases hno), ?_, ?_⟩
  · simp [Client.start, h]
  · simp [Client.start, h]

/-- The loop of the client ends exactly when its socket is closed. No handle is left open then, and
however the client was stopped, every line that it had read is written as a whole. -/
theorem client_ends_whole (heap : Heap) (env : UriEnv) (uri : CString) (msg : ScMsg)
    (input : List UInt8) (socket : ScSocket) (opening : List Effect) (es : List ClientEvent)
    (client : Client) (effects : List Effect)
    (hconnect : scSocketConnect env newSocket uri = .ok (socket, 0, opening))
    (hrun : run (clientStep heap) (.start socket msg input) es = some (client, effects))
    (hexit : client.exited = false) :
    (clientAlive client = false ↔ client.socket.backend.stream.phase = .closed) ∧
      (client.socket.backend.stream.phase = .closed → ClientClosed client ∧
        ∃ k, writtenBytes (writeCalls effects) = wire ((readLines lineMax k input).map untilNul) ∧
          input = (readLines lineMax k input).flatten ++ client.input.rest) := by
  have hstream := connect_ok hconnect
  have htrace := run_traced
    (fun client _ past => (∃ k unwritten, Sends input k unwritten client past) ∧ Closing client)
    (fun _ _ => True)
    (fun _ _ _ _ _ _ _ hI hs => by
      obtain ⟨⟨k, unwritten, h⟩, hclosing⟩ := hI
      exact ⟨sends_step h hs, closing_step hclosing h.sendsOnly hs⟩)
    ⟨⟨0, [], sends_start msg input hstream⟩, closing_start msg input hstream⟩
    (everyStep_of_forall _ _ fun _ _ => trivial) hrun
  obtain ⟨⟨k, unwritten, h⟩, hclosing⟩ := htrace
  refine ⟨hclosing.alive_iff h.sendsOnly, ?_⟩
  intro hphase
  have hbytes := h.bytes
  rw [h.pending hexit, (hclosing.closed hphase).1, Option.getD_none, List.append_nil] at hbytes
  refine ⟨hclosing.all_closed h.sendsOnly hphase, k, hbytes, ?_⟩
  rw [h.unread hexit, readLines_afterLines]

/-- A signal stops the client after the first of two lines. -/
def oneLineSent : List ClientEvent :=
  [.socket (.connected 0), .idle 0 false, .signal, .socket (.flushed 6), .async, .socket (.sent 0),
    .idle 0 false, .socket .closed]

set_option maxRecDepth 20000 in
theorem client_ends_whole_signal :
    ∃ socket opening client effects,
      scSocketConnect noErrors newSocket pipeUri = .ok (socket, 0, opening) ∧
      run (clientStep (reliable zeroBlocks)) (.start socket lineMsg [104, 10, 120]) oneLineSent =
        some (client, effects) ∧
      clientAlive client = false ∧ ClientClosed client ∧
        ∃ k, writtenBytes (writeCalls effects) =
            wire ((readLines lineMax k [104, 10, 120]).map untilNul) ∧
          [104, 10, 120] = (readLines lineMax k [104, 10, 120]).flatten ++ [120] := by
  have h := client_ends_whole (reliable zeroBlocks) noErrors pipeUri lineMsg [104, 10, 120] _ _
    oneLineSent _ _ rfl rfl rfl
  exact ⟨_, _, _, _, rfl, rfl, h.1.mpr rfl, h.2 rfl⟩

end Client

section Server

open ServerProgram

/-- The loop of the server goes on: a socket is active while it listens or reads. -/
def serverAlive (server : Server) : Bool :=
  server.asyncOpen || server.idleOpen || server.signalsOpen ||
    server.listening.backend.stream.phase == .active ||
    server.listening.backend.stream.phase == .closing ||
    (server.peer.backend.stream.phase == .active && server.peer.backend.stream.reading) ||
    server.peer.backend.stream.phase == .closing

/-- No handle of the server is open. -/
def ServerClosed (server : Server) : Prop :=
  server.asyncOpen = false ∧ server.idleOpen = false ∧ server.signalsOpen = false ∧
    server.listening.backend.stream.phase = .closed ∧ Ended server.peer.backend.stream.phase

/-- In which order the server closes its handles. -/
structure Draining (server : Server) : Prop where
  opened : server.listening.backend.stream.phase ≠ .uninit
  stopped : server.idleOpen = false → server.listening.backend.stream.phase ≠ .active
  closed : server.listening.backend.stream.phase = .closed → server.signalsOpen = false
  waiting : server.terminate = .notset → server.asyncOpen = true ∧ server.signalsOpen = true
  reads : server.peer.backend.stream.phase = .active → server.peer.backend.stream.reading = true

variable {server next : Server} {out : Tagged} {heaps : Endpoint → Heap}

theorem Draining.all_closed (h : Draining server) (ho : Orderly server)
    (hphase : server.listening.backend.stream.phase = .closed) : ServerClosed server := by
  have hidle : server.idleOpen = false := by
    by_contra hopen
    rw [ho.listens (by simpa using hopen)] at hphase
    cases hphase
  have hterm := ho.ordered hidle
  have hasync : server.asyncOpen = false := by
    by_contra hopen
    rw [ho.unasked (by simpa using hopen)] at hterm
    cases hterm
  exact ⟨hasync, hidle, h.closed hphase, hphase, ho.peerEnded (ho.last hterm)⟩

theorem Draining.alive_iff (h : Draining server) (ho : Orderly server) :
    serverAlive server = false ↔ server.listening.backend.stream.phase = .closed := by
  constructor
  · intro hend
    simp only [serverAlive, Bool.or_eq_false_iff, beq_eq_false_iff_ne] at hend
    obtain ⟨⟨⟨⟨_, hactive⟩, hclosing⟩, _⟩, _⟩ := hend
    have hopened := h.opened
    cases hp : server.listening.backend.stream.phase with
    | uninit => exact absurd hp hopened
    | active => exact absurd hp hactive
    | closing => exact absurd hp hclosing
    | closed => rfl
  · intro hphase
    obtain ⟨hasync, hidle, hsignals, _, hpeer⟩ := h.all_closed ho hphase
    rcases hpeer with hpeer | hpeer <;>
      simp [serverAlive, hasync, hidle, hsignals, hphase, hpeer]

theorem draining_clientOnRecv (h : Draining server) (msg : Option Delivery) (code : Int) :
    Draining (clientOnRecv server msg code).1 := by
  have hclose : ∀ server : Server, Draining server → Draining (closePeer server).1 :=
    fun _ hold => ⟨hold.opened, hold.stopped, hold.closed, hold.waiting, fun hno => (by cases hno)⟩
  unfold clientOnRecv
  split
  · exact ⟨h.opened, h.stopped, h.closed, h.waiting, h.reads⟩
  · cases msg with
    | none => exact hclose server h
    | some m =>
      have hprinted : Draining (outf server (printMsg m)) :=
        ⟨h.opened, h.stopped, h.closed, h.waiting, h.reads⟩
      simp only
      split
      · exact hclose _ hprinted
      · exact hprinted

theorem served_draining {e : ServerEvent} (h : Draining server) (ho : Orderly server)
    (hs : Served server e next out) (hexit : next.exited = false) : Draining next := by
  cases hs with
  | drained ha ht => exact ⟨h.opened, h.stopped, h.closed, fun hno => (by cases hno), h.reads⟩
  | stopped ht hopen =>
    refine ⟨?_, fun _ => ?_, ?_, h.waiting, h.reads⟩
    · intro hno
      cases hno
    · intro hno
      cases hno
    · intro hno
      cases hno
  | asked hopen => exact ⟨h.opened, h.stopped, h.closed, fun hno => (by cases hno), h.reads⟩
  | signalled =>
    unfold signalCb
    split
    · exact h
    · exact ⟨h.opened, h.stopped, h.closed, h.waiting, h.reads⟩
  | accepted ans proto q rest ht hq hreceiver hrest =>
    refine ⟨h.opened, h.stopped, h.closed, h.waiting, ?_⟩
    intro _
    rw [hq]
  | refused ans proto q rest ht hrest => cases hexit
  | listeningClosed ans hp =>
    have hterm : server.terminate = .server := by
      apply ho.ordered
      by_contra hopen
      rw [ho.listens (by simpa using hopen)] at hp
      cases hp
    refine ⟨?_, fun _ => ?_, fun _ => rfl, ?_, h.reads⟩
    · intro hno
      cases hno
    · intro hno
      cases hno
    · intro hno
      rw [hterm] at hno
      cases hno
  | received heap e r msg code id hactive hreading hr hcode =>
    have hread : Draining { server with peer := withReceiver server.peer r } :=
      ⟨h.opened, h.stopped, h.closed, h.waiting, h.reads⟩
    exact draining_clientOnRecv hread msg code
  | peerClosed hp =>
    exact ⟨h.opened, h.stopped, h.closed, h.waiting, fun hno => (by cases hno)⟩
  | _ => exact ⟨h.opened, h.stopped, h.closed, h.waiting, h.reads⟩

/-- Every buffer that libuv holds has room. -/
def Roomy (uv : Receiver) : Prop :=
  (∃ p, Refines uv p) ∧ ∀ buf, uv.offered = some buf → 1 ≤ buf.len

/-- The sizes that libuv may suggest; it always suggests 65536. -/
def Suggested (sg : ℕ) : Prop := 1 ≤ sg ∧ sg < 2 ^ 32

theorem roomy_forget {uv : Receiver} (h : Roomy uv) : Roomy { uv with offered := none } := by
  obtain ⟨⟨p, hp⟩, _⟩ := h
  exact ⟨⟨_, Refines.forget hp⟩, fun _ hno => (by cases hno)⟩

theorem roomy_step {heap : Heap} {uv v : Receiver} {e : ReadEvent} {effects : List Effect}
    (h : Roomy uv) (he : ∀ sg, e = .alloc sg → Suggested sg)
    (hs : recvStep heap uv e = some (v, effects)) : Roomy v := by
  obtain ⟨⟨p, hp⟩, _⟩ := h
  refine ⟨refines_step hp (recvStep_backed uv e _ hs), ?_⟩
  have hsize : ∀ sg, e = .alloc sg → 0 < u32 sg := by
    intro sg heq
    obtain ⟨hlow, hhigh⟩ := he sg heq
    rw [u32_of_lt hhigh]
    exact hlow
  intro buf hbuf
  cases recvStep_moved hs with
  | offered sg msg hm =>
    obtain rfl := Option.some.inj hbuf
    exact offerBuf_pos (hp.held msg hm) (hsize sg rfl)
  | fresh sg b hb hm =>
    obtain rfl := Option.some.inj hbuf
    exact offerBuf_pos (held_fresh b _ _) (hsize sg rfl)
  | _ => cases hbuf

/-- A server that has not ended with a fatal error. -/
structure Running (server : Server) : Prop where
  live : server.exited = false
  orderly : Orderly server
  draining : Draining server
  roomy : Roomy server.peer.backend.toReceiver

/-- The events as libuv makes them here: a connection comes while no peer is active, and the end
of a stream is reported for a buffer that has room. -/
structure Regular (server : Server) (e : ServerEvent) : Prop where
  accepts : AcceptsInactive server e
  suggests : ∀ sg, e = .peer (.recv (.alloc sg)) → Suggested sg
  ends : ∀ nread, e = .peer (.recv (.stop nread)) →
    ∃ buf, server.peer.backend.offered = some buf ∧ 1 ≤ buf.len

/-- Neither a connection nor a callback of a read. -/
def routine : ServerEvent → Bool
  | .listening (.connection _) _ | .peer (.recv _) => false
  | _ => true

theorem regular_routine {e : ServerEvent} (h : routine e = true) : Regular server e := by
  refine ⟨?_, ?_, ?_⟩
  · rintro ans rfl
    cases h
  · rintro sg rfl
    cases h
  · rintro nread rfl
    cases h

def peerLeft : Bool → HandlePhase → Option UvBuf → ℕ
  | false, _, _ => 0
  | true, .active, none => 3
  | true, .active, some _ => 2
  | true, _, _ => 1

def askLeft : Terminate → Bool → ℕ
  | .notset, false => 3
  | .notset, true => 2
  | .client, _ => 1
  | .server, _ => 0

def closeLeft : HandlePhase → ℕ
  | .closed => 0
  | _ => 1

/-- The number of events until the server has stopped, if nothing else happens. -/
def remaining (server : Server) : ℕ :=
  peerLeft server.active server.peer.backend.stream.phase server.peer.backend.offered +
    askLeft server.terminate server.asyncPending + server.idleOpen.toNat +
    closeLeft server.listening.backend.stream.phase

theorem remaining_le (server : Server) : remaining server ≤ 8 := by
  have hpeer : peerLeft server.active server.peer.backend.stream.phase
      server.peer.backend.offered ≤ 3 := by
    cases server.active <;> cases server.peer.backend.stream.phase <;>
      cases server.peer.backend.offered <;> simp [peerLeft]
  have hask : askLeft server.terminate server.asyncPending ≤ 3 := by
    cases server.terminate <;> cases server.asyncPending <;> decide
  have hidle := Bool.toNat_le server.idleOpen
  have hopen : closeLeft server.listening.backend.stream.phase ≤ 1 := by
    cases server.listening.backend.stream.phase <;> decide
  unfold remaining
  omega

theorem served_roomy {e : ServerEvent} (h : Roomy server.peer.backend.toReceiver)
    (he : ∀ sg, e = .peer (.recv (.alloc sg)) → Suggested sg) (hs : Served server e next out)
    (hexit : next.exited = false) : Roomy next.peer.backend.toReceiver := by
  cases PrintedLines.served_peer hs with
  | kept _ _ hreceiver _ _ =>
    rw [hreceiver]
    exact h
  | opened ans _ _ _ hreceiver _ =>
    rw [hreceiver]
    exact roomy_forget h
  | fatal _ hno _ =>
    rw [hno] at hexit
    cases hexit
  | read heap r effects rest heq _ _ hr _ _ _ =>
    refine roomy_step h ?_ hr
    rintro sg rfl
    exact he sg heq

theorem running_step {e : ServerEvent} (h : Running server)
    (he : ∀ sg, e = .peer (.recv (.alloc sg)) → Suggested sg)
    (hs : serverStep heaps server e = some (next, out)) (hexit : next.exited = false) :
    Running next := by
  obtain ⟨_, hserved⟩ := serverStep_served (fun _ => h.orderly) hs
  exact ⟨hexit, served_orderly h.orderly hserved hexit,
    served_draining h.draining h.orderly hserved hexit, served_roomy h.roomy he hserved hexit⟩

/-- An event that libuv may report next and that brings the server closer to its end. -/
def NearsEnd (heaps : Endpoint → Heap) (server : Server) : Prop :=
  ∃ e next out, Regular server e ∧ serverStep heaps server e = some (next, out) ∧ Running next ∧
    remaining next < remaining server

theorem Running.progress {e : ServerEvent} (h : Running server) (hregular : Regular server e)
    (hs : serverStep heaps server e = some (next, out)) (hexit : next.exited = false)
    (hlt : remaining next < remaining server) : NearsEnd heaps server :=
  ⟨e, next, out, hregular, hs, running_step h hregular.suggests hs hexit, hlt⟩

/-- `alloc_wrap` offers a buffer whenever `sc_msg_alloc` returns memory. -/
theorem step_alloc {heap : Heap} {s : ScSocket} (hphase : s.backend.stream.phase = .active)
    (hreading : s.backend.stream.reading = true) (hheap : ∀ n, heap n ≠ none) (sg : ℕ) :
    ∃ r effects, step heap s (.recv (.alloc sg)) = some (withReceiver s r, effects) ∧
      r.offered ≠ none ∧ ∀ server : Server, peerReactAll server effects = (server, []) := by
  have hstep : ∀ {r : Receiver} {effects : List Effect},
      recvStep heap s.backend.toReceiver (.alloc sg) = some (r, effects) →
        step heap s (.recv (.alloc sg)) = some (withReceiver s r, effects) := by
    intro r effects hr
    simp only [step, hphase, hreading, and_self, if_true, hr]
    rfl
  cases hm : s.backend.msg with
  | some msg =>
    exact ⟨_, _, hstep (alloc_held heap sg hm), fun hno => (by cases hno), fun _ => rfl⟩
  | none =>
    obtain ⟨b, hb⟩ := Option.ne_none_iff_exists'.mp (hheap s.backend.allocs)
    exact ⟨_, _, hstep (alloc_obtained sg hm hb), fun hno => (by cases hno), fun _ => rfl⟩

theorem step_stop (heap : Heap) {s : ScSocket} (hphase : s.backend.stream.phase = .active)
    (hreading : s.backend.stream.reading = true) :
    ∃ r id, step heap s (.recv (.stop uvEof)) =
      some (withReceiver s r, [.onRecv none 0, .msgFree id]) := by
  refine ⟨{ s.backend.toReceiver with msg := none, offered := none },
    s.backend.msg.map ScMsg.id, ?_⟩
  simp only [step, hphase, hreading, and_self, if_true]
  rfl

theorem step_closed (heap : Heap) {s : ScSocket} (hphase : s.backend.stream.phase = .closing)
    (hwriting : s.backend.stream.writing = none) (hconnecting : s.backend.stream.connecting = false) :
    step heap s .closed =
      some (withStream s { s.backend.stream with phase := .closed }, [.onClose]) := by
  simp only [step, hphase, hwriting, hconnecting, Bool.not_false, and_self, if_true]
  rfl

theorem serverStep_peer {e : Event} {s : ScSocket} {effects : List Effect}
    (hexit : server.exited = false) (he : isLoop e = true)
    (hs : step (heaps .peer) server.peer e = some (s, effects)) :
    serverStep heaps server (.peer e) = some ((peerReactAll { server with peer := s } effects).1,
      effects.map (Prod.mk .peer) ++ (peerReactAll { server with peer := s } effects).2) := by
  simp [serverStep, hexit, he, hs]

/-- While a peer is active, a buffer is offered for the end of its stream, or the end of its
stream or of its close comes next. -/
theorem progress_active (hheap : ∀ n, heaps .peer n ≠ none) (h : Running server)
    (hactive : server.active = true) : NearsEnd heaps server := by
  obtain ⟨hconnecting, hwriting⟩ := h.orderly.peerIdle
  have hopen := h.orderly.peerOpen hactive
  cases hphase : server.peer.backend.stream.phase with
  | uninit => exact absurd (.inl hphase) hopen
  | active =>
    have hreading := h.draining.reads hphase
    cases hoffered : server.peer.backend.offered with
    | none =>
      obtain ⟨r, effects, hstep, hsome, hquiet⟩ := step_alloc hphase hreading hheap 65536
      have hs := serverStep_peer h.live rfl hstep
      rw [hquiet] at hs
      obtain ⟨buf, hbuf⟩ := Option.ne_none_iff_exists'.mp hsome
      refine h.progress ⟨fun _ heq => (by cases heq), ?_, fun _ heq => (by cases heq)⟩ hs h.live ?_
      · intro sg heq
        cases heq
        exact ⟨by decide, by decide⟩
      · simp [remaining, withReceiver, peerLeft, hactive, hphase, hoffered, hbuf]
    | some buf =>
      obtain ⟨r, id, hstop⟩ := step_stop (heaps .peer) hphase hreading
      have hs := serverStep_peer h.live rfl hstop
      rw [peerReactAll_recv] at hs
      refine h.progress ⟨fun _ heq => (by cases heq), fun _ heq => (by cases heq), ?_⟩ hs h.live ?_
      · exact fun _ _ => ⟨buf, hoffered, h.roomy.2 buf hoffered⟩
      · simp [remaining, clientOnRecv, closePeer, scSocketClose, buvClose, peerLeft, hactive, hphase,
          hoffered]
  | closing =>
    have hs := serverStep_peer h.live rfl (step_closed (heaps .peer) hphase hwriting hconnecting)
    refine h.progress (regular_routine rfl) hs h.live ?_
    simp [remaining, peerReactAll, peerReact, clientOnClose, peerLeft, hactive, hphase]
  | closed => exact absurd (.inr hphase) hopen

/-- A signal and the async callback ask the server to stop. -/
theorem progress_signal (h : Running server) (hterm : server.terminate = .notset) :
    NearsEnd heaps server := by
  obtain ⟨hasync, hsignals⟩ := h.draining.waiting hterm
  cases hpending : server.asyncPending with
  | true =>
    have hs : serverStep heaps server .async = some (asyncCb server, []) := by
      simp [serverStep, h.live, hasync, hpending]
    refine h.progress (regular_routine rfl) hs h.live ?_
    simp [remaining, asyncCb, askLeft, hterm, hpending]
  | false =>
    have hcb : signalCb server = { server with asyncPending := true } := by
      simp [signalCb, hterm]
    have hs : serverStep heaps server .signal = some (signalCb server, []) := by
      simp [serverStep, h.live, hsignals]
    rw [hcb] at hs
    refine h.progress (regular_routine rfl) hs h.live ?_
    simp [remaining, askLeft, hterm, hpending]

theorem progress_idle (h : Running server) (hactive : server.active = false)
    (hidle : server.idleOpen = true) (hterm : server.terminate ≠ .notset) :
    NearsEnd heaps server := by
  have hs : serverStep heaps server .idle = some (idleCb server) := by
    simp [serverStep, h.live, hidle]
  have hregular : Regular server .idle := regular_routine rfl
  cases ht : server.terminate with
  | notset => exact absurd ht hterm
  | client =>
    have hcb : idleCb server = ({ server with terminate := .server }, []) := by
      simp [idleCb, hactive, ht]
    rw [hcb] at hs
    refine h.progress hregular hs h.live ?_
    simp [remaining, askLeft, ht]
  | server =>
    have hcb : idleCb server = closeListening { server with idleOpen := false } := by
      simp [idleCb, hactive, ht]
    rw [hcb] at hs
    refine h.progress hregular hs h.live ?_
    have hphase := h.orderly.listens hidle
    simp [remaining, scSocketClose, buvClose, closeLeft, hidle, hphase]

theorem progress_closing (h : Running server) (hidle : server.idleOpen = false)
    (hopen : server.listening.backend.stream.phase ≠ .closed) : NearsEnd heaps server := by
  obtain ⟨_, hconnecting, hwriting⟩ := h.orderly.idle
  have hphase : server.listening.backend.stream.phase = .closing := by
    have hstopped := h.draining.stopped hidle
    have hopened := h.draining.opened
    cases hp : server.listening.backend.stream.phase with
    | uninit => exact absurd hp hopened
    | active => exact absurd hp hstopped
    | closing => rfl
    | closed => exact absurd hp hopen
  have hclosed := step_closed (heaps .listening) hphase hwriting hconnecting
  have hs : serverStep heaps server (.listening .closed ⟨0, 0, 0⟩) = some
      (serverOnClose { server with
          listening := withStream server.listening
            { server.listening.backend.stream with phase := .closed } },
        [(.listening, .onClose)]) := by
    simp [serverStep, h.live, isLoop, hclosed, listeningReactAll, listeningReact]
  refine h.progress (regular_routine rfl) hs h.live ?_
  simp [remaining, serverOnClose, withStream, closeLeft, hphase]

theorem running_progress (hheap : ∀ n, heaps .peer n ≠ none) (h : Running server)
    (hopen : server.listening.backend.stream.phase ≠ .closed) : NearsEnd heaps server := by
  by_cases hterm : server.terminate = .notset
  · exact progress_signal h hterm
  · cases hactive : server.active with
    | true => exact progress_active hheap h hactive
    | false =>
      cases hidle : server.idleOpen with
      | true => exact progress_idle h hactive hidle hterm
      | false => exact progress_closing h hidle hopen

theorem running_start {env : UriEnv} {uri : CString} {listening : ScSocket} {opening : List Effect}
    (h : scSocketBind env newSocket uri = .ok (listening, 0, opening)) :
    Running (.start listening) := by
  have hstream := bind_ok h
  refine ⟨rfl, orderly_start h, ⟨?_, fun hno => (by cases hno), ?_, fun _ => ⟨rfl, rfl⟩,
    fun hno => (by cases hno)⟩, ⟨_, refines_init⟩, fun _ hno => (by cases hno)⟩
  · simp [Server.start, hstream]
  · simp [Server.start, hstream]

/-- The loop of the server ends exactly when the listening socket is closed, and no handle is left
open then. When peers come one at a time and memory is available, at most eight more events stop a
running server, and libuv is never called for a handle in the wrong phase. -/
theorem server_can_end (heaps : Endpoint → Heap) (env : UriEnv) (uri : CString)
    (listening : ScSocket) (opening : List Effect) (es : List ServerEvent) (server : Server)
    (out : Tagged) (hheap : ∀ n, heaps .peer n ≠ none)
    (hbind : scSocketBind env newSocket uri = .ok (listening, 0, opening))
    (hcare : EveryStep (serverStep heaps) AcceptsInactive (.start listening) es)
    (hsizes : ∀ sg, .peer (.recv (.alloc sg)) ∈ es → Suggested sg)
    (hrun : run (serverStep heaps) (.start listening) es = some (server, out))
    (hexit : server.exited = false) :
    (serverAlive server = false ↔ server.listening.backend.stream.phase = .closed) ∧
      (server.listening.backend.stream.phase = .closed → ServerClosed server) ∧
      ∃ fs last more, run (serverStep heaps) server fs = some (last, more) ∧
        EveryStep (serverStep heaps) Regular server fs ∧ (∀ x ∈ out ++ more, HandleOk x.2) ∧
        fs.length ≤ 8 ∧ last.exited = false ∧ serverAlive last = false := by
  have hrunning : server.exited = false → Running server := by
    refine run_traced (fun s _ _ => s.exited = false → Running s)
      (fun _ e => ∀ sg, e = .peer (.recv (.alloc sg)) → Suggested sg) ?_
      (fun _ => running_start hbind) (everyStep_of_forall _ _ ?_) hrun
    · intro s e u seen past more he hs hstep hlive
      obtain ⟨hbefore, _⟩ := serverStep_served (fun hb => (hs hb).orderly) hstep
      exact running_step (hs hbefore) he hstep hlive
    · rintro e he sg rfl
      exact hsizes sg he
  have hr := hrunning hexit
  refine ⟨hr.draining.alive_iff hr.orderly, hr.draining.all_closed hr.orderly, ?_⟩
  obtain ⟨fs, last, more, hfs, hregular, hlast, hgoal, hlen⟩ := run_reaches Running
    (fun s => s.listening.backend.stream.phase = .closed) Regular remaining
    (fun s hs hopen => running_progress hheap hs hopen) hr
  have hpast := (handles_iff (fun _ => orderly_start hbind) hrun).mpr hcare
  have hmore := (handles_iff (fun _ => hr.orderly) hfs).mpr
    (everyStep_imp (fun _ _ he => he.accepts) hregular)
  exact ⟨fs, last, more, hfs, hregular, List.forall_mem_append.mpr ⟨hpast, hmore⟩,
    hlen.trans (remaining_le server), hlast.live,
    (hlast.draining.alive_iff hlast.orderly).mpr hgoal⟩

theorem server_can_end_visited :
    ∃ listening opening server out,
      scSocketBind noErrors newSocket pipeUri = .ok (listening, 0, opening) ∧
      run (serverStep fun _ => reliable zeroBlocks) (.start listening)
          [.listening (.connection 0) ⟨0, 0, 0⟩, .peer (.recv (.alloc 65536))] =
        some (server, out) ∧
      serverAlive server = true ∧
      ∃ fs last more, run (serverStep fun _ => reliable zeroBlocks) server fs = some (last, more) ∧
        fs.length ≤ 8 ∧ last.exited = false ∧ serverAlive last = false := by
  have h := server_can_end (fun _ => reliable zeroBlocks) noErrors pipeUri _ _
    [.listening (.connection 0) ⟨0, 0, 0⟩, .peer (.recv (.alloc 65536))] _ _
    (by intro _ hno; cases hno) rfl ?_ ?_ rfl rfl
  · obtain ⟨fs, last, more, hfs, _, _, hlen, hexit, hend⟩ := h.2.2
    exact ⟨_, _, _, _, rfl, rfl, rfl, fs, last, more, hfs, hlen, hexit, hend⟩
  · exact ⟨fun _ _ _ => rfl, fun _ _ _ => ⟨fun _ heq => (by cases heq), fun _ _ _ => trivial⟩⟩
  · intro sg hsg
    simp only [List.mem_cons, reduceCtorEq, ServerEvent.peer.injEq, Event.recv.injEq,
      ReadEvent.alloc.injEq, List.not_mem_nil, or_false, false_or] at hsg
    rw [hsg]
    exact ⟨by decide, by decide⟩

end Server

end ShortCircuit.LoopEnd
