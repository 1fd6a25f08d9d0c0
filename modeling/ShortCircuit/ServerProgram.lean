import ShortCircuit.ClientProgram
import ShortCircuit.HandleDiscipline
import ShortCircuit.SocketLifetime
import ShortCircuit.Transport
import ShortCircuit.UriRoundTrip

set_option autoImplicit false

/-!
# The test server (`server.c`)

The server listens on one socket and accepts every peer into one other socket. It prints
each message it gets. A signal sets `terminate` to `CLIENT` through the async handle; when
no peer is active any more the idle callback sets it to `SERVER`, and the one after that
closes the listening socket. A fatal error ends the process.
-/
namespace ShortCircuit.ServerProgram
open Message Boundary OutputMachine TaggedTraces Receive Backend Socket SocketRuns
open HandleDiscipline SocketLifetime SuccessfulOpen
open ClientProgram (untilNul)
open Watchers (isLoop plain_quiet)
open Transport (quiet_of_family)
open UriRoundTrip (decimalText)
open CStrings (CString Fault ch)

inductive Terminate where
  | notset
  | client
  | server
  deriving DecidableEq, Repr

inductive Endpoint where
  | listening
  | peer
  deriving DecidableEq, Repr

structure Server where
  listening : ScSocket
  peer : ScSocket
  active : Bool
  terminate : Terminate
  asyncOpen : Bool
  asyncPending : Bool
  idleOpen : Bool
  signalsOpen : Bool
  output : List UInt8
  exited : Bool

abbrev Tagged := List (Endpoint × Effect)

def fatal (server : Server) : Server := { server with exited := true }

def outf (server : Server) (text : List UInt8) : Server :=
  { server with output := server.output ++ text }

/-- The format is `"[%u](%.*s)\n"`; its second conversion stops at a zero byte. -/
def printMsg (msg : Delivery) : List UInt8 :=
  [ch '['] ++ decimalText msg.size ++ [ch ']', ch '('] ++ untilNul msg.data ++ [ch ')', ch '\n']

def closePeer (server : Server) : Server × Tagged :=
  let r := scSocketClose server.peer
  let server := { server with peer := r.1 }
  (if r.2.1 ≠ 0 then fatal server else server, r.2.2.map (Prod.mk .peer))

def closeListening (server : Server) : Server × Tagged :=
  let r := scSocketClose server.listening
  let server := { server with listening := r.1 }
  (if r.2.1 ≠ 0 then fatal server else server, r.2.2.map (Prod.mk .listening))

def clientOnAccept (server : Server) (errcode : Int) : Server × Tagged :=
  if errcode ≠ 0 then (fatal server, [])
  else
    let server := { server with active := true }
    if server.terminate ≠ .notset then closePeer server else (server, [])

def clientOnRecv (server : Server) (msg : Option Delivery) (errcode : Int) : Server × Tagged :=
  if errcode ≠ 0 then (fatal server, [])
  else
    match msg with
    | none => closePeer server
    | some m =>
      let server := outf server (printMsg m)
      if server.terminate ≠ .notset then closePeer server else (server, [])

def clientOnClose (server : Server) : Server := { server with active := false }

def peerReact (server : Server) : Effect → Server × Tagged
  | .onAccept errcode => clientOnAccept server errcode
  | .onRecv msg errcode => clientOnRecv server msg errcode
  | .onClose => (clientOnClose server, [])
  | _ => (server, [])

def peerReactAll (server : Server) : List Effect → Server × Tagged
  | [] => (server, [])
  | x :: xs =>
    let r := peerReact server x
    let q := peerReactAll r.1 xs
    (q.1, r.2 ++ q.2)

/-- A failed assertion ends the process. -/
def serverOnConnection (heap : Heap) (ans : AcceptAnswers) (server : Server) (errcode : Int) :
    Option (Server × Tagged) :=
  if errcode ≠ 0 then some (fatal server, [])
  else if server.terminate ≠ .notset then some (server, [])
  else
    match step heap server.peer (.accept server.listening.backend.proto ans) with
    | none => none
    | some (p, effects) =>
      let r := peerReactAll { server with peer := p } effects
      some (r.1, effects.map (Prod.mk .peer) ++ r.2)

def serverOnRecv (server : Server) (msg : Option Delivery) (errcode : Int) :
    Option (Server × Tagged) :=
  if errcode ≠ 0 then some (fatal server, []) else msg.map fun m => (outf server (printMsg m), [])

def serverOnClose (server : Server) : Server := { server with signalsOpen := false }

def listeningReact (heap : Heap) (ans : AcceptAnswers) (server : Server) :
    Effect → Option (Server × Tagged)
  | .onConnection errcode => serverOnConnection heap ans server errcode
  | .onRecv msg errcode => serverOnRecv server msg errcode
  | .onClose => some (serverOnClose server, [])
  | _ => some (server, [])

def listeningReactAll (heap : Heap) (ans : AcceptAnswers) (server : Server) :
    List Effect → Option (Server × Tagged)
  | [] => some (server, [])
  | x :: xs =>
    match listeningReact heap ans server x with
    | none => none
    | some r => (listeningReactAll heap ans r.1 xs).map fun q => (q.1, r.2 ++ q.2)

def asyncCb (server : Server) : Server :=
  { server with terminate := .client, asyncOpen := false, asyncPending := false }

def signalCb (server : Server) : Server :=
  if server.terminate ≠ .notset then server else { server with asyncPending := true }

def idleCb (server : Server) : Server × Tagged :=
  if !server.active && server.terminate == .client then ({ server with terminate := .server }, [])
  else if server.terminate = .server then closeListening { server with idleOpen := false }
  else (server, [])

inductive ServerEvent where
  | idle
  | async
  | signal
  | listening (e : Event) (ans : AcceptAnswers)
  | peer (e : Event)

def serverStep (heaps : Endpoint → Heap) : Step Server ServerEvent (Endpoint × Effect)
  | server, .idle => if server.exited ∨ !server.idleOpen then none else some (idleCb server)
  | server, .async =>
    if server.exited ∨ !(server.asyncOpen && server.asyncPending) then none
    else some (asyncCb server, [])
  | server, .signal =>
    if server.exited ∨ !server.signalsOpen then none else some (signalCb server, [])
  | server, .listening e ans =>
    if server.exited ∨ !isLoop e then none
    else
      match step (heaps .listening) server.listening e with
      | none => none
      | some (s, effects) =>
        (listeningReactAll (heaps .peer) ans { server with listening := s } effects).map fun r =>
          (r.1, effects.map (Prod.mk .listening) ++ r.2)
  | server, .peer e =>
    if server.exited ∨ !isLoop e then none
    else
      match step (heaps .peer) server.peer e with
      | none => none
      | some (s, effects) =>
        let r := peerReactAll { server with peer := s } effects
        some (r.1, effects.map (Prod.mk .peer) ++ r.2)

/-- The server when bind and listen have returned zero. -/
def Server.start (listening : ScSocket) : Server :=
  { listening := listening
    peer := newSocket
    active := false
    terminate := .notset
    asyncOpen := true
    asyncPending := false
    idleOpen := true
    signalsOpen := true
    output := []
    exited := false }

/-- The server between two callbacks, as long as it has not ended with a fatal error. -/
structure Orderly (server : Server) : Prop where
  listens : server.idleOpen = true → server.listening.backend.stream.phase = .active
  idle : server.listening.backend.stream.reading = false ∧
    server.listening.backend.stream.connecting = false ∧
      server.listening.backend.stream.writing = none
  peerOpen : server.active = true → ¬ Ended server.peer.backend.stream.phase
  peerEnded : server.active = false → Ended server.peer.backend.stream.phase
  peerIdle : server.peer.backend.stream.connecting = false ∧
    server.peer.backend.stream.writing = none
  last : server.terminate = .server → server.active = false
  ordered : server.idleOpen = false → server.terminate = .server
  unasked : server.asyncOpen = true → server.terminate = .notset

/-- Everything that one event can do to an orderly server. -/
inductive Served (server : Server) : ServerEvent → Server → Tagged → Prop where
  | waited : Served server .idle server []
  | drained (ha : server.active = false) (ht : server.terminate = .client) :
      Served server .idle { server with terminate := .server } []
  | stopped (ht : server.terminate = .server) (hopen : server.idleOpen = true) :
      Served server .idle (closeListening { server with idleOpen := false }).1
        (closeListening { server with idleOpen := false }).2
  | asked (hopen : server.asyncOpen = true) : Served server .async (asyncCb server) []
  | signalled : Served server .signal (signalCb server) []
  | failed (errcode : Int) (ans : AcceptAnswers) (h : errcode ≠ 0) :
      Served server (.listening (.connection errcode) ans) (fatal server)
        [(.listening, .onConnection errcode)]
  | declined (ans : AcceptAnswers) (ht : server.terminate ≠ .notset) :
      Served server (.listening (.connection 0) ans) server [(.listening, .onConnection 0)]
  | accepted (ans : AcceptAnswers) (proto : Proto) (q : ScSocket) (rest : List Effect)
      (ht : server.terminate = .notset) (hq : q.backend.stream = ⟨.active, true, false, none⟩)
      (hreceiver : q.backend.toReceiver = { server.peer.backend.toReceiver with offered := none })
      (hrest : ∀ x ∈ rest, Plain x) :
      Served server (.listening (.connection 0) ans) { server with peer := q, active := true }
        ((.listening, .onConnection 0) ::
          (.uvInit proto server.peer.backend.stream.phase :: rest).map (Prod.mk .peer))
  | refused (ans : AcceptAnswers) (proto : Proto) (q : ScSocket) (rest : List Effect)
      (ht : server.terminate = .notset) (hrest : ∀ x ∈ rest, Plain x) :
      Served server (.listening (.connection 0) ans) { server with peer := q, exited := true }
        ((.listening, .onConnection 0) ::
          (.uvInit proto server.peer.backend.stream.phase :: rest).map (Prod.mk .peer))
  | listeningClosed (ans : AcceptAnswers)
      (h : server.listening.backend.stream.phase = .closing) :
      Served server (.listening .closed ans)
        { server with
          listening := withStream server.listening
            { server.listening.backend.stream with phase := .closed }
          signalsOpen := false }
        [(.listening, .onClose)]
  | reported (errcode : Int) :
      Served server (.peer (.connection errcode)) server [(.peer, .onConnection errcode)]
  | quiet (heap : Heap) (e : ReadEvent) (r : Receiver) (effects : List Effect)
      (hactive : server.peer.backend.stream.phase = .active)
      (hreading : server.peer.backend.stream.reading = true)
      (hr : recvStep heap server.peer.backend.toReceiver e = some (r, effects))
      (hno : onRecvs effects = []) :
      Served server (.peer (.recv e)) { server with peer := withReceiver server.peer r }
        (effects.map (Prod.mk .peer))
  | received (heap : Heap) (e : ReadEvent) (r : Receiver) (msg : Option Delivery) (code : Int)
      (id : Option ℕ) (hactive : server.peer.backend.stream.phase = .active)
      (hreading : server.peer.backend.stream.reading = true)
      (hr : recvStep heap server.peer.backend.toReceiver e =
        some (r, [.onRecv msg code, .msgFree id]))
      (hcode : msg ≠ none → code = 0) :
      Served server (.peer (.recv e))
        (clientOnRecv { server with peer := withReceiver server.peer r } msg code).1
        ([(.peer, .onRecv msg code), (.peer, .msgFree id)] ++
          (clientOnRecv { server with peer := withReceiver server.peer r } msg code).2)
  | peerClosed (h : server.peer.backend.stream.phase = .closing) :
      Served server (.peer .closed)
        { server with
          peer := withStream server.peer { server.peer.backend.stream with phase := .closed }
          active := false }
        [(.peer, .onClose)]

section Steps

variable {heaps : Endpoint → Heap} {server next : Server} {out : Tagged}

/-- An accept ends in `on_accept`, with zero exactly when the peer can be read. -/
theorem accept_outcome {heap : Heap} {p q : ScSocket} {proto : Proto} {ans : AcceptAnswers}
    {effects : List Effect} (h : step heap p (.accept proto ans) = some (q, effects)) :
    ∃ rest code, effects = .uvInit proto p.backend.stream.phase :: (rest ++ [.onAccept code]) ∧
      (∀ x ∈ rest, x = .uvAccept ∨ x = .uvReadStart) ∧
      (code = 0 → q.backend.stream = ⟨.active, true, false, none⟩ ∧
        q.backend.toReceiver = { p.backend.toReceiver with offered := none }) := by
  obtain ⟨r, hr, rfl, rfl⟩ := accept_cases h
  by_cases hp : proto = .noset
  · simp [buvAccept, hp] at hr
  · by_cases hi : ans.init = 0
    · by_cases ha : ans.accept = 0
      · by_cases hs : ans.readStart = 0
        · simp only [buvAccept, uvInit, hp, hi, ha, hs, if_true, if_false, ne_eq,
            not_true_eq_false, Except.ok.injEq] at hr
          subst hr
          exact ⟨[.uvAccept, .uvReadStart], 0, rfl, by simp, fun _ => ⟨rfl, rfl⟩⟩
        · simp only [buvAccept, uvInit, hp, hi, ha, hs, if_true, if_false, ne_eq,
            not_true_eq_false, not_false_eq_true, Except.ok.injEq] at hr
          subst hr
          exact ⟨[.uvAccept, .uvReadStart], ans.readStart, rfl, by simp, fun hz => absurd hz hs⟩
      · simp only [buvAccept, uvInit, hp, hi, ha, if_true, if_false, ne_eq, not_true_eq_false,
          not_false_eq_true, Except.ok.injEq] at hr
        subst hr
        exact ⟨[.uvAccept], ans.accept, rfl, by simp, fun hz => absurd hz ha⟩
    · simp only [buvAccept, uvInit, hp, hi, if_true, if_false, ne_eq, not_false_eq_true,
        Except.ok.injEq] at hr
      subst hr
      exact ⟨[], ans.init, rfl, by simp, fun hz => absurd hz hi⟩

theorem peerReactAll_skip (server : Server) {pre : List Effect} (post : List Effect)
    (h : ∀ x ∈ pre, peerReact server x = (server, [])) :
    peerReactAll server (pre ++ post) = peerReactAll server post := by
  induction pre with
  | nil => rfl
  | cons x xs ih =>
    obtain ⟨hx, hxs⟩ := List.forall_mem_cons.mp h
    rw [List.cons_append, peerReactAll, hx, ih hxs]
    simp

theorem connection_served {errcode : Int} {ans : AcceptAnswers}
    (h : serverOnConnection (heaps .peer) ans server errcode = some (next, out)) :
    Served server (.listening (.connection errcode) ans) next
      ((.listening, .onConnection errcode) :: out) := by
  unfold serverOnConnection at h
  by_cases hcode : errcode = 0
  · subst hcode
    rw [if_neg (by simp)] at h
    by_cases ht : server.terminate = .notset
    · rw [if_neg (by simp [ht])] at h
      split at h
      · cases h
      · rename_i q effects hq
        obtain ⟨rest, code, rfl, hrest, hopen⟩ := accept_outcome hq
        have hpre : ∀ x ∈ .uvInit server.listening.backend.proto
            server.peer.backend.stream.phase :: rest,
            peerReact { server with peer := q } x = ({ server with peer := q }, []) := by
          rw [List.forall_mem_cons]
          refine ⟨rfl, ?_⟩
          intro x hx
          rcases hrest x hx with rfl | rfl <;> rfl
        have hplain : ∀ x ∈ rest ++ [.onAccept code], Plain x := by
          rw [List.forall_mem_append]
          refine ⟨?_, by simp [Plain, Effect.family]⟩
          intro x hx
          rcases hrest x hx with rfl | rfl <;> rfl
        rw [← List.cons_append, peerReactAll_skip _ _ hpre] at h
        by_cases hz : code = 0
        · subst hz
          have hactive : clientOnAccept { server with peer := q } 0 =
              ({ server with peer := q, active := true }, []) := by
            rw [clientOnAccept, if_neg (by simp)]
            exact if_neg (by simp [ht])
          simp only [peerReactAll, peerReact, hactive, List.append_nil, Option.some.injEq,
            Prod.mk.injEq] at h
          obtain ⟨rfl, rfl⟩ := h
          obtain ⟨hstream, hreceiver⟩ := hopen rfl
          exact .accepted ans _ q (rest ++ [.onAccept 0]) ht hstream hreceiver hplain
        · simp only [peerReactAll, peerReact, clientOnAccept, ne_eq, hz, not_false_eq_true, if_true,
            List.append_nil, Option.some.injEq, Prod.mk.injEq] at h
          obtain ⟨rfl, rfl⟩ := h
          exact .refused ans _ q (rest ++ [.onAccept code]) ht hplain
    · rw [if_pos ht] at h
      obtain ⟨rfl, rfl⟩ := Prod.mk.inj (Option.some.inj h)
      exact .declined ans ht
  · rw [if_pos hcode] at h
    obtain ⟨rfl, rfl⟩ := Prod.mk.inj (Option.some.inj h)
    exact .failed errcode ans hcode

theorem peerReactAll_recv (server : Server) (msg : Option Delivery) (code : Int) (id : Option ℕ) :
    peerReactAll server [.onRecv msg code, .msgFree id] = clientOnRecv server msg code := by
  simp [peerReactAll, peerReact]

theorem recv_served {heap : Heap} {e : ReadEvent} {r : Receiver} {effects : List Effect}
    (hactive : server.peer.backend.stream.phase = .active)
    (hreading : server.peer.backend.stream.reading = true)
    (h : recvStep heap server.peer.backend.toReceiver e = some (r, effects)) :
    Served server (.peer (.recv e))
      (peerReactAll { server with peer := withReceiver server.peer r } effects).1
      (effects.map (Prod.mk .peer) ++
        (peerReactAll { server with peer := withReceiver server.peer r } effects).2) := by
  cases recvStep_moved h with
  | offered sg msg hm => exact .quiet heap _ _ _ hactive hreading h rfl
  | fresh sg b hb hm => exact .quiet heap _ _ _ hactive hreading h rfl
  | waited buf ho => exact .quiet heap _ _ _ hactive hreading h rfl
  | advanced bytes buf msg ho hlen hne hm hfin => exact .quiet heap _ _ _ hactive hreading h rfl
  | delivered bytes buf msg ho hlen hne hm hfin =>
    rw [peerReactAll_recv]
    exact .received heap _ _ _ _ _ hactive hreading h fun _ => rfl
  | stopped nread hneg =>
    rw [peerReactAll_recv]
    exact .received heap _ _ _ _ _ hactive hreading h fun hno => absurd rfl hno

theorem listening_served {e : Event} {ans : AcceptAnswers} {s : ScSocket} {effects : List Effect}
    (ho : Orderly server) (he : isLoop e = true)
    (hs : step (heaps .listening) server.listening e = some (s, effects))
    (h : (listeningReactAll (heaps .peer) ans { server with listening := s } effects).map (fun r =>
      (r.1, effects.map (Prod.mk Endpoint.listening) ++ r.2)) = some (next, out)) :
    Served server (.listening e ans) next out := by
  obtain ⟨hreading, hconnecting, hwriting⟩ := ho.idle
  cases step_stepped hs with
  | opened e u effects hopen _ => cases e <;> first | exact absurd hopen id | cases he
  | listened => cases he
  | submitted => cases he
  | closing => cases he
  | connected errcode hc =>
    rw [hconnecting] at hc
    cases hc
  | connection errcode =>
    obtain ⟨⟨v, more⟩, hv, h⟩ := Option.map_eq_some_iff.mp h
    obtain ⟨rfl, rfl⟩ := Prod.mk.inj h
    simp only [listeningReactAll, listeningReact] at hv
    split at hv
    · cases hv
    · rename_i r hr
      simp only [Option.map_some, List.append_nil, Option.some.injEq, Prod.mk.injEq] at hv
      obtain ⟨rfl, rfl⟩ := hv
      exact connection_served hr
  | received e r effects _ hr _ =>
    rw [hreading] at hr
    cases hr
  | flushed n left hw _ =>
    rw [hwriting] at hw
    cases hw
  | sent errcode left hw _ =>
    rw [hwriting] at hw
    cases hw
  | closed hp hw hc =>
    simp only [listeningReactAll, listeningReact, serverOnClose, Option.map_some, List.append_nil,
      Option.some.injEq, Prod.mk.injEq] at h
    obtain ⟨rfl, rfl⟩ := h
    exact .listeningClosed ans hp

theorem peer_served {e : Event} {s : ScSocket} {effects : List Effect} (ho : Orderly server)
    (he : isLoop e = true) (hs : step (heaps .peer) server.peer e = some (s, effects)) :
    Served server (.peer e) (peerReactAll { server with peer := s } effects).1
      (effects.map (Prod.mk .peer) ++ (peerReactAll { server with peer := s } effects).2) := by
  obtain ⟨hconnecting, hwriting⟩ := ho.peerIdle
  cases step_stepped hs with
  | opened e u effects hopen _ => cases e <;> first | exact absurd hopen id | cases he
  | listened => cases he
  | submitted => cases he
  | closing => cases he
  | connected errcode hc =>
    rw [hconnecting] at hc
    cases hc
  | connection errcode => exact .reported errcode
  | received e r effects hactive hreading hr => exact recv_served hactive hreading hr
  | flushed n left hw _ =>
    rw [hwriting] at hw
    cases hw
  | sent errcode left hw _ =>
    rw [hwriting] at hw
    cases hw
  | closed hp hw hc => exact .peerClosed hp

theorem serverStep_served {e : ServerEvent} (ho : server.exited = false → Orderly server)
    (h : serverStep heaps server e = some (next, out)) :
    server.exited = false ∧ Served server e next out := by
  cases e with
  | idle =>
    simp only [serverStep, Option.ite_none_left_eq_some, not_or, Bool.not_eq_true,
      Option.some.injEq] at h
    obtain ⟨⟨hexit, hopen⟩, heq⟩ := h
    refine ⟨hexit, ?_⟩
    unfold idleCb at heq
    split at heq
    · rename_i hdrain
      obtain ⟨rfl, rfl⟩ := Prod.mk.inj heq
      exact .drained (by simp_all) (by simp_all)
    · split at heq
      · rename_i ht
        obtain rfl : _ = next := congrArg Prod.fst heq
        obtain rfl : _ = out := congrArg Prod.snd heq
        exact .stopped ht (by simpa using hopen)
      · obtain ⟨rfl, rfl⟩ := Prod.mk.inj heq
        exact .waited
  | async =>
    simp only [serverStep, Option.ite_none_left_eq_some, not_or, Bool.not_eq_true,
      Option.some.injEq, Prod.mk.injEq] at h
    obtain ⟨⟨hexit, hpending⟩, rfl, rfl⟩ := h
    exact ⟨hexit, .asked (by simp_all)⟩
  | signal =>
    simp only [serverStep, Option.ite_none_left_eq_some, not_or, Bool.not_eq_true,
      Option.some.injEq, Prod.mk.injEq] at h
    obtain ⟨⟨hexit, _⟩, rfl, rfl⟩ := h
    exact ⟨hexit, .signalled⟩
  | listening e ans =>
    simp only [serverStep, Option.ite_none_left_eq_some, not_or, Bool.not_eq_true] at h
    obtain ⟨⟨hexit, hloop⟩, h⟩ := h
    refine ⟨hexit, ?_⟩
    split at h
    · cases h
    · rename_i s effects hs
      exact listening_served (ho hexit) (by simpa using hloop) hs h
  | peer e =>
    simp only [serverStep, Option.ite_none_left_eq_some, not_or, Bool.not_eq_true] at h
    obtain ⟨⟨hexit, hloop⟩, h⟩ := h
    refine ⟨hexit, ?_⟩
    split at h
    · cases h
    · rename_i s effects hs
      obtain ⟨rfl, rfl⟩ := Prod.mk.inj (Option.some.inj h)
      exact peer_served (ho hexit) (by simpa using hloop) hs

theorem closePeer_orderly (ho : Orderly server) (hactive : server.active = true) :
    Orderly (closePeer server).1 where
  listens := ho.listens
  idle := ho.idle
  peerOpen _ := not_ended_closing
  peerEnded hno := absurd (hactive.symm.trans hno) (by decide)
  peerIdle := ho.peerIdle
  last := ho.last
  ordered := ho.ordered
  unasked := ho.unasked

theorem active_of_open (ho : Orderly server)
    (h : server.peer.backend.stream.phase = .active) : server.active = true := by
  by_contra hno
  have hended := ho.peerEnded (by simpa using hno)
  rw [h] at hended
  exact not_ended_active hended

theorem clientOnRecv_orderly (ho : Orderly server) (hactive : server.active = true)
    (msg : Option Delivery) (code : Int)
    (hexit : (clientOnRecv server msg code).1.exited = false) :
    Orderly (clientOnRecv server msg code).1 := by
  unfold clientOnRecv at hexit ⊢
  by_cases hcode : code = 0
  · rw [if_neg (by simp [hcode])]
    cases msg with
    | none => exact closePeer_orderly ho hactive
    | some m =>
      have hprinted : Orderly (outf server (printMsg m)) :=
        ⟨ho.listens, ho.idle, ho.peerOpen, ho.peerEnded, ho.peerIdle, ho.last, ho.ordered, ho.unasked⟩
      simp only
      split
      · exact closePeer_orderly hprinted hactive
      · exact hprinted
  · rw [if_pos hcode] at hexit
    cases hexit

/-- An event keeps the server orderly, unless it ends the process. -/
theorem served_orderly {e : ServerEvent} (ho : Orderly server) (h : Served server e next out)
    (hexit : next.exited = false) : Orderly next := by
  cases h with
  | waited => exact ho
  | drained ha ht =>
    refine ⟨ho.listens, ho.idle, ho.peerOpen, ho.peerEnded, ho.peerIdle, fun _ => ha, fun _ => rfl, ?_⟩
    intro hopen
    rw [ho.unasked hopen] at ht
    cases ht
  | stopped ht hopen =>
    exact ⟨fun hno => (by cases hno), ⟨rfl, ho.idle.2⟩, ho.peerOpen, ho.peerEnded, ho.peerIdle,
      ho.last, fun _ => ht, ho.unasked⟩
  | asked hopen =>
    have hrunning : server.idleOpen = true := by
      by_contra hno
      have hlate := ho.ordered (by simpa using hno)
      rw [ho.unasked hopen] at hlate
      cases hlate
    exact ⟨ho.listens, ho.idle, ho.peerOpen, ho.peerEnded, ho.peerIdle, fun hno => (by cases hno),
      fun hno => absurd (hrunning.symm.trans hno) (by decide), fun hno => (by cases hno)⟩
  | signalled =>
    unfold signalCb
    split
    · exact ho
    · exact ⟨ho.listens, ho.idle, ho.peerOpen, ho.peerEnded, ho.peerIdle, ho.last, ho.ordered,
        ho.unasked⟩
  | failed errcode ans h => cases hexit
  | declined ans ht => exact ho
  | accepted ans proto q rest ht hq hreceiver hrest =>
    refine ⟨ho.listens, ho.idle, ?_, fun hno => (by cases hno), ?_, ?_, ho.ordered, ho.unasked⟩
    · intro _
      rw [hq]
      exact not_ended_active
    · rw [hq]
      exact ⟨rfl, rfl⟩
    · intro hlate
      rw [ht] at hlate
      cases hlate
  | refused ans proto q rest ht hrest => cases hexit
  | listeningClosed ans hp =>
    refine ⟨?_, ho.idle, ho.peerOpen, ho.peerEnded, ho.peerIdle, ho.last, ho.ordered, ho.unasked⟩
    intro hopen
    rw [ho.listens hopen] at hp
    cases hp
  | reported errcode => exact ho
  | quiet heap e r effects hactive hreading hr hno =>
    exact ⟨ho.listens, ho.idle, ho.peerOpen, ho.peerEnded, ho.peerIdle, ho.last, ho.ordered, ho.unasked⟩
  | received heap e r msg code id hactive hreading hr hcode =>
    have hread : Orderly { server with peer := withReceiver server.peer r } :=
      ⟨ho.listens, ho.idle, ho.peerOpen, ho.peerEnded, ho.peerIdle, ho.last, ho.ordered, ho.unasked⟩
    exact clientOnRecv_orderly hread (active_of_open hread hactive) msg code hexit
  | peerClosed hp =>
    exact ⟨ho.listens, ho.idle, fun hno => (by cases hno), fun _ => .inr rfl, ho.peerIdle,
      fun _ => rfl, ho.ordered, ho.unasked⟩

/-- A new peer is reported only while there is none, or when it is not accepted any more. -/
def AcceptsInactive (server : Server) (e : ServerEvent) : Prop :=
  ∀ ans, e = .listening (.connection 0) ans → server.terminate = .notset → server.active = false

theorem handleOk_close {s : ScSocket} (side : Endpoint) (h : s.backend.stream.phase = .active) :
    ∀ x ∈ (scSocketClose s).2.2.map (Prod.mk side), HandleOk x.2 := by
  have hall : ∀ x ∈ (scSocketClose s).2.2, HandleOk x := by
    have hdel : ∀ x ∈ uriDelEffects s, HandleOk x := by
      unfold uriDelEffects
      split <;> simp [HandleOk]
    exact List.forall_mem_cons.mpr ⟨h, hdel⟩
  intro x hx
  obtain ⟨y, hy, rfl⟩ := List.mem_map.mp hx
  exact hall y hy

theorem handleOk_clientOnRecv (msg : Option Delivery) (code : Int)
    (h : server.peer.backend.stream.phase = .active) :
    ∀ x ∈ (clientOnRecv server msg code).2, HandleOk x.2 := by
  unfold clientOnRecv
  split
  · simp
  · cases msg with
    | none => exact handleOk_close .peer h
    | some m =>
      simp only
      split
      · exact handleOk_close .peer h
      · simp

/-- An accept over the handle of the peer is legal exactly when no peer is active. -/
theorem handleOk_accept {proto : Proto} {rest : List Effect} (ho : Orderly server)
    (hrest : ∀ x ∈ rest, Plain x) :
    (∀ x ∈ (Endpoint.listening, Effect.onConnection 0) ::
        (.uvInit proto server.peer.backend.stream.phase :: rest).map (Prod.mk .peer),
        HandleOk x.2) ↔ server.active = false := by
  have hplain := handleOk_of_plain hrest
  have hended : Ended server.peer.backend.stream.phase ↔ server.active = false := by
    constructor
    · intro hended
      by_contra hno
      exact ho.peerOpen (by simpa using hno) hended
    · exact ho.peerEnded
  rw [← hended, List.forall_mem_cons, List.map_cons, List.forall_mem_cons]
  constructor
  · rintro ⟨_, hinit, _⟩
    exact hinit
  · intro hphase
    refine ⟨trivial, hphase, ?_⟩
    intro x hx
    obtain ⟨y, hy, rfl⟩ := List.mem_map.mp hx
    exact hplain y hy

theorem served_handles {e : ServerEvent} (ho : Orderly server) (h : Served server e next out) :
    (∀ x ∈ out, HandleOk x.2) ↔ AcceptsInactive server e := by
  have hother : ∀ {e : ServerEvent}, (∀ ans, e ≠ .listening (.connection 0) ans) →
      AcceptsInactive server e := fun hne ans heq => absurd heq (hne ans)
  cases h with
  | waited => exact iff_of_true (by simp) (hother (by intro _ h; cases h))
  | drained ha ht => exact iff_of_true (by simp) (hother (by intro _ h; cases h))
  | stopped ht hopen =>
    exact iff_of_true (handleOk_close .listening (ho.listens hopen)) (hother (by intro _ h; cases h))
  | asked hopen => exact iff_of_true (by simp) (hother (by intro _ h; cases h))
  | signalled => exact iff_of_true (by simp) (hother (by intro _ h; cases h))
  | failed errcode ans hcode =>
    refine iff_of_true (by simp [HandleOk]) (hother ?_)
    intro _ h
    cases h
    exact hcode rfl
  | declined ans ht => exact iff_of_true (by simp [HandleOk]) fun _ _ hno => absurd hno ht
  | accepted ans proto q rest ht hq hreceiver hrest =>
    rw [handleOk_accept ho hrest]
    exact ⟨fun ha _ _ _ => ha, fun hall => hall ans rfl ht⟩
  | refused ans proto q rest ht hrest =>
    rw [handleOk_accept ho hrest]
    exact ⟨fun ha _ _ _ => ha, fun hall => hall ans rfl ht⟩
  | listeningClosed ans hp => exact iff_of_true (by simp [HandleOk]) (hother (by intro _ h; cases h))
  | reported errcode => exact iff_of_true (by simp [HandleOk]) (hother (by intro _ h; cases h))
  | quiet heap e r effects hactive hreading hr hno =>
    refine iff_of_true ?_ (hother (by intro _ h; cases h))
    intro x hx
    obtain ⟨y, hy, rfl⟩ := List.mem_map.mp hx
    have hok : ∀ z ∈ effects, HandleOk z := by
      apply handleOk_of_family
      intro z hz
      rw [recv_family hr z hz]
      decide
    exact hok y hy
  | received heap e r msg code id hactive hreading hr hcode =>
    refine iff_of_true ?_ (hother (by intro _ h; cases h))
    rw [List.forall_mem_append]
    exact ⟨by simp [HandleOk], handleOk_clientOnRecv msg code hactive⟩
  | peerClosed hp => exact iff_of_true (by simp [HandleOk]) (hother (by intro _ h; cases h))

/-- What the server prints for the messages among `out`. -/
def printed (out : Tagged) : List UInt8 :=
  ((onRecvs (part .peer out)).filterMap Prod.fst).flatMap printMsg

theorem printed_append (xs ys : Tagged) : printed (xs ++ ys) = printed xs ++ printed ys := by
  simp [printed, onRecvs_append]

theorem printed_close (s : ScSocket) (side : Endpoint) :
    printed ((scSocketClose s).2.2.map (Prod.mk side)) = [] := by
  have hdel : onRecvs (.uvClose s.backend.stream.phase :: uriDelEffects s) = [] := by
    unfold uriDelEffects
    split <;> rfl
  cases side with
  | listening => rw [printed, part_tagged_ne (by decide)]; rfl
  | peer =>
    rw [printed, part_tagged]
    exact congrArg (fun xs => (xs.filterMap Prod.fst).flatMap printMsg) hdel

theorem clientOnRecv_output (msg : Option Delivery) (code : Int) (id : Option ℕ)
    (hcode : msg ≠ none → code = 0) :
    (clientOnRecv server msg code).1.output = server.output ++
      printed ([(.peer, .onRecv msg code), (.peer, .msgFree id)] ++ (clientOnRecv server msg code).2) := by
  have hhead : printed [(.peer, .onRecv msg code), (.peer, .msgFree id)] =
      (msg.map printMsg).getD [] := by
    cases msg with
    | none => rfl
    | some m => simp [printed, part, onRecvs, Effect.recv?]
  rw [printed_append, hhead]
  unfold clientOnRecv
  cases msg with
  | none =>
    split
    · exact (List.append_nil _).symm
    · have hclose := printed_close server.peer .peer
      rw [closePeer, hclose]
      exact (List.append_nil _).symm
  | some m =>
    rw [if_neg (by simp [hcode])]
    simp only
    split
    · have hclose := printed_close (outf server (printMsg m)).peer .peer
      rw [closePeer, hclose, List.append_nil]
      rfl
    · exact congrArg (server.output ++ ·) (List.append_nil _).symm

theorem served_output {e : ServerEvent} (h : Served server e next out) :
    next.output = server.output ++ printed out := by
  have hquiet : ∀ {rest : List Effect} {proto : Proto} {phase : HandlePhase},
      (∀ x ∈ rest, Plain x) → printed ((Endpoint.listening, Effect.onConnection 0) ::
        (.uvInit proto phase :: rest).map (Prod.mk .peer)) = [] := by
    intro rest proto phase hrest
    rw [printed, part_cons_ne (by decide), part_tagged]
    have hnone := (quiet_of_family (plain_quiet hrest)).1
    exact congrArg (fun xs => (xs.filterMap Prod.fst).flatMap printMsg) hnone
  cases h with
  | stopped ht hopen =>
    have hclose := printed_close server.listening .listening
    rw [closeListening, hclose]
    exact (List.append_nil _).symm
  | signalled =>
    unfold signalCb
    split <;> exact (List.append_nil _).symm
  | accepted ans proto q rest ht hq hreceiver hrest =>
    rw [hquiet hrest]
    exact (List.append_nil _).symm
  | refused ans proto q rest ht hrest =>
    rw [hquiet hrest]
    exact (List.append_nil _).symm
  | quiet heap e r effects hactive hreading hr hno =>
    rw [printed, part_tagged, hno]
    exact (List.append_nil _).symm
  | received heap e r msg code id hactive hreading hr hcode => exact clientOnRecv_output msg code id hcode
  | _ => exact (List.append_nil _).symm

theorem served_noInit {e : ServerEvent} (h : Served server e next out)
    (ht : server.terminate ≠ .notset) : ∀ x ∈ out, ∀ proto before, x.2 ≠ .uvInit proto before := by
  have hclose : ∀ (s : ScSocket) (side : Endpoint), ∀ x ∈ (scSocketClose s).2.2.map (Prod.mk side),
      ∀ proto before, x.2 ≠ .uvInit proto before := by
    intro s side x hx proto before heq
    obtain ⟨y, hy, rfl⟩ := List.mem_map.mp hx
    have hmem : y ∈ .uvClose s.backend.stream.phase :: uriDelEffects s := hy
    unfold uriDelEffects at hmem
    split at hmem <;> simp_all
  cases h with
  | stopped hserver hopen => exact hclose _ _
  | accepted ans proto q rest hno _ _ _ => exact absurd hno ht
  | refused ans proto q rest hno _ => exact absurd hno ht
  | quiet heap e r effects hactive hreading hr hno =>
    intro x hx proto before heq
    obtain ⟨y, hy, rfl⟩ := List.mem_map.mp hx
    have hf := recv_family hr y hy
    rw [show y = .uvInit proto before from heq] at hf
    cases hf
  | received heap e r msg code id hactive hreading hr hcode =>
    rw [List.forall_mem_append]
    refine ⟨by simp, ?_⟩
    unfold clientOnRecv
    split
    · simp
    · cases msg with
      | none => exact hclose _ _
      | some m =>
        simp only
        split
        · exact hclose _ _
        · simp
  | _ => simp

end Steps

section Runs

variable {heaps : Endpoint → Heap} {env : UriEnv} {uri : CString} {listening : ScSocket}
  {opening : List Effect}

theorem orderly_start (h : scSocketBind env newSocket uri = .ok (listening, 0, opening)) :
    Orderly (.start listening) := by
  have hstream := bind_ok h
  refine ⟨?_, ?_, fun hno => (by cases hno), fun _ => .inl rfl, ⟨rfl, rfl⟩, fun _ => rfl,
    fun hno => (by cases hno), fun _ => rfl⟩
  · intro _
    simp [Server.start, hstream]
  · simp [Server.start, hstream]

/-- The calls of a run from an orderly server are legal exactly when every connection of it is. -/
theorem handles_iff {heaps : Endpoint → Heap} {server last : Server} {es : List ServerEvent}
    {out : Tagged} (h : server.exited = false → Orderly server)
    (hrun : run (serverStep heaps) server es = some (last, out)) :
    (∀ x ∈ out, HandleOk x.2) ↔ EveryStep (serverStep heaps) AcceptsInactive server es := by
  refine outputs_iff (fun _ => True) (fun s => s.exited = false → Orderly s) ?_
    (fun x : Endpoint × Effect => HandleOk x.2) AcceptsInactive ?_ (fun _ _ => trivial) h hrun
  · intro s e u out _ hs hstep
    obtain ⟨hexit, hserved⟩ := serverStep_served hs hstep
    exact served_orderly (hs hexit) hserved
  · intro s e u out _ hs hstep
    obtain ⟨hexit, hserved⟩ := serverStep_served hs hstep
    exact served_handles (hs hexit) hserved

end Runs

/-- Every handle of the server is used legally exactly when no peer is reported while another one
is active, unless the server is about to stop. -/
theorem server_handles_iff (heaps : Endpoint → Heap) (env : UriEnv) (uri : CString)
    (listening : ScSocket) (opening : List Effect) (es : List ServerEvent) (server : Server)
    (out : Tagged) (hbind : scSocketBind env newSocket uri = .ok (listening, 0, opening))
    (hrun : run (serverStep heaps) (.start listening) es = some (server, out)) :
    (∀ x ∈ out, HandleOk x.2) ↔ EveryStep (serverStep heaps) AcceptsInactive (.start listening) es :=
  handles_iff (fun _ => orderly_start hbind) hrun

/-- Whatever happens, the output is what `print_msg` makes of the messages in their order. After a
request to stop no peer is accepted, the listening socket is closed only when the last peer is, and
once it is closed both sockets can be deleted. -/
theorem server_shutdown (heaps : Endpoint → Heap) (env : UriEnv) (uri : CString)
    (listening : ScSocket) (opening : List Effect) (es : List ServerEvent) (server : Server)
    (out : Tagged) (hbind : scSocketBind env newSocket uri = .ok (listening, 0, opening))
    (hrun : run (serverStep heaps) (.start listening) es = some (server, out)) :
    server.output = printed out ∧
      (server.exited = false →
        (server.idleOpen = false → server.active = false ∧ Ended server.peer.backend.stream.phase) ∧
        (server.listening.backend.stream.phase = .closed →
          Ended server.peer.backend.stream.phase) ∧
        (server.terminate ≠ .notset → ∀ e next more, serverStep heaps server e = some (next, more) →
          ∀ x ∈ more, ∀ proto before, x.2 ≠ .uvInit proto before)) := by
  have htrace := run_traced
    (fun (s : Server) _ (past : Tagged) => (s.exited = false → Orderly s) ∧ s.output = printed past)
    (fun _ _ => True) ?_ ⟨fun _ => orderly_start hbind, rfl⟩
    (everyStep_of_forall _ _ fun _ _ => trivial) hrun
  · obtain ⟨hord, hprinted⟩ := htrace
    refine ⟨hprinted, ?_⟩
    intro hexit
    have ho := hord hexit
    have hlast : server.idleOpen = false → server.active = false ∧
        Ended server.peer.backend.stream.phase := by
      intro hidle
      have hinactive := ho.last (ho.ordered hidle)
      exact ⟨hinactive, ho.peerEnded hinactive⟩
    refine ⟨hlast, ?_, ?_⟩
    · intro hclosed
      refine (hlast ?_).2
      by_contra hopen
      rw [ho.listens (by simpa using hopen)] at hclosed
      cases hclosed
    · intro ht e next more hstep
      exact served_noInit (serverStep_served (fun _ => ho) hstep).2 ht
  · intro s e u seen past more _ hI hstep
    obtain ⟨hexit, hserved⟩ := serverStep_served hI.1 hstep
    refine ⟨served_orderly (hI.1 hexit) hserved, ?_⟩
    rw [served_output hserved, hI.2, printed_append]

/-- A peer sends the message `A` and leaves; the server gets a signal meanwhile. -/
def oneVisit : List ServerEvent :=
  [.listening (.connection 0) ⟨0, 0, 0⟩, .peer (.recv (.alloc 64)),
    .peer (.recv (.read [0, 0, 0, 1])), .peer (.recv (.alloc 64)), .peer (.recv (.read [65])),
    .signal, .async, .idle, .peer (.recv (.stop uvEof)), .peer .closed, .idle, .idle,
    .listening .closed ⟨0, 0, 0⟩]

theorem server_handles_iff_visit :
    ∃ listening opening server out,
      scSocketBind noErrors newSocket pipeUri = .ok (listening, 0, opening) ∧
      run (serverStep fun _ => reliable zeroBlocks) (.start listening) oneVisit =
        some (server, out) ∧
      (∀ x ∈ out, HandleOk x.2) ∧
      EveryStep (serverStep fun _ => reliable zeroBlocks) AcceptsInactive (.start listening)
        oneVisit := by
  have h := server_handles_iff (fun _ => reliable zeroBlocks) noErrors pipeUri _ _ oneVisit _ _
    rfl rfl
  have hok := h.mp (by decide)
  exact ⟨_, _, _, _, rfl, rfl, h.mpr hok, hok⟩

theorem server_shutdown_visit :
    ∃ listening opening server out,
      scSocketBind noErrors newSocket pipeUri = .ok (listening, 0, opening) ∧
      run (serverStep fun _ => reliable zeroBlocks) (.start listening) oneVisit =
        some (server, out) ∧
      server.output = printed out ∧ Ended server.peer.backend.stream.phase := by
  have h := server_shutdown (fun _ => reliable zeroBlocks) noErrors pipeUri _ _ oneVisit _ _
    rfl rfl
  exact ⟨_, _, _, _, rfl, rfl, h.1, (h.2 rfl).2.1 rfl⟩

example : printMsg ⟨1, [65]⟩ = [91, 49, 93, 40, 65, 41, 10] := by decide

end ShortCircuit.ServerProgram
