import ShortCircuit.BothEnds
import ShortCircuit.ServerProgram

set_option autoImplicit false

/-!
# From the input of the client to the output of the server

The client and the server run side by side and move in any order. What the client writes
is on its way until the server reads it, in order. The listening socket of the server
reports one connection. Whether and when the end of the stream is reported is left open.
-/
namespace ShortCircuit.PrintedLines
open WordBytes Message Boundary OutputMachine TaggedTraces FrameParser FrameStream LineInput
open Receive ReceiveRefinement ReceiveBounds Backend Socket SocketRuns SendOrder
open ConnectionIsolation BothEnds Transport SuccessfulOpen ServerProgram
open ClientProgram (Client ClientEvent clientStep untilNul lineMax Sends sends_step sends_start)
open CStrings (CString)
open Watchers (plain_quiet)

inductive Process where
  | client
  | server (side : Endpoint)
  deriving DecidableEq, Repr

structure Pair where
  client : Client
  server : Server
  transit : List UInt8
  reported : Bool

inductive PairEvent where
  | client (e : ClientEvent)
  | server (e : ServerEvent)

/-- What becomes of the connection at an event of the server, or `none` if it cannot happen. -/
def arrive (pair : Pair) : ServerEvent → Option Pair
  | .listening (.connection _) _ =>
    if pair.reported then none else some { pair with reported := true }
  | .peer (.recv (.read bytes)) =>
    if pair.transit.take bytes.length = bytes then
      some { pair with transit := pair.transit.drop bytes.length }
    else none
  | _ => some pair

def pairStep (heap : Heap) (heaps : Endpoint → Heap) : Step Pair PairEvent (Process × Effect)
  | pair, .client e =>
    match clientStep heap pair.client e with
    | none => none
    | some (client, effects) =>
      some ({ pair with
          client := client
          transit := pair.transit ++ writtenBytes (writeCalls effects) },
        effects.map (Prod.mk .client))
  | pair, .server e =>
    match arrive pair e, serverStep heaps pair.server e with
    | some next, some (server, out) =>
      some ({ next with server := server }, out.map fun x => (.server x.1, x.2))
    | _, _ => none

def Pair.start (socket : ScSocket) (msg : ScMsg) (input : List UInt8) (listening : ScSocket) : Pair :=
  { client := .start socket msg input
    server := .start listening
    transit := []
    reported := false }

/-- The server gets buffers of one size, and no read brings only some zero bytes of a header. -/
def SoundReads (S : ℕ) (pair : Pair) : PairEvent → Prop
  | .server (.peer (.recv (.alloc sg))) => sg = S
  | .server (.peer (.recv (.read bytes))) => ¬ ShortRead pair.server.peer.backend.toReceiver bytes
  | _ => True

/-- What the server prints for one line. -/
def printLine (line : List UInt8) : List UInt8 := printMsg ⟨(untilNul line).length, untilNul line⟩

section Server

variable {server next : Server} {e : ServerEvent} {out : Tagged}

/-- What an event of the server does to the socket of its peer. -/
inductive PeerMoved (server : Server) (e : ServerEvent) (next : Server) (out : Tagged) : Prop where
  | kept (he : ∀ r, e ≠ .peer (.recv r))
      (hnew : ∀ ans, e = .listening (.connection 0) ans → server.terminate ≠ .notset)
      (hreceiver : next.peer.backend.toReceiver = server.peer.backend.toReceiver)
      (hreading : next.peer.backend.stream.reading = true →
        server.peer.backend.stream.reading = true)
      (hquiet : ∀ x ∈ part .peer out, x.family ≠ .message)
  | opened (ans : AcceptAnswers) (he : e = .listening (.connection 0) ans)
      (ht : server.terminate = .notset) (hactive : next.peer.backend.stream.phase = .active)
      (hreceiver : next.peer.backend.toReceiver =
        { server.peer.backend.toReceiver with offered := none })
      (hquiet : ∀ x ∈ part .peer out, x.family ≠ .message)
  | fatal (he : ∀ r, e ≠ .peer (.recv r)) (hexit : next.exited = true)
      (hquiet : ∀ x ∈ part .peer out, x.family ≠ .message)
  | read (heap : Heap) (r : ReadEvent) (effects rest : List Effect) (he : e = .peer (.recv r))
      (hactive : server.peer.backend.stream.phase = .active)
      (hreading : server.peer.backend.stream.reading = true)
      (hr : recvStep heap server.peer.backend.toReceiver r =
        some (next.peer.backend.toReceiver, effects))
      (hout : part .peer out = effects ++ rest) (hquiet : ∀ x ∈ rest, x.family ≠ .message)
      (hlast : ∀ nread, r = .stop nread → next.exited = false →
        next.peer.backend.stream.reading = false)

theorem close_quiet (s : ScSocket) :
    ∀ x ∈ (scSocketClose s).2.2, x.family ≠ .message := by
  have hdel : ∀ x ∈ uriDelEffects s, x.family ≠ .message := by
    unfold uriDelEffects
    split <;> simp [Effect.family]
  exact List.forall_mem_cons.mpr ⟨by simp [Effect.family], hdel⟩

/-- `client_on_recv` leaves the receiver alone, and reading ends with the stream. -/
theorem clientOnRecv_peer (server : Server) (msg : Option Delivery) (code : Int) :
    (clientOnRecv server msg code).1.peer.backend.toReceiver = server.peer.backend.toReceiver ∧
      (∀ x ∈ part .peer (clientOnRecv server msg code).2, x.family ≠ .message) ∧
      (msg = none → (clientOnRecv server msg code).1.exited = false →
        (clientOnRecv server msg code).1.peer.backend.stream.reading = false) := by
  have hclose : ∀ server : Server, ∀ x ∈ part .peer (closePeer server).2, x.family ≠ .message := by
    intro server
    rw [closePeer, part_tagged]
    exact close_quiet server.peer
  unfold clientOnRecv
  split
  · exact ⟨rfl, by simp, fun _ hexit => (by cases hexit)⟩
  · cases msg with
    | none => exact ⟨rfl, hclose server, fun _ _ => rfl⟩
    | some m =>
      simp only
      split
      · exact ⟨rfl, hclose _, fun hno => (by cases hno)⟩
      · exact ⟨rfl, by simp, fun hno => (by cases hno)⟩

theorem served_peer (h : Served server e next out) : PeerMoved server e next out := by
  have hinit : ∀ {rest : List Effect} {proto : Proto} {phase : HandlePhase},
      (∀ x ∈ rest, Plain x) → ∀ x ∈ part .peer ((Endpoint.listening, Effect.onConnection 0) ::
        (.uvInit proto phase :: rest).map (Prod.mk .peer)), x.family ≠ .message := by
    intro rest proto phase hrest
    rw [part_cons_ne (by decide), part_tagged]
    exact List.forall_mem_cons.mpr ⟨by simp [Effect.family], plain_quiet hrest⟩
  cases h with
  | stopped ht hopen =>
    refine .kept (by intro r he; cases he) (by intro ans he; cases he) rfl id ?_
    rw [closeListening, part_tagged_ne (by decide)]
    simp
  | signalled =>
    unfold signalCb
    split <;> exact .kept (by intro r he; cases he) (by intro ans he; cases he) rfl id (by simp)
  | failed errcode ans hcode => exact .fatal (by intro r he; cases he) rfl (by simp [part])
  | accepted ans proto q rest ht hq hreceiver hrest =>
    exact .opened ans rfl ht (by rw [hq]) hreceiver (hinit hrest)
  | refused ans proto q rest ht hrest => exact .fatal (by intro r he; cases he) rfl (hinit hrest)
  | quiet heap r v effects hactive hreading hr hno =>
    refine .read heap r effects [] rfl hactive hreading hr (by simp) (by simp) ?_
    rintro nread rfl
    cases recvStep_moved hr with
    | stopped _ hneg => cases hno
  | received heap r v msg code id hactive hreading hr hcode =>
    obtain ⟨hreceiver, hquiet, hlast⟩ :=
      clientOnRecv_peer { server with peer := withReceiver server.peer v } msg code
    refine .read heap r [.onRecv msg code, .msgFree id] _ rfl hactive hreading (hr.trans ?_) ?_ hquiet
      ?_
    · rw [hreceiver]
      rfl
    · simp
    · rintro nread rfl hexit
      cases recvStep_moved hr with
      | stopped _ hneg => exact hlast rfl hexit
  | declined ans ht => exact .kept (by intro r he; cases he) (fun _ _ => ht) rfl id (by simp [part])
  | _ =>
    exact .kept (by intro r he; cases he) (by intro ans he; cases he) rfl id
      (by simp [part, Effect.family])

/-- What comes after the effects of a read callback changes neither its calls nor its offers. -/
theorem read_part {effects rest : List Effect} (hout : part .peer out = effects ++ rest)
    (hquiet : ∀ x ∈ rest, x.family ≠ .message) :
    onRecvs (part .peer out) = onRecvs effects ∧
      (OffersInside effects → OffersInside (part .peer out)) := by
  obtain ⟨hnone, hrest⟩ := quiet_of_family hquiet
  rw [hout, onRecvs_append, hnone, List.append_nil]
  exact ⟨rfl, fun hall => offersInside_append hall hrest⟩

theorem printed_quiet (h : onRecvs (part .peer out) = []) : printed out = [] := by
  rw [printed, h]
  rfl

theorem printed_messages {ms : List (List UInt8)} (h : onRecvs (part .peer out) = ms.map message) :
    printed out = ms.flatMap fun m => printMsg ⟨m.length, m⟩ := by
  rw [printed, h]
  simp [List.filterMap_map, List.flatMap, message, Function.comp_def]

theorem printed_ended {code : Int} (h : onRecvs (part .peer out) = [(none, code)]) :
    printed out = [] := by
  rw [printed, h]
  rfl

end Server

/-- After `k` lines: `ms` were delivered, `p` is in progress at the server, and `unwritten` are the
bytes that libuv still has to write for the client. -/
structure Joint (S : ℕ) (input : List UInt8) (pair : Pair) (out : List (Process × Effect)) (k : ℕ)
    (unwritten : List UInt8) (p : Pending) (ms : List (List UInt8)) : Prop where
  sends : Sends input k unwritten pair.client (part .client out)
  orderly : pair.server.exited = false → Orderly pair.server
  output : pair.server.output = ms.flatMap fun m => printMsg ⟨m.length, m⟩
  bytes : wire ms ++ (pendingBytes p ++ pair.transit) = writtenBytes (writeCalls (part .client out))
  small : ∀ m ∈ ms, m.length < 2 ^ 32
  sized : pair.server.exited = false → Sized S pair.server.peer.backend.toReceiver
  fresh : pair.server.exited = false → pair.reported = false →
    pair.server.peer.backend.stream.reading = false ∧
      ∃ o, Refines pair.server.peer.backend.toReceiver ⟨p, o⟩
  holds : pair.server.exited = false → pair.server.peer.backend.stream.reading = true →
    ∃ o, Refines pair.server.peer.backend.toReceiver ⟨p, o⟩
  inside : OffersInside (part (.server .peer) out)

def Joined (S : ℕ) (input : List UInt8) (pair : Pair) (out : List (Process × Effect)) : Prop :=
  ∃ k unwritten p ms, Joint S input pair out k unwritten p ms

section Steps

variable {S k : ℕ} {input unwritten : List UInt8} {pair next : Pair}
  {past : List (Process × Effect)} {p : Pending} {ms : List (List UInt8)}
  {heap : Heap} {heaps : Endpoint → Heap}

theorem part_client (out : Tagged) :
    part .client (out.map fun x => (Process.server x.1, x.2)) = [] := by
  induction out with
  | nil => rfl
  | cons x out ih => rw [List.map_cons, part_cons_ne (by simp), ih]

theorem part_server (side : Endpoint) (out : Tagged) :
    part (.server side) (out.map fun x => (Process.server x.1, x.2)) = part side out := by
  induction out with
  | nil => rfl
  | cons x out ih =>
    obtain ⟨side', effect⟩ := x
    by_cases hside : side' = side
    · subst hside
      rw [List.map_cons, part_cons_self, part_cons_self, ih]
    · rw [List.map_cons, part_cons_ne (by simpa using hside), part_cons_ne hside, ih]

/-- The lines that the client has read and the server has not got yet. -/
theorem Joint.ahead (h : Joint S input pair past k unwritten p ms) :
    ms = (readLines lineMax ms.length input).map untilNul ∧
      ∃ more, k = ms.length + more.length ∧ Aligned p (pair.transit ++ unwritten) more ∧
        ∀ m ∈ more, m.length ≤ lineMax := by
  have hbytes : wire ms ++ (p.head ++ p.body ++ (pair.transit ++ unwritten)) =
      writtenBytes (writeCalls (part .client past)) ++ unwritten := by
    rw [← h.bytes, pendingBytes]
    simp only [List.append_assoc]
  exact (h.sends.front h.small hbytes).2

theorem joined_client {e : ClientEvent} {out : List (Process × Effect)}
    (h : Joined S input pair past) (hs : pairStep heap heaps pair (.client e) = some (next, out)) :
    Joined S input next (past ++ out) := by
  obtain ⟨k, unwritten, p, ms, h⟩ := h
  simp only [pairStep] at hs
  split at hs
  · cases hs
  · rename_i client effects hc
    obtain ⟨rfl, rfl⟩ := Prod.mk.inj (Option.some.inj hs)
    obtain ⟨k', unwritten', hsends⟩ := sends_step h.sends hc
    refine ⟨k', unwritten', p, ms, ?_, h.orderly, h.output, ?_, h.small, h.sized, h.fresh,
      h.holds, ?_⟩
    · rw [part_append, part_tagged]
      exact hsends
    · rw [part_append, part_tagged, writeCalls_append, writtenBytes_append, ← h.bytes]
      simp only [List.append_assoc]
    · rw [part_append, part_tagged_ne (by decide), List.append_nil]
      exact h.inside

/-- What an event of the server leaves alone. -/
theorem arrive_kept {e : ServerEvent} (h : arrive pair e = some next) :
    next.client = pair.client ∧ (next.reported = false → pair.reported = false) ∧
      ((∀ bytes, e ≠ .peer (.recv (.read bytes))) → next.transit = pair.transit) := by
  unfold arrive at h
  split at h
  · simp only [Option.ite_none_left_eq_some, Option.some.injEq] at h
    obtain ⟨_, rfl⟩ := h
    exact ⟨rfl, fun hno => (by cases hno), fun _ => rfl⟩
  · simp only [Option.ite_none_right_eq_some, Option.some.injEq] at h
    obtain ⟨_, rfl⟩ := h
    exact ⟨rfl, id, fun hno => absurd rfl (hno _)⟩
  · obtain rfl := Option.some.inj h
    exact ⟨rfl, id, fun _ => rfl⟩

/-- An event of the server that delivers `more` and leaves `q` in progress. -/
theorem Joint.server {server : Server} {out : Tagged} {q : Pending}
    (h : Joint S input pair past k unwritten p ms) (more : List (List UInt8))
    (hclient : next.client = pair.client)
    (horderly : server.exited = false → Orderly server)
    (houtput : server.output = pair.server.output ++ printed out)
    (hprinted : printed out = more.flatMap fun m => printMsg ⟨m.length, m⟩)
    (hbytes : pendingBytes p ++ pair.transit = wire more ++ (pendingBytes q ++ next.transit))
    (hsmall : ∀ m ∈ more, m.length < 2 ^ 32)
    (hsized : server.exited = false → Sized S server.peer.backend.toReceiver)
    (hfresh : server.exited = false → next.reported = false →
      server.peer.backend.stream.reading = false ∧
        ∃ o, Refines server.peer.backend.toReceiver ⟨q, o⟩)
    (hholds : server.exited = false → server.peer.backend.stream.reading = true →
      ∃ o, Refines server.peer.backend.toReceiver ⟨q, o⟩)
    (hinside : OffersInside (part .peer out)) :
    Joint S input { next with server := server }
      (past ++ out.map fun x => (.server x.1, x.2)) k unwritten q (ms ++ more) where
  sends := by
    rw [part_append, part_client, List.append_nil]
    exact hclient.symm ▸ h.sends
  orderly := horderly
  output := by rw [houtput, hprinted, h.output, List.flatMap_append]
  bytes := by
    rw [part_append, part_client, List.append_nil, wire_append, List.append_assoc, ← hbytes]
    exact h.bytes
  small := List.forall_mem_append.mpr ⟨h.small, hsmall⟩
  sized := hsized
  fresh := hfresh
  holds := hholds
  inside := by
    rw [part_append, part_server]
    exact offersInside_append h.inside hinside

/-- An event of the server that is no read callback. -/
theorem Joint.server_idle {e : ServerEvent} {server : Server} {out : Tagged}
    (h : Joint S input pair past k unwritten p ms) (ha : arrive pair e = some next)
    (he : ∀ r, e ≠ .peer (.recv r)) (horderly : server.exited = false → Orderly server)
    (houtput : server.output = pair.server.output ++ printed out)
    (hquiet : ∀ x ∈ part .peer out, x.family ≠ .message)
    (hsized : server.exited = false → Sized S server.peer.backend.toReceiver)
    (hfresh : server.exited = false → next.reported = false →
      server.peer.backend.stream.reading = false ∧
        ∃ o, Refines server.peer.backend.toReceiver ⟨p, o⟩)
    (hholds : server.exited = false → server.peer.backend.stream.reading = true →
      ∃ o, Refines server.peer.backend.toReceiver ⟨p, o⟩) :
    Joint S input { next with server := server }
      (past ++ out.map fun x => (.server x.1, x.2)) k unwritten p ms := by
  obtain ⟨hclient, _, htransit⟩ := arrive_kept ha
  obtain ⟨hnone, hinside⟩ := quiet_of_family hquiet
  have hmoved := h.server [] hclient horderly houtput (printed_quiet hnone)
    (by rw [htransit fun bytes => he _]; rfl) (by simp) hsized hfresh hholds hinside
  rw [List.append_nil] at hmoved
  exact hmoved

/-- A read callback of the server. -/
theorem Joint.server_read {heap : Heap} {r : ReadEvent} {server : Server} {out : Tagged}
    {effects rest : List Effect} (h : Joint S input pair past k unwritten p ms)
    (hS : lineMax ≤ u32 S) (hexit : pair.server.exited = false)
    (hcare : SoundReads S pair (.server (.peer (.recv r))))
    (ha : arrive pair (.peer (.recv r)) = some next)
    (horderly : server.exited = false → Orderly server)
    (houtput : server.output = pair.server.output ++ printed out)
    (hreading : pair.server.peer.backend.stream.reading = true)
    (hr : recvStep heap pair.server.peer.backend.toReceiver r =
      some (server.peer.backend.toReceiver, effects))
    (hout : part .peer out = effects ++ rest) (hquiet : ∀ x ∈ rest, x.family ≠ .message)
    (hlast : ∀ nread, r = .stop nread → server.exited = false →
      server.peer.backend.stream.reading = false) :
    ∃ q more, Joint S input { next with server := server }
      (past ++ out.map fun x => (.server x.1, x.2)) k unwritten q (ms ++ more) := by
  obtain ⟨hclient, hreported, htransit⟩ := arrive_kept ha
  obtain ⟨o, href⟩ := h.holds hexit hreading
  obtain ⟨hcalls, hinside⟩ := read_part hout hquiet
  have hfresh : ∀ q : Pending, server.exited = false → next.reported = false →
      server.peer.backend.stream.reading = false ∧
        ∃ o, Refines server.peer.backend.toReceiver ⟨q, o⟩ := by
    intro q _ hno
    have hdeaf := (h.fresh hexit (hreported hno)).1
    rw [hreading] at hdeaf
    cases hdeaf
  cases r with
  | alloc sg =>
    obtain rfl : sg = S := hcare
    obtain ⟨_, more, _, hal, hcap⟩ := h.ahead
    obtain ⟨o', hnext, hno, hsized, hoffers⟩ :=
      alloc_aligned href (h.sized hexit) hal (fun m hm => (hcap m hm).trans hS) hr
    refine ⟨p, [], h.server [] hclient horderly houtput (printed_quiet (hcalls.trans hno)) ?_
      (by simp) (fun _ => hsized) (hfresh p) (fun _ _ => ⟨o', hnext⟩) (hinside hoffers)⟩
    rw [htransit (by intro bytes he; cases he)]
    rfl
  | read bytes =>
    obtain ⟨q, more, hno, hbytes, hsmall, hnext, hsized, hoffers⟩ :=
      read_whole href (h.sized hexit) hcare hr
    simp only [arrive, Option.ite_none_right_eq_some, Option.some.injEq] at ha
    obtain ⟨htake, rfl⟩ := ha
    refine ⟨q, more, h.server more hclient horderly houtput (printed_messages (hcalls.trans hno)) ?_
      hsmall (fun _ => hsized) (hfresh q) (fun _ _ => ⟨none, hnext⟩) (hinside hoffers)⟩
    rw [← List.append_assoc, ← hbytes, List.append_assoc]
    conv_lhs => rw [← List.take_append_drop bytes.length pair.transit, htake]
  | stop nread =>
    obtain ⟨hno, hsized, hoffers⟩ := stop_reported (h.sized hexit) hr
    refine ⟨p, [], h.server [] hclient horderly houtput (printed_ended (hcalls.trans hno)) ?_
      (by simp) (fun _ => hsized) (hfresh p) ?_ (hinside hoffers)⟩
    · rw [htransit (by intro bytes he; cases he)]
      rfl
    · intro hlive hstill
      rw [hlast nread rfl hlive] at hstill
      cases hstill

theorem joined_server {e : ServerEvent} {out : List (Process × Effect)} (hS : lineMax ≤ u32 S)
    (hcare : SoundReads S pair (.server e)) (h : Joined S input pair past)
    (hs : pairStep heap heaps pair (.server e) = some (next, out)) :
    Joined S input next (past ++ out) := by
  obtain ⟨k, unwritten, p, ms, h⟩ := h
  simp only [pairStep] at hs
  split at hs
  · rename_i mid server out ha hstep
    obtain ⟨rfl, rfl⟩ := Prod.mk.inj (Option.some.inj hs)
    obtain ⟨hexit, hserved⟩ := serverStep_served h.orderly hstep
    have horderly := served_orderly (h.orderly hexit) hserved
    have houtput := served_output hserved
    cases served_peer hserved with
    | kept he hnew hreceiver hreading hquiet =>
      refine ⟨k, unwritten, p, ms, h.server_idle ha he horderly houtput hquiet ?_ ?_ ?_⟩
      · intro _
        rw [hreceiver]
        exact h.sized hexit
      · intro _ hno
        obtain ⟨hdeaf, hrefines⟩ := h.fresh hexit ((arrive_kept ha).2.1 hno)
        rw [hreceiver]
        refine ⟨?_, hrefines⟩
        by_contra hread
        rw [hreading (by simpa using hread)] at hdeaf
        cases hdeaf
      · intro _ hread
        rw [hreceiver]
        exact h.holds hexit (hreading hread)
    | opened ans he ht hactive hreceiver hquiet =>
      subst he
      simp only [arrive, Option.ite_none_left_eq_some, Option.some.injEq, Bool.not_eq_true] at ha
      obtain ⟨hnew, rfl⟩ := ha
      obtain ⟨_, o, href⟩ := h.fresh hexit hnew
      have hnext : Refines server.peer.backend.toReceiver ⟨p, none⟩ := by
        rw [hreceiver]
        exact Refines.forget href
      refine ⟨k, unwritten, p, ms, h.server_idle (e := .listening (.connection 0) ans) ?_ ?_ horderly
        houtput hquiet ?_ ?_ ?_⟩
      · simp [arrive, hnew]
      · intro r he
        cases he
      · intro _
        rw [hreceiver]
        exact Sized.forget (h.sized hexit)
      · intro _ hno
        cases hno
      · exact fun _ _ => ⟨none, hnext⟩
    | fatal he hdead hquiet =>
      have hgone : server.exited ≠ false := by simp [hdead]
      exact ⟨k, unwritten, p, ms, h.server_idle ha he horderly houtput hquiet
        (fun hlive => absurd hlive hgone) (fun hlive => absurd hlive hgone)
        (fun hlive => absurd hlive hgone)⟩
    | read heap r effects rest he hactive hreading hr hout hquiet hlast =>
      subst he
      obtain ⟨q, more, hjoint⟩ := h.server_read hS hexit hcare ha horderly houtput hreading hr hout
        hquiet hlast
      exact ⟨k, unwritten, q, ms ++ more, hjoint⟩
  · cases hs

end Steps

theorem joined_start (S : ℕ) {cenv senv : UriEnv} {curi suri : CString} {socket listening : ScSocket}
    {copening sopening : List Effect} (msg : ScMsg) (input : List UInt8)
    (hconnect : scSocketConnect cenv newSocket curi = .ok (socket, 0, copening))
    (hbind : scSocketBind senv newSocket suri = .ok (listening, 0, sopening)) :
    Joined S input (.start socket msg input listening) [] :=
  ⟨0, [], .empty, [], sends_start msg input (connect_ok hconnect), fun _ => orderly_start hbind, rfl,
    rfl, by simp, fun _ => sized_init S, fun _ _ => ⟨rfl, none, refines_init⟩,
    fun _ hno => (by cases hno), by simp [OffersInside]⟩

/-- One line on its way from the file of the client to that of the server. -/
def oneLine : List PairEvent :=
  [.client (.socket (.connected 0)), .server (.listening (.connection 0) ⟨0, 0, 0⟩),
    .client (.idle 0 false), .server (.peer (.recv (.alloc 4096))), .client (.socket (.flushed 7)),
    .server (.peer (.recv (.read [0, 0, 0, 3]))), .server (.peer (.recv (.alloc 4096))),
    .server (.peer (.recv (.read [104, 105, 10]))), .client (.socket (.sent 0))]

end ShortCircuit.PrintedLines
