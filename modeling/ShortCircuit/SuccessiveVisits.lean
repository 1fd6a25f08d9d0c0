import ShortCircuit.PrintedLines

set_option autoImplicit false

/-!
# Peers one after the other

`server.c` accepts every peer into one and the same socket, and a peer can leave in the
middle of a message. The peers wait with the messages they want to send and the number
of bytes that they write before they leave; an accepted connection takes the first of
them. Nothing of one visit shows up in the next: the output is made of the messages that
each peer has written as a whole.
-/
namespace ShortCircuit.SuccessiveVisits
open WordBytes Message Boundary OutputMachine TaggedTraces FrameParser FrameStream FrameTiming
open Receive ReceiveRefinement ReceiveBounds Backend Socket SocketRuns
open ConnectionIsolation BothEnds Transport SuccessfulOpen ServerProgram PrintedLines
open SocketLifetime (Ended not_ended_active)
open CStrings (CString)

structure Visitor where
  messages : List (List UInt8)
  written : ℕ

/-- What a visitor leaves in the stream. -/
def Visitor.stream (visitor : Visitor) : List UInt8 := (wire visitor.messages).take visitor.written

def Visitor.whole (visitor : Visitor) : List (List UInt8) :=
  FrameTiming.whole visitor.messages visitor.stream.length

structure Door where
  server : Server
  waiting : List Visitor
  transit : List UInt8

/-- What happens at the door when the server gets an event, or `none` if it cannot get it. The end
of a stream is reported when all of it was read. -/
def attend (door : Door) : ServerEvent → Option Door
  | .listening (.connection errcode) _ =>
    if errcode = 0 ∧ door.server.terminate = .notset then
      match door.waiting with
      | [] => none
      | visitor :: waiting => some { door with waiting := waiting, transit := visitor.stream }
    else some door
  | .peer (.recv (.read bytes)) =>
    if door.transit.take bytes.length = bytes then
      some { door with transit := door.transit.drop bytes.length }
    else none
  | .peer (.recv (.stop nread)) =>
    if door.transit = [] ∨ readErrcode nread ≠ 0 then some door else none
  | _ => some door

def doorStep (heaps : Endpoint → Heap) : Step Door ServerEvent (Endpoint × Effect)
  | door, e =>
    match attend door e, serverStep heaps door.server e with
    | some next, some (server, out) => some ({ next with server := server }, out)
    | _, _ => none

def Door.start (listening : ScSocket) (visitors : List Visitor) : Door :=
  { server := .start listening
    waiting := visitors
    transit := [] }

/-- One peer at a time, buffers of one size, and no read that brings only some zero bytes of a
header. -/
def SoundVisits (S : ℕ) (door : Door) (e : ServerEvent) : Prop :=
  AcceptsInactive door.server e ∧
    match e with
    | .peer (.recv (.alloc sg)) => sg = S
    | .peer (.recv (.read bytes)) => ¬ ShortRead door.server.peer.backend.toReceiver bytes
    | _ => True

section Server

variable {server next : Server} {e : ServerEvent} {out : Tagged}

theorem clientOnRecv_message (server : Server) (m : Delivery)
    (ht : (clientOnRecv server (some m) 0).1.terminate = .notset) :
    server.terminate = .notset ∧ (clientOnRecv server (some m) 0).1.peer = server.peer := by
  have hstep : clientOnRecv server (some m) 0 =
      if server.terminate ≠ .notset then closePeer (outf server (printMsg m))
      else (outf server (printMsg m), []) := if_neg (by simp)
  rw [hstep] at ht ⊢
  by_cases hset : server.terminate = .notset
  · rw [if_neg (by simp [hset])]
    exact ⟨hset, rfl⟩
  · rw [if_pos hset] at ht
    exact absurd ht hset

/-- Only the end of a stream or a request to stop makes the server close a peer. -/
theorem served_phase (h : Served server e next out) (he : ∀ nread, e ≠ .peer (.recv (.stop nread)))
    (ht : next.terminate = .notset) :
    server.terminate = .notset ∧
      (server.peer.backend.stream.phase = .active →
        next.exited = true ∨ next.peer.backend.stream.phase = .active) := by
  cases h with
  | drained ha hterm => cases ht
  | asked hopen => cases ht
  | signalled =>
    unfold signalCb at ht ⊢
    split at ht
    · rename_i hset
      exact absurd ht hset
    · rename_i hset
      rw [if_neg hset]
      exact ⟨ht, .inr⟩
  | accepted ans proto q rest hnot hq hreceiver hrest => exact ⟨ht, fun _ => .inr (by rw [hq])⟩
  | refused ans proto q rest hnot hrest => exact ⟨ht, fun _ => .inl rfl⟩
  | received heap r v msg code id hactive hreading hr hcode =>
    cases recvStep_moved hr with
    | delivered bytes buf msg ho hlen hne hm hfin =>
      obtain ⟨hset, hpeer⟩ := clientOnRecv_message _ _ ht
      exact ⟨hset, fun _ => .inr (by rw [hpeer]; exact hactive)⟩
    | stopped nread hneg => exact absurd rfl (he nread)
  | peerClosed hp =>
    refine ⟨ht, ?_⟩
    intro hactive
    rw [hactive] at hp
    cases hp
  | _ => exact ⟨ht, .inr⟩

theorem served_error {nread : Int} (h : Served server (.peer (.recv (.stop nread))) next out)
    (hcode : readErrcode nread ≠ 0) : next.exited = true := by
  cases h with
  | quiet heap r v effects hactive hreading hr hno =>
    cases recvStep_moved hr with
    | stopped _ hneg => cases hno
  | received heap r v msg code id hactive hreading hr hmsg =>
    cases recvStep_moved hr with
    | stopped _ hneg => rw [clientOnRecv, if_pos hcode, fatal]

end Server

/-- The visitors `seen` were accepted and `waiting` were not. The messages `done` were delivered,
`left` are to come from the last visitor. It meant to send `more` and will not send `unsent`. -/
structure Streams (S : ℕ) (visitors waiting : List Visitor) (transit : List UInt8)
    (seen : List Visitor) (done left more : List (List UInt8)) (unsent : List UInt8) (p : Pending) :
    Prop where
  queue : visitors = seen ++ waiting
  split : seen.flatMap Visitor.whole = done ++ left
  last : left <:+ (seen.getLast?.map Visitor.whole).getD []
  coming : left = whole more ((pendingBytes p).length + transit.length)
  ahead : Aligned p (transit ++ unsent) more
  small : ∀ m ∈ more, m.length ≤ u32 S

section Streams

variable {S : ℕ} {visitors waiting seen : List Visitor} {transit unsent : List UInt8}
  {done left more : List (List UInt8)} {p : Pending}

theorem lt_of_le_u32 {n S : ℕ} (h : n ≤ u32 S) : n < 2 ^ 32 :=
  h.trans_lt (u32_lt S)

theorem streams_start (S : ℕ) (visitors : List Visitor) :
    Streams S visitors visitors [] [] [] [] [] [] .empty :=
  ⟨rfl, rfl, List.suffix_rfl, rfl, rfl, by simp⟩

/-- When all that was written has been read, nothing is left to come. -/
theorem Streams.drained (h : Streams S visitors waiting [] seen done left more unsent p) :
    left = [] := by
  have hnone := whole_pending (fun m hm => lt_of_le_u32 (h.small m hm)) h.ahead
  rw [h.coming, List.length_nil, Nat.add_zero, hnone]

/-- At the end of a stream a message in progress is dropped. -/
theorem Streams.ended (h : Streams S visitors waiting [] seen done left more unsent p) :
    Streams S visitors waiting [] seen done [] [] [] .empty := by
  obtain rfl := h.drained
  exact ⟨h.queue, h.split, List.nil_suffix, rfl, rfl, by simp⟩

theorem Streams.accept {visitor : Visitor}
    (h : Streams S visitors (visitor :: waiting) [] seen done left more unsent .empty)
    (hsmall : ∀ m ∈ visitor.messages, m.length ≤ u32 S) :
    Streams S visitors waiting visitor.stream (seen ++ [visitor]) done visitor.whole
      visitor.messages ((wire visitor.messages).drop visitor.written) .empty where
  queue := by rw [h.queue, List.append_assoc, List.singleton_append]
  split := by
    rw [List.flatMap_append, h.split, h.drained, List.append_nil, List.flatMap_singleton]
  last := by simp
  coming := by simp [Visitor.whole]
  ahead := by simp [Aligned, Visitor.stream, Pending.empty]
  small := hsmall

/-- A read that delivers `ms` and leaves `q` in progress. -/
theorem Streams.read {bytes rest : List UInt8} {ms : List (List UInt8)} {q : Pending}
    (h : Streams S visitors waiting (bytes ++ rest) seen done left more unsent p)
    (hbytes : pendingBytes p ++ bytes = wire ms ++ pendingBytes q)
    (hms : ∀ m ∈ ms, m.length < 2 ^ 32) :
    ∃ left' more', Streams S visitors waiting rest seen (done ++ ms) left' more' unsent q := by
  have hstream : wire ms ++ (pendingBytes q ++ (rest ++ unsent)) = wire more := by
    rw [← List.append_assoc, ← hbytes, ← h.ahead, pendingBytes]
    simp only [List.append_assoc]
  obtain ⟨more', rfl, hahead⟩ :=
    wire_cancel hms (fun m hm => lt_of_le_u32 (h.small m hm)) hstream
  have hlen : (pendingBytes p).length + (bytes ++ rest).length =
      (wire ms).length + ((pendingBytes q).length + rest.length) := by
    have hcount := congrArg List.length hbytes
    simp only [List.length_append] at hcount ⊢
    omega
  have hleft : left = ms ++ whole more' ((pendingBytes q).length + rest.length) := by
    rw [h.coming, hlen, whole_append]
  refine ⟨_, more', h.queue, ?_, ?_, rfl, hahead, ?_⟩
  · rw [h.split, hleft, List.append_assoc]
  · exact (List.suffix_append ms _).trans (hleft ▸ h.last)
  · exact fun m hm => h.small m (List.mem_append_right _ hm)

end Streams

/-- The server in the middle of its visits. -/
structure Visited (S : ℕ) (visitors : List Visitor) (door : Door) (past : Tagged)
    (seen : List Visitor) (done left more : List (List UInt8)) (unsent : List UInt8) (p : Pending) :
    Prop where
  streams : Streams S visitors door.waiting door.transit seen done left more unsent p
  orderly : door.server.exited = false → Orderly door.server
  output : door.server.output = done.flatMap fun m => printMsg ⟨m.length, m⟩
  sized : door.server.exited = false → Sized S door.server.peer.backend.toReceiver
  holds : door.server.exited = false → ∃ o, Refines door.server.peer.backend.toReceiver ⟨p, o⟩
  between : door.server.exited = false → door.server.terminate = .notset →
    door.server.peer.backend.stream.phase ≠ .active → door.transit = [] ∧ p = .empty
  inside : OffersInside (part .peer past)

def Visiting (S : ℕ) (visitors : List Visitor) (door : Door) (past : Tagged) : Prop :=
  ∃ seen done left more unsent p, Visited S visitors door past seen done left more unsent p

section Steps

variable {S : ℕ} {visitors seen : List Visitor} {door next : Door} {past : Tagged}
  {done left more : List (List UInt8)} {unsent : List UInt8} {p : Pending} {e : ServerEvent}

theorem attend_same (he : ∀ r, e ≠ .peer (.recv r))
    (hnew : ∀ ans, e = .listening (.connection 0) ans → door.server.terminate ≠ .notset)
    (ha : attend door e = some next) : next = door := by
  unfold attend at ha
  split at ha
  · rename_i errcode ans
    split at ha
    · rename_i hopen
      obtain ⟨rfl, ht⟩ := hopen
      exact absurd ht (hnew ans rfl)
    · exact (Option.some.inj ha).symm
  · exact absurd rfl (he _)
  · exact absurd rfl (he _)
  · exact (Option.some.inj ha).symm

theorem attend_accept {ans : AcceptAnswers} (ht : door.server.terminate = .notset)
    (ha : attend door (.listening (.connection 0) ans) = some next) :
    ∃ visitor waiting, door.waiting = visitor :: waiting ∧
      next = { door with waiting := waiting, transit := visitor.stream } := by
  simp only [attend, ht, and_self, if_true] at ha
  split at ha
  · cases ha
  · rename_i visitor waiting hw
    exact ⟨visitor, waiting, hw, (Option.some.inj ha).symm⟩

/-- A peer that is accepted while no other is active finds nothing of the one before it. -/
theorem Visited.accepted {ans : AcceptAnswers}
    (hcap : ∀ visitor ∈ visitors, ∀ m ∈ visitor.messages, m.length ≤ u32 S)
    (h : Visited S visitors door past seen done left more unsent p)
    (hexit : door.server.exited = false)
    (hcare : AcceptsInactive door.server (.listening (.connection 0) ans))
    (ht : door.server.terminate = .notset)
    (ha : attend door (.listening (.connection 0) ans) = some next) :
    ∃ seen' left' more' unsent',
      Streams S visitors next.waiting next.transit seen' done left' more' unsent' p := by
  obtain ⟨visitor, waiting, hw, rfl⟩ := attend_accept ht ha
  have hended := (h.orderly hexit).peerEnded (hcare ans rfl ht)
  have hphase : door.server.peer.backend.stream.phase ≠ .active := by
    intro hactive
    rw [hactive] at hended
    exact not_ended_active hended
  obtain ⟨hempty, rfl⟩ := h.between hexit ht hphase
  have hstreams := h.streams
  rw [hempty, hw] at hstreams
  refine ⟨_, _, _, _, hstreams.accept ?_⟩
  refine hcap visitor ?_
  rw [hstreams.queue]
  simp

/-- An event that is no read callback. -/
theorem Visited.unread {server : Server} {out : Tagged}
    (hcap : ∀ visitor ∈ visitors, ∀ m ∈ visitor.messages, m.length ≤ u32 S)
    (h : Visited S visitors door past seen done left more unsent p)
    (hexit : door.server.exited = false) (hcare : AcceptsInactive door.server e)
    (ha : attend door e = some next) (hs : Served door.server e server out)
    (he : ∀ r, e ≠ .peer (.recv r)) :
    Visiting S visitors { next with server := server } (past ++ out) := by
  have hserver : (∀ x ∈ part .peer out, x.family ≠ .message) →
      server.output = (done.flatMap fun m => printMsg ⟨m.length, m⟩) ∧
        OffersInside (part .peer (past ++ out)) := by
    intro hquiet
    obtain ⟨hnone, hoffers⟩ := quiet_of_family hquiet
    refine ⟨?_, ?_⟩
    · rw [served_output hs, printed_quiet hnone, h.output, List.append_nil]
    · rw [part_append]
      exact offersInside_append h.inside hoffers
  have horderly := served_orderly (h.orderly hexit) hs
  cases served_peer hs with
  | kept _ hnew hreceiver hreading hquiet =>
    obtain rfl := attend_same he hnew ha
    obtain ⟨houtput, hinside⟩ := hserver hquiet
    refine ⟨seen, done, left, more, unsent, p, h.streams, horderly, houtput, ?_, ?_, ?_, hinside⟩
    · intro _
      exact hreceiver ▸ h.sized hexit
    · intro _
      exact hreceiver ▸ h.holds hexit
    · intro hlive ht hphase
      obtain ⟨hset, hkept⟩ := served_phase hs (fun nread => he _) ht
      refine h.between hexit hset ?_
      intro hactive
      exact (hkept hactive).elim (fun hdead => absurd hlive (by simp [hdead])) hphase
  | opened ans heq ht hactive hreceiver hquiet =>
    subst heq
    obtain ⟨seen', left', more', unsent', hstreams⟩ := h.accepted hcap hexit hcare ht ha
    obtain ⟨houtput, hinside⟩ := hserver hquiet
    refine ⟨seen', done, left', more', unsent', p, hstreams, horderly, houtput, ?_, ?_, ?_, hinside⟩
    · intro _
      exact hreceiver ▸ Sized.forget (h.sized hexit)
    · intro _
      obtain ⟨o, href⟩ := h.holds hexit
      exact ⟨none, hreceiver ▸ Refines.forget href⟩
    · intro _ _ hphase
      exact absurd hactive hphase
  | fatal _ hdead hquiet =>
    have hgone : server.exited ≠ false := by simp [hdead]
    obtain ⟨houtput, hinside⟩ := hserver hquiet
    have hstreams : ∃ seen' left' more' unsent',
        Streams S visitors next.waiting next.transit seen' done left' more' unsent' p := by
      by_cases hnew : ∀ ans, e = .listening (.connection 0) ans → door.server.terminate ≠ .notset
      · obtain rfl := attend_same he hnew ha
        exact ⟨seen, left, more, unsent, h.streams⟩
      · push Not at hnew
        obtain ⟨ans, rfl, ht⟩ := hnew
        exact h.accepted hcap hexit hcare ht ha
    obtain ⟨seen', left', more', unsent', hstreams⟩ := hstreams
    exact ⟨seen', done, left', more', unsent', p, hstreams, horderly, houtput,
      fun hlive => absurd hlive hgone, fun hlive => absurd hlive hgone,
      fun hlive => absurd hlive hgone, hinside⟩
  | read heap r effects rest heq hactive hreading hr hout hquiet hlast => exact absurd heq (he r)

/-- A read callback. -/
theorem Visited.reads {r : ReadEvent} {server : Server} {out : Tagged}
    (h : Visited S visitors door past seen done left more unsent p)
    (hexit : door.server.exited = false) (hcare : SoundVisits S door (.peer (.recv r)))
    (ha : attend door (.peer (.recv r)) = some next)
    (hs : Served door.server (.peer (.recv r)) server out) :
    Visiting S visitors { next with server := server } (past ++ out) := by
  cases served_peer hs with
  | kept he _ _ _ _ => exact absurd rfl (he r)
  | opened ans heq _ _ _ _ => cases heq
  | fatal he _ _ => exact absurd rfl (he r)
  | read heap r' effects rest heq hactive hreading hr hout hquiet hlast =>
    obtain rfl : r = r' := by simpa using heq
    have horderly := served_orderly (h.orderly hexit) hs
    obtain ⟨o, href⟩ := h.holds hexit
    obtain ⟨hcalls, hoffered⟩ := read_part hout hquiet
    have hinside : OffersInside effects → OffersInside (part .peer (past ++ out)) := by
      intro hall
      rw [part_append]
      exact offersInside_append h.inside (hoffered hall)
    have hsilent : onRecvs effects = [] →
        server.output = done.flatMap fun m => printMsg ⟨m.length, m⟩ := by
      intro hno
      rw [served_output hs, printed_quiet (hcalls.trans hno), h.output, List.append_nil]
    have hopen : (∀ nread, r ≠ .stop nread) → server.exited = false →
        server.terminate = .notset → server.peer.backend.stream.phase = .active := by
      intro hno hlive ht
      refine ((served_phase hs ?_ ht).2 hactive).resolve_left (by simp [hlive])
      intro nread heq
      exact hno nread (by simpa using heq)
    cases r with
    | alloc sg =>
      obtain rfl : sg = S := hcare.2
      obtain rfl := Option.some.inj ha
      obtain ⟨o', hnext, hno, hsized, hoffers⟩ :=
        alloc_aligned href (h.sized hexit) h.streams.ahead h.streams.small hr
      exact ⟨seen, done, left, more, unsent, p, h.streams, horderly, hsilent hno, fun _ => hsized,
        fun _ => ⟨o', hnext⟩, fun hlive ht hphase => absurd (hopen (by simp) hlive ht) hphase,
        hinside hoffers⟩
    | read bytes =>
      obtain ⟨q, ms, hno, hbytes, hms, hnext, hsized, hoffers⟩ :=
        read_whole href (h.sized hexit) hcare.2 hr
      simp only [attend, Option.ite_none_right_eq_some, Option.some.injEq] at ha
      obtain ⟨htake, rfl⟩ := ha
      have hstreams := h.streams
      rw [← List.take_append_drop bytes.length door.transit, htake] at hstreams
      obtain ⟨left', more', hstreams⟩ := hstreams.read hbytes hms
      refine ⟨seen, done ++ ms, left', more', unsent, q, hstreams, horderly, ?_, fun _ => hsized,
        fun _ => ⟨none, hnext⟩, fun hlive ht hphase => absurd (hopen (by simp) hlive ht) hphase,
        hinside hoffers⟩
      rw [served_output hs, h.output, printed_messages (hcalls.trans hno), List.flatMap_append]
    | stop nread =>
      obtain ⟨hno, hsized, hoffers⟩ := stop_reported (h.sized hexit) hr
      have houtput : server.output = done.flatMap fun m => printMsg ⟨m.length, m⟩ := by
        rw [served_output hs, h.output, printed_ended (hcalls.trans hno), List.append_nil]
      simp only [attend, Option.ite_none_right_eq_some, Option.some.injEq] at ha
      obtain ⟨hend, rfl⟩ := ha
      rcases hend with hempty | hcode
      · have hstreams := h.streams
        rw [hempty] at hstreams
        exact ⟨seen, done, [], [], [], .empty, hempty ▸ hstreams.ended, horderly, houtput,
          fun _ => hsized, fun _ => ⟨none, refines_idle (stop_idle hr)⟩,
          fun _ _ _ => ⟨hempty, rfl⟩, hinside hoffers⟩
      · have hgone : server.exited ≠ false := by simp [served_error hs hcode]
        exact ⟨seen, done, left, more, unsent, p, h.streams, horderly, houtput,
          fun hlive => absurd hlive hgone, fun hlive => absurd hlive hgone,
          fun hlive => absurd hlive hgone, hinside hoffers⟩

theorem visiting_step {heaps : Endpoint → Heap} {out : Tagged}
    (hcap : ∀ visitor ∈ visitors, ∀ m ∈ visitor.messages, m.length ≤ u32 S)
    (h : Visiting S visitors door past) (hcare : SoundVisits S door e)
    (hs : doorStep heaps door e = some (next, out)) : Visiting S visitors next (past ++ out) := by
  obtain ⟨seen, done, left, more, unsent, p, h⟩ := h
  simp only [doorStep] at hs
  split at hs
  · rename_i mid server out ha hstep
    obtain ⟨rfl, rfl⟩ := Prod.mk.inj (Option.some.inj hs)
    obtain ⟨hexit, hserved⟩ := serverStep_served h.orderly hstep
    by_cases hread : ∃ r, e = .peer (.recv r)
    · obtain ⟨r, rfl⟩ := hread
      exact h.reads hexit hcare ha hserved
    · exact h.unread hcap hexit hcare.1 ha hserved fun r he => hread ⟨r, he⟩
  · cases hs

end Steps

/-- Whoever comes and leaves in the middle of a message: the output is made of the messages that the
accepted peers have written as a whole, peer by peer, and only the last of them can have some that
are still to come. -/
theorem visits_printed (heaps : Endpoint → Heap) (S : ℕ) (env : UriEnv) (uri : CString)
    (listening : ScSocket) (opening : List Effect) (visitors : List Visitor)
    (es : List ServerEvent) (door : Door) (out : Tagged)
    (hcap : ∀ visitor ∈ visitors, ∀ m ∈ visitor.messages, m.length ≤ u32 S)
    (hbind : scSocketBind env newSocket uri = .ok (listening, 0, opening))
    (hcare : EveryStep (doorStep heaps) (SoundVisits S) (.start listening visitors) es)
    (hrun : run (doorStep heaps) (.start listening visitors) es = some (door, out)) :
    ∃ seen done left, visitors = seen ++ door.waiting ∧
      seen.flatMap Visitor.whole = done ++ left ∧
      left <:+ (seen.getLast?.map Visitor.whole).getD [] ∧
      door.server.output = (done.flatMap fun m => printMsg ⟨m.length, m⟩) ∧
      (door.transit = [] → left = []) ∧ OffersInside (part .peer out) := by
  have hstart : Visiting S visitors (.start listening visitors) [] :=
    ⟨[], [], [], [], [], .empty, streams_start S visitors, fun _ => orderly_start hbind, rfl,
      fun _ => sized_init S, fun _ => ⟨none, refines_init⟩, fun _ _ _ => ⟨rfl, rfl⟩,
      by simp [OffersInside]⟩
  obtain ⟨seen, done, left, more, unsent, p, h⟩ :=
    run_traced (fun door _ past => Visiting S visitors door past) (SoundVisits S)
      (fun _ _ _ _ _ _ hcare h hs => visiting_step hcap h hcare hs) hstart hcare hrun
  refine ⟨seen, done, left, h.streams.queue, h.streams.split, h.streams.last, h.output, ?_,
    h.inside⟩
  intro hempty
  have hstreams := h.streams
  rw [hempty] at hstreams
  exact hstreams.drained

/-- The first visitor leaves behind the header of its second message. -/
def twoVisitors : List Visitor := [⟨[[65], [67, 67]], 9⟩, ⟨[[66]], 5⟩]

def twoVisits : List ServerEvent :=
  [.listening (.connection 0) ⟨0, 0, 0⟩, .peer (.recv (.alloc 64)),
    .peer (.recv (.read [0, 0, 0, 1])), .peer (.recv (.alloc 64)), .peer (.recv (.read [65])),
    .peer (.recv (.alloc 64)), .peer (.recv (.read [0, 0, 0, 2])), .peer (.recv (.stop uvEof)),
    .peer .closed, .listening (.connection 0) ⟨0, 0, 0⟩, .peer (.recv (.alloc 64)),
    .peer (.recv (.read [0, 0, 0, 1])), .peer (.recv (.alloc 64)), .peer (.recv (.read [66]))]

theorem visits_printed_two :
    ∃ listening opening door out,
      scSocketBind noErrors newSocket pipeUri = .ok (listening, 0, opening) ∧
      run (doorStep fun _ => reliable zeroBlocks) (.start listening twoVisitors) twoVisits =
        some (door, out) ∧
      door.server.output = (twoVisitors.flatMap Visitor.whole).flatMap fun m =>
        printMsg ⟨m.length, m⟩ := by
  have hvisits := fun hcare => visits_printed (fun _ => reliable zeroBlocks) 64 noErrors pipeUri _ _
    twoVisitors twoVisits _ _ (by decide) rfl hcare rfl
  obtain ⟨seen, done, left, hqueue, hsplit, _, houtput, hdrained, _⟩ := hvisits (by
    iterate 14
      refine (everyStep_cons _ rfl).mpr ⟨⟨fun ans he _ => ?_, ?_⟩, ?_⟩
      · cases he <;> rfl
      · first
          | exact trivial
          | exact rfl
          | exact fun hshort => absurd hshort.2.2.1 (by decide)
          | exact fun hshort => absurd (hshort.2.2.2 _ List.mem_cons_self) (by decide)
    trivial)
  have hleft : left = [] := hdrained rfl
  have hseen : twoVisitors = seen := hqueue.trans (List.append_nil seen)
  have hdone : done = twoVisitors.flatMap Visitor.whole := by
    rw [hseen, hsplit, hleft, List.append_nil]
  subst hdone
  exact ⟨_, _, _, _, rfl, rfl, houtput⟩

end ShortCircuit.SuccessiveVisits
