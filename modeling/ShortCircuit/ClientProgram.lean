import ShortCircuit.FrameStream
import ShortCircuit.FramingRoundTrip
import ShortCircuit.LineInput
import ShortCircuit.SendOrder
import ShortCircuit.SuccessfulOpen
import ShortCircuit.Watchers

set_option autoImplicit false

/-!
# The test client (`client.c`)

The client reads its input line by line and sends each line as one message. It goes on
with the next line when `on_send` was called for the one before. When the input is over,
or a signal arrives, it sets `terminate` through its async handle, and the next idle
callback closes the socket. A fatal error ends the process.
-/
namespace ShortCircuit.ClientProgram
open Message Boundary OutputMachine Receive Backend Socket SocketRuns SendOrder LineInput WordBytes
open FrameParser FrameStream FramingRoundTrip SuccessfulOpen
open Watchers (isLoop)
open CStrings (CString Fault)

def msgMaxSize : ℕ := 1024

structure Client where
  socket : ScSocket
  msg : ScMsg
  input : Stream
  terminate : Bool
  inputEof : Bool
  readySend : Bool
  asyncOpen : Bool
  asyncPending : Bool
  idleOpen : Bool
  signalsOpen : Bool
  exited : Bool

def fatal (client : Client) : Client := { client with exited := true }

def closeSocket (client : Client) : Client × List Effect :=
  let r := scSocketClose client.socket
  let client := { client with socket := r.1 }
  (if r.2.1 ≠ 0 then fatal client else client, r.2.2)

def asyncCb (client : Client) : Client :=
  { client with terminate := true, asyncOpen := false, asyncPending := false }

def uvAsyncSend (client : Client) : Client := { client with asyncPending := true }

def signalCb (client : Client) : Client :=
  if client.terminate then client else uvAsyncSend client

/-- `memcpy` copies the string onto itself. -/
def msgSetup (msg : ScMsg) : ScMsg :=
  scMsgSetSize msg ((msg.data.load msgMaxSize).takeWhile (· ≠ 0)).length

/-- The line that `fgets` stores with its terminating zero. -/
def storeLine (msg : ScMsg) (line : List UInt8) : ScMsg :=
  { msg with data := msg.data.store 0 (line ++ [0]) }

/-- The result of `sc_socket_send` and whether reading the input fails are up to the outside. -/
def idleCb (sendResult : Int) (readFails : Bool) (client : Client) : Client × List Effect :=
  if client.terminate then closeSocket { client with idleOpen := false }
  else if !client.inputEof && client.readySend then
    if readFails then (fatal client, [])
    else
      match fgets msgMaxSize client.input with
      | (some line, input) =>
        let msg := msgSetup (storeLine client.msg line)
        let r := scSocketSend sendResult client.socket msg
        let client := { client with socket := r.1, msg := msg, input := input }
        if r.2.1 ≠ 0 then (fatal client, r.2.2)
        else ({ client with readySend := false, inputEof := input.eof }, r.2.2)
      | (none, input) =>
        let client := { client with input := input, inputEof := input.eof }
        if !input.eof then (fatal client, []) else (uvAsyncSend client, [])
  else (client, [])

def onConnect (client : Client) (errcode : Int) : Client :=
  if errcode ≠ 0 then fatal client else { client with readySend := true }

def onRecv (client : Client) (msg : Option Delivery) (errcode : Int) : Client × List Effect :=
  if errcode ≠ 0 then (fatal client, [])
  else if msg = none then closeSocket client
  else (client, [])

def onSend (client : Client) (errcode : Int) : Client :=
  if errcode ≠ 0 then fatal client else { client with readySend := true }

def onClose (client : Client) : Client := { client with signalsOpen := false }

/-- What the callbacks of the client do. -/
def react (client : Client) : Effect → Client × List Effect
  | .onConnect errcode => (onConnect client errcode, [])
  | .onRecv msg errcode => onRecv client msg errcode
  | .onSend errcode => (onSend client errcode, [])
  | .onClose => (onClose client, [])
  | _ => (client, [])

def reactAll (client : Client) : List Effect → Client × List Effect
  | [] => (client, [])
  | x :: xs =>
    let r := react client x
    let q := reactAll r.1 xs
    (q.1, r.2 ++ q.2)

inductive ClientEvent where
  | idle (sendResult : Int) (readFails : Bool)
  | async
  | signal
  | socket (e : Event)

def clientStep (heap : Heap) : Step Client ClientEvent Effect
  | client, .idle sendResult readFails =>
    if client.exited ∨ !client.idleOpen then none else some (idleCb sendResult readFails client)
  | client, .async =>
    if client.exited ∨ !(client.asyncOpen && client.asyncPending) then none
    else some (asyncCb client, [])
  | client, .signal =>
    if client.exited ∨ !client.signalsOpen then none else some (signalCb client, [])
  | client, .socket e =>
    if client.exited ∨ !isLoop e then none
    else
      match step heap client.socket e with
      | none => none
      | some (s, effects) =>
        let r := reactAll { client with socket := s } effects
        some (r.1, effects ++ r.2)

/-- The client when `sc_socket_connect` has returned zero. -/
def Client.start (socket : ScSocket) (msg : ScMsg) (input : List UInt8) : Client :=
  { socket := socket
    msg := msg
    input := ⟨input, false⟩
    terminate := false
    inputEof := false
    readySend := false
    asyncOpen := true
    asyncPending := false
    idleOpen := true
    signalsOpen := true
    exited := false }

def untilNul (line : List UInt8) : List UInt8 := line.takeWhile (· ≠ 0)

section Lines

theorem load_take (a : Area) {m n : ℕ} (h : m ≤ n) : (a.load n).take m = a.load m := by
  simp [Area.load, ← List.map_take, List.take_range, h]

theorem takeWhile_zero (xs ys : List UInt8) :
    (xs ++ 0 :: ys).takeWhile (· ≠ 0) = xs.takeWhile (· ≠ 0) := by
  induction xs with
  | nil => simp
  | cons x xs ih =>
    by_cases hx : x = 0
    · simp [hx]
    · simpa [hx] using ih

/-- What is sent for a line is the line as far as its first zero byte. -/
theorem body_msgSetup (msg : ScMsg) {line : List UInt8} (h : line.length < msgMaxSize) :
    body (msgSetup (storeLine msg line)) = untilNul line := by
  have hstored : (msg.data.store 0 (line ++ [0])).load (0 + (line ++ [0]).length) =
      [] ++ (line ++ [0]) := Area.load_store msg.data (by simp [Area.load]) _
  rw [Nat.zero_add, List.nil_append] at hstored
  have hle : (line ++ [0]).length ≤ msgMaxSize := by simpa using h
  have hbuf := List.take_append_drop (line ++ [0]).length
    ((msg.data.store 0 (line ++ [0])).load msgMaxSize)
  rw [load_take _ hle, hstored, List.append_assoc, List.singleton_append] at hbuf
  have htext : ((msg.data.store 0 (line ++ [0])).load msgMaxSize).takeWhile (· ≠ 0) =
      untilNul line := by
    rw [← hbuf, takeWhile_zero]
    rfl
  have hlen : (untilNul line).length ≤ msgMaxSize :=
    (List.takeWhile_prefix _).length_le.trans (Nat.le_of_lt h)
  have hsize : scMsgGetSize (msgSetup (storeLine msg line)) = (untilNul line).length := by
    rw [msgSetup, scMsgGetSize_scMsgSetSize]
    · rw [storeLine, htext]
    · rw [storeLine, htext]
      exact Nat.lt_of_le_of_lt hlen (by decide)
  have htake := List.prefix_iff_eq_take.mp
    (List.takeWhile_prefix (l := (msg.data.store 0 (line ++ [0])).load msgMaxSize) (· ≠ 0))
  rw [htext] at htake
  rw [body, hsize]
  conv_rhs => rw [htake]
  exact (load_take _ hlen).symm

end Lines

/-- No request is submitted while libuv owns it, and only an open handle is closed. -/
def CallOk : Effect → Prop
  | .uvWrite owned _ _ => owned = false
  | .uvClose before => before = .active
  | _ => True

def closes (effects : List Effect) : ℕ :=
  effects.countP fun x => match x with
    | .uvClose _ => true
    | _ => false

def lineMax : ℕ := msgMaxSize - 1

/-- The socket of the client: a send is started when none is pending and the connection stands,
nothing is read, and the handle is open until the idle callback closes it. -/
structure SendsOnly (client : Client) : Prop where
  ready : client.readySend = true →
    client.socket.backend.stream.writing = none ∧ client.socket.backend.stream.connecting = false
  connecting : client.socket.backend.stream.connecting = true →
    client.socket.backend.stream.writing = none
  deaf : client.socket.backend.stream.reading = false
  active : client.idleOpen = true → client.socket.backend.stream.phase = .active

/-- After `k` lines; `unwritten` are the bytes of the last one that libuv still has to write. -/
structure Sends (input : List UInt8) (k : ℕ) (unwritten : List UInt8) (client : Client)
    (past : List Effect) : Prop where
  bytes : writtenBytes (writeCalls past) ++ unwritten =
    wire ((readLines lineMax k input).map untilNul)
  pending : client.exited = false → unwritten = client.socket.backend.stream.writing.getD []
  unread : client.exited = false → client.input.rest = afterLines lineMax k input
  sendsOnly : SendsOnly client
  legal : ∀ x ∈ past, CallOk x
  once : closes past = if client.idleOpen then 0 else 1

section Steps

variable {input unwritten : List UInt8} {k : ℕ} {client next : Client} {past effects : List Effect}

theorem SendsOnly.congr (h : SendsOnly client)
    (hs : next.socket.backend.stream = client.socket.backend.stream)
    (hr : next.readySend = client.readySend) (hi : next.idleOpen = client.idleOpen) :
    SendsOnly next := by
  constructor
  · rw [hs, hr]
    exact h.ready
  · rw [hs]
    exact h.connecting
  · rw [hs]
    exact h.deaf
  · rw [hs, hi]
    exact h.active

theorem closes_append (xs ys : List Effect) : closes (xs ++ ys) = closes xs + closes ys :=
  List.countP_append

theorem closes_uriDel (s : ScSocket) : closes (uriDelEffects s) = 0 := by
  unfold uriDelEffects
  split <;> rfl

theorem legal_uriDel (s : ScSocket) : ∀ x ∈ uriDelEffects s, CallOk x := by
  unfold uriDelEffects
  split <;> simp [CallOk]

/-- A move that reads no line and does not close the handle. -/
theorem Sends.move {unwritten' : List UInt8} (h : Sends input k unwritten client past)
    (effects : List Effect)
    (hbytes : writtenBytes (writeCalls effects) ++ unwritten' = unwritten)
    (hpending : next.exited = false → unwritten' = next.socket.backend.stream.writing.getD [])
    (hunread : next.exited = false → next.input.rest = afterLines lineMax k input)
    (hsocket : SendsOnly next) (hidle : next.idleOpen = client.idleOpen)
    (hlegal : ∀ x ∈ effects, CallOk x) (hcloses : closes effects = 0) :
    Sends input k unwritten' next (past ++ effects) where
  bytes := by
    rw [writeCalls_append, writtenBytes_append, List.append_assoc, hbytes]
    exact h.bytes
  pending := hpending
  unread := hunread
  sendsOnly := hsocket
  legal := List.forall_mem_append.mpr ⟨h.legal, hlegal⟩
  once := by rw [closes_append, hcloses, h.once, hidle, Nat.add_zero]

/-- A move that leaves the socket and the input alone. -/
theorem Sends.stay (h : Sends input k unwritten client past) (hs : next.socket = client.socket)
    (hinput : next.input = client.input) (hr : next.readySend = client.readySend)
    (hi : next.idleOpen = client.idleOpen) (hexit : client.exited = false) :
    Sends input k unwritten next (past ++ []) := by
  refine h.move [] rfl ?_ ?_ (h.sendsOnly.congr (by rw [hs]) hr hi) hi (by simp) rfl
  · intro _
    rw [hs]
    exact h.pending hexit
  · intro _
    rw [hinput]
    exact h.unread hexit

/-- `terminate` is set: the handle is closed, once. -/
theorem sends_terminated (h : Sends input k unwritten client past) (hidle : client.idleOpen = true) :
    Sends input k unwritten (closeSocket { client with idleOpen := false }).1
      (past ++ (closeSocket { client with idleOpen := false }).2) := by
  have hphase := h.sendsOnly.active hidle
  have heffects : (closeSocket { client with idleOpen := false }).2 =
      .uvClose .active :: uriDelEffects client.socket := by
    rw [← hphase]
    rfl
  have hquiet : writeCalls (.uvClose .active :: uriDelEffects client.socket) = [] :=
    uriDel_writes client.socket
  rw [heffects]
  refine ⟨?_, h.pending, h.unread, ⟨h.sendsOnly.ready, h.sendsOnly.connecting, rfl, ?_⟩, ?_, ?_⟩
  · rw [writeCalls_append, hquiet, List.append_nil]
    exact h.bytes
  · intro hopen
    cases hopen
  · exact List.forall_mem_append.mpr ⟨h.legal, List.forall_mem_cons.mpr ⟨rfl, legal_uriDel _⟩⟩
  · have hone : closes (.uvClose .active :: uriDelEffects client.socket) = 1 := by
      simp only [closes, List.countP_cons]
      exact congrArg (· + 1) (closes_uriDel client.socket)
    rw [closes_append, h.once, hidle, hone]
    rfl

theorem send_effects (s : ScSocket) (msg : ScMsg) (result : Int)
    (h : s.backend.stream.writing = none) :
    (scSocketSend result s msg).2.2 = [.uvWrite false (sendBuffers msg).flatten result] := by
  simp only [scSocketSend, buvSend, h]
  split <;> rfl

theorem send_value (s : ScSocket) (msg : ScMsg) (result : Int) :
    (scSocketSend result s msg).2.1 = result := by
  simp only [scSocketSend, buvSend]
  split <;> rfl

theorem send_stream (s : ScSocket) (msg : ScMsg) {result : Int} (h : result ≠ 0) :
    (scSocketSend result s msg).1.backend.stream = s.backend.stream := by
  simp [scSocketSend, buvSend, h]

/-- The next line is read and sent. -/
theorem sends_line (h : Sends input k unwritten client past) (hexit : client.exited = false)
    (hready : client.readySend = true) {line : List UInt8} {file : Stream} {msg : ScMsg}
    (hline : fgets msgMaxSize client.input = (some line, file))
    (hmsg : msg = msgSetup (storeLine client.msg line)) :
    Sends input (k + 1) (sendBuffers msg).flatten
      { client with
        socket := (scSocketSend 0 client.socket msg).1
        msg := msg
        input := file
        readySend := false
        inputEof := file.eof }
      (past ++ (scSocketSend 0 client.socket msg).2.2) := by
  obtain ⟨_, hcut, hrest, _⟩ := fgets_some 1022 hline
  obtain ⟨hwriting, hconnecting⟩ := h.sendsOnly.ready hready
  have hframe : (sendBuffers msg).flatten = frame (untilNul line) := by
    rw [sendBuffers_frame, hmsg, body_msgSetup]
    rw [hcut]
    exact Nat.lt_of_le_of_lt (takeLine_length _ _) (by decide)
  have hnone : unwritten = [] := by
    rw [h.pending hexit, hwriting]
    rfl
  have hunread := h.unread hexit
  refine ⟨?_, fun _ => rfl, ?_, ⟨?_, ?_, h.sendsOnly.deaf, h.sendsOnly.active⟩, ?_, ?_⟩
  · have hbytes := h.bytes
    rw [hnone, List.append_nil] at hbytes
    have hlast : takeLine lineMax (afterLines lineMax k input) = line := by
      rw [hcut, ← hunread]
      rfl
    rw [send_effects _ _ _ hwriting, writeCalls_append, writtenBytes_append, hframe,
      readLines_succ, List.map_append, wire_append, ← hbytes, hlast]
    simp [writeCalls, write?, writtenBytes, WriteCall.written?, wire]
  · intro _
    rw [afterLines_succ, ← hunread]
    exact hrest
  · intro hno
    cases hno
  · intro hconn
    have hsame : client.socket.backend.stream.connecting = true := hconn
    rw [hconnecting] at hsame
    cases hsame
  · rw [send_effects _ _ _ hwriting]
    exact List.forall_mem_append.mpr ⟨h.legal, by simp [CallOk]⟩
  · rw [send_effects _ _ _ hwriting, closes_append, h.once]
    rfl

theorem sends_idle (h : Sends input k unwritten client past) (hexit : client.exited = false)
    (hidle : client.idleOpen = true) (sendResult : Int) (readFails : Bool) :
    ∃ k' unwritten', Sends input k' unwritten' (idleCb sendResult readFails client).1
      (past ++ (idleCb sendResult readFails client).2) := by
  unfold idleCb
  by_cases hterm : client.terminate = true
  · rw [if_pos hterm]
    exact ⟨k, unwritten, sends_terminated h hidle⟩
  · rw [if_neg hterm]
    by_cases hgo : (!client.inputEof && client.readySend) = true
    · have hready : client.readySend = true := by simp_all
      rw [if_pos hgo]
      cases readFails with
      | true =>
        refine ⟨k, unwritten, h.move [] rfl ?_ ?_ (h.sendsOnly.congr rfl rfl rfl) rfl (by simp) rfl⟩
        · intro hno
          cases hno
        · intro hno
          cases hno
      | false =>
        simp only [Bool.false_eq_true, if_false]
        split
        · rename_i line file hline
          by_cases hr : sendResult = 0
          · subst hr
            simp only [send_value, ne_eq, not_true_eq_false, if_false]
            exact ⟨k + 1, _, sends_line h hexit hready hline rfl⟩
          · simp only [send_value, ne_eq, hr, not_false_eq_true, if_true]
            obtain ⟨hwriting, _⟩ := h.sendsOnly.ready hready
            rw [send_effects _ _ _ hwriting]
            refine ⟨k, unwritten, h.move _ ?_ ?_ ?_
              (h.sendsOnly.congr (send_stream _ _ hr) rfl rfl) rfl (by simp [CallOk]) rfl⟩
            · simp [writeCalls, write?, hr, writtenBytes]
            · intro hno
              cases hno
            · intro hno
              cases hno
        · rename_i file hline
          obtain ⟨hrest, hfile, heof⟩ := fgets_none 1022 hline
          simp only [heof, Bool.not_true, Bool.false_eq_true, if_false]
          refine ⟨k, unwritten, h.move [] rfl h.pending ?_ (h.sendsOnly.congr rfl rfl rfl) rfl (by simp)
            rfl⟩
          intro _
          rw [← h.unread hexit, hrest]
          exact hfile
    · rw [if_neg hgo]
      exact ⟨k, unwritten, h.stay rfl rfl rfl rfl hexit⟩

theorem reactAll_one (client : Client) (x : Effect) :
    reactAll client [x] = react client x := by
  simp [reactAll]

theorem sends_socket {heap : Heap} {e : Event} {s : ScSocket} {effects : List Effect}
    (h : Sends input k unwritten client past) (hexit : client.exited = false)
    (he : isLoop e = true) (hs : step heap client.socket e = some (s, effects)) :
    ∃ k' unwritten', Sends input k' unwritten' (reactAll { client with socket := s } effects).1
      (past ++ (effects ++ (reactAll { client with socket := s } effects).2)) := by
  have hst := h.sendsOnly
  cases step_stepped hs with
  | opened e u effects ho _ => cases e <;> first | exact absurd ho id | cases he
  | listened => cases he
  | submitted => cases he
  | closing => cases he
  | connected errcode hc =>
    have hnone := hst.connecting hc
    rw [reactAll_one]
    refine ⟨k, unwritten, h.move [.onConnect errcode] rfl ?_ ?_ ?_ ?_
      (by simp [CallOk]) rfl⟩
    all_goals simp only [react, onConnect, fatal]
    · intro _
      split <;> exact h.pending hexit
    · intro _
      split <;> exact h.unread hexit
    · split
      · exact ⟨fun hr => ⟨hnone, rfl⟩, fun _ => hnone, hst.deaf, hst.active⟩
      · exact ⟨fun _ => ⟨hnone, rfl⟩, fun _ => hnone, hst.deaf, hst.active⟩
    · split <;> rfl
  | connection errcode =>
    exact ⟨k, unwritten, h.move [.onConnection errcode] rfl h.pending h.unread
      (hst.congr rfl rfl rfl) rfl (by simp [CallOk]) rfl⟩
  | received e r effects _ hreading _ =>
    rw [hst.deaf] at hreading
    cases hreading
  | flushed n left hw hn =>
    have hall := h.pending hexit
    rw [hw] at hall
    refine ⟨k, left.drop n, h.move [.written (left.take n)] ?_ (fun _ => rfl) h.unread
      ⟨?_, ?_, hst.deaf, hst.active⟩ rfl (by simp [CallOk]) rfl⟩
    · rw [hall]
      simp [writeCalls, write?, writtenBytes, WriteCall.written?]
    · intro hr
      rw [(hst.ready hr).1] at hw
      cases hw
    · intro hc
      rw [hst.connecting hc] at hw
      cases hw
  | sent errcode left hw hz =>
    have hall := h.pending hexit
    rw [hw] at hall
    have hconn : client.socket.backend.stream.connecting = false := by
      by_contra hc
      rw [hst.connecting (by simpa using hc)] at hw
      cases hw
    rw [reactAll_one]
    refine ⟨k, unwritten, h.move [.onSend errcode] rfl ?_ ?_ ?_ ?_ (by simp [CallOk])
      rfl⟩
    all_goals simp only [react, onSend, fatal]
    · split
      · intro hno
        cases hno
      · rename_i hzero
        intro _
        rw [hall, hz (by simpa using hzero)]
        rfl
    · intro _
      split <;> exact h.unread hexit
    · split
      · exact ⟨fun _ => ⟨rfl, hconn⟩, fun _ => rfl, hst.deaf, hst.active⟩
      · exact ⟨fun _ => ⟨rfl, hconn⟩, fun _ => rfl, hst.deaf, hst.active⟩
    · split <;> rfl
  | closed hp hw hc =>
    refine ⟨k, unwritten, h.move [.onClose] rfl h.pending h.unread
      ⟨hst.ready, hst.connecting, hst.deaf, ?_⟩ rfl (by simp [CallOk]) rfl⟩
    intro hopen
    rw [hst.active hopen] at hp
    cases hp

theorem sends_step {heap : Heap} {e : ClientEvent} (h : Sends input k unwritten client past)
    (hs : clientStep heap client e = some (next, effects)) :
    ∃ k' unwritten', Sends input k' unwritten' next (past ++ effects) := by
  cases e with
  | idle sendResult readFails =>
    simp only [clientStep, Option.ite_none_left_eq_some, not_or, Bool.not_eq_true,
      Option.some.injEq] at hs
    obtain ⟨⟨hexit, hidle⟩, heq⟩ := hs
    have hmoved := sends_idle h hexit (by simpa using hidle) sendResult readFails
    rw [heq] at hmoved
    exact hmoved
  | async =>
    simp only [clientStep, Option.ite_none_left_eq_some, not_or, Bool.not_eq_true,
      Option.some.injEq, Prod.mk.injEq] at hs
    obtain ⟨⟨hexit, _⟩, rfl, rfl⟩ := hs
    exact ⟨k, unwritten, h.stay rfl rfl rfl rfl hexit⟩
  | signal =>
    simp only [clientStep, Option.ite_none_left_eq_some, not_or, Bool.not_eq_true,
      Option.some.injEq, Prod.mk.injEq] at hs
    obtain ⟨⟨hexit, _⟩, rfl, rfl⟩ := hs
    refine ⟨k, unwritten, h.stay ?_ ?_ ?_ ?_ hexit⟩
    all_goals
      unfold signalCb
      split <;> rfl
  | socket e =>
    simp only [clientStep, Option.ite_none_left_eq_some, not_or, Bool.not_eq_true] at hs
    obtain ⟨⟨hexit, hloop⟩, hs⟩ := hs
    split at hs
    · cases hs
    · rename_i s out hstep
      obtain ⟨rfl, rfl⟩ := Prod.mk.inj (Option.some.inj hs)
      exact sends_socket h hexit (by simpa using hloop) hstep

end Steps

theorem sends_start {socket : ScSocket} (msg : ScMsg) (input : List UInt8)
    (h : socket.backend.stream = ⟨.active, false, true, none⟩) :
    Sends input 0 [] (.start socket msg input) [] := by
  refine ⟨rfl, ?_, fun _ => rfl, ⟨?_, ?_, ?_, ?_⟩, by simp, rfl⟩
  · intro _
    simp [Client.start, h]
  · intro hr
    cases hr
  · intro _
    simp [Client.start, h]
  · simp [Client.start, h]
  · intro _
    simp [Client.start, h]

theorem sends_run {heap : Heap} {env : UriEnv} {uri : CString} {msg : ScMsg} {input : List UInt8}
    {socket : ScSocket} {opening effects : List Effect} {es : List ClientEvent} {client : Client}
    (hconnect : scSocketConnect env newSocket uri = .ok (socket, 0, opening))
    (hrun : run (clientStep heap) (.start socket msg input) es = some (client, effects)) :
    ∃ k unwritten, Sends input k unwritten client effects := by
  refine run_traced (fun client _ past => ∃ k unwritten, Sends input k unwritten client past)
    (fun _ _ => True) ?_ ⟨0, [], sends_start msg input (connect_ok hconnect)⟩
    (everyStep_of_forall _ _ fun _ _ => trivial) hrun
  rintro client e next seen past out _ ⟨k, unwritten, h⟩ hs
  exact sends_step h hs

theorem line_small (k : ℕ) (input : List UInt8) :
    ∀ m ∈ (readLines lineMax k input).map untilNul, m.length ≤ lineMax := by
  intro m hm
  obtain ⟨line, hline, rfl⟩ := List.mem_map.mp hm
  exact (List.takeWhile_prefix _).length_le.trans (readLines_le lineMax k input line hline)

/-- Frames at the front of what the client writes are its first lines. -/
theorem Sends.front {input unwritten t : List UInt8} {k : ℕ} {client : Client}
    {past : List Effect} {ms : List (List UInt8)} (h : Sends input k unwritten client past)
    (hsmall : ∀ m ∈ ms, m.length < 2 ^ 32)
    (hbytes : wire ms ++ t = writtenBytes (writeCalls past) ++ unwritten) :
    ms.length ≤ k ∧ ms = (readLines lineMax ms.length input).map untilNul ∧
      ∃ more, k = ms.length + more.length ∧ t = wire more ∧ ∀ m ∈ more, m.length ≤ lineMax := by
  have hlines := line_small k input
  rw [h.bytes] at hbytes
  obtain ⟨more, heq, ht⟩ := wire_cancel hsmall
    (fun m hm => Nat.lt_of_le_of_lt (hlines m hm) (by decide)) hbytes
  have hlen := congrArg List.length heq
  rw [List.length_map, readLines_length, List.length_append] at hlen
  have hcount : ms.length ≤ k := by omega
  refine ⟨hcount, ?_, more, hlen, ht, ?_⟩
  · rw [← readLines_take lineMax hcount input, List.map_take, heq, List.take_left]
  · intro m hm
    exact hlines m (by rw [heq]; exact List.mem_append_right _ hm)

def lineMsg : ScMsg := ⟨0, 1024, fun _ => 0, fun _ => 0⟩

section Stopping

variable {input : List UInt8} {client next : Client} {effects : List Effect}

def Asked (client : Client) : Prop := client.asyncPending = true ∨ client.terminate = true

/-- How far the client is with its input, and whether it is about to stop. -/
structure Stops (input : List UInt8) (client : Client) : Prop where
  eof : client.input.eof = client.inputEof
  reading : client.inputEof = false →
    (EndsWhole lineMax client.input.rest ↔ EndsWhole lineMax input) ∧ ¬ Asked client
  finished : client.inputEof = true →
    client.input.rest = [] ∧ (Asked client ↔ EndsWhole lineMax input)
  ready : Asked client → client.readySend = true

/-- The parts of the client that decide when it stops. -/
structure SameInput (client next : Client) : Prop where
  input : next.input = client.input
  inputEof : next.inputEof = client.inputEof
  asyncPending : next.asyncPending = client.asyncPending
  terminate : next.terminate = client.terminate
  readySend : client.readySend = true → next.readySend = true

theorem Stops.same (h : Stops input client) (hs : SameInput client next) : Stops input next := by
  have hasked : Asked next ↔ Asked client := by
    rw [Asked, Asked, hs.asyncPending, hs.terminate]
  constructor
  · rw [hs.input, hs.inputEof]
    exact h.eof
  · rw [hs.input, hs.inputEof, hasked]
    exact h.reading
  · rw [hs.input, hs.inputEof, hasked]
    exact h.finished
  · rw [hasked]
    exact fun ha => hs.readySend (h.ready ha)

theorem react_same (client : Client) (x : Effect) : SameInput client (react client x).1 := by
  have hrefl : ∀ s, SameInput client { client with socket := s } := fun _ => ⟨rfl, rfl, rfl, rfl, id⟩
  cases x with
  | onConnect errcode =>
    simp only [react, onConnect]
    split
    · exact ⟨rfl, rfl, rfl, rfl, id⟩
    · exact ⟨rfl, rfl, rfl, rfl, fun _ => rfl⟩
  | onRecv msg errcode =>
    simp only [react, onRecv]
    split
    · exact ⟨rfl, rfl, rfl, rfl, id⟩
    · split
      · exact hrefl _
      · exact hrefl client.socket
  | onSend errcode =>
    simp only [react, onSend]
    split
    · exact ⟨rfl, rfl, rfl, rfl, id⟩
    · exact ⟨rfl, rfl, rfl, rfl, fun _ => rfl⟩
  | onClose => exact ⟨rfl, rfl, rfl, rfl, id⟩
  | _ => exact hrefl client.socket

theorem SameInput.trans {last : Client} (h : SameInput client next) (h' : SameInput next last) :
    SameInput client last :=
  ⟨h'.input.trans h.input, h'.inputEof.trans h.inputEof, h'.asyncPending.trans h.asyncPending,
    h'.terminate.trans h.terminate, fun hr => h'.readySend (h.readySend hr)⟩

theorem reactAll_same (client : Client) (effects : List Effect) :
    SameInput client (reactAll client effects).1 := by
  induction effects generalizing client with
  | nil => exact ⟨rfl, rfl, rfl, rfl, id⟩
  | cons x xs ih => exact (react_same client x).trans (ih _)

theorem stops_idle (h : Stops input client) (sendResult : Int) (readFails : Bool)
    (hexit : (idleCb sendResult readFails client).1.exited = false) :
    Stops input (idleCb sendResult readFails client).1 := by
  revert hexit
  unfold idleCb
  by_cases hterm : client.terminate = true
  · rw [if_pos hterm]
    intro _
    exact h.same ⟨rfl, rfl, rfl, rfl, id⟩
  · rw [if_neg hterm]
    by_cases hgo : (!client.inputEof && client.readySend) = true
    · have heof : client.inputEof = false := by simp_all
      have hready : client.readySend = true := by simp_all
      obtain ⟨hsame, hno⟩ := h.reading heof
      rw [if_pos hgo]
      cases readFails with
      | true =>
        intro hexit
        cases hexit
      | false =>
        simp only [Bool.false_eq_true, if_false]
        split
        · rename_i line file hline
          obtain ⟨hne, _, hrest, hfile⟩ := fgets_some 1022 hline
          rw [h.eof, heof, Bool.false_or] at hfile
          rw [send_value]
          split
          · intro hexit
            cases hexit
          · intro _
            refine ⟨rfl, ?_, ?_, fun ha => absurd ha hno⟩
            · intro hmore
              have hhit : hitsEnd lineMax client.input.rest = false := hfile.symm.trans hmore
              refine ⟨?_, hno⟩
              rw [← hsame, ← endsWhole_dropLine hhit]
              exact Iff.of_eq (congrArg (EndsWhole lineMax) hrest)
            · intro hend
              have hhit : hitsEnd lineMax client.input.rest = true := hfile.symm.trans hend
              refine ⟨hrest.trans (dropLine_of_hitsEnd hhit), iff_of_false hno ?_⟩
              rw [← hsame]
              exact not_endsWhole_of_hitsEnd hne hhit
        · rename_i file hline
          obtain ⟨hrest, hfile, hset⟩ := fgets_none 1022 hline
          simp only [hset, Bool.not_true, Bool.false_eq_true, if_false]
          intro _
          refine ⟨hset, fun hmore => (by cases hmore), fun _ => ⟨hfile, iff_of_true (.inl rfl) ?_⟩,
            fun _ => hready⟩
          rw [← hsame, hrest]
          exact endsWhole_nil lineMax
    · rw [if_neg hgo]
      exact fun _ => h

theorem stops_step {heap : Heap} {e : ClientEvent} (h : client.exited = false → Stops input client)
    (he : e ≠ .signal) (hs : clientStep heap client e = some (next, effects)) :
    next.exited = false → Stops input next := by
  cases e with
  | idle sendResult readFails =>
    simp only [clientStep, Option.ite_none_left_eq_some, not_or, Bool.not_eq_true,
      Option.some.injEq] at hs
    obtain ⟨⟨hexit, _⟩, heq⟩ := hs
    obtain rfl : (idleCb sendResult readFails client).1 = next := congrArg Prod.fst heq
    exact stops_idle (h hexit) sendResult readFails
  | async =>
    simp only [clientStep, Option.ite_none_left_eq_some, not_or, Bool.not_eq_true,
      Option.some.injEq, Prod.mk.injEq] at hs
    obtain ⟨⟨hexit, hpending⟩, rfl, rfl⟩ := hs
    intro _
    have hold := h hexit
    have hasked : Asked client := .inl (by simp_all)
    refine ⟨hold.eof, ?_, ?_, fun _ => hold.ready hasked⟩
    · intro hmore
      exact absurd hasked (hold.reading hmore).2
    · intro hend
      obtain ⟨hrest, hiff⟩ := hold.finished hend
      exact ⟨hrest, iff_of_true (.inr rfl) (hiff.mp hasked)⟩
  | signal => exact absurd rfl he
  | socket e =>
    simp only [clientStep, Option.ite_none_left_eq_some, not_or, Bool.not_eq_true] at hs
    obtain ⟨⟨hexit, _⟩, hs⟩ := hs
    split at hs
    · cases hs
    · rename_i s out hstep
      obtain ⟨rfl, rfl⟩ := Prod.mk.inj (Option.some.inj hs)
      intro _
      have hsocket : SameInput client { client with socket := s } := ⟨rfl, rfl, rfl, rfl, id⟩
      exact (h hexit).same (hsocket.trans (reactAll_same _ _))

theorem Stops.whole (h : Stops input client) (hasked : Asked client) : EndsWhole lineMax input := by
  cases heof : client.inputEof with
  | true => exact (h.finished heof).2.mp hasked
  | false => exact absurd hasked (h.reading heof).2

theorem react_idleOpen (client : Client) (x : Effect) :
    (react client x).1.idleOpen = client.idleOpen := by
  cases x with
  | onConnect errcode =>
    simp only [react, onConnect]
    split <;> rfl
  | onRecv msg errcode =>
    simp only [react, onRecv]
    split
    · rfl
    · split <;> rfl
  | onSend errcode =>
    simp only [react, onSend]
    split <;> rfl
  | _ => rfl

theorem reactAll_idleOpen (client : Client) (effects : List Effect) :
    (reactAll client effects).1.idleOpen = client.idleOpen := by
  induction effects generalizing client with
  | nil => rfl
  | cons x xs ih => exact (ih _).trans (react_idleOpen client x)

/-- Only an idle callback that finds `terminate` set closes the socket. -/
theorem idleCb_idleOpen (hterm : client.terminate = false) (sendResult : Int) (readFails : Bool) :
    (idleCb sendResult readFails client).1.idleOpen = client.idleOpen := by
  unfold idleCb
  simp only [hterm, Bool.false_eq_true, if_false]
  split
  · split
    · rfl
    · split
      · split <;> rfl
      · split <;> rfl
  · rfl

theorem step_idleOpen {heap : Heap} {e : ClientEvent}
    (hterm : client.exited = false → client.terminate = false)
    (hs : clientStep heap client e = some (next, effects)) : next.idleOpen = client.idleOpen := by
  cases e with
  | idle sendResult readFails =>
    simp only [clientStep, Option.ite_none_left_eq_some, not_or, Bool.not_eq_true,
      Option.some.injEq] at hs
    obtain ⟨⟨hexit, _⟩, heq⟩ := hs
    obtain rfl : (idleCb sendResult readFails client).1 = next := congrArg Prod.fst heq
    exact idleCb_idleOpen (hterm hexit) sendResult readFails
  | async =>
    simp only [clientStep, Option.ite_none_left_eq_some, Option.some.injEq, Prod.mk.injEq] at hs
    obtain ⟨_, rfl, _⟩ := hs
    rfl
  | signal =>
    simp only [clientStep, Option.ite_none_left_eq_some, Option.some.injEq, Prod.mk.injEq] at hs
    obtain ⟨_, rfl, _⟩ := hs
    unfold signalCb
    split <;> rfl
  | socket e =>
    simp only [clientStep, Option.ite_none_left_eq_some] at hs
    obtain ⟨_, hs⟩ := hs
    split at hs
    · cases hs
    · rename_i s out hstep
      obtain ⟨rfl, _⟩ := Prod.mk.inj (Option.some.inj hs)
      exact reactAll_idleOpen _ _

theorem stops_run {heap : Heap} {socket : ScSocket} {msg : ScMsg} {es : List ClientEvent}
    (hsignal : ClientEvent.signal ∉ es)
    (hrun : run (clientStep heap) (.start socket msg input) es = some (client, effects)) :
    (client.exited = false → Stops input client) ∧
      (¬ EndsWhole lineMax input → client.idleOpen = true) := by
  have hstart : Stops input (.start socket msg input) := by
    refine ⟨rfl, fun _ => ⟨Iff.rfl, ?_⟩, fun hend => (by cases hend), ?_⟩
    · simp [Asked, Client.start]
    · simp [Asked, Client.start]
  refine run_traced (fun client _ _ => (client.exited = false → Stops input client) ∧
      (¬ EndsWhole lineMax input → client.idleOpen = true))
    (fun _ e => e ≠ .signal) ?_ ⟨fun _ => hstart, fun _ => rfl⟩
    (everyStep_of_forall (E := fun e => e ≠ ClientEvent.signal) _ _
      fun e he heq => hsignal (heq ▸ he)) hrun
  rintro client e next seen past out he ⟨hI, hopen⟩ hs
  refine ⟨stops_step hI he hs, ?_⟩
  intro hno
  have hterm : client.exited = false → client.terminate = false := by
    intro hexit
    by_contra hset
    exact hno ((hI hexit).whole (.inr (by simpa using hset)))
  rw [step_idleOpen hterm hs]
  exact hopen hno

end Stopping

end ShortCircuit.ClientProgram
