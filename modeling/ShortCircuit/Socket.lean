import ShortCircuit.Backend
import ShortCircuit.OutputMachine

set_option autoImplicit false

/-!
# Sockets and their runs (`socket.c`)

An event is a call of the application or a callback of the loop. `step` refuses the
callbacks that libuv cannot make in a state: data is reported on an active handle
after `uv_read_start`, a write completes with status zero when all its bytes are sent,
and a close completes when no request is pending any more.
-/
namespace ShortCircuit.Socket
open Message Boundary HeapCalls OutputMachine Receive UriParser Backend
open CStrings (Fault CString)

/-- `uri` owns an object made by `sc_uri_new`; these are numbered from `uris`. -/
structure ScSocket where
  backend : SocketUv
  uri : Option (ℕ × Uri)
  uris : ℕ

/-- The global pointer `backend`, which is null until `sc_init` sets it. -/
def backendFuncs : ScBackend → Option ScBackend
  | .notset => none
  | .libuv => some .libuv

/-- `sc_socket_new`, with its heap calls. It passes to `free` the null pointer that it got. -/
def scSocketNewCalls (backend : ScBackend) (mallocOk backendOk : Bool) :
    HeapM BlockKind Pointee (Option ScSocket) := do
  let socket ← malloc mallocOk .socket
  if socket = none then return none
  follow .socket socket
  follow .backend (backendFuncs backend)
  let block ← malloc backendOk .backend
  if block = none then
    free block
    return none
  follow .backend block
  return some ⟨buvInit, none, 0⟩

/-- What it returns once `sc_init` has set the backend. -/
def scSocketNew (mallocOk backendOk : Bool) : Option ScSocket :=
  match scSocketNewCalls .libuv mallocOk backendOk with
  | .error _ => none
  | .ok (socket, _) => socket

/-- A socket as `sc_socket_new` returns it when both allocations succeed. -/
def newSocket : ScSocket := ⟨buvInit, none, 0⟩

theorem scSocketNew_ok : scSocketNew true true = some newSocket := rfl

section New

variable {backend : ScBackend} {mallocOk backendOk : Bool}

theorem scSocketNewCalls_some {socket : ScSocket} {calls : List (HeapCall BlockKind)}
    (h : scSocketNewCalls backend mallocOk backendOk = .ok (some socket, calls)) :
    socket = newSocket ∧ backend = .libuv ∧ backendOk = true := by
  cases backend <;> cases mallocOk <;> cases backendOk <;> cases h
  exact ⟨rfl, rfl, rfl⟩

/-- A failed call has released its blocks when it got none, and only then. -/
theorem scSocketNewCalls_none {calls : List (HeapCall BlockKind)}
    (h : scSocketNewCalls backend mallocOk backendOk = .ok (none, calls)) :
    held calls = [] ↔ (mallocOk = true → backend = .libuv ∧ backendOk = true) := by
  cases backend <;> cases mallocOk <;> cases backendOk <;> cases h <;> decide

theorem scSocketNewCalls_error {what : Pointee}
    (h : scSocketNewCalls backend mallocOk backendOk = .error what) :
    what = .backend ∧ mallocOk = true ∧ backend = .notset := by
  cases backend <;> cases mallocOk <;> cases backendOk <;> cases h <;> exact ⟨rfl, rfl, rfl⟩

end New

def uriDelEffects (socket : ScSocket) : List Effect :=
  match socket.uri with
  | none => []
  | some u => [.uriDel u.1]

def scSocketDel (socket : ScSocket) : List Effect := uriDelEffects socket

structure UriEnv where
  mallocOk : Bool
  strdupOk : Bool
  uv : UvAnswers

def noErrors : UriEnv := ⟨true, true, ⟨0, fun _ _ => (0, []), 0⟩⟩

/-- The URI `pipe://p`. -/
def pipeUri : CString := ⟨pipeStr ++ [58, 47, 47, 112], by decide⟩

/-- The common shape of `sc_socket_connect` and `sc_socket_bind`. -/
def withUri (op : UvAnswers → SocketUv → Uri → Except Fault (Result Int)) (env : UriEnv)
    (socket : ScSocket) (uri : CString) : Except Fault (ScSocket × Int × List Effect) := do
  match ← scUriNew env.mallocOk env.strdupOk uri with
  | (none, errcode) => return ({ socket with uri := none }, errcode, [])
  | (some u, _) =>
    let r ← op env.uv socket.backend u
    return (⟨r.state, some (socket.uris, u), socket.uris + 1⟩, r.value,
      .uriNew socket.uris :: r.effects)

def scSocketConnect := withUri buvConnect

def scSocketBind := withUri buvBind

def scSocketAccept (ans : AcceptAnswers) (srvProto : Proto) (client : ScSocket) :
    Except Fault (ScSocket × List Effect) := do
  let r ← buvAccept ans srvProto client.backend
  return ({ client with backend := r.state }, r.effects)

def scSocketListen (result : Int) (socket : ScSocket) (backlog : Int) :
    ScSocket × Int × List Effect :=
  let r := buvListen result socket.backend backlog
  ({ socket with backend := r.state }, r.value, r.effects)

def scSocketSend (result : Int) (socket : ScSocket) (msg : ScMsg) : ScSocket × Int × List Effect :=
  let r := buvSend result socket.backend msg
  ({ socket with backend := r.state }, r.value, r.effects)

def scSocketClose (socket : ScSocket) : ScSocket × Int × List Effect :=
  let r := buvClose socket.backend
  ({ socket with backend := r.state, uri := none }, r.value, r.effects ++ uriDelEffects socket)

inductive Event where
  | connect (uri : CString) (env : UriEnv)
  | bind (uri : CString) (env : UriEnv)
  | accept (srvProto : Proto) (ans : AcceptAnswers)
  | listen (backlog result : Int)
  | send (msg : ScMsg) (result : Int)
  | close
  | connected (errcode : Int)
  | connection (errcode : Int)
  | recv (e : ReadEvent)
  | flushed (n : ℕ)
  | sent (errcode : Int)
  | closed

/-- Forget the value a call returns; a fault ends the process. -/
def returned : Except Fault (ScSocket × Int × List Effect) → Option (ScSocket × List Effect)
  | .error _ => none
  | .ok (s, _, effects) => some (s, effects)

def withStream (socket : ScSocket) (stream : UvStream) : ScSocket :=
  { socket with backend := { socket.backend with stream := stream } }

def step (heap : Heap) : Step ScSocket Event Effect
  | s, .connect uri env => returned (scSocketConnect env s uri)
  | s, .bind uri env => returned (scSocketBind env s uri)
  | s, .accept srvProto ans =>
    match scSocketAccept ans srvProto s with
    | .error _ => none
    | .ok r => some r
  | s, .listen backlog result => returned (.ok (scSocketListen result s backlog))
  | s, .send msg result => returned (.ok (scSocketSend result s msg))
  | s, .close => returned (.ok (scSocketClose s))
  | s, .connected errcode =>
    let stream := s.backend.stream
    if stream.connecting then
      some (withStream s { stream with connecting := false },
        (onConnectWrap s.backend errcode).effects)
    else none
  | s, .connection errcode =>
    if s.backend.stream.phase = .active then some (s, (onConnectionWrap s.backend errcode).effects)
    else none
  | s, .recv e =>
    let stream := s.backend.stream
    if stream.phase = .active ∧ stream.reading then
      match recvStep heap s.backend.toReceiver e with
      | none => none
      | some (r, effects) => some ({ s with backend := { s.backend with toReceiver := r } }, effects)
    else none
  | s, .flushed n =>
    let stream := s.backend.stream
    match stream.writing with
    | none => none
    | some left =>
      if n ≤ left.length then
        some (withStream s { stream with writing := some (left.drop n) }, [.written (left.take n)])
      else none
  | s, .sent errcode =>
    let stream := s.backend.stream
    match stream.writing with
    | none => none
    | some left =>
      if errcode = 0 → left = [] then
        some (withStream s { stream with writing := none }, (writeWrap s.backend errcode).effects)
      else none
  | s, .closed =>
    let stream := s.backend.stream
    if stream.phase = .closing ∧ stream.writing = none ∧ !stream.connecting then
      some (withStream s { stream with phase := .closed }, (closeWrap s.backend).effects)
    else none

end ShortCircuit.Socket
