import ShortCircuit.Receive
import ShortCircuit.UriParser

set_option autoImplicit false

/-!
# The libuv backend (`backend_uv.c`)

`SocketUv` is `struct socket_uv`. `UvStream` is what libuv keeps in `union stream` and
in the two requests: the phase of the handle, whether reading was started, whether a
connect request is pending, and the bytes that the pending write request still has to
send. Results of libuv calls are arguments; each call is recorded as an effect.
-/
namespace ShortCircuit.Backend
open WordBytes Message Boundary Receive UriParser
open CStrings (Fault Ptr cstrAt)

abbrev SockAddr := List UInt8

structure UvStream where
  phase : HandlePhase
  reading : Bool
  connecting : Bool
  writing : Option (List UInt8)

structure SocketUv extends Receiver where
  stream : UvStream
  writeBuffers : List (List UInt8)
  proto : Proto
  tcpAddr : SockAddr

/-- What a backend function returns, and the calls it made. -/
structure Result (α : Type) where
  state : SocketUv
  value : α
  effects : List Effect

def buvInit : SocketUv :=
  { Receiver.init with
    stream := ⟨.uninit, false, false, none⟩
    writeBuffers := [[], []]
    proto := .noset
    tcpAddr := List.replicate 16 0 }

def uvInit (proto : Proto) (result : Int) (uv : SocketUv) : Result Int :=
  let effects := [Effect.uvInit proto uv.stream.phase]
  if result = 0 then
    ⟨{ uv with stream := ⟨.active, false, false, none⟩, offered := none }, 0, effects⟩
  else ⟨uv, result, effects⟩

/-- Answers of libuv during a connect or a bind: the init call, `uv_ip4_addr` with the address it
stores, and the last call. -/
structure UvAnswers where
  init : Int
  ip4Addr : List UInt8 → ℕ → Int × SockAddr
  last : Int

def onConnectWrap (uv : SocketUv) (errcode : Int) : Result Unit :=
  if errcode ≠ 0 then ⟨uv, (), [.onConnect errcode]⟩ else ⟨uv, (), [.onConnect errcode]⟩

/-- The outcome of `uv_pipe_connect` is only reported to `on_connect_wrap`. -/
def connectPipe (ans : UvAnswers) (clt : SocketUv) (filepath : List UInt8) : Result Int :=
  let r := uvInit .pipe ans.init clt
  if r.value ≠ 0 then r
  else
    ⟨{ r.state with stream := { r.state.stream with connecting := true } }, r.value,
      r.effects ++ [Effect.uvConnect filepath]⟩

def connectTcp (ans : UvAnswers) (clt : SocketUv) (ip4 : List UInt8) (port : ℕ) : Result Int :=
  let r := uvInit .tcp ans.init clt
  if r.value ≠ 0 then r
  else
    let addr := ans.ip4Addr ip4 port
    let state := { r.state with tcpAddr := addr.2 }
    if addr.1 ≠ 0 then { r with state := state, value := addr.1 }
    else
      ⟨{ state with stream := { state.stream with connecting := ans.last == 0 } }, ans.last,
        r.effects ++ [Effect.uvConnect addr.2]⟩

def buvConnect (ans : UvAnswers) (clt : SocketUv) (uri : Uri) : Except Fault (Result Int) := do
  match ← scUriProtocol uri with
  | .pipe => return connectPipe ans clt (← cstrAt uri.str (scUriPipeFilepath uri))
  | .tcp => return connectTcp ans clt (← cstrAt uri.str (scUriTcpIp4 uri)) (← scUriTcpPort uri)
  | .noset => return ⟨clt, scEinvproto, []⟩

structure AcceptAnswers where
  init : Int
  accept : Int
  readStart : Int

/-- The server takes part with its protocol and the listening handle behind `uv_accept`. -/
def buvAccept (ans : AcceptAnswers) (srvProto : Proto) (clt : SocketUv) :
    Except Fault (Result Unit) :=
  if srvProto = .noset then .error .assertion
  else
    let r := uvInit srvProto ans.init clt
    if r.value ≠ 0 then .ok ⟨r.state, (), r.effects ++ [Effect.onAccept r.value]⟩
    else
      let state := { r.state with proto := srvProto }
      let effects := r.effects ++ [Effect.uvAccept]
      if ans.accept ≠ 0 then .ok ⟨state, (), effects ++ [Effect.onAccept ans.accept]⟩
      else if ans.readStart ≠ 0 then
        .ok ⟨state, (), effects ++ [Effect.uvReadStart, Effect.onAccept ans.readStart]⟩
      else
        .ok ⟨{ state with stream := { state.stream with reading := true } }, (),
          effects ++ [Effect.uvReadStart, Effect.onAccept 0]⟩

def bindPipe (ans : UvAnswers) (srv : SocketUv) (filepath : List UInt8) : Result Int :=
  let r := uvInit .pipe ans.init srv
  if r.value ≠ 0 then r else ⟨r.state, ans.last, r.effects ++ [Effect.uvBind filepath]⟩

def bindTcp (ans : UvAnswers) (srv : SocketUv) (ip4 : List UInt8) (port : ℕ) : Result Int :=
  let r := uvInit .tcp ans.init srv
  if r.value ≠ 0 then r
  else
    let addr := ans.ip4Addr ip4 port
    let state := { r.state with tcpAddr := addr.2 }
    if addr.1 ≠ 0 then { r with state := state, value := addr.1 }
    else ⟨state, ans.last, r.effects ++ [Effect.uvBind addr.2]⟩

def buvBind (ans : UvAnswers) (srv : SocketUv) (uri : Uri) : Except Fault (Result Int) := do
  let proto ← scUriProtocol uri
  let srv := { srv with proto := proto }
  match proto with
  | .pipe => return bindPipe ans srv (← cstrAt uri.str (scUriPipeFilepath uri))
  | .tcp => return bindTcp ans srv (← cstrAt uri.str (scUriTcpIp4 uri)) (← scUriTcpPort uri)
  | .noset => throw .assertion

def buvListen (result : Int) (srv : SocketUv) (backlog : Int) : Result Int :=
  ⟨srv, result, [.uvListen backlog]⟩

def onConnectionWrap (uv : SocketUv) (errcode : Int) : Result Unit :=
  ⟨uv, (), [.onConnection errcode]⟩

def writeWrap (uv : SocketUv) (errcode : Int) : Result Unit := ⟨uv, (), [.onSend errcode]⟩

def sendBuffers (msg : ScMsg) : List (List UInt8) :=
  [msg.sizeBe.load scMsgSizeBytes, msg.data.load (scMsgGetSize msg)]

/-- A zero result passes the request to libuv. Submitting it while libuv still owns it loses the
write that was pending. libuv keeps pointers to the message; the bytes are taken here, so the
application must not change the message before `on_send`. -/
def buvSend (result : Int) (uv : SocketUv) (msg : ScMsg) : Result Int :=
  let buffers := sendBuffers msg
  let effects := [Effect.uvWrite uv.stream.writing.isSome buffers.flatten result]
  let uv := { uv with writeBuffers := buffers }
  if result = 0 then
    ⟨{ uv with stream := { uv.stream with writing := some buffers.flatten } }, result, effects⟩
  else ⟨uv, result, effects⟩

def closeWrap (uv : SocketUv) : Result Unit := ⟨uv, (), [.onClose]⟩

def buvClose (uv : SocketUv) : Result Int :=
  ⟨{ uv with stream := { uv.stream with phase := .closing, reading := false } }, 0,
    [.uvClose uv.stream.phase]⟩

end ShortCircuit.Backend
