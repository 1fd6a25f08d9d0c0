import ShortCircuit.SocketRuns

set_option autoImplicit false

/-!
# What a failed connect or bind leaves behind

A call that fails in `sc_uri_new` does not reach the backend. One that fails later keeps
the new URI, and its effect on the backend depends on how far it came: up to the init
call nothing but the protocol of a bind has changed, after it the handle is initialised
and a tcp address is stored.
-/
namespace ShortCircuit.FailedOpen
open Message Boundary OutputMachine Receive UriParser Backend OpenAttempts Socket SocketRuns
open CStrings (Fault CString cstrAt)

inductive OpenCall where
  | connect
  | bind
  deriving DecidableEq, Repr

def openCall : OpenCall → UriEnv → ScSocket → CString → Except Fault (ScSocket × Int × List Effect)
  | .connect => scSocketConnect
  | .bind => scSocketBind

/-- The backend's protocol after a call that got past `sc_uri_new`. -/
def protoAfter (call : OpenCall) (before uriProto : Proto) : Proto :=
  match call with
  | .connect => before
  | .bind => uriProto

/-- What a backend call on `uv` that got a URI of protocol `proto` and failed leaves in `v`. -/
inductive Left (ans : UvAnswers) (call : OpenCall) (uri : Uri) (proto : Proto) (uv v : SocketUv) :
    Prop where
  | untouched (hinit : ans.init ≠ 0) (haddr : v.tcpAddr = uv.tcpAddr)
      (hstream : v.stream = uv.stream)
  | pipe (hinit : ans.init = 0) (hproto : proto = .pipe) (hcall : call = .bind)
      (haddr : v.tcpAddr = uv.tcpAddr) (hphase : v.stream.phase = .active)
  | tcp (hinit : ans.init = 0) (hproto : proto = .tcp) (ip4 : List UInt8) (port : ℕ)
      (hip : cstrAt uri.str (scUriTcpIp4 uri) = .ok ip4) (hport : scUriTcpPort uri = .ok port)
      (haddr : v.tcpAddr = (ans.ip4Addr ip4 port).2) (hphase : v.stream.phase = .active)

/-- A call that starts from `uv` and, once the handle is initialised, has stored `addr`. -/
structure Progress (ans : UvAnswers) (uv : SocketUv) (addr : SockAddr) (r : Result Int) : Prop where
  before : ans.init ≠ 0 → r.state = uv
  after : ans.init = 0 → r.state.tcpAddr = addr ∧ r.state.stream.phase = .active ∧
    r.state.proto = uv.proto

theorem attempt_progress (a : Attempt) (ans : UvAnswers) (uv : SocketUv) :
    Progress ans uv a.resolved.2 (a.result ans.init uv) := by
  have hr := attempted a ans.init uv
  generalize a.result ans.init uv = r at hr ⊢
  cases hr with
  | refused hi => exact ⟨fun _ => rfl, fun hok => absurd hok hi⟩
  | unresolved hi ha => exact ⟨fun hno => absurd hi hno, fun _ => ⟨rfl, rfl, rfl⟩⟩
  | called hi ha => exact ⟨fun hno => absurd hi hno, fun _ => ⟨rfl, rfl, rfl⟩⟩

/-- Where neither the address nor the last call can fail, the init call has. -/
theorem attempt_failed {a : Attempt} {ans : UvAnswers} {uv : SocketUv} (ha : a.resolved.1 = 0)
    (hl : a.last = 0) (h : (a.result ans.init uv).value ≠ 0) : ans.init ≠ 0 := by
  intro hi
  have hr := attempted a ans.init uv
  generalize a.result ans.init uv = r at h hr
  cases hr with
  | refused hno => exact hno hi
  | unresolved _ hno => exact hno ha
  | called _ _ => exact h hl

variable {ans : UvAnswers} {uv : SocketUv} {uri : Uri} {r : Result Int}

theorem left_tcp {call : OpenCall} {a : Attempt} {proto : Proto} {ip4 : List UInt8} {port : ℕ}
    (hip : cstrAt uri.str (scUriTcpIp4 uri) = .ok ip4) (hport : scUriTcpPort uri = .ok port)
    (ha : a.resolved = ans.ip4Addr ip4 port) :
    (a.result ans.init { uv with proto := proto }).state.proto = proto ∧
      Left ans call uri .tcp uv (a.result ans.init { uv with proto := proto }).state := by
  have h := attempt_progress a ans { uv with proto := proto }
  by_cases hinit : ans.init = 0
  · obtain ⟨haddr, hphase, hproto⟩ := h.after hinit
    exact ⟨hproto, .tcp hinit rfl ip4 port hip hport (ha ▸ haddr) hphase⟩
  · rw [h.before hinit]
    exact ⟨rfl, .untouched hinit rfl rfl⟩

theorem left_pipe {a : Attempt} {proto : Proto} (ha : a.resolved.2 = uv.tcpAddr) :
    (a.result ans.init { uv with proto := proto }).state.proto = proto ∧
      Left ans .bind uri .pipe uv (a.result ans.init { uv with proto := proto }).state := by
  have h := attempt_progress a ans { uv with proto := proto }
  by_cases hinit : ans.init = 0
  · obtain ⟨haddr, hphase, hproto⟩ := h.after hinit
    exact ⟨hproto, .pipe hinit rfl rfl (haddr.trans ha) hphase⟩
  · rw [h.before hinit]
    exact ⟨rfl, .untouched hinit rfl rfl⟩

theorem buvConnect_left (h : buvConnect ans uv uri = .ok r) (hfail : r.value ≠ 0) :
    ∃ proto, scUriProtocol uri = .ok proto ∧ r.state.proto = uv.proto ∧
      Left ans .connect uri proto uv r.state := by
  obtain ⟨path, hp, rfl⟩ | ⟨ip4, port, hp, hip, hport, rfl⟩ := buvConnect_cases h
  · rw [connectPipe_attempt] at hfail ⊢
    have hinit := attempt_failed rfl rfl hfail
    rw [(attempt_progress _ ans uv).before hinit]
    exact ⟨.pipe, hp, rfl, .untouched hinit rfl rfl⟩
  · rw [connectTcp_attempt]
    exact ⟨.tcp, hp, left_tcp hip hport rfl⟩

theorem buvBind_left (h : buvBind ans uv uri = .ok r) :
    ∃ proto, scUriProtocol uri = .ok proto ∧ r.state.proto = proto ∧
      Left ans .bind uri proto uv r.state := by
  obtain ⟨path, hp, rfl⟩ | ⟨ip4, port, hp, hip, hport, rfl⟩ := buvBind_cases h
  · rw [bindPipe_attempt]
    exact ⟨.pipe, hp, left_pipe rfl⟩
  · rw [bindTcp_attempt]
    exact ⟨.tcp, hp, left_tcp hip hport rfl⟩

/-- A connect or bind that returns an error either failed in `sc_uri_new` and did not touch the
backend, or it holds the new URI and left the backend as far as it came. -/
theorem failed_open (call : OpenCall) (env : UriEnv) (s u : ScSocket) (uri : CString) (code : Int)
    (effects : List Effect) (h : openCall call env s uri = .ok (u, code, effects))
    (hcode : code ≠ 0) :
    (scUriNew env.mallocOk env.strdupOk uri = .ok (none, code) ∧ u.backend = s.backend ∧
        (s.uri = none → u.uri = s.uri)) ∨
      ∃ parsed errcode proto,
        scUriNew env.mallocOk env.strdupOk uri = .ok (some parsed, errcode) ∧
        scUriProtocol parsed = .ok proto ∧ u.uri = some (s.uris, parsed) ∧
        u.backend.proto = protoAfter call s.backend.proto proto ∧
        Left env.uv call parsed proto s.backend u.backend := by
  cases call with
  | connect =>
    rcases withUri_cases h with ⟨hp, rfl, _⟩ | ⟨parsed, errcode, r, hp, hr, rfl, rfl, _⟩
    · exact .inl ⟨hp, rfl, fun hs => hs.symm⟩
    · obtain ⟨proto, hproto, hkept, hleft⟩ := buvConnect_left hr hcode
      exact .inr ⟨parsed, errcode, proto, hp, hproto, rfl, hkept, hleft⟩
  | bind =>
    rcases withUri_cases h with ⟨hp, rfl, _⟩ | ⟨parsed, errcode, r, hp, hr, rfl, rfl, _⟩
    · exact .inl ⟨hp, rfl, fun hs => hs.symm⟩
    · obtain ⟨proto, hproto, hkept, hleft⟩ := buvBind_left hr
      exact .inr ⟨parsed, errcode, proto, hp, hproto, rfl, hkept, hleft⟩

def tcpUri : CString :=
  ⟨[116, 99, 112, 58, 47, 47, 49, 46, 50, 46, 51, 46, 52, 58, 53], by decide⟩

def connectRefused : UriEnv :=
  ⟨true, true, ⟨0, fun _ _ => (0, [2, 0, 0, 5, 1, 2, 3, 4, 0, 0, 0, 0, 0, 0, 0, 0]), -111⟩⟩

theorem failed_open_refused :
    ∃ u code effects, openCall .connect connectRefused newSocket tcpUri = .ok (u, code, effects) ∧
      code = -111 ∧ u.backend.proto = newSocket.backend.proto := by
  have hrun : ∃ u effects, openCall .connect connectRefused newSocket tcpUri =
      .ok (u, -111, effects) := ⟨_, _, rfl⟩
  obtain ⟨u, effects, hrun⟩ := hrun
  rcases failed_open .connect connectRefused newSocket u tcpUri _ _ hrun (by decide) with
    ⟨_, hback, _⟩ | ⟨_, _, _, _, _, _, hproto, _⟩
  · exact ⟨u, _, effects, hrun, rfl, by rw [hback]⟩
  · exact ⟨u, _, effects, hrun, rfl, hproto⟩

/-- A connect to `tcp://1.2.3.4:5` that libuv refuses at once, on a new socket. -/
theorem refused_connect_changes :
    ∃ u code effects, openCall .connect connectRefused newSocket tcpUri = .ok (u, code, effects) ∧
      code ≠ 0 ∧ newSocket.uri = none ∧ u.uri ≠ none ∧
      u.backend.tcpAddr ≠ newSocket.backend.tcpAddr ∧
      newSocket.backend.stream.phase = .uninit ∧ u.backend.stream.phase = .active := by
  exact ⟨_, _, _, rfl, by decide, rfl, fun h => (nomatch h), by decide, rfl, by decide⟩

end ShortCircuit.FailedOpen
