import ShortCircuit.Backend

set_option autoImplicit false

/-!
# The common course of connect and bind

`connect_pipe`, `connect_tcp`, `bind_pipe` and `bind_tcp` initialise the handle, resolve
the address if there is one, and make one last call. An `Attempt` holds what they differ
in, and `Attempted` lists the three ways in which such a function can return.
-/
namespace ShortCircuit.OpenAttempts
open Message Boundary Receive Backend

structure Attempt where
  connects : Bool
  proto : Proto
  resolved : Int × SockAddr
  target : List UInt8
  last : Int

namespace Attempt

def call (a : Attempt) : Effect := if a.connects then .uvConnect a.target else .uvBind a.target

def result (a : Attempt) (init : Int) (uv : SocketUv) : Result Int :=
  let r := uvInit a.proto init uv
  if r.value ≠ 0 then r
  else
    let state := { r.state with tcpAddr := a.resolved.2 }
    if a.resolved.1 ≠ 0 then { r with state := state, value := a.resolved.1 }
    else
      ⟨{ state with stream := { state.stream with connecting := a.connects && a.last == 0 } },
        a.last, r.effects ++ [a.call]⟩

end Attempt

/-- The init call fails, the address cannot be resolved, or the last call is made. -/
inductive Attempted (a : Attempt) (init : Int) (uv : SocketUv) : Result Int → Prop where
  | refused (hi : init ≠ 0) :
      Attempted a init uv ⟨uv, init, [.uvInit a.proto uv.stream.phase]⟩
  | unresolved (hi : init = 0) (ha : a.resolved.1 ≠ 0) :
      Attempted a init uv
        ⟨{ uv with
            stream := ⟨.active, false, false, none⟩
            offered := none
            tcpAddr := a.resolved.2 },
          a.resolved.1, [.uvInit a.proto uv.stream.phase]⟩
  | called (hi : init = 0) (ha : a.resolved.1 = 0) :
      Attempted a init uv
        ⟨{ uv with
            stream := ⟨.active, false, a.connects && a.last == 0, none⟩
            offered := none
            tcpAddr := a.resolved.2 },
          a.last, [.uvInit a.proto uv.stream.phase, a.call]⟩

theorem attempted (a : Attempt) (init : Int) (uv : SocketUv) :
    Attempted a init uv (a.result init uv) := by
  unfold Attempt.result uvInit
  by_cases hi : init = 0
  · by_cases ha : a.resolved.1 = 0
    · simp only [hi, ha, if_true, ne_eq, not_true_eq_false, if_false]
      exact .called rfl ha
    · simp only [hi, ha, if_true, ne_eq, not_true_eq_false, not_false_eq_true, if_false]
      exact .unresolved rfl ha
  · simp only [hi, if_false, ne_eq, not_false_eq_true, if_true]
    exact .refused hi

variable (ans : UvAnswers) (uv : SocketUv) (target : List UInt8) (port : ℕ)

theorem connectPipe_attempt :
    connectPipe ans uv target =
      Attempt.result ⟨true, .pipe, (0, uv.tcpAddr), target, 0⟩ ans.init uv := by
  unfold connectPipe Attempt.result uvInit
  by_cases hi : ans.init = 0
  · simp only [hi, if_true, ne_eq, not_true_eq_false, if_false]
    rfl
  · simp [hi]

theorem bindPipe_attempt :
    bindPipe ans uv target =
      Attempt.result ⟨false, .pipe, (0, uv.tcpAddr), target, ans.last⟩ ans.init uv := by
  unfold bindPipe Attempt.result uvInit
  by_cases hi : ans.init = 0
  · simp only [hi, if_true, ne_eq, not_true_eq_false, if_false]
    rfl
  · simp [hi]

theorem connectTcp_attempt :
    connectTcp ans uv target port =
      Attempt.result ⟨true, .tcp, ans.ip4Addr target port, (ans.ip4Addr target port).2, ans.last⟩
        ans.init uv := rfl

theorem bindTcp_attempt :
    bindTcp ans uv target port =
      Attempt.result ⟨false, .tcp, ans.ip4Addr target port, (ans.ip4Addr target port).2, ans.last⟩
        ans.init uv := by
  unfold bindTcp Attempt.result uvInit
  by_cases hi : ans.init = 0
  · simp only [hi, if_true, ne_eq, not_true_eq_false, if_false]
    rfl
  · simp [hi]

end ShortCircuit.OpenAttempts
