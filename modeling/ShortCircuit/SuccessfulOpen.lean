import ShortCircuit.SocketRuns

set_option autoImplicit false

/-!
# Connect and bind that return zero

A rejected URI leaves a nonzero error code, so zero means that libuv accepted the last
call: the handle is open, and after a connect its request is pending.
-/
namespace ShortCircuit.SuccessfulOpen
open Boundary UriParser Backend OpenAttempts Socket SocketRuns
open CStrings (CString)

theorem attempt_ok {a : Attempt} {init : Int} {uv : SocketUv}
    (h : (a.result init uv).value = 0) :
    (a.result init uv).state.stream = ⟨.active, false, a.connects, none⟩ := by
  have hr := attempted a init uv
  generalize a.result init uv = r at h hr ⊢
  cases hr with
  | refused hi => exact absurd h hi
  | unresolved hi ha => exact absurd h ha
  | called hi ha =>
    have hlast : a.last = 0 := h
    simp [hlast]

variable {env : UriEnv} {s u : ScSocket} {uri : CString} {effects : List Effect}

/-- After a connect that returns zero the handle is open and its request is pending. -/
theorem connect_ok (h : scSocketConnect env s uri = .ok (u, 0, effects)) :
    u.backend.stream = ⟨.active, false, true, none⟩ := by
  obtain ⟨hp, _⟩ | ⟨parsed, errcode, r, _, hr, rfl, hcode, _⟩ := withUri_cases h
  · exact absurd rfl (scUriNew_code hp)
  · obtain ⟨a, hconnects, rfl⟩ := buvConnect_attempt hr
    rw [attempt_ok hcode.symm, hconnects]

theorem bind_ok (h : scSocketBind env s uri = .ok (u, 0, effects)) :
    u.backend.stream = ⟨.active, false, false, none⟩ := by
  obtain ⟨hp, _⟩ | ⟨parsed, errcode, r, _, hr, rfl, hcode, _⟩ := withUri_cases h
  · exact absurd rfl (scUriNew_code hp)
  · obtain ⟨a, proto, hconnects, rfl⟩ := buvBind_attempt hr
    rw [attempt_ok hcode.symm, hconnects]

end ShortCircuit.SuccessfulOpen
