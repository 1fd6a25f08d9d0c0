import ShortCircuit.OpenAttempts
import ShortCircuit.Socket

set_option autoImplicit false

/-!
# What one event can do to a socket

`Opened` says what connect, bind and accept can do to the backend, `Stepped` what any
event can do to the socket. The lemmas about runs of a socket are case analyses of
`Stepped`.
-/
namespace ShortCircuit.SocketRuns
open Message Boundary OutputMachine Receive UriParser Backend OpenAttempts Socket
open CStrings (Fault CString bind_ok_iff cstrAt)

/-- Calls that concern neither messages, nor writes, nor the life of the handle. -/
def Plain (x : Effect) : Prop := x.family = .other

/-- What connect, bind and accept can do: nothing, a failed init call, or a fresh handle. The flag
says whether the handle was initialised. -/
inductive Opened (uv v : SocketUv) (effects : List Effect) : Bool → Prop where
  | untouched (hs : v.stream = uv.stream) (hr : v.toReceiver = uv.toReceiver)
      (he : ∀ x ∈ effects, Plain x) : Opened uv v effects false
  | refused (proto : Proto) (pre rest : List Effect) (hs : v.stream = uv.stream)
      (hr : v.toReceiver = uv.toReceiver)
      (he : effects = pre ++ .uvInit proto uv.stream.phase :: rest) (hpre : ∀ x ∈ pre, Plain x)
      (hrest : ∀ x ∈ rest, Plain x) : Opened uv v effects false
  | ready (proto : Proto) (reading connecting : Bool) (pre rest : List Effect)
      (hone : (reading && connecting) = false)
      (hs : v.stream = ⟨.active, reading, connecting, none⟩)
      (hr : v.toReceiver = { uv.toReceiver with offered := none })
      (he : effects = pre ++ .uvInit proto uv.stream.phase :: rest) (hpre : ∀ x ∈ pre, Plain x)
      (hrest : ∀ x ∈ rest, Plain x) : Opened uv v effects true

theorem Opened.cons {uv v : SocketUv} {effects : List Effect} {ok : Bool} {x : Effect}
    (hx : Plain x) (h : Opened uv v effects ok) : Opened uv v (x :: effects) ok := by
  cases h with
  | untouched hs hr he => exact .untouched hs hr (List.forall_mem_cons.mpr ⟨hx, he⟩)
  | refused proto pre rest hs hr he hpre hrest =>
    exact .refused proto (x :: pre) rest hs hr (by rw [he]; rfl)
      (List.forall_mem_cons.mpr ⟨hx, hpre⟩) hrest
  | ready proto reading connecting pre rest hone hs hr he hpre hrest =>
    exact .ready proto reading connecting (x :: pre) rest hone hs hr (by rw [he]; rfl)
      (List.forall_mem_cons.mpr ⟨hx, hpre⟩) hrest

section Open

variable {ans : UvAnswers} {uv : SocketUv}

theorem plain_nil : ∀ x ∈ ([] : List Effect), Plain x := fun _ h => (nomatch h)

theorem plain_one {x : Effect} (h : Plain x) : ∀ y ∈ [x], Plain y :=
  List.forall_mem_singleton.mpr h

theorem call_plain (a : Attempt) : Plain a.call := by
  unfold Attempt.call
  split <;> rfl

theorem attempt_opened (a : Attempt) {init : Int} :
    Opened uv (a.result init uv).state (a.result init uv).effects (init == 0) := by
  have hr := attempted a init uv
  generalize a.result init uv = r at hr ⊢
  cases hr with
  | refused hi =>
    rw [beq_eq_false_iff_ne.mpr hi]
    exact .refused a.proto [] [] rfl rfl rfl plain_nil plain_nil
  | unresolved hi ha =>
    subst hi
    exact .ready a.proto false false [] [] rfl rfl rfl rfl plain_nil plain_nil
  | called hi ha =>
    subst hi
    exact .ready a.proto false _ [] _ rfl rfl rfl rfl plain_nil (plain_one (call_plain a))

/-- A URI that can be read is connected to as a pipe or as a tcp address. -/
theorem buvConnect_cases {uri : Uri} {r : Result Int} (h : buvConnect ans uv uri = .ok r) :
    (∃ path, scUriProtocol uri = .ok .pipe ∧ r = connectPipe ans uv path) ∨
      ∃ ip4 port, scUriProtocol uri = .ok .tcp ∧ cstrAt uri.str (scUriTcpIp4 uri) = .ok ip4 ∧
        scUriTcpPort uri = .ok port ∧ r = connectTcp ans uv ip4 port := by
  obtain ⟨proto, hp, h⟩ := (bind_ok_iff _ _ _).mp h
  cases proto with
  | noset => exact absurd hp (scUriProtocol_ne_noset uri)
  | pipe =>
    obtain ⟨path, _, h⟩ := (bind_ok_iff _ _ _).mp h
    exact .inl ⟨path, hp, (Except.ok.inj h).symm⟩
  | tcp =>
    obtain ⟨ip4, hip, h⟩ := (bind_ok_iff _ _ _).mp h
    obtain ⟨port, hport, h⟩ := (bind_ok_iff _ _ _).mp h
    exact .inr ⟨ip4, port, hp, hip, hport, (Except.ok.inj h).symm⟩

theorem buvConnect_attempt {uri : Uri} {r : Result Int} (h : buvConnect ans uv uri = .ok r) :
    ∃ a : Attempt, a.connects = true ∧ r = a.result ans.init uv := by
  obtain ⟨path, _, rfl⟩ | ⟨ip4, port, _, _, _, rfl⟩ := buvConnect_cases h
  · exact ⟨_, rfl, connectPipe_attempt ans uv path⟩
  · exact ⟨_, rfl, connectTcp_attempt ans uv ip4 port⟩

theorem buvConnect_opened {uri : Uri} {r : Result Int} (h : buvConnect ans uv uri = .ok r) :
    Opened uv r.state r.effects (ans.init == 0) := by
  obtain ⟨a, _, rfl⟩ := buvConnect_attempt h
  exact attempt_opened a

theorem Opened.withProto {v : SocketUv} {effects : List Effect} {ok : Bool} (proto : Proto)
    (h : Opened { uv with proto := proto } v effects ok) : Opened uv v effects ok := by
  cases h with
  | untouched hs hr he => exact .untouched hs hr he
  | refused p pre rest hs hr he hpre hrest => exact .refused p pre rest hs hr he hpre hrest
  | ready p reading connecting pre rest hone hs hr he hpre hrest =>
    exact .ready p reading connecting pre rest hone hs hr he hpre hrest

/-- A URI that can be read is bound as a pipe or as a tcp address, after its protocol is stored. -/
theorem buvBind_cases {uri : Uri} {r : Result Int} (h : buvBind ans uv uri = .ok r) :
    (∃ path, scUriProtocol uri = .ok .pipe ∧ r = bindPipe ans { uv with proto := .pipe } path) ∨
      ∃ ip4 port, scUriProtocol uri = .ok .tcp ∧ cstrAt uri.str (scUriTcpIp4 uri) = .ok ip4 ∧
        scUriTcpPort uri = .ok port ∧ r = bindTcp ans { uv with proto := .tcp } ip4 port := by
  obtain ⟨proto, hp, h⟩ := (bind_ok_iff _ _ _).mp h
  cases proto with
  | noset => cases h
  | pipe =>
    obtain ⟨path, _, h⟩ := (bind_ok_iff _ _ _).mp h
    exact .inl ⟨path, hp, (Except.ok.inj h).symm⟩
  | tcp =>
    obtain ⟨ip4, hip, h⟩ := (bind_ok_iff _ _ _).mp h
    obtain ⟨port, hport, h⟩ := (bind_ok_iff _ _ _).mp h
    exact .inr ⟨ip4, port, hp, hip, hport, (Except.ok.inj h).symm⟩

theorem buvBind_attempt {uri : Uri} {r : Result Int} (h : buvBind ans uv uri = .ok r) :
    ∃ (a : Attempt) (proto : Proto),
      a.connects = false ∧ r = a.result ans.init { uv with proto := proto } := by
  obtain ⟨path, _, rfl⟩ | ⟨ip4, port, _, _, _, rfl⟩ := buvBind_cases h
  · exact ⟨_, .pipe, rfl, bindPipe_attempt ans { uv with proto := .pipe } path⟩
  · exact ⟨_, .tcp, rfl, bindTcp_attempt ans { uv with proto := .tcp } ip4 port⟩

theorem buvBind_opened {uri : Uri} {r : Result Int} (h : buvBind ans uv uri = .ok r) :
    Opened uv r.state r.effects (ans.init == 0) := by
  obtain ⟨a, proto, _, rfl⟩ := buvBind_attempt h
  exact (attempt_opened a).withProto proto

theorem buvAccept_opened {acc : AcceptAnswers} {srvProto : Proto} {r : Result Unit}
    (h : buvAccept acc srvProto uv = .ok r) : Opened uv r.state r.effects (acc.init == 0) := by
  by_cases hp : srvProto = .noset
  · simp [buvAccept, hp] at h
  · by_cases hi : acc.init = 0
    · by_cases ha : acc.accept = 0
      · by_cases hr : acc.readStart = 0
        · simp only [buvAccept, uvInit, hp, hi, ha, hr, if_true, if_false, ne_eq,
            not_true_eq_false, Except.ok.injEq] at h
          subst h
          rw [hi]
          exact .ready srvProto true false [] [.uvAccept, .uvReadStart, .onAccept 0] rfl rfl rfl
            rfl plain_nil (by simp [Plain, Effect.family])
        · simp only [buvAccept, uvInit, hp, hi, ha, hr, if_true, if_false, ne_eq,
            not_true_eq_false, not_false_eq_true, Except.ok.injEq] at h
          subst h
          rw [hi]
          exact .ready srvProto false false [] [.uvAccept, .uvReadStart, .onAccept acc.readStart]
            rfl rfl rfl rfl plain_nil (by simp [Plain, Effect.family])
      · simp only [buvAccept, uvInit, hp, hi, ha, if_true, if_false, ne_eq, not_true_eq_false,
          not_false_eq_true, Except.ok.injEq] at h
        subst h
        rw [hi]
        exact .ready srvProto false false [] [.uvAccept, .onAccept acc.accept] rfl rfl rfl
          rfl plain_nil (by simp [Plain, Effect.family])
    · simp only [buvAccept, uvInit, hp, hi, if_true, if_false, ne_eq, not_false_eq_true,
        Except.ok.injEq] at h
      subst h
      rw [beq_eq_false_iff_ne.mpr hi]
      exact .refused srvProto [] [.onAccept acc.init] rfl rfl rfl plain_nil (plain_one rfl)

end Open

def opens : Event → Prop
  | .connect _ _ | .bind _ _ | .accept _ _ => True
  | _ => False

def uriOk (env : UriEnv) (uri : CString) : Bool :=
  match scUriNew env.mallocOk env.strdupOk uri with
  | .ok (some _, _) => true
  | _ => false

/-- Whether a connect, bind or accept initialises the handle: the URI is accepted and the init call
of libuv returns zero. -/
def initialises : Event → Bool
  | .connect uri env => uriOk env uri && env.uv.init == 0
  | .bind uri env => uriOk env uri && env.uv.init == 0
  | .accept _ ans => ans.init == 0
  | _ => false

/-- A connect or bind ends in `sc_uri_new`, or hands the parsed URI to the backend. -/
theorem withUri_cases {op : UvAnswers → SocketUv → Uri → Except Fault (Result Int)}
    {env : UriEnv} {s u : ScSocket} {uri : CString} {code : Int} {effects : List Effect}
    (h : withUri op env s uri = .ok (u, code, effects)) :
    (scUriNew env.mallocOk env.strdupOk uri = .ok (none, code) ∧ u = { s with uri := none } ∧
        effects = []) ∨
      ∃ parsed errcode r, scUriNew env.mallocOk env.strdupOk uri = .ok (some parsed, errcode) ∧
        op env.uv s.backend parsed = .ok r ∧
        u = ⟨r.state, some (s.uris, parsed), s.uris + 1⟩ ∧ code = r.value ∧
        effects = .uriNew s.uris :: r.effects := by
  obtain ⟨⟨parsed, errcode⟩, hp, h⟩ := (bind_ok_iff _ _ _).mp h
  cases parsed with
  | none =>
    simp only [pure, Except.pure, Except.ok.injEq, Prod.mk.injEq] at h
    obtain ⟨rfl, rfl, rfl⟩ := h
    exact .inl ⟨hp, rfl, rfl⟩
  | some parsed =>
    obtain ⟨r, hr, h⟩ := (bind_ok_iff _ _ _).mp h
    simp only [pure, Except.pure, Except.ok.injEq, Prod.mk.injEq] at h
    obtain ⟨rfl, rfl, rfl⟩ := h
    exact .inr ⟨parsed, errcode, r, hp, hr, rfl, rfl, rfl⟩

theorem returned_some {x : Except Fault (ScSocket × Int × List Effect)} {u : ScSocket}
    {effects : List Effect} (h : returned x = some (u, effects)) : ∃ code, x = .ok (u, code, effects) := by
  cases x with
  | error fault => cases h
  | ok a =>
    obtain ⟨w, code, out⟩ := a
    simp only [returned, Option.some.injEq, Prod.mk.injEq] at h
    obtain ⟨rfl, rfl⟩ := h
    exact ⟨code, rfl⟩

theorem withUri_opened {op : UvAnswers → SocketUv → Uri → Except Fault (Result Int)}
    (hop : ∀ ans uv uri r, op ans uv uri = .ok r → Opened uv r.state r.effects (ans.init == 0))
    {env : UriEnv} {s u : ScSocket} {uri : CString} {effects : List Effect}
    (h : returned (withUri op env s uri) = some (u, effects)) :
    Opened s.backend u.backend effects (uriOk env uri && env.uv.init == 0) := by
  obtain ⟨code, h⟩ := returned_some h
  rcases withUri_cases h with ⟨hp, rfl, rfl⟩ | ⟨parsed, errcode, r, hp, hr, rfl, _, rfl⟩
  · have hok : uriOk env uri = false := by rw [uriOk, hp]
    rw [hok, Bool.false_and]
    exact .untouched rfl rfl plain_nil
  · have hok : uriOk env uri = true := by rw [uriOk, hp]
    rw [hok, Bool.true_and]
    exact (hop _ _ _ _ hr).cons rfl

theorem recv_family {heap : Heap} {uv v : Receiver} {e : ReadEvent} {effects : List Effect}
    (h : recvStep heap uv e = some (v, effects)) : ∀ x ∈ effects, x.family = .message := by
  cases recvStep_moved h <;> simp [Effect.family]

def withReceiver (s : ScSocket) (r : Receiver) : ScSocket :=
  { s with backend := { s.backend with toReceiver := r } }

inductive Stepped (heap : Heap) (s : ScSocket) : Event → ScSocket → List Effect → Prop where
  | opened (e : Event) (u : ScSocket) (effects : List Effect) (he : opens e)
      (h : Opened s.backend u.backend effects (initialises e)) : Stepped heap s e u effects
  | listened (backlog result : Int) : Stepped heap s (.listen backlog result) s [.uvListen backlog]
  | submitted (msg : ScMsg) (result : Int) :
      Stepped heap s (.send msg result) (scSocketSend result s msg).1
        [.uvWrite s.backend.stream.writing.isSome (sendBuffers msg).flatten result]
  | closing :
      Stepped heap s .close
        { withStream s { s.backend.stream with phase := .closing, reading := false } with
          uri := none }
        (.uvClose s.backend.stream.phase :: uriDelEffects s)
  | connected (errcode : Int) (h : s.backend.stream.connecting) :
      Stepped heap s (.connected errcode)
        (withStream s { s.backend.stream with connecting := false }) [.onConnect errcode]
  | connection (errcode : Int) : Stepped heap s (.connection errcode) s [.onConnection errcode]
  | received (e : ReadEvent) (r : Receiver) (effects : List Effect)
      (hactive : s.backend.stream.phase = .active) (hreading : s.backend.stream.reading)
      (h : recvStep heap s.backend.toReceiver e = some (r, effects)) :
      Stepped heap s (.recv e) (withReceiver s r) effects
  | flushed (n : ℕ) (left : List UInt8) (h : s.backend.stream.writing = some left)
      (hn : n ≤ left.length) :
      Stepped heap s (.flushed n)
        (withStream s { s.backend.stream with writing := some (left.drop n) })
        [.written (left.take n)]
  | sent (errcode : Int) (left : List UInt8) (h : s.backend.stream.writing = some left)
      (hz : errcode = 0 → left = []) :
      Stepped heap s (.sent errcode) (withStream s { s.backend.stream with writing := none })
        [.onSend errcode]
  | closed (h : s.backend.stream.phase = .closing) (hw : s.backend.stream.writing = none)
      (hc : s.backend.stream.connecting = false) :
      Stepped heap s .closed (withStream s { s.backend.stream with phase := .closed }) [.onClose]

section Inversion

variable {heap : Heap} {s u : ScSocket} {effects : List Effect}

theorem accept_cases {srvProto : Proto} {ans : AcceptAnswers}
    (h : step heap s (.accept srvProto ans) = some (u, effects)) :
    ∃ r, buvAccept ans srvProto s.backend = .ok r ∧ u = { s with backend := r.state } ∧
      effects = r.effects := by
  simp only [step] at h
  split at h
  · cases h
  · rename_i a ha
    obtain rfl := Option.some.inj h
    obtain ⟨r, hr, ha⟩ := (bind_ok_iff _ _ _).mp ha
    simp only [pure, Except.pure, Except.ok.injEq, Prod.mk.injEq] at ha
    obtain ⟨rfl, rfl⟩ := ha
    exact ⟨r, hr, rfl, rfl⟩

theorem send_stepped {msg : ScMsg} {result : Int}
    (h : step heap s (.send msg result) = some (u, effects)) :
    Stepped heap s (.send msg result) u effects := by
  simp only [step, returned, Option.some.injEq, Prod.mk.injEq] at h
  obtain ⟨rfl, rfl⟩ := h
  have he : (scSocketSend result s msg).2.2 =
      [.uvWrite s.backend.stream.writing.isSome (sendBuffers msg).flatten result] := by
    simp only [scSocketSend, buvSend]
    split <;> rfl
  rw [he]
  exact .submitted msg result

theorem recv_stepped {e : ReadEvent} (h : step heap s (.recv e) = some (u, effects)) :
    Stepped heap s (.recv e) u effects := by
  simp only [step] at h
  split at h
  · rename_i hc
    split at h
    · cases h
    · rename_i r out hr
      obtain ⟨rfl, rfl⟩ := Prod.mk.inj (Option.some.inj h)
      exact .received e r out hc.1 hc.2 hr
  · cases h

theorem flushed_stepped {n : ℕ} (h : step heap s (.flushed n) = some (u, effects)) :
    Stepped heap s (.flushed n) u effects := by
  simp only [step] at h
  split at h
  · cases h
  · rename_i left hw
    split at h
    · rename_i hn
      obtain ⟨rfl, rfl⟩ := Prod.mk.inj (Option.some.inj h)
      exact .flushed n left hw hn
    · cases h

theorem sent_stepped {errcode : Int} (h : step heap s (.sent errcode) = some (u, effects)) :
    Stepped heap s (.sent errcode) u effects := by
  simp only [step] at h
  split at h
  · cases h
  · rename_i left hw
    split at h
    · rename_i hz
      obtain ⟨rfl, rfl⟩ := Prod.mk.inj (Option.some.inj h)
      exact .sent errcode left hw hz
    · cases h

theorem step_stepped {e : Event} (h : step heap s e = some (u, effects)) :
    Stepped heap s e u effects := by
  cases e with
  | connect uri env => exact .opened _ _ _ trivial (withUri_opened (fun _ _ _ _ => buvConnect_opened) h)
  | bind uri env => exact .opened _ _ _ trivial (withUri_opened (fun _ _ _ _ => buvBind_opened) h)
  | accept srvProto ans =>
    obtain ⟨r, hr, rfl, rfl⟩ := accept_cases h
    exact .opened _ _ _ trivial (buvAccept_opened hr)
  | listen backlog result =>
    simp only [step, returned, Option.some.injEq, Prod.mk.injEq] at h
    obtain ⟨rfl, rfl⟩ := h
    exact .listened backlog result
  | send msg result => exact send_stepped h
  | close =>
    simp only [step, returned, Option.some.injEq, Prod.mk.injEq] at h
    obtain ⟨rfl, rfl⟩ := h
    exact .closing
  | connected errcode =>
    simp only [step] at h
    split at h
    · rename_i hc
      simp only [onConnectWrap, ite_self, Option.some.injEq, Prod.mk.injEq] at h
      obtain ⟨rfl, rfl⟩ := h
      exact .connected errcode hc
    · cases h
  | connection errcode =>
    simp only [step] at h
    split at h
    · obtain ⟨rfl, rfl⟩ := Prod.mk.inj (Option.some.inj h)
      exact .connection errcode
    · cases h
  | recv e => exact recv_stepped h
  | flushed n => exact flushed_stepped h
  | sent errcode => exact sent_stepped h
  | closed =>
    simp only [step] at h
    split at h
    · rename_i hc
      obtain ⟨rfl, rfl⟩ := Prod.mk.inj (Option.some.inj h)
      exact .closed hc.1 hc.2.1 (by simpa using hc.2.2)
    · cases h

end Inversion

/-- On an active handle that reads, a run of read callbacks is a run of the receiver. -/
theorem run_recv (heap : Heap) {s : ScSocket} (hp : s.backend.stream.phase = .active)
    (hr : s.backend.stream.reading = true) (es : List ReadEvent) :
    run (step heap) s (es.map .recv) =
      (run (recvStep heap) s.backend.toReceiver es).map fun r => (withReceiver s r.1, r.2) := by
  induction es generalizing s with
  | nil => rfl
  | cons e es ih =>
    rw [List.map_cons, run_eq_bind, run_eq_bind]
    have hs : step heap s (.recv e) = (recvStep heap s.backend.toReceiver e).map fun r =>
        (withReceiver s r.1, r.2) := by
      simp only [step, hp, hr, and_self, if_true]
      cases recvStep heap s.backend.toReceiver e <;> rfl
    rw [hs]
    cases recvStep heap s.backend.toReceiver e with
    | none => rfl
    | some r =>
      simp only [Option.map_some, Option.bind_some]
      rw [ih (s := withReceiver s r.1) hp hr]
      simp only [Option.map_map]
      rfl

theorem send_receiver (result : Int) (s : ScSocket) (msg : ScMsg) :
    (scSocketSend result s msg).1.backend.toReceiver = s.backend.toReceiver := by
  simp only [scSocketSend, buvSend]
  split <;> rfl

section Receiver

variable {heap : Heap} {I : Receiver → Prop} {E : ReadEvent → Prop}

theorem opened_receiver (hforget : ∀ uv, I uv → I { uv with offered := none }) {uv v : SocketUv}
    {effects : List Effect} {ok : Bool} (h : Opened uv v effects ok) (hI : I uv.toReceiver) :
    I v.toReceiver := by
  cases h with
  | untouched hs hr he => exact hr ▸ hI
  | refused proto pre rest hs hr he hpre hrest => exact hr ▸ hI
  | ready proto reading connecting pre rest hone hs hr he hpre hrest => exact hr ▸ hforget _ hI

/-- What the read callbacks keep, a run of the socket keeps. `E` restricts the read events. -/
theorem run_receiver (hinit : I .init) (hforget : ∀ uv, I uv → I { uv with offered := none })
    (hrecv : ∀ uv v e effects, E e → I uv → recvStep heap uv e = some (v, effects) → I v)
    {es : List Event} {s : ScSocket} {effects : List Effect} (hE : ∀ e, .recv e ∈ es → E e)
    (hrun : run (step heap) newSocket es = some (s, effects)) : I s.backend.toReceiver := by
  have hstart : I newSocket.backend.toReceiver := hinit
  have hevents : EveryStep (step heap) (fun _ e => ∀ r, e = .recv r → E r) newSocket es := by
    apply everyStep_of_forall (E := fun e => ∀ r, e = Event.recv r → E r)
    rintro _ he r rfl
    exact hE r he
  refine run_traced (fun s _ _ => I s.backend.toReceiver) _ ?_ hstart hevents hrun
  intro s e u seen past out he hI hs
  cases step_stepped hs with
  | opened e u effects hopen h => exact opened_receiver hforget h hI
  | submitted msg result => exact send_receiver result s msg ▸ hI
  | received e r effects hactive hreading h => exact hrecv _ _ _ _ (he e rfl) hI h
  | _ => exact hI

end Receiver

def acceptedSocket (s : ScSocket) (proto : Proto) : ScSocket :=
  { s with
    backend :=
      { s.backend with stream := ⟨.active, true, false, none⟩, offered := none, proto := proto } }

theorem accept_ok (heap : Heap) (s : ScSocket) {proto : Proto} (h : proto ≠ .noset) :
    step heap s (.accept proto ⟨0, 0, 0⟩) =
      some (acceptedSocket s proto, [.uvInit proto s.backend.stream.phase, .uvAccept,
        .uvReadStart, .onAccept 0]) := by
  simp only [step, scSocketAccept, buvAccept, h, if_false]
  rfl

end ShortCircuit.SocketRuns
