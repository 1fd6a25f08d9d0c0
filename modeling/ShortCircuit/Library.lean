import ShortCircuit.SocketRuns

set_option autoImplicit false

/-!
# The library as a whole (`sc.c`, `msg.c`, the allocations of `socket.c` and `uri.c`)

`Globals` holds the backend and the two message hooks that `sc_init` sets, each on its
own, with the sockets and the application's own messages, which share the hooks.
`partner` is no variable of the code: it is the free function that was given together
with the current allocator. Answers of `malloc` and `strdup` are arguments of the calls
and those of the message hook are given for each socket. A call that follows a null
pointer ends the process. A socket is reported data and errors while it reads, which
an accept starts and a close ends.
-/
namespace ShortCircuit.Library
open Message Boundary HeapCalls OutputMachine Receive UriParser Backend Socket SocketRuns
open CStrings (Fault CString strtokS)

inductive AllocFn where
  | defaultHeapAlloc
  | custom (fn : ℕ)
  deriving DecidableEq, Repr

inductive FreeFn where
  | defaultHeapFree
  | custom (fn : ℕ)
  deriving DecidableEq, Repr

structure Globals where
  crashed : Bool
  backend : ScBackend
  msgAlloc : AllocFn
  msgFree : FreeFn
  partner : Option FreeFn
  sockets : List SocketUv
  messages : ℕ
  owned : List ℕ

def Globals.start : Globals :=
  { crashed := false
    backend := .notset
    msgAlloc := .defaultHeapAlloc
    msgFree := .defaultHeapFree
    partner := some .defaultHeapFree
    sockets := []
    messages := 0
    owned := [] }

def scMsgInitAllocator (recAlloc recFree : Option ℕ) (lib : Globals) : Globals :=
  { lib with
    msgAlloc := (recAlloc.map AllocFn.custom).getD lib.msgAlloc
    msgFree := (recFree.map FreeFn.custom).getD lib.msgFree
    partner := if recAlloc.isSome then recFree.map FreeFn.custom else lib.partner }

def scInit (backend : ScBackend) (recAlloc recFree : Option ℕ) (lib : Globals) : Globals :=
  scMsgInitAllocator recAlloc recFree
    (if backend = .libuv then { lib with backend := .libuv } else lib)

def defaultHeapAlloc (ptr : Option Block) (n size : ℕ) : Except Fault ScMsg :=
  match ptr with
  | none => .error .nullPointer
  | some b => .ok ⟨n, size, b.head, b.data⟩

/-- `sc_msg_alloc` with the hook that is installed, and the answer it gets. -/
def callMsgAlloc (fn : AllocFn) (answer : Option Block) (n size : ℕ) :
    Except Fault (Option ScMsg) :=
  match fn with
  | .defaultHeapAlloc => (defaultHeapAlloc answer n size).map some
  | .custom _ => .ok (answer.map fun b => ⟨n, size, b.head, b.data⟩)

/-- Whichever hook is installed, `alloc_wrap` gets as far as `scMsgAlloc` lets it. -/
theorem callMsgAlloc_init (fn : AllocFn) (heap : Heap) (n size : ℕ) :
    (callMsgAlloc fn (heap n) n size).bind scMsgInit = scMsgInit (scMsgAlloc heap n size) := by
  cases fn <;> cases hb : heap n <;>
    simp [callMsgAlloc, defaultHeapAlloc, scMsgAlloc, hb, Except.map, Except.bind, scMsgInit]

inductive MsgKey where
  | socket (i id : ℕ)
  | app (n : ℕ)
  deriving DecidableEq, Repr

/-- What a call does to messages and blocks, and a null pointer that it follows. -/
inductive Act where
  | produced (key : MsgKey) (fn : AllocFn) (partner : Option FreeFn)
  | freed (key : Option MsgKey) (fn : FreeFn)
  | done (calls : List (HeapCall BlockKind)) (ok : Bool)
  | crashed (what : Pointee)
  deriving DecidableEq, Repr

inductive Call where
  | init (backend : ScBackend) (recAlloc recFree : Option ℕ)
  | socketNew (mallocOk backendOk : Bool)
  | uriNew (mallocOk strdupOk : Bool) (instr : CString)
  | accept (i : ℕ) (srvProto : Proto) (ans : AcceptAnswers)
  | close (i : ℕ)
  | recv (i : ℕ) (e : ReadEvent)
  | msgAlloc (size : ℕ) (answer : Option Block)
  | msgFree (n : ℕ)

/-- One callback; `none` where libuv cannot make it. -/
def recvCall (heap : Heap) (uv : Receiver) :
    ReadEvent → Option (Except Fault (Receiver × List Effect))
  | .alloc suggestedSize => some (allocWrap heap suggestedSize uv)
  | .read bytes =>
    match uv.offered with
    | none => none
    | some buf =>
      if bytes.length ≤ buf.len then
        some (readWrap { uv with msg := uv.msg.map (fillBuf buf bytes), offered := none } bytes.length)
      else none
  | .stop nread => if nread < 0 then some (readWrap { uv with offered := none } nread) else none

theorem recvStep_recvCall (heap : Heap) (uv : Receiver) (e : ReadEvent) (r : Receiver × List Effect) :
    recvStep heap uv e = some r ↔ recvCall heap uv e = some (.ok r) := by
  cases e with
  | alloc sg =>
    simp only [recvStep, recvCall]
    cases allocWrap heap sg uv <;> simp
  | read bytes =>
    simp only [recvStep, recvCall]
    cases uv.offered with
    | none => simp
    | some buf =>
      by_cases hle : bytes.length ≤ buf.len
      · simp only [hle, if_true]
        split <;> simp_all
      · simp [hle]
  | stop nread =>
    simp only [recvStep, recvCall]
    by_cases hneg : nread < 0
    · simp only [hneg, if_true]
      split <;> simp_all
    · simp [hneg]

def messageAct (lib : Globals) (i : ℕ) : Effect → Option Act
  | .msgAlloc id _ => some (.produced (.socket i id) lib.msgAlloc lib.partner)
  | .msgFree id => some (.freed (id.map (MsgKey.socket i)) lib.msgFree)
  | _ => none

def crash (lib : Globals) (what : Pointee) : Globals × List Act :=
  ({ lib with crashed := true }, [.crashed what])

/-- One call of the application or of the loop, with the answers of each socket's message hook. -/
def libStep (heaps : ℕ → Heap) : Step Globals Call Act
  | lib, .init backend recAlloc recFree =>
    if lib.crashed then none else some (scInit backend recAlloc recFree lib, [])
  | lib, .socketNew mallocOk backendOk =>
    if lib.crashed then none
    else
      match scSocketNewCalls lib.backend mallocOk backendOk with
      | .error what => some (crash lib what)
      | .ok (none, calls) => some (lib, [.done calls false])
      | .ok (some socket, calls) =>
        some ({ lib with sockets := lib.sockets ++ [socket.backend] }, [.done calls true])
  | lib, .uriNew mallocOk strdupOk instr =>
    if lib.crashed then none
    else
      match scUriNewCalls strtokS mallocOk strdupOk instr with
      | .error _ => some (crash lib .string)
      | .ok ((uri, _), calls) => some (lib, [.done calls uri.isSome])
  | lib, .accept i srvProto ans =>
    if lib.crashed then none
    else
      match lib.sockets[i]? with
      | none => none
      | some uv =>
        match buvAccept ans srvProto uv with
        | .error _ => none
        | .ok r => some ({ lib with sockets := lib.sockets.set i r.state }, [])
  | lib, .close i =>
    if lib.crashed then none
    else
      match lib.sockets[i]? with
      | none => none
      | some uv => some ({ lib with sockets := lib.sockets.set i (buvClose uv).state }, [])
  | lib, .recv i e =>
    if lib.crashed then none
    else
      match lib.sockets[i]? with
      | none => none
      | some uv =>
        if uv.stream.phase = .active ∧ uv.stream.reading then
          match recvCall (heaps i) uv.toReceiver e with
          | none => none
          | some (.error _) => some (crash lib .message)
          | some (.ok (v, effects)) =>
            some ({ lib with sockets := lib.sockets.set i { uv with toReceiver := v } },
              effects.filterMap (messageAct lib i))
        else none
  | lib, .msgAlloc size answer =>
    if lib.crashed then none
    else
      match callMsgAlloc lib.msgAlloc answer lib.messages size with
      | .error _ => some (crash lib .message)
      | .ok none => some (lib, [])
      | .ok (some _) =>
        some ({ lib with messages := lib.messages + 1, owned := lib.messages :: lib.owned },
          [.produced (.app lib.messages) lib.msgAlloc lib.partner])
  | lib, .msgFree n =>
    if lib.crashed ∨ n ∉ lib.owned then none
    else
      some ({ lib with owned := lib.owned.erase n }, [.freed (some (.app n)) lib.msgFree])

/-- Everything that one call can do. -/
inductive Called (heaps : ℕ → Heap) (lib : Globals) : Call → Globals → List Act → Prop where
  | initialised (backend : ScBackend) (recAlloc recFree : Option ℕ) :
      Called heaps lib (.init backend recAlloc recFree) (scInit backend recAlloc recFree lib) []
  | socketMade (mallocOk backendOk : Bool) (socket : ScSocket) (calls : List (HeapCall BlockKind))
      (h : scSocketNewCalls lib.backend mallocOk backendOk = .ok (some socket, calls)) :
      Called heaps lib (.socketNew mallocOk backendOk)
        { lib with sockets := lib.sockets ++ [socket.backend] } [.done calls true]
  | socketFailed (mallocOk backendOk : Bool) (calls : List (HeapCall BlockKind))
      (h : scSocketNewCalls lib.backend mallocOk backendOk = .ok (none, calls)) :
      Called heaps lib (.socketNew mallocOk backendOk) lib [.done calls false]
  | socketCrashed (mallocOk backendOk : Bool) (what : Pointee)
      (h : scSocketNewCalls lib.backend mallocOk backendOk = .error what) :
      Called heaps lib (.socketNew mallocOk backendOk) (crash lib what).1 [.crashed what]
  | parsed (mallocOk strdupOk : Bool) (instr : CString) (uri : Option Uri) (errcode : Int)
      (calls : List (HeapCall BlockKind))
      (h : scUriNewCalls strtokS mallocOk strdupOk instr = .ok ((uri, errcode), calls)) :
      Called heaps lib (.uriNew mallocOk strdupOk instr) lib [.done calls uri.isSome]
  | parseCrashed (mallocOk strdupOk : Bool) (instr : CString) :
      Called heaps lib (.uriNew mallocOk strdupOk instr) (crash lib .string).1 [.crashed .string]
  | accepted (i : ℕ) (srvProto : Proto) (ans : AcceptAnswers) (uv : SocketUv) (r : Result Unit)
      (hi : lib.sockets[i]? = some uv) (h : buvAccept ans srvProto uv = .ok r) :
      Called heaps lib (.accept i srvProto ans) { lib with sockets := lib.sockets.set i r.state } []
  | closed (i : ℕ) (uv : SocketUv) (hi : lib.sockets[i]? = some uv) :
      Called heaps lib (.close i) { lib with sockets := lib.sockets.set i (buvClose uv).state } []
  | received (i : ℕ) (e : ReadEvent) (uv : SocketUv) (v : Receiver) (effects : List Effect)
      (hi : lib.sockets[i]? = some uv) (h : recvStep (heaps i) uv.toReceiver e = some (v, effects)) :
      Called heaps lib (.recv i e) { lib with sockets := lib.sockets.set i { uv with toReceiver := v } }
        (effects.filterMap (messageAct lib i))
  | recvCrashed (i : ℕ) (e : ReadEvent) (uv : SocketUv) (fault : Fault)
      (hi : lib.sockets[i]? = some uv)
      (h : recvCall (heaps i) uv.toReceiver e = some (.error fault)) :
      Called heaps lib (.recv i e) (crash lib .message).1 [.crashed .message]
  | obtained (size : ℕ) (b : Block) :
      Called heaps lib (.msgAlloc size (some b))
        { lib with messages := lib.messages + 1, owned := lib.messages :: lib.owned }
        [.produced (.app lib.messages) lib.msgAlloc lib.partner]
  | unobtained (size : ℕ) (h : lib.msgAlloc ≠ .defaultHeapAlloc) :
      Called heaps lib (.msgAlloc size none) lib []
  | allocCrashed (size : ℕ) (h : lib.msgAlloc = .defaultHeapAlloc) :
      Called heaps lib (.msgAlloc size none) (crash lib .message).1 [.crashed .message]
  | released (n : ℕ) (h : n ∈ lib.owned) :
      Called heaps lib (.msgFree n) { lib with owned := lib.owned.erase n }
        [.freed (some (.app n)) lib.msgFree]

section Inversion

variable {heaps : ℕ → Heap} {lib next : Globals} {acts : List Act}

theorem socketNew_called {mallocOk backendOk : Bool}
    (h : libStep heaps lib (.socketNew mallocOk backendOk) = some (next, acts)) :
    Called heaps lib (.socketNew mallocOk backendOk) next acts := by
  simp only [libStep] at h
  split at h
  · cases h
  · split at h
    · rename_i what hf
      obtain ⟨rfl, rfl⟩ := Prod.mk.inj (Option.some.inj h)
      exact .socketCrashed mallocOk backendOk what hf
    · rename_i calls hf
      obtain ⟨rfl, rfl⟩ := Prod.mk.inj (Option.some.inj h)
      exact .socketFailed mallocOk backendOk calls hf
    · rename_i socket calls hm
      obtain ⟨rfl, rfl⟩ := Prod.mk.inj (Option.some.inj h)
      exact .socketMade mallocOk backendOk socket calls hm

theorem uriNew_called {mallocOk strdupOk : Bool} {instr : CString}
    (h : libStep heaps lib (.uriNew mallocOk strdupOk instr) = some (next, acts)) :
    Called heaps lib (.uriNew mallocOk strdupOk instr) next acts := by
  simp only [libStep] at h
  split at h
  · cases h
  · split at h
    · obtain ⟨rfl, rfl⟩ := Prod.mk.inj (Option.some.inj h)
      exact .parseCrashed mallocOk strdupOk instr
    · rename_i uri errcode calls hp
      obtain ⟨rfl, rfl⟩ := Prod.mk.inj (Option.some.inj h)
      exact .parsed mallocOk strdupOk instr uri errcode calls hp

theorem accept_called {i : ℕ} {srvProto : Proto} {ans : AcceptAnswers}
    (h : libStep heaps lib (.accept i srvProto ans) = some (next, acts)) :
    Called heaps lib (.accept i srvProto ans) next acts := by
  simp only [libStep] at h
  split at h
  · cases h
  · split at h
    · cases h
    · rename_i uv hi
      split at h
      · cases h
      · rename_i r hr
        obtain ⟨rfl, rfl⟩ := Prod.mk.inj (Option.some.inj h)
        exact .accepted i srvProto ans uv r hi hr

theorem close_called {i : ℕ} (h : libStep heaps lib (.close i) = some (next, acts)) :
    Called heaps lib (.close i) next acts := by
  simp only [libStep] at h
  split at h
  · cases h
  · split at h
    · cases h
    · rename_i uv hi
      obtain ⟨rfl, rfl⟩ := Prod.mk.inj (Option.some.inj h)
      exact .closed i uv hi

theorem recv_called {i : ℕ} {e : ReadEvent}
    (h : libStep heaps lib (.recv i e) = some (next, acts)) :
    Called heaps lib (.recv i e) next acts := by
  simp only [libStep] at h
  split at h
  · cases h
  · split at h
    · cases h
    · rename_i uv hi
      split at h
      · split at h
        · cases h
        · rename_i fault hf
          obtain ⟨rfl, rfl⟩ := Prod.mk.inj (Option.some.inj h)
          exact .recvCrashed i e uv fault hi hf
        · rename_i v effects hr
          obtain ⟨rfl, rfl⟩ := Prod.mk.inj (Option.some.inj h)
          exact .received i e uv v effects hi ((recvStep_recvCall _ _ _ _).mpr hr)
      · cases h

theorem msgAlloc_called {size : ℕ} {answer : Option Block}
    (h : libStep heaps lib (.msgAlloc size answer) = some (next, acts)) :
    Called heaps lib (.msgAlloc size answer) next acts := by
  simp only [libStep] at h
  split at h
  · cases h
  · cases hfn : lib.msgAlloc <;> cases answer <;>
      simp only [hfn, callMsgAlloc, defaultHeapAlloc, Except.map, Option.map_none, Option.map_some,
        Option.some.injEq, Prod.mk.injEq] at h <;> obtain ⟨rfl, rfl⟩ := h
    · exact .allocCrashed size hfn
    · exact hfn ▸ .obtained size _
    · exact .unobtained size (by simp [hfn])
    · exact hfn ▸ .obtained size _

theorem libStep_called {call : Call} (h : libStep heaps lib call = some (next, acts)) :
    Called heaps lib call next acts := by
  cases call with
  | init backend recAlloc recFree =>
    simp only [libStep] at h
    split at h
    · cases h
    · obtain ⟨rfl, rfl⟩ := Prod.mk.inj (Option.some.inj h)
      exact .initialised backend recAlloc recFree
  | socketNew mallocOk backendOk => exact socketNew_called h
  | uriNew mallocOk strdupOk instr => exact uriNew_called h
  | accept i srvProto ans => exact accept_called h
  | close i => exact close_called h
  | recv i e => exact recv_called h
  | msgAlloc size answer => exact msgAlloc_called h
  | msgFree n =>
    simp only [libStep] at h
    split at h
    · cases h
    · rename_i hn
      obtain ⟨rfl, rfl⟩ := Prod.mk.inj (Option.some.inj h)
      exact .released n (by_contra fun hno => hn (.inr hno))

end Inversion

end ShortCircuit.Library
