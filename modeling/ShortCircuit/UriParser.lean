import ShortCircuit.Boundary
import ShortCircuit.HeapCalls

set_option autoImplicit false

/-!
# URIs (`uri.c`)

`sc_uri_new` duplicates its argument and cuts the copy in place; the parts of a URI
are pointers into that copy. A fault is a read through a null pointer or outside it.
-/
namespace ShortCircuit.UriParser
open CStrings HeapCalls
open Boundary (Proto BlockKind)

def scEnomem : Int := 3193
def scEuriparse : Int := 3194
def scEinvproto : Int := 3195

def pipeStr : List UInt8 := [ch 'p', ch 'i', ch 'p', ch 'e']
def tcpStr : List UInt8 := [ch 't', ch 'c', ch 'p']

inductive UriPath where
  | pipe (filepath : Ptr)
  | tcp (ip4 port : Ptr)

structure Uri where
  str : List UInt8
  proto : Ptr
  path : UriPath

def digits : List UInt8 :=
  [ch '0', ch '1', ch '2', ch '3', ch '4', ch '5', ch '6', ch '7', ch '8', ch '9']

/-- The variables of the loop in `check_ip4`; `tp` is the offset of the pointer in `tmp`. -/
structure Ip4Loop where
  tmp : List UInt8
  tp : ℕ
  sawDigit : Bool
  octets : ℕ
  deriving DecidableEq, Repr

def ip4Start : Ip4Loop := ⟨[0, 0, 0, 0], 0, false, 0⟩

/-- One iteration of the loop; `none` is the early return of false. -/
def ip4Step (s : Ip4Loop) (c : UInt8) : Option Ip4Loop :=
  match digits.idxOf? c with
  | some d =>
    let new := (s.tmp.getD s.tp 0).toNat * 10 + d
    if new > 255 then none
    else
      let tmp := s.tmp.set s.tp (UInt8.ofNat new)
      if s.sawDigit then some { s with tmp := tmp }
      else if s.octets + 1 > 4 then none
      else some ⟨tmp, s.tp, true, s.octets + 1⟩
  | none =>
    if c = ch '.' ∧ s.sawDigit then
      if s.octets = 4 then none else some ⟨s.tmp.set (s.tp + 1) 0, s.tp + 1, false, s.octets⟩
    else none

def ip4Loop : Ip4Loop → List UInt8 → Option Ip4Loop
  | s, [] => some s
  | s, c :: cs =>
    match ip4Step s c with
    | none => none
    | some t => ip4Loop t cs

def checkIp4Str (src : List UInt8) : Bool :=
  match ip4Loop ip4Start src with
  | none => false
  | some s => !(s.octets < 4)

def checkIp4 (buf : List UInt8) (src : Ptr) : Except Fault Bool := (cstrAt buf src).map checkIp4Str

def checkPortStr (port : List UInt8) : Bool :=
  let num := (strtol port).1
  let stop := (strtol port).2
  if stop = 0 then false else if num < 1 ∨ num > 65535 then false else true

def checkPort (buf : List UInt8) (port : Ptr) : Except Fault Bool := (cstrAt buf port).map checkPortStr

def isProtocolKnown (buf : List UInt8) (proto : Ptr) : Except Fault Bool :=
  match strEq buf proto pipeStr with
  | .error fault => .error fault
  | .ok true => .ok true
  | .ok false => strEq buf proto tcpStr

/-- The label `cleanup` of `sc_uri_new`. -/
def cleanup (errcode : Int) : HeapM BlockKind Fault (Option Uri × Int) := do
  free (some .uriStr)
  free (some .uri)
  return (none, errcode)

section Parsing

variable (ctbStrtokS : Tokeniser)

/-- `sc_uri_new` from the second tokeniser call on; `path` is behind the two slashes. -/
def scUriTcp (buf : List UInt8) (proto : Ptr) (path : ℕ) :
    HeapM BlockKind Fault (Option Uri × Int) := do
  let _ ← strlen buf (some path)
  let t ← ctbStrtokS buf path (ch ':') none
  if !(← checkIp4 t.buf t.token) then cleanup scEuriparse
  else if t.context = none then cleanup scEuriparse
  else if !(← checkPort t.buf t.context) then cleanup scEuriparse
  else return (some ⟨t.buf, proto, .tcp t.token t.context⟩, scEuriparse)

/-- `sc_uri_new` after the protocol was found to be known. -/
def scUriPath (buf : List UInt8) (proto : Ptr) (path : ℕ) :
    HeapM BlockKind Fault (Option Uri × Int) := do
  if (← strlen buf (some path)) ≤ 2 then cleanup scEuriparse
  else if (← charAt buf path) ≠ ch '/' then cleanup scEuriparse
  else if (← charAt buf (path + 1)) ≠ ch '/' then cleanup scEuriparse
  else if ← strEq buf proto pipeStr then
    return (some ⟨buf, proto, .pipe (some (path + 2))⟩, scEuriparse)
  else scUriTcp ctbStrtokS buf proto (path + 2)

/-- The result and the error code left in `*errcode`, with the heap calls on the way. -/
def scUriNewCalls (mallocOk strdupOk : Bool) (instr : CString) :
    HeapM BlockKind Fault (Option Uri × Int) := do
  let uri ← malloc mallocOk .uri
  if uri = none then return (none, scEnomem)
  follow .nullPointer uri
  let uriStr ← malloc strdupOk .uriStr
  if uriStr = none then
    free uri
    return (none, scEnomem)
  let str := instr.bytes ++ [0]
  let _ ← strlen str (some 0)
  let t ← ctbStrtokS str 0 (ch ':') none
  match t.context with
  | none => cleanup scEuriparse
  | some path =>
    if !(← isProtocolKnown t.buf t.token) then cleanup scEinvproto
    else scUriPath ctbStrtokS t.buf t.token path

end Parsing

/-- A way out of the parser: it fails with an error code after releasing both blocks, or it keeps
them. -/
def Settled (out : Option Uri × Int) (calls : List (HeapCall BlockKind)) : Prop :=
  if out.1 = none then out.2 ≠ 0 ∧ calls = [.free (some .uriStr), .free (some .uri)]
  else calls = []

theorem cleanup_settled {errcode : Int} (h : errcode ≠ 0) : Ensures (cleanup errcode) Settled := by
  refine ensures_bind (ensures_free (ensures_bind (ensures_free (ensures_pure ?_))))
  exact ⟨h, rfl⟩

section Ways

variable (ctbStrtokS : Tokeniser) (buf : List UInt8) (proto : Ptr) (path : ℕ)

theorem scUriTcp_settled : Ensures (scUriTcp ctbStrtokS buf proto path) Settled := by
  have hcode : scEuriparse ≠ 0 := by decide
  refine ensures_bind (ensures_lift fun len _ => ensures_bind (ensures_lift fun t _ => ?_))
  refine ensures_bind (ensures_lift fun ip4 _ => ?_)
  refine ensures_ite (fun _ => cleanup_settled hcode) fun _ => ?_
  refine ensures_ite (fun _ => cleanup_settled hcode) fun _ => ?_
  refine ensures_bind (ensures_lift fun port _ => ?_)
  exact ensures_ite (fun _ => cleanup_settled hcode) fun _ => ensures_pure rfl

theorem scUriPath_settled : Ensures (scUriPath ctbStrtokS buf proto path) Settled := by
  have hcode : scEuriparse ≠ 0 := by decide
  refine ensures_bind (ensures_lift fun len _ => ?_)
  refine ensures_ite (fun _ => cleanup_settled hcode) fun _ => ?_
  refine ensures_bind (ensures_lift fun first _ => ?_)
  refine ensures_ite (fun _ => cleanup_settled hcode) fun _ => ?_
  refine ensures_bind (ensures_lift fun second _ => ?_)
  refine ensures_ite (fun _ => cleanup_settled hcode) fun _ => ?_
  refine ensures_bind (ensures_lift fun isPipe _ => ?_)
  exact ensures_ite (fun _ => ensures_pure rfl) fun _ => scUriTcp_settled ctbStrtokS buf proto _

end Ways

/-- A failure comes with an error code and leaves nothing allocated. -/
def FreesOnFailure (out : Option Uri × Int) (calls : List (HeapCall BlockKind)) : Prop :=
  out.1 = none → out.2 ≠ 0 ∧ held calls = []

theorem Settled.released {out : Option Uri × Int} {calls : List (HeapCall BlockKind)}
    (h : Settled out calls) : FreesOnFailure out (.malloc .uri :: .malloc .uriStr :: calls) := by
  intro hnone
  rw [Settled, if_pos hnone] at h
  obtain ⟨hcode, rfl⟩ := h
  exact ⟨hcode, rfl⟩

theorem scUriNewCalls_released (ctbStrtokS : Tokeniser) (mallocOk strdupOk : Bool)
    (instr : CString) :
    Ensures (scUriNewCalls ctbStrtokS mallocOk strdupOk instr) FreesOnFailure := by
  refine ensures_bind (ensures_malloc (fun _ => ?_) fun _ => ?_)
  · refine ensures_ite (fun hno => (nomatch hno)) fun _ => ensures_bind (ensures_pure ?_)
    refine ensures_bind (ensures_malloc (fun _ => ?_) fun _ => ?_)
    · refine ensures_ite (fun hno => (nomatch hno)) fun _ => ?_
      refine ensures_bind (ensures_lift fun len _ => ensures_bind (ensures_lift fun t _ => ?_))
      cases t.context with
      | none => exact (cleanup_settled (by decide)).mono fun _ _ h => h.released
      | some path =>
        refine ensures_bind (ensures_lift fun known _ => ensures_ite (fun _ => ?_) fun _ => ?_)
        · exact (cleanup_settled (by decide)).mono fun _ _ h => h.released
        · exact (scUriPath_settled ctbStrtokS _ _ _).mono fun _ _ h => h.released
    · refine ensures_ite (fun _ => ensures_bind (ensures_free (ensures_pure ?_))) fun hno => absurd rfl hno
      exact fun _ => ⟨by decide, rfl⟩
  · refine ensures_ite (fun _ => ensures_pure fun _ => ⟨by decide, rfl⟩) fun hno => absurd rfl hno

def scUriNew (mallocOk strdupOk : Bool) (instr : CString) : Except Fault (Option Uri × Int) :=
  (scUriNewCalls strtokS mallocOk strdupOk instr).result

section Conforming

variable {ctbStrtokS : Tokeniser} (h : AnnexK ctbStrtokS)
include h

theorem scUriTcp_conforming (buf : List UInt8) (proto : Ptr) (path : ℕ) :
    scUriTcp ctbStrtokS buf proto path = scUriTcp strtokS buf proto path := by
  unfold scUriTcp strlen
  cases hs : cstrAt buf (some path) with
  | error fault => rfl
  | ok s => rw [h.agrees hs (by decide)]

theorem scUriPath_conforming (buf : List UInt8) (proto : Ptr) (path : ℕ) :
    scUriPath ctbStrtokS buf proto path = scUriPath strtokS buf proto path := by
  simp only [scUriPath, scUriTcp_conforming h]

/-- The parser is the same with every tokeniser of Annex K. -/
theorem scUriNewCalls_conforming (mallocOk strdupOk : Bool) (instr : CString) :
    (scUriNewCalls ctbStrtokS mallocOk strdupOk instr).result =
      scUriNew mallocOk strdupOk instr := by
  have hs : cstrAt (instr.bytes ++ [0]) (some 0) = .ok instr.bytes := by
    simpa using cstrAt_ok [] [] instr.nul_free
  simp only [scUriNew, scUriNewCalls, scUriPath_conforming h, h.agrees hs (by decide : ch ':' ≠ 0)]

end Conforming

theorem scUriNew_code {mallocOk strdupOk : Bool} {instr : CString} {code : Int}
    (h : scUriNew mallocOk strdupOk instr = .ok (none, code)) : code ≠ 0 := by
  have hr := scUriNewCalls_released strtokS mallocOk strdupOk instr
  rw [scUriNew, HeapM.result] at h
  cases hx : scUriNewCalls strtokS mallocOk strdupOk instr with
  | error fault =>
    rw [hx] at h
    cases h
  | ok p =>
    obtain ⟨out, calls⟩ := p
    rw [hx] at h
    obtain rfl := Except.ok.inj h
    exact (hr _ _ hx rfl).1

def scUriProtocol (uri : Uri) : Except Fault Proto := do
  if !(← isProtocolKnown uri.str uri.proto) then throw .assertion
  if ← strEq uri.str uri.proto pipeStr then return .pipe
  if ← strEq uri.str uri.proto tcpStr then return .tcp
  return .noset

theorem scUriProtocol_ne_noset (uri : Uri) : scUriProtocol uri ≠ .ok .noset := by
  intro h
  obtain ⟨known, hknown, h⟩ := (bind_ok_iff _ _ _).mp h
  cases known with
  | false => cases h
  | true =>
    obtain ⟨pipe, hpipe, h⟩ := (bind_ok_iff _ _ _).mp h
    cases pipe with
    | true => cases h
    | false =>
      obtain ⟨tcp, htcp, h⟩ := (bind_ok_iff _ _ _).mp h
      simp only [isProtocolKnown, hpipe, htcp, Except.ok.injEq] at hknown
      subst hknown
      cases h

/-- The members of the union are read by the name that was written last. -/
def scUriPipeFilepath (uri : Uri) : Ptr :=
  match uri.path with
  | .pipe filepath => filepath
  | .tcp ip4 _ => ip4

def scUriTcpIp4 (uri : Uri) : Ptr :=
  match uri.path with
  | .pipe filepath => filepath
  | .tcp ip4 _ => ip4

def scUriTcpPort (uri : Uri) : Except Fault ℕ :=
  match uri.path with
  | .pipe _ => .error .outOfBounds
  | .tcp _ port => (cstrAt uri.str port).map fun s => ((strtol s).1 % 2 ^ 32).toNat

end ShortCircuit.UriParser
