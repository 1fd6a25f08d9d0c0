import ShortCircuit.Boundary
import ShortCircuit.OutputMachine

set_option autoImplicit false

/-!
# The receiving half of a socket (`alloc_wrap`, `read_wrap`)

`Receiver` holds the members of `struct socket_uv` that the two read callbacks use,
with the buffer that libuv got from the last `alloc_wrap` and the number of messages
obtained so far. libuv writes the bytes it read into that buffer before `read_wrap`.
The memory behind a message is unbounded here; `Effect.offer` records what was
offered, so that leaving the allocated part is visible.
-/
namespace ShortCircuit.Receive
open WordBytes Message Boundary OutputMachine
open CStrings (Fault)

def uvEof : Int := -4095

structure Receiver where
  msg : Option ScMsg
  reader : MsgReader
  allocs : ℕ
  offered : Option UvBuf

/-- `buv_init` clears `msg`; the reader is set up by the first `alloc_wrap`. -/
def Receiver.init : Receiver := ⟨none, msgReaderInit, 0, none⟩

def offerBuf (sz : ℕ) (msg : ScMsg) (reader : MsgReader) : UvBuf :=
  let hsize := msgReaderAvailHeadSize reader
  if hsize > 0 then ⟨.head, reader.headPos, if hsize < sz then hsize else sz⟩
  else
    let avail := msgReaderAvailBodySize msg reader
    ⟨.body, reader.bodyPos, if avail < sz then avail else sz⟩

def allocWrap (heap : Heap) (suggestedSize : ℕ) (uv : Receiver) :
    Except Fault (Receiver × List Effect) :=
  let sz := u32 suggestedSize
  match uv.msg with
  | some msg =>
    let buf := offerBuf sz msg uv.reader
    .ok ({ uv with offered := some buf }, [.offer buf msg.cap])
  | none =>
    match scMsgInit (scMsgAlloc heap uv.allocs sz) with
    | .error fault => .error fault
    | .ok msg =>
      let buf := offerBuf sz msg msgReaderInit
      .ok (⟨some msg, msgReaderInit, uv.allocs + 1, some buf⟩,
        [.msgAlloc msg.id sz, .offer buf msg.cap])

def fillBuf (buf : UvBuf) (bytes : List UInt8) (msg : ScMsg) : ScMsg :=
  match buf.region with
  | .head => { msg with sizeBe := msg.sizeBe.store buf.base bytes }
  | .body => { msg with data := msg.data.store buf.base bytes }

def deliver (msg : ScMsg) : Delivery := ⟨scMsgGetSize msg, msg.data.load (scMsgGetSize msg)⟩

/-- The parse step of `read_wrap`; the second component is the leftover it throws away. -/
def parseRead (msg : ScMsg) (reader : MsgReader) (size : ℕ) : MsgReader × ℕ :=
  if msgReaderAvailHeadSize reader > 0 then msgReaderParseHead reader size
  else msgReaderParseBody msg reader size

def readErrcode (nread : Int) : Int :=
  if nread ≥ 0 ∨ nread = uvEof then 0 else nread.bmod (2 ^ 32)

def readWrap (uv : Receiver) (nread : Int) : Except Fault (Receiver × List Effect) :=
  let errcode := readErrcode nread
  if nread < 0 then
    .ok ({ uv with msg := none }, [.onRecv none errcode, .msgFree (uv.msg.map ScMsg.id)])
  else if nread > 0 then
    match uv.msg with
    | none => .error .nullPointer
    | some msg =>
      let reader := (parseRead msg uv.reader (u32 nread.toNat)).1
      if msgReaderFinished msg reader then
        .ok ({ uv with msg := none, reader := reader },
          [.onRecv (some (deliver msg)) errcode, .msgFree (some msg.id)])
      else .ok ({ uv with reader := reader }, [])
  else .ok (uv, [])

inductive ReadEvent where
  | alloc (suggestedSize : ℕ)
  | read (bytes : List UInt8)
  | stop (nread : Int)
  deriving DecidableEq, Repr

/-- One callback of libuv. It reports at most as many bytes as were offered, and only negative
numbers as errors. -/
def recvStep (heap : Heap) : Step Receiver ReadEvent Effect
  | uv, .alloc suggestedSize =>
    match allocWrap heap suggestedSize uv with
    | .error _ => none
    | .ok r => some r
  | uv, .read bytes =>
    match uv.offered with
    | none => none
    | some buf =>
      if bytes.length ≤ buf.len then
        let filled := { uv with msg := uv.msg.map (fillBuf buf bytes), offered := none }
        match readWrap filled bytes.length with
        | .error _ => none
        | .ok r => some r
      else none
  | uv, .stop nread =>
    if nread < 0 then
      match readWrap { uv with offered := none } nread with
      | .error _ => none
      | .ok r => some r
    else none

def freshMsg (b : Block) (n size : ℕ) : ScMsg :=
  ⟨n, size, b.head.store 0 [0, 0, 0, 0], b.data.store 0 [0]⟩

/-- Everything that one callback can do. -/
inductive Moved (heap : Heap) (uv : Receiver) : ReadEvent → Receiver → List Effect → Prop where
  | offered (sg : ℕ) (msg : ScMsg) (hm : uv.msg = some msg) :
      Moved heap uv (.alloc sg) { uv with offered := some (offerBuf (u32 sg) msg uv.reader) }
        [.offer (offerBuf (u32 sg) msg uv.reader) msg.cap]
  | fresh (sg : ℕ) (b : Block) (hb : heap uv.allocs = some b) (hm : uv.msg = none) :
      Moved heap uv (.alloc sg)
        ⟨some (freshMsg b uv.allocs (u32 sg)), msgReaderInit, uv.allocs + 1,
          some (offerBuf (u32 sg) (freshMsg b uv.allocs (u32 sg)) msgReaderInit)⟩
        [.msgAlloc uv.allocs (u32 sg),
          .offer (offerBuf (u32 sg) (freshMsg b uv.allocs (u32 sg)) msgReaderInit) (u32 sg)]
  | waited (buf : UvBuf) (ho : uv.offered = some buf) :
      Moved heap uv (.read []) { uv with offered := none } []
  | advanced (bytes : List UInt8) (buf : UvBuf) (msg : ScMsg) (ho : uv.offered = some buf)
      (hlen : bytes.length ≤ buf.len) (hne : bytes ≠ []) (hm : uv.msg = some msg)
      (hfin : msgReaderFinished (fillBuf buf bytes msg)
        (parseRead (fillBuf buf bytes msg) uv.reader (u32 bytes.length)).1 = false) :
      Moved heap uv (.read bytes)
        ⟨some (fillBuf buf bytes msg),
          (parseRead (fillBuf buf bytes msg) uv.reader (u32 bytes.length)).1, uv.allocs, none⟩ []
  | delivered (bytes : List UInt8) (buf : UvBuf) (msg : ScMsg) (ho : uv.offered = some buf)
      (hlen : bytes.length ≤ buf.len) (hne : bytes ≠ []) (hm : uv.msg = some msg)
      (hfin : msgReaderFinished (fillBuf buf bytes msg)
        (parseRead (fillBuf buf bytes msg) uv.reader (u32 bytes.length)).1 = true) :
      Moved heap uv (.read bytes)
        ⟨none, (parseRead (fillBuf buf bytes msg) uv.reader (u32 bytes.length)).1, uv.allocs, none⟩
        [.onRecv (some (deliver (fillBuf buf bytes msg))) 0, .msgFree (some msg.id)]
  | stopped (nread : Int) (hneg : nread < 0) :
      Moved heap uv (.stop nread) { uv with msg := none, offered := none }
        [.onRecv none (readErrcode nread), .msgFree (uv.msg.map ScMsg.id)]

theorem fill_nil (buf : UvBuf) (msg : ScMsg) : fillBuf buf [] msg = msg := by
  have hs : ∀ (a : Area) (off : ℕ), a.store off [] = a := by
    intro a off
    funext i
    by_cases h : i < off
    · exact Area.store_before a [] h
    · exact Area.store_after a [] (by simpa using h)
  unfold fillBuf
  split <;> simp only [hs]

@[simp] theorem fillBuf_id (buf : UvBuf) (bytes : List UInt8) (msg : ScMsg) :
    (fillBuf buf bytes msg).id = msg.id := by
  unfold fillBuf
  split <;> rfl

@[simp] theorem fillBuf_cap (buf : UvBuf) (bytes : List UInt8) (msg : ScMsg) :
    (fillBuf buf bytes msg).cap = msg.cap := by
  unfold fillBuf
  split <;> rfl

theorem alloc_moved {heap : Heap} {uv v : Receiver} {sg : ℕ} {effects : List Effect}
    (h : recvStep heap uv (.alloc sg) = some (v, effects)) : Moved heap uv (.alloc sg) v effects := by
  cases hm : uv.msg with
  | some msg =>
    simp only [recvStep, allocWrap, hm, Option.some.injEq, Prod.mk.injEq] at h
    obtain ⟨rfl, rfl⟩ := h
    exact hm ▸ .offered sg msg hm
  | none =>
    cases hb : heap uv.allocs with
    | none => simp [recvStep, allocWrap, hm, scMsgAlloc, hb, scMsgInit] at h
    | some b =>
      simp only [recvStep, allocWrap, hm, scMsgAlloc, hb, Option.map_some, scMsgInit,
        Option.some.injEq, Prod.mk.injEq] at h
      obtain ⟨rfl, rfl⟩ := h
      exact .fresh sg b hb hm

theorem read_moved {heap : Heap} {uv v : Receiver} {bytes : List UInt8} {effects : List Effect}
    (h : recvStep heap uv (.read bytes) = some (v, effects)) :
    Moved heap uv (.read bytes) v effects := by
  cases ho : uv.offered with
  | none => simp [recvStep, ho] at h
  | some buf =>
    by_cases hlen : bytes.length ≤ buf.len
    · simp only [recvStep, ho, hlen, if_true] at h
      by_cases hne : bytes = []
      · subst hne
        have hmap : uv.msg.map (fillBuf buf []) = uv.msg := by
          cases uv.msg with
          | none => rfl
          | some msg => rw [Option.map_some, fill_nil]
        simp only [readWrap, List.length_nil, Nat.cast_zero, lt_self_iff_false, if_false, hmap,
          Option.some.injEq, Prod.mk.injEq] at h
        obtain ⟨rfl, rfl⟩ := h
        exact .waited buf ho
      · have hpos : 0 < bytes.length := List.length_pos_iff.mpr hne
        have hneg : ¬ (bytes.length : Int) < 0 := by omega
        have hgt : (bytes.length : Int) > 0 := by omega
        have herr : readErrcode (bytes.length : Int) = 0 := if_pos (.inl (by omega))
        cases hm : uv.msg with
        | none => simp [readWrap, hneg, hpos, hm] at h
        | some msg =>
          simp only [readWrap, hneg, hgt, if_true, if_false, hm, Option.map_some, herr,
            Int.toNat_natCast, fillBuf_id] at h
          cases hfin : msgReaderFinished (fillBuf buf bytes msg)
              (parseRead (fillBuf buf bytes msg) uv.reader (u32 bytes.length)).1 with
          | true =>
            simp only [hfin, if_true, Option.some.injEq, Prod.mk.injEq] at h
            obtain ⟨rfl, rfl⟩ := h
            exact .delivered bytes buf msg ho hlen hne hm hfin
          | false =>
            simp only [hfin, Bool.false_eq_true, if_false, Option.some.injEq, Prod.mk.injEq] at h
            obtain ⟨rfl, rfl⟩ := h
            exact .advanced bytes buf msg ho hlen hne hm hfin
    · simp [recvStep, ho, hlen] at h

theorem stop_moved {heap : Heap} {uv v : Receiver} {nread : Int} {effects : List Effect}
    (h : recvStep heap uv (.stop nread) = some (v, effects)) :
    Moved heap uv (.stop nread) v effects := by
  by_cases hneg : nread < 0
  · simp only [recvStep, readWrap, hneg, if_true, Option.some.injEq, Prod.mk.injEq] at h
    obtain ⟨rfl, rfl⟩ := h
    exact .stopped nread hneg
  · simp [recvStep, hneg] at h

theorem recvStep_moved {heap : Heap} {uv v : Receiver} {e : ReadEvent} {effects : List Effect}
    (h : recvStep heap uv e = some (v, effects)) : Moved heap uv e v effects := by
  cases e with
  | alloc sg => exact alloc_moved h
  | read bytes => exact read_moved h
  | stop nread => exact stop_moved h

def chunkEvents (suggestedSize : ℕ) (chunks : List (List UInt8)) : List ReadEvent :=
  chunks.flatMap fun c => [.alloc suggestedSize, .read c]

end ShortCircuit.Receive
