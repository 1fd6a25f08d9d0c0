import ShortCircuit.FrameParser
import ShortCircuit.Receive

set_option autoImplicit false

/-!
# The receive callbacks refine the chunk-fed frame parser

`Parser` is the abstract receiver: the bytes of the frame in progress and the length
of the last offer. `recvStep_agree` relates one callback to one step of it and
`recvRun_agree` a whole run; the invariants of the two reader positions are fields of
`Pending`, so they hold wherever the relation does.
-/
namespace ShortCircuit.ReceiveRefinement
open WordBytes Message Boundary OutputMachine FrameParser Receive

structure Parser where
  pending : Pending
  offered : Option ℕ

def Parser.init : Parser := ⟨.empty, none⟩

def message (m : List UInt8) : Option Delivery × Int := (some ⟨m.length, m⟩, 0)

def parserStep : Step Parser ReadEvent (Option Delivery × Int)
  | p, .alloc suggestedSize =>
    some ({ p with offered := some (min p.pending.room (u32 suggestedSize)) }, [])
  | p, .read bytes =>
    match p.offered with
    | none => none
    | some k =>
      if bytes.length ≤ k then
        some (⟨(p.pending.feed bytes).1, none⟩, (p.pending.feed bytes).2.map message)
      else none
  | _, .stop nread => if nread < 0 then some (.init, [(none, readErrcode nread)]) else none

/-- The message and the reader positions hold exactly the bytes of `p`. -/
structure Held (msg : ScMsg) (reader : MsgReader) (p : Pending) : Prop where
  head : msg.sizeBe.Holds p.head
  body : msg.data.load p.body.length = p.body
  headPos : reader.headPos = p.head.length
  bodyPos : reader.bodyPos = p.body.length

theorem body_le (p : Pending) : p.body.length ≤ leading p.head := by
  by_cases h : p.head = []
  · have hb := Pending.body_nil (p := p) (by rw [h]; decide)
    simp [hb]
  · exact Nat.le_of_lt (p.unfinished h)

theorem room_lt (p : Pending) : p.room < 2 ^ 32 := by
  have hl := leading_lt p.head_le
  unfold Pending.room
  split <;> omega

namespace Held

variable {msg : ScMsg} {reader : MsgReader} {p : Pending}

theorem size (h : Held msg reader p) : scMsgGetSize msg = leading p.head :=
  h.head.word_eq p.head_le

theorem availHead (h : Held msg reader p) : msgReaderAvailHeadSize reader = 4 - p.head.length := by
  rw [availHead_of_le (by rw [h.headPos]; exact p.head_le), h.headPos]

theorem availBody (h : Held msg reader p) :
    msgReaderAvailBodySize msg reader = leading p.head - p.body.length := by
  rw [availBody_of_le (by rw [h.bodyPos, h.size]; exact body_le p), h.size, h.bodyPos]

end Held

def bufAt (p : Pending) (k : ℕ) : UvBuf :=
  if p.head.length < 4 then ⟨.head, p.head.length, k⟩ else ⟨.body, p.body.length, k⟩

@[simp] theorem bufAt_len (p : Pending) (k : ℕ) : (bufAt p k).len = k := by
  unfold bufAt
  split <;> rfl

theorem offerBuf_eq {msg : ScMsg} {reader : MsgReader} {p : Pending} (h : Held msg reader p)
    (sz : ℕ) : offerBuf sz msg reader = bufAt p (min p.room sz) := by
  have hmin : ∀ a : ℕ, (if a < sz then a else sz) = min a sz := by
    intro a
    split <;> omega
  by_cases hh : p.head.length < 4
  · have hpos : 4 - p.head.length > 0 := by omega
    simp only [offerBuf, h.availHead, hpos, if_true, hmin, bufAt, hh, Pending.room_head hh, h.headPos]
  · have hz : ¬ 4 - p.head.length > 0 := by omega
    have h4 : p.head.length = 4 := by have := p.head_le; omega
    simp only [offerBuf, h.availHead, hz, if_false, hmin, bufAt, hh, Pending.room_body h4,
      h.availBody, h.bodyPos]

/-- The receiver holds the bytes of the parser's frame and made the same offer. -/
structure Refines (uv : Receiver) (p : Parser) : Prop where
  idle : uv.msg = none → p.pending = .empty
  held : ∀ msg, uv.msg = some msg → Held msg uv.reader p.pending
  offered : uv.offered = p.offered.map (bufAt p.pending)
  room : ∀ k, p.offered = some k → k ≤ p.pending.room ∧ uv.msg ≠ none

theorem refines_init : Refines .init .init :=
  ⟨fun _ => rfl, fun _ h => (nomatch h), rfl, fun _ h => (nomatch h)⟩

theorem refines_cleared (reader : MsgReader) (allocs : ℕ) :
    Refines ⟨none, reader, allocs, none⟩ ⟨.empty, none⟩ :=
  ⟨fun _ => rfl, fun _ h => (nomatch h), rfl, fun _ h => (nomatch h)⟩

theorem refines_held {msg : ScMsg} {reader : MsgReader} {p : Pending} (h : Held msg reader p)
    (allocs : ℕ) : Refines ⟨some msg, reader, allocs, none⟩ ⟨p, none⟩ := by
  refine ⟨fun hn => (nomatch hn), ?_, rfl, fun _ hn => (nomatch hn)⟩
  intro msg' hmsg
  obtain rfl := Option.some.inj hmsg
  exact h

variable (blocks : ℕ → Block)

theorem held_fresh (b : Block) (n size : ℕ) : Held (freshMsg b n size) msgReaderInit .empty := by
  refine ⟨?_, rfl, rfl, rfl⟩
  intro i hi
  have hin : (freshMsg b n size).sizeBe i = [(0 : UInt8), 0, 0, 0].getD (i - 0) 0 :=
    Area.store_inside _ _ (Nat.zero_le i) (by simpa using hi)
  rw [hin]
  interval_cases i <;> rfl

theorem alloc_held (heap : Heap) (sg : ℕ) {uv : Receiver} {msg : ScMsg} (h : uv.msg = some msg) :
    recvStep heap uv (.alloc sg) =
      some ({ uv with offered := some (offerBuf (u32 sg) msg uv.reader) },
        [.offer (offerBuf (u32 sg) msg uv.reader) msg.cap]) := by
  simp only [recvStep, allocWrap, h]

theorem alloc_obtained {heap : Heap} (sg : ℕ) {uv : Receiver} {b : Block} (h : uv.msg = none)
    (hb : heap uv.allocs = some b) :
    recvStep heap uv (.alloc sg) =
      some (⟨some (freshMsg b uv.allocs (u32 sg)), msgReaderInit, uv.allocs + 1,
          some (offerBuf (u32 sg) (freshMsg b uv.allocs (u32 sg)) msgReaderInit)⟩,
        [.msgAlloc uv.allocs (u32 sg),
          .offer (offerBuf (u32 sg) (freshMsg b uv.allocs (u32 sg)) msgReaderInit) (u32 sg)]) := by
  simp only [recvStep, allocWrap, h, scMsgAlloc, hb]
  rfl

theorem alloc_agree {uv : Receiver} {p : Parser} (h : Refines uv p) (sg : ℕ) :
    Agree Refines onRecvs id (recvStep (reliable blocks) uv (.alloc sg)) (parserStep p (.alloc sg)) := by
  have hroom : ∀ k, some (min p.pending.room (u32 sg)) = some k → k ≤ p.pending.room := by
    intro k hk
    obtain rfl := Option.some.inj hk
    exact Nat.min_le_left _ _
  cases hm : uv.msg with
  | none =>
    rw [alloc_obtained sg hm (b := blocks uv.allocs) rfl]
    have hf := held_fresh (blocks uv.allocs) uv.allocs (u32 sg)
    refine .some ⟨⟨fun h => (nomatch h), ?_, ?_, fun k hk => ⟨hroom k hk, by simp⟩⟩, rfl⟩
    · intro msg hmsg
      obtain rfl := Option.some.inj hmsg
      rw [h.idle hm]
      exact hf
    · rw [h.idle hm, offerBuf_eq hf]
      rfl
  | some msg =>
    rw [alloc_held _ sg hm]
    have hh := h.held msg hm
    refine .some ⟨⟨fun hn => by simp [hm] at hn, ?_, ?_, fun k hk => ⟨hroom k hk, by simp [hm]⟩⟩, rfl⟩
    · intro msg' hmsg
      exact h.held msg' hmsg
    · rw [offerBuf_eq hh]
      rfl

section Read

variable {msg : ScMsg} {reader : MsgReader} {p : Pending} {bytes : List UInt8} {k : ℕ}

theorem fill_head (hh : p.head.length < 4) :
    fillBuf (bufAt p k) bytes msg = { msg with sizeBe := msg.sizeBe.store p.head.length bytes } := by
  simp only [fillBuf, bufAt, hh, if_true]

theorem fill_body (h4 : p.head.length = 4) :
    fillBuf (bufAt p k) bytes msg = { msg with data := msg.data.store p.body.length bytes } := by
  have hh : ¬ p.head.length < 4 := by omega
  simp only [fillBuf, bufAt, hh, if_false]

theorem fill_body_size (k : ℕ) (bytes : List UInt8) (h : Held msg reader p) (h4 : p.head.length = 4) :
    scMsgGetSize (fillBuf (bufAt p k) bytes msg) = leading p.head := by
  rw [fill_body h4]
  exact h.size

theorem parse_head (h : Held msg reader p) (hh : p.head.length < 4)
    (hle : p.head.length + bytes.length ≤ 4) :
    parseRead (fillBuf (bufAt p k) bytes msg) reader bytes.length =
      (⟨p.head.length + bytes.length, 0⟩, 0) := by
  have hpos : 4 - p.head.length > 0 := by omega
  rw [parseRead, h.availHead, if_pos hpos, parseHead_of_le (by rw [h.headPos]; exact hle),
    h.headPos, h.bodyPos, Pending.body_nil hh]
  rfl

theorem parse_body (h : Held msg reader p) (h4 : p.head.length = 4)
    (hle : p.body.length + bytes.length ≤ leading p.head) :
    parseRead (fillBuf (bufAt p k) bytes msg) reader bytes.length =
      (⟨4, p.body.length + bytes.length⟩, 0) := by
  have hz : ¬ 4 - p.head.length > 0 := by omega
  have hsize := fill_body_size k bytes h h4
  rw [parseRead, h.availHead, if_neg hz, parseBody_of_le (by rw [h.bodyPos, hsize]; exact hle),
    h.headPos, h.bodyPos, h4]

theorem head_room (hh : p.head.length < 4) (hk : bytes.length ≤ p.room) :
    p.head.length + bytes.length ≤ 4 := by
  rw [Pending.room_head hh] at hk
  omega

theorem body_room (h4 : p.head.length = 4) (hk : bytes.length ≤ p.room) :
    p.body.length + bytes.length ≤ leading p.head := by
  have := body_le p
  rw [Pending.room_body h4] at hk
  omega

theorem parseRead_leftover (h : Held msg reader p) (hk : bytes.length ≤ p.room) :
    (parseRead (fillBuf (bufAt p k) bytes msg) reader bytes.length).2 = 0 := by
  by_cases hh : p.head.length < 4
  · rw [parse_head h hh (head_room hh hk)]
  · have h4 : p.head.length = 4 := by have := p.head_le; omega
    rw [parse_body h h4 (body_room h4 hk)]

end Read

theorem readWrap_finished {reader reader' : MsgReader} {allocs n left : ℕ} {msg : ScMsg}
    (hn : 0 < n) (hlt : n < 2 ^ 32) (hparse : parseRead msg reader n = (reader', left))
    (hfin : msgReaderFinished msg reader' = true) :
    readWrap ⟨some msg, reader, allocs, none⟩ n =
      .ok (⟨none, reader', allocs, none⟩,
        [.onRecv (some (deliver msg)) 0, .msgFree (some msg.id)]) := by
  have hneg : ¬ (n : Int) < 0 := by omega
  have hpos : (n : Int) > 0 := by omega
  have herr : readErrcode (n : Int) = 0 := if_pos (.inl (by omega))
  simp only [readWrap, hneg, hpos, if_true, if_false, Int.toNat_natCast, u32_of_lt hlt, herr,
    hparse, hfin]

theorem readWrap_unfinished {reader reader' : MsgReader} {allocs n left : ℕ} {msg : ScMsg}
    (hn : 0 < n) (hlt : n < 2 ^ 32) (hparse : parseRead msg reader n = (reader', left))
    (hfin : msgReaderFinished msg reader' = false) :
    readWrap ⟨some msg, reader, allocs, none⟩ n = .ok (⟨some msg, reader', allocs, none⟩, []) := by
  have hneg : ¬ (n : Int) < 0 := by omega
  have hpos : (n : Int) > 0 := by omega
  simp only [readWrap, hneg, hpos, if_true, if_false, Int.toNat_natCast, u32_of_lt hlt, hparse,
    hfin, Bool.false_eq_true]

theorem fill_head_size {msg : ScMsg} {reader : MsgReader} {p : Pending} {bytes : List UInt8}
    {k : ℕ} (h : Held msg reader p) (hh : p.head.length < 4)
    (hle : p.head.length + bytes.length ≤ 4) :
    Area.Holds (fillBuf (bufAt p k) bytes msg).sizeBe (p.head ++ bytes) ∧
      scMsgGetSize (fillBuf (bufAt p k) bytes msg) = leading (p.head ++ bytes) := by
  have hholds : Area.Holds (fillBuf (bufAt p k) bytes msg).sizeBe (p.head ++ bytes) := by
    rw [fill_head hh]
    exact h.head.store bytes
  exact ⟨hholds, hholds.word_eq (by rw [List.length_append]; exact hle)⟩

theorem fill_body_load {msg : ScMsg} {reader : MsgReader} {p : Pending} (k : ℕ)
    (bytes : List UInt8) (h : Held msg reader p) (h4 : p.head.length = 4) :
    (fillBuf (bufAt p k) bytes msg).data.load (p.body.length + bytes.length) = p.body ++ bytes := by
  rw [fill_body h4]
  exact Area.load_store msg.data h.body bytes

/-- `read_wrap` on the filled message does what the parser does with the chunk. -/
theorem readWrap_fed {reader : MsgReader} {msg : ScMsg} {p : Pending} {bytes : List UInt8}
    {k : ℕ} (allocs : ℕ) (h : Held msg reader p) (hk : bytes.length ≤ p.room) :
    ∃ v effects,
      readWrap ⟨some (fillBuf (bufAt p k) bytes msg), reader, allocs, none⟩ bytes.length =
        .ok (v, effects) ∧
      Refines v ⟨(p.feed bytes).1, none⟩ ∧ onRecvs effects = (p.feed bytes).2.map message := by
  by_cases hne : bytes = []
  · subst hne
    rw [fill_nil, Pending.feed_nil]
    exact ⟨_, [], rfl, refines_held h allocs, rfl⟩
  · have hlen : 0 < bytes.length := List.length_pos_iff.mpr hne
    have hlt : bytes.length < 2 ^ 32 := Nat.lt_of_le_of_lt hk (room_lt p)
    have ht := Pending.feed_taken p bytes hne hk
    generalize (p.feed bytes).1 = q at ht ⊢
    generalize (p.feed bytes).2 = out at ht ⊢
    cases ht with
    | early hh hz =>
      obtain ⟨_, hsize⟩ := fill_head_size (k := k) h hh (head_room hh hk)
      refine ⟨_, _, readWrap_finished hlen hlt (parse_head h hh (head_room hh hk)) ?_,
        refines_cleared _ _, ?_⟩
      · rw [finished_iff (Nat.zero_le _), hsize, hz]
      · simp [onRecvs, Effect.recv?, deliver, hsize, hz, message, Area.load]
    | header hh hz _ hq hb =>
      obtain ⟨hholds, hsize⟩ := fill_head_size (k := k) h hh (head_room hh hk)
      refine ⟨_, _, readWrap_unfinished hlen hlt (parse_head h hh (head_room hh hk)) ?_,
        refines_held ⟨?_, ?_, ?_, ?_⟩ allocs, rfl⟩
      · rw [Bool.eq_false_iff, ne_eq, finished_iff (Nat.zero_le _), hsize]
        exact fun h0 => hz h0.symm
      · rw [hq]
        exact hholds
      · rw [hb]
        rfl
      · rw [hq, List.length_append]
      · rw [hb]
        rfl
    | done h4 hd =>
      have hsize := fill_body_size k bytes h h4
      have hload := fill_body_load k bytes h h4
      refine ⟨_, _, readWrap_finished hlen hlt (parse_body h h4 (body_room h4 hk)) ?_,
        refines_cleared _ _, ?_⟩
      · rw [finished_iff (by rw [hsize, hd]), hsize, hd]
      · rw [hd] at hload
        simp [onRecvs, Effect.recv?, deliver, hsize, message, hload, hd]
    | partway h4 hd _ hq hb =>
      have hsize := fill_body_size k bytes h h4
      refine ⟨_, _, readWrap_unfinished hlen hlt (parse_body h h4 (body_room h4 hk)) ?_,
        refines_held ⟨?_, ?_, ?_, ?_⟩ allocs, rfl⟩
      · rw [Bool.eq_false_iff, ne_eq, finished_iff (by rw [hsize]; exact Nat.le_of_lt hd), hsize]
        exact Nat.ne_of_lt hd
      · rw [hq, fill_body h4]
        exact h.head
      · rw [hb, List.length_append]
        exact fill_body_load k bytes h h4
      · rw [hq]
        exact h4.symm
      · rw [hb, List.length_append]

theorem read_agree {uv : Receiver} {p : Parser} (h : Refines uv p) (bytes : List UInt8) :
    Agree Refines onRecvs id (recvStep (reliable blocks) uv (.read bytes))
      (parserStep p (.read bytes)) := by
  cases hk : p.offered with
  | none =>
    have ho : uv.offered = none := by rw [h.offered, hk]; rfl
    simp only [recvStep, parserStep, ho, hk]
    exact .none
  | some k =>
    have ho : uv.offered = some (bufAt p.pending k) := by rw [h.offered, hk]; rfl
    obtain ⟨hroom, hheld⟩ := h.room k hk
    obtain ⟨msg, hm⟩ := Option.ne_none_iff_exists'.mp hheld
    by_cases hle : bytes.length ≤ k
    · obtain ⟨v, effects, hread, href, hrecv⟩ :=
        readWrap_fed (k := k) uv.allocs (h.held msg hm) (hle.trans hroom)
      simp only [recvStep, parserStep, ho, hk, bufAt_len, hle, if_true, hm, Option.map_some, hread]
      exact .some ⟨href, hrecv⟩
    · simp only [recvStep, parserStep, ho, hk, bufAt_len, hle, if_false]
      exact .none

theorem stop_agree {uv : Receiver} {p : Parser} (nread : Int) :
    Agree Refines onRecvs id (recvStep (reliable blocks) uv (.stop nread))
      (parserStep p (.stop nread)) := by
  by_cases h : nread < 0
  · simp only [recvStep, parserStep, h, if_true, readWrap]
    exact .some ⟨refines_cleared _ _, rfl⟩
  · simp only [recvStep, parserStep, h, if_false]
    exact .none

theorem recvStep_agree (uv : Receiver) (p : Parser) (e : ReadEvent) (h : Refines uv p) :
    Agree Refines onRecvs id (recvStep (reliable blocks) uv e) (parserStep p e) := by
  cases e with
  | alloc sg => exact alloc_agree blocks h sg
  | read bytes => exact read_agree blocks h bytes
  | stop nread => exact stop_agree blocks nread

/-- Every run of the callbacks is a run of the parser, with the same `on_recv` calls. -/
theorem recvRun_agree {uv : Receiver} {p : Parser} (h : Refines uv p) (es : List ReadEvent) :
    Agree Refines onRecvs id (run (recvStep (reliable blocks)) uv es) (run parserStep p es) :=
  run_simulation Refines onRecvs id onRecvs_append (fun _ _ => rfl) rfl (recvStep_agree blocks) es h

variable {blocks}

theorem refines_step {uv v : Receiver} {e : ReadEvent} {effects : List Effect} {p : Parser}
    (h : Refines uv p) (hs : recvStep (reliable blocks) uv e = some (v, effects)) :
    ∃ q, Refines v q := by
  have hag := recvStep_agree blocks uv p e h
  rw [hs] at hag
  obtain ⟨q, _, _, hq, _⟩ := agree_some hag
  exact ⟨q, hq⟩

theorem refines_reachable {uv v : Receiver} {es : List ReadEvent} {effects : List Effect}
    {p : Parser} (h : Refines uv p)
    (hrun : run (recvStep (reliable blocks)) uv es = some (v, effects)) : ∃ q, Refines v q :=
  run_invariant (fun uv => ∃ p, Refines uv p) (fun _ _ _ _ ⟨_, hp⟩ hs => refines_step hp hs)
    ⟨p, h⟩ hrun

/-- A hook that answers as `heap` does where that one succeeds. -/
def backed (heap : Heap) : ℕ → Block := fun n => (heap n).getD (zeroBlocks n)

theorem recvStep_backed {heap : Heap} (uv : Receiver) (e : ReadEvent) (r : Receiver × List Effect)
    (h : recvStep heap uv e = some r) : recvStep (reliable (backed heap)) uv e = some r := by
  cases e with
  | alloc sg =>
    cases hm : uv.msg with
    | some msg => rwa [alloc_held _ sg hm] at h ⊢
    | none =>
      cases hb : heap uv.allocs with
      | none => simp [recvStep, allocWrap, hm, scMsgAlloc, hb, scMsgInit] at h
      | some b =>
        have hsame : reliable (backed heap) uv.allocs = some b := by
          simp only [reliable, backed, hb, Option.getD_some]
        rw [alloc_obtained sg hm hb] at h
        rwa [alloc_obtained sg hm hsame]
  | read bytes => exact h
  | stop nread => exact h

theorem recvRun_backed {heap : Heap} {uv : Receiver} {es : List ReadEvent}
    {r : Receiver × List Effect} (h : run (recvStep heap) uv es = some r) :
    run (recvStep (reliable (backed heap))) uv es = some r :=
  run_mono recvStep_backed h

theorem refines_of_run {heap : Heap} {es : List ReadEvent} {v : Receiver} {effects : List Effect}
    (h : run (recvStep heap) .init es = some (v, effects)) : ∃ p, Refines v p :=
  refines_reachable refines_init (recvRun_backed h)

/-- What libuv may report next: bytes that fit the buffer it got, or a negative number. -/
def Permitted (uv : Receiver) : ReadEvent → Prop
  | .alloc _ => True
  | .read bytes => ∃ buf, uv.offered = some buf ∧ bytes.length ≤ buf.len
  | .stop nread => nread < 0

theorem parser_returns_iff {uv : Receiver} {p : Parser} (h : Refines uv p) (e : ReadEvent) :
    parserStep p e ≠ none ↔ Permitted uv e := by
  cases e with
  | alloc sg => simp [parserStep, Permitted]
  | stop nread => by_cases hneg : nread < 0 <;> simp [parserStep, Permitted, hneg]
  | read bytes =>
    cases hk : p.offered with
    | none =>
      have ho : uv.offered = none := by rw [h.offered, hk]; rfl
      simp [parserStep, Permitted, hk, ho]
    | some k =>
      have ho : uv.offered = some (bufAt p.pending k) := by rw [h.offered, hk]; rfl
      by_cases hle : bytes.length ≤ k <;> simp [parserStep, Permitted, hk, ho, hle]

/-- In every reachable state the read callbacks return on whatever libuv may report: no hook that
succeeds lets them follow a null pointer. -/
theorem callback_returns_iff {es : List ReadEvent} {v : Receiver} {effects : List Effect}
    (hrun : run (recvStep (reliable blocks)) .init es = some (v, effects)) (e : ReadEvent) :
    recvStep (reliable blocks) v e ≠ none ↔ Permitted v e := by
  obtain ⟨p, hp⟩ := refines_reachable refines_init hrun
  rw [← parser_returns_iff hp]
  have hag := recvStep_agree blocks v p e hp
  generalize recvStep (reliable blocks) v e = x at hag ⊢
  generalize parserStep p e = y at hag ⊢
  cases hag <;> simp

end ShortCircuit.ReceiveRefinement
