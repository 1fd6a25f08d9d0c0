import ShortCircuit.ReceiveRefinement

set_option autoImplicit false

/-!
# The reader invariant and the account of received bytes

The positions of the reader are those of a `Pending` frame in every reachable state,
so its unsigned subtractions are exact. `tally` counts the bytes that libuv reported
since the last error or end of stream and the bytes of the messages delivered since.
-/
namespace ShortCircuit.ReaderInvariant
open WordBytes Message Boundary OutputMachine FrameParser Receive ReceiveRefinement

/-- The positions are inside the message and the body starts after the header. -/
structure ReaderOk (msg : ScMsg) (reader : MsgReader) : Prop where
  head : reader.headPos ≤ 4
  body : reader.bodyPos ≤ scMsgGetSize msg
  order : 0 < reader.bodyPos → reader.headPos = 4

theorem Held.readerOk {msg : ScMsg} {reader : MsgReader} {p : Pending} (h : Held msg reader p) :
    ReaderOk msg reader := by
  refine ⟨by rw [h.headPos]; exact p.head_le, by rw [h.bodyPos, h.size]; exact body_le p, ?_⟩
  intro hpos
  rw [h.bodyPos] at hpos
  rw [h.headPos]
  exact p.head_full (List.length_pos_iff.mp hpos)

def NoWrap (msg : ScMsg) (reader : MsgReader) : Prop :=
  msgReaderAvailHeadSize reader + reader.headPos = 4 ∧
    msgReaderAvailBodySize msg reader + reader.bodyPos = scMsgGetSize msg

theorem ReaderOk.noWrap {msg : ScMsg} {reader : MsgReader} (h : ReaderOk msg reader) :
    NoWrap msg reader := by
  have hh := h.head
  have hb := h.body
  rw [NoWrap, availHead_of_le hh, availBody_of_le hb]
  omega

theorem parseRead_readerOk {msg : ScMsg} {reader : MsgReader} {p : Pending} {bytes : List UInt8}
    {k : ℕ} (h : Held msg reader p) (hk : bytes.length ≤ p.room) :
    ReaderOk (fillBuf (bufAt p k) bytes msg) reader ∧
      ReaderOk (fillBuf (bufAt p k) bytes msg)
        (parseRead (fillBuf (bufAt p k) bytes msg) reader bytes.length).1 := by
  by_cases hh : p.head.length < 4
  · have hle := head_room hh hk
    have hpos : reader.bodyPos = 0 := by rw [h.bodyPos, Pending.body_nil hh]; rfl
    rw [parse_head h hh hle]
    exact ⟨⟨by rw [h.headPos]; omega, by rw [hpos]; exact Nat.zero_le _, fun h0 => by omega⟩,
      ⟨hle, Nat.zero_le _, fun h0 => absurd h0 (Nat.lt_irrefl 0)⟩⟩
  · have h4 : p.head.length = 4 := by have := p.head_le; omega
    have hle := body_room h4 hk
    have hsize := fill_body_size k bytes h h4
    rw [parse_body h h4 hle]
    exact ⟨⟨by rw [h.headPos]; omega, by rw [h.bodyPos, hsize]; exact body_le p,
      fun _ => by rw [h.headPos, h4]⟩, ⟨le_refl 4, by rw [hsize]; exact hle, fun _ => rfl⟩⟩

theorem parseRead_total {msg : ScMsg} {reader : MsgReader} {p : Pending} {bytes : List UInt8}
    {k : ℕ} (h : Held msg reader p) (hk : bytes.length ≤ p.room) :
    (parseRead (fillBuf (bufAt p k) bytes msg) reader bytes.length).1.headPos +
        (parseRead (fillBuf (bufAt p k) bytes msg) reader bytes.length).1.bodyPos =
      reader.headPos + reader.bodyPos + bytes.length := by
  by_cases hh : p.head.length < 4
  · rw [parse_head h hh (head_room hh hk), h.headPos, h.bodyPos, Pending.body_nil hh]
    simp
  · have h4 : p.head.length = 4 := by have := p.head_le; omega
    rw [parse_body h h4 (body_room h4 hk), h.headPos, h.bodyPos, h4]
    simp only
    omega

structure Tally where
  received : ℕ
  delivered : ℕ

def heldCount (uv : Receiver) : ℕ :=
  match uv.msg with
  | none => 0
  | some _ => uv.reader.headPos + uv.reader.bodyPos

/-- Count one event that led to `v` with the given effects. The reader keeps the positions it had
when the message was passed to `on_recv`. -/
def Tally.count (t : Tally) (v : Receiver) (effects : List Effect) : ReadEvent → Tally
  | .alloc _ => t
  | .read bytes =>
    ⟨t.received + bytes.length,
      t.delivered + if onRecvs effects = [] then 0 else v.reader.headPos + v.reader.bodyPos⟩
  | .stop _ => ⟨0, 0⟩

/-- The account at the end of a run, from the last error or end of stream on. -/
def tally (heap : Heap) : Receiver → Tally → List ReadEvent → Tally
  | _, t, [] => t
  | uv, t, e :: es =>
    match recvStep heap uv e with
    | none => t
    | some (v, effects) => tally heap v (t.count v effects e) es

variable {blocks : ℕ → Block}

theorem Refines.offer {uv : Receiver} {p : Parser} (h : Refines uv p) {buf : UvBuf} {msg : ScMsg}
    {bytes : List UInt8} (ho : uv.offered = some buf) (hm : uv.msg = some msg)
    (hlen : bytes.length ≤ buf.len) :
    ∃ k, buf = bufAt p.pending k ∧ Held msg uv.reader p.pending ∧
      bytes.length ≤ p.pending.room ∧ u32 bytes.length = bytes.length := by
  have hoff := h.offered
  rw [ho] at hoff
  obtain ⟨k, hk, rfl⟩ := Option.map_eq_some_iff.mp hoff.symm
  rw [bufAt_len] at hlen
  have hroom := hlen.trans (h.room k hk).1
  exact ⟨k, rfl, h.held msg hm, hroom, u32_of_lt (Nat.lt_of_le_of_lt hroom (room_lt p.pending))⟩

theorem tally_step {uv v : Receiver} {e : ReadEvent} {effects : List Effect} {p : Parser}
    (h : Refines uv p) (hs : recvStep (reliable blocks) uv e = some (v, effects)) {t : Tally}
    (ht : t.received = t.delivered + heldCount uv) :
    (t.count v effects e).received = (t.count v effects e).delivered + heldCount v := by
  cases recvStep_moved hs with
  | offered sg msg hm => simpa [Tally.count, heldCount, hm] using ht
  | fresh sg b hb hm => simpa [Tally.count, heldCount, hm, msgReaderInit] using ht
  | waited buf ho => simpa [Tally.count, heldCount] using ht
  | advanced bytes buf msg ho hlen hne hm hfin =>
    obtain ⟨k, rfl, hheld, hroom, hcast⟩ := Refines.offer h ho hm hlen
    have htotal := parseRead_total (k := k) hheld hroom
    simp only [heldCount, hm] at ht
    simp only [Tally.count, onRecvs_nil, if_true, heldCount, hcast, htotal]
    omega
  | delivered bytes buf msg ho hlen hne hm hfin =>
    obtain ⟨k, rfl, hheld, hroom, hcast⟩ := Refines.offer h ho hm hlen
    have htotal := parseRead_total (k := k) hheld hroom
    simp only [heldCount, hm] at ht
    simp only [Tally.count, onRecvs, List.filterMap_cons, Effect.recv?, reduceCtorEq, if_false,
      heldCount, hcast, htotal]
    omega
  | stopped nread hneg => simp [Tally.count, heldCount]

theorem tally_run {uv v : Receiver} {es : List ReadEvent} {effects : List Effect} {p : Parser}
    {t : Tally} (h : Refines uv p)
    (hrun : run (recvStep (reliable blocks)) uv es = some (v, effects))
    (ht : t.received = t.delivered + heldCount uv) :
    (tally (reliable blocks) uv t es).received =
      (tally (reliable blocks) uv t es).delivered + heldCount v := by
  induction es generalizing uv effects p t with
  | nil =>
    simp only [run_nil, Option.some.injEq, Prod.mk.injEq] at hrun
    rw [← hrun.1]
    exact ht
  | cons e es ih =>
    obtain ⟨u, out, outs, hu, hr, rfl⟩ := (run_cons_iff _ _ _ _ _ _).mp hrun
    obtain ⟨q, hq⟩ := refines_step h hu
    simp only [tally, hu]
    exact ih hq hr (tally_step h hu ht)

/-- In every reachable state the reader is inside the message it fills and its subtractions are
exact; every parse call consumes all bytes that were read; and the bytes received since the last
error or end of stream are those of the messages delivered and of the message held. -/
theorem reader_invariant (blocks : ℕ → Block) (es : List ReadEvent) (v : Receiver)
    (effects : List Effect) (hrun : run (recvStep (reliable blocks)) .init es = some (v, effects)) :
    (∀ msg, v.msg = some msg → ReaderOk msg v.reader ∧ NoWrap msg v.reader) ∧
    (∀ msg buf bytes, v.msg = some msg → v.offered = some buf → bytes.length ≤ buf.len →
      let filled := fillBuf buf bytes msg
      let parsed := parseRead filled v.reader (u32 bytes.length)
      ReaderOk filled v.reader ∧ NoWrap filled v.reader ∧
        ReaderOk filled parsed.1 ∧ NoWrap filled parsed.1 ∧ parsed.2 = 0) ∧
    (tally (reliable blocks) .init ⟨0, 0⟩ es).received =
      (tally (reliable blocks) .init ⟨0, 0⟩ es).delivered + heldCount v := by
  obtain ⟨q, hq⟩ := refines_reachable refines_init hrun
  refine ⟨?_, ?_, tally_run refines_init hrun rfl⟩
  · intro msg hm
    have hok := Held.readerOk (hq.held msg hm)
    exact ⟨hok, hok.noWrap⟩
  · intro msg buf bytes hm ho hlen
    obtain ⟨k, rfl, hheld, hroom, hcast⟩ := Refines.offer hq ho hm hlen
    obtain ⟨hpre, hpost⟩ := parseRead_readerOk (k := k) hheld hroom
    simp only [hcast]
    exact ⟨hpre, hpre.noWrap, hpost, hpost.noWrap, parseRead_leftover hheld hroom⟩

theorem reader_invariant_partway :
    ∃ v effects, run (recvStep (reliable zeroBlocks)) .init
        [.alloc 8, .read [0, 0, 0, 2], .alloc 8, .read [9], .alloc 8] = some (v, effects) ∧
      (∀ msg, v.msg = some msg → ReaderOk msg v.reader ∧ NoWrap msg v.reader) ∧
      v.msg.isSome ∧ heldCount v = 5 := by
  have h := reader_invariant zeroBlocks [.alloc 8, .read [0, 0, 0, 2], .alloc 8, .read [9], .alloc 8]
    _ _ rfl
  exact ⟨_, _, rfl, h.1, rfl, h.2.2.symm⟩

end ShortCircuit.ReaderInvariant
