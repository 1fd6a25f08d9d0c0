import ShortCircuit.ByteAccounting
import ShortCircuit.FramingRoundTrip
import ShortCircuit.TaggedTraces

set_option autoImplicit false

/-!
# Two connected sockets

A link is two sockets and the bytes on their way to each of them. What one end writes is
appended to the bytes on the way to the other, which reads them in order. The end of a
stream is reported after all bytes, when the other end has closed; after a failed write
or a close nothing more is written. Both ends move in any order.
-/
namespace ShortCircuit.Transport
open WordBytes Message Boundary OutputMachine TaggedTraces FrameParser FrameStream
open Receive ReceiveRefinement ReceiveBounds ByteAccounting Backend Socket SocketRuns FramingRoundTrip

inductive Side where
  | left
  | right
  deriving DecidableEq, Repr

def Side.other : Side → Side
  | .left => .right
  | .right => .left

@[simp] theorem Side.other_other (d : Side) : d.other.other = d := by cases d <;> rfl

@[simp] theorem Side.other_ne (d : Side) : d.other ≠ d := by cases d <;> decide

@[simp] theorem Side.ne_other (d : Side) : d ≠ d.other := by cases d <;> decide

/-- `ended` tells whether the end of the stream or an error was reported at a side, `failed`
whether a write of that side failed. -/
structure Link where
  ends : Side → ScSocket
  incoming : Side → List UInt8
  ended : Side → Bool
  failed : Side → Bool

def Link.fresh (left right : ScSocket) : Link :=
  { ends := fun d => match d with
      | .left => left
      | .right => right
    incoming := fun _ => []
    ended := fun _ => false
    failed := fun _ => false }

def Link.setEnd (link : Link) (side : Side) (s : ScSocket) : Link :=
  { link with ends := Function.update link.ends side s }

@[simp] theorem setEnd_incoming (link : Link) (side : Side) (s : ScSocket) :
    (link.setEnd side s).incoming = link.incoming := rfl

@[simp] theorem setEnd_ended (link : Link) (side : Side) (s : ScSocket) :
    (link.setEnd side s).ended = link.ended := rfl

@[simp] theorem setEnd_failed (link : Link) (side : Side) (s : ScSocket) :
    (link.setEnd side s).failed = link.failed := rfl

@[simp] theorem setEnd_self (link : Link) (side : Side) (s : ScSocket) :
    (link.setEnd side s).ends side = s := Function.update_self _ _ _

/-- What the transport does when `side` makes the move `e`, or `none` if it does not let it. -/
def carry (link : Link) (side : Side) : Event → Option Link
  | .connect _ _ | .bind _ _ | .accept _ _ => none
  | .recv (.alloc _) => if link.ended side then none else some link
  | .recv (.read bytes) =>
    if !link.ended side && (link.incoming side).take bytes.length == bytes then
      some { link with
        incoming :=
          Function.update link.incoming side ((link.incoming side).drop bytes.length) }
    else none
  | .recv (.stop nread) =>
    let drained := (link.incoming side).isEmpty &&
      (link.ends side.other).backend.stream.phase != .active
    if !link.ended side && (nread != uvEof || drained) then
      some { link with ended := Function.update link.ended side true }
    else none
  | .flushed n =>
    let stream := (link.ends side).backend.stream
    if n = 0 ∨ stream.phase = .active ∧ link.failed side = false then
      some { link with
        incoming := Function.update link.incoming side.other
          (link.incoming side.other ++ (stream.writing.getD []).take n) }
    else none
  | .sent errcode =>
    some { link with failed := Function.update link.failed side (link.failed side || errcode != 0) }
  | _ => some link

def linkStep (heaps : Side → Heap) : Step Link (Side × Event) (Side × Effect)
  | link, (side, e) =>
    match carry link side e, step (heaps side) (link.ends side) e with
    | some next, some (s, effects) =>
      some (next.setEnd side s, effects.map (Prod.mk side))
    | _, _ => none

theorem linkStep_cases {heaps : Side → Heap} {link link' : Link} {side : Side} {e : Event}
    {out : List (Side × Effect)} (h : linkStep heaps link (side, e) = some (link', out)) :
    ∃ next s effects, carry link side e = some next ∧
      step (heaps side) (link.ends side) e = some (s, effects) ∧
      link' = next.setEnd side s ∧
      out = effects.map (Prod.mk side) := by
  simp only [linkStep] at h
  split at h
  · rename_i next s effects hc hs
    obtain ⟨rfl, rfl⟩ := Prod.mk.inj (Option.some.inj h)
    exact ⟨next, s, effects, hc, hs, rfl, rfl⟩
  · cases h

/-- The message of a send that returned zero. -/
def sentMsg : Event → Option ScMsg
  | .send msg result => if result = 0 then some msg else none
  | _ => none

def sentBodies (d : Side) (es : List (Side × Event)) : List (List UInt8) :=
  ((part d es).filterMap sentMsg).map body

def received (d : Side) (out : List (Side × Effect)) : List (Option Delivery × Int) :=
  onRecvs (part d out)

/-- A read at the start of a message that brings one to three zero bytes and nothing else. -/
def ShortRead (uv : Receiver) (bytes : List UInt8) : Prop :=
  uv.reader.headPos = 0 ∧ bytes ≠ [] ∧ bytes.length < 4 ∧ ∀ x ∈ bytes, x = 0

/-- What keeps the direction from `d` to the other side sound: a send waits for the one before it
and fits the buffer of the receiver, and no read there is short. -/
def SoundUse (S : ℕ) (d : Side) (link : Link) : Side × Event → Prop
  | (side, .send msg _) =>
    side = d → (link.ends d).backend.stream.writing = none ∧ scMsgGetSize msg ≤ u32 S
  | (side, .recv (.alloc sg)) => side = d.other → sg = S
  | (side, .recv (.read bytes)) =>
    side = d.other → ¬ ShortRead (link.ends d.other).backend.toReceiver bytes
  | _ => True

/-- The direction from `d`: `ms` were delivered, `p` is in progress at the receiver and `rest` was
accepted and not yet written. -/
structure Flow (S : ℕ) (d : Side) (link : Link) (es : List (Side × Event))
    (out : List (Side × Effect)) (p : Pending) (ms : List (List UInt8)) (rest : List UInt8)
    (tail : List (Option Delivery × Int)) : Prop where
  calls : received d.other out = ms.map message ++ tail
  ending : tail = [] ∨ link.ended d.other = true ∧ ∃ errcode, tail = [(none, errcode)]
  bytes : wire ms ++ (pendingBytes p ++ (link.incoming d.other ++ rest)) = wire (sentBodies d es)
  unwritten : link.failed d = false → rest = (link.ends d).backend.stream.writing.getD []
  holds : link.ended d.other = false → ∃ o, Refines (link.ends d.other).backend.toReceiver ⟨p, o⟩
  sized : Sized S (link.ends d.other).backend.toReceiver
  small : ∀ m ∈ ms, m.length < 2 ^ 32
  fits : ∀ m ∈ sentBodies d es, m.length ≤ u32 S
  inside : OffersInside (part d.other out)

def Flows (S : ℕ) (d : Side) (link : Link) (es : List (Side × Event)) (out : List (Side × Effect)) :
    Prop :=
  ∃ p ms rest tail, Flow S d link es out p ms rest tail

/-- A receiver that holds no message and has offered no buffer. -/
def Idle (uv : Receiver) : Prop := uv.msg = none ∧ uv.offered = none

theorem refines_idle {uv : Receiver} (h : Idle uv) : Refines uv .init := by
  refine ⟨fun _ => rfl, ?_, h.2, fun _ hk => (nomatch hk)⟩
  intro msg hm
  rw [h.1] at hm
  cases hm

theorem sized_idle {uv : Receiver} (S : ℕ) (h : Idle uv) : Sized S uv := by
  refine ⟨⟨_, refines_idle h⟩, ?_⟩
  intro msg hm
  rw [h.1] at hm
  cases hm

theorem flows_fresh (S : ℕ) (d : Side) (left right : ScSocket)
    (hsend : ((Link.fresh left right).ends d).backend.stream.writing = none)
    (hidle : Idle ((Link.fresh left right).ends d.other).backend.toReceiver) :
    Flows S d (.fresh left right) [] [] := by
  refine ⟨.empty, [], [], [], ⟨rfl, .inl rfl, rfl, ?_, fun _ => ⟨none, refines_idle hidle⟩,
    sized_idle S hidle, by simp, by simp [sentBodies], by simp [OffersInside]⟩⟩
  intro _
  rw [hsend]
  rfl

theorem sentBodies_append (d : Side) (es fs : List (Side × Event)) :
    sentBodies d (es ++ fs) = sentBodies d es ++ sentBodies d fs := by
  simp [sentBodies]

theorem sentBodies_none {d side : Side} {e : Event} (h : side = d → sentMsg e = none) :
    sentBodies d [(side, e)] = [] := by
  by_cases hd : side = d
  · subst hd
    simp [sentBodies, h rfl]
  · simp [sentBodies, part_cons_ne hd]

/-- What a move of one side leaves alone. -/
structure Kept (link next : Link) (side : Side) (e : Event) : Prop where
  ends : next.ends = link.ends
  ended : next.ended side.other = link.ended side.other
  failed : next.failed side.other = link.failed side.other
  outgoing : (∀ n, e ≠ .flushed n) → next.incoming side.other = link.incoming side.other
  standing : (∀ errcode, e ≠ .sent errcode) → next.failed side = link.failed side
  unread : (∀ r, e ≠ .recv r) →
    next.incoming side = link.incoming side ∧ next.ended side = link.ended side

theorem kept_refl (link : Link) (side : Side) (e : Event) : Kept link link side e :=
  ⟨rfl, rfl, rfl, fun _ => rfl, fun _ => rfl, fun _ => ⟨rfl, rfl⟩⟩

theorem carry_kept {link next : Link} {side : Side} {e : Event}
    (h : carry link side e = some next) : Kept link next side e := by
  cases e with
  | connect uri env => cases h
  | bind uri env => cases h
  | accept srvProto ans => cases h
  | recv r =>
    cases r with
    | alloc sg =>
      simp only [carry, Option.ite_none_left_eq_some, Option.some.injEq] at h
      obtain ⟨_, rfl⟩ := h
      exact kept_refl _ _ _
    | read bytes =>
      simp only [carry, Option.ite_none_right_eq_some, Option.some.injEq] at h
      obtain ⟨_, rfl⟩ := h
      exact ⟨rfl, rfl, rfl, fun _ => by simp, fun _ => rfl, fun hr => absurd rfl (hr _)⟩
    | stop nread =>
      simp only [carry, Option.ite_none_right_eq_some, Option.some.injEq] at h
      obtain ⟨_, rfl⟩ := h
      exact ⟨rfl, by simp, rfl, fun _ => rfl, fun _ => rfl, fun hr => absurd rfl (hr _)⟩
  | flushed n =>
    simp only [carry, Option.ite_none_right_eq_some, Option.some.injEq] at h
    obtain ⟨_, rfl⟩ := h
    exact ⟨rfl, rfl, rfl, fun hf => absurd rfl (hf n), fun _ => rfl, fun _ => ⟨by simp, rfl⟩⟩
  | sent errcode =>
    obtain rfl := Option.some.inj h
    exact ⟨rfl, rfl, by simp, fun _ => rfl, fun hs => absurd rfl (hs errcode), fun _ => ⟨rfl, rfl⟩⟩
  | _ =>
    obtain rfl := Option.some.inj h
    exact kept_refl _ _ _

section Reads

variable {S : ℕ} {heap : Heap} {uv v : Receiver} {p : Pending} {o : Option ℕ}
  {effects : List Effect}

theorem shortRead_of_zeros {k : ℕ} {bytes : List UInt8} (h : Refines uv ⟨p, some k⟩)
    (hz : ShortZeros p bytes) : ShortRead uv bytes := by
  obtain ⟨hhead, hne, hlen, hzero⟩ := hz
  obtain ⟨msg, hm⟩ := Option.ne_none_iff_exists'.mp (h.room k rfl).2
  have hpos := (h.held msg hm).headPos
  rw [hhead] at hpos
  exact ⟨hpos, hne, hlen, hzero⟩

/-- A read that is not short brings whole messages and a part of the next one. -/
theorem read_whole {bytes : List UInt8} (href : Refines uv ⟨p, o⟩) (hsized : Sized S uv)
    (hshort : ¬ ShortRead uv bytes) (hv : recvStep heap uv (.read bytes) = some (v, effects)) :
    ∃ q ms, onRecvs effects = ms.map message ∧ pendingBytes p ++ bytes = wire ms ++ pendingBytes q ∧
      (∀ m ∈ ms, m.length < 2 ^ 32) ∧ Refines v ⟨q, none⟩ ∧ Sized S v ∧ OffersInside effects := by
  have hback := recvStep_backed _ _ _ hv
  have hag := read_agree (backed heap) href bytes
  rw [hback] at hag
  obtain ⟨q, out, hq, hnext, hout⟩ := agree_some hag
  obtain ⟨k, rfl, hle, rfl, rfl⟩ := parserStep_read hq
  have hroom : bytes.length ≤ p.room := hle.trans (href.room k rfl).1
  obtain ⟨pieces, _, hbytes, hwhole⟩ := feed_pieces p bytes hroom
  obtain rfl := hwhole fun hz => hshort (shortRead_of_zeros href hz)
  have hread : ∀ sg, ReadEvent.read bytes = .alloc sg → sg = S := by
    intro sg hsg
    cases hsg
  refine ⟨_, _, hout, ?_, feed_small p bytes hroom, hnext, sized_step hread hsized hback, ?_⟩
  · rw [hbytes, wire, List.flatMap]
  · intro buf cap hx
    exact (inside_step hread hsized hback).mpr (allocFits_read _ bytes) _ hx buf cap rfl

/-- The buffer for a message that fits lies inside it. -/
theorem alloc_aligned {rest : List UInt8} {more : List (List UInt8)} (href : Refines uv ⟨p, o⟩)
    (hsized : Sized S uv) (hal : Aligned p rest more) (hcap : ∀ m ∈ more, m.length ≤ u32 S)
    (hv : recvStep heap uv (.alloc S) = some (v, effects)) :
    ∃ o', Refines v ⟨p, o'⟩ ∧ onRecvs effects = [] ∧ Sized S v ∧ OffersInside effects := by
  have hback := recvStep_backed _ _ _ hv
  have hag := alloc_agree (backed heap) href S
  rw [hback] at hag
  obtain ⟨q, out, hq, hnext, hout⟩ := agree_some hag
  obtain ⟨rfl, rfl⟩ := Prod.mk.inj (Option.some.inj hq)
  have hsame : ∀ sg, ReadEvent.alloc S = .alloc sg → sg = S :=
    fun sg hsg => (ReadEvent.alloc.inj hsg).symm
  have hfit : AllocFits uv (.alloc S) := fun _ => aligned_not_oversized href hsized hal hcap
  refine ⟨_, hnext, hout, sized_step hsame hsized hback, ?_⟩
  intro buf cap hx
  exact (inside_step hsame hsized hback).mpr hfit _ hx buf cap rfl

theorem stop_reported {nread : Int} (hsized : Sized S uv)
    (hv : recvStep heap uv (.stop nread) = some (v, effects)) :
    onRecvs effects = [(none, readErrcode nread)] ∧ Sized S v ∧ OffersInside effects := by
  have hback := recvStep_backed _ _ _ hv
  have hread : ∀ sg, ReadEvent.stop nread = .alloc sg → sg = S := by
    intro sg hsg
    cases hsg
  refine ⟨?_, sized_step hread hsized hback, ?_⟩
  · cases recvStep_moved hv with
    | stopped _ hneg => rfl
  · intro buf cap hx
    exact (inside_step hread hsized hback).mpr (allocFits_stop _ nread) _ hx buf cap rfl

theorem stop_idle {nread : Int} (hv : recvStep heap uv (.stop nread) = some (v, effects)) :
    Idle v := by
  cases recvStep_moved hv with
  | stopped _ hneg => exact ⟨rfl, rfl⟩

theorem offersInside_append {xs ys : List Effect} (hx : OffersInside xs) (hy : OffersInside ys) :
    OffersInside (xs ++ ys) :=
  fun buf cap hmem => (List.mem_append.mp hmem).elim (hx buf cap) (hy buf cap)

end Reads

section Steps

variable {S : ℕ} {d : Side} {link next : Link} {es : List (Side × Event)} {e : Event}
  {past : List (Side × Effect)} {effects : List Effect} {p : Pending} {ms : List (List UInt8)}
  {rest : List UInt8} {tail : List (Option Delivery × Int)} {s : ScSocket}

theorem received_other (past : List (Side × Effect)) (effects : List Effect) :
    received d.other (past ++ effects.map (Prod.mk d)) = received d.other past := by
  simp [received, part_tagged_ne]

theorem setEnd_other {side : Side} (hkept : Kept link next side e) :
    (next.setEnd side s).ends side.other = link.ends side.other := by
  simp [Link.setEnd, hkept.ends]

/-- A move of the sender that writes or accepts some bytes. -/
theorem Flow.sender {rest' : List UInt8} (h : Flow S d link es past p ms rest tail)
    (hkept : Kept link next d e)
    (hbytes : next.incoming d.other ++ rest' =
      link.incoming d.other ++ (rest ++ wire (sentBodies d [(d, e)])))
    (hrest : next.failed d = false → rest' = s.backend.stream.writing.getD [])
    (hfit : ∀ m ∈ sentBodies d [(d, e)], m.length ≤ u32 S) :
    Flow S d (next.setEnd d s) (es ++ [(d, e)])
      (past ++ effects.map (Prod.mk d)) p ms rest' tail where
  calls := by rw [received_other]; exact h.calls
  ending := by
    rcases h.ending with ht | ⟨hended, ht⟩
    · exact .inl ht
    · exact .inr ⟨hkept.ended.trans hended, ht⟩
  bytes := by
    rw [sentBodies_append, wire_append, ← h.bytes]
    simp only [List.append_assoc, setEnd_incoming, hbytes]
  unwritten := by
    intro hf
    rw [hrest hf, setEnd_self]
  holds := by
    intro hended
    rw [setEnd_other hkept]
    exact h.holds (hkept.ended ▸ hended)
  sized := by
    rw [setEnd_other hkept]
    exact h.sized
  small := h.small
  fits := by
    rw [sentBodies_append, List.forall_mem_append]
    exact ⟨h.fits, hfit⟩
  inside := by
    rw [part_append, part_tagged_ne (Side.ne_other d), List.append_nil]
    exact h.inside

/-- A move of the sender that concerns no bytes. -/
theorem Flow.sender_idle (h : Flow S d link es past p ms rest tail) (hkept : Kept link next d e)
    (hflush : ∀ n, e ≠ .flushed n) (hsent : ∀ errcode, e ≠ .sent errcode) (hmsg : sentMsg e = none)
    (hw : s.backend.stream.writing = (link.ends d).backend.stream.writing) :
    Flow S d (next.setEnd d s) (es ++ [(d, e)])
      (past ++ effects.map (Prod.mk d)) p ms rest tail := by
  have hnone : sentBodies d [(d, e)] = [] := sentBodies_none fun _ => hmsg
  refine h.sender hkept ?_ ?_ (by simp [hnone])
  · rw [hnone, hkept.outgoing hflush, wire_nil, List.append_nil]
  · intro hf
    rw [hw]
    exact h.unwritten (hkept.standing hsent ▸ hf)

theorem Flow.sender_send (h : Flow S d link es past p ms rest tail) {msg : ScMsg} {result : Int}
    (hfree : (link.ends d).backend.stream.writing = none) (hsize : scMsgGetSize msg ≤ u32 S) :
    ∃ rest', Flow S d (link.setEnd d (scSocketSend result (link.ends d) msg).1)
      (es ++ [(d, .send msg result)]) (past ++ effects.map (Prod.mk d)) p ms rest' tail := by
  by_cases hr : result = 0
  · have hsent : sentBodies d [(d, .send msg result)] = [body msg] := by
      simp [sentBodies, sentMsg, hr]
    have hnew : (scSocketSend result (link.ends d) msg).1.backend.stream.writing =
        some (frame (body msg)) := by
      simp [scSocketSend, buvSend, hr, ← sendBuffers_frame]
    refine ⟨rest ++ frame (body msg), h.sender (kept_refl _ _ _) ?_ ?_ ?_⟩
    · simp [hsent]
    · intro hf
      rw [hnew, h.unwritten hf, hfree]
      rfl
    · rw [hsent, List.forall_mem_singleton, body, Area.load_length]
      exact hsize
  · have hw : (scSocketSend result (link.ends d) msg).1.backend.stream.writing =
        (link.ends d).backend.stream.writing := by
      simp [scSocketSend, buvSend, hr]
    refine ⟨rest, h.sender_idle (kept_refl _ _ _) ?_ ?_ (by simp [sentMsg, hr]) hw⟩
    · intro n hn
      cases hn
    · intro code hc
      cases hc

theorem Flow.sender_flush (h : Flow S d link es past p ms rest tail) {n : ℕ} {left : List UInt8}
    (hc : carry link d (.flushed n) = some next)
    (hw : (link.ends d).backend.stream.writing = some left) :
    ∃ rest', Flow S d
      (next.setEnd d (withStream (link.ends d)
        { (link.ends d).backend.stream with writing := some (left.drop n) }))
      (es ++ [(d, .flushed n)]) (past ++ effects.map (Prod.mk d)) p ms rest' tail := by
  have hnone : sentBodies d [(d, .flushed n)] = [] := sentBodies_none fun _ => rfl
  have hkept := carry_kept hc
  simp only [carry, Option.ite_none_right_eq_some, Option.some.injEq] at hc
  obtain ⟨hmay, rfl⟩ := hc
  have hrest : n ≠ 0 → rest = left := by
    intro hn
    rw [h.unwritten (hmay.resolve_left hn).2, hw]
    rfl
  refine ⟨rest.drop n, h.sender hkept ?_ ?_ (by simp [hnone])⟩
  · by_cases hn : n = 0
    · rw [hnone]
      simp [hn]
    · simp [hnone, hw, hrest hn]
  · intro hf
    have hall := h.unwritten hf
    rw [hw] at hall
    rw [hall]
    rfl

theorem Flow.sender_report (h : Flow S d link es past p ms rest tail) {errcode : Int}
    {left : List UInt8} (hc : carry link d (.sent errcode) = some next)
    (hw : (link.ends d).backend.stream.writing = some left) (hz : errcode = 0 → left = []) :
    Flow S d
      (next.setEnd d (withStream (link.ends d)
        { (link.ends d).backend.stream with writing := none }))
      (es ++ [(d, .sent errcode)]) (past ++ effects.map (Prod.mk d)) p ms rest tail := by
  have hnone : sentBodies d [(d, .sent errcode)] = [] := sentBodies_none fun _ => rfl
  have hkept := carry_kept hc
  obtain rfl := Option.some.inj hc
  refine h.sender hkept ?_ ?_ (by simp [hnone])
  · simp [hnone]
  · intro hf
    simp only [Function.update_self, Bool.or_eq_false_iff, bne_eq_false_iff_eq] at hf
    have hall := h.unwritten hf.1
    rw [hw, hz hf.2] at hall
    exact hall

theorem flows_sender {heaps : Side → Heap} {link' : Link} {out : List (Side × Effect)}
    (hcare : SoundUse S d link (d, e)) (h : Flows S d link es past)
    (hstep : linkStep heaps link (d, e) = some (link', out)) :
    Flows S d link' (es ++ [(d, e)]) (past ++ out) := by
  obtain ⟨p, ms, rest, tail, h⟩ := h
  obtain ⟨next, s, effects, hc, hs, rfl, rfl⟩ := linkStep_cases hstep
  have hkept := carry_kept hc
  cases step_stepped hs with
  | opened e u effects he _ => cases e <;> first | exact absurd he id | cases hc
  | submitted msg result =>
    obtain rfl := Option.some.inj hc
    obtain ⟨hfree, hsize⟩ := hcare rfl
    obtain ⟨rest', h'⟩ := h.sender_send hfree hsize
    exact ⟨p, ms, rest', tail, h'⟩
  | flushed n left hw hn =>
    obtain ⟨rest', h'⟩ := h.sender_flush hc hw
    exact ⟨p, ms, rest', tail, h'⟩
  | sent errcode left hw hz => exact ⟨p, ms, rest, tail, h.sender_report hc hw hz⟩
  | _ =>
    refine ⟨p, ms, rest, tail, h.sender_idle hkept ?_ ?_ rfl rfl⟩
    · intro n hn
      cases hn
    · intro code hcode
      cases hcode

/-- A move of the receiver that reports something about the stream or nothing at all. -/
theorem Flow.receiver {p' : Pending} {ms' : List (List UInt8)}
    {tail' : List (Option Delivery × Int)} (h : Flow S d link es past p ms rest tail)
    (hkept : Kept link next d.other e)
    (hcalls : ms.map message ++ (tail ++ onRecvs effects) = ms'.map message ++ tail')
    (hending : tail' = [] ∨ next.ended d.other = true ∧ ∃ errcode, tail' = [(none, errcode)])
    (hbytes : wire ms ++ (pendingBytes p ++ link.incoming d.other) =
      wire ms' ++ (pendingBytes p' ++ next.incoming d.other))
    (hholds : next.ended d.other = false → ∃ o, Refines s.backend.toReceiver ⟨p', o⟩)
    (hsized : Sized S s.backend.toReceiver) (hsmall : ∀ m ∈ ms', m.length < 2 ^ 32)
    (hinside : OffersInside effects) :
    Flow S d (next.setEnd d.other s) (es ++ [(d.other, e)])
      (past ++ effects.map (Prod.mk d.other)) p' ms' rest tail' where
  calls := by
    rw [← hcalls, received, part_append, part_tagged, onRecvs_append, ← received, h.calls,
      List.append_assoc]
  ending := hending
  bytes := by
    have hnone : sentBodies d [(d.other, e)] = [] := sentBodies_none fun hd => absurd hd (Side.other_ne d)
    rw [sentBodies_append, hnone, List.append_nil, ← h.bytes]
    simp only [setEnd_incoming, ← List.append_assoc] at hbytes ⊢
    rw [hbytes]
  unwritten := by
    have hends := setEnd_other (s := s) hkept
    have hfailed := hkept.failed
    rw [Side.other_other] at hends hfailed
    rw [setEnd_failed, hfailed, hends]
    exact h.unwritten
  holds := by
    rw [setEnd_self]
    exact hholds
  sized := by
    rw [setEnd_self]
    exact hsized
  small := hsmall
  fits := by
    have hnone : sentBodies d [(d.other, e)] = [] := sentBodies_none fun hd => absurd hd (Side.other_ne d)
    rw [sentBodies_append, hnone, List.append_nil]
    exact h.fits
  inside := by
    rw [part_append, part_tagged]
    exact offersInside_append h.inside hinside

theorem quiet_of_family (h : ∀ x ∈ effects, x.family ≠ .message) :
    onRecvs effects = [] ∧ OffersInside effects := by
  constructor
  · rw [onRecvs, List.filterMap_eq_nil_iff]
    intro x hx
    have hf := h x hx
    cases x <;> first | rfl | exact absurd rfl hf
  · intro buf cap hx
    exact absurd rfl (h _ hx)

theorem Flow.receiver_idle (h : Flow S d link es past p ms rest tail)
    (hkept : Kept link next d.other e) (hread : ∀ r, e ≠ .recv r)
    (hsame : s.backend.toReceiver = (link.ends d.other).backend.toReceiver)
    (hquiet : ∀ x ∈ effects, x.family ≠ .message) :
    Flow S d (next.setEnd d.other s) (es ++ [(d.other, e)])
      (past ++ effects.map (Prod.mk d.other)) p ms rest tail := by
  obtain ⟨hcalls, hinside⟩ := quiet_of_family hquiet
  obtain ⟨hincoming, hended⟩ := hkept.unread hread
  refine h.receiver hkept ?_ ?_ ?_ ?_ ?_ h.small hinside
  · rw [hcalls, List.append_nil]
  · rw [hended]
    exact h.ending
  · rw [hincoming]
  · rw [hended, hsame]
    exact h.holds
  · rw [hsame]
    exact h.sized

/-- The messages that the sender got accepted and the receiver did not get yet. -/
theorem Flow.ahead (h : Flow S d link es past p ms rest tail) :
    ∃ more, sentBodies d es = ms ++ more ∧ Aligned p (link.incoming d.other ++ rest) more ∧
      ∀ m ∈ more, m.length ≤ u32 S := by
  have hsmall : ∀ m ∈ sentBodies d es, m.length < 2 ^ 32 :=
    fun m hm => Nat.lt_of_le_of_lt (h.fits m hm) (u32_lt S)
  obtain ⟨more, hsent, hal⟩ := wire_cancel h.small hsmall h.bytes
  refine ⟨more, hsent, hal, ?_⟩
  intro m hm
  exact h.fits m (by rw [hsent]; exact List.mem_append_right _ hm)

theorem Flow.receiver_alloc {heap : Heap} {v : Receiver}
    (h : Flow S d link es past p ms rest tail) (hlive : link.ended d.other = false)
    (hv : recvStep heap (link.ends d.other).backend.toReceiver (.alloc S) = some (v, effects)) :
    Flow S d (link.setEnd d.other (withReceiver (link.ends d.other) v))
      (es ++ [(d.other, .recv (.alloc S))]) (past ++ effects.map (Prod.mk d.other)) p ms rest
      tail := by
  obtain ⟨o, href⟩ := h.holds hlive
  obtain ⟨more, _, hal, hcap⟩ := h.ahead
  obtain ⟨o', hnext, hquiet, hsized, hinside⟩ := alloc_aligned href h.sized hal hcap hv
  refine h.receiver (kept_refl _ _ _) ?_ h.ending rfl (fun _ => ⟨o', hnext⟩) hsized h.small hinside
  rw [hquiet, List.append_nil]

theorem Flow.receiver_read {heap : Heap} {v : Receiver} {bytes : List UInt8}
    (h : Flow S d link es past p ms rest tail)
    (hcare : ¬ ShortRead (link.ends d.other).backend.toReceiver bytes)
    (hc : carry link d.other (.recv (.read bytes)) = some next)
    (hv : recvStep heap (link.ends d.other).backend.toReceiver (.read bytes) = some (v, effects)) :
    ∃ p' ms', Flow S d (next.setEnd d.other (withReceiver (link.ends d.other) v))
      (es ++ [(d.other, .recv (.read bytes))]) (past ++ effects.map (Prod.mk d.other)) p' ms' rest
      tail := by
  have hkept := carry_kept hc
  simp only [carry, Option.ite_none_right_eq_some, Option.some.injEq, Bool.and_eq_true,
    Bool.not_eq_true', beq_iff_eq] at hc
  obtain ⟨⟨hlive, htake⟩, rfl⟩ := hc
  obtain ⟨o, href⟩ := h.holds hlive
  obtain ⟨p', more, hcalls, hbytes, hsmall, hnext, hsized, hinside⟩ :=
    read_whole href h.sized hcare hv
  have htail : tail = [] := h.ending.resolve_right fun hend => by simp [hlive] at hend
  refine ⟨p', ms ++ more, h.receiver hkept ?_ (.inl htail) ?_ (fun _ => ⟨none, hnext⟩) hsized ?_
    hinside⟩
  · rw [htail, hcalls]
    simp
  · have hincoming : link.incoming d.other =
        bytes ++ (link.incoming d.other).drop bytes.length := by
      conv_lhs => rw [← List.take_append_drop bytes.length (link.incoming d.other), htake]
    simp only [Function.update_self]
    conv_lhs => rw [hincoming, ← List.append_assoc (pendingBytes p), hbytes]
    simp [wire_append]
  · rw [List.forall_mem_append]
    exact ⟨h.small, hsmall⟩

theorem Flow.receiver_stop {heap : Heap} {v : Receiver} {nread : Int}
    (h : Flow S d link es past p ms rest tail)
    (hc : carry link d.other (.recv (.stop nread)) = some next)
    (hv : recvStep heap (link.ends d.other).backend.toReceiver (.stop nread) = some (v, effects)) :
    ∃ tail', Flow S d (next.setEnd d.other (withReceiver (link.ends d.other) v))
      (es ++ [(d.other, .recv (.stop nread))]) (past ++ effects.map (Prod.mk d.other)) p ms rest
      tail' := by
  have hkept := carry_kept hc
  simp only [carry, Option.ite_none_right_eq_some, Option.some.injEq, Bool.and_eq_true,
    Bool.not_eq_true'] at hc
  obtain ⟨⟨hlive, _⟩, rfl⟩ := hc
  obtain ⟨hcalls, hsized, hinside⟩ := stop_reported h.sized hv
  have htail : tail = [] := h.ending.resolve_right fun hend => by simp [hlive] at hend
  refine ⟨[(none, readErrcode nread)], h.receiver hkept ?_ (.inr ⟨by simp, _, rfl⟩) rfl ?_ hsized
    h.small hinside⟩
  · rw [htail, hcalls]
    rfl
  · intro hended
    simp at hended

theorem flows_receiver {heaps : Side → Heap} {link' : Link} {out : List (Side × Effect)}
    (hcare : SoundUse S d link (d.other, e)) (h : Flows S d link es past)
    (hstep : linkStep heaps link (d.other, e) = some (link', out)) :
    Flows S d link' (es ++ [(d.other, e)]) (past ++ out) := by
  obtain ⟨p, ms, rest, tail, h⟩ := h
  obtain ⟨next, s, effects, hc, hs, rfl, rfl⟩ := linkStep_cases hstep
  have hkept := carry_kept hc
  cases step_stepped hs with
  | opened e u effects he _ => cases e <;> first | exact absurd he id | cases hc
  | received e r effects _ _ hr =>
    cases e with
    | alloc sg =>
      obtain rfl := hcare rfl
      simp only [carry, Option.ite_none_left_eq_some, Option.some.injEq, Bool.not_eq_true] at hc
      obtain ⟨hlive, rfl⟩ := hc
      exact ⟨p, ms, rest, tail, h.receiver_alloc hlive hr⟩
    | read bytes =>
      obtain ⟨p', ms', h'⟩ := h.receiver_read (hcare rfl) hc hr
      exact ⟨p', ms', rest, tail, h'⟩
    | stop nread =>
      obtain ⟨tail', h'⟩ := h.receiver_stop hc hr
      exact ⟨p, ms, rest, tail', h'⟩
  | submitted msg result =>
    exact ⟨p, ms, rest, tail, h.receiver_idle hkept (by intro _ hr; cases hr)
      (send_receiver _ _ _) (by simp [Effect.family])⟩
  | closing =>
    refine ⟨p, ms, rest, tail, h.receiver_idle hkept (by intro _ hr; cases hr) rfl ?_⟩
    unfold uriDelEffects
    split <;> simp [Effect.family]
  | _ =>
    exact ⟨p, ms, rest, tail, h.receiver_idle hkept (by intro _ hr; cases hr) rfl
      (by simp [Effect.family])⟩

end Steps

theorem flows_run {heaps : Side → Heap} {S : ℕ} {d : Side} {left right : ScSocket}
    {es : List (Side × Event)} {link : Link} {out : List (Side × Effect)}
    (hsend : ((Link.fresh left right).ends d).backend.stream.writing = none)
    (hidle : Idle ((Link.fresh left right).ends d.other).backend.toReceiver)
    (hcare : EveryStep (linkStep heaps) (SoundUse S d) (.fresh left right) es)
    (hrun : run (linkStep heaps) (.fresh left right) es = some (link, out)) :
    Flows S d link es out := by
  refine run_traced (Flows S d) (SoundUse S d) ?_ (flows_fresh S d left right hsend hidle) hcare hrun
  rintro link ⟨side, e⟩ link' seen past out hcare h hs
  by_cases hd : side = d
  · subst hd
    exact flows_sender hcare h hs
  · have hother : side = d.other := by cases side <;> cases d <;> first | rfl | exact absurd rfl hd
    subst hother
    exact flows_receiver hcare h hs

/-- Two connected sockets that move in any order: whatever one end gets delivered is, in order and
without gaps, what the other end sent, followed at most by one report of the end. Every buffer lies
inside its message, and when nothing is on its way any more, everything was delivered. -/
theorem delivered_in_order (heaps : Side → Heap) (S : ℕ) (d : Side) (left right : ScSocket)
    (es : List (Side × Event)) (link : Link) (out : List (Side × Effect))
    (hsend : ((Link.fresh left right).ends d).backend.stream.writing = none)
    (hidle : Idle ((Link.fresh left right).ends d.other).backend.toReceiver)
    (hcare : EveryStep (linkStep heaps) (SoundUse S d) (.fresh left right) es)
    (hrun : run (linkStep heaps) (.fresh left right) es = some (link, out)) :
    ∃ ms rest tail, sentBodies d es = ms ++ rest ∧ received d.other out = ms.map message ++ tail ∧
      (tail = [] ∨ ∃ errcode, tail = [(none, errcode)]) ∧ OffersInside (part d.other out) ∧
      (link.incoming d.other = [] → link.failed d = false →
        (link.ends d).backend.stream.writing.getD [] = [] → rest = []) := by
  obtain ⟨p, ms, unwritten, tail, h⟩ := flows_run hsend hidle hcare hrun
  obtain ⟨rest, hsent, hal, hcap⟩ := h.ahead
  refine ⟨ms, rest, tail, hsent, h.calls, h.ending.imp id And.right, h.inside, ?_⟩
  intro hempty hok hdone
  have hsmall : ∀ m ∈ rest, m.length < 2 ^ 32 :=
    fun m hm => Nat.lt_of_le_of_lt (hcap m hm) (u32_lt S)
  rw [Aligned, hempty, h.unwritten hok, hdone, List.append_nil, List.append_nil] at hal
  exact aligned_nil hsmall hal

def connectedEnd : ScSocket := withStream newSocket ⟨.active, false, false, none⟩

def acceptedEnd : ScSocket := withStream newSocket ⟨.active, true, false, none⟩

/-- One message from a connected to an accepted end; the two ends take turns. -/
def oneMessage : List (Side × Event) :=
  [(.left, .send shortMsg 0), (.right, .recv (.alloc 4096)), (.left, .flushed 4),
    (.right, .recv (.read [0, 0, 0, 1])), (.left, .flushed 1), (.right, .recv (.alloc 4096)),
    (.left, .sent 0), (.right, .recv (.read [7])), (.left, .close), (.right, .recv (.stop uvEof))]

theorem delivered_in_order_closed :
    ∃ link out, run (linkStep fun _ => reliable zeroBlocks) (.fresh connectedEnd acceptedEnd)
        oneMessage = some (link, out) ∧
      ∃ ms rest tail, [[7]] = ms ++ rest ∧ received .right out = ms.map message ++ tail ∧
        (tail = [] ∨ ∃ errcode, tail = [(none, errcode)]) ∧ OffersInside (part .right out) ∧
        rest = [] := by
  have hcare : EveryStep (linkStep fun _ => reliable zeroBlocks) (SoundUse 4096 .left)
      (.fresh connectedEnd acceptedEnd) oneMessage := by
    iterate 10
      refine (everyStep_cons _ rfl).mpr ⟨?_, ?_⟩
      · first
          | exact trivial
          | exact fun _ => ⟨rfl, by decide⟩
          | exact fun _ => rfl
          | exact fun _ hshort => absurd hshort.2.2.1 (by decide)
          | exact fun _ hshort => absurd (hshort.2.2.2 7 (by decide)) (by decide)
    trivial
  obtain ⟨ms, rest, tail, hsent, hcalls, hend, hinside, hdone⟩ := delivered_in_order
    (fun _ => reliable zeroBlocks) 4096 .left connectedEnd acceptedEnd oneMessage _ _ rfl ⟨rfl, rfl⟩
    hcare rfl
  exact ⟨_, _, rfl, ms, rest, tail, hsent, hcalls, hend, hinside, hdone rfl rfl rfl⟩

end ShortCircuit.Transport
