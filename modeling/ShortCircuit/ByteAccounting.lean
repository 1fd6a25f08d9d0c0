import ShortCircuit.BodyPhase
import ShortCircuit.FrameStream

set_option autoImplicit false

/-!
# No byte is lost between libuv and `on_recv`

Each call of `on_recv` accounts for a piece of the stream: a message for its frame, or
for one to three zero bytes if it was delivered early, and the end of the stream for the
bytes of the message that it drops. The pieces and the bytes that the message in
progress holds are, in order, everything that libuv read.
-/
namespace ShortCircuit.ByteAccounting
open WordBytes Message Boundary OutputMachine FrameParser FrameStream Receive ReceiveRefinement
open BodyPhase

/-- The bytes that the message in progress has received. -/
def heldBytes (uv : Receiver) : List UInt8 :=
  match uv.msg with
  | none => []
  | some msg => msg.sizeBe.load uv.reader.headPos ++ msg.data.load uv.reader.bodyPos

/-- The piece of the stream that one call of `on_recv` stands for. -/
inductive Accounts : Option Delivery × Int → List UInt8 → Prop where
  | delivered (m piece : List UInt8) (h : Piece m piece) : Accounts (message m) piece
  | dropped (p : Pending) (errcode : Int) : Accounts (none, errcode) (pendingBytes p)

theorem heldBytes_pending {uv : Receiver} {p : Parser} (h : Refines uv p) :
    heldBytes uv = pendingBytes p.pending := by
  cases hm : uv.msg with
  | none =>
    rw [h.idle hm]
    simp [heldBytes, hm]
  | some msg =>
    have hheld := h.held msg hm
    have hhead : msg.sizeBe.load p.pending.head.length = p.pending.head := by
      rw [Area.load_eq_iff]
      intro i hi
      exact hheld.head i (hi.trans_le p.pending.head_le)
    simp only [heldBytes, hm, hheld.headPos, hheld.bodyPos, hhead, hheld.body, pendingBytes]

theorem accounts_reports {reports pieces : List (List UInt8)}
    (h : List.Forall₂ Piece reports pieces) :
    List.Forall₂ Accounts (reports.map message) pieces := by
  induction h with
  | nil => exact .nil
  | cons hp _ ih => exact .cons (.delivered _ _ hp) ih

theorem parserStep_read {p q : Parser} {bytes : List UInt8} {out : List (Option Delivery × Int)}
    (h : parserStep p (.read bytes) = some (q, out)) :
    ∃ k, p.offered = some k ∧ bytes.length ≤ k ∧ q = ⟨(p.pending.feed bytes).1, none⟩ ∧
      out = (p.pending.feed bytes).2.map message := by
  simp only [parserStep] at h
  split at h
  · cases h
  · rename_i k hk
    split at h
    · rename_i hle
      obtain ⟨rfl, rfl⟩ := Prod.mk.inj (Option.some.inj h)
      exact ⟨k, hk, hle, rfl, rfl⟩
    · cases h

theorem parserStep_accounts {p q : Parser} {e : ReadEvent} {out : List (Option Delivery × Int)}
    (hoffer : ∀ k, p.offered = some k → k ≤ p.pending.room)
    (h : parserStep p e = some (q, out)) :
    ∃ pieces, List.Forall₂ Accounts out pieces ∧
      pendingBytes p.pending ++ arrivedIn e = pieces.flatten ++ pendingBytes q.pending := by
  cases e with
  | alloc sg =>
    obtain ⟨rfl, rfl⟩ := Prod.mk.inj (Option.some.inj h)
    exact ⟨[], .nil, by simp [arrivedIn]⟩
  | read bytes =>
    obtain ⟨k, hk, hle, rfl, rfl⟩ := parserStep_read h
    obtain ⟨pieces, hpieces, hbytes, _⟩ := feed_pieces p.pending bytes (hle.trans (hoffer k hk))
    exact ⟨pieces, accounts_reports hpieces, hbytes⟩
  | stop nread =>
    simp only [parserStep] at h
    split at h
    · obtain ⟨rfl, rfl⟩ := Prod.mk.inj (Option.some.inj h)
      exact ⟨[pendingBytes p.pending], .cons (.dropped _ _) .nil, by simp [arrivedIn, Parser.init]⟩
    · cases h

/-- What libuv has read so far is accounted for. -/
def Accounted (uv : Receiver) (es : List ReadEvent) (effects : List Effect) : Prop :=
  ∃ pieces, List.Forall₂ Accounts (onRecvs effects) pieces ∧
    arrived es = pieces.flatten ++ heldBytes uv

theorem accounted_step {heap : Heap} {uv v : Receiver} {e : ReadEvent} {es : List ReadEvent}
    {past effects : List Effect} (href : ∃ p, Refines uv p) (h : Accounted uv es past)
    (hs : recvStep heap uv e = some (v, effects)) :
    (∃ p, Refines v p) ∧ Accounted v (es ++ [e]) (past ++ effects) := by
  obtain ⟨p, hp⟩ := href
  obtain ⟨pieces, hpieces, hbytes⟩ := h
  have hag := recvStep_agree (backed heap) uv p e hp
  rw [recvStep_backed uv e _ hs] at hag
  obtain ⟨q, out, hq, hrefines, hout⟩ := agree_some hag
  obtain ⟨more, hmore, hmoved⟩ := parserStep_accounts (fun k hk => (hp.room k hk).1) hq
  refine ⟨⟨q, hrefines⟩, pieces ++ more, ?_, ?_⟩
  · rw [onRecvs_append, hout]
    exact List.rel_append hpieces hmore
  · rw [heldBytes_pending hp] at hbytes
    rw [heldBytes_pending hrefines, arrived, List.flatMap_append, ← arrived, hbytes,
      List.append_assoc, List.flatMap_singleton, hmoved, List.flatten_append, List.append_assoc]

/-- Whatever the peer sends and however libuv cuts it, the calls of `on_recv` and the message in
progress account for every byte that was read, in order and once. -/
theorem bytes_accounted (heap : Heap) (es : List ReadEvent) (v : Receiver) (effects : List Effect)
    (hrun : run (recvStep heap) .init es = some (v, effects)) : Accounted v es effects := by
  have hstart : (∃ p, Refines .init p) ∧ Accounted .init [] [] :=
    ⟨⟨_, refines_init⟩, [], .nil, rfl⟩
  exact (run_traced (fun uv es past => (∃ p, Refines uv p) ∧ Accounted uv es past)
    (fun _ _ => True) (fun _ _ _ _ _ _ _ h hs => accounted_step h.1 h.2 hs) hstart
    (everyStep_of_forall _ _ fun _ _ => trivial) hrun).2

theorem bytes_accounted_early :
    ∃ v effects, run (recvStep (reliable zeroBlocks)) .init
        [.alloc 65536, .read [0], .alloc 65536, .read [0, 0, 1], .alloc 65536, .stop uvEof] =
          some (v, effects) ∧
      onRecvs effects = [message [], (none, 0)] ∧
      ∃ pieces, List.Forall₂ Accounts (onRecvs effects) pieces ∧
        [0, 0, 0, 1] = pieces.flatten ++ heldBytes v :=
  ⟨_, _, rfl, by decide, bytes_accounted (reliable zeroBlocks)
    [.alloc 65536, .read [0], .alloc 65536, .read [0, 0, 1], .alloc 65536, .stop uvEof] _ _ rfl⟩

end ShortCircuit.ByteAccounting
