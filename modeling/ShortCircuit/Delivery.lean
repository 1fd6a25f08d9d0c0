import ShortCircuit.Transport

set_option autoImplicit false

/-!
# What was sent can be delivered

A connection that still stands never gets stuck with a message on its way: the bytes that
libuv has to write can be written, and what has arrived can be read until every message
that was sent has been delivered.
-/
namespace ShortCircuit.Delivery
open WordBytes Message Boundary OutputMachine TaggedTraces FrameParser FrameStream
open Receive ReceiveRefinement ReceiveBounds Backend Socket SocketRuns FramingRoundTrip Transport

/-- The way from `d` to the other side is open. -/
structure OpenWay (d : Side) (link : Link) : Prop where
  sender : (link.ends d).backend.stream.phase = .active
  unfailed : link.failed d = false
  active : (link.ends d.other).backend.stream.phase = .active
  reading : (link.ends d.other).backend.stream.reading = true
  unended : link.ended d.other = false

/-- Some run of sound events without another send leads to the deliveries `target`. -/
def Leads (S : ℕ) (d : Side) (heaps : Side → Heap) (link : Link) (past : List (Side × Effect))
    (target : List (Option Delivery × Int)) : Prop :=
  ∃ fs last more, run (linkStep heaps) link fs = some (last, more) ∧
    EveryStep (linkStep heaps) (SoundUse S d) link fs ∧ sentBodies d fs = [] ∧
    received d.other (past ++ more) = target

section Moves

variable {S : ℕ} {d : Side} {heaps : Side → Heap} {blocks : ℕ → Block} {link : Link}
  {es : List (Side × Event)} {past : List (Side × Effect)}

theorem linkStep_intro {side : Side} {e : Event} {next : Link} {s : ScSocket}
    {effects : List Effect} (hc : carry link side e = some next)
    (hs : step (heaps side) (link.ends side) e = some (s, effects)) :
    linkStep heaps link (side, e) = some (next.setEnd side s, effects.map (Prod.mk side)) := by
  simp only [linkStep, hc, hs]

theorem step_recv {heap : Heap} {s : ScSocket} {r : ReadEvent} {v : Receiver}
    {effects : List Effect} (hactive : s.backend.stream.phase = .active)
    (hreading : s.backend.stream.reading = true)
    (hv : recvStep heap s.backend.toReceiver r = some (v, effects)) :
    step heap s (.recv r) = some (withReceiver s v, effects) := by
  simp only [step, hactive, hreading, and_self, if_true, hv]
  rfl

/-- All bytes that libuv still has are written at once. -/
theorem flush_all (heaps : Side → Heap) (h : OpenWay d link)
    {left : List UInt8} (hw : (link.ends d).backend.stream.writing = some left) :
    ∃ next out, linkStep heaps link (d, .flushed left.length) = some (next, out) ∧
      OpenWay d next ∧ (next.ends d).backend.stream.writing = some [] ∧
      next.incoming d.other = link.incoming d.other ++ left := by
  have hs : step (heaps d) (link.ends d) (.flushed left.length) =
      some (withStream (link.ends d) { (link.ends d).backend.stream with writing := some [] },
        [.written left]) := by
    simp [step, hw]
  have hc : carry link d (.flushed left.length) = some { link with
      incoming := Function.update link.incoming d.other (link.incoming d.other ++ left) } := by
    simp [carry, h.sender, h.unfailed, hw]
  refine ⟨_, _, linkStep_intro hc hs, ⟨?_, h.unfailed, ?_, ?_, h.unended⟩, ?_, ?_⟩
  · simpa [withStream] using h.sender
  · simpa [Link.setEnd] using h.active
  · simpa [Link.setEnd] using h.reading
  · simp [withStream]
  · simp

theorem OpenWay.receive {next : Link} {v : Receiver} (h : OpenWay d link)
    (hends : next.ends = link.ends) (hfailed : next.failed = link.failed)
    (hended : next.ended = link.ended) :
    OpenWay d (next.setEnd d.other (withReceiver (link.ends d.other) v)) := by
  refine ⟨?_, ?_, ?_, ?_, ?_⟩
  · simpa [Link.setEnd, hends] using h.sender
  · rw [setEnd_failed, hfailed]
    exact h.unfailed
  · rw [setEnd_self]
    exact h.active
  · rw [setEnd_self]
    exact h.reading
  · rw [setEnd_ended, hended]
    exact h.unended

/-- A buffer for the message in progress is offered. -/
theorem offer_next {p : Pending} {o : Option ℕ} (h : OpenWay d link)
    (hheap : heaps d.other = reliable blocks)
    (href : Refines (link.ends d.other).backend.toReceiver ⟨p, o⟩) :
    ∃ next out, linkStep heaps link (d.other, .recv (.alloc S)) = some (next, out) ∧
      OpenWay d next ∧ next.incoming = link.incoming ∧
      (next.ends d).backend.stream = (link.ends d).backend.stream ∧
      Refines (next.ends d.other).backend.toReceiver ⟨p, some (min p.room (u32 S))⟩ := by
  obtain ⟨v, effects, hv, hnext, _⟩ := agree_right (alloc_agree blocks href S)
  have hs := step_recv h.active h.reading hv
  rw [← hheap] at hs
  have hc : carry link d.other (.recv (.alloc S)) = some link := by simp [carry, h.unended]
  refine ⟨_, _, linkStep_intro hc hs, h.receive rfl rfl rfl, rfl, ?_, ?_⟩
  · simp [Link.setEnd]
  · rw [setEnd_self]
    exact hnext

/-- As much is read as fits the offered buffer. -/
theorem read_next {p : Pending} {k : ℕ} (h : OpenWay d link)
    (hheap : heaps d.other = reliable blocks)
    (href : Refines (link.ends d.other).backend.toReceiver ⟨p, some k⟩) :
    ∃ next out, linkStep heaps link (d.other, .recv (.read ((link.incoming d.other).take k))) =
        some (next, out) ∧
      OpenWay d next ∧ next.incoming d.other = (link.incoming d.other).drop k ∧
      (next.ends d).backend.stream = (link.ends d).backend.stream := by
  have hparse : parserStep ⟨p, some k⟩ (.read ((link.incoming d.other).take k)) =
      some (⟨(p.feed ((link.incoming d.other).take k)).1, none⟩,
        (p.feed ((link.incoming d.other).take k)).2.map message) := by
    simp [parserStep]
  have hag := read_agree blocks href ((link.incoming d.other).take k)
  rw [hparse] at hag
  obtain ⟨v, effects, hv, _, _⟩ := agree_right hag
  have hs := step_recv h.active h.reading hv
  rw [← hheap] at hs
  have hc : carry link d.other (.recv (.read ((link.incoming d.other).take k))) = some { link with
      incoming := Function.update link.incoming d.other
        ((link.incoming d.other).drop ((link.incoming d.other).take k).length) } := by
    simp [carry, h.unended]
  refine ⟨_, _, linkStep_intro hc hs, h.receive rfl rfl rfl, ?_, ?_⟩
  · simp only [setEnd_incoming, Function.update_self, List.length_take]
    exact (List.drop_eq_drop_min).symm
  · simp [Link.setEnd]

/-- Where a header starts, a whole one has arrived, so that the read is not short. -/
theorem not_short {p : Pending} {k : ℕ} {uv : Receiver} {incoming : List UInt8}
    {more : List (List UInt8)} (href : Refines uv ⟨p, some k⟩) (hk : k = min p.room (u32 S))
    (hS : 4 ≤ u32 S) (hal : Aligned p incoming more) (hne : incoming ≠ []) :
    ¬ ShortRead uv (incoming.take k) := by
  rintro ⟨hpos, _, hlen, _⟩
  obtain ⟨msg, hm⟩ := Option.ne_none_iff_exists'.mp (href.room k rfl).2
  have hhead : p.head.length = 0 := (href.held msg hm).headPos.symm.trans hpos
  have hroom : p.room = 4 := by rw [Pending.room_head (by omega), hhead]
  have hnil : p.head = [] := List.length_eq_zero_iff.mp hhead
  rw [Aligned, hnil, Pending.body_nil (by omega), List.nil_append, List.nil_append] at hal
  have hlong : 4 ≤ incoming.length := by
    cases more with
    | nil => exact absurd hal hne
    | cons m ms =>
      rw [hal, wire_cons, List.length_append, frame_length]
      omega
  rw [List.length_take] at hlen
  omega

theorem Leads.step {x : Side × Event} {next : Link} {out : List (Side × Effect)}
    {target : List (Option Delivery × Int)} (hs : linkStep heaps link x = some (next, out))
    (hcare : SoundUse S d link x) (hnone : sentBodies d [x] = [])
    (h : Leads S d heaps next (past ++ out) target) : Leads S d heaps link past target := by
  obtain ⟨fs, last, more, hrun, hevery, hsent, hreceived⟩ := h
  refine ⟨x :: fs, last, out ++ more, ?_, ?_, ?_, ?_⟩
  · exact (run_cons_iff _ _ _ _ _ _).mpr ⟨next, out, more, hs, hrun, rfl⟩
  · exact (everyStep_cons fs hs).mpr ⟨hcare, hevery⟩
  · rw [← List.singleton_append, sentBodies_append, hnone, hsent, List.append_nil]
  · rw [← List.append_assoc]
    exact hreceived

/-- When nothing is left to write, what has arrived can be read to its end. -/
theorem drain (hheap : heaps d.other = reliable blocks) (hS : 4 ≤ u32 S) (hst : OpenWay d link)
    (hflows : Flows S d link es past)
    (hdone : (link.ends d).backend.stream.writing.getD [] = []) :
    Leads S d heaps link past ((sentBodies d es).map message) := by
  induction hn : (link.incoming d.other).length using Nat.strong_induction_on
    generalizing link es past with
  | _ n ih =>
    obtain ⟨p, ms, rest, tail, h⟩ := hflows
    have hrest : rest = [] := (h.unwritten hst.unfailed).trans hdone
    have htail : tail = [] := h.ending.resolve_right fun hend => by simp [hst.unended] at hend
    obtain ⟨more, hsent, hal, hcap⟩ := h.ahead
    rw [hrest, List.append_nil] at hal
    by_cases hempty : link.incoming d.other = []
    · have hsmall : ∀ m ∈ more, m.length < 2 ^ 32 :=
        fun m hm => Nat.lt_of_le_of_lt (hcap m hm) (u32_lt S)
      rw [Aligned, hempty, List.append_nil] at hal
      refine ⟨[], link, [], rfl, trivial, rfl, ?_⟩
      rw [List.append_nil, h.calls, htail, hsent, aligned_nil hsmall hal, List.append_nil,
        List.append_nil]
    · obtain ⟨o, href⟩ := h.holds hst.unended
      have hquiet : ∀ r, sentBodies d [(d.other, .recv r)] = [] :=
        fun r => sentBodies_none fun hd => absurd hd (Side.other_ne d)
      obtain ⟨mid, out, hoffer, hmid, hincoming, hsender, hnext⟩ := offer_next hst hheap href
      have hcare : SoundUse S d link (d.other, .recv (.alloc S)) := fun _ => rfl
      have hflows := flows_receiver hcare ⟨p, ms, rest, tail, h⟩ hoffer
      obtain ⟨last, out', hread, hlast, hdrop, hsender'⟩ := read_next hmid hheap hnext
      have hcare' : SoundUse S d mid (d.other, .recv (.read _)) :=
        fun _ => not_short hnext rfl hS (hincoming ▸ hal) (hincoming ▸ hempty)
      have hflows' := flows_receiver hcare' hflows hread
      have hshorter : (last.incoming d.other).length < n := by
        have hpos := List.length_pos_iff.mpr hempty
        have hroom := Pending.room_pos p
        rw [hdrop, List.length_drop, hincoming]
        omega
      have hdone' : (last.ends d).backend.stream.writing.getD [] = [] := by
        rw [hsender', hsender]
        exact hdone
      have hlead := ih _ hshorter hlast hflows' hdone' rfl
      rw [sentBodies_append, sentBodies_append, hquiet, hquiet, List.append_nil, List.append_nil] at hlead
      exact (hlead.step hread hcare' (hquiet _)).step hoffer hcare (hquiet _)

end Moves

/-- Whatever two connected ends have done: as long as the connection stands, everything that one of
them has sent can still be delivered to the other, without another send. -/
theorem delivery_possible (heaps : Side → Heap) (blocks : ℕ → Block) (S : ℕ) (d : Side)
    (left right : ScSocket) (es : List (Side × Event)) (link : Link) (out : List (Side × Effect))
    (hheap : heaps d.other = reliable blocks) (hS : 4 ≤ u32 S)
    (hsend : ((Link.fresh left right).ends d).backend.stream.writing = none)
    (hidle : Idle ((Link.fresh left right).ends d.other).backend.toReceiver)
    (hcare : EveryStep (linkStep heaps) (SoundUse S d) (.fresh left right) es)
    (hrun : run (linkStep heaps) (.fresh left right) es = some (link, out))
    (hst : OpenWay d link) :
    ∃ fs last more, run (linkStep heaps) link fs = some (last, more) ∧
      EveryStep (linkStep heaps) (SoundUse S d) link fs ∧ sentBodies d fs = [] ∧
      received d.other (out ++ more) = (sentBodies d es).map message := by
  have hflows := flows_run hsend hidle hcare hrun
  cases hw : (link.ends d).backend.stream.writing with
  | none => exact drain hheap hS hst hflows (by rw [hw]; rfl)
  | some left =>
    obtain ⟨next, out', hflush, hnext, hempty, _⟩ := flush_all heaps hst hw
    have hcare' : SoundUse S d link (d, .flushed left.length) := trivial
    have hquiet : sentBodies d [(d, .flushed left.length)] = [] := sentBodies_none fun _ => rfl
    have hlead := drain hheap hS hnext (flows_sender hcare' hflows hflush) (by rw [hempty]; rfl)
    rw [sentBodies_append, hquiet, List.append_nil] at hlead
    exact hlead.step hflush hcare' hquiet

/-- Half of a message has arrived. -/
def halfWay : List (Side × Event) :=
  [(.left, .send shortMsg 0), (.left, .flushed 4), (.right, .recv (.alloc 4096)),
    (.right, .recv (.read [0, 0, 0, 1]))]

theorem delivery_possible_half :
    ∃ link out, run (linkStep fun _ => reliable zeroBlocks) (.fresh connectedEnd acceptedEnd)
        halfWay = some (link, out) ∧ received .right out = [] ∧
      ∃ fs last more, run (linkStep fun _ => reliable zeroBlocks) link fs = some (last, more) ∧
        received .right (out ++ more) = [message [7]] := by
  have hcare : EveryStep (linkStep fun _ => reliable zeroBlocks) (SoundUse 4096 .left)
      (.fresh connectedEnd acceptedEnd) halfWay := by
    iterate 4
      refine (everyStep_cons _ rfl).mpr ⟨?_, ?_⟩
      · first
          | exact trivial
          | exact fun _ => ⟨rfl, by decide⟩
          | exact fun _ => rfl
          | exact fun _ hshort => absurd hshort.2.2.1 (by decide)
    trivial
  obtain ⟨fs, last, more, hrun, _, _, hreceived⟩ := delivery_possible
    (fun _ => reliable zeroBlocks) zeroBlocks 4096 .left connectedEnd acceptedEnd halfWay _ _ rfl
    (by decide) rfl ⟨rfl, rfl⟩ hcare rfl ⟨rfl, rfl, rfl, rfl, rfl⟩
  exact ⟨_, _, rfl, rfl, fs, last, more, hrun, hreceived⟩

end ShortCircuit.Delivery
