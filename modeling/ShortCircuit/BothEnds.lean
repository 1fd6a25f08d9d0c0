import ShortCircuit.ByteAccounting
import ShortCircuit.ConnectionIsolation
import ShortCircuit.FrameTiming

set_option autoImplicit false

/-!
# The two ends of a connection

A stream becomes connected in `on_connect_wrap` or in `buv_accept`. Only the second
starts reading, so libuv never reports the bytes that a peer sends to the connecting
end, nor that the peer closed. The traffic is any part of what the peer sends, read in
any chunks, with or without the end of the stream behind it; what is asked for holds
at every moment of it.
-/
namespace ShortCircuit.BothEnds
open WordBytes Message Boundary OutputMachine FrameParser FrameStream FrameTiming
open Receive ReceiveRefinement ReceiveBounds BodyPhase
open Backend Socket SocketRuns FramingRoundTrip ConnectionIsolation
open ByteAccounting (heldBytes heldBytes_pending parserStep_read)

inductive Role where
  | connecting
  | accepting
  deriving DecidableEq, Repr

def establishes : Role → Event → Prop
  | .connecting, .connected errcode => errcode = 0
  | .accepting, .accept _ ans => ans = ⟨0, 0, 0⟩
  | _, _ => False

/-- What libuv reports of the events on a stream: nothing before `uv_read_start`. -/
def reported (s : ScSocket) (es : List ReadEvent) : List ReadEvent :=
  if s.backend.stream.reading then es else []

/-- The reads `es`, and the end of the stream if the peer closes. -/
def traffic (es : List ReadEvent) (closes : Bool) : List ReadEvent :=
  es ++ if closes then [.stop uvEof] else []

def chunk? : ReadEvent → Option (List UInt8)
  | .read bytes => some bytes
  | _ => none

def chunks (es : List ReadEvent) : List (List UInt8) := es.filterMap chunk?

def ending? : ReadEvent → Option (Option Delivery × Int)
  | .stop nread => some (none, readErrcode nread)
  | _ => none

/-- The calls of `on_recv` for the events `es`: the messages of which all bytes have arrived, and
the end of the stream. -/
def Passed (blocks : ℕ → Block) (s : ScSocket) (msgs : List ScMsg) (es : List ReadEvent) : Prop :=
  ∀ v effects, run (step (reliable blocks)) s ((reported s es).map .recv) = some (v, effects) →
    onRecvs effects =
      (whole (msgs.map body) (arrived es).length).map message ++ es.filterMap ending?

/-- The bytes that arrive are read, at every moment the complete messages and the end of the stream
have been passed to `on_recv`, and reading them stays in memory. -/
structure Delivered (blocks : ℕ → Block) (s : ScSocket) (msgs : List ScMsg)
    (es : List ReadEvent) : Prop where
  read : arrived (reported s es) = arrived es
  passed : ∀ part, part <+: es → Passed blocks s msgs part
  inside : ∀ v effects,
    run (step (reliable blocks)) s ((reported s es).map .recv) = some (v, effects) →
      OffersInside effects

/-- The traffic that an end can take. The connecting end can take none. The accepted end can take
what its buffers hold; on a socket without bytes of an earlier connection no read may end at a zero
cut, and with such bytes neither the message in progress nor the first one of the peer may be
completed. -/
def Receivable (blocks : ℕ → Block) (u : ScSocket) (msgs : List ScMsg) (es : List ReadEvent)
    (closes : Bool) : Role → Prop
  | .connecting => arrived es = [] ∧ closes = false
  | .accepting =>
    EveryStep (recvStep (reliable blocks)) AllocFits { u.backend.toReceiver with offered := none }
        (traffic es closes) ∧
      (Clean u → Uncut (msgs.map body) 0 (chunks es)) ∧
      (¬ Clean u → NoFrame (heldBytes u.backend.toReceiver ++ arrived es) ∧
        whole (msgs.map body) (arrived es).length = [])

variable {blocks : ℕ → Block} {S : ℕ}

def OneWay (stream : UvStream) : Prop := (stream.reading && stream.connecting) = false

theorem opened_oneWay {uv v : SocketUv} {effects : List Effect} {ok : Bool}
    (h : Opened uv v effects ok) (hs : OneWay uv.stream) : OneWay v.stream := by
  cases h with
  | untouched hst hr he => exact hst ▸ hs
  | refused proto pre rest hst hr he hpre hrest => exact hst ▸ hs
  | ready proto reading connecting pre rest hone hst hr he hpre hrest =>
    rw [hst]
    exact hone

theorem reachable_oneWay {heap : Heap} {es : List Event} {s : ScSocket} {effects : List Effect}
    (hrun : run (step heap) newSocket es = some (s, effects)) : OneWay s.backend.stream := by
  have hinit : OneWay newSocket.backend.stream := rfl
  refine run_invariant (fun s : ScSocket => OneWay s.backend.stream) ?_ hinit hrun
  intro s e u out hs h
  cases step_stepped h with
  | opened e u effects hopen h => exact opened_oneWay h hs
  | submitted msg result =>
    simp only [scSocketSend, buvSend]
    split <;> exact hs
  | closing => rfl
  | connected errcode hc => exact Bool.and_false _
  | _ => exact hs

theorem Sized.forget {uv : Receiver} (h : Sized S uv) : Sized S { uv with offered := none } :=
  ⟨⟨_, Refines.forget h.1.choose_spec⟩, h.2⟩

theorem reachable_sized {es : List Event} {s : ScSocket} {effects : List Effect}
    (hconst : ∀ sg, .recv (.alloc sg) ∈ es → sg = S)
    (hrun : run (step (reliable blocks)) newSocket es = some (s, effects)) :
    Sized S s.backend.toReceiver :=
  run_receiver (E := fun e => ∀ sg, e = .alloc sg → sg = S) (sized_init S) (fun _ h => Sized.forget h)
    (fun _ _ _ _ he h hs => sized_step he h hs) (fun _ he sg heq => hconst sg (heq ▸ he)) hrun

section Traffic

variable {es : List ReadEvent} {closes : Bool}

theorem chunks_flatten (es : List ReadEvent) : (chunks es).flatten = arrived es := by
  induction es with
  | nil => rfl
  | cons e es ih =>
    cases e with
    | read bytes =>
      rw [arrived, List.flatMap_cons, ← arrived, ← ih]
      rfl
    | _ => exact ih

theorem arrived_traffic (es : List ReadEvent) (closes : Bool) :
    arrived (traffic es closes) = arrived es := by
  cases closes <;> simp [arrived, traffic, arrivedIn]

theorem endings_open (hopen : ∀ nread, .stop nread ∉ es) : es.filterMap ending? = [] := by
  rw [List.filterMap_eq_nil_iff]
  intro e he
  cases e with
  | stop nread => exact absurd he (hopen nread)
  | _ => rfl

theorem alloc_mem_traffic {sg : ℕ} (h : .alloc sg ∈ traffic es closes) : .alloc sg ∈ es := by
  cases closes <;> simpa [traffic] using h

/-- A property of every part of the traffic concerns the parts of the reads and the whole. -/
theorem forall_traffic {P : List ReadEvent → Prop} :
    (∀ part, part <+: traffic es closes → P part) ↔
      (∀ part, part <+: es → P part) ∧ (closes = true → P (es ++ [.stop uvEof])) := by
  cases closes with
  | false => simp [traffic]
  | true =>
    simp only [traffic, if_true, List.prefix_concat_iff]
    constructor
    · intro h
      exact ⟨fun part hpart => h part (.inr hpart), fun _ => h _ (.inl rfl)⟩
    · rintro ⟨hparts, hend⟩ part (rfl | hpart)
      · exact hend trivial
      · exact hparts part hpart

end Traffic

theorem parser_chunks {p q : Parser} {es : List ReadEvent} {outs : List (Option Delivery × Int)}
    (hroom : ∀ k, p.offered = some k → k ≤ p.pending.room) (hopen : ∀ nread, .stop nread ∉ es)
    (h : run parserStep p es = some (q, outs)) :
    Fits p.pending (chunks es) ∧ outs = (feedAll p.pending (chunks es)).2.map message := by
  induction es generalizing p outs with
  | nil =>
    obtain ⟨_, rfl⟩ := Prod.mk.inj (Option.some.inj h)
    exact ⟨trivial, rfl⟩
  | cons e es ih =>
    have hlater : ∀ nread, .stop nread ∉ es := fun n hn => hopen n (List.mem_cons_of_mem _ hn)
    obtain ⟨r, out, rest, hr, hrest, rfl⟩ := (run_cons_iff _ _ _ _ _ _).mp h
    cases e with
    | alloc sg =>
      obtain ⟨rfl, rfl⟩ := Prod.mk.inj (Option.some.inj hr)
      refine ih (p := ⟨p.pending, some (min p.pending.room (u32 sg))⟩) ?_ hlater hrest
      intro k hk
      rw [← Option.some.inj hk]
      exact Nat.min_le_left _ _
    | read bytes =>
      obtain ⟨k, hk, hle, rfl, rfl⟩ := parserStep_read hr
      obtain ⟨hfit, rfl⟩ := ih (p := ⟨(p.pending.feed bytes).1, none⟩) (fun _ hno => (nomatch hno))
        hlater hrest
      refine ⟨⟨hle.trans (hroom k hk), hfit⟩, ?_⟩
      rw [← List.map_append]
      rfl
    | stop nread => exact absurd List.mem_cons_self (hopen nread)

section Receiving

variable {uv v : Receiver} {p : Parser} {es : List ReadEvent} {effects : List Effect}

theorem received_chunks (hr : Refines uv p) (hopen : ∀ nread, .stop nread ∉ es)
    (hrun : run (recvStep (reliable blocks)) uv es = some (v, effects)) :
    Fits p.pending (chunks es) ∧
      onRecvs effects = (feedAll p.pending (chunks es)).2.map message := by
  have hag := recvRun_agree blocks hr es
  rw [hrun] at hag
  obtain ⟨q, outs, hq, _, hout⟩ := agree_some hag
  obtain ⟨hfit, rfl⟩ := parser_chunks (fun k hk => (hr.room k hk).1) hopen hq
  exact ⟨hfit, hout⟩

theorem run_part {part : List ReadEvent} (hpart : part <+: es)
    (hrun : run (recvStep (reliable blocks)) uv es = some (v, effects)) :
    ∃ w out, run (recvStep (reliable blocks)) uv part = some (w, out) := by
  obtain ⟨rest, rfl⟩ := hpart
  obtain ⟨w, out, _, hw, _⟩ := (run_append_iff _ _ _ _ _ _).mp hrun
  exact ⟨w, out, hw⟩

theorem message_injective : Function.Injective message := by
  intro a b h
  simp only [message, Prod.mk.injEq, Option.some.injEq, Delivery.mk.injEq] at h
  exact h.1.2

/-- The messages are passed on at every moment exactly when the parser is timely. -/
theorem passed_timely (hr : Refines uv p) (hopen : ∀ nread, .stop nread ∉ es)
    (hrun : run (recvStep (reliable blocks)) uv es = some (v, effects))
    (ms : List (List UInt8)) :
    (∀ part, part <+: es → ∀ w out, run (recvStep (reliable blocks)) uv part = some (w, out) →
        onRecvs out = (whole ms (arrived part).length).map message) ↔
      ∀ cs, cs <+: chunks es → (feedAll p.pending cs).2 = whole ms cs.flatten.length := by
  have hcalls : ∀ part w out, part <+: es →
      run (recvStep (reliable blocks)) uv part = some (w, out) →
      onRecvs out = (feedAll p.pending (chunks part)).2.map message := by
    intro part w out hpart hw
    exact (received_chunks hr (fun n hn => hopen n (hpart.subset hn)) hw).2
  constructor
  · intro h cs hcs
    obtain ⟨part, hpart, rfl⟩ := List.prefix_filterMap_iff.mp hcs
    obtain ⟨w, out, hw⟩ := run_part hpart hrun
    have hone := h part hpart w out hw
    rw [hcalls part w out hpart hw, ← chunks_flatten] at hone
    exact message_injective.list_map hone
  · intro h part hpart w out hw
    rw [hcalls part w out hpart hw, h (chunks part) (hpart.filterMap _), chunks_flatten]

theorem stop_received {out : List Effect}
    (hrun : run (recvStep (reliable blocks)) uv (es ++ [.stop uvEof]) = some (v, out)) :
    ∃ w first, run (recvStep (reliable blocks)) uv es = some (w, first) ∧
      onRecvs out = onRecvs first ++ [(none, 0)] := by
  obtain ⟨w, first, last, hw, hlast, rfl⟩ := (run_append_iff _ _ _ _ _ _).mp hrun
  obtain ⟨_, _, _, hstop, hnil, rfl⟩ := (run_cons_iff _ _ _ _ _ _).mp hlast
  obtain ⟨_, rfl⟩ := Prod.mk.inj (Option.some.inj hnil)
  obtain ⟨_, rfl⟩ := Prod.mk.inj (Option.some.inj hstop)
  refine ⟨w, first, hw, ?_⟩
  rw [List.append_nil, onRecvs_append]
  rfl

end Receiving

theorem connecting_receives {before : List Event} {u s : ScSocket} {e : Event}
    {past out : List Effect} (msgs : List ScMsg) {es : List ReadEvent} {closes : Bool}
    (hopen : ∀ nread, .stop nread ∉ es)
    (hbefore : run (step (reliable blocks)) newSocket before = some (u, past))
    (he : establishes .connecting e) (hstep : step (reliable blocks) u e = some (s, out)) :
    Delivered blocks s msgs (traffic es closes) ↔ Receivable blocks u msgs es closes .connecting := by
  have hdeaf : s.backend.stream.reading = false := by
    cases step_stepped hstep with
    | connected errcode hc =>
      have hone := reachable_oneWay hbefore
      rwa [OneWay, hc, Bool.and_true] at hone
    | opened e u effects hopen h => cases e <;> first | exact absurd he id | exact absurd hopen id
    | _ => exact absurd he id
  have hnone : ∀ part, reported s part = [] := fun part => if_neg (by simp [hdeaf])
  have hrun : ∀ part v effects,
      run (step (reliable blocks)) s ((reported s part).map .recv) = some (v, effects) →
        effects = [] := by
    intro part v effects h
    rw [hnone, List.map_nil, run_nil] at h
    exact (Prod.mk.inj (Option.some.inj h)).2.symm
  constructor
  · intro h
    have hbytes := h.read
    rw [hnone, arrived_traffic] at hbytes
    refine ⟨hbytes.symm, ?_⟩
    cases closes with
    | false => rfl
    | true =>
      have hend := h.passed _ List.prefix_rfl s [] (by rw [hnone]; rfl)
      simp [traffic, ending?] at hend
  · rintro ⟨hbytes, rfl⟩
    refine ⟨?_, ?_, ?_⟩
    · rw [hnone, arrived_traffic, hbytes]
      rfl
    · intro part hpart v effects h
      rw [traffic, if_neg (by simp), List.append_nil] at hpart
      have hempty : arrived part = [] := by
        obtain ⟨rest, rfl⟩ := hpart
        rw [arrived, List.flatMap_append, List.append_eq_nil_iff] at hbytes
        exact hbytes.1
      rw [hrun part v effects h, hempty, List.length_nil, whole_short _ (by decide),
        endings_open fun n hn => hopen n (hpart.subset hn)]
      rfl
    · intro v effects h
      rw [hrun _ v effects h]
      intro _ _ hno
      cases hno

theorem passed_accepted {u v : ScSocket} {proto : Proto} {p : Parser} {es : List ReadEvent}
    {effects : List Effect} (closes : Bool) (msgs : List ScMsg)
    (hr : Refines { u.backend.toReceiver with offered := none } p)
    (hopen : ∀ nread, .stop nread ∉ es)
    (hrun : run (step (reliable blocks)) (acceptedSocket u proto) (es.map .recv) =
      some (v, effects)) :
    (∀ part, part <+: traffic es closes → Passed blocks (acceptedSocket u proto) msgs part) ↔
      ∀ cs, cs <+: chunks es →
        (feedAll p.pending cs).2 = whole (msgs.map body) cs.flatten.length := by
  have hpassed : ∀ part, Passed blocks (acceptedSocket u proto) msgs part ↔
      ∀ w out, run (recvStep (reliable blocks)) { u.backend.toReceiver with offered := none } part =
          some (w, out) →
        onRecvs out =
          (whole (msgs.map body) (arrived part).length).map message ++ part.filterMap ending? := by
    intro part
    have hrep : reported (acceptedSocket u proto) part = part := if_pos rfl
    rw [Passed, hrep, run_recv (s := acceptedSocket u proto) _ rfl rfl]
    constructor
    · intro h w out hw
      exact h _ out (by
        change Option.map _ (run _ { u.backend.toReceiver with offered := none } part) = _
        rw [hw]
        rfl)
    · intro h v effects hv
      obtain ⟨⟨w, outs⟩, hw, heq⟩ := Option.map_eq_some_iff.mp hv
      obtain ⟨_, rfl⟩ := Prod.mk.inj heq
      exact h w outs hw
  rw [run_recv (s := acceptedSocket u proto) _ rfl rfl] at hrun
  obtain ⟨⟨w, outs⟩, hw, _⟩ := Option.map_eq_some_iff.mp hrun
  rw [forall_traffic, ← passed_timely hr hopen hw]
  simp only [hpassed]
  constructor
  · rintro ⟨h, _⟩ part hpart w out hout
    have hone := h part hpart w out hout
    rwa [endings_open fun n hn => hopen n (hpart.subset hn), List.append_nil] at hone
  · intro h
    refine ⟨?_, ?_⟩
    · intro part hpart w out hout
      rw [endings_open fun n hn => hopen n (hpart.subset hn), List.append_nil]
      exact h part hpart w out hout
    · intro _ w out hout
      obtain ⟨r, first, hfirst, hcalls⟩ := stop_received hout
      have hbytes : arrived (es ++ [.stop uvEof]) = arrived es := arrived_traffic es true
      rw [hcalls, h es List.prefix_rfl r first hfirst, hbytes, List.filterMap_append,
        endings_open hopen]
      rfl

/-- On the accepted end the parser is timely when it starts between two frames and no read ends at
a zero cut, or when nothing is completed. -/
theorem accepted_timely {u : ScSocket} {p : Parser} {ms : List (List UInt8)}
    {es : List ReadEvent} (hp : Refines u.backend.toReceiver p)
    (hfit : Fits p.pending (chunks es)) (hsize : ∀ m ∈ ms, m.length < 2 ^ 32)
    (hsent : arrived es <+: wire ms) :
    (∀ cs, cs <+: chunks es → (feedAll p.pending cs).2 = whole ms cs.flatten.length) ↔
      (Clean u → Uncut ms 0 (chunks es)) ∧
        (¬ Clean u → NoFrame (heldBytes u.backend.toReceiver ++ arrived es) ∧
          whole ms (arrived es).length = []) := by
  rw [clean_iff hp, heldBytes_pending hp, ← chunks_flatten]
  by_cases hclean : p.pending = .empty
  · obtain ⟨rest, hrest⟩ := hsent
    rw [← chunks_flatten] at hrest
    have hal : Aligned .empty ((chunks es).flatten ++ rest) ms := hrest
    have htimely := timely_iff hsize (hclean ▸ hfit) hal
    simp only [pendingBytes_empty, List.length_nil, Nat.zero_add] at htimely
    simp only [hclean, forall_const, not_true_eq_false, false_implies, and_true]
    exact htimely
  · have hhead : p.pending.head ≠ [] := by
      intro hnil
      exact hclean (Pending.ext hnil (Pending.body_nil (by rw [hnil]; decide)))
    have hpos : 0 < (pendingBytes p.pending).length := by
      rw [pendingBytes, List.length_append]
      have := List.length_pos_iff.mpr hhead
      omega
    have hstale := stale_timely_iff ms hhead hpos hfit
    simp only [Nat.zero_add, feedAll_silent_iff hhead hfit] at hstale
    simp only [hclean, not_false_eq_true, forall_const, false_implies, true_and]
    exact hstale

theorem accepting_receives {before : List Event} {u s v : ScSocket} {e : Event}
    {past out effects : List Effect} {msgs : List ScMsg} {es : List ReadEvent} {closes : Bool}
    (hconst : ∀ sg, .recv (.alloc sg) ∈ before → sg = S) (hsame : ∀ sg, .alloc sg ∈ es → sg = S)
    (hopen : ∀ nread, .stop nread ∉ es)
    (hbefore : run (step (reliable blocks)) newSocket before = some (u, past))
    (he : establishes .accepting e) (hstep : step (reliable blocks) u e = some (s, out))
    (hsent : arrived es <+: sentStream msgs)
    (hrun : run (step (reliable blocks)) s ((reported s (traffic es closes)).map .recv) =
      some (v, effects)) :
    Delivered blocks s msgs (traffic es closes) ↔ Receivable blocks u msgs es closes .accepting := by
  obtain ⟨proto, rfl⟩ : ∃ proto, e = .accept proto ⟨0, 0, 0⟩ := by
    cases e with
    | accept proto ans => exact ⟨proto, by rw [show ans = ⟨0, 0, 0⟩ from he]⟩
    | _ => exact absurd he id
  have hproto : proto ≠ .noset := by
    rintro rfl
    cases hstep
  rw [accept_ok _ u hproto] at hstep
  obtain ⟨rfl, _⟩ := Prod.mk.inj (Option.some.inj hstep)
  have hrep : ∀ part, reported (acceptedSocket u proto) part = part := fun part => if_pos rfl
  rw [hrep] at hrun
  obtain ⟨p, hp⟩ := reachable_refines hbefore
  have hr := Refines.forget hp
  have hreads : ∃ w out, run (step (reliable blocks)) (acceptedSocket u proto) (es.map .recv) =
      some (w, out) := by
    rw [traffic, List.map_append] at hrun
    obtain ⟨w, out, _, hw, _⟩ := (run_append_iff _ _ _ _ _ _).mp hrun
    exact ⟨w, out, hw⟩
  obtain ⟨w, outs, hw⟩ := hreads
  have hw' := hw
  rw [run_recv (s := acceptedSocket u proto) _ rfl rfl] at hw'
  obtain ⟨⟨r, more⟩, hmore, _⟩ := Option.map_eq_some_iff.mp hw'
  have hfit := (received_chunks (p := ⟨p.pending, none⟩) hr hopen hmore).1
  rw [sentStream_wire] at hsent
  have hsize : ∀ m ∈ msgs.map body, m.length < 2 ^ 32 :=
    List.forall_mem_map.mpr fun m _ => body_lt m
  have htimely := accepted_timely hp hfit hsize hsent
  have hpassed := (passed_accepted closes msgs hr hopen hw).trans htimely
  have hrun' := hrun
  rw [run_recv (s := acceptedSocket u proto) _ rfl rfl] at hrun'
  obtain ⟨⟨r', all⟩, hall, heq⟩ := Option.map_eq_some_iff.mp hrun'
  obtain ⟨_, rfl⟩ := Prod.mk.inj heq
  have hinside := offersInside_iff (fun sg h => hsame sg (alloc_mem_traffic h))
    (Sized.forget (reachable_sized hconst hbefore)) hall
  constructor
  · intro h
    have hin := h.inside v all (by rw [hrep]; exact hrun)
    exact ⟨hinside.mp hin, hpassed.mp h.passed⟩
  · rintro ⟨hfits, hmoments⟩
    refine ⟨by rw [hrep], hpassed.mpr hmoments, ?_⟩
    intro v' effects' h
    rw [hrep, hrun] at h
    obtain ⟨_, rfl⟩ := Prod.mk.inj (Option.some.inj h)
    exact hinside.mpr hfits

/-- What arrives at an established end is read and delivered exactly when that end can take it. -/
theorem ends_receive (blocks : ℕ → Block) (S : ℕ) (before : List Event) (u : ScSocket)
    (past : List Effect) (role : Role) (e : Event) (s : ScSocket) (out : List Effect)
    (msgs : List ScMsg) (es : List ReadEvent) (closes : Bool) (v : ScSocket)
    (effects : List Effect) (hconst : ∀ sg, .recv (.alloc sg) ∈ before → sg = S)
    (hsame : ∀ sg, .alloc sg ∈ es → sg = S) (hopen : ∀ nread, .stop nread ∉ es)
    (hbefore : run (step (reliable blocks)) newSocket before = some (u, past))
    (he : establishes role e) (hstep : step (reliable blocks) u e = some (s, out))
    (hsent : arrived es <+: sentStream msgs)
    (hrun : run (step (reliable blocks)) s ((reported s (traffic es closes)).map .recv) =
      some (v, effects)) :
    Delivered blocks s msgs (traffic es closes) ↔ Receivable blocks u msgs es closes role := by
  cases role with
  | connecting => exact connecting_receives msgs hopen hbefore he hstep
  | accepting => exact accepting_receives hconst hsame hopen hbefore he hstep hsent hrun

def shortReads : List ReadEvent :=
  [.alloc 65536, .read [0, 0, 0, 1], .alloc 65536, .read [7], .alloc 65536]

theorem accepting_end_receives :
    ∃ s out, step (reliable zeroBlocks) newSocket (.accept .tcp ⟨0, 0, 0⟩) = some (s, out) ∧
      Receivable zeroBlocks newSocket [shortMsg] shortReads true .accepting ∧
      Delivered zeroBlocks s [shortMsg] (traffic shortReads true) := by
  have h := ends_receive zeroBlocks 65536 [] newSocket [] .accepting (.accept .tcp ⟨0, 0, 0⟩) _ _
    [shortMsg] shortReads true _ _ (by simp) (by simp [shortReads]) (by simp [shortReads]) rfl rfl
    rfl ⟨[], by decide⟩ rfl
  have hr : Receivable zeroBlocks newSocket [shortMsg] shortReads true .accepting := by
    refine ⟨?_, fun _ => ?_, fun hno => absurd (.inl rfl) hno⟩
    · obtain ⟨v, effects, hrun, hin⟩ : ∃ v effects, run (recvStep (reliable zeroBlocks)) .init
          (traffic shortReads true) = some (v, effects) ∧ OffersInside effects :=
        ⟨_, _, rfl, by decide⟩
      exact (offersInside_iff (by simp [traffic, shortReads]) (sized_init 65536) hrun).mp hin
    · have hsize : ∀ m ∈ [[(7 : UInt8)]], m.length < 2 ^ 32 := by decide
      have hfit : Fits .empty [[0, 0, 0, 1], [7]] := ⟨by decide, by decide, trivial⟩
      exact (feedAll_iff hsize hfit rfl).mp rfl
  exact ⟨_, _, rfl, hr, h.mpr hr⟩

/-- A client that connects to a pipe; the server sends it a message and closes. -/
theorem connecting_end_deaf :
    ∃ u past s out,
      run (step (reliable zeroBlocks)) newSocket [.connect pipeUri noErrors] = some (u, past) ∧
      step (reliable zeroBlocks) u (.connected 0) = some (s, out) ∧ out = [.onConnect 0] ∧
      arrived shortReads = sentStream [shortMsg] ∧
      reported s (traffic shortReads true) = [] ∧
      ¬ Delivered zeroBlocks s [shortMsg] (traffic shortReads true) := by
  refine ⟨_, _, _, _, rfl, rfl, rfl, by decide, rfl, ?_⟩
  intro h
  exact absurd h.read (by decide)

end ShortCircuit.BothEnds
