import ShortCircuit.ReceiveBounds
import ShortCircuit.SocketRuns

set_option autoImplicit false

/-!
# Framing round trip

The stream that `buv_send` writes for a list of messages comes out of the read
callbacks as that list, unless a read ends inside the header of a message with only
zero bytes of that header received: `msg_reader_finished` does not look at the head
position, so it takes such a header for an empty message.
-/
namespace ShortCircuit.FramingRoundTrip
open WordBytes Message Boundary OutputMachine FrameParser Receive ReceiveRefinement ReceiveBounds
open Backend Socket SocketRuns

def body (m : ScMsg) : List UInt8 := m.data.load (scMsgGetSize m)

/-- The bytes that `buv_send` passes to libuv for these messages, one after the other. -/
def sentStream (msgs : List ScMsg) : List UInt8 := msgs.flatMap fun m => (sendBuffers m).flatten

theorem sendBuffers_frame (m : ScMsg) : (sendBuffers m).flatten = frame (body m) := by
  have hword : bytes32 (scMsgGetSize m) = m.sizeBe.load 4 := bytes32_value (Area.load_length _ _)
  simp only [sendBuffers, List.flatten_cons, List.flatten_nil, List.append_nil, frame, body,
    Area.load_length, hword]
  rfl

theorem sentStream_wire (msgs : List ScMsg) : sentStream msgs = wire (msgs.map body) := by
  simp only [sentStream, wire, sendBuffers_frame, List.flatMap_map]

theorem message_body (m : ScMsg) : message (body m) = (some (deliver m), 0) := by
  simp only [message, deliver, body, Area.load_length]

theorem map_deliver (msgs : List ScMsg) :
    msgs.map (fun m => (some (deliver m), (0 : Int))) = (msgs.map body).map message := by
  simp only [List.map_map, ← message_body]
  rfl

theorem body_lt (m : ScMsg) : (body m).length < 2 ^ 32 := by
  rw [body, Area.load_length]
  exact scMsgGetSize_lt m

/-- What libuv does after the last byte: nothing while the peer stays connected, else it reports
the end of the stream, with or without asking for a buffer first. -/
def endEvents (S : ℕ) : Option Bool → List ReadEvent
  | none => []
  | some asked => (if asked then [.alloc S] else []) ++ [.stop uvEof]

def endCalls : Option Bool → List (Option Delivery × Int)
  | none => []
  | some _ => [(none, 0)]

def streamEvents (S : ℕ) (chunks : List (List UInt8)) (ending : Option Bool) : List ReadEvent :=
  chunkEvents S chunks ++ endEvents S ending

theorem streamEvents_cons (S : ℕ) (c : List UInt8) (cs : List (List UInt8))
    (ending : Option Bool) :
    streamEvents S (c :: cs) ending = .alloc S :: .read c :: streamEvents S cs ending := by
  simp [streamEvents, chunkEvents]

theorem alloc_mem_streamEvents {S sg : ℕ} {chunks : List (List UInt8)} {ending : Option Bool}
    (h : .alloc sg ∈ streamEvents S chunks ending) : sg = S := by
  rcases ending with _ | _ | _ <;> simp [streamEvents, chunkEvents, endEvents] at h <;> omega

theorem parser_end (q : Parser) (S : ℕ) (ending : Option Bool) :
    ∃ q', run parserStep q (endEvents S ending) = some (q', endCalls ending) := by
  rcases ending with _ | _ | _ <;> exact ⟨_, rfl⟩

theorem parser_read {p : Pending} {o : Option ℕ} {S : ℕ} {c : List UInt8} {es : List ReadEvent}
    {q : Parser} {outs : List (Option Delivery × Int)}
    (h : run parserStep ⟨p, o⟩ (.alloc S :: .read c :: es) = some (q, outs)) :
    c.length ≤ p.room ∧ ∃ rest, run parserStep ⟨(p.feed c).1, none⟩ es = some (q, rest) ∧
      outs = (p.feed c).2.map message ++ rest := by
  obtain ⟨u, out, outs', hu, h', rfl⟩ := (run_cons_iff _ _ _ _ _ _).mp h
  obtain ⟨rfl, rfl⟩ := Prod.mk.inj (Option.some.inj hu)
  obtain ⟨w, out, rest, hw, hrest, rfl⟩ := (run_cons_iff _ _ _ _ _ _).mp h'
  simp only [parserStep] at hw
  split at hw
  · rename_i hle
    obtain ⟨rfl, rfl⟩ := Prod.mk.inj (Option.some.inj hw)
    exact ⟨hle.trans (Nat.min_le_left _ _), rest, hrest, rfl⟩
  · cases hw

theorem parser_stream {p : Pending} {o : Option ℕ} {S : ℕ} {chunks : List (List UInt8)}
    {ending : Option Bool} {q : Parser} {outs : List (Option Delivery × Int)}
    (h : run parserStep ⟨p, o⟩ (streamEvents S chunks ending) = some (q, outs)) :
    Fits p chunks ∧ outs = (feedAll p chunks).2.map message ++ endCalls ending := by
  induction chunks generalizing p o outs with
  | nil =>
    obtain ⟨q', hq'⟩ := parser_end ⟨p, o⟩ S ending
    rw [streamEvents, chunkEvents, List.flatMap_nil, List.nil_append, hq'] at h
    obtain ⟨_, rfl⟩ := Prod.mk.inj (Option.some.inj h)
    exact ⟨trivial, rfl⟩
  | cons c cs ih =>
    rw [streamEvents_cons] at h
    obtain ⟨hle, rest, hrest, rfl⟩ := parser_read h
    obtain ⟨hfit, rfl⟩ := ih hrest
    refine ⟨⟨hle, hfit⟩, ?_⟩
    rw [feedAll_cons, List.map_append, List.append_assoc]

theorem map_message_inj {xs ys : List (List UInt8)} {calls : List (Option Delivery × Int)} :
    xs.map message ++ calls = ys.map message ++ calls ↔ xs = ys := by
  rw [List.append_cancel_right_eq]
  apply (List.map_injective_iff.mpr ?_).eq_iff
  intro a b h
  simp only [message, Prod.mk.injEq, Option.some.injEq, Delivery.mk.injEq] at h
  exact h.1.2

variable {blocks : ℕ → Block} {S : ℕ}

theorem aligned_not_oversized {uv : Receiver} {p : Parser} {rest : List UInt8}
    {ms : List (List UInt8)} (hr : Refines uv p) (hs : Sized S uv)
    (hal : Aligned p.pending rest ms) (hcap : ∀ m ∈ ms, m.length ≤ u32 S) : ¬ Oversized uv := by
  rintro ⟨msg, hm, hlt, hpos⟩
  have hheld := hr.held msg hm
  rw [hheld.bodyPos] at hpos
  have h4 := p.pending.head_full (List.length_pos_iff.mp hpos)
  rw [hs.2 msg hm, hheld.size] at hlt
  cases ms with
  | nil =>
    have hlen := congrArg List.length hal
    simp only [List.length_append, wire_nil, List.length_nil] at hlen
    omega
  | cons m ms =>
    have hle := hcap m List.mem_cons_self
    have hsz : m.length < 2 ^ 32 := Nat.lt_of_le_of_lt hle (u32_lt S)
    rw [(aligned_body hal h4).1, leading_bytes32 hsz] at hlt
    omega

theorem read_refines {uv v : Receiver} {p : Pending} {k : ℕ} {c : List UInt8}
    {effects : List Effect} (hr : Refines uv ⟨p, some k⟩)
    (h : recvStep (reliable blocks) uv (.read c) = some (v, effects)) :
    c.length ≤ k ∧ Refines v ⟨(p.feed c).1, none⟩ := by
  have hag := read_agree blocks hr c
  rw [h] at hag
  by_cases hk : c.length ≤ k
  · simp only [parserStep, hk, if_true] at hag
    cases hag with
    | some hv => exact ⟨hk, hv.1⟩
  · simp only [parserStep, hk, if_false] at hag
    cases hag

theorem alloc_refines {uv v : Receiver} {p : Parser} {effects : List Effect} (hr : Refines uv p)
    (h : recvStep (reliable blocks) uv (.alloc S) = some (v, effects)) :
    Refines v ⟨p.pending, some (min p.pending.room (u32 S))⟩ := by
  have hag := alloc_agree blocks hr S
  rw [h] at hag
  cases hag with
  | some hv => exact hv.1

theorem end_allocFits (heap : Heap) {uv : Receiver} (S : ℕ) (ending : Option Bool)
    (h : ¬ Oversized uv) : EveryStep (recvStep heap) AllocFits uv (endEvents S ending) := by
  have hstop : ∀ w, EveryStep (recvStep heap) AllocFits w [.stop uvEof] :=
    fun w => ⟨allocFits_stop w uvEof, fun _ _ _ => trivial⟩
  rcases ending with _ | _ | _
  · trivial
  · exact hstop uv
  · exact ⟨fun _ => h, fun u _ _ => hstop u⟩

theorem feed_fits {uv : Receiver} {p : Parser} {c : List UInt8} (hr : Refines uv p)
    (hs : Sized S uv) (hfit : ¬ Oversized uv) (hroom : c.length ≤ p.pending.room)
    (hle : c.length ≤ u32 S) : ∀ m ∈ (p.pending.feed c).2, m.length ≤ u32 S := by
  by_cases hc : c = []
  · simp [hc]
  · have ht := Pending.feed_taken p.pending c hc hroom
    generalize (p.pending.feed c).1 = q at ht
    generalize (p.pending.feed c).2 = out at ht ⊢
    cases ht with
    | early hh hz => simp
    | header hh hz _ hq hb => simp
    | partway hh hd _ hq hb => simp
    | done hh hd =>
      rw [List.forall_mem_singleton, List.length_append]
      by_cases hb : p.pending.body = []
      · rw [hb, List.length_nil, Nat.zero_add]
        exact hle
      · cases hm : uv.msg with
        | none => exact absurd (by rw [hr.idle hm]; rfl) hb
        | some msg =>
          have hheld := hr.held msg hm
          have hpos : 0 < uv.reader.bodyPos := by
            rw [hheld.bodyPos]
            exact List.length_pos_iff.mpr hb
          by_contra hgt
          refine hfit ⟨msg, hm, ?_, hpos⟩
          rw [hs.2 msg hm, hheld.size, ← hd]
          omega

theorem chunk_step {uv u w : Receiver} {p : Parser} {c : List UInt8} {out out' : List Effect}
    (hr : Refines uv p) (hs : Sized S uv)
    (hu : recvStep (reliable blocks) uv (.alloc S) = some (u, out))
    (hw : recvStep (reliable blocks) u (.read c) = some (w, out')) :
    c.length ≤ p.pending.room ∧ c.length ≤ u32 S ∧ Refines w ⟨(p.pending.feed c).1, none⟩ ∧
      Sized S w := by
  have hru := alloc_refines hr hu
  obtain ⟨hle, hrw⟩ := read_refines hru hw
  have hsu := sized_step (fun sg h => ReadEvent.alloc.inj h.symm) hs hu
  refine ⟨hle.trans (Nat.min_le_left _ _), hle.trans (Nat.min_le_right _ _), hrw,
    sized_step (by intro _ h; cases h) hsu hw⟩

theorem stream_allocFits {uv v : Receiver} {p : Parser} {chunks ms : List (List UInt8)}
    {ending : Option Bool} {effects : List Effect} (hr : Refines uv p) (hs : Sized S uv)
    (hsize : ∀ m ∈ ms, m.length < 2 ^ 32) (hal : Aligned p.pending chunks.flatten ms)
    (hcut : Uncut ms (p.pending.head.length + p.pending.body.length) chunks)
    (hrun : run (recvStep (reliable blocks)) uv (streamEvents S chunks ending) =
      some (v, effects)) :
    EveryStep (recvStep (reliable blocks)) AllocFits uv (streamEvents S chunks ending) ↔
      ∀ m ∈ ms, m.length ≤ u32 S := by
  induction chunks generalizing uv p ms effects with
  | nil =>
    obtain rfl := aligned_nil hsize (by simpa [Aligned] using hal)
    refine iff_of_true ?_ (by simp)
    exact end_allocFits (reliable blocks) S ending (aligned_not_oversized hr hs hal (by simp))
  | cons c cs ih =>
    rw [streamEvents_cons] at hrun ⊢
    rw [List.flatten_cons] at hal
    obtain ⟨u, out, _, hu, hrun, _⟩ := (run_cons_iff _ _ _ _ _ _).mp hrun
    obtain ⟨w, out', outs, hw, hrun, _⟩ := (run_cons_iff _ _ _ _ _ _).mp hrun
    obtain ⟨hroom, hle, hrw, hsw⟩ := chunk_step hr hs hu hw
    obtain ⟨hnow, hlater⟩ := (uncut_cons _ _ _ _).mp hcut
    rcases feed_aligned hsize hroom hal with ⟨_, ms', hms, hal', hiff⟩ | ⟨hbad, _⟩
    · have hrest := ih hrw hsw (fun m hm => hsize m (by rw [hms]; exact List.mem_append_right _ hm))
        hal' ((hiff cs).mp hlater) hrun
      rw [everyStep_cons _ hu, everyStep_cons _ hw, hrest, and_iff_right (allocFits_read u c)]
      constructor
      · rintro ⟨hfit, hfits'⟩
        rw [hms, List.forall_mem_append]
        exact ⟨feed_fits hr hs (hfit ⟨S, rfl⟩) hroom hle, hfits'⟩
      · intro hcap
        refine ⟨fun _ => aligned_not_oversized hr hs hal hcap, ?_⟩
        intro m hm
        exact hcap m (by rw [hms]; exact List.mem_append_right _ hm)
    · exact absurd hbad hnow

/-- What a receiver between two frames makes of the stream of `ms`. -/
theorem stream_received {uv v : Receiver} {o : Option ℕ} {chunks ms : List (List UInt8)}
    {ending : Option Bool} {effects : List Effect} (hr : Refines uv ⟨.empty, o⟩)
    (hsize : ∀ m ∈ ms, m.length < 2 ^ 32) (hwire : chunks.flatten = wire ms)
    (hrun : run (recvStep (reliable blocks)) uv (streamEvents S chunks ending) =
      some (v, effects)) :
    onRecvs effects = ms.map message ++ endCalls ending ↔ Uncut ms 0 chunks := by
  have hag := recvRun_agree blocks hr (streamEvents S chunks ending)
  rw [hrun] at hag
  cases hp : run parserStep ⟨.empty, o⟩ (streamEvents S chunks ending) with
  | none =>
    rw [hp] at hag
    cases hag
  | some r =>
    obtain ⟨q, outs⟩ := r
    rw [hp] at hag
    obtain ⟨hfit, rfl⟩ := parser_stream hp
    cases hag with
    | some hout =>
      rw [hout.2, id, map_message_inj]
      exact feedAll_iff hsize hfit hwire

theorem stream_offersInside {uv v : Receiver} {o : Option ℕ} {chunks ms : List (List UInt8)}
    {ending : Option Bool} {effects : List Effect} (hr : Refines uv ⟨.empty, o⟩)
    (hs : Sized S uv) (hsize : ∀ m ∈ ms, m.length < 2 ^ 32) (hwire : chunks.flatten = wire ms)
    (hrun : run (recvStep (reliable blocks)) uv (streamEvents S chunks ending) =
      some (v, effects))
    (hcut : Uncut ms 0 chunks) : OffersInside effects ↔ ∀ m ∈ ms, m.length ≤ u32 S := by
  rw [offersInside_iff (fun _ h => alloc_mem_streamEvents h) hs hrun]
  exact stream_allocFits hr hs hsize hwire hcut hrun

def connectionEvents (proto : Proto) (S : ℕ) (chunks : List (List UInt8)) (ending : Option Bool) :
    List Event :=
  .accept proto ⟨0, 0, 0⟩ :: (streamEvents S chunks ending).map .recv

theorem connection_run {s v : ScSocket} {proto : Proto} {chunks : List (List UInt8)}
    {ending : Option Bool} {effects : List Effect} (hproto : proto ≠ .noset)
    (hrun : run (step (reliable blocks)) s (connectionEvents proto S chunks ending) =
      some (v, effects)) :
    ∃ r out, run (recvStep (reliable blocks)) { s.backend.toReceiver with offered := none }
        (streamEvents S chunks ending) = some (r, out) ∧
      onRecvs effects = onRecvs out ∧ (OffersInside effects ↔ OffersInside out) := by
  obtain ⟨u, out, outs, hu, h, rfl⟩ := (run_cons_iff _ _ _ _ _ _).mp hrun
  rw [accept_ok (reliable blocks) s hproto] at hu
  obtain ⟨rfl, rfl⟩ := Prod.mk.inj (Option.some.inj hu)
  rw [run_recv (s := acceptedSocket s proto) _ rfl rfl] at h
  obtain ⟨⟨r, outs'⟩, hr, hv⟩ := Option.map_eq_some_iff.mp h
  obtain ⟨_, rfl⟩ := Prod.mk.inj hv
  refine ⟨r, outs', hr, ?_, ?_⟩
  · rw [onRecvs_append]
    rfl
  · simp [OffersInside]

/-- On a freshly accepted socket the messages sent are the messages received, followed by the end
of the stream, exactly when no read ends in a header of which only zero bytes have arrived. -/
theorem round_trip_iff (blocks : ℕ → Block) (proto : Proto) (S : ℕ) (msgs : List ScMsg)
    (chunks : List (List UInt8)) (asked : Bool) (v : ScSocket) (effects : List Effect)
    (hproto : proto ≠ .noset) (hcap : ∀ m ∈ msgs, scMsgGetSize m ≤ u32 S)
    (hsent : chunks.flatten = sentStream msgs)
    (hrun : run (step (reliable blocks)) newSocket (connectionEvents proto S chunks (some asked)) =
      some (v, effects)) :
    (onRecvs effects = msgs.map (fun m => (some (deliver m), 0)) ++ [(none, 0)] ↔
        Uncut (msgs.map body) 0 chunks) ∧
      (Uncut (msgs.map body) 0 chunks → OffersInside effects) := by
  obtain ⟨r, out, hr, hrecv, hoffer⟩ := connection_run hproto hrun
  rw [sentStream_wire] at hsent
  rw [hrecv, hoffer, map_deliver]
  have hsize : ∀ m ∈ msgs.map body, m.length < 2 ^ 32 :=
    List.forall_mem_map.mpr fun m _ => body_lt m
  constructor
  · exact stream_received refines_init hsize hsent hr
  · intro hcut
    refine (stream_offersInside refines_init (sized_init S) hsize hsent hr hcut).mpr ?_
    simpa only [List.forall_mem_map, body, Area.load_length] using hcap

theorem round_trip_whole_reads :
    ∃ v effects, run (step (reliable zeroBlocks)) newSocket
        (connectionEvents .tcp 65536 [[0, 0, 0, 1], [], [7]] (some true)) = some (v, effects) ∧
      onRecvs effects = [(some (deliver shortMsg), 0), (none, 0)] ∧ OffersInside effects := by
  have h := round_trip_iff zeroBlocks .tcp 65536 [shortMsg] [[0, 0, 0, 1], [], [7]] true _ _
    (by decide) (by decide) (by decide) rfl
  have hcut : Uncut ([shortMsg].map body) 0 [[0, 0, 0, 1], [], [7]] := by
    rw [← h.1]
    decide
  exact ⟨_, _, rfl, h.1.mpr hcut, h.2 hcut⟩

theorem round_trip_split_header :
    ∃ v effects, run (step (reliable zeroBlocks)) newSocket
        (connectionEvents .tcp 65536 [[0], [0, 0, 1], [7]] (some true)) = some (v, effects) ∧
      [[0], [0, 0, 1], [7]].flatten = sentStream [shortMsg] ∧ scMsgGetSize shortMsg ≤ u32 65536 ∧
      onRecvs effects = [(some ⟨0, []⟩, 0), (none, 0)] ∧
      onRecvs effects ≠ [(some (deliver shortMsg), 0), (none, 0)] :=
  ⟨_, _, rfl, by decide, by decide, by decide, by decide⟩

end ShortCircuit.FramingRoundTrip
