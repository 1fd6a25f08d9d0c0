import ShortCircuit.ReceiveBounds

set_option autoImplicit false

/-!
# The body of a message

After a complete header the callbacks store what arrives until the declared size is
reached. `Filling` describes the states in between, and one event either leads to the
next such state or delivers the message.
-/
namespace ShortCircuit.BodyPhase
open WordBytes Message Boundary OutputMachine FrameParser Receive ReceiveRefinement ReceiveBounds

def arrivedIn : ReadEvent → List UInt8
  | .alloc _ => []
  | .read bytes => bytes
  | .stop _ => []

def arrived (es : List ReadEvent) : List UInt8 := es.flatMap arrivedIn

/-- The header announces `n` bytes, and `stored` are those that have arrived. -/
structure Filling (n cap : ℕ) (stored : List UInt8) (uv : Receiver) : Prop where
  held : ∃ p, Refines uv p ∧ p.pending.head.length = 4 ∧ leading p.pending.head = n ∧
    p.pending.body = stored
  capacity : ∀ msg, uv.msg = some msg → msg.cap = cap

/-- The buffers offered end at or before the last body byte. -/
def WithinBody (n cap : ℕ) (effects : List Effect) : Prop :=
  ∀ buf c, Effect.offer buf c ∈ effects → c = cap ∧ buf.region = .body ∧ buf.base + buf.len ≤ n

theorem withinBody_nil (n cap : ℕ) : WithinBody n cap [] := fun _ _ h => (nomatch h)

theorem WithinBody.inside {n cap : ℕ} {effects : List Effect} (h : WithinBody n cap effects)
    (hcap : n ≤ cap) : OffersInside effects := by
  intro buf c hx
  obtain ⟨rfl, hregion, hend⟩ := h buf c hx
  rw [Inside, hregion]
  exact hend.trans hcap

variable {blocks : ℕ → Block} {n cap : ℕ} {stored : List UInt8} {uv v : Receiver}
  {effects : List Effect}

/-- What a state of the body phase looks like in the backend. -/
theorem Filling.message (h : Filling n cap stored uv) :
    ∃ msg, uv.msg = some msg ∧ msg.cap = cap ∧ scMsgGetSize msg = n ∧
      uv.reader = ⟨4, stored.length⟩ ∧ msg.data.load stored.length = stored ∧ stored.length < n := by
  obtain ⟨⟨p, hp, h4, hn, rfl⟩, hcap⟩ := h
  have hne : uv.msg ≠ none := by
    intro hm
    rw [hp.idle hm] at h4
    cases h4
  obtain ⟨msg, hm⟩ := Option.ne_none_iff_exists'.mp hne
  have hheld := hp.held msg hm
  have hhead : p.pending.head ≠ [] := by intro hnil; simp [hnil] at h4
  refine ⟨msg, hm, hcap msg hm, by rw [hheld.size, hn], ?_, hheld.body, ?_⟩
  · rw [← h4, ← hheld.headPos, ← hheld.bodyPos]
  · rw [← hn]
    exact p.pending.unfinished hhead

theorem filling_of_reachable {heap : Heap} {es : List ReadEvent} {msg : ScMsg}
    (hrun : run (recvStep heap) .init es = some (uv, effects)) (hmsg : uv.msg = some msg)
    (hhead : uv.reader.headPos = 4) :
    Filling (scMsgGetSize msg) msg.cap (msg.data.load uv.reader.bodyPos) uv := by
  obtain ⟨p, hp⟩ := refines_of_run hrun
  have hheld := hp.held msg hmsg
  refine ⟨⟨p, hp, by rw [← hheld.headPos, hhead], hheld.size.symm, ?_⟩, ?_⟩
  · rw [hheld.bodyPos, hheld.body]
  · intro msg' hm
    rw [hmsg] at hm
    rw [Option.some.inj hm]

theorem filling_alloc {sg : ℕ} (h : Filling n cap stored uv)
    (hs : recvStep (reliable blocks) uv (.alloc sg) = some (v, effects)) :
    Filling n cap stored v ∧ onRecvs effects = [] ∧ WithinBody n cap effects := by
  obtain ⟨msg, hm, hc, _, _, _, _⟩ := h.message
  obtain ⟨⟨p, hp, h4, hn, hb⟩, hcap⟩ := h
  have hag := alloc_agree blocks hp sg
  rw [hs] at hag
  obtain ⟨q, out, hq, href, hrecv⟩ := agree_some hag
  obtain ⟨rfl, rfl⟩ := Prod.mk.inj (Option.some.inj hq)
  rw [alloc_held _ sg hm] at hs
  obtain ⟨rfl, rfl⟩ := Prod.mk.inj (Option.some.inj hs)
  refine ⟨⟨⟨_, href, h4, hn, hb⟩, hcap⟩, hrecv, ?_⟩
  intro buf c hx
  obtain ⟨rfl, rfl⟩ := Effect.offer.inj (List.mem_singleton.mp hx)
  have hfull : ¬ p.pending.head.length < 4 := by omega
  have hle := body_le p.pending
  rw [offerBuf_eq (hp.held msg hm)]
  simp only [bufAt, hfull, if_false, Pending.room_body h4]
  exact ⟨hc, trivial, by omega⟩

theorem read_keeps {bytes : List UInt8} (h : Filling n cap stored uv)
    (hs : recvStep (reliable blocks) uv (.read bytes) = some (v, effects)) :
    (∀ msg, v.msg = some msg → msg.cap = cap) ∧ WithinBody n cap effects ∧
      (onRecvs effects ≠ [] → v.msg = none) := by
  have hcap := h.capacity
  cases recvStep_moved hs with
  | waited buf ho => exact ⟨hcap, withinBody_nil n cap, fun hne => absurd rfl hne⟩
  | advanced bytes buf msg ho hlen hne hm hfin =>
    refine ⟨?_, withinBody_nil n cap, fun hne => absurd rfl hne⟩
    intro msg' hm'
    obtain rfl := Option.some.inj hm'
    rw [fillBuf_cap]
    exact hcap msg hm
  | delivered bytes buf msg ho hlen hne hm hfin =>
    exact ⟨fun _ hm' => (nomatch hm'), fun _ _ hx => by simp at hx, fun _ => rfl⟩

theorem filling_read {bytes : List UInt8} (h : Filling n cap stored uv)
    (hs : recvStep (reliable blocks) uv (.read bytes) = some (v, effects)) :
    (Filling n cap (stored ++ bytes) v ∧ onRecvs effects = [] ∧ WithinBody n cap effects) ∨
      (stored.length + bytes.length = n ∧ v.msg = none ∧
        onRecvs effects = [(some ⟨n, stored ++ bytes⟩, 0)]) := by
  obtain ⟨hcap, hwithin, hnone⟩ := read_keeps h hs
  obtain ⟨⟨p, hp, h4, rfl, rfl⟩, _⟩ := h
  have hag := read_agree blocks hp bytes
  rw [hs] at hag
  obtain ⟨q, out, hq, href, hrecv⟩ := agree_some hag
  cases hk : p.offered with
  | none => simp [parserStep, hk] at hq
  | some k =>
    by_cases hle : bytes.length ≤ k
    · simp only [parserStep, hk, hle, if_true, Option.some.injEq, Prod.mk.injEq] at hq
      obtain ⟨rfl, rfl⟩ := hq
      by_cases hne : bytes = []
      · subst hne
        rw [Pending.feed_nil] at href hrecv
        rw [List.append_nil]
        exact .inl ⟨⟨⟨_, href, h4, rfl, rfl⟩, hcap⟩, hrecv, hwithin⟩
      · have htaken := p.pending.feed_taken bytes hne (hle.trans (hp.room k hk).1)
        generalize p.pending.feed bytes = fed at href hrecv htaken
        obtain ⟨q, reported⟩ := fed
        cases htaken with
        | early hh hz => omega
        | header hh hz _ hq hb => omega
        | partway _ hd _ hq hb =>
          refine .inl ⟨⟨⟨_, href, ?_, ?_, hb⟩, hcap⟩, hrecv, hwithin⟩
          · rw [hq, h4]
          · rw [hq]
        | done _ hd =>
          have hone : onRecvs effects =
              [(some ⟨leading p.pending.head, p.pending.body ++ bytes⟩, 0)] := by
            rw [hrecv]
            simp [message, ← hd]
          exact .inr ⟨hd, hnone (by simp [hone]), hone⟩
    · simp [parserStep, hk, hle] at hq

/-- One event of the body phase: an offer within the body, or a read that stops short of its end,
or the read that reaches it. -/
theorem filling_step {e : ReadEvent} (h : Filling n cap stored uv) (hread : ∀ k, e ≠ .stop k)
    (hs : recvStep (reliable blocks) uv e = some (v, effects)) :
    (Filling n cap (stored ++ arrivedIn e) v ∧ onRecvs effects = [] ∧ WithinBody n cap effects) ∨
      (stored.length + (arrivedIn e).length = n ∧ v.msg = none ∧
        onRecvs effects = [(some ⟨n, stored ++ arrivedIn e⟩, 0)]) := by
  cases e with
  | alloc sg =>
    rw [arrivedIn, List.append_nil]
    exact .inl (filling_alloc h hs)
  | read bytes => exact filling_read h hs
  | stop k => exact absurd rfl (hread k)

theorem withinBody_append {first second : List Effect} (h : WithinBody n cap first)
    (h' : WithinBody n cap second) : WithinBody n cap (first ++ second) := by
  intro buf c hx
  rcases List.mem_append.mp hx with hx | hx
  · exact h buf c hx
  · exact h' buf c hx

theorem filling_run {es : List ReadEvent} (h : Filling n cap stored uv)
    (hreads : ∀ k, .stop k ∉ es)
    (hrun : run (recvStep (reliable blocks)) uv es = some (v, effects))
    (hless : stored.length + (arrived es).length < n) :
    Filling n cap (stored ++ arrived es) v ∧ onRecvs effects = [] ∧ WithinBody n cap effects := by
  induction es generalizing stored uv effects with
  | nil =>
    obtain ⟨rfl, rfl⟩ := Prod.mk.inj (Option.some.inj hrun)
    rw [arrived, List.flatMap_nil, List.append_nil]
    exact ⟨h, rfl, withinBody_nil n cap⟩
  | cons e es ih =>
    obtain ⟨u, out, outs, hu, hr, rfl⟩ := (run_cons_iff _ _ _ _ _ _).mp hrun
    have harrived : arrived (e :: es) = arrivedIn e ++ arrived es := List.flatMap_cons
    rw [harrived, List.length_append] at hless
    have hread : ∀ k, e ≠ .stop k := fun k he => hreads k (he ▸ List.mem_cons_self)
    rcases filling_step h hread hu with ⟨hfill, hquiet, hin⟩ | ⟨hdone, _⟩
    · have hnext := ih hfill (fun k hk => hreads k (List.mem_cons_of_mem e hk)) hr
        (by rw [List.length_append]; omega)
      obtain ⟨hlast, hquiet', hin'⟩ := hnext
      rw [List.append_assoc, ← harrived] at hlast
      exact ⟨hlast, by rw [onRecvs_append, hquiet, hquiet']; rfl, withinBody_append hin hin'⟩
    · omega

/-- From a reachable state with a complete header, nothing is delivered and no buffer leaves the
body while bytes are missing. The read that brings the last one brings nothing more, delivers the
whole body once and leaves the receiver ready for a new header. -/
theorem body_phase (heap : Heap) (before : List ReadEvent) (v : Receiver) (past : List Effect)
    (msg : ScMsg) (n : ℕ) (es : List ReadEvent) (w : Receiver) (effects : List Effect)
    (hreach : run (recvStep heap) .init before = some (v, past)) (hmsg : v.msg = some msg)
    (hhead : v.reader.headPos = 4) (hsize : scMsgGetSize msg = n) (hcap : n ≤ msg.cap)
    (hreads : ∀ k, .stop k ∉ es) (hrun : run (recvStep heap) v es = some (w, effects)) :
    ((arrived es).length < n - v.reader.bodyPos →
      onRecvs effects = [] ∧ OffersInside effects ∧
        ∃ msg', w.msg = some msg' ∧ scMsgGetSize msg' = n ∧
          w.reader = ⟨4, v.reader.bodyPos + (arrived es).length⟩ ∧
          msg'.data.load (v.reader.bodyPos + (arrived es).length) =
            msg.data.load v.reader.bodyPos ++ arrived es) ∧
    ∀ pre bytes rest, es = pre ++ .read bytes :: rest →
      (arrived pre).length < n - v.reader.bodyPos →
      n - v.reader.bodyPos ≤ (arrived pre).length + bytes.length →
      (arrived pre).length + bytes.length = n - v.reader.bodyPos ∧
      ∃ s out u calls, run (recvStep heap) v pre = some (s, out) ∧
        recvStep heap s (.read bytes) = some (u, calls) ∧ u.msg = none ∧
        onRecvs calls =
          [(some ⟨n, msg.data.load v.reader.bodyPos ++ arrived pre ++ bytes⟩, 0)] ∧
        ∀ sg b, heap u.allocs = some b → ∃ x more, recvStep heap u (.alloc sg) = some (x, more) ∧
          x.reader = ⟨0, 0⟩ ∧ x.offered = some ⟨.head, 0, min 4 (u32 sg)⟩ := by
  have hfill := filling_of_reachable hreach hmsg hhead
  rw [hsize] at hfill
  have hlen : (msg.data.load v.reader.bodyPos).length = v.reader.bodyPos := Area.load_length _ _
  constructor
  · intro hless
    obtain ⟨hlast, hquiet, hin⟩ := filling_run hfill hreads (recvRun_backed hrun) (by omega)
    obtain ⟨msg', hm, _, hn, hreader, hload, _⟩ := hlast.message
    rw [List.length_append, hlen] at hreader hload
    exact ⟨hquiet, hin.inside hcap, msg', hm, hn, hreader, hload⟩
  · intro pre bytes rest hes hless hreached
    subst hes
    obtain ⟨s, out, outs, hpre, hrest, _⟩ := (run_append_iff _ _ _ _ _ _).mp hrun
    obtain ⟨u, calls, _, hu, _, _⟩ := (run_cons_iff _ _ _ _ _ _).mp hrest
    have hpres : ∀ k, .stop k ∉ pre := fun k hk => hreads k (List.mem_append_left _ hk)
    obtain ⟨hat, _, _⟩ := filling_run hfill hpres (recvRun_backed hpre) (by omega)
    have hread := filling_read hat (recvStep_backed _ _ _ hu)
    simp only [List.length_append, hlen] at hread
    rcases hread with ⟨hstill, _, _⟩ | ⟨hdone, hnone, hcall⟩
    · obtain ⟨_, _, _, _, _, _, hlt⟩ := hstill.message
      simp only [List.length_append, hlen] at hlt
      omega
    · refine ⟨by omega, s, out, u, calls, hpre, hu, hnone, hcall, ?_⟩
      intro sg b hb
      refine ⟨_, _, alloc_obtained sg hnone hb, rfl, ?_⟩
      rw [offerBuf_eq (held_fresh b _ _)]
      rfl

theorem body_phase_two_reads :
    ∃ v past msg w effects,
      run (recvStep (reliable zeroBlocks)) .init
          [.alloc 8, .read [0, 0, 0, 3], .alloc 8, .read [5]] = some (v, past) ∧
      v.msg = some msg ∧
      run (recvStep (reliable zeroBlocks)) v [.alloc 1, .read [6], .alloc 9, .read [7]] =
          some (w, effects) ∧
      ∃ s out u calls, run (recvStep (reliable zeroBlocks)) v [.alloc 1, .read [6], .alloc 9] =
          some (s, out) ∧
        recvStep (reliable zeroBlocks) s (.read [7]) = some (u, calls) ∧ u.msg = none ∧
        onRecvs calls = [(some ⟨3, [5, 6, 7]⟩, 0)] := by
  obtain ⟨_, hread⟩ := body_phase (reliable zeroBlocks)
    [.alloc 8, .read [0, 0, 0, 3], .alloc 8, .read [5]] _ _ _ 3
    [.alloc 1, .read [6], .alloc 9, .read [7]] _ _ rfl rfl rfl (by decide) (by decide) (by simp) rfl
  obtain ⟨_, s, out, u, calls, hpre, hu, hnone, hcall, _⟩ :=
    hread [.alloc 1, .read [6], .alloc 9] [7] [] rfl (by decide) (by decide)
  exact ⟨_, _, _, _, _, rfl, rfl, rfl, s, out, u, calls, hpre, hu, hnone, hcall⟩

end ShortCircuit.BodyPhase
