import ShortCircuit.SocketRuns

set_option autoImplicit false

/-!
# Who owns a URI

A socket owns the object that its `uri` points to: close and delete release it. Connect
and bind overwrite the pointer without looking at it, so an object is lost exactly when
one of them finds a socket that still holds one.
-/
namespace ShortCircuit.UriOwnership
open Message Boundary OutputMachine Receive UriParser Backend OpenAttempts Socket SocketRuns
open CStrings (Fault CString)

def uriNew? : Effect → Option ℕ
  | .uriNew id => some id
  | _ => none

def uriDel? : Effect → Option ℕ
  | .uriDel id => some id
  | _ => none

def created (effects : List Effect) : List ℕ := effects.filterMap uriNew?

def deleted (effects : List Effect) : List ℕ := effects.filterMap uriDel?

theorem created_append (xs ys : List Effect) : created (xs ++ ys) = created xs ++ created ys :=
  List.filterMap_append

theorem deleted_append (xs ys : List Effect) : deleted (xs ++ ys) = deleted xs ++ deleted ys :=
  List.filterMap_append

def heldUri (s : ScSocket) : List ℕ := s.uri.toList.map Prod.fst

theorem uriDelEffects_held (s : ScSocket) :
    created (uriDelEffects s) = [] ∧ deleted (uriDelEffects s) = heldUri s := by
  cases hs : s.uri <;> simp [uriDelEffects, heldUri, hs, created, deleted, uriNew?, uriDel?]

/-- Calls that neither make nor release a URI. -/
def Quiet (effects : List Effect) : Prop := created effects = [] ∧ deleted effects = []

section Backend

variable {ans : UvAnswers} {uv : SocketUv} {r : Result Int}

theorem attempt_quiet (a : Attempt) (init : Int) (uv : SocketUv) :
    Quiet (a.result init uv).effects := by
  have hr := attempted a init uv
  generalize a.result init uv = r at hr ⊢
  cases hr with
  | refused hi => exact ⟨rfl, rfl⟩
  | unresolved hi ha => exact ⟨rfl, rfl⟩
  | called hi ha =>
    unfold Attempt.call
    split <;> exact ⟨rfl, rfl⟩

theorem buvConnect_quiet {uri : Uri} (h : buvConnect ans uv uri = .ok r) : Quiet r.effects := by
  obtain ⟨a, _, rfl⟩ := buvConnect_attempt h
  exact attempt_quiet a _ _

theorem buvBind_quiet {uri : Uri} (h : buvBind ans uv uri = .ok r) : Quiet r.effects := by
  obtain ⟨a, proto, _, rfl⟩ := buvBind_attempt h
  exact attempt_quiet a _ _

theorem buvAccept_quiet {acc : AcceptAnswers} {srvProto : Proto} {q : Result Unit}
    (h : buvAccept acc srvProto uv = .ok q) : Quiet q.effects := by
  by_cases hp : srvProto = .noset
  · simp [buvAccept, hp] at h
  · simp only [buvAccept, uvInit, hp, if_false] at h
    split_ifs at h <;> obtain rfl := Except.ok.inj h <;>
      simp [Quiet, created, deleted, uriNew?, uriDel?]

end Backend

def takesUri : Event → Prop
  | .connect _ _ | .bind _ _ => True
  | _ => False

/-- What one event can do to the owner of a URI. -/
inductive Moves (s : ScSocket) (e : Event) (u : ScSocket) (effects : List Effect) : Prop where
  | kept (he : ¬ takesUri e) (hu : u.uri = s.uri) (hn : u.uris = s.uris) (hq : Quiet effects)
  | released (he : ¬ takesUri e) (hu : u.uri = none) (hn : u.uris = s.uris)
      (hc : created effects = []) (hd : deleted effects = heldUri s)
  | refused (he : takesUri e) (hu : u.uri = none) (hn : u.uris = s.uris) (hq : Quiet effects)
  | parsed (he : takesUri e) (uri : Uri) (hu : u.uri = some (s.uris, uri)) (hn : u.uris = s.uris + 1)
      (hc : created effects = [s.uris]) (hd : deleted effects = [])

theorem withUri_moves {op : UvAnswers → SocketUv → Uri → Except Fault (Result Int)}
    (hop : ∀ ans uv uri r, op ans uv uri = .ok r → Quiet r.effects) {env : UriEnv}
    {s u : ScSocket} {uri : CString} {e : Event} {effects : List Effect} (he : takesUri e)
    (h : returned (withUri op env s uri) = some (u, effects)) : Moves s e u effects := by
  obtain ⟨code, h⟩ := returned_some h
  rcases withUri_cases h with ⟨_, rfl, rfl⟩ | ⟨parsed, errcode, r, _, hr, rfl, _, rfl⟩
  · exact .refused he rfl rfl ⟨rfl, rfl⟩
  · obtain ⟨hc, hd⟩ := hop _ _ _ _ hr
    refine .parsed he parsed rfl rfl ?_ hd
    rw [← List.singleton_append, created_append, hc]
    rfl

theorem recv_quiet {heap : Heap} {uv v : Receiver} {e : ReadEvent} {effects : List Effect}
    (h : recvStep heap uv e = some (v, effects)) : Quiet effects := by
  cases recvStep_moved h <;> simp [Quiet, created, deleted, uriNew?, uriDel?]

theorem opening_moves {heap : Heap} {s u : ScSocket} {e : Event} {effects : List Effect}
    (he : opens e) (h : step heap s e = some (u, effects)) : Moves s e u effects := by
  cases e with
  | connect uri env => exact withUri_moves (fun _ _ _ _ => buvConnect_quiet) trivial h
  | bind uri env => exact withUri_moves (fun _ _ _ _ => buvBind_quiet) trivial h
  | accept srvProto ans =>
    obtain ⟨r, hr, rfl, rfl⟩ := accept_cases h
    exact .kept (fun he => he) rfl rfl (buvAccept_quiet hr)
  | _ => exact absurd he fun h => h

theorem step_moves {heap : Heap} {s u : ScSocket} {e : Event} {effects : List Effect}
    (h : step heap s e = some (u, effects)) : Moves s e u effects := by
  cases step_stepped h with
  | opened e u effects he _ => exact opening_moves he h
  | closing =>
    have hdel := uriDelEffects_held s
    exact .released (fun he => he) rfl rfl hdel.1 hdel.2
  | received e r effects _ _ hr => exact .kept (fun he => he) rfl rfl (recv_quiet hr)
  | _ => exact .kept (fun he => he) rfl rfl ⟨rfl, rfl⟩

/-- Every object made is released, held by the socket, or lost. -/
structure UriAccount (s : ScSocket) (effects : List Effect) (lost : List ℕ) : Prop where
  made : created effects = List.range s.uris
  split : (deleted effects ++ (heldUri s ++ lost)).Perm (List.range s.uris)

theorem uriAccount_new : UriAccount newSocket [] [] := ⟨rfl, List.Perm.refl _⟩

def OpensEmpty (s : ScSocket) (e : Event) : Prop := takesUri e → s.uri = none

theorem heldUri_none {s : ScSocket} (h : s.uri = none) : heldUri s = [] := by
  rw [heldUri, h]
  rfl

theorem heldUri_some {s : ScSocket} {id : ℕ} {uri : Uri} (h : s.uri = some (id, uri)) :
    heldUri s = [id] := by
  rw [heldUri, h]
  rfl

theorem opensEmpty_iff {s : ScSocket} {e : Event} (he : takesUri e) :
    heldUri s = [] ↔ OpensEmpty s e := by
  cases hs : s.uri <;> simp [heldUri, OpensEmpty, hs, he]

/-- One event loses the object that the socket holds when it takes a URI, and no other. -/
theorem uriAccount_step {s u : ScSocket} {e : Event} {past effects : List Effect} {lost : List ℕ}
    (h : UriAccount s past lost) (hm : Moves s e u effects) :
    ∃ more, UriAccount u (past ++ effects) (more ++ lost) ∧ (more = [] ↔ OpensEmpty s e) := by
  obtain ⟨hmade, hsplit⟩ := h
  cases hm with
  | kept he hu hn hq =>
    have hheld : heldUri u = heldUri s := by rw [heldUri, hu, heldUri]
    refine ⟨[], ⟨?_, ?_⟩, iff_of_true rfl fun ht => absurd ht he⟩
    · rw [created_append, hq.1, List.append_nil, hmade, hn]
    · rw [deleted_append, hq.2, List.append_nil, hheld, hn]
      exact hsplit
  | released he hu hn hc hd =>
    refine ⟨[], ⟨?_, ?_⟩, iff_of_true rfl fun ht => absurd ht he⟩
    · rw [created_append, hc, List.append_nil, hmade, hn]
    · rw [deleted_append, hd, heldUri_none hu, hn, List.append_assoc]
      exact hsplit
  | refused he hu hn hq =>
    refine ⟨heldUri s, ⟨?_, ?_⟩, opensEmpty_iff he⟩
    · rw [created_append, hq.1, List.append_nil, hmade, hn]
    · rw [deleted_append, hq.2, List.append_nil, heldUri_none hu, hn]
      exact hsplit
  | parsed he uri hu hn hc hd =>
    refine ⟨heldUri s, ⟨?_, ?_⟩, opensEmpty_iff he⟩
    · rw [created_append, hc, hmade, hn, List.range_succ]
    · rw [deleted_append, hd, List.append_nil, heldUri_some hu, hn, List.range_succ]
      have hfront : (deleted past ++ s.uris :: (heldUri s ++ lost)).Perm
          (s.uris :: List.range s.uris) := List.perm_middle.trans (hsplit.cons _)
      exact hfront.trans (List.perm_append_singleton _ _).symm

theorem uriAccount_run {heap : Heap} {s v : ScSocket} {es : List Event} {past effects : List Effect}
    {lost : List ℕ} (h : UriAccount s past lost) (hrun : run (step heap) s es = some (v, effects)) :
    ∃ more, UriAccount v (past ++ effects) (more ++ lost) ∧
      (more = [] ↔ EveryStep (step heap) OpensEmpty s es) := by
  induction es generalizing s past effects lost with
  | nil =>
    obtain ⟨rfl, rfl⟩ := Prod.mk.inj (Option.some.inj hrun)
    exact ⟨[], by rwa [List.append_nil], iff_of_true rfl trivial⟩
  | cons e es ih =>
    obtain ⟨u, out, outs, hu, hr, rfl⟩ := (run_cons_iff _ _ _ _ _ _).mp hrun
    obtain ⟨first, hfirst, hempty⟩ := uriAccount_step h (step_moves hu)
    obtain ⟨later, hlater, hrest⟩ := ih hfirst hr
    refine ⟨later ++ first, ?_, ?_⟩
    · rwa [List.append_assoc, ← List.append_assoc past]
    · rw [List.append_eq_nil_iff, everyStep_cons es hu, hempty, hrest, and_comm]

/-- The objects alive are those that the socket holds, at most one. -/
def SoleOwner (s : ScSocket) (effects : List Effect) : Prop :=
  ∀ id, id ∈ created effects ∧ id ∉ deleted effects ↔ id ∈ heldUri s

def DeletedOnce (effects : List Effect) : Prop :=
  ∀ id ∈ created effects, (deleted effects).count id = 1

theorem UriAccount.soleOwner {s : ScSocket} {effects : List Effect} (h : UriAccount s effects []) :
    SoleOwner s effects := by
  obtain ⟨hmade, hsplit⟩ := h
  rw [List.append_nil] at hsplit
  have hdisj := List.nodup_append.mp (hsplit.nodup_iff.mpr List.nodup_range)
  intro id
  rw [hmade, ← hsplit.mem_iff, List.mem_append]
  constructor
  · rintro ⟨hin, hnot⟩
    exact hin.resolve_left hnot
  · intro hheld
    exact ⟨.inr hheld, fun hdel => hdisj.2.2 id hdel id hheld rfl⟩

theorem UriAccount.deletedOnce_iff {s : ScSocket} {effects : List Effect} {lost : List ℕ}
    (h : UriAccount s effects lost) : DeletedOnce (effects ++ scSocketDel s) ↔ lost = [] := by
  obtain ⟨hmade, hsplit⟩ := h
  have hdel := uriDelEffects_held s
  have hcount : ∀ id, (deleted effects ++ heldUri s).count id + lost.count id =
      (List.range s.uris).count id := by
    intro id
    rw [← hsplit.count_eq, ← List.append_assoc]
    exact List.count_append.symm
  unfold DeletedOnce
  rw [scSocketDel, created_append, deleted_append, hdel.1, hdel.2, List.append_nil, hmade]
  constructor
  · intro hall
    rw [List.eq_nil_iff_forall_not_mem]
    intro id hid
    have hin : id ∈ List.range s.uris := hsplit.mem_iff.mp (by simp [hid])
    have hone := hall id hin
    have hpos := List.count_pos_iff.mpr hid
    have hsum := hcount id
    rw [List.count_eq_one_of_mem List.nodup_range hin] at hsum
    omega
  · rintro rfl id hin
    have hsum := hcount id
    rw [List.count_eq_one_of_mem List.nodup_range hin, List.count_nil] at hsum
    omega

/-- Over the life of a socket every URI is released once and between calls the socket is the owner
of the only one alive, exactly when connect and bind never find a socket that holds one. -/
theorem uri_ownership_iff (heap : Heap) (es : List Event) (s : ScSocket) (effects : List Effect)
    (hrun : run (step heap) newSocket es = some (s, effects)) :
    (DeletedOnce (effects ++ scSocketDel s) ∧
      ∀ pre rest u out, es = pre ++ rest → run (step heap) newSocket pre = some (u, out) →
        SoleOwner u out) ↔
      EveryStep (step heap) OpensEmpty newSocket es := by
  constructor
  · rintro ⟨hdel, _⟩
    obtain ⟨lost, hcount, hiff⟩ := uriAccount_run uriAccount_new hrun
    rw [List.append_nil, List.nil_append] at hcount
    exact hiff.mp (hcount.deletedOnce_iff.mp hdel)
  · intro hevery
    have hclean : ∀ {pre : List Event} {u : ScSocket} {out : List Effect},
        EveryStep (step heap) OpensEmpty newSocket pre →
        run (step heap) newSocket pre = some (u, out) → UriAccount u out [] := by
      intro pre u out hpre hu
      obtain ⟨lost, hcount, hiff⟩ := uriAccount_run uriAccount_new hu
      rwa [hiff.mpr hpre] at hcount
    refine ⟨(hclean hevery hrun).deletedOnce_iff.mpr rfl, ?_⟩
    rintro pre rest u out rfl hu
    exact (hclean (everyStep_left hevery) hu).soleOwner

def initFails : UriEnv := ⟨true, true, ⟨-12, fun _ _ => (0, []), 0⟩⟩

theorem uri_ownership_retry :
    ∃ s effects, run (step (reliable zeroBlocks)) newSocket
        [.connect ⟨[120], by decide⟩ noErrors, .connect pipeUri initFails, .close,
          .bind pipeUri noErrors] = some (s, effects) ∧
      created (effects ++ scSocketDel s) = [0, 1] ∧ DeletedOnce (effects ++ scSocketDel s) := by
  have h := uri_ownership_iff (reliable zeroBlocks) [.connect ⟨[120], by decide⟩ noErrors,
    .connect pipeUri initFails, .close, .bind pipeUri noErrors] _ _ rfl
  refine ⟨_, _, rfl, by decide, (h.mpr ?_).1⟩
  iterate 4 refine (everyStep_cons _ rfl).mpr ⟨(by intro h; first | rfl | cases h), ?_⟩
  trivial

/-- A connect whose init call fails and a second one after it: the first URI is never released. -/
theorem retry_loses_uri :
    ∃ s effects, run (step (reliable zeroBlocks)) newSocket
        [.connect pipeUri initFails, .connect pipeUri noErrors] = some (s, effects) ∧
      created (effects ++ scSocketDel s) = [0, 1] ∧ deleted (effects ++ scSocketDel s) = [1] ∧
      ¬ DeletedOnce (effects ++ scSocketDel s) := by
  refine ⟨_, _, rfl, by decide, by decide, ?_⟩
  intro h
  exact absurd (h 0 (by decide)) (by decide)

end ShortCircuit.UriOwnership
