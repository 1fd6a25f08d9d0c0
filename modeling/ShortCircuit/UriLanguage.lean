import ShortCircuit.UriAddress

set_option autoImplicit false

/-!
# Which strings `sc_uri_new` accepts, rejects and crashes on

`scUriNew_parsed` lists everything the parser can do with a string. It runs to
completion unless the address part of a tcp URI consists of colons, and it accepts a
few texts that are no URIs.
-/
namespace ShortCircuit.UriLanguage
open CStrings HeapCalls UriParser UriAddress

/-- A protocol and a path behind `://`, with `i` more colons in front. -/
def uriText (i : ℕ) (proto path : List UInt8) : List UInt8 :=
  List.replicate i (ch ':') ++ (proto ++ ch ':' :: (ch '/' :: ch '/' :: path))

/-- The duplicated string after the first tokeniser call. -/
def cutText (i : ℕ) (proto rest : List UInt8) : List UInt8 :=
  List.replicate i (ch ':') ++ proto ++ 0 :: (rest ++ [0])

section Reads

variable {i : ℕ} {tok rest : List UInt8}

theorem cstrAt_proto (h0 : 0 ∉ tok) : cstrAt (cutText i tok rest) (some i) = .ok tok := by
  have h := cstrAt_ok (List.replicate i (ch ':')) (rest ++ [0]) h0
  rwa [List.length_replicate] at h

theorem cutText_path : cutText i tok rest =
    (List.replicate i (ch ':') ++ tok ++ [0]) ++ rest ++ [0] := by
  simp [cutText]

theorem path_length (i : ℕ) (tok : List UInt8) :
    (List.replicate i (ch ':') ++ tok ++ [(0 : UInt8)]).length = i + tok.length + 1 := by
  simp [Nat.add_assoc]

theorem isProtocolKnown_cut (i : ℕ) (rest : List UInt8) (h0 : 0 ∉ tok) :
    isProtocolKnown (cutText i tok rest) (some i) = .ok (tok == pipeStr || tok == tcpStr) := by
  simp only [isProtocolKnown, strEq, cstrAt_proto h0, Except.map]
  cases tok == pipeStr <;> rfl

end Reads

theorem strlen_ok (before : List UInt8) {s : List UInt8} (h : 0 ∉ s) :
    strlen (before ++ s ++ [0]) (some before.length) = .ok s.length := by
  rw [strlen, cstrAt_ok before [] h]
  rfl

section Path

variable {before rest : List UInt8} {proto : Ptr}

theorem scUriPath_rejects (h0 : 0 ∉ rest)
    (h : ∀ path, path ≠ [] → rest ≠ ch '/' :: ch '/' :: path) :
    (scUriPath strtokS (before ++ rest ++ [0]) proto before.length).result =
      .ok (none, scEuriparse) := by
  simp only [scUriPath, strlen_ok before h0, lift_bind_ok]
  split
  · rfl
  · rename_i hlen
    obtain ⟨a, b, c, path, rfl⟩ : ∃ a b c path, rest = a :: b :: c :: path := by
      rcases rest with _ | ⟨a, _ | ⟨b, _ | ⟨c, path⟩⟩⟩
      · exact absurd (by simp) hlen
      · exact absurd (by simp) hlen
      · exact absurd (by simp) hlen
      · exact ⟨a, b, c, path, rfl⟩
    have ha : charAt (before ++ (a :: b :: c :: path) ++ [0]) before.length = .ok a := by
      rw [List.append_assoc]
      exact charAt_ok before _ a
    have hb : charAt (before ++ (a :: b :: c :: path) ++ [0]) (before.length + 1) = .ok b := by
      have hc := charAt_ok (before ++ [a]) (c :: path ++ [0]) b
      simpa using hc
    simp only [ha, hb, lift_bind_ok]
    by_cases hfst : a = ch '/'
    · by_cases hsnd : b = ch '/'
      · exact absurd (by rw [hfst, hsnd]) (h (c :: path) (by simp))
      · rw [if_neg (not_not.mpr hfst), if_pos hsnd]
        rfl
    · rw [if_pos hfst]
      rfl

theorem scUriPath_slashes {path : List UInt8} {isPipe : Bool} (h0 : 0 ∉ path) (hne : path ≠ [])
    (hproto : strEq (before ++ (ch '/' :: ch '/' :: path) ++ [0]) proto pipeStr = .ok isPipe) :
    (scUriPath strtokS (before ++ (ch '/' :: ch '/' :: path) ++ [0]) proto before.length).result =
      if isPipe then
        .ok (some ⟨before ++ (ch '/' :: ch '/' :: path) ++ [0], proto,
          .pipe (some (before.length + 2))⟩, scEuriparse)
      else
        (scUriTcp strtokS (before ++ (ch '/' :: ch '/' :: path) ++ [0]) proto
          (before.length + 2)).result := by
  have hz : 0 ∉ ch '/' :: ch '/' :: path := by
    simp only [List.mem_cons, not_or]
    exact ⟨by decide, by decide, h0⟩
  have hlen : ¬ (ch '/' :: ch '/' :: path).length ≤ 2 := by
    have := List.length_pos_iff.mpr hne
    simp only [List.length_cons]
    omega
  have ha : charAt (before ++ (ch '/' :: ch '/' :: path) ++ [0]) before.length = .ok (ch '/') := by
    rw [List.append_assoc]
    exact charAt_ok before _ _
  have hb : charAt (before ++ (ch '/' :: ch '/' :: path) ++ [0]) (before.length + 1) =
      .ok (ch '/') := by
    have hc := charAt_ok (before ++ [ch '/']) (path ++ [0]) (ch '/')
    simpa using hc
  simp only [scUriPath, strlen_ok before hz, hlen, ha, hb, hproto, lift_bind_ok, ne_eq,
    not_true_eq_false, if_false]
  cases isPipe <;> rfl

end Path

section Tcp

variable {before addr port : List UInt8} {proto : Ptr}

theorem scUriTcp_colons (j : ℕ) :
    (scUriTcp strtokS (before ++ List.replicate j (ch ':') ++ [0]) proto before.length).result =
      .error .nullPointer := by
  have h0 : 0 ∉ List.replicate j (ch ':') := fun h => absurd (List.eq_of_mem_replicate h) (by decide)
  have ht := strtokS_none before [] none j
    (show ch ':' ≠ 0 by decide)
  simp only [scUriTcp, strlen_ok before h0, ht, lift_bind_ok, checkIp4, cstrAt, Except.map]
  rfl

theorem scUriTcp_noPort (j : ℕ) (hne : addr ≠ []) (hno : ch ':' ∉ addr) (h0 : 0 ∉ addr) :
    (scUriTcp strtokS (before ++ (List.replicate j (ch ':') ++ addr) ++ [0]) proto
        before.length).result = .ok (none, scEuriparse) := by
  have hz : 0 ∉ List.replicate j (ch ':') ++ addr := by
    rw [List.mem_append, not_or]
    exact ⟨fun h => absurd (List.eq_of_mem_replicate h) (by decide), h0⟩
  have ht := strtokS_last before [] none j
    (show ch ':' ≠ 0 by decide) hne hno h0
  have hip : cstrAt (before ++ (List.replicate j (ch ':') ++ addr) ++ [0])
      (some (before.length + j)) = .ok addr := by
    have h := cstrAt_ok (before ++ List.replicate j (ch ':')) [] h0
    simpa using h
  simp only [scUriTcp, strlen_ok before hz, ht, lift_bind_ok, checkIp4, hip, Except.map]
  cases checkIp4Str addr <;> rfl

theorem cstrAt_address (j : ℕ) (h0 : 0 ∉ addr) :
    cstrAt (before ++ List.replicate j (ch ':') ++ addr ++ 0 :: (port ++ [0]))
      (some (before.length + j)) = .ok addr := by
  have h := cstrAt_ok (before ++ List.replicate j (ch ':')) (port ++ [0]) h0
  simpa using h

theorem cstrAt_port (j : ℕ) (h0 : 0 ∉ port) :
    cstrAt (before ++ List.replicate j (ch ':') ++ addr ++ 0 :: (port ++ [0]))
      (some (before.length + j + addr.length + 1)) = .ok port := by
  have h := cstrAt_ok (before ++ List.replicate j (ch ':') ++ addr ++ [0]) [] h0
  simpa [Nat.add_assoc] using h

theorem scUriTcp_cut (j : ℕ) (hne : addr ≠ []) (hno : ch ':' ∉ addr) (h0 : 0 ∉ addr)
    (hp0 : 0 ∉ port) :
    (scUriTcp strtokS (before ++ (List.replicate j (ch ':') ++ (addr ++ ch ':' :: port)) ++ [0])
        proto before.length).result =
      .ok (if checkIp4Str addr && checkPortStr port then
          some ⟨before ++ List.replicate j (ch ':') ++ addr ++ 0 :: (port ++ [0]), proto,
            .tcp (some (before.length + j)) (some (before.length + j + addr.length + 1))⟩
        else none, scEuriparse) := by
  have hz : 0 ∉ List.replicate j (ch ':') ++ (addr ++ ch ':' :: port) := by
    simp only [List.mem_append, List.mem_cons, not_or]
    exact ⟨fun h => absurd (List.eq_of_mem_replicate h) (by decide), h0, by decide, hp0⟩
  have ht := strtokS_cut before [] none j
    (show ch ':' ≠ 0 by decide) hne hno h0 hp0
  simp only [scUriTcp, strlen_ok before hz, ht, lift_bind_ok, checkIp4, checkPort,
    cstrAt_address j h0, cstrAt_port j hp0, Except.map]
  cases checkIp4Str addr <;> cases checkPortStr port <;> rfl

end Tcp

section New

variable {s : CString} {i : ℕ} {tok rest : List UInt8}

theorem scUriNew_start (s : CString) :
    scUriNew true true s =
      match strtokS (s.bytes ++ [0]) 0 (ch ':') none with
      | .error fault => .error fault
      | .ok t =>
        match t.context with
        | none => .ok (none, scEuriparse)
        | some path =>
          match isProtocolKnown t.buf t.token with
          | .error fault => .error fault
          | .ok false => .ok (none, scEinvproto)
          | .ok true => (scUriPath strtokS t.buf t.token path).result := by
  have hlen : strlen (s.bytes ++ [0]) (some 0) = .ok s.bytes.length := by
    have h := strlen_ok [] s.nul_free
    simpa using h
  rw [scUriNew, scUriNewCalls, result_malloc_bind, if_neg (by simp), if_pos rfl, follow_bind,
    result_malloc_bind, if_neg (by simp)]
  simp only [hlen, lift_bind_ok]
  cases strtokS (s.bytes ++ [0]) 0 (ch ':') none with
  | error fault => rfl
  | ok t =>
    simp only [lift_bind_ok]
    cases t.context with
    | none => rfl
    | some path =>
      simp only
      cases isProtocolKnown t.buf t.token with
      | error fault => rfl
      | ok known =>
        rw [lift_bind_ok]
        cases known <;> rfl

theorem scUriNew_noPath
    (h : s.bytes = List.replicate i (ch ':') ∨
      ∃ tok, tok ≠ [] ∧ ch ':' ∉ tok ∧ s.bytes = List.replicate i (ch ':') ++ tok) :
    scUriNew true true s = .ok (none, scEuriparse) := by
  have h0 := s.nul_free
  rw [scUriNew_start]
  rcases h with h | ⟨tok, hne, hno, h⟩
  · have ht := strtokS_none [] [] none i
      (show ch ':' ≠ 0 by decide)
    simp only [List.nil_append, List.length_nil] at ht
    simp only [h, ht]
  · have ht := strtokS_last [] [] none i
      (show ch ':' ≠ 0 by decide) hne hno (fun hz => h0 (by rw [h]; simp [hz]))
    simp only [List.nil_append, List.length_nil] at ht
    simp only [h, ht]

theorem scUriNew_cut (h : s.bytes = List.replicate i (ch ':') ++ (tok ++ ch ':' :: rest))
    (hne : tok ≠ []) (hno : ch ':' ∉ tok) :
    scUriNew true true s =
      if tok = pipeStr ∨ tok = tcpStr then
        (scUriPath strtokS (cutText i tok rest) (some i) (i + tok.length + 1)).result
      else .ok (none, scEinvproto) := by
  have h0 := s.nul_free
  rw [h] at h0
  simp only [List.mem_append, List.mem_cons, not_or] at h0
  obtain ⟨_, htok0, _, hrest0⟩ := h0
  have ht := strtokS_cut [] [] none i
    (show ch ':' ≠ 0 by decide) hne hno htok0 hrest0
  simp only [List.nil_append, List.length_nil, Nat.zero_add] at ht
  have hknown := isProtocolKnown_cut i rest htok0
  rw [cutText] at hknown
  rw [scUriNew_start]
  simp only [h, ht, cutText]
  by_cases hk : tok = pipeStr ∨ tok = tcpStr
  · have hflag : (tok == pipeStr || tok == tcpStr) = true := by simpa using hk
    rw [hflag] at hknown
    simp only [hknown, if_pos hk]
  · have hflag : (tok == pipeStr || tok == tcpStr) = false := by simpa using hk
    rw [hflag] at hknown
    simp only [hknown, if_neg hk]

theorem uriText_path {proto path : List UInt8} :
    cutText i proto (ch '/' :: ch '/' :: path) =
      (List.replicate i (ch ':') ++ proto ++ [0]) ++ (ch '/' :: ch '/' :: path) ++ [0] :=
  cutText_path

theorem scUriNew_pipe {path : List UInt8} (h : s.bytes = uriText i pipeStr path)
    (hne : path ≠ []) :
    scUriNew true true s =
      .ok (some ⟨cutText i pipeStr (ch '/' :: ch '/' :: path), some i, .pipe (some (i + 7))⟩,
        scEuriparse) := by
  have h0 := s.nul_free
  rw [h, uriText] at h0
  simp only [List.mem_append, List.mem_cons, not_or] at h0
  rw [scUriNew_cut h (by decide) (by decide), if_pos (.inl rfl)]
  have hproto : strEq (cutText i pipeStr (ch '/' :: ch '/' :: path)) (some i) pipeStr =
      .ok true := by
    rw [strEq, cstrAt_proto (by decide)]
    rfl
  rw [uriText_path] at hproto ⊢
  rw [← path_length i pipeStr, scUriPath_slashes h0.2.2.2.2.2 hne hproto, if_pos rfl,
    path_length]
  rfl

theorem scUriNew_tcp {path : List UInt8} (h : s.bytes = uriText i tcpStr path) (hne : path ≠ []) :
    scUriNew true true s =
      (scUriTcp strtokS (List.replicate i (ch ':') ++ tcpStr ++ [0, ch '/', ch '/'] ++ path ++ [0])
        (some i) (List.replicate i (ch ':') ++ tcpStr ++ [0, ch '/', ch '/']).length).result := by
  have h0 := s.nul_free
  rw [h, uriText] at h0
  simp only [List.mem_append, List.mem_cons, not_or] at h0
  rw [scUriNew_cut h (by decide) (by decide), if_pos (.inr rfl)]
  have hproto : strEq (cutText i tcpStr (ch '/' :: ch '/' :: path)) (some i) pipeStr =
      .ok false := by
    rw [strEq, cstrAt_proto (by decide)]
    rfl
  rw [uriText_path] at hproto ⊢
  rw [← path_length i tcpStr, scUriPath_slashes h0.2.2.2.2.2 hne hproto]
  simp [Nat.add_assoc]

end New

/-- Everything `sc_uri_new` can do with a string when no allocation fails. -/
inductive Parsed (s : List UInt8) : Except Fault (Option Uri × Int) → Prop where
  | rejected (errcode : Int) (h : errcode = scEuriparse ∨ errcode = scEinvproto) :
      Parsed s (.ok (none, errcode))
  | pipe (i : ℕ) (path : List UInt8) (hne : path ≠ []) (hs : s = uriText i pipeStr path)
      (uri : Uri) : Parsed s (.ok (some uri, scEuriparse))
  | tcp (i j : ℕ) (addr port : List UInt8) (hip : DottedQuad addr)
      (hport : checkPortStr port = true)
      (hs : s = uriText i tcpStr (List.replicate j (ch ':') ++ (addr ++ ch ':' :: port)))
      (uri : Uri) : Parsed s (.ok (some uri, scEuriparse))
  | noAddress (i j : ℕ) (hj : 1 ≤ j) (hs : s = uriText i tcpStr (List.replicate j (ch ':'))) :
      Parsed s (.error .nullPointer)

theorem nul_free_path {s : CString} {i : ℕ} {proto path : List UInt8}
    (h : s.bytes = uriText i proto path) : 0 ∉ path := by
  have h0 := s.nul_free
  rw [h, uriText] at h0
  simp only [List.mem_append, List.mem_cons, not_or] at h0
  exact h0.2.2.2.2.2

theorem scUriNew_tcp_parsed {s : CString} {i : ℕ} {path : List UInt8}
    (h : s.bytes = uriText i tcpStr path) (hne : path ≠ []) :
    Parsed s.bytes (scUriNew true true s) := by
  have h0 := nul_free_path h
  rw [scUriNew_tcp h hne]
  obtain ⟨j, rfl | ⟨addr, ha, hno, rfl⟩ | ⟨addr, port, ha, hno, rfl⟩⟩ := split_token (ch ':') path
  · rw [scUriTcp_colons]
    refine .noAddress i j ?_ h
    by_contra hj
    exact hne (by rw [show j = 0 by omega]; rfl)
  · rw [scUriTcp_noPort j ha hno (fun hz => h0 (by simp [hz]))]
    exact .rejected _ (.inl rfl)
  · rw [scUriTcp_cut j ha hno (fun hz => h0 (by simp [hz])) (fun hz => h0 (by simp [hz]))]
    cases hip : checkIp4Str addr with
    | false => exact .rejected _ (.inl rfl)
    | true =>
      cases hport : checkPortStr port with
      | false => exact .rejected _ (.inl rfl)
      | true => exact .tcp i j addr port ((checkIp4Str_iff addr).mp hip) hport h _

theorem scUriNew_parsed (s : CString) : Parsed s.bytes (scUriNew true true s) := by
  obtain ⟨i, h | ⟨tok, hne, hno, h⟩ | ⟨tok, rest, hne, hno, h⟩⟩ := split_token (ch ':') s.bytes
  · rw [scUriNew_noPath (.inl h)]
    exact .rejected _ (.inl rfl)
  · rw [scUriNew_noPath (.inr ⟨tok, hne, hno, h⟩)]
    exact .rejected _ (.inl rfl)
  · by_cases hpath : ∃ path, path ≠ [] ∧ rest = ch '/' :: ch '/' :: path
    · obtain ⟨path, hp, rfl⟩ := hpath
      by_cases hpipe : tok = pipeStr
      · subst hpipe
        rw [scUriNew_pipe h hp]
        exact .pipe i path hp h _
      · by_cases htcp : tok = tcpStr
        · subst htcp
          exact scUriNew_tcp_parsed h hp
        · rw [scUriNew_cut h hne hno, if_neg (by simp [hpipe, htcp])]
          exact .rejected _ (.inr rfl)
    · rw [scUriNew_cut h hne hno]
      split
      · have h0 : 0 ∉ rest := fun hz => s.nul_free (by rw [h]; simp [hz])
        rw [cutText_path, ← path_length i tok,
          scUriPath_rejects h0 (fun path hp heq => hpath ⟨path, hp, heq⟩)]
        exact .rejected _ (.inl rfl)
      · exact .rejected _ (.inr rfl)

/-- `sc_uri_new` returns a URI, or null with an error code. -/
def Completes (s : CString) : Prop :=
  ∃ uri errcode, scUriNew true true s = .ok (uri, errcode) ∧
    (uri = none → errcode = scEuriparse ∨ errcode = scEinvproto)

/-- Parsing completes unless the string is `tcp://` and colons only, with or without colons in
front of it. -/
theorem completes_iff (s : CString) :
    Completes s ↔
      ¬ ∃ i j, 1 ≤ j ∧ s.bytes = uriText i tcpStr (List.replicate j (ch ':')) := by
  constructor
  · rintro ⟨uri, errcode, hok, _⟩ ⟨i, j, hj, hs⟩
    have hne : List.replicate j (ch ':') ≠ [] := by
      intro hnil
      have := congrArg List.length hnil
      rw [List.length_replicate, List.length_nil] at this
      omega
    rw [scUriNew_tcp hs hne, scUriTcp_colons] at hok
    cases hok
  · intro h
    have hp := scUriNew_parsed s
    generalize hr : scUriNew true true s = r at hp
    cases hp with
    | rejected errcode he => exact ⟨none, errcode, hr, fun _ => he⟩
    | pipe i path hne hs uri => exact ⟨some uri, _, hr, fun hn => (nomatch hn)⟩
    | tcp i j addr port hip hport hs uri => exact ⟨some uri, _, hr, fun hn => (nomatch hn)⟩
    | noAddress i j hj hs => exact absurd ⟨i, j, hj, hs⟩ h

def colonAddress : CString :=
  ⟨[ch 't', ch 'c', ch 'p', ch ':', ch '/', ch '/', ch ':'], by decide⟩

theorem colon_address_crashes :
    scUriNew true true colonAddress = .error .nullPointer ∧ ¬ Completes colonAddress := by
  have h : scUriNew true true colonAddress = .error .nullPointer := rfl
  refine ⟨h, ?_⟩
  rintro ⟨uri, errcode, hok, _⟩
  rw [h] at hok
  cases hok

end ShortCircuit.UriLanguage
