import ShortCircuit.UriLanguage

set_option autoImplicit false

/-!
# Acceptance of URIs

`ValidUri` is the language meant: a pipe with a path, or an IPv4 address and a port.
`ToleratedUri` lists the other texts that the parser lets through, because `strtok_s`
skips repeated colons and `check_port` does not look at where `strtol` stopped.
-/
namespace ShortCircuit.UriAcceptance
open CStrings UriParser UriAddress UriLanguage

/-- `pipe://` and a path, or `tcp://`, a dotted quad, a colon and a port number. -/
def ValidUri (s : List UInt8) : Prop :=
  (∃ path, path ≠ [] ∧ s = uriText 0 pipeStr path) ∨
    ∃ addr port, DottedQuad addr ∧ PortText port ∧ s = uriText 0 tcpStr (addr ++ ch ':' :: port)

/-- A valid URI with colons in front of it, colons in front of the address, blanks or a plus sign
in front of the port, or text behind the port. -/
def ToleratedUri (s : List UInt8) : Prop :=
  (∃ i path, 1 ≤ i ∧ path ≠ [] ∧ s = uriText i pipeStr path) ∨
    ∃ i j addr blanks plus ds tail, DottedQuad addr ∧ LaxPort blanks plus ds tail ∧
      s = uriText i tcpStr
        (List.replicate j (ch ':') ++ (addr ++ ch ':' :: (blanks ++ (plus ++ (ds ++ tail))))) ∧
      (1 ≤ i ∨ 1 ≤ j ∨ blanks ≠ [] ∨ plus ≠ [] ∨ tail ≠ [])

theorem uriText_inj {i i' : ℕ} {proto proto' path path' : List UInt8} (hne : proto ≠ [])
    (hno : ch ':' ∉ proto) (hne' : proto' ≠ []) (hno' : ch ':' ∉ proto')
    (h : uriText i proto path = uriText i' proto' path') :
    i = i' ∧ proto = proto' ∧ path = path' := by
  obtain ⟨hi, hp, hr⟩ := token_inj hne hno hne' hno' h
  simp only [List.cons.injEq, true_and] at hr
  exact ⟨hi, hp, hr⟩

theorem valid_not_tolerated {s : List UInt8} (hv : ValidUri s) : ¬ ToleratedUri s := by
  have hpipe : pipeStr ≠ [] ∧ ch ':' ∉ pipeStr := by decide
  have htcp : tcpStr ≠ [] ∧ ch ':' ∉ tcpStr := by decide
  rintro (⟨i, path', hi, _, hs⟩ | ⟨i, j, addr', blanks, plus, ds, tail, hip', hlax, hs, hextra⟩)
  · rcases hv with ⟨path, _, rfl⟩ | ⟨addr, port, _, _, rfl⟩
    · have h := (uriText_inj hpipe.1 hpipe.2 hpipe.1 hpipe.2 hs).1
      omega
    · exact absurd (uriText_inj htcp.1 htcp.2 hpipe.1 hpipe.2 hs).2.1 (by decide)
  · rcases hv with ⟨path, _, rfl⟩ | ⟨addr, port, hip, hport, rfl⟩
    · exact absurd (uriText_inj hpipe.1 hpipe.2 htcp.1 htcp.2 hs).2.1 (by decide)
    · obtain ⟨rfl, _, hpath⟩ := uriText_inj htcp.1 htcp.2 htcp.1 htcp.2 hs
      have hpath' : List.replicate 0 (ch ':') ++ (addr ++ ch ':' :: port) =
          List.replicate j (ch ':') ++ (addr' ++ ch ':' :: (blanks ++ (plus ++ (ds ++ tail)))) :=
        hpath
      obtain ⟨rfl, rfl, rfl⟩ :=
        token_inj hip.ne_nil hip.no_colon hip'.ne_nil hip'.no_colon hpath'
      obtain ⟨rfl, rfl, rfl⟩ := hlax.exact hport.digits
      simp at hextra

theorem accepted_iff (s : CString) :
    (∃ uri errcode, scUriNew true true s = .ok (some uri, errcode)) ↔
      ValidUri s.bytes ∨ ToleratedUri s.bytes := by
  constructor
  · rintro ⟨uri, errcode, hok⟩
    have hp := scUriNew_parsed s
    rw [hok] at hp
    cases hp with
    | pipe i path hne hs _ =>
      rcases Nat.eq_zero_or_pos i with rfl | hi
      · exact .inl (.inl ⟨path, hne, hs⟩)
      · exact .inr (.inl ⟨i, path, hi, hne, hs⟩)
    | tcp i j addr port hip hport hs _ =>
      obtain ⟨blanks, plus, ds, tail, rfl, hlax⟩ := (checkPortStr_iff port).mp hport
      by_cases hextra : 1 ≤ i ∨ 1 ≤ j ∨ blanks ≠ [] ∨ plus ≠ [] ∨ tail ≠ []
      · exact .inr (.inr ⟨i, j, addr, blanks, plus, ds, tail, hip, hlax, hs, hextra⟩)
      · simp only [not_or, not_not] at hextra
        obtain ⟨hi, hj, rfl, rfl, rfl⟩ := hextra
        obtain rfl : i = 0 := by omega
        obtain rfl : j = 0 := by omega
        refine .inl (.inr ⟨addr, ds, hip, hlax.port, ?_⟩)
        simpa using hs
  · have hpipe : ∀ i path, path ≠ [] → s.bytes = uriText i pipeStr path →
        ∃ uri errcode, scUriNew true true s = .ok (some uri, errcode) :=
      fun i path hne hs => ⟨_, _, scUriNew_pipe hs hne⟩
    have htcp : ∀ i j addr port, DottedQuad addr → checkPortStr port = true →
        s.bytes = uriText i tcpStr (List.replicate j (ch ':') ++ (addr ++ ch ':' :: port)) →
        ∃ uri errcode, scUriNew true true s = .ok (some uri, errcode) := by
      intro i j addr port hip hport hs
      have h0 := nul_free_path hs
      rw [scUriNew_tcp hs (by simp), scUriTcp_cut j hip.ne_nil hip.no_colon
        (fun hz => h0 (by simp [hz])) (fun hz => h0 (by simp [hz])),
        (checkIp4Str_iff addr).mpr hip, hport]
      exact ⟨_, _, rfl⟩
    rintro ((⟨path, hne, hs⟩ | ⟨addr, port, hip, hport, hs⟩) | ⟨i, path, _, hne, hs⟩ |
      ⟨i, j, addr, blanks, plus, ds, tail, hip, hlax, hs, _⟩)
    · exact hpipe 0 path hne hs
    · refine htcp 0 0 addr port hip ?_ hs
      exact (checkPortStr_iff port).mpr
        ⟨[], [], port, [], by simp, by simp, .inl rfl, hport, noDigit_nil⟩
    · exact hpipe i path hne hs
    · exact htcp i j addr _ hip ((checkPortStr_iff _).mpr ⟨blanks, plus, ds, tail, rfl, hlax⟩) hs

/-- Where parsing completes, it accepts exactly the valid URIs, except on the texts it tolerates. -/
theorem acceptance_exact_iff (s : CString) (uri : Option Uri) (errcode : Int)
    (hok : scUriNew true true s = .ok (uri, errcode)) :
    (uri.isSome ↔ ValidUri s.bytes) ↔ ¬ ToleratedUri s.bytes := by
  have hacc : uri.isSome ↔ ValidUri s.bytes ∨ ToleratedUri s.bytes := by
    rw [← accepted_iff s, hok, Option.isSome_iff_exists]
    constructor
    · rintro ⟨u, rfl⟩
      exact ⟨u, errcode, rfl⟩
    · rintro ⟨u, e, he⟩
      exact ⟨u, (Prod.mk.inj (Except.ok.inj he)).1⟩
  have hdisj := valid_not_tolerated (s := s.bytes)
  rw [hacc]
  constructor
  · intro h ht
    exact hdisj (h.mp (.inr ht)) ht
  · intro hnt
    exact ⟨fun h => h.resolve_right hnt, .inl⟩

def plainUri : CString :=
  ⟨[ch 't', ch 'c', ch 'p', ch ':', ch '/', ch '/', ch '1', ch '.', ch '2', ch '.', ch '3', ch '.',
    ch '4', ch ':', ch '5'], by decide⟩

theorem octet_one {d : UInt8} (h : isDigit d = true) : Octet [d] := by
  refine ⟨by simp, by simpa using h, ?_⟩
  have := ((isDigit_iff d).mp h).2
  simp only [decimal, List.foldl_cons, List.foldl_nil]
  omega

theorem quad_1234 : DottedQuad [ch '1', ch '.', ch '2', ch '.', ch '3', ch '.', ch '4'] :=
  ⟨[ch '1'], [ch '2'], [ch '3'], [ch '4'], octet_one (by decide), octet_one (by decide),
    octet_one (by decide), octet_one (by decide), rfl⟩

theorem port_5 : PortText [ch '5'] := by
  have h : decimal [ch '5'] = 5 := rfl
  exact ⟨by simp, List.forall_mem_singleton.mpr (by decide), by omega, by omega⟩

theorem plainUri_valid : ValidUri plainUri.bytes := .inr ⟨_, _, quad_1234, port_5, rfl⟩

theorem acceptance_exact_plain :
    ∃ uri errcode, scUriNew true true plainUri = .ok (uri, errcode) ∧ uri.isSome = true ∧
      ¬ ToleratedUri plainUri.bytes := by
  have h := acceptance_exact_iff plainUri _ _ rfl
  exact ⟨_, _, rfl, rfl, h.mp (iff_of_true rfl plainUri_valid)⟩

def trailingUri : CString :=
  ⟨plainUri.bytes ++ [ch 'x'], by decide⟩

theorem trailing_text_accepted :
    ∃ uri errcode, scUriNew true true trailingUri = .ok (uri, errcode) ∧ uri.isSome = true ∧
      ¬ ValidUri trailingUri.bytes := by
  refine ⟨_, _, rfl, rfl, ?_⟩
  intro hv
  exact valid_not_tolerated hv (.inr ⟨0, 0, _, [], [], _, [ch 'x'], quad_1234,
    ⟨by simp, .inl rfl, port_5, noDigit_cons [] (by decide)⟩, rfl, by simp⟩)

end ShortCircuit.UriAcceptance
