import ShortCircuit.Backend
import ShortCircuit.UriLanguage

set_option autoImplicit false

/-!
# What the accessors return for an accepted URI

The parts of a URI are read back from the cut string: the protocol by comparison, the
path and the address as strings, the port by `strtol`. `IsPipe` and `IsTcp` collect
what the accessors return, and every accepted string yields one of them.
-/
namespace ShortCircuit.UriRoundTrip
open Boundary CStrings UriParser UriAddress UriLanguage Backend

def decimalText (n : ℕ) : List UInt8 := (Nat.toDigits 10 n).map ch

def quadText (a b c d : ℕ) : List UInt8 :=
  decimalText a ++ ch '.' :: (decimalText b ++ ch '.' :: (decimalText c ++ ch '.' :: decimalText d))

section Decimal

theorem isDigit_toNat {c : Char} (h : c.isDigit = true) : 48 ≤ c.toNat ∧ c.toNat ≤ 57 := by
  simp only [Char.isDigit, Bool.and_eq_true, decide_eq_true_eq, UInt32.le_iff_toNat_le] at h
  exact h

theorem ch_toNat {c : Char} (h : c.isDigit = true) : (ch c).toNat = c.toNat := by
  have hle := (isDigit_toNat h).2
  rw [ch, UInt8.toNat_ofNat']
  exact Nat.mod_eq_of_lt (by omega)

theorem decimalText_digits (n : ℕ) : ∀ x ∈ decimalText n, isDigit x = true := by
  intro x hx
  obtain ⟨c, hc, rfl⟩ := List.mem_map.mp hx
  have hd := Nat.isDigit_of_mem_toDigits (by decide) (by decide) hc
  rw [isDigit_iff, ch_toNat hd]
  exact isDigit_toNat hd

theorem decimalText_ne_nil (n : ℕ) : decimalText n ≠ [] := by
  rw [decimalText, ne_eq, List.map_eq_nil_iff]
  exact Nat.toDigits_ne_nil

theorem foldl_digits {cs : List Char} (acc : ℕ) (h : ∀ c ∈ cs, c.isDigit = true) :
    decimalFrom acc (cs.map ch) = Nat.ofDigitChars 10 cs acc := by
  induction cs generalizing acc with
  | nil => rfl
  | cons c cs ih =>
    obtain ⟨hc, hcs⟩ := List.forall_mem_cons.mp h
    have hstep := ih (10 * acc + (c.toNat - 48)) hcs
    simp only [decimalFrom, List.map_cons, List.foldl_cons, ch_toNat hc] at hstep ⊢
    rw [hstep]
    rfl

theorem decimal_decimalText (n : ℕ) : decimal (decimalText n) = n := by
  have h := foldl_digits 0 fun c hc => Nat.isDigit_of_mem_toDigits (b := 10) (n := n) (by decide) (by decide) hc
  rw [Nat.ofDigitChars_ten_toDigits] at h
  exact h

end Decimal

/-- A URI of a pipe at `path`, as the accessors see it. -/
structure IsPipe (uri : Uri) (path : List UInt8) : Prop where
  protocol : scUriProtocol uri = .ok .pipe
  filepath : cstrAt uri.str (scUriPipeFilepath uri) = .ok path

/-- A URI of a tcp address, as the accessors see it. -/
structure IsTcp (uri : Uri) (addr : List UInt8) (port : ℕ) : Prop where
  protocol : scUriProtocol uri = .ok .tcp
  ip4 : cstrAt uri.str (scUriTcpIp4 uri) = .ok addr
  port : scUriTcpPort uri = .ok port

theorem protocol_pipe (i : ℕ) (rest : List UInt8) (path : UriPath) :
    scUriProtocol ⟨cutText i pipeStr rest, some i, path⟩ = .ok .pipe := by
  simp only [scUriProtocol, isProtocolKnown_cut i rest (show 0 ∉ pipeStr by decide), strEq,
    cstrAt_proto (show 0 ∉ pipeStr by decide), Except.map, bind, Except.bind]
  rfl

theorem protocol_tcp (i : ℕ) (rest : List UInt8) (path : UriPath) :
    scUriProtocol ⟨cutText i tcpStr rest, some i, path⟩ = .ok .tcp := by
  simp only [scUriProtocol, isProtocolKnown_cut i rest (show 0 ∉ tcpStr by decide), strEq,
    cstrAt_proto (show 0 ∉ tcpStr by decide), Except.map, bind, Except.bind]
  rfl

theorem pipe_parts {s : CString} {i : ℕ} {path : List UInt8}
    (h : s.bytes = uriText i pipeStr path) (hne : path ≠ []) :
    ∃ uri, scUriNew true true s = .ok (some uri, scEuriparse) ∧ IsPipe uri path := by
  refine ⟨_, scUriNew_pipe h hne, protocol_pipe _ _ _, ?_⟩
  have hpath := cstrAt_ok (List.replicate i (ch ':') ++ pipeStr ++ [0, ch '/', ch '/']) []
    (nul_free_path h)
  have hlen : (List.replicate i (ch ':') ++ pipeStr ++ [0, ch '/', ch '/']).length = i + 7 := by
    simp [pipeStr]
  rw [hlen] at hpath
  simpa [cutText, scUriPipeFilepath] using hpath

theorem strtol_port {blanks plus ds tail : List UInt8} (h : LaxPort blanks plus ds tail) :
    ((strtol (blanks ++ (plus ++ (ds ++ tail)))).1 % 2 ^ 32).toNat = decimal ds := by
  have hle := h.port.small
  rw [strtol_digits h.blanks h.plus h.port.nonempty h.port.digits h.tail]
  simp only [clampLong, longMin, longMax]
  omega

theorem tcp_parts {s : CString} {i j : ℕ} {addr blanks plus ds tail : List UInt8}
    (hip : DottedQuad addr) (hport : LaxPort blanks plus ds tail)
    (h : s.bytes = uriText i tcpStr
      (List.replicate j (ch ':') ++ (addr ++ ch ':' :: (blanks ++ (plus ++ (ds ++ tail)))))) :
    ∃ uri, scUriNew true true s = .ok (some uri, scEuriparse) ∧ IsTcp uri addr (decimal ds) := by
  have h0 := nul_free_path h
  have haddr : 0 ∉ addr := fun hz => h0 (by simp [hz])
  have hrest : 0 ∉ blanks ++ (plus ++ (ds ++ tail)) := fun hz =>
    h0 (List.mem_append_right _ (List.mem_append_right _ (List.mem_cons_of_mem _ hz)))
  have hcheck := (checkPortStr_iff _).mpr ⟨blanks, plus, ds, tail, rfl, hport⟩
  have hnew := scUriNew_tcp h (by simp)
  rw [scUriTcp_cut j hip.ne_nil hip.no_colon haddr hrest, (checkIp4Str_iff addr).mpr hip,
    hcheck] at hnew
  refine ⟨_, hnew, ?_, cstrAt_address j haddr, ?_⟩
  · have hproto := protocol_tcp i (ch '/' :: ch '/' :: (List.replicate j (ch ':') ++
      (addr ++ 0 :: (blanks ++ (plus ++ (ds ++ tail))))))
    simpa [cutText] using hproto _
  · simp only [scUriTcpPort, cstrAt_port j hrest, Except.map, strtol_port hport]

/-- Every accepted string is a pipe or a tcp URI, with the parts that its text shows. -/
theorem accepted_parts {s : CString} {uri : Uri} {errcode : Int}
    (h : scUriNew true true s = .ok (some uri, errcode)) :
    (∃ i path, path ≠ [] ∧ s.bytes = uriText i pipeStr path ∧ IsPipe uri path) ∨
      ∃ i j addr blanks plus ds tail, DottedQuad addr ∧ LaxPort blanks plus ds tail ∧
        s.bytes = uriText i tcpStr
          (List.replicate j (ch ':') ++ (addr ++ ch ':' :: (blanks ++ (plus ++ (ds ++ tail))))) ∧
        IsTcp uri addr (decimal ds) := by
  have hp := scUriNew_parsed s
  rw [h] at hp
  cases hp with
  | pipe i path hne hs _ =>
    obtain ⟨u, hu, hparts⟩ := pipe_parts hs hne
    rw [h] at hu
    obtain rfl := Option.some.inj (Prod.mk.inj (Except.ok.inj hu)).1
    exact .inl ⟨i, path, hne, hs, hparts⟩
  | tcp i j addr port hip hport hs _ =>
    obtain ⟨blanks, plus, ds, tail, rfl, hlax⟩ := (checkPortStr_iff port).mp hport
    obtain ⟨u, hu, hparts⟩ := tcp_parts hip hlax hs
    rw [h] at hu
    obtain rfl := Option.some.inj (Prod.mk.inj (Except.ok.inj hu)).1
    exact .inr ⟨i, j, addr, blanks, plus, ds, tail, hip, hlax, hs, hparts⟩

theorem buvBind_pipe {uri : Uri} {path : List UInt8} (h : IsPipe uri path) (ans : UvAnswers)
    (srv : SocketUv) : buvBind ans srv uri = .ok (bindPipe ans { srv with proto := .pipe } path) := by
  simp only [buvBind, h.protocol, h.filepath, bind, Except.bind, pure, Except.pure]

theorem buvBind_tcp {uri : Uri} {addr : List UInt8} {port : ℕ} (h : IsTcp uri addr port)
    (ans : UvAnswers) (srv : SocketUv) :
    buvBind ans srv uri = .ok (bindTcp ans { srv with proto := .tcp } addr port) := by
  simp only [buvBind, h.protocol, h.ip4, h.port, bind, Except.bind, pure, Except.pure]

def pipeText (f : CString) : CString :=
  ⟨uriText 0 pipeStr f.bytes, by simpa [uriText, pipeStr, ch] using f.nul_free⟩

theorem decimalText_nul_free (n : ℕ) : 0 ∉ decimalText n := by
  intro hz
  exact absurd (decimalText_digits n 0 hz) (by decide)

def tcpText (a b c d p : ℕ) : CString :=
  ⟨uriText 0 tcpStr (quadText a b c d ++ ch ':' :: decimalText p), by
    have h := decimalText_nul_free
    simp [uriText, quadText, tcpStr, ch, h]⟩

theorem decimalText_octet {n : ℕ} (h : n ≤ 255) : Octet (decimalText n) :=
  ⟨decimalText_ne_nil n, decimalText_digits n, by rwa [decimal_decimalText]⟩

theorem quadText_dotted {a b c d : ℕ} (ha : a ≤ 255) (hb : b ≤ 255) (hc : c ≤ 255)
    (hd : d ≤ 255) : DottedQuad (quadText a b c d) :=
  ⟨_, _, _, _, decimalText_octet ha, decimalText_octet hb, decimalText_octet hc,
    decimalText_octet hd, rfl⟩

theorem decimalText_port {p : ℕ} (hlow : 1 ≤ p) (hhigh : p ≤ 65535) :
    LaxPort [] [] (decimalText p) [] := by
  refine ⟨by simp, .inl rfl, ⟨decimalText_ne_nil p, decimalText_digits p, ?_, ?_⟩, noDigit_nil⟩
  · rwa [decimal_decimalText]
  · rwa [decimal_decimalText]

/-- A path and a numeric address survive parsing, and every accepted URI has a known protocol, a
port in range if it is tcp, and can be bound without an assertion. -/
theorem uri_round_trip :
    (∀ f : CString, f.bytes ≠ [] →
      ∃ uri, scUriNew true true (pipeText f) = .ok (some uri, scEuriparse) ∧ IsPipe uri f.bytes) ∧
    (∀ a b c d p, a ≤ 255 → b ≤ 255 → c ≤ 255 → d ≤ 255 → 1 ≤ p → p ≤ 65535 →
      ∃ uri, scUriNew true true (tcpText a b c d p) = .ok (some uri, scEuriparse) ∧
        IsTcp uri (quadText a b c d) p) ∧
    ∀ s uri errcode, scUriNew true true s = .ok (some uri, errcode) →
      (scUriProtocol uri = .ok .pipe ∨ scUriProtocol uri = .ok .tcp ∧
        ∃ p, scUriTcpPort uri = .ok p ∧ 1 ≤ p ∧ p ≤ 65535) ∧
      ∀ ans srv, ∃ r, buvBind ans srv uri = .ok r := by
  refine ⟨fun f hne => pipe_parts rfl hne, ?_, ?_⟩
  · intro a b c d p ha hb hc hd hlow hhigh
    have hparts := tcp_parts (s := tcpText a b c d p) (i := 0) (j := 0)
      (quadText_dotted ha hb hc hd) (decimalText_port hlow hhigh) (by simp [tcpText])
    rwa [decimal_decimalText] at hparts
  · intro s uri errcode h
    rcases accepted_parts h with ⟨i, path, _, _, hpipe⟩ |
      ⟨i, j, addr, blanks, plus, ds, tail, _, hlax, _, htcp⟩
    · exact ⟨.inl hpipe.protocol, fun ans srv => ⟨_, buvBind_pipe hpipe ans srv⟩⟩
    · exact ⟨.inr ⟨htcp.protocol, _, htcp.port, hlax.port.positive, hlax.port.small⟩,
        fun ans srv => ⟨_, buvBind_tcp htcp ans srv⟩⟩

end ShortCircuit.UriRoundTrip
