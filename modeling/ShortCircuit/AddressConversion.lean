import ShortCircuit.OpenAttempts
import ShortCircuit.UriRoundTrip

set_option autoImplicit false

/-!
# The validator and the address converter

`check_ip4` is the loop of `inet_pton4` without its test for superfluous zeros, so it
accepts texts that `uv_ip4_addr` refuses. `Converter` states what libuv documents of
`uv_ip4_addr`; the two agree on an accepted URI exactly when no octet of its address is
padded with zeros.
-/
namespace ShortCircuit.AddressConversion
open Boundary CStrings UriParser UriAddress UriLanguage UriRoundTrip Backend OpenAttempts

/-- A zero in front of other digits. -/
def Padded (ds : List UInt8) : Prop := ∃ rest, rest ≠ [] ∧ ds = ch '0' :: rest

def StrictQuad (s : List UInt8) : Prop :=
  ∃ a b c d, (Octet a ∧ ¬ Padded a) ∧ (Octet b ∧ ¬ Padded b) ∧ (Octet c ∧ ¬ Padded c) ∧
    (Octet d ∧ ¬ Padded d) ∧ s = a ++ ch '.' :: (b ++ ch '.' :: (c ++ ch '.' :: d))

/-- `uv_ip4_addr` returns zero on four decimal octets without superfluous zeros, and only there. -/
def Converter (ip4Addr : List UInt8 → ℕ → Int × SockAddr) : Prop :=
  ∀ ip4 port, (ip4Addr ip4 port).1 = 0 ↔ StrictQuad ip4

/-- A tcp URI with an octet that is padded. -/
def PaddedAddress (s : List UInt8) : Prop :=
  ∃ i j a b c d port, Octet a ∧ Octet b ∧ Octet c ∧ Octet d ∧
    s = uriText i tcpStr (List.replicate j (ch ':') ++
      ((a ++ ch '.' :: (b ++ ch '.' :: (c ++ ch '.' :: d))) ++ ch ':' :: port)) ∧
    (Padded a ∨ Padded b ∨ Padded c ∨ Padded d)

section Quads

variable {a b c d a' b' c' d' : List UInt8}

theorem octet_dot_inj {rest rest' : List UInt8} (ha : Octet a) (ha' : Octet a')
    (h : a ++ ch '.' :: rest = a' ++ ch '.' :: rest') : a = a' ∧ rest = rest' := by
  obtain ⟨rfl, hrest⟩ :=
    digits_unique ha.digits ha'.digits (noDigit_dot rest) (noDigit_dot rest') h
  exact ⟨rfl, (List.cons.inj hrest).2⟩

theorem quad_inj (ha : Octet a) (hb : Octet b) (hc : Octet c) (ha' : Octet a') (hb' : Octet b')
    (hc' : Octet c')
    (h : a ++ ch '.' :: (b ++ ch '.' :: (c ++ ch '.' :: d)) =
      a' ++ ch '.' :: (b' ++ ch '.' :: (c' ++ ch '.' :: d'))) :
    a = a' ∧ b = b' ∧ c = c' ∧ d = d' := by
  obtain ⟨hfst, htail⟩ := octet_dot_inj ha ha' h
  obtain ⟨hsnd, htail'⟩ := octet_dot_inj hb hb' htail
  obtain ⟨hthd, hlast⟩ := octet_dot_inj hc hc' htail'
  exact ⟨hfst, hsnd, hthd, hlast⟩

theorem strictQuad_iff (ha : Octet a) (hb : Octet b) (hc : Octet c) (hd : Octet d) :
    StrictQuad (a ++ ch '.' :: (b ++ ch '.' :: (c ++ ch '.' :: d))) ↔
      ¬ (Padded a ∨ Padded b ∨ Padded c ∨ Padded d) := by
  simp only [not_or]
  constructor
  · rintro ⟨a', b', c', d', ⟨ha', hpa⟩, ⟨hb', hpb⟩, ⟨hc', hpc⟩, ⟨_, hpd⟩, h⟩
    obtain ⟨rfl, rfl, rfl, rfl⟩ := quad_inj ha hb hc ha' hb' hc' h
    exact ⟨hpa, hpb, hpc, hpd⟩
  · rintro ⟨hpa, hpb, hpc, hpd⟩
    exact ⟨a, b, c, d, ⟨ha, hpa⟩, ⟨hb, hpb⟩, ⟨hc, hpc⟩, ⟨hd, hpd⟩, rfl⟩

end Quads

theorem paddedAddress_iff {s addr port : List UInt8} {i j : ℕ} (hip : DottedQuad addr)
    (hs : s = uriText i tcpStr (List.replicate j (ch ':') ++ (addr ++ ch ':' :: port))) :
    PaddedAddress s ↔ ¬ StrictQuad addr := by
  obtain ⟨a, b, c, d, ha, hb, hc, hd, rfl⟩ := id hip
  rw [strictQuad_iff ha hb hc hd, not_not]
  constructor
  · rintro ⟨i', j', a', b', c', d', port', ha', hb', hc', hd', hs', hpad⟩
    have htcp : tcpStr ≠ [] ∧ ch ':' ∉ tcpStr := by decide
    have hip' : DottedQuad (a' ++ ch '.' :: (b' ++ ch '.' :: (c' ++ ch '.' :: d'))) :=
      ⟨a', b', c', d', ha', hb', hc', hd', rfl⟩
    obtain ⟨_, _, hrest⟩ := token_inj htcp.1 htcp.2 htcp.1 htcp.2 (hs.symm.trans hs')
    simp only [List.cons.injEq, true_and] at hrest
    obtain ⟨_, hquad, _⟩ := token_inj hip.ne_nil hip.no_colon hip'.ne_nil hip'.no_colon hrest
    obtain ⟨rfl, rfl, rfl, rfl⟩ := quad_inj ha hb hc ha' hb' hc' hquad
    exact hpad
  · exact fun hpad => ⟨i, j, a, b, c, d, port, ha, hb, hc, hd, hs, hpad⟩

theorem buvConnect_tcp {uri : Uri} {addr : List UInt8} {port : ℕ} (h : IsTcp uri addr port)
    (ans : UvAnswers) (clt : SocketUv) :
    buvConnect ans clt uri = .ok (connectTcp ans clt addr port) := by
  simp only [buvConnect, h.protocol, h.ip4, h.port, bind, Except.bind, pure, Except.pure]

/-- `uv_ip4_addr` converts the address of `uri`, so that connect and bind fail only where their
init call or their last call does. -/
structure Converts (ans : UvAnswers) (uri : Uri) : Prop where
  address : ∃ ip4 port, cstrAt uri.str (scUriTcpIp4 uri) = .ok ip4 ∧
    scUriTcpPort uri = .ok port ∧ (ans.ip4Addr ip4 port).1 = 0
  connect : ∀ clt, ∃ r, buvConnect ans clt uri = .ok r ∧
    r.value = if ans.init = 0 then ans.last else ans.init
  bind : ∀ srv, ∃ r, buvBind ans srv uri = .ok r ∧
    r.value = if ans.init = 0 then ans.last else ans.init

theorem attempt_value {a : Attempt} (h : a.resolved.1 = 0) (init : Int) (uv : SocketUv) :
    (a.result init uv).value = if init = 0 then a.last else init := by
  have hr := attempted a init uv
  generalize a.result init uv = r at hr ⊢
  cases hr with
  | refused hi => exact (if_neg hi).symm
  | unresolved hi ha => exact absurd h ha
  | called hi ha => exact (if_pos hi).symm

theorem converts_of_address {ans : UvAnswers} {uri : Uri} {addr : List UInt8} {port : ℕ}
    (h : IsTcp uri addr port) : Converts ans uri ↔ (ans.ip4Addr addr port).1 = 0 := by
  constructor
  · rintro ⟨⟨ip4, p, hip, hp, hz⟩, _, _⟩
    obtain rfl := Except.ok.inj (hip.symm.trans h.ip4)
    obtain rfl := Except.ok.inj (hp.symm.trans h.port)
    exact hz
  · intro hz
    exact ⟨⟨addr, port, h.ip4, h.port, hz⟩,
      fun clt => ⟨_, buvConnect_tcp h ans clt, by rw [connectTcp_attempt, attempt_value hz]⟩,
      fun srv => ⟨_, buvBind_tcp h ans srv, by rw [bindTcp_attempt, attempt_value hz]⟩⟩

/-- The address of an accepted tcp URI is converted exactly when none of its octets is padded. -/
theorem converts_iff (ans : UvAnswers) (s : CString) (uri : Uri) (errcode : Int)
    (hconv : Converter ans.ip4Addr) (h : scUriNew true true s = .ok (some uri, errcode))
    (htcp : scUriProtocol uri = .ok .tcp) : Converts ans uri ↔ ¬ PaddedAddress s.bytes := by
  rcases accepted_parts h with ⟨i, path, _, _, hpipe⟩ |
    ⟨i, j, addr, blanks, plus, ds, tail, hip, _, hs, hparts⟩
  · rw [hpipe.protocol] at htcp
    cases htcp
  · rw [converts_of_address hparts, hconv, paddedAddress_iff hip hs, not_not]

/-- Whether a digit follows a zero at the start of an octet; the flag tells whether one starts. -/
def paddedFrom : Bool → List UInt8 → Bool
  | _, [] => false
  | start, c :: cs => (start && c == ch '0' && cs.head?.any isDigit) || paddedFrom (c == ch '.') cs

theorem paddedFrom_digits {ds rest : List UInt8} (hd : ∀ d ∈ ds, isDigit d = true) :
    paddedFrom false (ds ++ rest) = paddedFrom false rest := by
  induction ds with
  | nil => rfl
  | cons c ds ih =>
    obtain ⟨hc, hds⟩ := List.forall_mem_cons.mp hd
    have hdot : (c == ch '.') = false := by simpa using ne_of_isDigit hc (x := ch '.') (by decide)
    simp only [List.cons_append, paddedFrom, Bool.false_and, Bool.false_or, hdot, ih hds]

theorem paddedFrom_octet {ds rest : List UInt8} (h : Octet ds) (hr : NoDigit rest) :
    paddedFrom true (ds ++ rest) = true ↔ Padded ds ∨ paddedFrom false rest = true := by
  obtain ⟨c, cs, rfl⟩ := List.exists_cons_of_ne_nil h.nonempty
  obtain ⟨hc, hcs⟩ := List.forall_mem_cons.mp h.digits
  have hdot : (c == ch '.') = false := by simpa using ne_of_isDigit hc (x := ch '.') (by decide)
  have hnext : (cs ++ rest).head?.any isDigit = true ↔ cs ≠ [] := by
    cases cs with
    | nil =>
      cases rest with
      | nil => simp
      | cons d more => simp [hr d more rfl]
    | cons d ds => simp [hcs d List.mem_cons_self]
  have hpadded : Padded (c :: cs) ↔ c = ch '0' ∧ cs ≠ [] := by
    constructor
    · rintro ⟨rest', hne, heq⟩
      obtain ⟨rfl, rfl⟩ := List.cons.inj heq
      exact ⟨rfl, hne⟩
    · rintro ⟨rfl, hne⟩
      exact ⟨cs, hne, rfl⟩
  simp only [List.cons_append, paddedFrom, Bool.true_and, hdot, paddedFrom_digits hcs,
    Bool.or_eq_true, Bool.and_eq_true, beq_iff_eq, hnext, hpadded]

theorem paddedFrom_dot (rest : List UInt8) :
    paddedFrom false (ch '.' :: rest) = paddedFrom true rest := by
  simp only [paddedFrom, Bool.false_and, Bool.false_or, beq_self_eq_true]

theorem paddedFrom_quad {a b c d : List UInt8} (ha : Octet a) (hb : Octet b) (hc : Octet c)
    (hd : Octet d) :
    paddedFrom true (a ++ ch '.' :: (b ++ ch '.' :: (c ++ ch '.' :: d))) = true ↔
      Padded a ∨ Padded b ∨ Padded c ∨ Padded d := by
  have hlast := paddedFrom_octet hd noDigit_nil
  rw [List.append_nil] at hlast
  rw [paddedFrom_octet ha (noDigit_dot _), paddedFrom_dot, paddedFrom_octet hb (noDigit_dot _),
    paddedFrom_dot, paddedFrom_octet hc (noDigit_dot _), paddedFrom_dot, hlast]
  simp [paddedFrom]

def uvEinval : Int := -22

def sockaddrIn (port : ℕ) (octets : List UInt8) : SockAddr :=
  [2, 0, UInt8.ofNat (port / 256), UInt8.ofNat port] ++ octets ++ List.replicate 8 0

/-- A converter with the documented behaviour. -/
def uvIp4Addr (ip4 : List UInt8) (port : ℕ) : Int × SockAddr :=
  if checkIp4Str ip4 && !paddedFrom true ip4 then
    (0, sockaddrIn port ((ip4Loop ip4Start ip4).elim [] Ip4Loop.tmp))
  else (uvEinval, sockaddrIn port [0, 0, 0, 0])

theorem converter_uvIp4Addr : Converter uvIp4Addr := by
  intro ip4 port
  have hzero : (uvIp4Addr ip4 port).1 = 0 ↔
      checkIp4Str ip4 = true ∧ ¬ paddedFrom true ip4 = true := by
    simp only [uvIp4Addr, Bool.and_eq_true, Bool.not_eq_true', Bool.not_eq_true]
    split
    · rename_i h
      exact iff_of_true rfl h
    · rename_i h
      have hne : ¬ uvEinval = 0 := by decide
      exact iff_of_false hne h
  rw [hzero, checkIp4Str_iff]
  constructor
  · rintro ⟨⟨a, b, c, d, ha, hb, hc, hd, rfl⟩, hpad⟩
    rw [paddedFrom_quad ha hb hc hd] at hpad
    exact (strictQuad_iff ha hb hc hd).mpr hpad
  · intro h
    obtain ⟨a, b, c, d, ⟨ha, _⟩, ⟨hb, _⟩, ⟨hc, _⟩, ⟨hd, _⟩, rfl⟩ := id h
    refine ⟨⟨a, b, c, d, ha, hb, hc, hd, rfl⟩, ?_⟩
    rw [paddedFrom_quad ha hb hc hd]
    exact (strictQuad_iff ha hb hc hd).mp h

def libuvAnswers : UvAnswers := ⟨0, uvIp4Addr, 0⟩

def loopbackUri : CString :=
  ⟨[ch 't', ch 'c', ch 'p', ch ':', ch '/', ch '/', ch '1', ch '2', ch '7', ch '.', ch '0', ch '.',
    ch '0', ch '.', ch '1', ch ':', ch '8', ch '0'], by decide⟩

theorem converts_loopback :
    ∃ uri errcode, scUriNew true true loopbackUri = .ok (some uri, errcode) ∧
      Converts libuvAnswers uri ∧ ¬ PaddedAddress loopbackUri.bytes := by
  have hstrict : StrictQuad [ch '1', ch '2', ch '7', ch '.', ch '0', ch '.', ch '0', ch '.', ch '1'] :=
    (converter_uvIp4Addr _ 80).mp (by decide)
  have htext : loopbackUri.bytes = uriText 0 tcpStr (List.replicate 0 (ch ':') ++
      ([ch '1', ch '2', ch '7', ch '.', ch '0', ch '.', ch '0', ch '.', ch '1'] ++
        ch ':' :: [ch '8', ch '0'])) := rfl
  have hiff := paddedAddress_iff ((checkIp4Str_iff _).mp (by decide)) htext
  have hpad : ¬ PaddedAddress loopbackUri.bytes := fun h => hiff.mp h hstrict
  exact ⟨_, _, rfl, (converts_iff libuvAnswers loopbackUri _ _ converter_uvIp4Addr rfl rfl).mpr hpad,
    hpad⟩

def paddedUri : CString :=
  ⟨[ch 't', ch 'c', ch 'p', ch ':', ch '/', ch '/', ch '0', ch '1', ch '.', ch '2', ch '.', ch '3',
    ch '.', ch '4', ch ':', ch '5'], by decide⟩

/-- The text `tcp://01.2.3.4:5` is accepted, and then neither connect nor bind gets past the
address. -/
theorem padded_address_refused :
    ∃ uri errcode, scUriNew true true paddedUri = .ok (some uri, errcode) ∧
      scUriProtocol uri = .ok .tcp ∧ Converter libuvAnswers.ip4Addr ∧
      (∃ r, buvConnect libuvAnswers buvInit uri = .ok r ∧ r.value = uvEinval ∧
        r.state.stream.phase = .active) ∧
      ¬ Converts libuvAnswers uri := by
  refine ⟨_, _, rfl, rfl, converter_uvIp4Addr, ⟨_, rfl, by decide, by decide⟩, ?_⟩
  rintro ⟨⟨ip4, port, hip, hport, hz⟩, _, _⟩
  obtain rfl := Except.ok.inj hip
  obtain rfl := Except.ok.inj hport
  exact absurd hz (by decide)

end ShortCircuit.AddressConversion
