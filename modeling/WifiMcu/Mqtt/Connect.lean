import Mathlib.Data.Int.Notation
import Mathlib.Tactic.Common

/-!
# Connecting

`NetworkConnect` opens a socket and connects it to the first IPv4 address of a host.
`TLSConnect` tries all addresses of the host, and negotiates a session on the connection. The
outcomes of the calls into the libraries are parameters.
-/

namespace WifiMcu.Mqtt

/-- The functions that `mqttread` and `mqttwrite` point to. -/
inductive Routine
  | lwip | tls
  | other (address : BitVec 32)
  deriving DecidableEq

/-- `Network`, with the descriptor of its `mbedtls_net_context`. -/
structure Network where
  socket : ℤ
  mqttread : Routine
  mqttwrite : Routine
  fd : ℤ
  deriving DecidableEq

/-- The three fields that the client uses. -/
def Network.installed (n : Network) : ℤ × Routine × Routine := (n.socket, n.mqttread, n.mqttwrite)

/-- How a call ends: it returns a value, or ends without a `return` statement, or goes on with
its loop, or dereferences a null pointer. -/
inductive Ending
  | returns (rc : ℤ)
  | noReturn | waiting | nullDereference
  deriving DecidableEq

/-- A call that connects: how it ends, the network, and the sockets that the call has opened
and not closed. -/
structure ConnectResult where
  ending : Ending
  network : Network
  opened : List ℕ
  deriving DecidableEq

/-- A connection is installed if every step succeeds. Otherwise the call returns an error and
leaves nothing behind. -/
structure AllOrNothing (succeeds : Prop) (routine : Routine) (n : Network) (r : ConnectResult) :
    Prop where
  zero_iff : r.ending = .returns 0 ↔ succeeds
  installed : succeeds → ∃ s ∈ r.opened, r.network.installed = ((s : ℤ), routine, routine)
  failed : ¬ succeeds → r.ending ≠ .waiting →
    (∃ rc : ℤ, rc ≠ 0 ∧ r.ending = .returns rc) ∧ r.network.installed = n.installed ∧
      r.opened = []

/-! ### `NetworkConnect` -/

/-- `AF_INET`. -/
def afInet : ℕ := 2

/-- `SO_ERROR`. -/
def soError : ℕ := 0x1007

/-- `struct addrinfo`, with the IPv4 address that it has if its family is `AF_INET`. -/
structure AddrInfo where
  family : ℕ
  addr : BitVec 32
  deriving DecidableEq

/-- The outcomes of the calls in `NetworkConnect`. A socket is a descriptor, or -1. -/
structure PlainOutcomes where
  getaddrinfo : ℤ
  addresses : List AddrInfo
  socket : Option ℕ
  connect : BitVec 32 → ℤ

/-- The first address with the family `AF_INET`, or else the first address. -/
def preferred (addresses : List AddrInfo) : Option AddrInfo :=
  (addresses.find? fun res => res.family = afInet).or addresses.head?

/-- The lookup of the host: `rc` and the address, unless the list is empty. -/
def resolve (o : PlainOutcomes) : Option (ℤ × BitVec 32) :=
  if o.getaddrinfo = 0 then
    match preferred o.addresses with
    | none => none
    | some result => if result.family = afInet then some (0, result.addr) else some (-1, 0)
  else some (o.getaddrinfo, 0)

/-- Opening and connecting the socket: `rc`, `sock` and the open sockets. -/
def openSocket (o : PlainOutcomes) (rc : ℤ) (address : BitVec 32) : ℤ × ℤ × List ℕ :=
  if rc = 0 then
    match o.socket with
    | none => (rc, -1, [])
    | some sock => (o.connect address, sock, [sock])
  else (rc, -1, [])

/-- `NetworkConnect`. It does not look at `rc` any more after the socket has been opened. -/
def networkConnect (o : PlainOutcomes) (n : Network) : ConnectResult :=
  match resolve o with
  | none => ⟨.nullDereference, n, []⟩
  | some (rc, address) =>
    let (_, sock, opened) := openSocket o rc address
    if sock = soError then ⟨.returns (-1), n, opened⟩
    else ⟨.returns 0, { n with socket := sock, mqttread := .lwip, mqttwrite := .lwip }, opened⟩

/-- Every step of `NetworkConnect` succeeds. -/
structure PlainSucceeds (o : PlainOutcomes) : Prop where
  resolved : o.getaddrinfo = 0
  connected : ∃ res, o.addresses.find? (fun res => res.family = afInet) = some res ∧
    o.connect res.addr = 0
  opened : o.socket ≠ none

/-! ### `TLSConnect` -/

/-- The values of `MBEDTLS_ERR_NET_UNKNOWN_HOST`, `MBEDTLS_ERR_NET_SOCKET_FAILED`,
`MBEDTLS_ERR_NET_CONNECT_FAILED`, `MBEDTLS_ERR_SSL_WANT_READ` and
`MBEDTLS_ERR_SSL_WANT_WRITE`. Errors are negative. -/
structure Codes where
  netUnknownHost : ℤ
  netSocketFailed : ℤ
  netConnectFailed : ℤ
  sslWantRead : ℤ
  sslWantWrite : ℤ
  neg : ∀ e ∈ [netUnknownHost, netSocketFailed, netConnectFailed, sslWantRead, sslWantWrite], e < 0

/-- The flags of a verification that are tested, and the other ones. -/
inductive BadCert
  | expired | revoked | cnMismatch | notTrusted
  | other (bit : ℕ)
  deriving DecidableEq

/-- The outcomes of `socket` and `connect` for one address. -/
structure Attempt where
  socket : Option ℕ
  connect : ℤ
  deriving DecidableEq

/-- The outcomes of the calls in `mbedtls_net_connect` and `TLSConnect`. -/
structure TlsOutcomes where
  getaddrinfo : ℤ
  attempts : List Attempt
  configDefaults : ℤ
  sslSetup : ℤ
  crtParse : ℤ
  handshake : List ℤ
  verifyResult : List BadCert

/-- The loop of `mbedtls_net_connect`: `ret`, the descriptor and the open sockets. -/
def netConnectLoop (codes : Codes) (ret fd : ℤ) (opened : List ℕ) :
    List Attempt → ℤ × ℤ × List ℕ
  | [] => (ret, fd, opened)
  | cur :: rest =>
    match cur.socket with
    | none => netConnectLoop codes codes.netSocketFailed (-1) opened rest
    | some s =>
      let opened := s :: opened
      if cur.connect = 0 then (0, s, opened)
      else netConnectLoop codes codes.netConnectFailed s (opened.erase s) rest

/-- `mbedtls_net_init` and `mbedtls_net_connect`. -/
def netConnect (codes : Codes) (t : TlsOutcomes) : ℤ × ℤ × List ℕ :=
  if t.getaddrinfo ≠ 0 then (codes.netUnknownHost, -1, [])
  else netConnectLoop codes codes.netUnknownHost (-1) [] t.attempts

/-- The results after which the handshake is called again. -/
def Codes.Retry (codes : Codes) (ret : ℤ) : Prop :=
  ret = codes.sslWantRead ∨ ret = codes.sslWantWrite

instance (codes : Codes) (ret : ℤ) : Decidable (codes.Retry ret) :=
  inferInstanceAs (Decidable (_ ∨ _))

/-- The loop of the handshake, with `none` while it has not ended. -/
def handshakeLoop (codes : Codes) : List ℤ → Option ℤ
  | [] => none
  | ret :: rest =>
    if ret ≠ 0 then
      if codes.Retry ret then handshakeLoop codes rest else some ret
    else some 0

/-- The end of `TLSConnect`, after the handshake. -/
def checkCertificate (t : TlsOutcomes) (n : Network) (opened : List ℕ) : ConnectResult :=
  if .expired ∈ t.verifyResult then ⟨.returns 1, n, opened⟩
  else if .revoked ∈ t.verifyResult then ⟨.returns 1, n, opened⟩
  else if .cnMismatch ∈ t.verifyResult then ⟨.returns 1, n, opened⟩
  else if .notTrusted ∈ t.verifyResult then ⟨.returns 1, n, opened⟩
  else ⟨.noReturn, { n with socket := n.fd, mqttread := .tls, mqttwrite := .tls }, opened⟩

/-- `TLSConnect`. -/
def tlsConnect (codes : Codes) (t : TlsOutcomes) (n : Network) : ConnectResult :=
  let (ret, fd, opened) := netConnect codes t
  let n := { n with fd := fd }
  if ret ≠ 0 then ⟨.returns ret, n, opened⟩
  else if t.configDefaults ≠ 0 then ⟨.returns t.configDefaults, n, opened⟩
  else if t.sslSetup ≠ 0 then ⟨.returns t.sslSetup, n, opened⟩
  else if t.crtParse ≠ 0 then ⟨.returns t.crtParse, n, opened⟩
  else
    match handshakeLoop codes t.handshake with
    | none => ⟨.waiting, n, opened⟩
    | some ret => if ret ≠ 0 then ⟨.returns ret, n, opened⟩ else checkCertificate t n opened

/-- `mbedtls_net_connect` succeeds: the lookup does, and an address can be connected to. -/
def TlsOutcomes.NetConnects (t : TlsOutcomes) : Prop :=
  t.getaddrinfo = 0 ∧ ∃ a ∈ t.attempts, a.socket ≠ none ∧ a.connect = 0

/-- The steps between the connection and the handshake succeed. -/
def TlsOutcomes.SetUp (t : TlsOutcomes) : Prop :=
  t.configDefaults = 0 ∧ t.sslSetup = 0 ∧ t.crtParse = 0

/-- Every step of `TLSConnect` succeeds. -/
structure TlsSucceeds (codes : Codes) (t : TlsOutcomes) : Prop where
  connected : t.NetConnects
  setUp : t.SetUp
  finished : ∃ retries rest, t.handshake = retries ++ 0 :: rest ∧ ∀ ret ∈ retries, codes.Retry ret
  verified : ∀ flag ∈ [BadCert.expired, .revoked, .cnMismatch, .notTrusted], flag ∉ t.verifyResult

/-- `TLSConnect` has come to its handshake, which goes on. -/
def TlsOutcomes.Negotiates (codes : Codes) (t : TlsOutcomes) : Prop :=
  t.SetUp ∧ ∀ ret ∈ t.handshake, codes.Retry ret

/-! ### The connection without TLS -/

/-- The call finds an address, and the socket is opened exactly if it is one of IPv4. -/
theorem resolve_eq_zero_iff (o : PlainOutcomes) (address : BitVec 32) :
    resolve o = some (0, address) ↔ o.getaddrinfo = 0 ∧ ∃ res,
      o.addresses.find? (fun res => res.family = afInet) = some res ∧ res.addr = address := by
  rw [resolve]
  by_cases hrc : o.getaddrinfo = 0
  · rw [if_pos hrc, preferred]
    cases hfound : o.addresses.find? (fun res => res.family = afInet) with
    | some res =>
      have hinet : res.family = afInet := by simpa using List.find?_some hfound
      simp [hrc, hinet]
    | none =>
      cases hhead : o.addresses.head? with
      | none => simp
      | some res =>
        have hmem : res ∈ o.addresses := List.mem_of_mem_head? hhead
        have hother : ¬ res.family = afInet := fun hinet =>
          List.find?_eq_none.mp hfound res hmem (decide_eq_true hinet)
        simp [hother]
  · rw [if_neg hrc]
    simp [hrc]

/-- The outcome if all calls succeed. -/
theorem networkConnect_of_succeeds {o : PlainOutcomes} (h : PlainSucceeds o) (n : Network) :
    ∃ sock, o.socket = some sock ∧ networkConnect o n =
      if sock = soError then ⟨.returns (-1), n, [sock]⟩
      else ⟨.returns 0, { n with socket := sock, mqttread := .lwip, mqttwrite := .lwip }, [sock]⟩ := by
  obtain ⟨res, hfound, -⟩ := h.connected
  obtain ⟨sock, hsock⟩ := Option.ne_none_iff_exists'.mp h.opened
  have hresolve := (resolve_eq_zero_iff o res.addr).mpr ⟨h.resolved, res, hfound, rfl⟩
  refine ⟨sock, hsock, ?_⟩
  rw [networkConnect, hresolve]
  dsimp only
  rw [openSocket, if_pos rfl, hsock]
  dsimp only
  simp only [Int.natCast_inj]

/-- The call only returns an error if the descriptor has the value of `SO_ERROR`, and then it
leaves a socket open. -/
theorem networkConnect_opened {o : PlainOutcomes} {n : Network} {rc : ℤ} (hrc : rc ≠ 0)
    (hreturns : (networkConnect o n).ending = .returns rc) : (networkConnect o n).opened ≠ [] := by
  rw [networkConnect] at hreturns ⊢
  cases hresolve : resolve o with
  | none =>
    rw [hresolve] at hreturns
    cases hreturns
  | some found =>
    obtain ⟨rc', address⟩ := found
    rw [hresolve] at hreturns
    dsimp only at hreturns ⊢
    split_ifs at hreturns ⊢ with hsock
    · rw [openSocket] at hsock ⊢
      by_cases hrc' : rc' = 0
      · rw [if_pos hrc'] at hsock ⊢
        cases hopen : o.socket with
        | none =>
          rw [hopen] at hsock
          cases hsock
        | some sock => exact List.cons_ne_nil sock []
      · rw [if_neg hrc'] at hsock
        cases hsock
    · exact absurd (Ending.returns.inj hreturns).symm hrc

/-- The call does not wait. -/
theorem networkConnect_ne_waiting (o : PlainOutcomes) (n : Network) :
    (networkConnect o n).ending ≠ .waiting := by
  rw [networkConnect]
  cases resolve o with
  | none => exact Ending.noConfusion
  | some found =>
    dsimp only
    split_ifs <;> exact Ending.noConfusion

/-- `NetworkConnect` does all or nothing exactly if every step succeeds, with a descriptor
that is not the value of `SO_ERROR`. -/
theorem networkConnect_allOrNothing_iff (o : PlainOutcomes) (n : Network) :
    AllOrNothing (PlainSucceeds o) .lwip n (networkConnect o n) ↔
      PlainSucceeds o ∧ o.socket ≠ some soError := by
  constructor
  · intro h
    by_cases hsucceeds : PlainSucceeds o
    · refine ⟨hsucceeds, fun hsock => ?_⟩
      obtain ⟨sock, hsock', heq⟩ := networkConnect_of_succeeds hsucceeds n
      rw [hsock] at hsock'
      rw [if_pos (Option.some.inj hsock').symm] at heq
      have hzero := h.zero_iff.mpr hsucceeds
      rw [heq] at hzero
      cases hzero
    · obtain ⟨⟨rc, hrc, hreturns⟩, -, hopened⟩ :=
        h.failed hsucceeds (networkConnect_ne_waiting o n)
      exact absurd hopened (networkConnect_opened hrc hreturns)
  · rintro ⟨hsucceeds, hne⟩
    obtain ⟨sock, hsock, heq⟩ := networkConnect_of_succeeds hsucceeds n
    rw [if_neg (fun hcode => hne (by rw [hsock, hcode]))] at heq
    rw [heq]
    exact {
      zero_iff := iff_of_true rfl hsucceeds
      installed := fun _ => ⟨sock, List.mem_singleton_self sock, rfl⟩
      failed := fun hfails => absurd hsucceeds hfails }

/-! ### The connection with TLS -/

section

variable {codes : Codes} {t : TlsOutcomes} {n : Network}

/-- The loop over the addresses ends with the first connection, and closes the other
sockets. -/
theorem netConnectLoop_spec {ret fd : ℤ} (hret : ret ≠ 0) (opened : List ℕ) (as : List Attempt) :
    ((∃ a ∈ as, a.socket ≠ none ∧ a.connect = 0) ∧
      ∃ s : ℕ, netConnectLoop codes ret fd opened as = (0, (s : ℤ), s :: opened)) ∨
    ((¬ ∃ a ∈ as, a.socket ≠ none ∧ a.connect = 0) ∧
      ∃ ret' fd', ret' ≠ 0 ∧ netConnectLoop codes ret fd opened as = (ret', fd', opened)) := by
  have hcodes := codes.neg
  simp only [List.forall_mem_cons] at hcodes
  obtain ⟨-, hsocket, hconnect, -⟩ := hcodes
  induction as generalizing ret fd with
  | nil => exact Or.inr ⟨by simp, ret, fd, hret, rfl⟩
  | cons cur rest ih =>
    simp only [List.mem_cons, exists_eq_or_imp]
    cases hcur : cur.socket with
    | none =>
      rw [netConnectLoop, hcur]
      simpa using ih (Int.ne_of_lt hsocket)
    | some s =>
      by_cases hzero : cur.connect = 0
      · refine Or.inl ⟨Or.inl ⟨by simp, hzero⟩, s, ?_⟩
        rw [netConnectLoop, hcur]
        exact if_pos hzero
      · rw [netConnectLoop, hcur]
        dsimp only
        rw [if_neg hzero, List.erase_cons_head]
        simpa [hzero] using ih (Int.ne_of_lt hconnect)

/-- `mbedtls_net_connect` leaves its socket open if it succeeds, and nothing otherwise. -/
theorem netConnect_spec (codes : Codes) (t : TlsOutcomes) :
    (t.NetConnects ∧ ∃ s : ℕ, netConnect codes t = (0, (s : ℤ), [s])) ∨
      (¬ t.NetConnects ∧ ∃ ret fd, ret ≠ 0 ∧ netConnect codes t = (ret, fd, [])) := by
  have hcodes := codes.neg
  rw [List.forall_mem_cons] at hcodes
  have hunknown := Int.ne_of_lt hcodes.1
  rw [netConnect, TlsOutcomes.NetConnects]
  by_cases hrc : t.getaddrinfo = 0
  · rw [if_neg (not_not.mpr hrc)]
    simpa only [hrc, true_and] using netConnectLoop_spec hunknown [] t.attempts
  · rw [if_pos hrc]
    exact Or.inr ⟨fun h => hrc h.1, codes.netUnknownHost, -1, hunknown, rfl⟩

/-- A result after which the handshake is called again is an error. -/
theorem Codes.Retry.ne_zero {ret : ℤ} (h : codes.Retry ret) : ret ≠ 0 := by
  have hcodes := codes.neg
  simp only [List.forall_mem_cons] at hcodes
  obtain ⟨-, -, -, hread, hwrite, -⟩ := hcodes
  rcases h with rfl | rfl
  · exact Int.ne_of_lt hread
  · exact Int.ne_of_lt hwrite

/-- The handshake goes on as long as all results say so. -/
theorem handshakeLoop_eq_none_iff (rets : List ℤ) :
    handshakeLoop codes rets = none ↔ ∀ ret ∈ rets, codes.Retry ret := by
  induction rets with
  | nil => exact iff_of_true rfl fun ret hret => by cases hret
  | cons ret rest ih =>
    rw [handshakeLoop, List.forall_mem_cons, ← ih]
    by_cases hretry : codes.Retry ret
    · rw [if_pos hretry.ne_zero, if_pos hretry]
      exact ⟨fun h => ⟨hretry, h⟩, fun h => h.2⟩
    · refine iff_of_false ?_ fun h => hretry h.1
      split_ifs <;> simp

/-- If the certificate is checked, the call does not return 0 and the socket stays open. -/
theorem checkCertificate_spec (t : TlsOutcomes) (n : Network) (opened : List ℕ) :
    (checkCertificate t n opened).ending ≠ .returns 0 ∧
      (checkCertificate t n opened).ending ≠ .waiting ∧
        (checkCertificate t n opened).opened = opened := by
  rw [checkCertificate]
  split_ifs <;> exact ⟨by simp, by simp, rfl⟩

/-- After `mbedtls_net_connect` the call does not return 0, and it leaves the socket open. -/
theorem tlsConnect_spec (hconnects : t.NetConnects) :
    (tlsConnect codes t n).ending ≠ .returns 0 ∧
      ((tlsConnect codes t n).ending = .waiting ↔ t.Negotiates codes) ∧
        (tlsConnect codes t n).opened ≠ [] := by
  rcases netConnect_spec codes t with ⟨-, s, heq⟩ | ⟨hfails, -⟩
  · rw [tlsConnect, heq, TlsOutcomes.Negotiates, TlsOutcomes.SetUp, ← handshakeLoop_eq_none_iff]
    dsimp only
    rw [if_neg (not_not.mpr rfl)]
    split_ifs with hdefaults hsetup hparse
    · simp [hdefaults]
    · simp [hsetup]
    · simp [hparse]
    · cases hhandshake : handshakeLoop codes t.handshake with
      | none =>
        have hsteps : t.configDefaults = 0 ∧ t.sslSetup = 0 ∧ t.crtParse = 0 :=
          ⟨not_not.mp hdefaults, not_not.mp hsetup, not_not.mp hparse⟩
        exact ⟨Ending.noConfusion, iff_of_true rfl ⟨hsteps, rfl⟩, List.cons_ne_nil s []⟩
      | some ret =>
        dsimp only
        split_ifs with hret
        · simp [hret]
        · obtain ⟨hzero, hwaiting, hopened⟩ := checkCertificate_spec t { n with fd := s } [s]
          exact ⟨hzero, iff_of_false hwaiting (by simp), by simp [hopened]⟩
  · exact absurd hconnects hfails

/-- `TLSConnect` does all or nothing exactly if `mbedtls_net_connect` fails, or if the
handshake has not ended. -/
theorem tlsConnect_allOrNothing_iff (codes : Codes) (t : TlsOutcomes) (n : Network) :
    AllOrNothing (TlsSucceeds codes t) .tls n (tlsConnect codes t n) ↔
      ¬ t.NetConnects ∨ t.Negotiates codes := by
  rcases netConnect_spec codes t with ⟨hconnects, -⟩ | ⟨hfails, ret, fd, hret, heq⟩
  · obtain ⟨hzero, hwaiting, hopened⟩ := @tlsConnect_spec codes t n hconnects
    have hnot : ¬ ¬ t.NetConnects := not_not.mpr hconnects
    rw [or_iff_right hnot, ← hwaiting]
    constructor
    · intro h
      by_contra hne
      have hfails : ¬ TlsSucceeds codes t := fun hsucceeds => hzero (h.zero_iff.mpr hsucceeds)
      exact hopened (h.failed hfails hne).2.2
    · intro hwait
      have hfails : ¬ TlsSucceeds codes t := by
        intro hsucceeds
        obtain ⟨retries, rest, hsplit, -⟩ := hsucceeds.finished
        have hzero : (0 : ℤ) ∈ t.handshake := by simp [hsplit]
        exact ((hwaiting.mp hwait).2 0 hzero).ne_zero rfl
      exact {
        zero_iff := iff_of_false hzero hfails
        installed := fun hsucceeds => absurd hsucceeds hfails
        failed := fun _ hne => absurd hwait hne }
  · have hresult : tlsConnect codes t n = ⟨.returns ret, { n with fd := fd }, []⟩ := by
      rw [tlsConnect, heq]
      exact if_pos hret
    have hfails' : ¬ TlsSucceeds codes t := fun hsucceeds => hfails hsucceeds.connected
    refine iff_of_true ?_ (Or.inl hfails)
    rw [hresult]
    exact {
      zero_iff := iff_of_false (by simp [hret]) hfails'
      installed := fun hsucceeds => absurd hsucceeds hfails'
      failed := fun _ _ => ⟨⟨ret, hret, rfl⟩, rfl, rfl⟩ }

end

/-! ### Both calls -/

/-- **Connecting is all-or-nothing** exactly in these cases. `NetworkConnect` does not notice
that a step has failed, and `TLSConnect` neither closes its socket nor returns a value when it
succeeds. -/
theorem connect_allOrNothing_iff (o : PlainOutcomes) (codes : Codes) (t : TlsOutcomes)
    (n : Network) :
    (AllOrNothing (PlainSucceeds o) .lwip n (networkConnect o n) ↔
      PlainSucceeds o ∧ o.socket ≠ some soError) ∧
    (AllOrNothing (TlsSucceeds codes t) .tls n (tlsConnect codes t n) ↔
      ¬ t.NetConnects ∨ t.Negotiates codes) :=
  ⟨networkConnect_allOrNothing_iff o n, tlsConnect_allOrNothing_iff codes t n⟩

/-- The connection to a host with an IPv4 address is refused. -/
theorem not_connect_allOrNothing :
    ¬ ∀ (o : PlainOutcomes) (codes : Codes) (t : TlsOutcomes) (n : Network),
      AllOrNothing (PlainSucceeds o) .lwip n (networkConnect o n) ∧
        AllOrNothing (TlsSucceeds codes t) .tls n (tlsConnect codes t n) := by
  intro hall
  have hrefused := (hall ⟨0, [⟨afInet, 0x0a000001⟩], some 3, fun _ => -1⟩
    ⟨-82, -66, -68, -26880, -26752, by decide⟩ ⟨202, [], 0, 0, 0, [], []⟩
    ⟨0, .other 0, .other 0, -1⟩).1
  obtain ⟨res, hfound, hconnect⟩ := (hrefused.zero_iff.mp rfl).connected
  cases hconnect

end WifiMcu.Mqtt
