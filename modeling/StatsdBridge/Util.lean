import StatsdBridge.Go.Strconv
import StatsdBridge.Go.Net

/-! Package `util`: the listening addresses of the command line turned into the addresses the
    listeners bind.

    `IPPortFromString` does three steps, in this order, and stops at the first that fails. It
    splits the address with `net.SplitHostPort`. It resolves the host, with `0.0.0.0` for an
    empty one. It reads the port with `strconv.Atoi` and checks its range. Name resolution is
    outside the program: it is the parameter `resolveIPAddr`, standing for
    `net.ResolveIPAddr("ip", host)`, and every result here holds for every resolver.

    `addrFromString_eq_ok_iff` proves what the UDP and TCP addresses are made of. The address
    must be one of the forms `SplitHostPort` accepts, with a port that is a decimal text of `0`
    to `65535`, on a platform of `32` or `64` bits alike, and a host that the resolver resolves.
    The address then carries the resolved IP and zone and the port's value. A port that is a
    number out of range is reported with a `nil` error, whose text is `%!s(<nil>)`
    (`ipPortFromString_badPort_nil`). -/

namespace StatsdBridge.Util

open Go Go.Net Go.Strconv

/-- `*net.IPAddr`: the address (`IP`, its bytes) and its IPv6 zone (`Zone`). -/
structure IPAddr where
  ip : Bytes
  zone : Bytes
  deriving DecidableEq, Repr

/-- The errors of `IPPortFromString`: the `fmt.Errorf` that made each, with its arguments. -/
inductive AddrErr (ε : Type) where
  /-- `bad StatsD listening address: %s`, with the address. -/
  | badAddress (addr : Bytes)
  /-- `Unable to resolve %s: %s`, with the host and the resolver's error. -/
  | unableToResolve (host : Bytes) (err : ε)
  /-- `Bad port %s: %s`, with the port and `Atoi`'s error, `nil` for a number out of range. -/
  | badPort (portStr : Bytes) (err : Option Strconv.NumError)
  deriving DecidableEq, Repr

/-- The host an empty host stands for. -/
def anyHost : Bytes := ascii "0.0.0.0"

/-- What `%s` prints for a `nil` error. -/
def nilText : Bytes := ascii "%!s(<nil>)"

variable {ε : Type}

/-- `err.Error()` for an error of `IPPortFromString`, given the texts of the resolver's errors
    and of `*strconv.NumError`. -/
def AddrErr.error (errText : ε → Bytes) (numText : Strconv.NumError → Bytes) : AddrErr ε → Bytes
  | .badAddress addr => ascii "bad StatsD listening address: " ++ addr
  | .unableToResolve host err => ascii "Unable to resolve " ++ host ++ ascii ": " ++ errText err
  | .badPort portStr err =>
    ascii "Bad port " ++ portStr ++ ascii ": " ++ match err with
      | none => nilText
      | some e => numText e

/-- `util.IPPortFromString(addr)`, on a platform whose `int` has `intSize` bits. -/
def ipPortFromString (intSize : Nat) (resolveIPAddr : Bytes → Except ε IPAddr) (addr : Bytes) :
    Except (AddrErr ε) (IPAddr × Int) :=
  match splitHostPort addr with
  | .error _ => .error (.badAddress addr)
  | .ok (host, portStr) =>
    let host := if host = [] then anyHost else host
    match resolveIPAddr host with
    | .error err => .error (.unableToResolve host err)
    | .ok ip =>
      let (port, err) := atoi intSize portStr
      if err ≠ none ∨ port < 0 ∨ 65535 < port then .error (.badPort portStr err)
      else .ok (ip, port)

/-- `*net.UDPAddr`. -/
structure UDPAddr where
  ip : Bytes
  port : Int
  zone : Bytes
  deriving DecidableEq, Repr

/-- `*net.TCPAddr`. -/
structure TCPAddr where
  ip : Bytes
  port : Int
  zone : Bytes
  deriving DecidableEq, Repr

/-- The body of `UDPAddrFromString` and `TCPAddrFromString`. It takes the IP, port and zone of
    `IPPortFromString`'s result, and passes its error on. -/
def addrFromString {α : Type} (mk : Bytes → Int → Bytes → α) (intSize : Nat)
    (resolveIPAddr : Bytes → Except ε IPAddr) (addr : Bytes) : Except (AddrErr ε) α :=
  match ipPortFromString intSize resolveIPAddr addr with
  | .error err => .error err
  | .ok (ip, port) => .ok (mk ip.ip port ip.zone)

/-- `util.UDPAddrFromString(addr)`. -/
def udpAddrFromString (intSize : Nat) (resolveIPAddr : Bytes → Except ε IPAddr) (addr : Bytes) :
    Except (AddrErr ε) UDPAddr :=
  addrFromString UDPAddr.mk intSize resolveIPAddr addr

/-- `util.TCPAddrFromString(addr)`. -/
def tcpAddrFromString (intSize : Nat) (resolveIPAddr : Bytes → Except ε IPAddr) (addr : Bytes) :
    Except (AddrErr ε) TCPAddr :=
  addrFromString TCPAddr.mk intSize resolveIPAddr addr

/-! ### What is accepted -/

section Accepts

variable {intSize : Nat} (resolveIPAddr : Bytes → Except ε IPAddr)

/-- A port passes the check of `IPPortFromString` exactly when it is a decimal text of `0` to
    `65535`, whatever the platform. -/
theorem atoi_port_iff (hsize : intSize = 32 ∨ intSize = 64) (portStr : Bytes) (port : Int) :
    (atoi intSize portStr = (port, none) ∧ 0 ≤ port ∧ port ≤ 65535) ↔
      decimal portStr = some port ∧ 0 ≤ port ∧ port ≤ 65535 := by
  rw [atoi_eq_some_iff hsize]
  have h16 : (65536 : Int) ≤ 2 ^ (intSize - 1) := by rcases hsize with rfl | rfl <;> decide
  exact ⟨fun h => ⟨h.1.1, h.2⟩, fun h => ⟨⟨h.1, by omega, by omega⟩, h.2⟩⟩

/-- `IPPortFromString` gives an address exactly when `SplitHostPort` accepts it, the resolver
    resolves its host (`0.0.0.0` for an empty one), and its port is a decimal text of `0` to
    `65535`. The result is the resolved address and the port's value, on a platform of `32`
    or `64` bits alike. -/
theorem ipPortFromString_eq_ok_iff (hsize : intSize = 32 ∨ intSize = 64) (addr : Bytes)
    (ip : IPAddr) (port : Int) :
    ipPortFromString intSize resolveIPAddr addr = .ok (ip, port) ↔
      ∃ host portStr, splitHostPort addr = .ok (host, portStr) ∧
        resolveIPAddr (if host = [] then anyHost else host) = .ok ip ∧
        decimal portStr = some port ∧ 0 ≤ port ∧ port ≤ 65535 := by
  constructor
  · intro h
    unfold ipPortFromString at h
    split at h
    · nomatch h
    rename_i host portStr hs
    dsimp only at h
    cases hr : resolveIPAddr (if host = [] then anyHost else host) with
    | error => rw [hr] at h; nomatch h
    | ok ip' =>
    rw [hr] at h
    dsimp only at h
    split_ifs at h with hc
    rw [not_or, not_or, not_not, Int.not_lt, Int.not_lt] at hc
    rw [Except.ok.injEq, Prod.mk.injEq] at h
    obtain ⟨rfl, rfl⟩ := h
    exact ⟨host, portStr, hs, hr, (atoi_port_iff hsize portStr _).mp ⟨Prod.ext rfl hc.1, hc.2⟩⟩
  · rintro ⟨host, portStr, hs, hr, hport⟩
    obtain ⟨hatoi, hr₀, hr₁⟩ := (atoi_port_iff hsize portStr port).mpr hport
    simp only [ipPortFromString, hs, hr, hatoi]
    rw [if_neg (by simp only [ne_eq, not_true_eq_false, false_or]; omega)]

/-- What `addrFromString` accepts, for a result type whose value is given by its IP, port and
    zone. -/
theorem addrFromString_eq_ok_iff' {α : Type} {mk : Bytes → Int → Bytes → α}
    {getIp : α → Bytes} {getPort : α → Int} {getZone : α → Bytes}
    (hmk : ∀ x a b c, mk a b c = x ↔ getIp x = a ∧ getPort x = b ∧ getZone x = c)
    (hsize : intSize = 32 ∨ intSize = 64) (addr : Bytes) (x : α) :
    addrFromString mk intSize resolveIPAddr addr = .ok x ↔
      ∃ host portStr ip, splitHostPort addr = .ok (host, portStr) ∧
        resolveIPAddr (if host = [] then anyHost else host) = .ok ip ∧
        decimal portStr = some (getPort x) ∧ 0 ≤ getPort x ∧ getPort x ≤ 65535 ∧
        getIp x = ip.ip ∧ getZone x = ip.zone := by
  unfold addrFromString
  split
  · rename_i h
    refine ⟨nofun, fun ⟨host, portStr, ip, hs, hr, hport⟩ => ?_⟩
    rw [(ipPortFromString_eq_ok_iff _ hsize _ _ _).mpr ⟨host, portStr, hs, hr, hport.1,
      hport.2.1, hport.2.2.1⟩] at h
    nomatch h
  · rename_i ip port h
    obtain ⟨host, portStr, hs, hr, hport⟩ := (ipPortFromString_eq_ok_iff _ hsize _ _ _).mp h
    rw [Except.ok.injEq, hmk]
    constructor
    · rintro ⟨h₁, rfl, h₃⟩
      exact ⟨host, portStr, ip, hs, hr, hport.1, hport.2.1, hport.2.2, h₁, h₃⟩
    · rintro ⟨host', portStr', ip', hs', hr', hd, -, -, h₁, h₃⟩
      rw [hs', Except.ok.injEq, Prod.mk.injEq] at hs
      obtain ⟨rfl, rfl⟩ := hs
      rw [hr', Except.ok.injEq] at hr
      subst hr
      exact ⟨h₁, Option.some.inj (hd.symm.trans hport.1), h₃⟩

/-- The addresses the UDP and TCP listeners bind. `UDPAddrFromString` and `TCPAddrFromString`
    give an address exactly when `SplitHostPort` accepts the text, the resolver resolves its
    host (`0.0.0.0` for an empty one), and its port is a decimal text of `0` to `65535`. The
    address has the resolved IP and zone and the port's value, on a platform of `32` or `64`
    bits alike. -/
theorem addrFromString_eq_ok_iff (hsize : intSize = 32 ∨ intSize = 64) (addr : Bytes)
    (u : UDPAddr) (t : TCPAddr) :
    (udpAddrFromString intSize resolveIPAddr addr = .ok u ↔
      ∃ host portStr ip, splitHostPort addr = .ok (host, portStr) ∧
        resolveIPAddr (if host = [] then anyHost else host) = .ok ip ∧
        decimal portStr = some u.port ∧ 0 ≤ u.port ∧ u.port ≤ 65535 ∧
        u.ip = ip.ip ∧ u.zone = ip.zone) ∧
    (tcpAddrFromString intSize resolveIPAddr addr = .ok t ↔
      ∃ host portStr ip, splitHostPort addr = .ok (host, portStr) ∧
        resolveIPAddr (if host = [] then anyHost else host) = .ok ip ∧
        decimal portStr = some t.port ∧ 0 ≤ t.port ∧ t.port ≤ 65535 ∧
        t.ip = ip.ip ∧ t.zone = ip.zone) :=
  ⟨addrFromString_eq_ok_iff' _ (fun x _ _ _ => by cases x; simp [and_comm, eq_comm]) hsize addr u,
    addrFromString_eq_ok_iff' _ (fun x _ _ _ => by cases x; simp [and_comm, eq_comm]) hsize addr t⟩

/-- The address `:8125`, with a resolver that gives every host the empty address. -/
theorem addrFromString_eq_ok_iff_any :
    (64 = 32 ∨ 64 = 64) ∧
      ((udpAddrFromString 64 (fun _ => (.ok ⟨[], []⟩ : Except Unit IPAddr)) (ascii ":8125") =
          .ok ⟨[], 8125, []⟩ ↔
        ∃ host portStr ip, splitHostPort (ascii ":8125") = .ok (host, portStr) ∧
          (fun _ => (.ok ⟨[], []⟩ : Except Unit IPAddr)) (if host = [] then anyHost else host) =
            .ok ip ∧
          decimal portStr = some (UDPAddr.port ⟨[], 8125, []⟩) ∧ 0 ≤ UDPAddr.port ⟨[], 8125, []⟩ ∧
          UDPAddr.port ⟨[], 8125, []⟩ ≤ 65535 ∧ UDPAddr.ip ⟨[], 8125, []⟩ = ip.ip ∧
          UDPAddr.zone ⟨[], 8125, []⟩ = ip.zone) ∧
      (tcpAddrFromString 64 (fun _ => (.ok ⟨[], []⟩ : Except Unit IPAddr)) (ascii ":8125") =
          .ok ⟨[], 8125, []⟩ ↔
        ∃ host portStr ip, splitHostPort (ascii ":8125") = .ok (host, portStr) ∧
          (fun _ => (.ok ⟨[], []⟩ : Except Unit IPAddr)) (if host = [] then anyHost else host) =
            .ok ip ∧
          decimal portStr = some (TCPAddr.port ⟨[], 8125, []⟩) ∧ 0 ≤ TCPAddr.port ⟨[], 8125, []⟩ ∧
          TCPAddr.port ⟨[], 8125, []⟩ ≤ 65535 ∧ TCPAddr.ip ⟨[], 8125, []⟩ = ip.ip ∧
          TCPAddr.zone ⟨[], 8125, []⟩ = ip.zone)) :=
  ⟨Or.inr rfl, addrFromString_eq_ok_iff _ (Or.inr rfl) _ _ _⟩

/-- A port that is a number fitting an `int` but out of `0` to `65535` is the one failing port
    reported with a `nil` error, whose text is `%!s(<nil>)`. Any other failing port is reported
    with `Atoi`'s error. -/
theorem ipPortFromString_badPort_nil (hsize : intSize = 32 ∨ intSize = 64) {addr host portStr : Bytes}
    (hs : splitHostPort addr = .ok (host, portStr)) {ip : IPAddr}
    (hr : resolveIPAddr (if host = [] then anyHost else host) = .ok ip) :
    ipPortFromString intSize resolveIPAddr addr = .error (.badPort portStr none) ↔
      ∃ v, decimal portStr = some v ∧ -(2 ^ (intSize - 1) : Int) ≤ v ∧ v < 2 ^ (intSize - 1) ∧
        (v < 0 ∨ 65535 < v) := by
  simp only [ipPortFromString, hs, hr]
  rcases hatoi : atoi intSize portStr with ⟨port, err⟩
  dsimp only
  split_ifs with hc
  · rw [Except.error.injEq, AddrErr.badPort.injEq]
    simp only [true_and]
    constructor
    · rintro rfl
      have := (atoi_eq_some_iff hsize portStr port).mp hatoi
      exact ⟨port, this.1, this.2.1, this.2.2, by simpa using hc⟩
    · rintro ⟨v, hd, hlo, hhi, -⟩
      have := (atoi_eq_some_iff hsize portStr v).mpr ⟨hd, hlo, hhi⟩
      rw [hatoi] at this
      exact (Prod.mk.inj this).2
  · simp only [reduceCtorEq, false_iff, not_exists, not_and]
    intro v hd hlo hhi hout
    have := (atoi_eq_some_iff hsize portStr v).mpr ⟨hd, hlo, hhi⟩
    rw [hatoi, Prod.mk.injEq] at this
    obtain ⟨rfl, rfl⟩ := this
    exact hc (Or.inr (by omega))

/-- The port `70000`. -/
theorem ipPortFromString_badPort_nil_seventy :
    (64 = 32 ∨ 64 = 64) ∧ splitHostPort (ascii ":70000") = .ok ([], ascii "70000") ∧
      (fun _ => (.ok ⟨[], []⟩ : Except Unit IPAddr)) (if ([] : Bytes) = [] then anyHost else []) =
        .ok ⟨[], []⟩ ∧
      (ipPortFromString 64 (fun _ => (.ok ⟨[], []⟩ : Except Unit IPAddr)) (ascii ":70000") =
          .error (.badPort (ascii "70000") none) ↔
        ∃ v, decimal (ascii "70000") = some v ∧ -(2 ^ (64 - 1) : Int) ≤ v ∧ v < 2 ^ (64 - 1) ∧
          (v < 0 ∨ 65535 < v)) :=
  ⟨Or.inr rfl, rfl, rfl, ipPortFromString_badPort_nil _ (Or.inr rfl) rfl rfl⟩

end Accepts

end StatsdBridge.Util
