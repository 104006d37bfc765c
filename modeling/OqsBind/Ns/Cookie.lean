import OqsBind.Isc.Endian
import OqsBind.Isc.Serial

/-! Server cookies (`client.c`): how a server makes and recognises them. SipHash and AES are any keyed functions. -/

namespace OqsBind.Ns
open Isc

/-- Octet strings of one length, the arrays of the source. -/
abbrev Octets (n : Nat) := { b : Bytes // b.length = n }

/-- `isc_siphash24` and `isc_aes128_crypt`. Of the 32 octets of a secret they read the first 16. -/
structure Keyed where
  siphash24 : (key : Octets 16) → (input : Bytes) → Octets 8
  aes128Crypt : (key : Octets 16) → (input : Bytes) → Octets 16

inductive CookieAlg where
  | aes | siphash24
deriving DecidableEq, Repr

/-- The address in an `isc_netaddr_t`. -/
inductive Netaddr where
  | in4 (addr : Octets 4)
  | in6 (addr : Octets 16)
deriving DecidableEq

/-- What `ns_server_t` has for cookies. -/
structure Server where
  answercookie : Bool
  cookiealg : CookieAlg
  secret : Octets 16
  altsecrets : List (Octets 16)

/-- The attributes `NS_CLIENTATTR_WANTCOOKIE`, `HAVECOOKIE` and `BADCOOKIE`. -/
structure Attributes where
  wantcookie : Bool
  havecookie : Bool
  badcookie : Bool
deriving DecidableEq, Repr

/-- The counters `ns_statscounter_cookie…`. -/
structure Stats where
  cookiein : Nat
  cookienew : Nat
  cookiebadsize : Nat
  cookiebadtime : Nat
  cookiematch : Nat
  cookienomatch : Nat
deriving DecidableEq, Repr

/-- What `ns_client_t` has for cookies. -/
structure Client where
  peeraddr : Netaddr
  cookie : Octets 8
  attributes : Attributes
  nsstats : Stats
deriving DecidableEq

def COOKIE_SIZE : Nat := 24
def NS_COOKIE_VERSION_1 : UInt8 := 1

/-- The loops over `digest[i] ^ digest[i + 8]`. -/
def xorHalves (digest : Octets 16) : Octets 8 :=
  ⟨List.zipWith (· ^^^ ·) (digest.val.take 8) (digest.val.drop 8), by simp [digest.property]⟩

/-- `compute_cookie`: what it appends to the buffer, with the server of the client's manager. -/
def computeCookie (F : Keyed) (sctx : Server) (client : Client) (when nonce : UInt32) (secret : Octets 16) : Bytes :=
  match sctx.cookiealg with
  | .siphash24 =>
    let head := client.cookie.val ++ [NS_COOKIE_VERSION_1, 0] ++ be16 0 ++ be32 when.toNat
    let input := match client.peeraddr with
      | .in4 addr => head ++ addr.val
      | .in6 addr => head ++ addr.val
    head ++ (F.siphash24 secret input).val
  | .aes =>
    let head := client.cookie.val ++ be32 nonce.toNat ++ be32 when.toNat
    let input := (xorHalves (F.aes128Crypt secret head)).val
    let digest := match client.peeraddr with
      | .in4 addr => F.aes128Crypt secret (input ++ addr.val ++ [0, 0, 0, 0])
      | .in6 addr =>
        -- the third block is encrypted under the secret of the server, not under the one that was passed
        let digest := F.aes128Crypt secret (input ++ addr.val.take 8)
        F.aes128Crypt sctx.secret ((xorHalves digest).val ++ addr.val.drop 8)
    head ++ (xorHalves digest).val

/-- The cookie that `ns_client_addopt` puts into a response. -/
def addoptCookie (F : Keyed) (sctx : Server) (client : Client) (now nonce : UInt32) : Option Bytes :=
  if client.attributes.wantcookie then some (computeCookie F sctx client now nonce sctx.secret) else none

/-- What can stop `process_cookie`: its `INSIST`. -/
inductive Fault where
  | optlen
deriving DecidableEq, Repr

/-- The loop over `altsecrets`. -/
def matchAltsecrets (F : Keyed) (sctx : Server) (client : Client) (when nonce : UInt32) (old : Bytes) :
    List (Octets 16) → Bool
  | [] => false
  | altsecret :: rest =>
    if old = computeCookie F sctx client when nonce altsecret then true
    else matchAltsecrets F sctx client when nonce old rest

/-- The check of a cookie of the right size, after the nonce and the time have been read. -/
def checkCookie (F : Keyed) (sctx : Server) (client : Client) (old : Bytes) (when nonce now : UInt32) : Client :=
  let attributes := client.attributes
  let nsstats := client.nsstats
  if serialGt when (now + 300) || serialLt when (now - 3600) then
    { client with
      attributes := { attributes with badcookie := true }
      nsstats := { nsstats with cookiebadtime := nsstats.cookiebadtime + 1 } }
  else if old = computeCookie F sctx client when nonce sctx.secret ||
      matchAltsecrets F sctx client when nonce old sctx.altsecrets then
    { client with
      attributes := { attributes with havecookie := true }
      nsstats := { nsstats with cookiematch := nsstats.cookiematch + 1 } }
  else
    { client with
      attributes := { attributes with badcookie := true }
      nsstats := { nsstats with cookienomatch := nsstats.cookienomatch + 1 } }

/-- `process_cookie`, on the octets of the option. -/
def processCookie (F : Keyed) (sctx : Server) (client : Client) (opt : Bytes) (now : UInt32) : Except Fault Client :=
  if !sctx.answercookie || client.attributes.wantcookie then .ok client
  else if h : 8 ≤ opt.length then
    let attributes := { client.attributes with wantcookie := true }
    let nsstats := { client.nsstats with cookiein := client.nsstats.cookiein + 1 }
    let client := { client with attributes, nsstats, cookie := ⟨opt.take 8, by simp [h]⟩ }
    if opt.length ≠ COOKIE_SIZE then
      if opt.length = 8 then .ok { client with nsstats := { nsstats with cookienew := nsstats.cookienew + 1 } }
      else
        .ok { client with
          attributes := { attributes with badcookie := true }
          nsstats := { nsstats with cookiebadsize := nsstats.cookiebadsize + 1 } }
    else
      let nonce := UInt32.ofNat (get32 (opt.drop 8))
      let when := UInt32.ofNat (get32 (opt.drop 12))
      .ok (checkCookie F sctx client opt when nonce now)
  else .error .optlen

end OqsBind.Ns
