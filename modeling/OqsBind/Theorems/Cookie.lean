import OqsBind.Ns.Cookie

/-! Cookies are for all servers that hold the secret. A cookie is the keyed value of what it says and of the client's
    address, and it is recognised under each secret that a server holds; but the last block for an IPv6 address under AES is
    always encrypted under the server's first secret. -/

namespace OqsBind.Ns
open Isc List

/-- What a cookie says: the client's part, the nonce or the header, and the time. -/
def cookieHead (alg : CookieAlg) (cookie : Octets 8) (when nonce : UInt32) : Bytes :=
  match alg with
  | .siphash24 => cookie.val ++ [NS_COOKIE_VERSION_1, 0, 0, 0] ++ be32 when.toNat
  | .aes => cookie.val ++ be32 nonce.toNat ++ be32 when.toNat

/-- The proof of a cookie under one secret: SipHash of what it says and of the address, or the AES blocks, each folded into
    the next one. -/
def cookieProof (F : Keyed) (alg : CookieAlg) (secret : Octets 16) (head : Bytes) (addr : Netaddr) : Octets 8 :=
  let block (input : Bytes) : Octets 8 := xorHalves (F.aes128Crypt secret input)
  match alg, addr with
  | .siphash24, .in4 addr => F.siphash24 secret (head ++ addr.val)
  | .siphash24, .in6 addr => F.siphash24 secret (head ++ addr.val)
  | .aes, .in4 addr => block ((block head).val ++ addr.val ++ [0, 0, 0, 0])
  | .aes, .in6 addr => block ((block ((block head).val ++ addr.val.take 8)).val ++ addr.val.drop 8)

/-- The cookie under one secret. -/
def keyedCookie (F : Keyed) (alg : CookieAlg) (secret : Octets 16) (cookie : Octets 8) (when nonce : UInt32)
    (addr : Netaddr) : Bytes :=
  cookieHead alg cookie when nonce ++ (cookieProof F alg secret (cookieHead alg cookie when nonce) addr).val

/-- The secret of the server is used where another one was meant. -/
def Misses (sctx : Server) (addr : Netaddr) (secret : Octets 16) : Prop :=
  sctx.cookiealg = .aes ∧ (∃ a, addr = .in6 a) ∧ secret ≠ sctx.secret

section
variable {F : Keyed} {sctx : Server} {client : Client} {when nonce now : UInt32} {secret : Octets 16}

theorem length_cookieHead (alg : CookieAlg) (cookie : Octets 8) : (cookieHead alg cookie when nonce).length = 16 := by
  cases alg <;> simp [cookieHead, cookie.property]

theorem length_keyedCookie (alg : CookieAlg) (cookie : Octets 8) (addr : Netaddr) :
    (keyedCookie F alg secret cookie when nonce addr).length = COOKIE_SIZE := by
  rw [keyedCookie, length_append, length_cookieHead, (cookieProof F alg secret _ addr).property]
  rfl

/-- Where the secret of the server is not used for another one, `compute_cookie` computes the keyed value. -/
theorem computeCookie_eq (h : ¬ Misses sctx client.peeraddr secret) :
    computeCookie F sctx client when nonce secret =
      keyedCookie F sctx.cookiealg secret client.cookie when nonce client.peeraddr := by
  unfold computeCookie keyedCookie
  cases halg : sctx.cookiealg with
  | siphash24 => cases client.peeraddr <;> simp [cookieHead, cookieProof, be16]
  | aes =>
    cases haddr : client.peeraddr with
    | in4 addr => rfl
    | in6 addr =>
      have hsame : secret = sctx.secret := by
        by_contra hne
        exact h ⟨halg, ⟨addr, haddr⟩, hne⟩
      subst hsame
      rfl

/-- The time and the nonce that a cookie says. -/
def readWhen (opt : Bytes) : UInt32 := UInt32.ofNat (get32 (opt.drop 12))
def readNonce (opt : Bytes) : UInt32 := UInt32.ofNat (get32 (opt.drop 8))

theorem read_be32 (n : UInt32) (rest : Bytes) : UInt32.ofNat (get32 (be32 n.toNat ++ rest)) = n := by
  rw [get32_be32 n.toNat_lt, UInt32.ofNat_toNat]

section
variable (alg : CookieAlg) (cookie : Octets 8) (addr : Netaddr)

theorem take_keyedCookie : (keyedCookie F alg secret cookie when nonce addr).take 8 = cookie.val := by
  rw [keyedCookie]
  cases alg <;> simp [cookieHead, cookie.property]

theorem readWhen_keyedCookie : readWhen (keyedCookie F alg secret cookie when nonce addr) = when := by
  have hdrop : ∀ (a rest : Bytes), a.length = 12 → readWhen (a ++ be32 when.toNat ++ rest) = when := by
    intro a rest ha
    rw [readWhen, append_assoc, ← ha, drop_left, read_be32]
  cases alg with
  | siphash24 => exact hdrop _ _ (by simp [cookie.property])
  | aes => exact hdrop _ _ (by simp [cookie.property])

theorem readNonce_keyedCookie : readNonce (keyedCookie F .aes secret cookie when nonce addr) = nonce := by
  have hdrop : ∀ (a rest : Bytes), a.length = 8 → readNonce (a ++ be32 nonce.toNat ++ rest) = nonce := by
    intro a rest ha
    rw [readNonce, append_assoc, ← ha, drop_left, read_be32]
  rw [keyedCookie, cookieHead, append_assoc]
  exact hdrop _ _ cookie.property

end

theorem keyedCookie_reread {alg : CookieAlg} {cookie cookie' : Octets 8} {addr : Netaddr} {opt : Bytes}
    (hopt : opt = keyedCookie F alg secret cookie when nonce addr) (hcookie : cookie'.val = opt.take 8) :
    keyedCookie F alg secret cookie' (readWhen opt) (readNonce opt) addr = opt := by
  subst hopt
  obtain rfl : cookie' = cookie := Subtype.ext (hcookie.trans (take_keyedCookie ..))
  rw [readWhen_keyedCookie]
  cases alg with
  | siphash24 => unfold keyedCookie cookieHead cookieProof; rfl
  | aes => rw [readNonce_keyedCookie]

theorem matchAltsecrets_iff {old : Bytes} {secrets : List (Octets 16)} :
    matchAltsecrets F sctx client when nonce old secrets = true ↔
      ∃ s ∈ secrets, old = computeCookie F sctx client when nonce s := by
  induction secrets with
  | nil => simp [matchAltsecrets]
  | cons s rest ih =>
    rw [matchAltsecrets]
    split_ifs with h
    · exact iff_of_true rfl ⟨s, .head _, h⟩
    · rw [ih]
      simp [h]

/-- A cookie is recognised when it is not too old or too new and is what the server computes under a secret it holds. -/
theorem checkCookie_have {old : Bytes} (hnot : client.attributes.havecookie = false) :
    (checkCookie F sctx client old when nonce now).attributes.havecookie = true ↔
      serialGt when (now + 300) = false ∧ serialLt when (now - 3600) = false ∧
        ∃ s ∈ sctx.secret :: sctx.altsecrets, old = computeCookie F sctx client when nonce s := by
  have hheld : (∃ s ∈ sctx.secret :: sctx.altsecrets, old = computeCookie F sctx client when nonce s) ↔
      (old = computeCookie F sctx client when nonce sctx.secret ||
        matchAltsecrets F sctx client when nonce old sctx.altsecrets) = true := by
    simp [matchAltsecrets_iff]
  rw [hheld]
  unfold checkCookie
  split_ifs with htime hmatch
  · refine iff_of_false (by simp [hnot]) fun h => ?_
    simp [h.1, h.2.1] at htime
  · simp only [Bool.or_eq_true, not_or, Bool.not_eq_true] at htime
    exact iff_of_true rfl ⟨htime.1, htime.2, hmatch⟩
  · exact iff_of_false (by simp [hnot]) fun h => hmatch h.2.2

/-- The client as it is when the cookie is checked. -/
structure Reads (client c : Client) (opt : Bytes) : Prop where
  cookie : c.cookie.val = opt.take 8
  peeraddr : c.peeraddr = client.peeraddr
  havecookie : c.attributes.havecookie = client.attributes.havecookie

theorem processCookie_check {opt : Bytes} (hanswer : sctx.answercookie = true)
    (hwant : client.attributes.wantcookie = false) (hlen : opt.length = COOKIE_SIZE) :
    ∃ c, Reads client c opt ∧
      processCookie F sctx client opt now = .ok (checkCookie F sctx c opt (readWhen opt) (readNonce opt) now) := by
  have h8 : 8 ≤ opt.length := by
    rw [hlen]
    decide
  unfold processCookie
  rw [hanswer, hwant, dif_pos h8]
  rw [if_neg (not_not.mpr hlen)]
  refine ⟨_, ?_, rfl⟩
  exact ⟨rfl, rfl, rfl⟩

theorem processCookie_have {client' : Client} {opt : Bytes} (hnot : client.attributes.havecookie = false)
    (h : processCookie F sctx client opt now = .ok client') (hhave : client'.attributes.havecookie = true) :
    sctx.answercookie = true ∧ ∃ c, Reads client c opt ∧
      client' = checkCookie F sctx c opt (readWhen opt) (readNonce opt) now := by
  by_cases hanswer : sctx.answercookie = true ∧ client.attributes.wantcookie = false
  · by_cases hlen : opt.length = COOKIE_SIZE
    · obtain ⟨c, hc, hrun⟩ := processCookie_check hanswer.1 hanswer.2 hlen
      rw [hrun] at h
      cases h
      exact ⟨hanswer.1, c, hc, rfl⟩
    · unfold processCookie at h
      rw [hanswer.1, hanswer.2, if_neg (by decide)] at h
      split_ifs at h with h8 hnew
      · cases h
        rw [show client.attributes.havecookie = true from hhave] at hnot
        cases hnot
      · cases h
        rw [show client.attributes.havecookie = true from hhave] at hnot
        cases hnot
  · unfold processCookie at h
    rw [if_pos] at h
    · cases h
      rw [hnot] at hhave
      cases hhave
    · simpa [imp_iff_not_or] using hanswer

end

/-- What cookies are for, on a server and for clients at an address: those of every server whose secret it holds are
    recognised while they are fresh, and what is recognised is the keyed value under one of its secrets. -/
structure Honours (F : Keyed) (sctx : Server) (addr : Netaddr) : Prop where
  accepts : ∀ (issuer : Server) (asked client : Client) (when nonce now : UInt32) (opt : Bytes),
    issuer.cookiealg = sctx.cookiealg → issuer.secret ∈ sctx.secret :: sctx.altsecrets → asked.peeraddr = addr →
    addoptCookie F issuer asked when nonce = some opt → sctx.answercookie = true → client.peeraddr = addr →
    client.attributes.wantcookie = false → client.attributes.havecookie = false →
    serialGt when (now + 300) = false → serialLt when (now - 3600) = false →
    ∃ client', processCookie F sctx client opt now = .ok client' ∧ client'.attributes.havecookie = true
  sound : ∀ (client client' : Client) (opt : Bytes) (now : UInt32), client.peeraddr = addr →
    client.attributes.havecookie = false → processCookie F sctx client opt now = .ok client' →
    client'.attributes.havecookie = true →
    ∃ secret ∈ sctx.secret :: sctx.altsecrets, ∃ cookie when nonce,
      opt = keyedCookie F sctx.cookiealg secret cookie when nonce addr

section
variable {sctx : Server} {addr : Netaddr}

theorem honours_of_hits (h : sctx.answercookie = true → ∀ s ∈ sctx.altsecrets, ¬ Misses sctx addr s) (F : Keyed) :
    Honours F sctx addr := by
  have hheld : sctx.answercookie = true → ∀ s ∈ sctx.secret :: sctx.altsecrets, ¬ Misses sctx addr s := by
    intro hanswer s hs
    rcases mem_cons.mp hs with rfl | hs
    · exact fun hm => hm.2.2 rfl
    · exact h hanswer s hs
  constructor
  · intro issuer asked client when nonce now opt halg hsecret hasked hopt hanswer haddr hwant hnot hnew hold
    have hmade : opt = keyedCookie F sctx.cookiealg issuer.secret asked.cookie when nonce addr := by
      unfold addoptCookie at hopt
      split_ifs at hopt
      rw [← Option.some.inj hopt, computeCookie_eq fun hm => hm.2.2 rfl, halg, hasked]
    have hlen : opt.length = COOKIE_SIZE := hmade ▸ length_keyedCookie ..
    obtain ⟨c, hc, hrun⟩ := processCookie_check (F := F) hanswer hwant hlen
    refine ⟨_, hrun, (checkCookie_have (hc.havecookie.trans hnot)).mpr ?_⟩
    have hwhen : readWhen opt = when := by rw [hmade, readWhen_keyedCookie]
    refine ⟨hwhen ▸ hnew, hwhen ▸ hold, issuer.secret, hsecret, ?_⟩
    rw [computeCookie_eq (by rw [hc.peeraddr, haddr]; exact hheld hanswer _ hsecret), hc.peeraddr, haddr]
    exact (keyedCookie_reread hmade hc.cookie).symm
  · intro client client' opt now haddr hnot hrun hhave
    obtain ⟨hanswer, c, hc, rfl⟩ := processCookie_have hnot hrun hhave
    obtain ⟨-, -, s, hs, hopt⟩ := (checkCookie_have (hc.havecookie.trans hnot)).mp hhave
    refine ⟨s, hs, c.cookie, readWhen opt, readNonce opt, hopt.trans ?_⟩
    rw [computeCookie_eq (by rw [hc.peeraddr, haddr]; exact hheld hanswer _ hs), hc.peeraddr, haddr]

/-- Keyed functions that tell one key from all others, whatever the input. -/
def telling (key : Octets 16) : Keyed where
  siphash24 _ _ := ⟨replicate 8 0, rfl⟩
  aes128Crypt k _ := ⟨(if k = key then 1 else 0) :: replicate 15 0, rfl⟩

theorem xorHalves_telling (key k : Octets 16) (input : Bytes) :
    (xorHalves ((telling key).aes128Crypt k input)).val = (if k = key then 1 else 0) :: replicate 7 0 := by
  show zipWith _ (take 8 ((if k = key then 1 else 0) :: _)) (drop 8 ((if k = key then 1 else 0) :: _)) = _
  split_ifs <;> rfl

theorem computeCookie_telling (sctx : Server) {client : Client} {a : Octets 16} (halg : sctx.cookiealg = .aes)
    (haddr : client.peeraddr = .in6 a) (key secret : Octets 16) (when nonce : UInt32) :
    (computeCookie (telling key) sctx client when nonce secret).drop 16 =
      (if sctx.secret = key then 1 else 0) :: replicate 7 0 := by
  unfold computeCookie
  rw [halg, haddr]
  dsimp only
  rw [xorHalves_telling]
  have hlen : (client.cookie.val ++ be32 nonce.toNat ++ be32 when.toNat).length = 16 := by simp [client.cookie.property]
  exact drop_left' hlen

theorem Misses.not_honours {s : Octets 16} (hanswer : sctx.answercookie = true) (hs : s ∈ sctx.altsecrets)
    (h : Misses sctx addr s) : ¬ Honours (telling sctx.secret) sctx addr := by
  obtain ⟨halg, ⟨a, rfl⟩, hne⟩ := h
  intro hhonours
  let client : Client := ⟨.in6 a, ⟨replicate 8 0, rfl⟩, ⟨false, false, false⟩, ⟨0, 0, 0, 0, 0, 0⟩⟩
  let asked : Client := { client with attributes := ⟨true, false, false⟩ }
  obtain ⟨client', hrun, hhave⟩ := hhonours.accepts { sctx with secret := s } asked client 0 0 0 _ rfl (.tail _ hs) rfl rfl
    hanswer rfl rfl rfl (by decide) (by decide)
  obtain ⟨-, c, hc, rfl⟩ := processCookie_have rfl hrun hhave
  obtain ⟨-, -, s', -, hopt⟩ := (checkCookie_have hc.havecookie).mp hhave
  have hdrop := congrArg (drop 16) hopt
  rw [computeCookie_telling sctx halg hc.peeraddr, computeCookie_telling { sctx with secret := s } halg rfl, if_pos rfl,
    if_neg hne] at hdrop
  exact absurd (cons.inj hdrop).1 (by decide)

/-- A server honours cookies, whatever the keyed functions, unless it uses AES, the client's address is an IPv6 address and
    one of the alternate secrets is not the server's first one. -/
theorem cookies_shared (sctx : Server) (addr : Netaddr) :
    (∀ F, Honours F sctx addr) ↔ ¬ (sctx.answercookie = true ∧ ∃ s ∈ sctx.altsecrets, Misses sctx addr s) := by
  constructor
  · rintro h ⟨hanswer, s, hs, hmiss⟩
    exact hmiss.not_honours hanswer hs (h _)
  · exact fun h => honours_of_hits fun hanswer s hs hmiss => h ⟨hanswer, s, hs, hmiss⟩

end

/-- Two servers: the secret of the first is an alternate secret of the second. -/
def oldSecret : Octets 16 := ⟨replicate 16 1, rfl⟩
def newSecret : Octets 16 := ⟨replicate 16 2, rfl⟩
def firstServer : Server := ⟨true, .aes, oldSecret, []⟩
def secondServer : Server := ⟨true, .aes, newSecret, [oldSecret]⟩

/-- A client at the address `::` that sends its first cookie option. -/
def newClient (wantcookie : Bool) : Client :=
  ⟨.in6 ⟨replicate 16 0, rfl⟩, ⟨replicate 8 0, rfl⟩, ⟨wantcookie, false, false⟩, ⟨0, 0, 0, 0, 0, 0⟩⟩

/-- The cookie of the first server is not recognised by the second. -/
theorem cookies_shared_rollover : firstServer.secret ∈ secondServer.altsecrets ∧
    ((addoptCookie (telling newSecret) firstServer (newClient true) 0 0).map fun opt =>
      (processCookie (telling newSecret) secondServer (newClient false) opt 0).toOption.map (·.attributes)) =
      some (some ⟨true, false, true⟩) :=
  ⟨.head _, by decide⟩

end OqsBind.Ns
