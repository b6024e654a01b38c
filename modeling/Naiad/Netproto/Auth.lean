import Naiad.Lib.JsonValue
import Naiad.Netproto.Sign

/-!
# Naiad.Netproto.Auth

The authentication of single requests: a signature over the method, the path, the requested hash
domain, a timestamp and the body, carried in three headers and accepted for five minutes.

* `fresh_iff`: the saturating arithmetic of the freshness check is plain distance.
* `parseI64_toString`: the timestamp header reads back as the timestamp.
* `verifyAuth_ok`: what a verified request was signed with.
* `verifyAuth_signAuth`: a signed request verifies just within the window around its timestamp.
-/

namespace Naiad
namespace Netproto

open Lib

def authFreshnessSecs : Int := 300

/-! ## Arithmetic of `i64` -/

/-- The nearest value of 64 bits with a sign. -/
def clampI64 (v : Int) : Int :=
  if v < -2 ^ 63 then -2 ^ 63 else if 2 ^ 63 ≤ v then 2 ^ 63 - 1 else v

def saturatingSub (a b : Int) : Int := clampI64 (a - b)

def saturatingAbs (a : Int) : Int := clampI64 a.natAbs

/-- `str::parse::<i64>`. -/
def parseI64 (s : String) : Option Int :=
  (readInt s.toList).filter fun i => -2 ^ 63 ≤ i ∧ i < 2 ^ 63

/-- A value of the type `i64`. -/
def IsI64 (i : Int) : Prop := -2 ^ 63 ≤ i ∧ i < 2 ^ 63

theorem fresh_iff (now ts : Int) :
    saturatingAbs (saturatingSub now ts) ≤ authFreshnessSecs ↔
      (now - ts).natAbs ≤ 300 := by
  simp only [saturatingAbs, saturatingSub, clampI64, authFreshnessSecs]
  split_ifs <;> omega

theorem readInt_toString (i : Int) : readInt (toString i).toList = some i := by
  have hdigits : ∀ n, isDigits (Nat.toDigits 10 n) = true := by
    intro n
    rw [isDigits, Bool.and_eq_true, List.all_eq_true]
    refine ⟨?_, fun c hc => isDigit_of_mem_toDigits hc⟩
    simp [Nat.toDigits_ne_nil]
  have hvalue : ∀ n, Nat.ofDigitChars 10 (Nat.toDigits 10 n) 0 = n := by
    intro n
    simp
  rw [readInt_eq_some]
  cases i with
  | ofNat n =>
    rw [Int.ofNat_eq_natCast, int_toList_ofNat]
    have h := Spells.plain (hdigits n)
    rwa [hvalue] at h
  | negSucc n =>
    rw [int_toList_negSucc]
    have h := Spells.minus (hdigits (n + 1))
    rw [hvalue] at h
    rwa [Int.negSucc_eq]

theorem parseI64_toString {i : Int} (hi : IsI64 i) : parseI64 (toString i) = some i := by
  rw [parseI64, readInt_toString]
  exact Option.filter_eq_some_iff.2 ⟨rfl, by simpa [IsI64] using hi⟩

/-! ## Headers and verification -/

/-- The three headers of an authenticated request; a header that is absent or no text is `none`. -/
structure AuthHeaders where
  key : Option String
  ts : Option String
  sig : Option String

structure Request where
  method : String
  path : String
  query : String
  headers : AuthHeaders
  body : List Byte

def authKey (scheme : Ed25519) (hex : String) : Except String (List Byte) :=
  match hexDecode hex with
  | none => .error "x-naiad-key is not hex"
  | some bytes =>
    if bytes.length ≠ 32 then .error "x-naiad-key is not 32 bytes"
    else if scheme.isKey bytes then .ok bytes
    else .error "invalid x-naiad-key"

def authSig (hex : String) : Except String (List Byte) :=
  match hexDecode hex with
  | none => .error "x-naiad-sig is not hex"
  | some bytes => if bytes.length ≠ 64 then .error "x-naiad-sig is not 64 bytes" else .ok bytes

def verifyAuth (scheme : Ed25519) (blake3 : List Byte → Hash) (keyHex sigHex : String)
    (req : AuthRequest) (now : Int) : Except String Unit :=
  if authFreshnessSecs < saturatingAbs (saturatingSub now req.timestamp) then
    .error "stale auth timestamp"
  else do
    let key ← authKey scheme keyHex
    let sig ← authSig sigHex
    if scheme.verifyStrict key
        (authCanonicalBytes blake3 req.method req.path req.domain req.timestamp req.body) sig then
      .ok ()
    else .error "auth signature mismatch"

/-- A key pair of a signature scheme: what it signs verifies. -/
structure SigningKey (scheme : Ed25519) where
  seed : List Byte
  verifying : List Byte
  size : verifying.length = 32
  isKey : scheme.isKey verifying = true
  sigSize : ∀ m, (scheme.sign seed m).length = 64
  verifies : ∀ m, scheme.verifyStrict verifying m (scheme.sign seed m) = true

section

variable {scheme : Ed25519} {blake3 : List Byte → Hash}

namespace SigningKey

def publicHex (k : SigningKey scheme) : String := String.ofList (hexChars k.verifying)

def sign (k : SigningKey scheme) (m : ByteArray) : String :=
  String.ofList (hexChars (scheme.sign k.seed m))

def signAuth (k : SigningKey scheme) (blake3 : List Byte → Hash) (req : AuthRequest) : String :=
  k.sign (authCanonicalBytes blake3 req.method req.path req.domain req.timestamp req.body)

@[simp] theorem hexDecode_publicHex (k : SigningKey scheme) :
    hexDecode k.publicHex = some k.verifying := by
  simp [hexDecode, publicHex, hexBytes_hexChars]

@[simp] theorem hexDecode_sign (k : SigningKey scheme) (m : ByteArray) :
    hexDecode (k.sign m) = some (scheme.sign k.seed m) := by
  simp [hexDecode, sign, hexBytes_hexChars]

end SigningKey

theorem authKey_ok {hex : String} {key : List Byte} :
    authKey scheme hex = .ok key ↔
      hexDecode hex = some key ∧ key.length = 32 ∧ scheme.isKey key = true := by
  unfold authKey
  cases hdec : hexDecode hex with
  | none => simp
  | some bytes =>
    simp only [Option.some.injEq]
    constructor
    · intro h
      obtain ⟨hlen, h⟩ := of_ite_error h
      split at h
      · cases h
        exact ⟨rfl, not_not.1 hlen, by assumption⟩
      · cases h
    · rintro ⟨rfl, hlen, hkey⟩
      simp [hlen, hkey]

theorem authSig_ok {hex : String} {sig : List Byte} :
    authSig hex = .ok sig ↔ hexDecode hex = some sig ∧ sig.length = 64 := by
  unfold authSig
  cases hdec : hexDecode hex with
  | none => simp
  | some bytes =>
    simp only [Option.some.injEq]
    constructor
    · intro h
      obtain ⟨hlen, h⟩ := of_ite_error h
      cases h
      exact ⟨rfl, not_not.1 hlen⟩
    · rintro ⟨rfl, hlen⟩
      simp [hlen]

/-- A request verifies when it is fresh and its signature is one of the key in its header. -/
theorem verifyAuth_ok {keyHex sigHex : String} {req : AuthRequest} {now : Int} :
    verifyAuth scheme blake3 keyHex sigHex req now = .ok () ↔
      (now - req.timestamp).natAbs ≤ 300 ∧ ∃ key sig, authKey scheme keyHex = .ok key ∧
        authSig sigHex = .ok sig ∧ scheme.verifyStrict key
          (authCanonicalBytes blake3 req.method req.path req.domain req.timestamp req.body)
          sig = true := by
  rw [← fresh_iff, verifyAuth]
  constructor
  · intro h
    obtain ⟨hfresh, h⟩ := of_ite_error h
    obtain ⟨key, hkey, h⟩ := bind_eq_ok.1 h
    obtain ⟨sig, hsig, h⟩ := bind_eq_ok.1 h
    refine ⟨not_lt.1 hfresh, key, sig, hkey, hsig, ?_⟩
    split at h
    · assumption
    · cases h
  · rintro ⟨hfresh, key, sig, hkey, hsig, hverify⟩
    rw [if_neg (not_lt.2 hfresh), hkey, hsig]
    simp [bind, Except.bind, hverify]

theorem SigningKey.authKey_publicHex (k : SigningKey scheme) :
    authKey scheme k.publicHex = .ok k.verifying :=
  authKey_ok.2 ⟨k.hexDecode_publicHex, k.size, k.isKey⟩

/-- What a key signed verifies within five minutes of its timestamp, and no longer. -/
theorem verifyAuth_signAuth (k : SigningKey scheme) (req : AuthRequest) (now : Int) :
    verifyAuth scheme blake3 k.publicHex (k.signAuth blake3 req) req now = .ok () ↔
      (now - req.timestamp).natAbs ≤ 300 := by
  rw [verifyAuth_ok]
  constructor
  · exact fun h => h.1
  · intro hfresh
    exact ⟨hfresh, k.verifying, _, k.authKey_publicHex,
      authSig_ok.2 ⟨k.hexDecode_sign _, k.sigSize _⟩, k.verifies _⟩

end

end Netproto
end Naiad
