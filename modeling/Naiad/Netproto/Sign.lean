import Mathlib.Data.Set.Function
import Naiad.Core.Tag
import Naiad.Lib.Fallible
import Naiad.Netproto.Wire

/-!
# Naiad.Netproto.Sign

What a signature covers: the canonical bytes of a mapping submission, of a relation submission and
of an authenticated request, and the checks a submission passes before its signature is looked at.
The signature scheme and the body hash are parameters.

* `Message.lines`: each frame is a list of lines that hold no line feed.
* `signed_frames_injective`: **equal frames are frames of one kind with the same signed fields, and
  no signature made over one frame verifies over another**.
-/

namespace Naiad
namespace Netproto

open Lib

def minSupportedVersion : Nat := 8

def ensureSupported (version : Nat) : Except String Unit :=
  if minSupportedVersion ≤ version ∧ version ≤ protocolVersion then .ok ()
  else .error ("unsupported repo protocol version " ++ toString version ++ " (this client speaks " ++
    toString minSupportedVersion ++ "..=" ++ toString protocolVersion ++ ")")

def Op.asStr : Op → String
  | .add => "add"
  | .remove => "remove"

inductive RelKind
  | sibling
  | parent
deriving DecidableEq

def RelKind.asStr : RelKind → String
  | .sibling => "sibling"
  | .parent => "parent"

/-- The origin of a relation is carried unsigned. -/
structure RelationSubmission where
  version : Nat
  op : Op
  kind : RelKind
  fromTag : String
  toTag : String
  author : String
  signature : String
  origin : Option String
deriving DecidableEq

structure AuthRequest where
  method : String
  path : String
  domain : Option HashDomain
  timestamp : Int
  body : List Byte
deriving DecidableEq

/-! ## Canonical bytes -/

def originFramed : Option String → String
  | none => "-"
  | some o => toString (byteLen o) ++ ":" ++ o

def canonicalBytes (op : Op) (hash tag : String) (origin : Option String) : ByteArray :=
  ("naiad-sub:v" ++ toString protocolVersion ++ "\n" ++ op.asStr ++ "\n" ++ hash ++ "\n" ++ tag ++
    "\n" ++ originFramed origin).toUTF8

def relationCanonicalBytes (op : Op) (kind : RelKind) (fromTag toTag : String) : ByteArray :=
  ("naiad-rel:v" ++ toString protocolVersion ++ "\n" ++ op.asStr ++ "\n" ++ kind.asStr ++ "\n" ++
    fromTag ++ "\n" ++ toTag).toUTF8

def authCanonicalBytes (blake3 : List Byte → Hash) (method path : String)
    (domain : Option HashDomain) (timestamp : Int) (body : List Byte) : ByteArray :=
  ("naiad-auth:v" ++ toString protocolVersion ++ "\n" ++ method ++ "\n" ++ path ++ "\n" ++
    (domain.elim "" HashDomain.asStr) ++ "\n" ++ toString timestamp ++ "\n" ++
    (blake3 body).toHex).toUTF8

/-! ## Verification -/

/-- An Ed25519 implementation; keys, messages and signatures are bytes. -/
structure Ed25519 where
  isKey : List Byte → Bool
  verifyStrict : List Byte → ByteArray → List Byte → Bool
  sign : List Byte → ByteArray → List Byte

/-- A signature verifies only over the bytes it was made for. -/
def Ed25519.Ideal (scheme : Ed25519) : Prop :=
  ∀ key seed m m', scheme.verifyStrict key m' (scheme.sign seed m) = true → m' = m

def maxOriginLen : Nat := 128

/-- The hash of a submission is 64 lowercase hex digits. -/
def checkHash (hash : String) : Except String Unit :=
  match Hash.parse hash with
  | none => .error "submission hash"
  | some h =>
    if h.toHex = hash then .ok () else .error "submission hash is not canonical lowercase hex"

/-- A tag is in its canonical form. -/
def checkTag (u : Unicode) (field text : String) : Except String Unit :=
  match Tag.parse u text with
  | .error _ => .error field
  | .ok tag => if tag.display = text then .ok () else .error (field ++ " is not normalized")

def checkOrigin (u : Unicode) : Option String → Except String Unit
  | none => .ok ()
  | some o =>
    if byteLen o > maxOriginLen then
      .error ("submission origin exceeds " ++ toString maxOriginLen ++ "-byte limit (" ++
        toString (byteLen o) ++ " bytes)")
    else if u.trim o.toList = [] then
      .error "submission origin is blank; send None for manual/unattested"
    else if o.toList.any fun c => c.toNat < 0x20 || c.toNat = 0x7F then
      .error "submission origin contains a control character"
    else .ok ()

def decodeVerifyingKey (scheme : Ed25519) (hex : String) : Except String (List Byte) :=
  match hexDecode hex with
  | none => .error "author is not hex"
  | some bytes =>
    if bytes.length ≠ 32 then .error "author is not 32 bytes"
    else if scheme.isKey bytes then .ok bytes
    else .error "invalid author key"

def decodeSignature (hex : String) : Except String (List Byte) :=
  match hexDecode hex with
  | none => .error "signature is not hex"
  | some bytes => if bytes.length ≠ 64 then .error "signature is not 64 bytes" else .ok bytes

/-- The signature of an author over a frame. -/
def checkSignature (scheme : Ed25519) (author signature : String) (frame : ByteArray) :
    Except String Unit := do
  let key ← decodeVerifyingKey scheme author
  let sig ← decodeSignature signature
  if scheme.verifyStrict key frame sig then .ok () else .error "signature does not match author"

def verify (u : Unicode) (scheme : Ed25519) (sub : Submission) : Except String Unit := do
  ensureSupported sub.version
  checkHash sub.hash
  checkTag u "submission tag" sub.tag
  checkOrigin u sub.origin
  checkSignature scheme sub.author sub.signature
    (canonicalBytes sub.op sub.hash sub.tag sub.origin)

def verifyRelation (u : Unicode) (scheme : Ed25519) (sub : RelationSubmission) :
    Except String Unit := do
  ensureSupported sub.version
  checkTag u "relation from-tag" sub.fromTag
  checkTag u "relation to-tag" sub.toTag
  if sub.fromTag = sub.toTag then .error "relation is a self-edge (from == to)"
  checkSignature scheme sub.author sub.signature
    (relationCanonicalBytes sub.op sub.kind sub.fromTag sub.toTag)

/-! ## Messages -/

inductive Message
  | mapping (sub : Submission)
  | relation (sub : RelationSubmission)
  | request (req : AuthRequest)

/-- The fields a signature covers. -/
inductive Signed
  | mapping (op : Op) (hash tag : String) (origin : Option String)
  | relation (op : Op) (kind : RelKind) (fromTag toTag : String)
  | request (req : AuthRequest)

namespace Message

def signed : Message → Signed
  | .mapping sub => .mapping sub.op sub.hash sub.tag sub.origin
  | .relation sub => .relation sub.op sub.kind sub.fromTag sub.toTag
  | .request req => .request req

def canonicalBytes (blake3 : List Byte → Hash) : Message → ByteArray
  | .mapping sub => Netproto.canonicalBytes sub.op sub.hash sub.tag sub.origin
  | .relation sub => relationCanonicalBytes sub.op sub.kind sub.fromTag sub.toTag
  | .request req =>
    authCanonicalBytes blake3 req.method req.path req.domain req.timestamp req.body

/-- A submission that verifies, or a request whose method and path are single lines and whose body
is among the given ones. -/
def Accepted (u : Unicode) (scheme : Ed25519) (bodies : Set (List Byte)) : Message → Prop
  | .mapping sub => verify u scheme sub = .ok ()
  | .relation sub => verifyRelation u scheme sub = .ok ()
  | .request req => '\n' ∉ req.method.toList ∧ '\n' ∉ req.path.toList ∧ req.body ∈ bodies

def kind : Message → String
  | .mapping _ => "naiad-sub:v"
  | .relation _ => "naiad-rel:v"
  | .request _ => "naiad-auth:v"

/-- The lines of a frame after the first. -/
def fields (blake3 : List Byte → Hash) : Message → List String
  | .mapping sub => [sub.op.asStr, sub.hash, sub.tag, originFramed sub.origin]
  | .relation sub => [sub.op.asStr, sub.kind.asStr, sub.fromTag, sub.toTag]
  | .request req => [req.method, req.path, req.domain.elim "" HashDomain.asStr,
      toString req.timestamp, (blake3 req.body).toHex]

def lines (blake3 : List Byte → Hash) (m : Message) : List (List Char) :=
  (m.kind ++ toString protocolVersion).toList :: (m.fields blake3).map String.toList

end Message

/-! ## Accepted submissions -/

section

variable {u : Unicode} {scheme : Ed25519} {blake3 : List Byte → Hash} {bodies : Set (List Byte)}

theorem checkHash_ok {hash : String} (h : checkHash hash = .ok ()) :
    ∃ parsed : Hash, parsed.toHex = hash := by
  unfold checkHash at h
  cases hparse : Hash.parse hash with
  | none =>
    rw [hparse] at h
    cases h
  | some parsed =>
    simp only [hparse] at h
    split at h
    · exact ⟨parsed, by assumption⟩
    · cases h

theorem checkTag_ok {field text : String} (h : checkTag u field text = .ok ()) :
    ∃ tag, Tag.parse u text = .ok tag ∧ tag.display = text := by
  unfold checkTag at h
  cases hparse : Tag.parse u text with
  | error e =>
    rw [hparse] at h
    cases h
  | ok tag =>
    simp only [hparse] at h
    split at h
    · exact ⟨tag, rfl, by assumption⟩
    · cases h

theorem checkOrigin_ok {o : String} (h : checkOrigin u (some o) = .ok ()) :
    ∀ c ∈ o.toList, 0x20 ≤ c.toNat := by
  simp only [checkOrigin] at h
  split at h
  · cases h
  split at h
  · cases h
  split at h
  · cases h
  rename_i hcontrol
  intro c hc
  by_contra hlt
  apply hcontrol
  rw [List.any_eq_true]
  exact ⟨c, hc, by simp [Nat.lt_of_not_le hlt]⟩

theorem verify_ok {sub : Submission} (h : verify u scheme sub = .ok ()) :
    (∃ parsed : Hash, parsed.toHex = sub.hash) ∧
      (∃ tag, Tag.parse u sub.tag = .ok tag ∧ tag.display = sub.tag) ∧
      checkOrigin u sub.origin = .ok () := by
  obtain ⟨_, _, h⟩ := bind_eq_ok.1 h
  obtain ⟨_, hhash, h⟩ := bind_eq_ok.1 h
  obtain ⟨_, htag, h⟩ := bind_eq_ok.1 h
  obtain ⟨_, horigin, _⟩ := bind_eq_ok.1 h
  exact ⟨checkHash_ok hhash, checkTag_ok htag, horigin⟩

theorem verifyRelation_ok {sub : RelationSubmission} (h : verifyRelation u scheme sub = .ok ()) :
    (∃ tag, Tag.parse u sub.fromTag = .ok tag ∧ tag.display = sub.fromTag) ∧
      (∃ tag, Tag.parse u sub.toTag = .ok tag ∧ tag.display = sub.toTag) ∧
      sub.fromTag ≠ sub.toTag := by
  obtain ⟨_, _, h⟩ := bind_eq_ok.1 h
  obtain ⟨_, hfrom, h⟩ := bind_eq_ok.1 h
  obtain ⟨_, hto, h⟩ := bind_eq_ok.1 h
  refine ⟨checkTag_ok hfrom, checkTag_ok hto, ?_⟩
  intro heq
  simp only [heq, if_true] at h
  cases h

/-! ## Lines -/

theorem newline_not_mem_toHex (h : Hash) : '\n' ∉ h.toHex.toList := by
  rw [Hash.toHex, String.toList_ofList]
  intro hmem
  obtain ⟨b, _, hb⟩ := List.mem_flatMap.1 hmem
  have hdigit : ∀ i : Fin 16, fromDigit i.val ≠ '\n' := by decide
  have hlt := b.isLt
  simp only [List.mem_cons, List.not_mem_nil, or_false] at hb
  rcases hb with hb | hb
  · exact hdigit ⟨b.val / 16, by omega⟩ hb.symm
  · exact hdigit ⟨b.val % 16, by omega⟩ hb.symm

theorem not_mem_decimal {i : Int} {c : Char} (hsign : c ≠ '-') (hdigit : c.isDigit = false) :
    c ∉ (toString i).toList := by
  intro hmem
  rcases mem_int_toList hmem with heq | htrue
  · exact hsign heq
  · rw [hdigit] at htrue
    cases htrue

theorem toList_originFramed (o : String) :
    (originFramed (some o)).toList = Nat.toDigits 10 (byteLen o) ++ ':' :: o.toList := by
  rw [originFramed, String.toList_append, String.toList_append, nat_toList, List.append_assoc]
  rfl

theorem newline_not_mem_originFramed {origin : Option String}
    (h : checkOrigin u origin = .ok ()) : '\n' ∉ (originFramed origin).toList := by
  cases origin with
  | none => decide
  | some o =>
    rw [toList_originFramed, List.mem_append, List.mem_cons]
    intro hmem
    rcases hmem with hmem | heq | hmem
    · exact absurd (isDigit_of_mem_toDigits hmem) (by decide)
    · exact absurd heq (by decide)
    · exact absurd (checkOrigin_ok h _ hmem) (by decide)

theorem originFramed_inj {a b : Option String}
    (h : (originFramed a).toList = (originFramed b).toList) : a = b := by
  have hdigit : ∀ {n : Nat} {c : Char}, c.isDigit = false → c ∉ Nat.toDigits 10 n := by
    intro n c hc hmem
    rw [isDigit_of_mem_toDigits hmem] at hc
    cases hc
  have hnone : ∀ o : String, (originFramed none).toList ≠ (originFramed (some o)).toList := by
    intro o heq
    have hmem : ':' ∈ (originFramed none).toList := by
      rw [heq, toList_originFramed]
      simp
    exact absurd hmem (by decide)
  cases a with
  | none =>
    cases b with
    | none => rfl
    | some o => exact absurd h (hnone o)
  | some o =>
    cases b with
    | none => exact absurd h.symm (hnone o)
    | some o' =>
      -- the digits before the first colon hold none
      rw [toList_originFramed, toList_originFramed] at h
      have hsplit := congrArg (splitOnce ':') h
      rw [splitOnce_append (hdigit (by decide)), splitOnce_append (hdigit (by decide))] at hsplit
      have htext := (Prod.mk.inj (Option.some.inj hsplit)).2
      rw [String.toList_inj.1 htext]

namespace Message

theorem canonicalBytes_eq (m : Message) : m.canonicalBytes blake3 =
    (String.ofList (['\n'].intercalate (m.lines blake3))).toUTF8 := by
  have htext : ∀ a b : String, a.toList = b.toList → a.toUTF8 = b.toUTF8 := by
    intro a b h
    rw [String.toList_inj.1 h]
  cases m with
  | mapping sub =>
    apply htext
    simp [lines, kind, fields]
  | relation sub =>
    apply htext
    simp [lines, kind, fields]
  | request req =>
    apply htext
    simp [lines, kind, fields]

theorem newline_not_mem_lines (hu : u.LineSafe) {m : Message} (hm : m.Accepted u scheme bodies) :
    ∀ line ∈ m.lines blake3, '\n' ∉ line := by
  have hheads : ∀ kind ∈ ["naiad-sub:v", "naiad-rel:v", "naiad-auth:v"],
      '\n' ∉ (kind ++ toString protocolVersion).toList := by decide
  have hhead : '\n' ∉ (m.kind ++ toString protocolVersion).toList := by
    apply hheads
    cases m with
    | mapping sub => simp [kind]
    | relation sub => simp [kind]
    | request req => simp [kind]
  have htag : ∀ {text : String}, (∃ tag, Tag.parse u text = .ok tag ∧ tag.display = text) →
      '\n' ∉ text.toList := by
    intro text h
    obtain ⟨tag, hparse, hdisplay⟩ := h
    rw [← hdisplay]
    exact Tag.newline_not_mem_display hu hparse
  have hop : ∀ op : Op, '\n' ∉ op.asStr.toList := by
    intro op
    cases op with
    | add => decide
    | remove => decide
  have hfields : ∀ field ∈ m.fields blake3, '\n' ∉ field.toList := by
    cases m with
    | mapping sub =>
      obtain ⟨⟨parsed, hhash⟩, hparse, horigin⟩ := verify_ok hm
      have hhash' : '\n' ∉ sub.hash.toList := by
        rw [← hhash]
        exact newline_not_mem_toHex parsed
      simp [fields, hop, hhash', htag hparse, newline_not_mem_originFramed horigin]
    | relation sub =>
      obtain ⟨hfrom, hto, _⟩ := verifyRelation_ok hm
      have hkind : '\n' ∉ sub.kind.asStr.toList := by
        cases sub.kind with
        | sibling => decide
        | parent => decide
      simp [fields, hop, hkind, htag hfrom, htag hto]
    | request req =>
      obtain ⟨hmethod, hpath, _⟩ := hm
      have hdomain : '\n' ∉ (req.domain.elim "" HashDomain.asStr).toList := by
        cases req.domain with
        | none => decide
        | some domain =>
          cases domain with
          | blake3 => decide
          | sha256 => decide
      have htime : '\n' ∉ (toString req.timestamp).toList :=
        not_mem_decimal (by decide) (by decide)
      simp only [fields, List.mem_cons, List.not_mem_nil, or_false]
      rintro field (rfl | rfl | rfl | rfl | rfl)
      · exact hmethod
      · exact hpath
      · exact hdomain
      · exact htime
      · exact newline_not_mem_toHex _
  intro line hline
  rcases List.mem_cons.1 hline with rfl | hline
  · exact hhead
  · obtain ⟨field, hfield, rfl⟩ := List.mem_map.1 hline
    exact hfields field hfield

theorem kind_of_lines {m m' : Message} (h : m.lines blake3 = m'.lines blake3) : m.kind = m'.kind := by
  have hhead := String.toList_inj.1 (List.cons.inj h).1
  have hcancel := congrArg String.toList hhead
  rw [String.toList_append, String.toList_append] at hcancel
  exact String.toList_inj.1 (List.append_cancel_right hcancel)

theorem fields_of_lines {m m' : Message} (h : m.lines blake3 = m'.lines blake3) :
    m.fields blake3 = m'.fields blake3 := by
  have hinj : Function.Injective String.toList := fun _ _ heq => String.toList_inj.1 heq
  exact hinj.list_map (List.cons.inj h).2

theorem opAsStr_inj {a b : Op} (h : a.asStr = b.asStr) : a = b := by
  cases a with
  | add =>
    cases b with
    | add => rfl
    | remove => exact absurd h (by decide)
  | remove =>
    cases b with
    | add => exact absurd h (by decide)
    | remove => rfl

theorem relKindAsStr_inj {a b : RelKind} (h : a.asStr = b.asStr) : a = b := by
  cases a with
  | sibling =>
    cases b with
    | sibling => rfl
    | parent => exact absurd h (by decide)
  | parent =>
    cases b with
    | sibling => exact absurd h (by decide)
    | parent => rfl

theorem domainText_inj {a b : Option HashDomain}
    (h : a.elim "" HashDomain.asStr = b.elim "" HashDomain.asStr) : a = b := by
  have hall : ∀ a ∈ [none, some HashDomain.blake3, some .sha256],
      ∀ b ∈ [none, some HashDomain.blake3, some .sha256],
        a.elim "" HashDomain.asStr = b.elim "" HashDomain.asStr → a = b := by decide
  have hmem : ∀ a : Option HashDomain, a ∈ [none, some HashDomain.blake3, some .sha256] := by
    intro a
    cases a with
    | none => simp
    | some domain =>
      cases domain with
      | blake3 => simp
      | sha256 => simp
  exact hall a (hmem a) b (hmem b) h

/-- Frames with the same lines carry the same signed fields. -/
theorem signed_of_lines (hbodies : Set.InjOn blake3 bodies) {m m' : Message}
    (hm : m.Accepted u scheme bodies) (hm' : m'.Accepted u scheme bodies)
    (h : m.lines blake3 = m'.lines blake3) : m.signed = m'.signed := by
  have hkind := kind_of_lines h
  have hfields := fields_of_lines h
  cases m with
  | mapping sub =>
    cases m' with
    | mapping sub' =>
      simp only [fields, List.cons.injEq, and_true] at hfields
      obtain ⟨hop, hhash, htag, horigin⟩ := hfields
      rw [signed, signed, opAsStr_inj hop, hhash, htag,
        originFramed_inj (congrArg String.toList horigin)]
    | relation _ => simp [kind] at hkind
    | request _ => simp [kind] at hkind
  | relation sub =>
    cases m' with
    | mapping _ => simp [kind] at hkind
    | relation sub' =>
      simp only [fields, List.cons.injEq, and_true] at hfields
      obtain ⟨hop, hrel, hfrom, hto⟩ := hfields
      rw [signed, signed, opAsStr_inj hop, relKindAsStr_inj hrel, hfrom, hto]
    | request _ => simp [kind] at hkind
  | request req =>
    cases m' with
    | mapping _ => simp [kind] at hkind
    | relation _ => simp [kind] at hkind
    | request req' =>
      simp only [fields, List.cons.injEq, and_true] at hfields
      obtain ⟨hmethod, hpath, hdomain, htime, hbody⟩ := hfields
      have hbody' : req.body = req'.body :=
        hbodies hm.2.2 hm'.2.2 (Hash.toHex_inj.1 hbody)
      have htime' := int_toList_inj (congrArg String.toList htime)
      obtain ⟨method, path, domain, timestamp, body⟩ := req
      obtain ⟨method', path', domain', timestamp', body'⟩ := req'
      simp only at hmethod hpath hdomain htime' hbody'
      rw [hmethod, hpath, domainText_inj hdomain, htime', hbody']

theorem lines_of_canonicalBytes (hu : u.LineSafe) {m m' : Message}
    (hm : m.Accepted u scheme bodies) (hm' : m'.Accepted u scheme bodies)
    (h : m.canonicalBytes blake3 = m'.canonicalBytes blake3) :
    m.lines blake3 = m'.lines blake3 := by
  rw [canonicalBytes_eq, canonicalBytes_eq, String.toUTF8_eq_toByteArray,
    String.toUTF8_eq_toByteArray, String.toByteArray_inj] at h
  have htext := congrArg String.toList h
  rw [String.toList_ofList, String.toList_ofList] at htext
  exact intercalate_inj (newline_not_mem_lines hu hm) (newline_not_mem_lines hu hm')
    (List.cons_ne_nil _ _) (List.cons_ne_nil _ _) htext

end Message

/-- **The frames of two accepted messages are equal only when the messages are of one kind and
agree in every field that is signed, and with an ideal signature scheme no signature made over the
frame of one verifies over the frame of another.** -/
theorem signed_frames_injective (u : Unicode) (hu : u.LineSafe) (scheme : Ed25519)
    (hideal : scheme.Ideal) (blake3 : List Byte → Hash) (bodies : Set (List Byte))
    (hbodies : Set.InjOn blake3 bodies) (m m' : Message) (hm : m.Accepted u scheme bodies)
    (hm' : m'.Accepted u scheme bodies) :
    (m.canonicalBytes blake3 = m'.canonicalBytes blake3 → m.signed = m'.signed) ∧
      ∀ key seed, scheme.verifyStrict key (m'.canonicalBytes blake3)
        (scheme.sign seed (m.canonicalBytes blake3)) = true → m.signed = m'.signed := by
  have hsigned : m.canonicalBytes blake3 = m'.canonicalBytes blake3 → m.signed = m'.signed :=
    fun h => Message.signed_of_lines hbodies hm hm' (Message.lines_of_canonicalBytes hu hm hm' h)
  refine ⟨hsigned, ?_⟩
  intro key seed hverify
  exact hsigned (hideal key seed _ _ hverify).symm

/-! ## Samples -/

/-- A scheme in which one message can be signed, and has one signature. -/
def oneMessage (frame : ByteArray) (signature : List Byte) : Ed25519 where
  isKey _ := true
  verifyStrict _ m sig := m.data = frame.data && sig = signature
  sign _ m := if m.data = frame.data then signature else []

theorem oneMessage_ideal (frame : ByteArray) {signature : List Byte} (hne : signature ≠ []) :
    (oneMessage frame signature).Ideal := by
  intro key seed m m' h
  simp only [oneMessage, Bool.and_eq_true, decide_eq_true_eq] at h
  obtain ⟨hframe, hsig⟩ := h
  split at hsig
  · rename_i hm
    exact ByteArray.ext (hframe.trans hm.symm)
  · exact absurd hsig.symm hne

theorem checkHash_toHex (h : Hash) : checkHash h.toHex = .ok () := by
  simp [checkHash]

theorem checkSignature_oneMessage (frame : ByteArray) (author : Hash) {signature : List Byte}
    (hsize : signature.length = 64) :
    checkSignature (oneMessage frame signature) author.toHex (String.ofList (hexChars signature))
      frame = .ok () := by
  have hkey : decodeVerifyingKey (oneMessage frame signature) author.toHex = .ok author.bytes := by
    simp [decodeVerifyingKey, author.size, oneMessage]
  have hsig : decodeSignature (String.ofList (hexChars signature)) = .ok signature := by
    simp [decodeSignature, hexDecode, hexBytes_hexChars, hsize]
  rw [checkSignature, hkey, hsig]
  simp [oneMessage, bind, Except.bind]

theorem verify_of {sub : Submission} (hversion : ensureSupported sub.version = .ok ())
    (hhash : checkHash sub.hash = .ok ()) (htag : checkTag u "submission tag" sub.tag = .ok ())
    (horigin : checkOrigin u sub.origin = .ok ())
    (hsig : checkSignature scheme sub.author sub.signature
      (canonicalBytes sub.op sub.hash sub.tag sub.origin) = .ok ()) :
    verify u scheme sub = .ok () := by
  rw [verify, hversion, hhash, htag, horigin, hsig]
  rfl

theorem verifyRelation_of {sub : RelationSubmission}
    (hversion : ensureSupported sub.version = .ok ())
    (hfrom : checkTag u "relation from-tag" sub.fromTag = .ok ())
    (hto : checkTag u "relation to-tag" sub.toTag = .ok ()) (hne : sub.fromTag ≠ sub.toTag)
    (hsig : checkSignature scheme sub.author sub.signature
      (relationCanonicalBytes sub.op sub.kind sub.fromTag sub.toTag) = .ok ()) :
    verifyRelation u scheme sub = .ok () := by
  rw [verifyRelation, hversion, hfrom, hto, if_neg hne, hsig]
  rfl

def sampleSignature : List Byte := List.replicate 64 7

def sampleSubmission : Submission where
  version := 8
  op := .add
  hash := (Hash.fill 0xAB).toHex
  tag := "character:samus"
  author := (Hash.fill 1).toHex
  signature := String.ofList (hexChars sampleSignature)
  origin := some "wd14"

theorem verify_sampleSubmission : verify .plainText (oneMessage (canonicalBytes .add
    (Hash.fill 0xAB).toHex "character:samus" (some "wd14")) sampleSignature) sampleSubmission =
      .ok () :=
  verify_of rfl (checkHash_toHex _) (by decide) (by decide) (checkSignature_oneMessage _ _ rfl)

def sampleRequest : AuthRequest := ⟨"POST", "/repo/submit", some .blake3, 1700000000, []⟩

theorem signed_frames_injective_samples :
    (Message.mapping sampleSubmission).canonicalBytes (fun _ => Hash.fill 0) ≠
      (Message.request sampleRequest).canonicalBytes fun _ => Hash.fill 0 := by
  intro h
  have hsigned := (signed_frames_injective .plainText Unicode.plainText_lineSafe _
    (oneMessage_ideal _ (List.cons_ne_nil _ _)) (fun _ => Hash.fill 0) {[]}
    (Set.injOn_singleton _ _) (.mapping sampleSubmission) (.request sampleRequest)
    verify_sampleSubmission ⟨by decide, by decide, rfl⟩).1 h
  cases hsigned

def sampleRelation (origin : Option String) : RelationSubmission where
  version := 8
  op := .add
  kind := .sibling
  fromTag := "character:samus_aran"
  toTag := "character:samus"
  author := (Hash.fill 1).toHex
  signature := String.ofList (hexChars sampleSignature)
  origin := origin

/-- Two accepted relation submissions with different origins have the same frame, and the signature
of one is accepted on the other. -/
theorem signed_frames_injective_fails :
    sampleRelation none ≠ sampleRelation (some "mirror") ∧
      (Message.relation (sampleRelation none)).canonicalBytes (fun _ => Hash.fill 0) =
        (Message.relation (sampleRelation (some "mirror"))).canonicalBytes (fun _ => Hash.fill 0) ∧
      ∀ origin ∈ [none, some "mirror"], verifyRelation .plainText
        (oneMessage (relationCanonicalBytes .add .sibling "character:samus_aran" "character:samus")
          sampleSignature) (sampleRelation origin) = .ok () := by
  refine ⟨?_, rfl, ?_⟩
  · intro h
    exact absurd (congrArg RelationSubmission.origin h) (by simp [sampleRelation])
  · intro origin _
    have hfrom : checkTag .plainText "relation from-tag" "character:samus_aran" = .ok () := by decide
    have hto : checkTag .plainText "relation to-tag" "character:samus" = .ok () := by decide
    have hne : "character:samus_aran" ≠ "character:samus" := by decide
    exact verifyRelation_of rfl hfrom hto hne (checkSignature_oneMessage _ _ rfl)

end

end Netproto
end Naiad
