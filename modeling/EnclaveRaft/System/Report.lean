import EnclaveRaft.Common.Json
import EnclaveRaft.Common.UrlDecode

/-!
# Attestation reports

`validate_verification_report` takes a report of the attestation service apart: an HTTP packet with
the length of the body, a signature and the certificates of the signer in its headers, and a JSON
document with the quote as its body. The headers are looked for with `strstr` and used without asking
whether they were found, the length is what the packet says, and the document is read from all that
follows the blank line while the signature is checked on as many bytes as the length says.

Checking signatures, base64 and JSON are parameters (`Checks`). For which packets the function does
what it should, `reports_validated` says in terms of these and of the layout of the packet.
-/

namespace EnclaveRaft.System

open Common

/-! ## The function -/

inductive ReportFault
  /-- A read outside of the packet, through a null pointer or behind its end. -/
  | outOfBounds
  /-- A string or vector of a negative length. -/
  | lengthError
  | invalidArgument
  | base64
  deriving DecidableEq

/-- A string that ends with a NUL, which is not part of it. -/
structure Packet where
  text : Bytes
  noNul : 0 ∉ text

/-- What is taken as given. `signingKey` gives the key of the first certificate of a chain that is
valid; a chain that is not and an exception of the library come to the same. -/
structure Checks (Key : Type) where
  decode : Bytes → Option Bytes
  parse : Bytes → Option Json
  signingKey : Bytes → Option Key
  verify : Key → Bytes → Bytes → Bool

def ascii (s : String) : Bytes := s.toList.map fun c => c.toNat.toUInt8

def headerLength : Bytes := ascii "Content-Length: "

def headerSignature : Bytes := ascii "X-IASReport-Signature: "

def headerCertificates : Bytes := ascii "X-IASReport-Signing-Certificate: "

def delimiter : Bytes := [13, 10]

def doubleDelimiter : Bytes := [13, 10, 13, 10]

/-- `strstr(http_packet, header) + strlen(header)`, which is read from at once. -/
def Packet.after (p : Packet) (header : Bytes) : Except ReportFault Nat :=
  match strstr p.text header with
  | some i => .ok (i + header.length)
  | none => .error .outOfBounds

/-- `strstr(ptr_l, delimiter)`. Without a delimiter the line has a negative length. -/
def Packet.lineEnd (p : Packet) (ptr : Nat) : Except ReportFault Nat :=
  match strstr (p.text.drop ptr) delimiter with
  | some n => .ok (ptr + n)
  | none => .error .lengthError

def orFault {α : Type} (f : ReportFault) : Option α → Except ReportFault α
  | some a => .ok a
  | none => .error f

theorem orFault_eq_ok {α : Type} {f : ReportFault} {o : Option α} {a : α}
    (h : orFault f o = .ok a) : o = some a := by
  cases o with
  | none => cases h
  | some b =>
    cases h
    rfl

section Model

variable {Key : Type} (C : Checks Key)

/-- `data` is what can be read from the pointer on. Exceptions of the library make the caller return a
null pointer, as the result `false` does. -/
def verifyCertsAndSignature (certs sig data : Bytes) (size : Nat) : Except ReportFault Bool :=
  if certs = [] then .error .invalidArgument
  else if sig = [] then .error .invalidArgument
  else if size = 0 then .error .invalidArgument
  else match C.signingKey certs with
    | none => .ok false
    | some key =>
      if data.length < size then .error .outOfBounds
      else .ok (C.verify key sig (data.take size))

/-- What is made of the document once the signature has been checked. -/
def readQuote (result : Bool) (body : Option Json) : Except ReportFault (Option Bytes) :=
  match result, body with
  | true, some body =>
    if (body.field "version").intValue ≠ 3 then .ok none
    else if (body.field "isvEnclaveQuoteStatus").stringValue ≠ ascii "OK" then .ok none
    else do
      let quote ← orFault .base64 (C.decode (body.field "isvEnclaveQuoteBody").stringValue)
      return some quote
  | _, _ => .ok none

def validateVerificationReport (p : Packet) : Except ReportFault (Option Bytes) := do
  let ptrL ← p.after headerLength
  let contentLength := strtoul 10 (p.text.drop ptrL)
  let ptrL ← p.after headerSignature
  let ptrR ← p.lineEnd ptrL
  let signature ← orFault .base64 (C.decode ((p.text.drop ptrL).take (ptrR - ptrL)))
  let ptrL ← p.after headerCertificates
  let ptrR ← p.lineEnd ptrL
  let certificates ← orFault .outOfBounds (urlDecode (.ofBytes (p.text ++ [0])) ptrL ptrR)
  let ptrL ← p.after doubleDelimiter
  let body := C.parse (p.text.drop ptrL)
  let result ← verifyCertsAndSignature C certificates signature ((p.text ++ [0]).drop ptrL)
    contentLength
  readQuote C result body

end Model

/-! ## Layouts -/

variable {Key : Type} {C : Checks Key} {p : Packet}

/-- The parts of a packet, each looked for from the start: the length that it declares, what it gives
as signature, the certificates, and what follows the blank line. -/
structure Layout (p : Packet) (length : Nat) (signature certificates body : Bytes) : Prop where
  length : ∃ ptr, p.after headerLength = .ok ptr ∧ strtoul 10 (p.text.drop ptr) = length
  signature : ∃ ptrL ptrR, p.after headerSignature = .ok ptrL ∧ p.lineEnd ptrL = .ok ptrR ∧
    (p.text.drop ptrL).take (ptrR - ptrL) = signature
  certificates : ∃ ptrL ptrR, p.after headerCertificates = .ok ptrL ∧ p.lineEnd ptrL = .ok ptrR ∧
    urlDecode (.ofBytes (p.text ++ [0])) ptrL ptrR = some certificates
  body : ∃ ptr, p.after doubleDelimiter = .ok ptr ∧ p.text.drop ptr = body

/-- A header and the end of its line are in the packet. -/
def Packet.HasLine (p : Packet) (header : Bytes) : Prop :=
  ∃ ptrL ptrR, p.after header = .ok ptrL ∧ p.lineEnd ptrL = .ok ptrR

/-- The three headers and the blank line are in the packet, and two of the lines have an end. -/
structure Packet.Complete (p : Packet) : Prop where
  length : ∃ ptr, p.after headerLength = .ok ptr
  signature : p.HasLine headerSignature
  certificates : p.HasLine headerCertificates
  body : ∃ ptr, p.after doubleDelimiter = .ok ptr

theorem Packet.after_le {header : Bytes} {ptr : Nat} (h : p.after header = .ok ptr) :
    ptr ≤ p.text.length := by
  unfold Packet.after at h
  split at h
  next i hi =>
    cases h
    exact strstr_le hi
  next => cases h

theorem Packet.lineEnd_le {ptr ptrR : Nat} (h : p.lineEnd ptr = .ok ptrR) :
    ptr ≤ ptrR ∧ ptrR + 2 ≤ p.text.length := by
  unfold Packet.lineEnd at h
  split at h
  next n hn =>
    cases h
    have hle := strstr_le hn
    simp only [delimiter, List.length_cons, List.length_nil, List.length_drop] at hle
    omega
  next => cases h

/-- The certificates of a complete packet are decoded without a read outside of it. -/
theorem Packet.Complete.layout (h : p.Complete) :
    ∃ n sig certs body, Layout p n sig certs body := by
  obtain ⟨⟨i, hi⟩, ⟨j, j', hj, hj'⟩, ⟨k, k', hk, hk'⟩, l, hl⟩ := h
  have hend := Packet.lineEnd_le hk'
  have hread : ∀ i ≤ k' + 2, (Memory.ofBytes (p.text ++ [0]) i).isSome := by
    intro i hi
    simp [Memory.ofBytes]
    omega
  obtain ⟨certs, hcerts⟩ := urlDecode_isSome hread (show k ≤ k' + 2 by omega)
  exact ⟨_, _, certs, _, ⟨i, hi, rfl⟩, ⟨j, j', hj, hj', rfl⟩, ⟨k, k', hk, hk', hcerts⟩, l, hl, rfl⟩

/-- A packet has one layout at most. -/
theorem Layout.unique {n n' : Nat} {sig sig' certs certs' body body' : Bytes}
    (h : Layout p n sig certs body) (h' : Layout p n' sig' certs' body') :
    n' = n ∧ sig' = sig ∧ certs' = certs ∧ body' = body := by
  obtain ⟨⟨i, hi, rfl⟩, ⟨j, j', hj, hj', rfl⟩, ⟨k, k', hk, hk', hcerts⟩, l, hl, rfl⟩ := h
  obtain ⟨⟨_, hi₁, rfl⟩, ⟨_, _, hj₁, hj₁', rfl⟩, ⟨_, _, hk₁, hk₁', hcerts₁⟩, _, hl₁, rfl⟩ := h'
  cases hi.symm.trans hi₁
  cases hj.symm.trans hj₁
  cases hj'.symm.trans hj₁'
  cases hk.symm.trans hk₁
  cases hk'.symm.trans hk₁'
  cases hl.symm.trans hl₁
  cases hcerts.symm.trans hcerts₁
  exact ⟨rfl, rfl, rfl, rfl⟩

/-- What the function does with the parts of a packet. -/
def checkParts (C : Checks Key) (n : Nat) (sig certs body : Bytes) :
    Except ReportFault (Option Bytes) := do
  let s ← orFault .base64 (C.decode sig)
  let result ← verifyCertsAndSignature C certs s (body ++ [0]) n
  readQuote C result (C.parse body)

theorem validate_layout {n : Nat} {sig certs body : Bytes} (h : Layout p n sig certs body) :
    validateVerificationReport C p = checkParts C n sig certs body := by
  obtain ⟨⟨i, hi, rfl⟩, ⟨j, j', hj, hj', rfl⟩, ⟨k, k', hk, hk', hcerts⟩, l, hl, rfl⟩ := h
  have hdrop : (p.text ++ [0]).drop l = p.text.drop l ++ [0] := by
    rw [List.drop_append_of_le_length (Packet.after_le hl)]
  unfold validateVerificationReport checkParts
  simp only [hi, hj, hj', hk, hk', hl, hcerts, hdrop, orFault, bind, Except.bind]

theorem exists_ok_of_bind {α β : Type} {x : Except ReportFault α} {f : α → Except ReportFault β}
    {b : β} (h : (x >>= f) = .ok b) : ∃ a, x = .ok a ∧ f a = .ok b := by
  cases x with
  | error e => cases h
  | ok a => exact ⟨a, rfl, h⟩

/-- Without one of the parts there is a fault. -/
theorem complete_of_validate {r : Option Bytes} (h : validateVerificationReport C p = .ok r) :
    p.Complete := by
  obtain ⟨i, hi, h⟩ := exists_ok_of_bind h
  obtain ⟨j, hj, h⟩ := exists_ok_of_bind h
  obtain ⟨j', hj', h⟩ := exists_ok_of_bind h
  obtain ⟨sig, -, h⟩ := exists_ok_of_bind h
  obtain ⟨k, hk, h⟩ := exists_ok_of_bind h
  obtain ⟨k', hk', h⟩ := exists_ok_of_bind h
  obtain ⟨certs, -, h⟩ := exists_ok_of_bind h
  obtain ⟨l, hl, -⟩ := exists_ok_of_bind h
  exact ⟨⟨i, hi⟩, ⟨j, j', hj, hj'⟩, ⟨k, k', hk, hk'⟩, l, hl⟩

/-! ## Reports that were signed -/

/-- The document has the version and the status that are asked for, and holds the quote. -/
structure Checks.Quotes (C : Checks Key) (doc : Json) (quote : Bytes) : Prop where
  version : (doc.field "version").intValue = 3
  status : (doc.field "isvEnclaveQuoteStatus").stringValue = ascii "OK"
  quote : C.decode (doc.field "isvEnclaveQuoteBody").stringValue = some quote

/-- The quote is that of the document which the first `n` bytes of the body are, the signature was
checked on these, and the body is not shorter. -/
structure SignedQuote (C : Checks Key) (n : Nat) (sig certs body quote : Bytes) : Prop where
  length : n ≤ body.length
  signature : ∃ s key, C.decode sig = some s ∧ C.signingKey certs = some key ∧
    C.verify key s (body.take n) = true
  document : ∃ doc, C.parse (body.take n) = some doc ∧ C.Quotes doc quote

/-- A quote that is returned was signed, and otherwise a null pointer is returned. -/
def ReportValidated (C : Checks Key) (p : Packet) : Prop :=
  match validateVerificationReport C p with
  | .ok (some quote) => ∃ n sig certs body, Layout p n sig certs body ∧
      SignedQuote C n sig certs body quote
  | .ok none => True
  | .error _ => False

/-- The parts of a packet that can be dealt with: the signature can be decoded, no part is empty, and
the length is that of something that is there. If signature and document are in order, then the quote
can be decoded, the length is not more than that of the body, and it makes no difference to the
document if the body ends there. -/
structure Regular (C : Checks Key) (n : Nat) (sig certs body : Bytes) : Prop where
  signature : ∃ s, C.decode sig = some s ∧ s ≠ []
  certificates : certs ≠ []
  length : n ≠ 0
  readable : ∀ key, C.signingKey certs = some key → n ≤ body.length + 1
  whole : ∀ s key doc, C.decode sig = some s → C.signingKey certs = some key →
    C.verify key s ((body ++ [0]).take n) = true → C.parse body = some doc →
    (doc.field "version").intValue = 3 →
    (doc.field "isvEnclaveQuoteStatus").stringValue = ascii "OK" →
    n ≤ body.length ∧ ∃ doc' quote, C.parse (body.take n) = some doc' ∧ C.Quotes doc quote ∧
      C.Quotes doc' quote

theorem reportValidated_iff : ReportValidated C p ↔
    (∃ r, validateVerificationReport C p = .ok r) ∧
      ∀ quote, validateVerificationReport C p = .ok (some quote) →
        ∃ n sig certs body, Layout p n sig certs body ∧ SignedQuote C n sig certs body quote := by
  unfold ReportValidated
  rcases validateVerificationReport C p with e | _ | quote
  · simp
  · simp
  · simp

section Parts

variable {n : Nat} {sig certs body : Bytes}

theorem verify_eq_ok {s data : Bytes} {result : Bool}
    (h : verifyCertsAndSignature C certs s data n = .ok result) :
    certs ≠ [] ∧ s ≠ [] ∧ n ≠ 0 ∧ ∀ key, C.signingKey certs = some key →
      n ≤ data.length ∧ result = C.verify key s (data.take n) := by
  unfold verifyCertsAndSignature at h
  split at h
  · cases h
  split at h
  · cases h
  split at h
  · cases h
  next hcerts hs hn =>
    refine ⟨hcerts, hs, hn, fun key hkey => ?_⟩
    rw [hkey] at h
    dsimp only at h
    split at h
    next => cases h
    next hlt => exact ⟨by omega, (Except.ok.inj h).symm⟩

theorem readQuote_of_report {doc : Json} (hversion : (doc.field "version").intValue = 3)
    (hstatus : (doc.field "isvEnclaveQuoteStatus").stringValue = ascii "OK") :
    readQuote C true (some doc) = (do
      let quote ← orFault .base64 (C.decode (doc.field "isvEnclaveQuoteBody").stringValue)
      return some quote) := by
  simp [readQuote, hversion, hstatus]

theorem regular_of_checkParts (hok : ∃ r, checkParts C n sig certs body = .ok r)
    (hsigned : ∀ quote, checkParts C n sig certs body = .ok (some quote) →
      SignedQuote C n sig certs body quote) : Regular C n sig certs body := by
  obtain ⟨r, hr⟩ := hok
  obtain ⟨s, hs, hrest⟩ := exists_ok_of_bind hr
  obtain ⟨result, hresult, hquote⟩ := exists_ok_of_bind hrest
  have hdecode := orFault_eq_ok hs
  obtain ⟨hcerts, hne, hn, hread⟩ := verify_eq_ok hresult
  refine ⟨⟨s, hdecode, hne⟩, hcerts, hn, fun key hkey => ?_, ?_⟩
  · simpa using (hread key hkey).1
  · intro s' key doc hs' hkey hverify hdoc hversion hstatus
    cases hdecode.symm.trans hs'
    have htrue : result = true := (hread key hkey).2.trans hverify
    rw [htrue, hdoc, readQuote_of_report hversion hstatus] at hquote
    obtain ⟨quote, hq, hret⟩ := exists_ok_of_bind hquote
    cases hret
    obtain ⟨hlen, -, doc', hdoc', hquotes⟩ := hsigned quote hr
    exact ⟨hlen, doc', quote, hdoc', ⟨hversion, hstatus, orFault_eq_ok hq⟩, hquotes⟩

/-- The quote of a regular packet was signed. -/
theorem Regular.checkParts (h : Regular C n sig certs body) :
    (∃ r, checkParts C n sig certs body = .ok r) ∧
      ∀ quote, checkParts C n sig certs body = .ok (some quote) →
        SignedQuote C n sig certs body quote := by
  obtain ⟨⟨s, hs, hne⟩, hcerts, hn, hreadable, hwhole⟩ := h
  have hparts : EnclaveRaft.System.checkParts C n sig certs body =
      (verifyCertsAndSignature C certs s (body ++ [0]) n >>= fun result =>
        readQuote C result (C.parse body)) := by
    unfold EnclaveRaft.System.checkParts
    rw [hs]
    rfl
  rw [hparts, verifyCertsAndSignature, if_neg hcerts, if_neg hne, if_neg hn]
  cases hkey : C.signingKey certs with
  | none => exact ⟨⟨none, rfl⟩, nofun⟩
  | some key =>
    have hle := hreadable key hkey
    dsimp only
    rw [if_neg (by simpa using hle)]
    show (∃ r, readQuote C _ (C.parse body) = .ok r) ∧
      ∀ quote, readQuote C _ (C.parse body) = .ok (some quote) → _
    cases hverify : C.verify key s ((body ++ [0]).take n) with
    | false => exact ⟨⟨none, rfl⟩, nofun⟩
    | true =>
      cases hdoc : C.parse body with
      | none => exact ⟨⟨none, rfl⟩, nofun⟩
      | some doc =>
        by_cases hversion : (doc.field "version").intValue = 3
        · by_cases hstatus : (doc.field "isvEnclaveQuoteStatus").stringValue = ascii "OK"
          · obtain ⟨hlen, doc', quote, hdoc', hquotes, hquotes'⟩ :=
              hwhole s key doc hs hkey hverify hdoc hversion hstatus
            rw [readQuote_of_report hversion hstatus, hquotes.quote]
            refine ⟨⟨some quote, rfl⟩, fun q hq => ?_⟩
            cases hq
            rw [List.take_append_of_le_length hlen] at hverify
            exact ⟨hlen, ⟨s, key, hs, hkey, hverify⟩, doc', hdoc', hquotes'⟩
          · have hnone : readQuote C true (some doc) = .ok none := by
              simp [readQuote, hversion, hstatus]
            rw [hnone]
            exact ⟨⟨none, rfl⟩, nofun⟩
        · have hnone : readQuote C true (some doc) = .ok none := by
            simp [readQuote, hversion]
          rw [hnone]
          exact ⟨⟨none, rfl⟩, nofun⟩

end Parts

/-- **Reports.** The function returns a quote that was signed or a null pointer if and only if the
packet is complete and its parts are regular. -/
theorem reports_validated (C : Checks Key) (p : Packet) : ReportValidated C p ↔
    p.Complete ∧ ∀ n sig certs body, Layout p n sig certs body → Regular C n sig certs body := by
  rw [reportValidated_iff]
  constructor
  · rintro ⟨⟨r, hr⟩, hsigned⟩
    refine ⟨complete_of_validate hr, fun n sig certs body hl => ?_⟩
    rw [validate_layout hl] at hr hsigned
    refine regular_of_checkParts ⟨r, hr⟩ fun quote hquote => ?_
    obtain ⟨n', sig', certs', body', hl', hs⟩ := hsigned quote hquote
    obtain ⟨rfl, rfl, rfl, rfl⟩ := hl.unique hl'
    exact hs
  · rintro ⟨hcomplete, hregular⟩
    obtain ⟨n, sig, certs, body, hl⟩ := hcomplete.layout
    obtain ⟨hok, hsigned⟩ := (hregular n sig certs body hl).checkParts
    rw [validate_layout hl]
    exact ⟨hok, fun quote hq => ⟨n, sig, certs, body, hl, hsigned quote hq⟩⟩

/-- Certificates and signatures are accepted as they are. -/
def lenient : Checks Unit where
  decode := some
  parse := fun _ => none
  signingKey := fun _ => some ()
  verify := fun _ _ _ => true

/-- A packet with an empty document and a signature `s`, which says that its body has `length`. -/
def smallPacket (length : String) : Bytes :=
  ascii ("Content-Length: " ++ length ++ "\r\nX-IASReport-Signature: s\r\n" ++
    "X-IASReport-Signing-Certificate: c\r\n\r\n\x7b\x7d")

/-- In a packet without text the first header is not found, and the length is read through the null
pointer that `strstr` returns. In a packet that says that its body has nine bytes, these are read,
although it has two. A length of zero is answered with an exception. -/
theorem reports_not_validated :
    validateVerificationReport lenient ⟨[], by simp⟩ = .error .outOfBounds ∧
      validateVerificationReport lenient ⟨smallPacket "9", by decide +kernel⟩ =
        .error .outOfBounds ∧
      validateVerificationReport lenient ⟨smallPacket "0", by decide +kernel⟩ =
        .error .invalidArgument := by
  decide +kernel

end EnclaveRaft.System
