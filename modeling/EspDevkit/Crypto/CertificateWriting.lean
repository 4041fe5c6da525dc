import EspDevkit.Crypto.Validity

/-!
# What the builder writes

A writer that ends with less than `2 ^ 32` bytes has cut no length on the way, so that each call has
appended one encoding.
-/

namespace EspDevkit.Crypto.X509

open Der List Option

namespace Der

/-- What a call appends where the writer does not pass `2 ^ 32` bytes. -/
def Appends (f : Writer → Option Writer) (encoding : Bytes) : Prop :=
  ∀ w w', f w = some w' → w'.buf.length < 2 ^ 32 → w'.buf = w.buf ++ encoding

variable {f g : Writer → Option Writer} {a b : Bytes}

theorem appends_some : Appends some [] := by
  rintro w _ ⟨⟩ _
  rw [append_nil]

theorem Appends.bind (first : Appends f a) (rest : Appends g b) :
    Appends (fun w => f w >>= g) (a ++ b) := by
  intro w w'' done short
  obtain ⟨w', one, two⟩ := bind_eq_some_iff.mp done
  have behind := rest w' w'' two short
  have front : w'.buf.length < 2 ^ 32 := by
    rw [behind, length_append] at short
    omega
  rw [behind, first w w' one front, append_assoc]

theorem Appends.raw {x : Option Bytes}
    (given : ∀ bytes, x = some bytes → bytes.length < 2 ^ 32 → bytes = a)
    (rest : Appends g b) : Appends (fun w => x >>= fun bytes => g (w.raw bytes)) (a ++ b) := by
  intro w w' done short
  obtain ⟨bytes, one, two⟩ := bind_eq_some_iff.mp done
  have behind := rest (w.raw bytes) w' two short
  have front : bytes.length < 2 ^ 32 := by
    rw [behind, Writer.raw, length_append, length_append] at short
    omega
  rw [behind, Writer.raw, given bytes one front, append_assoc]

theorem appends_tlv (tag : UInt8) (content : Bytes) :
    Appends (fun w => w.tlv tag content) (encode tag content) := by
  intro w w' (done : w.tlv tag content = some w') short
  have fits : content.length < 2 ^ 32 := by
    obtain ⟨buf, -, rfl⟩ := map_eq_some_iff.mp done
    rw [length_append] at short
    omega
  rw [w.tlv_eq tag fits] at done
  cases done
  rfl

theorem Appends.nested (tag : UInt8) (inner : Appends f a) :
    Appends (fun w => w.nested tag f) (encode tag a) := by
  intro w w' done short
  obtain ⟨v, one, two⟩ := bind_eq_some_iff.mp done
  have content := appends_tlv tag v.buf w w' two short
  have fits : v.buf.length < 2 ^ 32 := by
    rw [content, encode, length_append, length_append, length_cons] at short
    omega
  rw [content, inner {} v one fits, nil_append]

theorem Appends.sequence (inner : Appends f a) :
    Appends (fun w => w.sequence f) (encode Der.sequence a) := inner.nested Der.sequence

theorem appends_oid (id : Bytes) : Appends (fun w => w.oid id) (encode oid id) := appends_tlv oid id

theorem appends_null : Appends (fun w => w.null) (encode null []) := appends_tlv null []

theorem appends_boolean (value : Bool) :
    Appends (fun w => w.boolean value) (encode boolean [if value then 0xff else 0]) :=
  appends_tlv boolean _

theorem appends_unsignedInteger (bytes : Bytes) :
    Appends (fun w => w.unsignedInteger bytes)
      (encode integer (integerContent (BigEndian.extend 0 bytes))) := by
  intro w w' (done : w.unsignedInteger bytes = some w')
  rw [w.unsignedInteger_eq] at done
  exact appends_tlv _ _ w w' done

theorem appends_smallInteger (value : UInt32) :
    Appends (fun w => w.smallInteger value) (encode integer (integerContent value.toNat)) := by
  have written := appends_unsignedInteger (LittleEndian.toBytes 4 value.toNat).reverse
  rwa [extend_toBytes value.toNat_lt] at written

theorem appends_bitString (bytes : Bytes) :
    Appends (fun w => w.bitString bytes) (encode bitString (0 :: bytes)) := by
  intro w w' (done : w.bitString bytes = some w') short
  have fits : bytes.length + 1 < 2 ^ 32 := by
    obtain ⟨buf, -, rfl⟩ := map_eq_some_iff.mp done
    rw [length_append, length_append, length_singleton] at short
    omega
  rw [Writer.bitString, pushLen_eq _ fits, map_some] at done
  cases done
  simp only [encode, append_assoc, cons_append, nil_append, length_cons]

theorem appends_foldlM (tag : UInt8) (contents : List Bytes) :
    Appends (fun w => contents.foldlM (fun w content => w.tlv tag content) w)
      (contents.flatMap (encode tag)) := by
  induction contents with
  | nil => exact appends_some
  | cons content contents ih => exact (appends_tlv tag content).bind ih

end Der

theorem toDer_eq (name : Name) (bytes : Bytes) (written : name.toDer = some bytes)
    (fits : bytes.length < 2 ^ 32) : bytes = encode Der.sequence name.rdns := by
  obtain ⟨w, one, two⟩ := bind_eq_some_iff.mp written
  cases two
  exact appends_tlv Der.sequence name.rdns {} w one fits

namespace Signer

def algorithmContent (kind : KeyKind) : Bytes :=
  match kind with
  | .rsa => encode oid Oid.sha256WithRsa ++ encode null []
  | .ecdsa .p256 => encode oid Oid.ecdsaWithSha256
  | .ecdsa .p384 => encode oid Oid.ecdsaWithSha384
  | .ecdsa .p521 => encode oid Oid.ecdsaWithSha512
  | .ed25519 => encode oid Oid.ed25519

theorem appends_algorithm (self : Signer) :
    Appends self.algorithm (encode Der.sequence (algorithmContent self.kind)) := by
  unfold algorithm algorithmContent
  apply Appends.sequence
  rcases self.kind with _ | (_ | _ | _) | _
  · exact (appends_oid _).bind appends_null
  · exact appends_oid _
  · exact appends_oid _
  · exact appends_oid _
  · exact appends_oid _

def signatureAlgorithm (kind : KeyKind) : SignatureAlgorithm :=
  match kind with
  | .rsa => .rsaPkcs1 .sha256
  | .ecdsa .p256 => .ecdsa .sha256
  | .ecdsa .p384 => .ecdsa .sha384
  | .ecdsa .p521 => .ecdsa .sha512
  | .ed25519 => .ed25519

theorem fromDer_algorithmContent (kind : KeyKind) :
    SignatureAlgorithm.fromDer (algorithmContent kind) = .ok (signatureAlgorithm kind) := by
  rcases kind with _ | (_ | _ | _) | _
  all_goals decide

theorem spki_eq (self : Signer) (bytes : Bytes) (written : self.spki = some bytes)
    (fits : bytes.length < 2 ^ 32) : ∃ content, bytes = encode Der.sequence content := by
  obtain ⟨key, -, rest⟩ := bind_eq_some_iff.mp written
  obtain ⟨w, one, two⟩ := bind_eq_some_iff.mp rest
  cases two
  obtain ⟨inner, -, tlv⟩ := bind_eq_some_iff.mp one
  exact ⟨inner.buf, appends_tlv Der.sequence inner.buf {} w tlv fits⟩

end Signer

theorem appends_time (unix : ℤ) :
    Appends (fun w => writeTime w unix) (encode (timeTlv unix).1 (timeTlv unix).2) := by
  intro w w' (done : writeTime w unix = some w')
  rw [writeTime_eq] at done
  exact appends_tlv _ _ w w' done

namespace CertificateBuilder

variable (self : CertificateBuilder)

def basicConstraintsContent (ca : Bool) : Bytes :=
  encode oid Oid.basicConstraints ++ (encode boolean [0xff] ++
    encode octetString (encode Der.sequence (if ca then encode boolean [0xff] else [])))

def altNamesValue : Bytes :=
  encode Der.sequence (self.dnsNames.flatMap (encode (contextPrimitive 2)))

def altNamesContent : Bytes :=
  encode oid Oid.subjectAltName ++ encode octetString self.altNamesValue

def extensionList : Bytes :=
  (match self.ca with
    | some ca => encode Der.sequence (basicConstraintsContent ca)
    | none => []) ++
    if self.dnsNames ≠ [] then encode Der.sequence self.altNamesContent else []

def extensionsEncoding : Bytes :=
  if self.ca.isSome ∨ self.dnsNames ≠ [] then
    encode (context 3) (encode Der.sequence self.extensionList)
  else []

theorem appends_basicConstraints (ca : Bool) :
    Appends (fun w => w.sequence fun w => do
        let w ← w.oid Oid.basicConstraints
        let w ← w.boolean true
        w.nested octetString fun w => w.sequence fun w => if ca then w.boolean true else some w)
      (encode Der.sequence (basicConstraintsContent ca)) := by
  apply Appends.sequence
  apply (appends_oid _).bind
  apply (appends_boolean true).bind
  apply Appends.nested
  apply Appends.sequence
  cases ca with
  | true => exact appends_boolean true
  | false => exact appends_some

theorem appends_altNames :
    Appends (fun w => w.sequence fun w => do
        let w ← w.oid Oid.subjectAltName
        w.nested octetString fun w =>
          w.sequence fun w =>
            self.dnsNames.foldlM (fun w name => w.tlv (contextPrimitive 2) name) w)
      (encode Der.sequence self.altNamesContent) := by
  apply Appends.sequence
  apply (appends_oid _).bind
  apply Appends.nested
  apply Appends.sequence
  exact appends_foldlM _ _

theorem appends_extensions : Appends self.writeExtensions self.extensionsEncoding := by
  unfold writeExtensions extensionsEncoding
  by_cases some_ : self.ca.isSome ∨ self.dnsNames ≠ []
  · simp only [if_pos some_]
    apply Appends.nested
    apply Appends.sequence
    apply Appends.bind
    · cases self.ca with
      | some ca => exact appends_basicConstraints ca
      | none => exact appends_some
    · split
      · exact self.appends_altNames
      · exact appends_some
  · simp only [if_neg some_]
    exact appends_some

def validityContent : Bytes :=
  encode (timeTlv self.notBefore).1 (timeTlv self.notBefore).2 ++
    encode (timeTlv self.notAfter).1 (timeTlv self.notAfter).2

def tbsContent (spki : Bytes) (issuer : Name) (signer : Signer) : Bytes :=
  encode (context 0) (encode integer (integerContent 2)) ++
    (encode integer (integerContent (BigEndian.extend 0 self.serial)) ++
      (encode Der.sequence (Signer.algorithmContent signer.kind) ++
        (encode Der.sequence issuer.rdns ++
          (encode Der.sequence self.validityContent ++
            (encode Der.sequence self.subject.rdns ++ (spki ++ self.extensionsEncoding))))))

theorem appends_tbs (spki : Bytes) (issuer : Name) (signer : Signer) :
    Appends (self.writeTbs spki issuer signer)
      (encode Der.sequence (self.tbsContent spki issuer signer)) := by
  have behind : Appends (fun w => self.writeExtensions (w.raw spki))
      (spki ++ self.extensionsEncoding) := by
    intro w w' done short
    have written := self.appends_extensions (w.raw spki) w' done short
    rw [written, Writer.raw, append_assoc]
  have subject := Appends.raw (toDer_eq self.subject) behind
  have validity := ((appends_time self.notBefore).bind (appends_time self.notAfter)).sequence
  have names := Appends.raw (toDer_eq issuer) (validity.bind subject)
  have numbers := ((appends_smallInteger 2).nested (context 0)).bind
    ((appends_unsignedInteger self.serial).bind (signer.appends_algorithm.bind names))
  exact numbers.sequence

theorem sign_eq {spki : Bytes} {issuer : Name} {signer : Signer} {der : Bytes}
    (signed : self.sign spki issuer signer = some der) (fits : der.length < 2 ^ 32) :
    ∃ signature, der = encode Der.sequence
      (encode Der.sequence (self.tbsContent spki issuer signer) ++
        (encode Der.sequence (Signer.algorithmContent signer.kind) ++
          encode bitString (0 :: signature))) := by
  obtain ⟨tbs, one, rest⟩ := bind_eq_some_iff.mp signed
  obtain ⟨signature, -, rest⟩ := bind_eq_some_iff.mp rest
  obtain ⟨cert, two, three⟩ := bind_eq_some_iff.mp rest
  cases three
  have whole : Appends (fun w => w.sequence fun w => do
      let w := w.raw tbs.buf
      let w ← signer.algorithm w
      w.bitString signature)
      (encode Der.sequence (tbs.buf ++ (encode Der.sequence (Signer.algorithmContent signer.kind) ++
        encode bitString (0 :: signature)))) := by
    apply Appends.sequence
    intro w w' done short
    have written := (signer.appends_algorithm.bind (appends_bitString signature)) (w.raw tbs.buf) w'
      done short
    rw [written, Writer.raw, append_assoc]
  have all := whole {} cert two fits
  have inside : tbs.buf.length < 2 ^ 32 := by
    rw [all, nil_append, encode, length_append, length_append,
      length_append] at fits
    omega
  have tbs_eq := self.appends_tbs spki issuer signer {} tbs one inside
  rw [tbs_eq] at all
  exact ⟨signature, all⟩

end CertificateBuilder

end EspDevkit.Crypto.X509
