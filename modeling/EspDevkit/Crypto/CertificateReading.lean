import EspDevkit.Crypto.CertificateWriting

/-!
# Built certificates read back

A certificate that the builder signs is parsed again to what it was built of.
-/

namespace EspDevkit.Crypto.X509

open Der List

namespace Der

section Reads

variable {tag : UInt8} {content : Bytes}

theorem length_lt_encode (tag : UInt8) (content : Bytes) :
    content.length + 2 ≤ (encode tag content).length := by
  have some_ : 1 ≤ (lengthBytes content.length).length := by
    unfold lengthBytes
    split
    · exact Nat.le_refl 1
    · exact Nat.succ_le_succ (Nat.zero_le _)
  rw [encode, length_append, length_cons]
  omega

theorem readWhole_encode (short : tag &&& 0x1f ≠ 0x1f) (fits : content.length < 2 ^ 32)
    (rest : Bytes) :
    readWhole tag (encode tag content ++ rest) = .ok (encode tag content, rest) := by
  simp only [readWhole, readValue, readAny_encode short fits, if_true]
  rfl

theorem readOptional_encode (short : tag &&& 0x1f ≠ 0x1f) (fits : content.length < 2 ^ 32)
    (rest : Bytes) :
    readOptional tag (encode tag content ++ rest) = .ok (some content, rest) := by
  have head : (encode tag content ++ rest).head? = some tag := rfl
  rw [readOptional, if_pos head, read_encode tag content short fits]
  rfl

theorem readOptional_other {data : Bytes} (other : data.head? ≠ some tag) :
    readOptional tag data = .ok (none, data) := if_neg other

theorem bitStringBytes_encode {bytes : Bytes} (fits : bytes.length + 1 < 2 ^ 32) (rest : Bytes) :
    bitStringBytes (encode bitString (0 :: bytes) ++ rest) = .ok (bytes, rest) := by
  have content := read_encode bitString (0 :: bytes) (by decide) fits rest
  simp only [bitStringBytes, content]

theorem integerContent_two : integerContent 2 = [2] := by
  have two : magnitude 2 = [2] := @magnitude_extend [2] (by decide) (by decide)
  rw [integerContent, two]
  exact if_neg (by decide)

theorem version_encode : smallUnsigned (encode integer (integerContent 2)) = .ok (2, []) := by
  rw [integerContent_two]
  decide

end Reads

end Der

namespace Certificate

variable (cert : Certificate)

theorem extensions_nil (count : ℕ) : extensions count cert [] = .ok cert := by
  cases count with
  | zero => rfl
  | succ count => exact if_pos rfl

theorem extensions_encode {ext : Bytes} (fits : ext.length < 2 ^ 32) (count : ℕ) (rest : Bytes)
    {cert' : Certificate} (one : cert.extension ext = .ok cert') :
    extensions (count + 1) cert (encode Der.sequence ext ++ rest) =
      extensions count cert' rest := by
  have some_ : encode Der.sequence ext ++ rest ≠ [] := nofun
  simp only [extensions, if_neg some_, bind, Except.bind,
    read_encode Der.sequence ext (by decide) fits rest, one]

theorem extension_basicConstraints (ca : Bool) :
    cert.extension (CertificateBuilder.basicConstraintsContent ca) =
      .ok { cert with basicConstraints := some { ca, pathLen := none } } := by
  cases ca with
  | true => rfl
  | false => rfl

theorem extension_altNames {builder : CertificateBuilder}
    (fits : builder.altNamesValue.length < 2 ^ 32) :
    cert.extension builder.altNamesContent =
      .ok { cert with subjectAltNames := some builder.altNamesValue } := by
  have id := read_encode oid Oid.subjectAltName (by decide) (by decide)
    (encode octetString builder.altNamesValue)
  have notCritical : optionalBoolean (encode octetString builder.altNamesValue) =
      .ok (false, encode octetString builder.altNamesValue) := by
    have other : (encode octetString builder.altNamesValue).head? ≠ some Der.boolean := by
      change some octetString ≠ some Der.boolean
      decide
    exact if_neg other
  have value := read_encode octetString builder.altNamesValue (by decide) fits []
  rw [append_nil] at value
  have basic : Oid.subjectAltName ≠ Oid.basicConstraints := by decide
  have usage : Oid.subjectAltName ≠ Oid.keyUsage := by decide
  have extUsage : Oid.subjectAltName ≠ Oid.extKeyUsage := by decide
  simp only [extension, CertificateBuilder.altNamesContent, bind, Except.bind, id, notCritical,
    value, finish, if_true, if_neg basic, if_neg usage, if_neg extUsage]

theorem namesOf_encode {tag : UInt8} (short : tag &&& 0x1f ≠ 0x1f) (other : UInt8)
    {contents : List Bytes} (fits : ∀ content ∈ contents, content.length < 2 ^ 32) {count : ℕ}
    (enough : contents.length ≤ count) :
    namesOf other count (contents.flatMap (encode tag)) = if tag = other then contents else [] := by
  induction contents generalizing count with
  | nil =>
    rw [flatMap_nil, ite_self]
    cases count with
    | zero => rfl
    | succ count => rfl
  | cons content contents ih =>
    obtain ⟨count, rfl⟩ := Nat.exists_eq_add_one_of_ne_zero (Nat.ne_zero_of_lt enough)
    have rest := ih (fun content member => fits content (mem_cons_of_mem _ member))
      (Nat.le_of_succ_le_succ enough)
    have value := readAny_encode short (fits content mem_cons_self)
      (contents.flatMap (encode tag))
    rw [flatMap_cons, namesOf, value]
    dsimp only
    rw [rest]
    split
    · rfl
    · rfl

theorem length_le_flatMap_encode (tag : UInt8) (contents : List Bytes) :
    contents.length ≤ (contents.flatMap (encode tag)).length ∧
      ∀ content ∈ contents, content.length ≤ (contents.flatMap (encode tag)).length := by
  induction contents with
  | nil => exact ⟨Nat.le_refl 0, nofun⟩
  | cons content contents ih =>
    have here := length_lt_encode tag content
    rw [flatMap_cons, length_append, length_cons]
    refine ⟨by omega, ?_⟩
    intro content' member
    rcases mem_cons.mp member with rfl | later
    · omega
    · have before := ih.2 content' later
      omega

inductive Extended (cert : Certificate) : Bytes → Certificate → Prop
  | none_ : Extended cert [] cert
  | some_ {list : Bytes} {cert' : Certificate}
      (read : extensions list.length cert list = .ok cert') :
      Extended cert (encode (context 3) (encode Der.sequence list)) cert'

variable {alg issuer validity subject spki serial signature behind : Bytes}

def tbsOf (serial alg issuer validity subject spki behind : Bytes) : Bytes :=
  encode (context 0) (encode integer (integerContent 2)) ++
    (encode integer serial ++ (encode Der.sequence alg ++ (encode Der.sequence issuer ++
      (encode Der.sequence validity ++ (encode Der.sequence subject ++
        (encode Der.sequence spki ++ behind))))))

def ofParts (serial alg issuer validity subject spki signature behind : Bytes)
    (notBefore notAfter : ℤ) : Certificate :=
  { tbs := encode Der.sequence (tbsOf serial alg issuer validity subject spki behind)
    signatureAlgorithm := .rsaPkcs1 .sha256
    signature, serial
    issuer := encode Der.sequence issuer
    subject := encode Der.sequence subject
    notBefore, notAfter
    spki := encode Der.sequence spki }

theorem parse_parts {notBefore notAfter : ℤ} {a : SignatureAlgorithm} {cert : Certificate}
    (fits : (encode Der.sequence (tbsOf serial alg issuer validity subject spki behind) ++
      (encode Der.sequence alg ++ encode bitString (0 :: signature))).length < 2 ^ 32)
    {left : Bytes} (first : time validity = .ok (notBefore, left))
    (second : time left = .ok (notAfter, [])) (algorithm : SignatureAlgorithm.fromDer alg = .ok a)
    (extended : (ofParts serial alg issuer validity subject spki signature behind notBefore
      notAfter).Extended behind cert) :
    parse (encode Der.sequence
        (encode Der.sequence (tbsOf serial alg issuer validity subject spki behind) ++
          (encode Der.sequence alg ++ encode bitString (0 :: signature)))) =
      .ok { cert with signatureAlgorithm := a } := by
  have whole := read_encode Der.sequence _ (by decide) fits []
  rw [append_nil] at whole
  simp only [length_append] at fits
  have tbsFits : (tbsOf serial alg issuer validity subject spki behind).length < 2 ^ 32 := by
    have := length_lt_encode Der.sequence (tbsOf serial alg issuer validity subject spki behind)
    omega
  have algFits : alg.length < 2 ^ 32 := by
    have := length_lt_encode Der.sequence alg
    omega
  have signatureFits : signature.length + 1 < 2 ^ 32 := by
    have := length_lt_encode bitString (0 :: signature)
    rw [length_cons] at this
    omega
  have tbsWhole := @readWhole_encode Der.sequence _ (by decide) tbsFits
    (encode Der.sequence alg ++ encode bitString (0 :: signature))
  have tbs := read_encode Der.sequence _ (by decide) tbsFits []
  rw [append_nil] at tbs
  have outerAlg := read_encode Der.sequence alg (by decide) algFits
  have bits := bitStringBytes_encode signatureFits []
  rw [append_nil] at bits
  simp only [tbsOf, length_append] at tbsFits
  have serialFits := length_lt_encode integer serial
  have issuerFits := length_lt_encode Der.sequence issuer
  have validityFits := length_lt_encode Der.sequence validity
  have subjectFits := length_lt_encode Der.sequence subject
  have spkiFits := length_lt_encode Der.sequence spki
  have versionFits := length_lt_encode (context 0) (encode integer (integerContent 2))
  have version := @readOptional_encode (context 0) (encode integer (integerContent 2)) (by decide)
    (by omega)
  have serialRead := read_encode integer serial (by decide) (by omega)
  have issuerRead := @readWhole_encode Der.sequence issuer (by decide) (by omega)
  have validityRead := read_encode Der.sequence validity (by decide) (by omega)
  have subjectRead := @readWhole_encode Der.sequence subject (by decide) (by omega)
  have spkiRead := @readWhole_encode Der.sequence spki (by decide) (by omega)
  cases extended with
  | none_ =>
    have issuerId := @readOptional_other (contextPrimitive 1) [] nofun
    have subjectId := @readOptional_other (contextPrimitive 2) [] nofun
    have none_ := @readOptional_other (context 3) [] nofun
    simp only [parse, bind, Except.bind, whole, finish, if_true, tbsWhole, outerAlg, bits, tbs]
    simp only [tbsOf, version, version_encode, serialRead, outerAlg, issuerRead, validityRead,
      first, second, subjectRead, spkiRead, issuerId, subjectId, none_, if_true, algorithm]
    rfl
  | @some_ list cert' read =>
    have extsFits := length_lt_encode (context 3) (encode Der.sequence list)
    have listFits := length_lt_encode Der.sequence list
    have issuerId := @readOptional_other (contextPrimitive 1)
      (encode (context 3) (encode Der.sequence list)) (by change some (context 3) ≠ _; decide)
    have subjectId := @readOptional_other (contextPrimitive 2)
      (encode (context 3) (encode Der.sequence list)) (by change some (context 3) ≠ _; decide)
    have exts := @readOptional_encode (context 3) (encode Der.sequence list) (by decide)
      (by omega) []
    rw [append_nil] at exts
    have listRead := read_encode Der.sequence list (by decide) (by omega) []
    rw [append_nil] at listRead
    simp only [ofParts, tbsOf] at read
    simp only [parse, bind, Except.bind, whole, finish, if_true, tbsWhole, outerAlg, bits, tbs]
    simp only [tbsOf, version, version_encode, Except.map, serialRead, outerAlg, issuerRead,
      validityRead, first, second, subjectRead, spkiRead, issuerId, subjectId, exts, ne_eq,
      not_true_eq_false, if_false, listRead, read, if_true, algorithm]

end Certificate

namespace CertificateBuilder

open Certificate

variable (self : CertificateBuilder)

def extend (cert : Certificate) : Certificate :=
  { cert with
    basicConstraints :=
      match self.ca with
      | some ca => some { ca, pathLen := none }
      | none => cert.basicConstraints
    subjectAltNames :=
      if self.dnsNames ≠ [] then some self.altNamesValue else cert.subjectAltNames }

def altNamesPart : Bytes :=
  if self.dnsNames ≠ [] then encode Der.sequence self.altNamesContent else []

theorem extensions_altNamesPart (cert : Certificate) (fits : self.altNamesPart.length < 2 ^ 32)
    {count : ℕ} (enough : self.altNamesPart.length ≤ count) :
    extensions count cert self.altNamesPart =
      .ok { cert with
        subjectAltNames :=
          if self.dnsNames ≠ [] then some self.altNamesValue else cert.subjectAltNames } := by
  unfold altNamesPart at fits enough ⊢
  by_cases some_ : self.dnsNames ≠ []
  · rw [if_pos some_] at fits enough
    rw [if_pos some_, if_pos some_]
    have whole := length_lt_encode Der.sequence self.altNamesContent
    have content : self.altNamesValue.length ≤ self.altNamesContent.length := by
      have value := length_lt_encode octetString self.altNamesValue
      rw [altNamesContent, length_append]
      omega
    obtain ⟨count, rfl⟩ : ∃ rest, count = rest + 1 := ⟨count - 1, by omega⟩
    have one := @extension_altNames cert self (by omega)
    have read := cert.extensions_encode (by omega) count [] one
    rw [append_nil] at read
    rw [read, extensions_nil]
  · rw [if_neg some_, if_neg some_, extensions_nil]

theorem extensions_extensionList (cert : Certificate) (fits : self.extensionList.length < 2 ^ 32) :
    extensions self.extensionList.length cert self.extensionList = .ok (self.extend cert) := by
  have list : self.extensionList = (match self.ca with
    | some ca => encode Der.sequence (basicConstraintsContent ca)
    | none => []) ++ self.altNamesPart := rfl
  rw [list] at fits ⊢
  unfold extend
  generalize self.ca = ca at fits ⊢
  cases ca with
  | none => exact self.extensions_altNamesPart cert fits (Nat.le_refl _)
  | some ca =>
    dsimp only at fits ⊢
    have whole := length_lt_encode Der.sequence (basicConstraintsContent ca)
    rw [length_append] at fits ⊢
    obtain ⟨count, count_eq⟩ : ∃ rest, (encode Der.sequence (basicConstraintsContent ca)).length +
        self.altNamesPart.length = rest + 1 :=
      ⟨_ - 1, (Nat.sub_add_cancel (by omega)).symm⟩
    rw [count_eq, cert.extensions_encode (by omega) count _ (cert.extension_basicConstraints ca)]
    exact self.extensions_altNamesPart _ (by omega) (by omega)

theorem extended (cert : Certificate) (fits : self.extensionsEncoding.length < 2 ^ 32) :
    cert.Extended self.extensionsEncoding (self.extend cert) := by
  unfold extensionsEncoding at fits ⊢
  by_cases some_ : self.ca.isSome ∨ self.dnsNames ≠ []
  · rw [if_pos some_] at fits ⊢
    have exts := length_lt_encode (context 3) (encode Der.sequence self.extensionList)
    have list := length_lt_encode Der.sequence self.extensionList
    exact .some_ (self.extensions_extensionList cert (by omega))
  · rw [if_neg some_]
    obtain ⟨ca, names⟩ := not_or.mp some_
    have same : self.extend cert = cert := by
      unfold extend
      rw [if_neg names]
      cases none_ : self.ca with
      | none => rfl
      | some _ =>
        rw [none_] at ca
        exact absurd rfl ca
    rw [same]
    exact .none_

theorem generalNames_altNames (fits : self.altNamesPart.length < 2 ^ 32) (tag : UInt8) :
    generalNames (if self.dnsNames ≠ [] then some self.altNamesValue else none) tag =
      if contextPrimitive 2 = tag then self.dnsNames else [] := by
  unfold altNamesPart at fits
  by_cases some_ : self.dnsNames ≠ []
  · rw [if_pos some_] at fits ⊢
    have whole := length_lt_encode Der.sequence self.altNamesContent
    have value := length_lt_encode octetString self.altNamesValue
    have names := length_lt_encode Der.sequence
      (self.dnsNames.flatMap (encode (contextPrimitive 2)))
    have each := length_le_flatMap_encode (contextPrimitive 2) self.dnsNames
    simp only [altNamesContent, altNamesValue, length_append] at whole value fits
    have read := read_encode Der.sequence (self.dnsNames.flatMap (encode (contextPrimitive 2)))
      (by decide) (by omega) []
    rw [append_nil] at read
    simp only [generalNames, altNamesValue, Option.map_some, read]
    apply namesOf_encode (by decide) tag _ each.1
    intro content member
    have short := each.2 content member
    omega
  · rw [if_neg some_, not_not.mp some_, ite_self]
    rfl

theorem length_altNamesPart : self.altNamesPart.length ≤ self.extensionsEncoding.length := by
  by_cases some_ : self.dnsNames ≠ []
  · have list : self.altNamesPart.length ≤ self.extensionList.length := by
      rw [extensionList, length_append]
      exact Nat.le_add_left _ _
    have inner := length_lt_encode Der.sequence self.extensionList
    have outer := length_lt_encode (context 3) (encode Der.sequence self.extensionList)
    rw [extensionsEncoding, if_pos (.inr some_)]
    omega
  · rw [altNamesPart, if_neg some_]
    exact Nat.zero_le _

theorem toDer_encode {name : Name} (fits : name.rdns.length < 2 ^ 32) :
    name.toDer = some (encode Der.sequence name.rdns) := by
  rw [Name.toDer, Writer.tlv_eq _ _ fits]
  rfl

theorem parse_signed {subject signer : Signer} {issuer : Name} {spki der : Bytes}
    (key : subject.spki = some spki) (signed : self.sign spki issuer signer = some der)
    (fits : der.length < 2 ^ 32) (first : InYears self.notBefore) (last : InYears self.notAfter) :
    (issuer.rdns.length < 2 ^ 32 ∧ self.subject.rdns.length < 2 ^ 32 ∧
        self.extensionsEncoding.length < 2 ^ 32) ∧
      ∃ key signature, Certificate.parse der = .ok
        { self.extend (ofParts (integerContent (BigEndian.extend 0 self.serial))
            (Signer.algorithmContent signer.kind) issuer.rdns self.validityContent self.subject.rdns
              key signature self.extensionsEncoding self.notBefore self.notAfter) with
          signatureAlgorithm := Signer.signatureAlgorithm signer.kind } := by
  obtain ⟨signature, rfl⟩ := self.sign_eq signed fits
  have whole := length_lt_encode Der.sequence
    (encode Der.sequence (self.tbsContent spki issuer signer) ++
      (encode Der.sequence (Signer.algorithmContent signer.kind) ++
        encode bitString (0 :: signature)))
  have content := Nat.lt_of_le_of_lt (Nat.le_of_add_right_le whole) fits
  have parts := content
  rw [length_append] at parts
  have tbs := length_lt_encode Der.sequence (self.tbsContent spki issuer signer)
  simp only [tbsContent, length_append] at tbs parts
  have issuerFits := length_lt_encode Der.sequence issuer.rdns
  have subjectFits := length_lt_encode Der.sequence self.subject.rdns
  obtain ⟨key', rfl⟩ := subject.spki_eq spki key (by omega)
  have extended := self.extended (ofParts (integerContent (BigEndian.extend 0 self.serial))
    (Signer.algorithmContent signer.kind) issuer.rdns self.validityContent self.subject.rdns key'
    signature self.extensionsEncoding self.notBefore self.notAfter) (by omega)
  have second := time_encode last []
  rw [append_nil] at second
  refine ⟨⟨by omega, by omega, by omega⟩, key', signature, ?_⟩
  exact parse_parts content (time_encode first _) second
    (Signer.fromDer_algorithmContent signer.kind) extended

/-- What the builder signs is parsed to what it was built of. -/
theorem parse_sign {subject signer : Signer} {issuer : Name} {spki der : Bytes}
    (key : subject.spki = some spki) (signed : self.sign spki issuer signer = some der)
    (fits : der.length < 2 ^ 32) (first : InYears self.notBefore) (last : InYears self.notAfter) :
    ∃ cert, Certificate.parse der = .ok cert ∧
      cert.serial = integerContent (BigEndian.extend 0 self.serial) ∧
        (some cert.issuer = issuer.toDer ∧ some cert.subject = self.subject.toDer) ∧
          (cert.notBefore = self.notBefore ∧ cert.notAfter = self.notAfter) ∧
            (cert.dnsNames = self.dnsNames ∧ cert.ipAddresses = []) ∧
              cert.basicConstraints = self.ca.map fun ca => { ca, pathLen := none } := by
  obtain ⟨⟨issuerFits, subjectFits, extsFits⟩, key, signature, parsed⟩ :=
    self.parse_signed key signed fits first last
  have names := self.generalNames_altNames (Nat.lt_of_le_of_lt self.length_altNamesPart extsFits)
  refine ⟨_, parsed, rfl, ⟨?_, ?_⟩, ⟨rfl, rfl⟩, ⟨?_, ?_⟩, ?_⟩
  · exact (toDer_encode issuerFits).symm
  · exact (toDer_encode subjectFits).symm
  · exact (names _).trans (if_pos rfl)
  · exact (names _).trans (if_neg (by decide))
  · change (match self.ca with | some ca => _ | none => none) = _
    cases self.ca with
    | some ca => rfl
    | none => rfl

def emptySigner : Signer := { kind := .ed25519, publicKey := some [], sign := fun _ => some [] }

def serial128 : CertificateBuilder := { subject := {}, serial := [0x80], ca := some true }

theorem serial128_signs :
    ∃ spki der, emptySigner.spki = some spki ∧ serial128.sign spki {} emptySigner = some der ∧
      der.length < 2 ^ 32 := by
  have short : ((emptySigner.spki.bind fun spki => serial128.sign spki {} emptySigner).map
      List.length).any (· < 2 ^ 32) := by decide +kernel
  cases key : emptySigner.spki with
  | none =>
    rw [key] at short
    cases short
  | some spki =>
    rw [key, Option.bind_some] at short
    cases signed : serial128.sign spki {} emptySigner with
    | none =>
      rw [signed] at short
      cases short
    | some der =>
      rw [signed] at short
      exact ⟨spki, der, rfl, signed, of_decide_eq_true short⟩

theorem serial128_years : InYears serial128.notBefore ∧ InYears serial128.notAfter := by
  refine ⟨⟨?_, ?_⟩, ⟨?_, ?_⟩⟩
  all_goals decide

theorem integerContent_128 : integerContent (BigEndian.extend 0 [0x80]) = [0, 0x80] := by
  have kept : magnitude (BigEndian.extend 0 [0x80]) = [0x80] :=
    magnitude_extend (by decide) nofun
  rw [integerContent, kept]
  rfl

theorem parse_sign_serial128 :
    ∃ der cert, Certificate.parse der = .ok cert ∧ cert.serial = [0, 0x80] ∧
      cert.notBefore = 946684800 ∧
        cert.basicConstraints = some { ca := true, pathLen := none } := by
  obtain ⟨spki, der, key, signed, short⟩ := serial128_signs
  obtain ⟨cert, parsed, serial, -, times, -, basic⟩ :=
    serial128.parse_sign key signed short serial128_years.1 serial128_years.2
  exact ⟨der, cert, parsed, serial.trans integerContent_128, times.1, basic⟩

/-- A serial number with its highest bit set is read back with a zero in front. -/
theorem serial_extended :
    ¬∀ (builder : CertificateBuilder) (subject signer : Signer) (issuer : Name) (spki der : Bytes),
      subject.spki = some spki → builder.sign spki issuer signer = some der →
        der.length < 2 ^ 32 → InYears builder.notBefore → InYears builder.notAfter →
          ∃ cert, Certificate.parse der = .ok cert ∧ cert.serial = builder.serial := by
  intro same
  obtain ⟨spki, der, key, signed, short⟩ := serial128_signs
  obtain ⟨first, last⟩ := serial128_years
  obtain ⟨cert, parsed, serial⟩ :=
    same serial128 emptySigner emptySigner {} spki der key signed short first last
  obtain ⟨-, _, _, parsed'⟩ := serial128.parse_signed key signed short first last
  obtain rfl := Except.ok.inj (parsed.symm.trans parsed')
  have content := integerContent_128.symm.trans serial
  cases content

end CertificateBuilder

end EspDevkit.Crypto.X509
