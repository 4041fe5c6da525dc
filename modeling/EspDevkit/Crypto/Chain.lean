import EspDevkit.Crypto.Certificate

/-!
# Certificate chains

A server's chain is checked from its leaf up.  The certificates behind the leaf may
stand in any order, so the issuers of each are tried in turn, and the search goes
back from one that leads to no anchor.  What a key and a signature are is left open.
-/

namespace EspDevkit.Crypto.X509

open Der LittleEndian

structure Anchor where
  subject : Bytes
  spki : Bytes
  distrustAfter : Option ℤ
  deriving DecidableEq, Repr

/-- `next_entry`. -/
def nextEntry (data : Bytes) : Option (Anchor × Bytes) :=
  if data.length < 12 then none
  else
    let subjectLen := ofBytes (data.take 2)
    let spkiLen := ofBytes ((data.drop 2).take 2)
    let distrust := (BitVec.ofNat 64 (ofBytes ((data.drop 4).take 8))).toInt
    let body := data.drop 12
    if body.length < subjectLen + spkiLen then none
    else
      some ({ subject := body.take subjectLen, spki := (body.drop subjectLen).take spkiLen
              distrustAfter := if distrust = 0 then none else some distrust },
        body.drop (subjectLen + spkiLen))

def bundled : ℕ → Bytes → List Anchor
  | 0, _ => []
  | count + 1, rest =>
    match nextEntry rest with
    | none => []
    | some (anchor, rest) => anchor :: bundled count rest

structure TrustStore where
  bundle : Option Bytes := none
  extra : List (Bytes × Bytes) := []

def TrustStore.anchors (store : TrustStore) : List Anchor :=
  let entries := store.bundle.getD []
  bundled entries.length entries ++
    store.extra.map fun (subject, spki) => { subject, spki, distrustAfter := none }

inductive ServerName
  | dns (host : Bytes)
  | ip (octets : Bytes)

def fail {α : Type} (e : CertError) : Except Error α := .error (.certificate e)

def lower (c : UInt8) : UInt8 := if 0x41 ≤ c ∧ c ≤ 0x5a then c + 0x20 else c

def eqIgnoreAsciiCase (a b : Bytes) : Bool := a.map lower = b.map lower

def dot : UInt8 := 0x2e

/-- RFC 6125: a `*` only as the whole leftmost label, matching one label. -/
def dnsMatches (pattern host : Bytes) : Bool :=
  match pattern with
  | 0x2a :: 0x2e :: suffix =>
    match host.findIdx? (· = dot) with
    | some at' => 0 < at' && eqIgnoreAsciiCase (host.drop (at' + 1)) suffix && suffix.contains dot
    | none => false
  | _ => eqIgnoreAsciiCase pattern host

def stripDot (base : Bytes) : Bytes := if base.head? = some dot then base.tail else base

def dnsWithin (name base : Bytes) : Bool :=
  let base := stripDot base
  if base = [] then true
  else
    eqIgnoreAsciiCase name base ||
      (decide (base.length < name.length) &&
        eqIgnoreAsciiCase (name.drop (name.length - base.length)) base &&
        name[name.length - base.length - 1]? = some dot)

def ipWithin (addr base : Bytes) : Bool :=
  decide (base.length = 2 * addr.length) &&
    ((addr.zip (base.take addr.length)).zip (base.drop addr.length)).all fun ((a, b), m) =>
      a &&& m = b &&& m

def checkName (leaf : Certificate) (name : ServerName) : Except Error Unit :=
  let found := match name with
    | .dns host =>
      let host := if host.getLast? = some dot then host.dropLast else host
      leaf.dnsNames.any fun pattern => dnsMatches pattern host
    | .ip octets => leaf.ipAddresses.any fun addr => addr = octets
  if found then .ok () else fail .nameMismatch

def checkTime (cert : Certificate) (now : Option ℤ) : Except Error Unit :=
  match now with
  | none => .ok ()
  | some t =>
    if t < cert.notBefore then fail .notYetValid
    else if cert.notAfter < t then fail .expired
    else .ok ()

def digitalSignature : ℕ := 0

def keyCertSign : ℕ := 5

def checkIssuer (issuer : Certificate) (below : ℕ) (now : Option ℤ) : Except Error Unit :=
  match checkTime issuer now with
  | .error e => .error e
  | .ok _ =>
    match issuer.basicConstraints with
    | none => fail .notCa
    | some bc =>
      if !bc.ca then fail .notCa
      else if ∃ n ∈ bc.pathLen, n < below then fail .pathTooLong
      else if !issuer.usageAllows keyCertSign then fail .badUsage
      else if !issuer.hasExtKeyUsage Oid.serverAuth then fail .badUsage
      else .ok ()

def subtreesOf (tag : UInt8) : ℕ → Bytes → Except Error (List Bytes)
  | 0, _ => .ok []
  | count + 1, list =>
    if list = [] then .ok []
    else
      match read Der.sequence list with
      | .error e => .error e
      | .ok (subtree, list) =>
        match readAny subtree with
        | .error e => .error e
        | .ok (base, _) =>
          match subtreesOf tag count list with
          | .error e => .error e
          | .ok bases => .ok (if base.tag = tag then base.content :: bases else bases)

def subtrees (list : Option Bytes) (tag : UInt8) : Except Error (List Bytes) :=
  let list := list.getD []
  subtreesOf tag list.length list

def nameSubtrees (value : Bytes) : Except Error (Option Bytes × Option Bytes) :=
  match read Der.sequence value with
  | .error e => .error e
  | .ok (seq, _) =>
    match readOptional (context 0) seq with
    | .error e => .error e
    | .ok (permitted, seq) => (readOptional (context 1) seq).map fun (excluded, _) =>
      (permitted, excluded)

structure NameKind where
  tag : UInt8
  within : Bytes → Bytes → Bool
  names : Certificate → List Bytes

def nameKinds : List NameKind :=
  [{ tag := contextPrimitive 2, within := dnsWithin, names := Certificate.dnsNames },
    { tag := contextPrimitive 7, within := ipWithin, names := Certificate.ipAddresses }]

def checkKinds (permitted excluded : Option Bytes) (leaf : Certificate) :
    List NameKind → Except Error Unit
  | [] => .ok ()
  | kind :: kinds =>
    match subtrees permitted kind.tag with
    | .error e => .error e
    | .ok allowed =>
      match subtrees excluded kind.tag with
      | .error e => .error e
      | .ok denied =>
        if (kind.names leaf).any fun name => denied.any (kind.within name) ||
            (!allowed.isEmpty && !allowed.any (kind.within name)) then fail .nameConstraint
        else checkKinds permitted excluded leaf kinds

/-- The issuer's name constraints over the leaf's DNS names and IP addresses. -/
def checkConstraints (issuer leaf : Certificate) : Except Error Unit :=
  match issuer.nameConstraints with
  | none => .ok ()
  | some value =>
    match nameSubtrees value with
    | .error e => .error e
    | .ok (permitted, excluded) => checkKinds permitted excluded leaf nameKinds

def maxDepth : ℕ := 8

section

variable {Key : Type} (fromSpki : Bytes → Option Key)
  (verify : Key → SignatureAlgorithm → Bytes → Bytes → Bool)

/-- `verify_signed_by`. -/
def Certificate.signedBy (cert : Certificate) (key : Key) : Bool :=
  verify key cert.signatureAlgorithm cert.tbs cert.signature

variable (leaf : Certificate) (now : Option ℤ)

/-- The loop of `build` over the anchors. -/
def tryAnchors (cert : Certificate) : List Anchor → Error → Bool × Error
  | [], best => (false, best)
  | anchor :: anchors, best =>
    if anchor.subject ≠ cert.issuer then tryAnchors cert anchors best
    else
      match fromSpki anchor.spki with
      | none => tryAnchors cert anchors best
      | some key =>
        if !cert.signedBy verify key then tryAnchors cert anchors (.certificate .badSignature)
        else if ∃ t ∈ anchor.distrustAfter, t < leaf.notBefore then
          tryAnchors cert anchors (.certificate .distrusted)
        else (true, best)

/-- The loop of `build` over the intermediates. -/
def tryIssuers (next : ℕ → Certificate → Error → Bool × Error) (path : List ℕ)
    (cert : Certificate) : List (Certificate × ℕ) → Error → Bool × Error
  | [], best => (false, best)
  | (issuer, i) :: rest, best =>
    if i ∈ path ∨ issuer.subject ≠ cert.issuer then tryIssuers next path cert rest best
    else
      match checkIssuer issuer path.length now with
      | .error e => tryIssuers next path cert rest e
      | .ok _ =>
        match checkConstraints issuer leaf with
        | .error e => tryIssuers next path cert rest e
        | .ok _ =>
          match fromSpki issuer.spki with
          | none => tryIssuers next path cert rest best
          | some key =>
            if !cert.signedBy verify key then
              tryIssuers next path cert rest (.certificate .badSignature)
            else
              match next i issuer best with
              | (true, best) => (true, best)
              | (false, best) => tryIssuers next path cert rest best

/-- `build`, with room for so many more intermediates on the path. -/
def build (intermediates : List Certificate) (anchors : List Anchor) :
    ℕ → List ℕ → Certificate → Error → Bool × Error
  | room, path, cert, best =>
    match tryAnchors fromSpki verify leaf cert anchors best with
    | (true, best) => (true, best)
    | (false, best) =>
      match room with
      | 0 => (false, .certificate .pathTooLong)
      | room + 1 =>
        tryIssuers fromSpki verify leaf now
          (fun i issuer best => build intermediates anchors room (path ++ [i]) issuer best) path cert
          intermediates.zipIdx best

end

section

variable {Key : Type} (fromSpki : Bytes → Option Key)
  (verify : Key → SignatureAlgorithm → Bytes → Bytes → Bool)

def checkLeaf (leaf : Certificate) (now : Option ℤ) (name : Option ServerName) :
    Except Error Unit :=
  match checkTime leaf now with
  | .error e => .error e
  | .ok _ =>
    match name.elim (.ok ()) (checkName leaf) with
    | .error e => .error e
    | .ok _ =>
      if !leaf.hasExtKeyUsage Oid.serverAuth then fail .badUsage
      else if !leaf.usageAllows digitalSignature then fail .badUsage
      else .ok ()

def parsed (chain : List Bytes) : List Certificate :=
  chain.filterMap fun der => (Certificate.parse der).toOption

def verifyChain (chain : List Bytes) (store : TrustStore) (now : Option ℤ)
    (name : Option ServerName) : Except Error Unit :=
  match chain with
  | [] => fail .unknownIssuer
  | der :: rest =>
    match Certificate.parse der with
    | .error e => .error e
    | .ok leaf =>
      match checkLeaf leaf now name with
      | .error e => .error e
      | .ok _ =>
        if store.anchors.any fun anchor => anchor.spki = leaf.spki then .ok ()
        else
          match build fromSpki verify leaf now (parsed rest) store.anchors maxDepth [] leaf
              (.certificate .unknownIssuer) with
          | (true, _) => .ok ()
          | (false, best) => .error best

end

end EspDevkit.Crypto.X509
