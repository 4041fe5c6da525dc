import EspDevkit.Crypto.Chain
import EspDevkit.Library.PathSearch

/-!
# Chains are paths to an anchor

A chain is accepted exactly when its leaf passes its own checks and has an anchor's
key, or a path of distinct intermediates leads from it to an anchor.
-/

namespace EspDevkit.Crypto.X509

open PathSearch List

def InDate (now : Option ℤ) (cert : Certificate) : Prop :=
  ∀ t ∈ now, cert.notBefore ≤ t ∧ t ≤ cert.notAfter

structure MayIssue (now : Option ℤ) (below : ℕ) (issuer : Certificate) : Prop where
  inDate : InDate now issuer
  ca : ∃ bc ∈ issuer.basicConstraints, bc.ca = true ∧ ∀ n ∈ bc.pathLen, below ≤ n
  usage : issuer.usageAllows keyCertSign = true
  purpose : issuer.hasExtKeyUsage Oid.serverAuth = true

def Permits (issuer leaf : Certificate) : Prop :=
  ∀ value ∈ issuer.nameConstraints, ∃ permitted excluded,
    nameSubtrees value = .ok (permitted, excluded) ∧ ∀ kind ∈ nameKinds, ∃ allowed denied,
      subtrees permitted kind.tag = .ok allowed ∧ subtrees excluded kind.tag = .ok denied ∧
        ∀ name ∈ kind.names leaf, (∀ base ∈ denied, kind.within name base = false) ∧
          (allowed = [] ∨ ∃ base ∈ allowed, kind.within name base = true)

def Named (leaf : Certificate) : ServerName → Prop
  | .dns host => ∃ pattern ∈ leaf.dnsNames,
      dnsMatches pattern (if host.getLast? = some dot then host.dropLast else host) = true
  | .ip octets => octets ∈ leaf.ipAddresses

structure LeafPasses (now : Option ℤ) (name : Option ServerName) (leaf : Certificate) : Prop where
  inDate : InDate now leaf
  named : ∀ n ∈ name, Named leaf n
  purpose : leaf.hasExtKeyUsage Oid.serverAuth = true
  usage : leaf.usageAllows digitalSignature = true

section

variable {Key : Type} (fromSpki : Bytes → Option Key)
  (verify : Key → SignatureAlgorithm → Bytes → Bytes → Bool)

def SignedBy (cert : Certificate) (spki : Bytes) : Prop :=
  ∃ key, fromSpki spki = some key ∧ cert.signedBy verify key = true

def Anchored (leaf : Certificate) (anchors : List Anchor) (cert : Certificate) : Prop :=
  ∃ anchor ∈ anchors, anchor.subject = cert.issuer ∧ SignedBy fromSpki verify cert anchor.spki ∧
    ∀ t ∈ anchor.distrustAfter, leaf.notBefore ≤ t

def ChainPath (leaf : Certificate) (now : Option ℤ) (intermediates : List Certificate)
    (anchors : List Anchor) : ℕ → Certificate → List ℕ → Prop
  | _, cert, [] => Anchored fromSpki verify leaf anchors cert
  | below, cert, i :: path => ∃ issuer, intermediates[i]? = some issuer ∧
      issuer.subject = cert.issuer ∧ MayIssue now below issuer ∧ Permits issuer leaf ∧
        SignedBy fromSpki verify cert issuer.spki ∧
          ChainPath leaf now intermediates anchors (below + 1) issuer path

theorem checkTime_iff (cert : Certificate) (now : Option ℤ) :
    checkTime cert now = .ok () ↔ InDate now cert := by
  unfold checkTime InDate
  cases now with
  | none => simp
  | some t =>
    dsimp only
    split
    · simp [fail]
      omega
    · split
      · simp [fail]
        omega
      · simp
        omega

theorem checkIssuer_iff (issuer : Certificate) (below : ℕ) (now : Option ℤ) :
    checkIssuer issuer below now = .ok () ↔ MayIssue now below issuer := by
  unfold checkIssuer
  cases date : checkTime issuer now with
  | error e =>
    refine ⟨nofun, fun may => ?_⟩
    rw [(checkTime_iff issuer now).mpr may.inDate] at date
    cases date
  | ok _ =>
    have inDate := (checkTime_iff issuer now).mp date
    dsimp only
    cases constraints : issuer.basicConstraints with
    | none =>
      refine ⟨nofun, fun may => ?_⟩
      obtain ⟨bc, member, -⟩ := may.ca
      rw [constraints] at member
      cases member
    | some bc =>
      have whole : ∀ may : MayIssue now below issuer,
          bc.ca = true ∧ ∀ n ∈ bc.pathLen, below ≤ n := by
        intro may
        obtain ⟨bc', member, rest⟩ := may.ca
        rw [constraints] at member
        cases member
        exact rest
      dsimp only
      split
      · rename_i notCa
        refine ⟨nofun, fun may => ?_⟩
        rw [(whole may).1] at notCa
        cases notCa
      · rename_i ca
        split
        · rename_i long
          obtain ⟨n, member, less⟩ := long
          refine ⟨nofun, fun may => ?_⟩
          exact absurd ((whole may).2 n member) (Nat.not_le.mpr less)
        · rename_i short
          split
          · rename_i refused
            refine ⟨nofun, fun may => ?_⟩
            rw [may.usage] at refused
            cases refused
          · rename_i usage
            split
            · rename_i refused
              refine ⟨nofun, fun may => ?_⟩
              rw [may.purpose] at refused
              cases refused
            · rename_i purpose
              refine ⟨fun _ => ⟨inDate, ⟨bc, constraints, by simpa using ca, ?_⟩,
                by simpa using usage, by simpa using purpose⟩, fun _ => rfl⟩
              intro n member
              by_contra above
              exact short ⟨n, member, Nat.not_le.mp above⟩

theorem checkKinds_iff (permitted excluded : Option Bytes) (leaf : Certificate)
    (kinds : List NameKind) : checkKinds permitted excluded leaf kinds = .ok () ↔
      ∀ kind ∈ kinds, ∃ allowed denied, subtrees permitted kind.tag = .ok allowed ∧
        subtrees excluded kind.tag = .ok denied ∧
          ∀ name ∈ kind.names leaf, (∀ base ∈ denied, kind.within name base = false) ∧
            (allowed = [] ∨ ∃ base ∈ allowed, kind.within name base = true) := by
  induction kinds with
  | nil => simp [checkKinds]
  | cons kind kinds ih =>
    rw [checkKinds, forall_mem_cons]
    cases first : subtrees permitted kind.tag with
    | error e => simp
    | ok allowed =>
      dsimp only
      cases second : subtrees excluded kind.tag with
      | error e => simp
      | ok denied =>
        dsimp only
        have names : ((kind.names leaf).any fun name => denied.any (kind.within name) ||
            (!allowed.isEmpty && !allowed.any (kind.within name))) = false ↔
              ∀ name ∈ kind.names leaf, (∀ base ∈ denied, kind.within name base = false) ∧
                (allowed = [] ∨ ∃ base ∈ allowed, kind.within name base = true) := by
          simp only [any_eq_false, Bool.or_eq_true, Bool.and_eq_true, any_eq_true,
            Bool.not_eq_true', isEmpty_eq_false_iff, not_or, not_and, not_exists,
            Bool.not_eq_true, ne_eq, any_eq_false]
          refine forall₂_congr fun name _ => and_congr Iff.rfl ?_
          by_cases empty : allowed = []
          · simp [empty]
          · simp [empty]
        split
        · rename_i refused
          refine ⟨nofun, fun ⟨⟨allowed', denied', eq, eq', rest⟩, _⟩ => ?_⟩
          cases eq
          cases eq'
          rw [names.mpr rest] at refused
          cases refused
        · rename_i fits
          rw [ih]
          have rest := names.mp (eq_false_of_ne_true fits)
          exact ⟨fun later => ⟨⟨allowed, denied, rfl, rfl, rest⟩, later⟩, And.right⟩

theorem checkConstraints_iff (issuer leaf : Certificate) :
    checkConstraints issuer leaf = .ok () ↔ Permits issuer leaf := by
  unfold checkConstraints Permits
  cases issuer.nameConstraints with
  | none => simp
  | some value =>
    dsimp only
    cases read : nameSubtrees value with
    | error e => simp [read]
    | ok lists =>
      obtain ⟨permitted, excluded⟩ := lists
      dsimp only
      rw [checkKinds_iff]
      constructor
      · rintro kinds _ ⟨⟩
        exact ⟨permitted, excluded, read, kinds⟩
      · intro whole
        obtain ⟨permitted', excluded', eq, kinds⟩ := whole value rfl
        rw [read] at eq
        cases eq
        exact kinds

theorem checkName_iff (leaf : Certificate) (name : ServerName) :
    checkName leaf name = .ok () ↔ Named leaf name := by
  unfold checkName
  cases name with
  | dns host =>
    dsimp only [Named]
    generalize (if host.getLast? = some dot then host.dropLast else host) = host'
    rw [← any_eq_true]
    split
    · rename_i found
      exact ⟨fun _ => found, fun _ => rfl⟩
    · rename_i missing
      exact ⟨nofun, fun found => absurd found missing⟩
  | ip octets =>
    dsimp only [Named]
    have member : (leaf.ipAddresses.any fun addr => addr = octets) = true ↔
        octets ∈ leaf.ipAddresses := by
      simp
    rw [← member]
    split
    · rename_i found
      exact ⟨fun _ => found, fun _ => rfl⟩
    · rename_i missing
      exact ⟨nofun, fun found => absurd found missing⟩

theorem checkLeaf_iff (leaf : Certificate) (now : Option ℤ) (name : Option ServerName) :
    checkLeaf leaf now name = .ok () ↔ LeafPasses now name leaf := by
  have names : name.elim (.ok ()) (checkName leaf) = .ok () ↔ ∀ n ∈ name, Named leaf n := by
    cases name with
    | none => simp
    | some n =>
      rw [Option.elim_some, checkName_iff]
      simp
  unfold checkLeaf
  cases date : checkTime leaf now with
  | error e =>
    refine ⟨nofun, fun passes => ?_⟩
    rw [(checkTime_iff leaf now).mpr passes.inDate] at date
    cases date
  | ok _ =>
    have inDate := (checkTime_iff leaf now).mp date
    dsimp only
    cases named : name.elim (.ok ()) (checkName leaf) with
    | error e =>
      refine ⟨nofun, fun passes => ?_⟩
      rw [names.mpr passes.named] at named
      cases named
    | ok _ =>
      dsimp only
      split
      · rename_i refused
        refine ⟨nofun, fun passes => ?_⟩
        rw [passes.purpose] at refused
        cases refused
      · rename_i purpose
        split
        · rename_i refused
          refine ⟨nofun, fun passes => ?_⟩
          rw [passes.usage] at refused
          cases refused
        · rename_i usage
          exact ⟨fun _ => ⟨inDate, names.mp named, by simpa using purpose, by simpa using usage⟩,
            fun _ => rfl⟩

def reachesAnchor (leaf : Certificate) (anchors : List Anchor) (cert : Certificate) : Bool :=
  anchors.any fun anchor => decide (anchor.subject = cert.issuer) &&
    (fromSpki anchor.spki).any (cert.signedBy verify) &&
      anchor.distrustAfter.all fun t => leaf.notBefore ≤ t

def issues (leaf : Certificate) (now : Option ℤ) (below : ℕ) (cert issuer : Certificate) : Bool :=
  decide (issuer.subject = cert.issuer) && decide (checkIssuer issuer below now = .ok ()) &&
    decide (checkConstraints issuer leaf = .ok ()) &&
      (fromSpki issuer.spki).any (cert.signedBy verify)

variable {fromSpki verify}

variable {cert leaf : Certificate} {now : Option ℤ}

theorem any_signedBy {spki : Bytes} :
    (fromSpki spki).any (cert.signedBy verify) = true ↔ SignedBy fromSpki verify cert spki := by
  unfold SignedBy
  cases fromSpki spki with
  | none => simp
  | some key => simp

theorem reachesAnchor_iff {anchors : List Anchor} :
    reachesAnchor fromSpki verify leaf anchors cert = true ↔
      Anchored fromSpki verify leaf anchors cert := by
  unfold reachesAnchor Anchored
  rw [any_eq_true]
  refine exists_congr fun anchor => and_congr Iff.rfl ?_
  rw [Bool.and_eq_true, Bool.and_eq_true, decide_eq_true_eq, any_signedBy, and_assoc]
  refine and_congr Iff.rfl (and_congr Iff.rfl ?_)
  cases anchor.distrustAfter with
  | none => simp
  | some t => simp

theorem issues_iff {issuer : Certificate} {below : ℕ} :
    issues fromSpki verify leaf now below cert issuer = true ↔ issuer.subject = cert.issuer ∧
      MayIssue now below issuer ∧ Permits issuer leaf ∧ SignedBy fromSpki verify cert issuer.spki := by
  unfold issues
  rw [Bool.and_eq_true, Bool.and_eq_true, Bool.and_eq_true, decide_eq_true_eq, decide_eq_true_eq,
    decide_eq_true_eq, any_signedBy, checkIssuer_iff, checkConstraints_iff, and_assoc, and_assoc]

theorem leads_iff {intermediates : List Certificate}
    {anchors : List Anchor} (path : List ℕ) (below : ℕ) (cert : Certificate) :
    Leads intermediates (reachesAnchor fromSpki verify leaf anchors)
        (issues fromSpki verify leaf now) below cert path ↔
      ChainPath fromSpki verify leaf now intermediates anchors below cert path := by
  induction path generalizing below cert with
  | nil => exact reachesAnchor_iff
  | cons i path ih =>
    refine exists_congr fun issuer => and_congr Iff.rfl ?_
    rw [issues_iff, ih, and_assoc, and_assoc, and_assoc]

variable (fromSpki verify) in
theorem tryAnchors_fst (leaf cert : Certificate) (anchors : List Anchor) (best : Error) :
    (tryAnchors fromSpki verify leaf cert anchors best).1 =
      reachesAnchor fromSpki verify leaf anchors cert := by
  unfold reachesAnchor
  induction anchors generalizing best with
  | nil => rfl
  | cons anchor anchors ih =>
    rw [tryAnchors, any_cons]
    split
    · rename_i other
      rw [ih, decide_eq_false other]
      rfl
    · rename_i same
      rw [decide_eq_true (not_not.mp same)]
      cases decoded : fromSpki anchor.spki with
      | none =>
        rw [ih]
        rfl
      | some key =>
        dsimp only [Option.any_some]
        cases signed : cert.signedBy verify key with
        | false =>
          rw [Bool.not_false, if_pos rfl, ih]
          rfl
        | true =>
          rw [Bool.not_true, if_neg Bool.false_ne_true]
          cases anchor.distrustAfter with
          | none => simp
          | some t =>
            by_cases late : t < leaf.notBefore
            · have above : ¬leaf.notBefore ≤ t := not_le.mpr late
              simp [late, above, ih]
            · have below : leaf.notBefore ≤ t := not_lt.mp late
              simp [late, below]

theorem tryIssuers_fst
    {next : ℕ → Certificate → Error → Bool × Error} {reaches : ℕ → Certificate → Bool}
    (same : ∀ i issuer best, (next i issuer best).1 = reaches i issuer) (path : List ℕ)
    (cert : Certificate) (items : List (Certificate × ℕ)) (best : Error) :
    (tryIssuers fromSpki verify leaf now next path cert items best).1 =
      items.any fun item => decide (item.2 ∉ path) &&
        issues fromSpki verify leaf now path.length cert item.1 && reaches item.2 item.1 := by
  induction items generalizing best with
  | nil => rfl
  | cons item items ih =>
    obtain ⟨issuer, i⟩ := item
    rw [tryIssuers, any_cons]
    unfold issues
    split
    · rename_i skipped
      rw [ih]
      rcases skipped with used | other
      · simp [used, issues]
      · simp [other, issues]
    · rename_i tried
      rw [not_or, not_not] at tried
      rw [decide_eq_true tried.1, decide_eq_true tried.2]
      cases first : checkIssuer issuer path.length now with
      | error e => simp [ih, issues]
      | ok _ =>
        cases second : checkConstraints issuer leaf with
        | error e => simp [ih, issues]
        | ok _ =>
          cases decoded : fromSpki issuer.spki with
          | none => simp [ih, issues]
          | some key =>
            cases signed : cert.signedBy verify key with
            | false => simp [ih, issues, signed]
            | true =>
              have found := same i issuer best
              cases out : next i issuer best with
              | mk there best' =>
                rw [out] at found
                cases there with
                | true => simp [signed, ← found]
                | false => simp [signed, ← found, ih, issues]

theorem build_fst {intermediates : List Certificate}
    {anchors : List Anchor} (room : ℕ) (path : List ℕ) (cert : Certificate) (best : Error) :
    (build fromSpki verify leaf now intermediates anchors room path cert best).1 =
      search intermediates (reachesAnchor fromSpki verify leaf anchors)
        (issues fromSpki verify leaf now) room path cert := by
  induction room generalizing path cert best with
  | zero =>
    have found := tryAnchors_fst fromSpki verify leaf cert anchors best
    rw [build, search, ← found]
    split
    · rename_i out
      rw [out]
    · rename_i out
      rw [out]
  | succ room ih =>
    have found := tryAnchors_fst fromSpki verify leaf cert anchors best
    rw [build, search, ← found]
    split
    · rename_i out
      rw [out]
      rfl
    · rename_i out
      rw [out]
      dsimp only
      rw [Bool.false_or]
      exact tryIssuers_fst (fun i issuer best => ih (path ++ [i]) issuer best) path cert _ _

end

/-- `verify_chain` accepts exactly the chains with a path to an anchor. -/
theorem verifyChain_iff {Key : Type} (fromSpki : Bytes → Option Key)
    (verify : Key → SignatureAlgorithm → Bytes → Bytes → Bool) (chain : List Bytes)
    (store : TrustStore) (now : Option ℤ) (name : Option ServerName) :
    verifyChain fromSpki verify chain store now name = .ok () ↔
      ∃ der rest leaf, chain = der :: rest ∧ Certificate.parse der = .ok leaf ∧
        LeafPasses now name leaf ∧
          ((∃ anchor ∈ store.anchors, anchor.spki = leaf.spki) ∨
            ∃ path : List ℕ, path.Nodup ∧ path.length ≤ maxDepth ∧
              ChainPath fromSpki verify leaf now (parsed rest) store.anchors 0 leaf path) := by
  unfold verifyChain
  cases chain with
  | nil =>
    refine ⟨nofun, ?_⟩
    rintro ⟨der, rest, leaf, eq, -⟩
    cases eq
  | cons der rest =>
    dsimp only
    cases parse : Certificate.parse der with
    | error e =>
      refine ⟨nofun, ?_⟩
      rintro ⟨der', rest', leaf, eq, ok, -⟩
      cases eq
      rw [parse] at ok
      cases ok
    | ok leaf =>
      have only : (∃ der' rest' leaf', der :: rest = der' :: rest' ∧
          Certificate.parse der' = .ok leaf' ∧ LeafPasses now name leaf' ∧
            ((∃ anchor ∈ store.anchors, anchor.spki = leaf'.spki) ∨
              ∃ path : List ℕ, path.Nodup ∧ path.length ≤ maxDepth ∧
                ChainPath fromSpki verify leaf' now (parsed rest') store.anchors 0 leaf' path)) ↔
          LeafPasses now name leaf ∧ ((∃ anchor ∈ store.anchors, anchor.spki = leaf.spki) ∨
            ∃ path : List ℕ, path.Nodup ∧ path.length ≤ maxDepth ∧
              ChainPath fromSpki verify leaf now (parsed rest) store.anchors 0 leaf path) := by
        constructor
        · rintro ⟨der', rest', leaf', eq, ok, whole⟩
          cases eq
          rw [parse] at ok
          cases ok
          exact whole
        · exact fun whole => ⟨der, rest, leaf, rfl, parse, whole⟩
      rw [only]
      dsimp only
      cases own : checkLeaf leaf now name with
      | error e =>
        refine ⟨nofun, fun ⟨passes, _⟩ => ?_⟩
        rw [(checkLeaf_iff leaf now name).mpr passes] at own
        cases own
      | ok _ =>
        have passes := (checkLeaf_iff leaf now name).mp own
        dsimp only
        split
        · rename_i anchored
          have anchored' : ∃ anchor ∈ store.anchors, anchor.spki = leaf.spki := by
            simpa using anchored
          exact ⟨fun _ => ⟨passes, .inl anchored'⟩, fun _ => rfl⟩
        · rename_i none'
          have none'' : ¬∃ anchor ∈ store.anchors, anchor.spki = leaf.spki := by
            simpa using none'
          have path : (build fromSpki verify leaf now (parsed rest) store.anchors maxDepth []
              leaf (.certificate .unknownIssuer)).1 = true ↔
                ∃ path : List ℕ, path.Nodup ∧ path.length ≤ maxDepth ∧
                  ChainPath fromSpki verify leaf now (parsed rest) store.anchors 0 leaf path := by
            rw [build_fst, search_iff]
            refine exists_congr fun path => ?_
            rw [length_nil, leads_iff]
            exact ⟨fun ⟨fresh, leads⟩ => ⟨fresh.nodup, fresh.short, leads⟩,
              fun ⟨nodup, short, leads⟩ => ⟨⟨short, nodup, nofun⟩, leads⟩⟩
          split
          · rename_i out
            rw [out] at path
            exact ⟨fun _ => ⟨passes, .inr (path.mp rfl)⟩, fun _ => rfl⟩
          · rename_i out
            rw [out] at path
            refine ⟨nofun, fun ⟨_, whole⟩ => ?_⟩
            rcases whole with anchored | leads
            · exact absurd anchored none''
            · exact absurd (path.mpr leads) Bool.false_ne_true

/-- An issuer's name constraints are not about the names of an intermediate below it,
and an issuer for other purposes than servers is refused. -/
theorem verifyChain_own_names :
    let tlv := fun (tag : UInt8) (content : Bytes) => tag :: UInt8.ofNat content.length :: content
    let date := tlv 0x17 [0x32, 0x30, 0x30, 0x31, 0x30, 0x31, 0x30, 0x30, 0x30, 0x30, 0x30, 0x30, 0x5a]
    let ext := fun (id : UInt8) (value : Bytes) =>
      tlv 0x30 (tlv 0x06 [0x55, 0x1d, id] ++ tlv 0x04 value)
    let alg := tlv 0x30 (tlv 0x06 Oid.ed25519)
    let certificate := fun (issuer subject : UInt8) (exts : Bytes) =>
      tlv 0x30 (tlv 0x30 (tlv 0xa0 (tlv 0x02 [2]) ++ tlv 0x02 [1] ++ alg ++ tlv 0x30 [issuer] ++
        tlv 0x30 (date ++ date) ++ tlv 0x30 [subject] ++ tlv 0x30 [subject] ++
          tlv 0xa3 (tlv 0x30 exts)) ++ alg ++ tlv 0x03 [0])
    let ca := ext 0x13 (tlv 0x30 (tlv 0x01 [0xff]))
    let dnsName := fun name : UInt8 => ext 0x11 (tlv 0x30 (tlv 0x82 [name]))
    let permitted := fun base : UInt8 => ext 0x1e (tlv 0x30 (tlv 0xa0 (tlv 0x30 (tlv 0x82 [base]))))
    let clients := ext 0x25 (tlv 0x30 (tlv 0x06 [0x2b, 0x06, 0x01, 0x05, 0x05, 0x07, 0x03, 0x02]))
    let store : TrustStore := { extra := [(tlv 0x30 [4], tlv 0x30 [4])] }
    let verify := fun chain => verifyChain some (fun _ _ _ _ => true) chain store none none
    verify [certificate 2 1 (dnsName 0x61), certificate 3 2 (ca ++ dnsName 0x62),
        certificate 4 3 (ca ++ permitted 0x61)] = .ok () ∧
      verify [certificate 3 1 (dnsName 0x62), certificate 4 3 (ca ++ permitted 0x61)] =
        .error (.certificate .nameConstraint) ∧
      verify [certificate 2 1 (dnsName 0x61), certificate 4 2 (ca ++ clients)] =
        .error (.certificate .badUsage) := by
  decide +kernel

end EspDevkit.Crypto.X509
