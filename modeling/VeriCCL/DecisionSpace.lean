import Mathlib.Logic.Equiv.List
import VeriCCL.LocalOrder
import VeriCCL.OrderEnumeration
import VeriCCL.StrategyLegality

/-! # Certificates over a finite decision space

`verification/proof_check.py`: a decision orders the instructions of a plan and chooses a channel
for every transfer.  `_orders` and `decisions` list the space, and `check_no_improvement` replays
every decision and compares it with what a certificate says about it.  Whoever wrote the
certificate, a verdict of no improvement means that no decision was left out.

The hash of a decision and its replay through lowering and prediction are parameters. -/
namespace VeriCCL

/-- `NativeDecisionSpace`, with what of its bundle and context the decisions depend on. -/
structure NativeDecisionSpace where
  storage : StoragePlan
  inputs : ResolvedInput
  topology : Topology
  varyOrder : Bool := true
  varyChannels : Bool := false

/-- One decision. -/
structure Decision where
  order : List String
  channels : List (String × ℤ)
  deriving DecidableEq

/-! ## The decisions -/

/-- `_orders`.  Dependencies with a cycle stop every branch before it ends, so nothing has been
yielded when the error is raised. -/
def orders (operations : List Instruction) : Except Fault (List (List String)) := do
  let byId := instructionById operations
  Checked.ensure (∀ key ∈ byId.keys.toFinset, instructionPrecedence byId key ⊆ byId.keys.toFinset)
    (.semantic "finite proof grammar has an unknown dependency")
  OrderEnumeration.visit (instructionPrecedence byId) (.semantic "finite proof grammar dependencies contain a cycle")
    byId.keys.toFinset.card [] byId.keys.toFinset

namespace NativeDecisionSpace
variable (space : NativeDecisionSpace)

/-- `maximum`: the channels that the link of an operation and its resources have. -/
def channelLimit (op : Instruction) : Except Fault ℕ := do
  let source ← sourceValue space.storage op
  Checked.ensure (source.rank ≠ op.rank) (.semantic "link ranks must be distinct")
  let edge ← Checked.required (space.topology.links.get? (source.rank, op.rank)) (.missing "link")
  let shared ← edge.resourceIds.mapM fun resource =>
    Checked.required (space.topology.sharedResources.get? resource) (.missing resource)
  return shared.foldl min (min space.inputs.maxChannels edge.maxChannels)

/-- One entry of `channel_domains`. -/
def channelDomain (op : Instruction) : Except Fault (String × List ℤ) := do
  let maximum ← space.channelLimit op
  return (op.operationId, if space.varyChannels then (List.range maximum).map Int.ofNat else [op.channel])

/-- The operations that have a channel. -/
def transfers : List Instruction := space.storage.instructions.filter (·.kind.transfers)

/-- `channel_domains`. -/
def channelDomains : Except Fault (List (String × List ℤ)) := space.transfers.mapM space.channelDomain

/-- `orders`: all of them, or that of the plan. -/
def orderChoices : Except Fault (List (List String)) :=
  if space.varyOrder then orders space.storage.instructions
  else .ok [space.storage.instructions.map (·.operationId)]

/-- `decisions`. -/
def decisions : Except Fault (List Decision) := do
  let domains ← space.channelDomains
  let orders ← space.orderChoices
  return orders.flatMap fun order => (OrderEnumeration.product (domains.map (·.2))).map fun channels =>
    ⟨order, (domains.map (·.1)).zip channels⟩

/-! ## Which decisions there are -/

/-- A channel that an operation may have. -/
def ChannelOf (entry : String × ℤ) (op : Instruction) : Prop :=
  ∃ limit, space.channelLimit op = .ok limit ∧ entry.1 = op.operationId ∧
    if space.varyChannels then 0 ≤ entry.2 ∧ entry.2 < limit else entry.2 = op.channel

/-- The decisions that the space admits. -/
structure Admits (d : Decision) : Prop where
  order : if space.varyOrder
    then OrderEnumeration.Extends (instructionPrecedence (instructionById space.storage.instructions))
      (instructionById space.storage.instructions).keys.toFinset d.order
    else d.order = space.storage.instructions.map (·.operationId)
  channels : List.Forall₂ space.ChannelOf d.channels space.transfers

variable {space}

theorem channelDomain_ok {op : Instruction} {domain : String × List ℤ} (h : space.channelDomain op = .ok domain)
    (entry : String × ℤ) : entry.1 = domain.1 ∧ entry.2 ∈ domain.2 ↔ space.ChannelOf entry op := by
  simp only [channelDomain, Checked.bind_ok, Checked.pure_ok] at h
  obtain ⟨limit, hlimit, rfl⟩ := h
  simp only [ChannelOf, hlimit, Except.ok.injEq, exists_eq_left']
  refine and_congr_right fun _ => ?_
  by_cases hvary : space.varyChannels = true
  · rw [if_pos hvary, if_pos hvary, List.mem_map]
    constructor
    · rintro ⟨channel, hchannel, heq⟩
      have := List.mem_range.mp hchannel
      simp only [Int.ofNat_eq_natCast] at heq
      omega
    · rintro ⟨hle, hlt⟩
      exact ⟨entry.2.toNat, List.mem_range.mpr (by omega), by simp only [Int.ofNat_eq_natCast]; omega⟩
  · rw [if_neg hvary, if_neg hvary, List.mem_singleton]

theorem channelDomain_nodup {op : Instruction} {domain : String × List ℤ}
    (h : space.channelDomain op = .ok domain) : domain.2.Nodup := by
  simp only [channelDomain, Checked.bind_ok, Checked.pure_ok] at h
  obtain ⟨limit, -, rfl⟩ := h
  split
  · exact List.nodup_range.map Int.ofNat_injective
  · exact List.nodup_singleton _

/-- The choices of a product are the admitted channels. -/
theorem zip_product_iff {ops : List Instruction} {domains : List (String × List ℤ)}
    (h : List.Forall₂ (fun op domain => space.channelDomain op = .ok domain) ops domains)
    (entries : List (String × ℤ)) :
    (∃ channels ∈ OrderEnumeration.product (domains.map (·.2)), (domains.map (·.1)).zip channels = entries) ↔
      List.Forall₂ space.ChannelOf entries ops := by
  induction h generalizing entries with
  | nil => simp [OrderEnumeration.product, eq_comm]
  | @cons op domain ops domains hdomain _ ih =>
    constructor
    · rintro ⟨channels, hchannels, rfl⟩
      obtain ⟨channel, rest, hchannel, hrest, rfl⟩ := List.forall₂_cons_right_iff.mp (OrderEnumeration.mem_product.mp hchannels)
      exact .cons ((channelDomain_ok hdomain (domain.1, channel)).mp ⟨rfl, hchannel⟩)
        ((ih _).mp ⟨rest, OrderEnumeration.mem_product.mpr hrest, rfl⟩)
    · intro hentries
      obtain ⟨entry, rest, hentry, hrest, rfl⟩ := List.forall₂_cons_right_iff.mp hentries
      obtain ⟨hname, hchannel⟩ := (channelDomain_ok hdomain entry).mpr hentry
      obtain ⟨channels, hchannels, rfl⟩ := (ih rest).mpr hrest
      refine ⟨entry.2 :: channels, OrderEnumeration.mem_product.mpr (.cons hchannel (OrderEnumeration.mem_product.mp hchannels)), ?_⟩
      rw [List.map_cons, List.zip_cons_cons, ← hname]

theorem orders_ok {operations : List Instruction} {found : List (List String)} (h : orders operations = .ok found) :
    found.Nodup ∧ ∀ order, order ∈ found ↔ OrderEnumeration.Extends (instructionPrecedence (instructionById operations))
      (instructionById operations).keys.toFinset order := by
  simp only [orders, Checked.bind_ok, Checked.ensure_ok] at h
  obtain ⟨-, -, h⟩ := h
  obtain ⟨hmem, hnodup⟩ := OrderEnumeration.visit_ok rfl h
  refine ⟨hnodup, fun order => (hmem order).trans ?_⟩
  simp

/-- The orders that decisions go through. -/
theorem orderChoices_ok {found : List (List String)} (h : space.orderChoices = .ok found) :
    found.Nodup ∧ ∀ order, order ∈ found ↔ if space.varyOrder
      then OrderEnumeration.Extends (instructionPrecedence (instructionById space.storage.instructions))
        (instructionById space.storage.instructions).keys.toFinset order
      else order = space.storage.instructions.map (·.operationId) := by
  rw [orderChoices] at h
  by_cases hvary : space.varyOrder = true
  · rw [if_pos hvary] at h
    simp only [if_pos hvary]
    exact orders_ok h
  · rw [if_neg hvary] at h
    obtain rfl := Except.ok.inj h
    simp [hvary]

theorem mem_decisions {found : List Decision} (h : space.decisions = .ok found) (d : Decision) :
    d ∈ found ↔ space.Admits d := by
  simp only [decisions, Checked.bind_ok, Checked.pure_ok] at h
  obtain ⟨domains, hdomains, orders, horders, rfl⟩ := h
  have hall := Checked.mapM_ok.mp hdomains
  obtain ⟨-, hspec⟩ := orderChoices_ok horders
  obtain ⟨order, entries⟩ := d
  simp only [List.mem_flatMap, List.mem_map, Decision.mk.injEq]
  constructor
  · rintro ⟨_, horder, channels, hchannels, rfl, rfl⟩
    exact ⟨(hspec _).mp horder, (zip_product_iff hall _).mp ⟨channels, hchannels, rfl⟩⟩
  · rintro ⟨horder, hentries⟩
    obtain ⟨channels, hchannels, rfl⟩ := (zip_product_iff hall _).mpr hentries
    exact ⟨order, (hspec _).mpr horder, channels, hchannels, rfl, rfl⟩

theorem decisions_nodup {found : List Decision} (h : space.decisions = .ok found) : found.Nodup := by
  simp only [decisions, Checked.bind_ok, Checked.pure_ok] at h
  obtain ⟨domains, hdomains, orders, horders, rfl⟩ := h
  have hlength : ∀ channels ∈ OrderEnumeration.product (domains.map (·.2)), channels.length = (domains.map (·.1)).length := by
    intro channels hchannels
    simpa using (OrderEnumeration.mem_product.mp hchannels).length_eq
  refine List.nodup_flatMap.mpr ⟨fun order _ => ?_, ?_⟩
  · refine List.Nodup.map_on (fun channels hchannels channels' hchannels' heq => ?_) (OrderEnumeration.nodup_product ?_)
    · have hzip := congrArg (List.map (·.2)) (congrArg Decision.channels heq)
      rwa [List.map_snd_zip (hlength _ hchannels).le, List.map_snd_zip (hlength _ hchannels').le] at hzip
    · intro l hl
      obtain ⟨domain, hdomain, rfl⟩ := List.mem_map.mp hl
      obtain ⟨op, -, hop⟩ := Checked.mapM_right hdomains hdomain
      exact channelDomain_nodup hop
  · refine (orderChoices_ok horders).1.imp fun {order order'} hne => List.disjoint_left.mpr fun d hd hd' => ?_
    obtain ⟨channels, -, rfl⟩ := List.mem_map.mp hd
    obtain ⟨channels', -, heq⟩ := List.mem_map.mp hd'
    exact hne (congrArg Decision.order heq).symm

/-- **Every admitted decision is listed, and listed once.** -/
theorem decisions_exact {found : List Decision} (h : space.decisions = .ok found) :
    found.Nodup ∧ ∀ d, d ∈ found ↔ space.Admits d :=
  ⟨decisions_nodup h, mem_decisions h⟩

end NativeDecisionSpace

/-! ## Certificates -/

/-- What a replay brings, as far as the evidence of a leaf depends on it. -/
structure Replayed where
  canExecute : Bool
  xmlSha256 : String
  completion : ℚ
  invalid : Dict String String

/-- What a certificate says of a decision. -/
inductive LeafEvidence where
  | refused (reason : String)
  | invalid (checks : Dict String String) (xmlSha256 : String)
  | unresolved (checks : Dict String String)
  | valid (xmlSha256 : String) (ratio : ℤ × ℤ)
  deriving DecidableEq

/-- A decision that is no improvement. -/
def LeafEvidence.Closes (incumbent : ℚ) : LeafEvidence → Prop
  | .refused _ | .invalid _ _ => True
  | .unresolved _ => False
  | .valid _ ratio => incumbent ≤ ratio.1 / ratio.2

/-- A leaf of a certificate. -/
structure LeafRecord where
  key : String
  evidence : LeafEvidence
  deriving DecidableEq

/-- The verdicts on the leaves of a certificate. -/
inductive ProofStatus where
  | invalidCertificate
  | incomplete
  | improvementFound
  | provenNoImprovement
  deriving DecidableEq

/-- The message of a verdict, or the exception it stands for. -/
inductive ProofMessage where
  | text (message : String)
  | raised (fault : Fault)
  deriving DecidableEq

/-- `ProofResult`. -/
structure ProofResult where
  status : ProofStatus
  message : ProofMessage
  checkedLeaves : ℕ
  counterexample : Option Decision := none
  deriving DecidableEq

section Check
variable (space : NativeDecisionSpace) (digest : Decision → String) (replay : Decision → Except Fault Replayed)
  (incumbent : ℚ)

/-- `_record`: missing costs leave a decision unresolved. -/
def leafRecord (d : Decision) : Except Fault LeafRecord :=
  match replay d with
  | .error (.semantic reason) => .ok ⟨digest d, .refused reason⟩
  | .error fault => .error fault
  | .ok bundle =>
    if bundle.canExecute then
      .ok ⟨digest d, .valid bundle.xmlSha256 (bundle.completion.num, bundle.completion.den)⟩
    else if ∀ check ∈ bundle.invalid.keys, check = "prediction" then .ok ⟨digest d, .unresolved bundle.invalid⟩
    else .ok ⟨digest d, .invalid bundle.invalid bundle.xmlSha256⟩

/-- The loop over the decisions. -/
def checkDecisions : List Decision → Dict String LeafRecord → ℕ → ProofResult
  | [], byKey, checked =>
    if byKey ≠ [] then
      ⟨.invalidCertificate, .text "certificate contains leaves outside the declared grammar", checked, none⟩
    else ⟨.provenNoImprovement, .text "all decisions in the declared finite scope were independently replayed",
      checked, none⟩
  | d :: rest, byKey, checked =>
    match byKey.get? (digest d) with
    | none => ⟨.incomplete, .text "a legal decision branch has no evidence", checked, none⟩
    | some submitted =>
      match leafRecord digest replay d with
      | .error fault => ⟨.invalidCertificate, .raised fault, checked, none⟩
      | .ok actual =>
        if actual ≠ submitted then
          ⟨.invalidCertificate, .text "leaf evidence differs from independent native replay", checked + 1, none⟩
        else match actual.evidence with
          | .unresolved _ =>
            ⟨.incomplete, .text "a leaf has missing model or validation evidence", checked + 1, none⟩
          | .valid _ ratio =>
            if (ratio.1 : ℚ) / ratio.2 < incumbent then
              ⟨.improvementFound, .text "an independently replayed decision strictly improves complete time",
                checked + 1, some d⟩
            else checkDecisions rest (byKey.erase (digest d)) (checked + 1)
          | _ => checkDecisions rest (byKey.erase (digest d)) (checked + 1)

/-- `check_no_improvement`, where a certificate has leaves: its header has been compared. -/
def checkLeaves (leaves : List LeafRecord) : ProofResult :=
  let byKey := Dict.ofList (leaves.map fun leaf => (leaf.key, leaf))
  if byKey.length ≠ leaves.length then ⟨.invalidCertificate, .text "duplicate leaf claims", 0, none⟩
  else match space.decisions with
    | .error fault => ⟨.invalidCertificate, .raised fault, 0, none⟩
    | .ok found => checkDecisions digest replay incumbent found byKey 0

end Check

/-! ## Leaves by their keys -/

section Keys
variable {κ ν : Type} [DecidableEq κ]

theorem Dict.ofList_of_nodup {l : List (κ × ν)} (h : (l.map (·.1)).Nodup) : Dict.ofList l = l := by
  induction l using List.reverseRecOn with
  | nil => rfl
  | append_singleton l entry ih =>
    rw [List.map_append, List.nodup_append] at h
    have hnew : entry.1 ∉ Dict.keys l := fun hmem => h.2.2 _ hmem _ (List.mem_singleton_self _) rfl
    have hl := ih h.1
    unfold Dict.ofList at hl ⊢
    rw [List.foldl_append, hl]
    exact Dict.set_of_notMem hnew entry.2

/-- No entry is lost only when no key occurs twice. -/
theorem Dict.nodup_of_length {l : List (κ × ν)} (h : (Dict.ofList l).length = l.length) :
    (l.map (·.1)).Nodup := by
  have hperm : (Dict.ofList l).keys.Perm (l.map (·.1)).dedup := by
    refine (List.perm_ext_iff_of_nodup (Dict.distinct_ofList l) (List.nodup_dedup _)).mpr fun k => ?_
    rw [List.mem_dedup, Dict.mem_keys_ofList]
  have hlength : (l.map (·.1)).dedup.length = (l.map (·.1)).length := by
    rw [← hperm.length_eq, Dict.keys, List.length_map, List.length_map, h]
  rw [← (List.dedup_sublist (l.map (·.1))).eq_of_length hlength]
  exact List.nodup_dedup _

theorem Dict.values_erase {d : Dict κ ν} {k : κ} {v : ν} (hd : d.Distinct) (h : d.get? k = some v) :
    d.values.Perm (v :: (d.erase k).values) := by
  induction d with
  | nil => cases h
  | cons entry d ih =>
    obtain ⟨hnew, hrest⟩ := List.nodup_cons.mp hd
    rw [Dict.get?_cons] at h
    by_cases hk : entry.1 = k
    · rw [if_pos hk] at h
      have hsame : Dict.erase (entry :: d) k = d := by
        rw [Dict.erase, List.filter_cons_of_neg (by simpa using hk), List.filter_eq_self]
        intro other hother
        have hne : other.1 ≠ k := fun heq => hnew (List.mem_map.mpr ⟨other, hother, heq.trans hk.symm⟩)
        simpa using hne
      rw [hsame, ← Option.some.inj h]
      rfl
    · rw [if_neg hk] at h
      have hkept : Dict.erase (entry :: d) k = entry :: Dict.erase d k :=
        List.filter_cons_of_pos (by simpa using hk)
      rw [hkept]
      exact ((ih hrest h).cons entry.2).trans (List.Perm.swap _ _ _)

end Keys

/-! ## What a verdict says -/

section Verdict
variable {space : NativeDecisionSpace} {digest : Decision → String} {replay : Decision → Except Fault Replayed}
  {incumbent : ℚ}

theorem leafRecord_key {d : Decision} {leaf : LeafRecord} (h : leafRecord digest replay d = .ok leaf) :
    leaf.key = digest d := by
  unfold leafRecord at h
  split at h
  · exact (Except.ok.inj h) ▸ rfl
  · cases h
  · split at h
    · exact (Except.ok.inj h) ▸ rfl
    · split at h <;> exact (Except.ok.inj h) ▸ rfl

/-- **The loop ends well** when what is left of the certificate is what is left to replay. -/
theorem checkDecisions_proven {ds : List Decision} {byKey : Dict String LeafRecord} {checked : ℕ}
    (hdistinct : byKey.Distinct) (hkeys : ∀ entry ∈ byKey, entry.2.key = entry.1) :
    (checkDecisions digest replay incumbent ds byKey checked).status = .provenNoImprovement ↔
      ∃ records, ds.mapM (leafRecord digest replay) = .ok records ∧ byKey.values.Perm records ∧
        ∀ leaf ∈ records, leaf.evidence.Closes incumbent := by
  induction ds generalizing byKey checked with
  | nil =>
    simp only [checkDecisions, List.mapM_nil, Checked.pure_ok, exists_eq_left']
    by_cases hempty : byKey = []
    · simp [hempty, Dict.values]
    · simp [hempty, Dict.values, List.perm_nil]
  | cons d ds ih =>
    have hstep : ∀ {actual : LeafRecord}, byKey.get? (digest d) = some actual →
        leafRecord digest replay d = .ok actual → actual.evidence.Closes incumbent →
        ((checkDecisions digest replay incumbent ds (byKey.erase (digest d)) (checked + 1)).status =
            .provenNoImprovement ↔
          ∃ records, (d :: ds).mapM (leafRecord digest replay) = .ok records ∧ byKey.values.Perm records ∧
            ∀ leaf ∈ records, leaf.evidence.Closes incumbent) := by
      intro actual hget hrecord hcloses
      have hvalues := Dict.values_erase hdistinct hget
      have hdistinct' : (byKey.erase (digest d)).Distinct := hdistinct.sublist (List.filter_sublist.map _)
      have hkeys' : ∀ entry ∈ byKey.erase (digest d), entry.2.key = entry.1 := fun entry hentry =>
        hkeys entry (List.mem_filter.mp hentry).1
      rw [ih hdistinct' hkeys']
      constructor
      · rintro ⟨records, hrecords, hperm, hall⟩
        refine ⟨actual :: records, Checked.mapM_ok.mpr (.cons hrecord (Checked.mapM_ok.mp hrecords)),
          hvalues.trans (hperm.cons actual), ?_⟩
        exact List.forall_mem_cons.mpr ⟨hcloses, hall⟩
      · rintro ⟨records, hrecords, hperm, hall⟩
        obtain ⟨first, rest, hfirst, hrest, rfl⟩ := List.forall₂_cons_left_iff.mp (Checked.mapM_ok.mp hrecords)
        obtain rfl := Except.ok.inj (hfirst.symm.trans hrecord)
        exact ⟨rest, Checked.mapM_ok.mpr hrest, (hvalues.symm.trans hperm).cons_inv,
          (List.forall_mem_cons.mp hall).2⟩
    -- the record of the decision is among those of the certificate
    have hneeds : ∀ {records}, (d :: ds).mapM (leafRecord digest replay) = .ok records → byKey.values.Perm records →
        ∃ actual ∈ records, leafRecord digest replay d = .ok actual ∧ byKey.get? (digest d) = some actual := by
      intro records hrecords hperm
      obtain ⟨actual, hmem, hrecord⟩ := Checked.mapM_left hrecords List.mem_cons_self
      obtain ⟨entry, hentry, rfl⟩ := List.mem_map.mp (hperm.mem_iff.mpr hmem)
      refine ⟨_, hmem, hrecord, Dict.get?_of_mem hdistinct ?_⟩
      rw [← leafRecord_key hrecord, hkeys entry hentry]
      exact hentry
    rw [checkDecisions]
    cases hget : byKey.get? (digest d) with
    | none =>
      refine iff_of_false (fun h => by cases h) ?_
      rintro ⟨records, hrecords, hperm, -⟩
      obtain ⟨actual, -, -, hsome⟩ := hneeds hrecords hperm
      rw [hget] at hsome
      cases hsome
    | some submitted =>
      cases hrecord : leafRecord digest replay d with
      | error fault =>
        refine iff_of_false (fun h => by cases h) ?_
        rintro ⟨records, hrecords, hperm, -⟩
        obtain ⟨actual, -, hactual, -⟩ := hneeds hrecords hperm
        rw [hrecord] at hactual
        cases hactual
      | ok actual =>
        simp only
        by_cases hsame : actual = submitted
        · subst hsame
          rw [if_neg (not_not.mpr rfl)]
          have hopen : ¬ actual.evidence.Closes incumbent →
              ¬ ∃ records, (d :: ds).mapM (leafRecord digest replay) = .ok records ∧ byKey.values.Perm records ∧
                ∀ leaf ∈ records, leaf.evidence.Closes incumbent := by
            rintro hnot ⟨records, hrecords, hperm, hall⟩
            obtain ⟨other, hmem, hother, -⟩ := hneeds hrecords hperm
            obtain rfl := Except.ok.inj (hrecord.symm.trans hother)
            exact hnot (hall _ hmem)
          cases hevidence : actual.evidence with
          | refused reason => exact hstep hget hrecord (by rw [hevidence]; trivial)
          | invalid checks xml => exact hstep hget hrecord (by rw [hevidence]; trivial)
          | unresolved checks =>
            exact iff_of_false (fun h => by cases h) (hopen (by rw [hevidence]; exact id))
          | valid xml ratio =>
            simp only
            by_cases hless : (ratio.1 : ℚ) / ratio.2 < incumbent
            · rw [if_pos hless]
              exact iff_of_false (fun h => by cases h) (hopen (by rw [hevidence]; exact not_le.mpr hless))
            · rw [if_neg hless]
              exact hstep hget hrecord (by rw [hevidence]; exact not_lt.mp hless)
        · rw [if_pos hsame]
          refine iff_of_false (fun h => by cases h) ?_
          rintro ⟨records, hrecords, hperm, -⟩
          obtain ⟨other, -, hother, hsome⟩ := hneeds hrecords hperm
          obtain rfl := Except.ok.inj (hrecord.symm.trans hother)
          exact hsame (Option.some.inj (hsome.symm.trans hget))

/-- **No improvement is certified** exactly by the records of all decisions, in any order, none of
which is open or better. -/
theorem checkLeaves_proven_iff (hdigest : Set.InjOn digest {d | space.Admits d}) {leaves : List LeafRecord} :
    (checkLeaves space digest replay incumbent leaves).status = .provenNoImprovement ↔
      ∃ found records, space.decisions = .ok found ∧ (∀ d, d ∈ found ↔ space.Admits d) ∧
        found.mapM (leafRecord digest replay) = .ok records ∧ leaves.Perm records ∧
        ∀ leaf ∈ records, leaf.evidence.Closes incumbent := by
  have hfst : (leaves.map fun leaf => (leaf.key, leaf)).map (·.1) = leaves.map (·.key) := by
    rw [List.map_map]
    rfl
  have hsnd : Dict.values (leaves.map fun leaf => (leaf.key, leaf)) = leaves := by
    rw [Dict.values, List.map_map]
    exact List.map_id _
  rw [checkLeaves]
  by_cases hlength : (Dict.ofList (leaves.map fun leaf => (leaf.key, leaf))).length = leaves.length
  · have hnodup := Dict.nodup_of_length (hlength.trans (List.length_map _).symm)
    rw [if_neg (not_not.mpr hlength), Dict.ofList_of_nodup hnodup]
    cases hfound : space.decisions with
    | error fault =>
      refine iff_of_false (fun h => by cases h) ?_
      rintro ⟨_, _, hok, -⟩
      cases hok
    | ok found =>
      have hkeys : ∀ entry ∈ leaves.map fun leaf => (leaf.key, leaf), entry.2.key = entry.1 := by
        intro entry hentry
        obtain ⟨leaf, -, rfl⟩ := List.mem_map.mp hentry
        rfl
      simp only
      rw [checkDecisions_proven hnodup hkeys, hsnd]
      constructor
      · rintro ⟨records, hrecords, hperm, hall⟩
        exact ⟨found, records, rfl, NativeDecisionSpace.mem_decisions hfound, hrecords, hperm, hall⟩
      · rintro ⟨_, records, hok, -, hrecords, hperm, hall⟩
        obtain rfl := Except.ok.inj hok
        exact ⟨records, hrecords, hperm, hall⟩
  · rw [if_pos hlength]
    refine iff_of_false (fun h => by cases h) ?_
    rintro ⟨found, records, hfound, -, hrecords, hperm, -⟩
    -- different decisions have different keys, so the records of all have no key twice
    have hrecordKeys : records.map (·.key) = found.map digest := by
      have hall := Checked.mapM_ok.mp hrecords
      clear hrecords hperm hfound
      induction hall with
      | nil => rfl
      | cons hrecord _ ih => rw [List.map_cons, List.map_cons, leafRecord_key hrecord, ih]
    have hkeys : (leaves.map (·.key)).Nodup := by
      rw [(hperm.map _).nodup_iff, hrecordKeys]
      have hadmits := NativeDecisionSpace.mem_decisions hfound
      exact (NativeDecisionSpace.decisions_nodup hfound).map_on fun d hd d' hd' heq =>
        hdigest ((hadmits d).mp hd) ((hadmits d').mp hd') heq
    rw [Dict.ofList_of_nodup (hfst ▸ hkeys), List.length_map] at hlength
    exact hlength rfl

end Verdict

/-! ## Two transfers -/

/-- Two transfers over one link, the second after the first. -/
def twoSends : NativeDecisionSpace where
  storage := { pairPlan [transfer "p" "x" "y" 1 0 0 ∅, transfer "q" "x" "z" 1 0 1 {"p"}] with
    values := [("x", ⟨"x", 0, 0, {0}, none⟩)] }
  inputs := pairInputs
  topology := pairContext.topology
  varyChannels := true

theorem decisions_exact_twoSends :
    ([⟨["p", "q"], [("p", 0), ("q", 0)]⟩, ⟨["p", "q"], [("p", 0), ("q", 1)]⟩, ⟨["p", "q"], [("p", 1), ("q", 0)]⟩,
      ⟨["p", "q"], [("p", 1), ("q", 1)]⟩] : List Decision).Nodup ∧
    ∀ d, d ∈ ([⟨["p", "q"], [("p", 0), ("q", 0)]⟩, ⟨["p", "q"], [("p", 0), ("q", 1)]⟩,
      ⟨["p", "q"], [("p", 1), ("q", 0)]⟩, ⟨["p", "q"], [("p", 1), ("q", 1)]⟩] : List Decision) ↔ twoSends.Admits d :=
  NativeDecisionSpace.decisions_exact (by decide +kernel)

/-- The letters of a name. -/
def nameCodes (name : String) : List ℕ := name.toList.map Char.toNat

theorem nameCodes_injective : Function.Injective nameCodes := by
  have hchar : Function.Injective Char.toNat := fun a b h => Char.ext (UInt32.toNat_inj.mp h)
  exact fun a b h => String.toList_inj.mp (hchar.list_map h)

/-- A decision as so many letters. -/
def decisionLetters (d : Decision) : String :=
  String.ofList (List.replicate (Encodable.encode
    (d.order.map nameCodes, d.channels.map fun entry => (nameCodes entry.1, entry.2))) 'a')

theorem decisionLetters_injective : Function.Injective decisionLetters := by
  rintro ⟨order, channels⟩ ⟨order', channels'⟩ heq
  have hlength := congrArg List.length (String.ofList_injective heq)
  rw [List.length_replicate, List.length_replicate] at hlength
  obtain ⟨horder, hchannels⟩ := Prod.mk.inj (Encodable.encode_injective hlength)
  have hentry : Function.Injective fun entry : String × ℤ => (nameCodes entry.1, entry.2) :=
    nameCodes_injective.prodMap Function.injective_id
  rw [Decision.mk.injEq]
  exact ⟨nameCodes_injective.list_map horder, hentry.list_map hchannels⟩

theorem checkLeaves_proven_iff_twoSends :
    (checkLeaves twoSends decisionLetters (fun _ => .ok ⟨true, "", 1, []⟩) 1 []).status = .provenNoImprovement ↔
      ∃ found records, twoSends.decisions = .ok found ∧ (∀ d, d ∈ found ↔ twoSends.Admits d) ∧
        found.mapM (leafRecord decisionLetters fun _ => .ok ⟨true, "", 1, []⟩) = .ok records ∧
        ([] : List LeafRecord).Perm records ∧ ∀ leaf ∈ records, leaf.evidence.Closes 1 :=
  checkLeaves_proven_iff decisionLetters_injective.injOn

end VeriCCL
