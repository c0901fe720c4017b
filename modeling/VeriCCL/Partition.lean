import VeriCCL.Ranges
import VeriCCL.Redaction
import VeriCCL.ResolveIdempotence

/-! # The slice size of a request, and its hard constraints

A request may be resolved without a slice size.  `resolve_parameters` binds one for a
synthesis attempt, `bind_artifact_partition` the one of an artifact, and a checkpoint is
reloaded with the one that was bound when it was saved.  Banned transfers name slices of
the reference partition; `bind_constraints` turns them into byte ranges, which none of
these changes. -/
namespace VeriCCL

/-- The bytes of a reference slice on its source rank. -/
def bindSlice (total reference rankCount : ℕ) (item : ForbiddenTransfer) :
    Except Fault EdgeBan := do
  let count := total / reference
  Checked.ensure (count ≠ 0) (.semantic "integer division or modulo by zero")
  let rank := item.sliceId / count
  let index := item.sliceId % count
  Checked.ensure (rank < rankCount)
    (.semantic "constraint source slice is outside the reference partition")
  if nonempty : index * reference < (index + 1) * reference then
    return {
      data := ⟨rank, index * reference, (index + 1) * reference, nonempty⟩
      srcRank := item.srcRank
      dstRank := item.dstRank
      stageId := item.stageId }
  else .error (.semantic "source data range must be nonempty")

/-- The size that slice numbers refer to; a size of zero counts as none. -/
def Hyperparameters.referenceSize (hyper : Hyperparameters) : Option ℕ :=
  hyper.referenceSliceSizeBytes.filter (· ≠ 0) <|> hyper.sliceSizeBytes

/-- The banned byte ranges. -/
def bindBans (total rankCount : ℕ) (forbidden : List ForbiddenTransfer) :
    Option ℕ → Except Fault (List EdgeBan)
  | some reference => forbidden.mapM (bindSlice total reference rankCount)
  | none => do
    Checked.ensure (forbidden = [])
      (.semantic "reference slice size is required to bind hard constraints")
    return []

/-- `bind_constraints` of a request whose slice size may be open. -/
def ResolvedRequest.bindConstraints (request : ResolvedRequest) : Except Fault ConstraintSet := do
  let bans ← bindBans request.hyperparameters.totalSizeBytes request.rankCount
    request.atomConstraints.forbiddenTransfers request.hyperparameters.referenceSize
  return ⟨bans, request.rankCount, request.atomConstraints.stageNum⟩

/-- `ParameterCandidate`: the choice of one synthesis attempt. -/
structure ParameterCandidate where
  channels : ℕ
  sliceBytes : ℕ
  sliceCount : ℕ
  deriving DecidableEq

/-- `config[section][key] = value`. -/
def assignSection (document : Json) (name key : String) (value : Json) : Except Fault Json := do
  let inner ← Checked.required (document.get? name) (.missing name)
  return document.set name (inner.set key value)

/-- `resolve_parameters`. -/
def resolveParameters (request : ResolvedRequest) (candidate : ParameterCandidate) :
    Except Fault ResolvedRequest := do
  Checked.ensure (request.hyperparameters.totalSizeBytes =
      candidate.sliceBytes * candidate.sliceCount)
    (.semantic "parameter choice does not partition this request")
  let sketch ← assignSection request.requestConfig.sketch "hyperparameters" "slice_size_bytes"
    (.int candidate.sliceBytes)
  let sketch ← assignSection sketch "solver" "max_channels" (.int candidate.channels)
  return { request with
    hyperparameters :=
      { request.hyperparameters with sliceSizeBytes := some candidate.sliceBytes }
    solver := { request.solver with maxChannels := candidate.channels }
    requestConfig := { request.requestConfig with sketch := sketch }
    sizeAccounting := { request.sizeAccounting with
      sliceSizeBytes := some candidate.sliceBytes
      slicesPerRank := some candidate.sliceCount } }

/-- The slice size a sidecar records, when it is a positive integer. -/
def artifactSlice? (sidecar : Json) : Option ℕ :=
  match (sidecar.get? "request_contract").bind (·.get? "slice_bytes") with
  | some (.num (.int (.ofNat size))) => if size = 0 then none else some size
  | _ => none

/-- `bind_artifact_partition`. -/
def bindArtifactPartition (request : ResolvedRequest) (sidecar : Json) :
    Except Fault ResolvedRequest := do
  Checked.ensure ((sidecar.get? "input_sha256").any
      (fun digest => digest.equal (.str request.inputSha256)) = true)
    (.semantic "sidecar input identity differs from this request")
  let size := request.hyperparameters.totalSizeBytes
  let element ← Checked.required (datatypeBytes.get? request.collective.datatype)
    (.missing request.collective.datatype)
  let sliceBytes ← Checked.required (artifactSlice? sidecar)
    (.semantic "artifact slice partition violates element or collective divisibility")
  Checked.ensure (size % sliceBytes = 0 ∧ sliceBytes % element = 0 ∧
      (request.collective.kind.value ∈ ["alltoall", "reduce_scatter"] →
        size / sliceBytes % request.rankCount = 0))
    (.semantic "artifact slice partition violates element or collective divisibility")
  if some sliceBytes = request.hyperparameters.sliceSizeBytes then return request
  else resolveParameters request {
    channels := request.solver.maxChannels
    sliceBytes := sliceBytes
    sliceCount := size / sliceBytes }

/-- The documents as a checkpoint stores them. -/
def Documents.redacted (redact : String → String) (documents : Documents) : Documents where
  topology := redactValue redact documents.topology
  sketch := redactValue redact documents.sketch
  atom := redactValue redact documents.atom
  runtime := redactValue redact documents.runtime

/-- `checkpoint_inputs` of a checkpoint that `save_checkpoint` wrote for the request: the
stored documents are resolved again, and the identity is the one that was saved. -/
def checkpointInputs (digest : Json → String) (redact : String → String) (purpose : Purpose)
    (saved : ResolvedRequest) : Except InputFault ResolvedRequest := do
  let request ← resolveRequest digest purpose false [] (saved.requestConfig.redacted redact)
  return { request with inputSha256 := saved.inputSha256 }

/-- The requests that the three ways of binding a slice size make of one. -/
inductive Repartitioned (digest : Json → String) (redact : String → String)
    (origin : ResolvedRequest) : ResolvedRequest → Prop
  | origin : Repartitioned digest redact origin origin
  | parameters {request next : ResolvedRequest} {candidate : ParameterCandidate}
      (h : Repartitioned digest redact origin request)
      (hnext : resolveParameters request candidate = .ok next) :
      Repartitioned digest redact origin next
  | artifact {request next : ResolvedRequest} {sidecar : Json}
      (h : Repartitioned digest redact origin request)
      (hnext : bindArtifactPartition request sidecar = .ok next) :
      Repartitioned digest redact origin next
  | reload {request next : ResolvedRequest} {purpose : Purpose}
      (h : Repartitioned digest redact origin request)
      (hnext : checkpointInputs digest redact purpose request = .ok next) :
      Repartitioned digest redact origin next

/-! ## Constraints are read from numbers and flags -/

namespace Json

theorem field_blank_bind {α : Type} (json : Json) (key : String) (f : Json → Except InputFault α) :
    (json.blank.field key >>= f) = json.field key >>= fun value => f value.blank := by
  have hget : json.blank.get? key = (json.get? key).map blank := by
    cases json with
    | obj fields => exact get?_blankFields fields key
    | _ => rfl
  unfold field
  rw [hget]
  cases json.get? key <;> rfl

theorem natural_blank (json : Json) : json.blank.natural = json.natural := by
  cases json <;> rfl

theorem boolean_blank (json : Json) : json.blank.boolean = json.boolean := by
  cases json <;> rfl

theorem optional_natural_blank (json : Json) :
    json.blank.optional natural = json.optional natural := by
  cases json <;> rfl

/-- Reading a field does not see texts when its reader does not. -/
theorem field_congr {α : Type} {a b : Json} (h : a.blank = b.blank) (key : String)
    {f : Json → Except InputFault α} (hf : ∀ json, f json.blank = f json) :
    (a.field key >>= f) = b.field key >>= f := by
  have hblank : ∀ json : Json, (json.blank.field key >>= f) = json.field key >>= f := by
    intro json
    rw [field_blank_bind]
    simp only [hf]
  rw [← hblank a, h, hblank b]

theorem items_blank_bind {α : Type} (json : Json) (f : List Json → Except InputFault α) :
    (json.blank.items >>= f) = json.items >>= fun items => f (items.map blank) := by
  cases json with
  | arr items => rw [blank, blankItems_eq]; rfl
  | _ => rfl

theorem mapM_blank {α : Type} {f : Json → Except InputFault α} (hf : ∀ json, f json.blank = f json)
    (items : List Json) : (items.map blank).mapM f = items.mapM f := by
  induction items with
  | nil => rfl
  | cons item items ih => rw [List.map_cons, List.mapM_cons, List.mapM_cons, hf, ih]

theorem naturals_blank (json : Json) : json.blank.naturals = json.naturals := by
  unfold naturals
  rw [items_blank_bind]
  simp only [mapM_blank natural_blank]

end Json

theorem readTransfer_blank (item : Json) : readTransfer item.blank = readTransfer item := by
  unfold readTransfer
  rw [Json.naturals_blank]

theorem manualTransfers_blank (group : List ℕ) (stageId : ℕ) (atom : Json) :
    manualTransfers group stageId atom.blank = manualTransfers group stageId atom := by
  unfold manualTransfers
  simp only [Json.field_blank_bind, Json.naturals_blank]

theorem nodeTransfers_blank (node : Json) : nodeTransfers node.blank = nodeTransfers node := by
  unfold nodeTransfers
  simp only [Json.field_blank_bind, Json.naturals_blank, Json.natural_blank, Json.items_blank_bind,
    Json.mapM_blank (manualTransfers_blank _ _)]

/-- The banned transfers are the same for atom files that differ in texts. -/
theorem expandedForbiddenTransfers_blank (atom : Json) :
    expandedForbiddenTransfers atom.blank = expandedForbiddenTransfers atom := by
  unfold expandedForbiddenTransfers
  simp only [Json.field_blank_bind, Json.boolean_blank, Json.items_blank_bind,
    Json.mapM_blank readTransfer_blank, Json.mapM_blank nodeTransfers_blank]

/-! ## What the documents of a request say about its constraints -/

theorem validateTopology_ranks {topology runtime : Json} {ranks : ℕ}
    (h : validateTopology topology runtime = .ok ranks) :
    (topology.field "ranks" >>= Json.natural) = .ok ranks := by
  unfold validateTopology at h
  simp only [Checked.bind_ok, Checked.pure_ok] at h
  obtain ⟨value, hvalue, n, hn, _, _, rfl⟩ := h
  rw [Checked.bind_ok]
  exact ⟨value, hvalue, hn⟩

/-- The documents of a request agree with the values that were read from them. -/
structure Recorded (request : ResolvedRequest) : Prop where
  topology : ∃ fields, request.requestConfig.topology = .obj fields ∧
    Normalized RequestSchema.topology "topology" fields
  ranks : (request.requestConfig.topology.field "ranks" >>= Json.natural) = .ok request.rankCount
  atom : ∃ fields, request.requestConfig.atom = .obj fields ∧
    Normalized RequestSchema.atom "atom" fields
  forbidden : expandedForbiddenTransfers request.requestConfig.atom =
    .ok request.atomConstraints.forbiddenTransfers
  stage : (request.requestConfig.atom.field "stage_num" >>= Json.optional Json.natural) =
    .ok request.atomConstraints.stageNum
  sketch : ∃ fields, request.requestConfig.sketch = .obj fields ∧
    (Json.obj fields).AllNames Plain ∧ PlacedSketch fields ∧ Dict.get? fields "live" = none ∧
    ∃ hyper, Dict.get? fields "hyperparameters" = some (.obj hyper) ∧
      Dict.get? hyper "total_size_bytes" = some (.int request.hyperparameters.totalSizeBytes) ∧
      (request.atomConstraints.forbiddenTransfers ≠ [] → ∃ size : ℕ, size ≠ 0 ∧
        request.hyperparameters.referenceSliceSizeBytes = some size ∧
        Dict.get? hyper "reference_slice_size_bytes" = some (.int size))

/-- The transfers lie in the reference partition, as the resolver checks. -/
structure InDomain (request : ResolvedRequest) : Prop where
  slices : ∀ item ∈ request.atomConstraints.forbiddenTransfers,
    item.sliceId < request.rankCount * (request.hyperparameters.totalSizeBytes /
      request.hyperparameters.referenceSliceSizeBytes.getD 0)
  divides : ∀ size ∈ request.hyperparameters.referenceSliceSizeBytes,
    size ∣ request.hyperparameters.totalSizeBytes

/-- A size the schema of the reference size accepts is positive. -/
theorem size_ne_zero {path : String} {hyper : List (String × Json)} {size : ℕ}
    (h : Normalized RequestSchema.hyperparameters path hyper)
    (hget : Dict.get? hyper "reference_slice_size_bytes" = some (.int size)) : size ≠ 0 := by
  have hmem : ("reference_slice_size_bytes", RequestSchema.count (some .null) none) ∈
      RequestSchema.hyperparameters.properties := by
    simp [RequestSchema.hyperparameters, RequestSchema.obj, Spec.properties]
  rcases h.get? hyperparameters_nodup hmem with ⟨_, hnone⟩ | ⟨value, hvalue, hfix⟩
  · rw [hget] at hnone
    cases hnone
  · rw [hget] at hvalue
    cases hvalue
    obtain ⟨haccepts, _⟩ := (normalize_scalar rfl).mp hfix
    obtain ⟨_, _, value, hvalue, hmin, _⟩ := haccepts
    cases hvalue
    have := hmin 1 rfl
    rintro rfl
    norm_num at this

theorem readHyperparameters_ok {sections : Sections} {atom : Json} {sizes : Sizes}
    {reference : Option ℕ} {hyperparameters : Hyperparameters}
    (h : readHyperparameters sections atom sizes reference = .ok hyperparameters) :
    hyperparameters.totalSizeBytes = sizes.total ∧
      hyperparameters.referenceSliceSizeBytes = reference := by
  unfold readHyperparameters at h
  simp only [Checked.bind_ok, Checked.pure_ok] at h
  obtain ⟨_, _, _, _, _, _, _, _, _, _, _, _, _, _, _, _, _, _, rfl⟩ := h
  exact ⟨rfl, rfl⟩

theorem checkSizes_divides {spec : CollectiveSpec} {ranks element : ℕ} {sizes : Sizes}
    (h : checkSizes spec ranks sizes = .ok element) : ∀ size ∈ sizes.reference, size ∣ sizes.total := by
  unfold checkSizes at h
  simp only [Checked.bind_ok, checkSlice, Checked.ensure_ok] at h
  obtain ⟨_, _, _, _, _, _, _, hreference, _⟩ := h
  intro size hsize
  exact Nat.dvd_of_mod_eq_zero (hreference size hsize).2

theorem collective_names_subset :
    ∀ name ∈ RequestSchema.collective.names, name ∈ RequestSchema.sketch.names := by decide

theorem hyperparameters_names_subset :
    ∀ name ∈ RequestSchema.hyperparameters.names, name ∈ RequestSchema.sketch.names := by
  decide

/-- **A resolved request records its constraints.** -/
theorem resolveConfig_recorded {digest : Json → String} {purpose : Purpose} {config : Documents}
    {sketch atom : List (String × Json)} (hconfig : NormalDocuments config sketch atom)
    {request : ResolvedRequest} (h : resolveConfig digest purpose config = .ok request) :
    Recorded request ∧ InDomain request := by
  unfold resolveConfig at h
  simp only [Checked.bind_ok, Checked.pure_ok] at h
  obtain ⟨ranks, hranks, c, hc, collective, hcollective, spec, hspec, hyper, hhyper, sizes, hsizes,
    element, helement, sections, hsections, _, htolerances, selected, hselected, forbidden,
    hforbidden, reference, hreference, stage, hstage, stageNum, hstageNum, _, hcheck, _, henabled,
    hyperparameters, hhyperparameters, solver, hsolver, strategies, hstrategies, protocol, hprotocol,
    hrequest⟩ := h
  obtain ⟨fields, hfields, hn⟩ := sketch_collective hconfig.sketch
  obtain ⟨sizeFields, hsizeFields, hh⟩ := sketch_hyperparameters hconfig.sketch
  rw [hconfig.sketch_eq] at hc hhyper
  rw [Json.field, Checked.required_ok, Json.get?_obj] at hc hhyper
  rw [hfields] at hc
  rw [hsizeFields] at hhyper
  cases hc
  cases hhyper
  obtain ⟨completed, kind, rfl, hcompleted⟩ := completeCollective_ok hcollective
  obtain ⟨sizeOut, hrecord, hnormal, hsizes', _⟩ := sizes_stable hh hsizes hreference
  obtain ⟨topology, htopology, hnormalTopology⟩ :=
    normalize_normalized (by rfl) (by decide) hconfig.topology
  obtain ⟨htotal, hreference'⟩ := readHyperparameters_ok hhyperparameters
  have hsketch : (config.sketch.set "collective" (.obj completed)).set "hyperparameters"
      (recordReference forbidden reference (.obj sizeFields)) =
        .obj (rewriteSketch sketch completed sizeOut) := by
    rw [hconfig.sketch_eq, hrecord]
    rfl
  obtain ⟨total, slice, given, hgettotal, htotal', _, _, hgiven, hgiven'⟩ := Sizes.read_ok.mp hsizes'
  subst hrequest
  refine ⟨⟨⟨topology, htopology, hnormalTopology⟩, validateTopology_ranks hranks,
    ⟨atom, hconfig.atom_eq, hconfig.atom⟩, hforbidden, ?_, ⟨_, hsketch, ?_, ?_, ?_, sizeOut,
      rewriteSketch_hyper _ _ _, ?_, ?_⟩⟩, ?_⟩
  · rw [Checked.bind_ok]
    exact ⟨stage, hstage, hstageNum⟩
  · have hnames : (Json.obj sketch).AllNames Plain := hconfig.sketch.names sketch_plain
    have hcollective : ∀ name ∈ RequestSchema.collective.names, Plain name :=
      fun name hname => sketch_plain name (collective_names_subset name hname)
    have hhyper : ∀ name ∈ RequestSchema.hyperparameters.names, Plain name :=
      fun name hname => sketch_plain name (hyperparameters_names_subset name hname)
    exact (hnames.set (sketch_plain _ (by decide))
      (completed_names hcollective hn hcompleted)).set (sketch_plain _ (by decide))
      (hnormal.names hhyper)
  · exact (sketch_current hconfig.sketch hn hcompleted hnormal).toPlacedSketch
  · exact (rewriteSketch_other (by decide) (by decide)).trans
      (hconfig.sketch.get?_eq_none (by decide))
  · rw [hgettotal, htotal', htotal]
  · intro hne
    rcases bindReference_ok hreference with ⟨hnil, _⟩ | ⟨_, size, rfl, _⟩
    · exact absurd hnil hne
    · rcases Json.optional_natural_ok.mp hgiven' with ⟨_, hnone⟩ | ⟨n, rfl, hn'⟩
      · cases hnone
      · cases hn'
        exact ⟨size, size_ne_zero hnormal hgiven, hreference', hgiven⟩
  · constructor
    · intro item hitem
      have hitem' := Checked.forM_ok.mp hcheck item hitem
      rw [checkForbidden, Checked.ensure_ok] at hitem'
      show item.sliceId < ranks * _
      rw [htotal, hreference']
      exact hitem'.1
    · show ∀ size ∈ hyperparameters.referenceSliceSizeBytes, size ∣ hyperparameters.totalSizeBytes
      rw [htotal, hreference']
      exact checkSizes_divides (checkSizes_record helement hreference)

theorem resolveRequest_recorded {digest : Json → String} {purpose : Purpose} {overrideInput : Bool}
    {overrides : List (String × Json)} {files : Documents} {request : ResolvedRequest}
    (h : resolveRequest digest purpose overrideInput overrides files = .ok request) :
    Recorded request ∧ InDomain request := by
  unfold resolveRequest at h
  simp only [Checked.bind_ok] at h
  obtain ⟨_, _, _, _, _, _, _, _, config, hnormalize, h⟩ := h
  obtain ⟨sketch, atom, hconfig⟩ := normalizeDocuments_ok hnormalize
  exact resolveConfig_recorded hconfig h

/-! ## Binding a slice size -/

/-- Two requests with the same banned bytes. -/
structure Agrees (a b : ResolvedRequest) : Prop where
  ranks : b.rankCount = a.rankCount
  constraints : b.atomConstraints = a.atomConstraints
  total : b.hyperparameters.totalSizeBytes = a.hyperparameters.totalSizeBytes
  reference : a.atomConstraints.forbiddenTransfers ≠ [] →
    b.hyperparameters.referenceSliceSizeBytes = a.hyperparameters.referenceSliceSizeBytes

theorem Agrees.refl (a : ResolvedRequest) : Agrees a a := ⟨rfl, rfl, rfl, fun _ => rfl⟩

theorem Agrees.trans {a b c : ResolvedRequest} (hab : Agrees a b) (hbc : Agrees b c) :
    Agrees a c where
  ranks := hbc.ranks.trans hab.ranks
  constraints := hbc.constraints.trans hab.constraints
  total := hbc.total.trans hab.total
  reference h := (hbc.reference (by rw [hab.constraints]; exact h)).trans (hab.reference h)

theorem referenceSize_eq {hyper : Hyperparameters} {size : ℕ} (hsize : size ≠ 0)
    (h : hyper.referenceSliceSizeBytes = some size) : hyper.referenceSize = some size := by
  unfold Hyperparameters.referenceSize
  rw [h, Option.filter_some_pos (by simp [hsize])]
  rfl

theorem bindBans_nil (total rankCount : ℕ) (reference : Option ℕ) :
    bindBans total rankCount [] reference = .ok [] := by
  cases reference <;> rfl

/-- The size that slice numbers of a recorded request refer to. -/
theorem Recorded.reference {request : ResolvedRequest} (h : Recorded request)
    (hne : request.atomConstraints.forbiddenTransfers ≠ []) :
    ∃ size, size ≠ 0 ∧ request.hyperparameters.referenceSliceSizeBytes = some size := by
  obtain ⟨_, _, _, _, _, _, _, _, hreference⟩ := h.sketch
  obtain ⟨size, hsize, hreference, _⟩ := hreference hne
  exact ⟨size, hsize, hreference⟩

/-- Requests with the same banned bytes have the same constraints. -/
theorem Agrees.bindConstraints {a b : ResolvedRequest} (h : Agrees a b) (ha : Recorded a) :
    b.bindConstraints = a.bindConstraints := by
  unfold ResolvedRequest.bindConstraints
  rw [h.ranks, h.constraints, h.total]
  by_cases hne : a.atomConstraints.forbiddenTransfers = []
  · rw [hne, bindBans_nil, bindBans_nil]
  · obtain ⟨size, hsize, hreference⟩ := ha.reference hne
    rw [referenceSize_eq hsize hreference,
      referenceSize_eq hsize ((h.reference hne).trans hreference)]

theorem assignSection_ok {fields inner : List (String × Json)} {name key : String} {value result : Json}
    (hinner : Dict.get? fields name = some (.obj inner))
    (h : assignSection (.obj fields) name key value = .ok result) :
    result = .obj (Dict.set fields name (.obj (Dict.set inner key value))) := by
  unfold assignSection at h
  rw [Json.get?_obj, hinner] at h
  simp only [Checked.required, Checked.bind_ok, Checked.pure_ok, Except.ok.injEq,
    exists_eq_left'] at h
  exact h.symm

/-- **`resolve_parameters` changes neither the banned bytes nor their record.** -/
theorem resolveParameters_recorded {request next : ResolvedRequest} {candidate : ParameterCandidate}
    (h : Recorded request) (hnext : resolveParameters request candidate = .ok next) :
    Recorded next ∧ Agrees request next := by
  obtain ⟨fields, hfields, hnames, hplaced, hlive, hyper, hhyper, htotal, hreference⟩ := h.sketch
  unfold resolveParameters at hnext
  simp only [Checked.bind_ok, Checked.pure_ok] at hnext
  obtain ⟨_, _, first, hfirst, second, hsecond, rfl⟩ := hnext
  rw [hfields] at hfirst
  obtain rfl := assignSection_ok hhyper hfirst
  obtain ⟨solver, hsolver, hsolverTotal⟩ := hplaced.solver
  have hsolver' : Dict.get? (Dict.set fields "hyperparameters"
      (.obj (Dict.set hyper "slice_size_bytes" (.int candidate.sliceBytes)))) "solver" =
        some (.obj solver) := by
    rw [Dict.get?_set_ne _ _ (by decide)]
    exact hsolver
  obtain rfl := assignSection_ok hsolver' hsecond
  have hget : Dict.get? (Dict.set (Dict.set fields "hyperparameters"
      (.obj (Dict.set hyper "slice_size_bytes" (.int candidate.sliceBytes)))) "solver"
        (.obj (Dict.set solver "max_channels" (.int candidate.channels)))) "hyperparameters" =
          some (.obj (Dict.set hyper "slice_size_bytes" (.int candidate.sliceBytes))) := by
    rw [Dict.get?_set_ne _ _ (by decide), Dict.get?_set_self]
  have hinner : ∀ {key}, "slice_size_bytes" ≠ key → Dict.get? (Dict.set hyper "slice_size_bytes"
      (.int candidate.sliceBytes)) key = Dict.get? hyper key := fun hne => Dict.get?_set_ne _ _ hne
  refine ⟨⟨h.topology, h.ranks, h.atom, h.forbidden, h.stage, _, rfl, ?_, ⟨⟨_, hget, ?_⟩, ?_⟩, ?_,
    _, hget, ?_, ?_⟩, rfl, rfl, rfl, fun _ => rfl⟩
  · have hint : ∀ n : ℕ, (Json.int n).AllNames Plain := by
      intro n
      rw [Json.int, Json.AllNames]
      trivial
    have hplain : ∀ name ∈ ["hyperparameters", "slice_size_bytes", "solver", "max_channels"],
        Plain name := by
      intro name hname
      have hsubset : ∀ name ∈ ["hyperparameters", "slice_size_bytes", "solver", "max_channels"],
          name ∈ RequestSchema.sketch.names := by decide
      exact sketch_plain name (hsubset name hname)
    have hhyper' : (Json.obj (Dict.set hyper "slice_size_bytes"
        (.int candidate.sliceBytes))).AllNames Plain :=
      (hnames.get? hhyper).set (hplain _ (by simp)) (hint _)
    have hsolver' : (Json.obj (Dict.set solver "max_channels"
        (.int candidate.channels))).AllNames Plain :=
      (hnames.get? hsolver).set (hplain _ (by simp)) (hint _)
    exact (hnames.set (hplain _ (by simp)) hhyper').set (hplain _ (by simp)) hsolver'
  · obtain ⟨hyper', hhyper', habsent⟩ := hplaced.hyper
    rw [hhyper] at hhyper'
    cases hhyper'
    intro key hkey
    rw [hinner (ne_of_mem_of_not_mem hkey (by decide)).symm]
    exact habsent key hkey
  · refine ⟨_, Dict.get?_set_self _ _ _, ?_⟩
    rw [Dict.get?_set_ne _ _ (by decide)]
    exact hsolverTotal
  · rw [Dict.get?_set_ne _ _ (by decide), Dict.get?_set_ne _ _ (by decide)]
    exact hlive
  · rw [hinner (by decide)]
    exact htotal
  · intro hne
    rw [hinner (by decide)]
    exact hreference hne

theorem bindArtifactPartition_recorded {request next : ResolvedRequest} {sidecar : Json}
    (h : Recorded request) (hnext : bindArtifactPartition request sidecar = .ok next) :
    Recorded next ∧ Agrees request next := by
  unfold bindArtifactPartition at hnext
  simp only [Checked.bind_ok] at hnext
  obtain ⟨_, _, _, _, sliceBytes, _, _, _, hnext⟩ := hnext
  by_cases hsame : some sliceBytes = request.hyperparameters.sliceSizeBytes
  · rw [if_pos hsame, Checked.pure_ok] at hnext
    subst hnext
    exact ⟨h, Agrees.refl request⟩
  · rw [if_neg hsame] at hnext
    exact resolveParameters_recorded h hnext

/-! ## Reloading a checkpoint -/

/-- Places of settings do not depend on texts. -/
theorem PlacedSketch.blank {f g : List (String × Json)} (h : PlacedSketch f)
    (hblank : Json.blankFields g = Json.blankFields f) : PlacedSketch g where
  hyper := by
    obtain ⟨hyper, hhyper, habsent⟩ := h.hyper
    obtain ⟨hyper', hhyper', hfields⟩ := Json.get?_obj_of_blank hblank hhyper
    exact ⟨hyper', hhyper', fun key hkey => Json.get?_none_of_blank hfields (habsent key hkey)⟩
  solver := by
    obtain ⟨solver, hsolver, habsent⟩ := h.solver
    obtain ⟨solver', hsolver', hfields⟩ := Json.get?_obj_of_blank hblank hsolver
    exact ⟨solver', hsolver', Json.get?_none_of_blank hfields habsent⟩

theorem PlacedAtom.blank {f g : List (String × Json)} (h : PlacedAtom f)
    (hblank : Json.blankFields g = Json.blankFields f) : PlacedAtom g where
  settings key hkey := Json.get?_none_of_blank hblank (h.settings key hkey)
  strategies := by
    obtain ⟨strategies, hstrategies, habsent⟩ := h.strategies
    obtain ⟨strategies', hstrategies', hfields⟩ := Json.get?_obj_of_blank hblank hstrategies
    exact ⟨strategies', hstrategies', fun key hkey =>
      Json.get?_none_of_blank hfields (habsent key hkey)⟩

/-- Only the collective section is rewritten by the spelling of the operator. -/
theorem migrateOperator_obj (sketch : List (String × Json)) :
    ∃ out, migrateOperator (.obj sketch) = .obj out ∧
      ∀ key, "collective" ≠ key → Dict.get? out key = Dict.get? sketch key := by
  unfold migrateOperator
  rw [Json.get?_obj]
  split
  · split
    · exact ⟨_, rfl, fun key hkey => Dict.get?_set_ne _ _ hkey⟩
    · exact ⟨sketch, rfl, fun _ _ => rfl⟩
  · exact ⟨sketch, rfl, fun _ _ => rfl⟩

theorem PlacedSketch.migrate {sketch out : List (String × Json)} (h : PlacedSketch sketch)
    (hout : ∀ key, "collective" ≠ key → Dict.get? out key = Dict.get? sketch key) :
    PlacedSketch out where
  hyper := by
    rw [hout _ (by decide)]
    exact h.hyper
  solver := by
    rw [hout _ (by decide)]
    exact h.solver

/-- Migration of documents with their settings in place touches the operator only. -/
theorem migrate_placed {documents result : Documents} {sketch atom : List (String × Json)}
    (hsketch : documents.sketch = .obj sketch) (hatom : documents.atom = .obj atom)
    (hs : PlacedSketch sketch) (ha : PlacedAtom atom) (h : VeriCCL.migrate documents = .ok result) :
    result = { documents with sketch := migrateOperator (.obj sketch) } := by
  obtain ⟨out, hout, hget⟩ := migrateOperator_obj sketch
  have hplaced := hs.migrate hget
  unfold VeriCCL.migrate at h
  simp only [Checked.bind_ok, Checked.pure_ok] at h
  rw [hsketch, hatom, hout] at h
  obtain ⟨_, _, _, _, first, hfirst, second, hsecond, _, _, third, hthird, rfl⟩ := h
  rw [hplaced.migrateTotal] at hfirst
  cases hfirst
  rw [hplaced.migrateSolver] at hsecond
  cases hsecond
  rw [ha.migrateStrategies] at hthird
  cases hthird
  rw [hout, ← hatom]

/-- A scalar property keeps its value. -/
theorem normalizeProperties_scalar {properties : List (String × Spec)}
    (hnodup : (properties.map (·.1)).Nodup) {required : List String} {path : String}
    {fields out : List (String × Json)}
    (h : normalizeProperties properties required path fields = .ok out) {key : String}
    {constraints : Scalar} (hmem : (key, .scalar constraints) ∈ properties) {value : Json}
    (hvalue : Dict.get? fields key = some value) (hnull : value.isNull = false) :
    Dict.get? out key = some value := by
  rcases normalizeProperties_get? hnodup h hmem with ⟨hskip, _⟩ | ⟨_, result, hresult, hout⟩
  · rw [skipped_eq_false hvalue (by rintro rfl; cases hnull)] at hskip
    cases hskip
  · rw [hvalue, Option.getD_some, normalize_scalar hnull] at hresult
    rw [hout, hresult.2]

/-- What a resolved request takes from the documents it was resolved from. -/
theorem resolveConfig_sizes {digest : Json → String} {purpose : Purpose} {config : Documents}
    {request : ResolvedRequest} (h : resolveConfig digest purpose config = .ok request) :
    request.requestConfig.topology = config.topology ∧ request.requestConfig.atom = config.atom ∧
      ∃ hyper sizes, config.sketch.field "hyperparameters" = .ok hyper ∧
        Sizes.read hyper = .ok sizes ∧ request.hyperparameters.totalSizeBytes = sizes.total ∧
        bindReference request.atomConstraints.forbiddenTransfers sizes =
          .ok request.hyperparameters.referenceSliceSizeBytes := by
  unfold resolveConfig at h
  simp only [Checked.bind_ok, Checked.pure_ok] at h
  obtain ⟨ranks, _, _, _, _, _, _, _, hyper, hhyper, sizes, hsizes, _, _, _, _, _, _, _, _, forbidden,
    _, reference, hreference, _, _, _, _, _, _, _, _, hyperparameters, hhyperparameters, _, _, _, _,
    _, _, rfl⟩ := h
  obtain ⟨htotal, hreference'⟩ := readHyperparameters_ok hhyperparameters
  refine ⟨rfl, rfl, hyper, sizes, hhyper, hsizes, htotal, ?_⟩
  rw [hreference']
  exact hreference

/-- Documents that differ in texts are normalized to the fixed document, up to texts. -/
theorem blank_of_normalize {spec : Spec} {path : String} {fields : List (String × Json)}
    {default : Option Json} (hspec : spec = .object spec.properties spec.required default)
    (h : Normalized spec path fields) {json result : Json}
    (hblank : json.blank = (Json.obj fields).blank) (hresult : normalize spec path json = .ok result) :
    result.blank = (Json.obj fields).blank := by
  refine normalize_blank spec hblank hresult ?_
  rw [hspec]
  exact normalize_object_obj.mpr ⟨fun key hkey => h.keys_subset hkey, h⟩

/-- The sizes that normalization of a redacted sketch leaves in place. -/
theorem normalize_sizes {sketch hyper : List (String × Json)}
    (hhyper : Dict.get? sketch "hyperparameters" = some (.obj hyper)) {result value : Json}
    (hresult : normalize RequestSchema.sketch "sketch" (.obj sketch) = .ok result)
    (hvalue : result.field "hyperparameters" = .ok value) :
    ∃ out, value = .obj out ∧ ∀ key ∈ ["total_size_bytes", "reference_slice_size_bytes"],
      ∀ n : ℤ, Dict.get? hyper key = some (.int n) → Dict.get? out key = some (.int n) := by
  have hmem : ("hyperparameters", RequestSchema.hyperparameters) ∈ RequestSchema.sketch.properties := by
    simp [RequestSchema.sketch, RequestSchema.obj, Spec.properties]
  obtain ⟨fields, rfl, _⟩ := normalize_normalized (by rfl) (by decide) hresult
  obtain ⟨_, hproperties⟩ := normalize_object_obj.mp hresult
  rw [Json.field, Checked.required_ok, Json.get?_obj] at hvalue
  rcases normalizeProperties_get? sketch_nodup hproperties hmem with
    ⟨_, hnone⟩ | ⟨_, value', hvalue', hget⟩
  · rw [hvalue] at hnone
    cases hnone
  · rw [hvalue] at hget
    cases hget
    rw [hhyper, Option.getD_some] at hvalue'
    obtain ⟨out, rfl, _⟩ := normalize_normalized (by rfl) (by decide) hvalue'
    obtain ⟨_, hsizes⟩ := normalize_object_obj.mp hvalue'
    refine ⟨out, rfl, ?_⟩
    intro key hkey n hn
    have hscalar : ∃ constraints, (key, Spec.scalar constraints) ∈
        RequestSchema.hyperparameters.properties := by
      simp only [List.mem_cons, List.not_mem_nil, or_false] at hkey
      rcases hkey with rfl | rfl
      · exact ⟨_, List.mem_cons_self⟩
      · exact ⟨_, List.mem_cons_of_mem _ (List.mem_cons_of_mem _ List.mem_cons_self)⟩
    obtain ⟨constraints, hscalar⟩ := hscalar
    exact normalizeProperties_scalar hyperparameters_nodup hsizes hscalar hn rfl

theorem loadDocuments_ok {documents result : Documents} (h : loadDocuments documents = .ok result) :
    result = documents := by
  unfold loadDocuments at h
  simp only [Checked.bind_ok, Checked.pure_ok] at h
  obtain ⟨_, _, _, _, _, _, _, _, rfl⟩ := h
  rfl

theorem blankFields_redacted (redact : String → String) {fields : List (String × Json)}
    (h : (Json.obj fields).AllNames Plain) :
    Json.blankFields (redactFields redact fields) = Json.blankFields fields := by
  rw [Json.AllNames] at h
  exact blank_redactFields h

/-- The documents that a redacted record is resolved from: the topology and the atom file
differ from the record in texts, and the sizes are those of the record. -/
theorem resolve_redacted {digest : Json → String} {redact : String → String} {purpose : Purpose}
    {request again : ResolvedRequest} (h : Recorded request)
    (hagain : resolveRequest digest purpose false [] (request.requestConfig.redacted redact) =
      .ok again) :
    again.requestConfig.topology.blank = request.requestConfig.topology.blank ∧
      again.requestConfig.atom.blank = request.requestConfig.atom.blank ∧
      ∃ out sizes, Sizes.read (.obj out) = .ok sizes ∧
        again.hyperparameters.totalSizeBytes = sizes.total ∧
        bindReference again.atomConstraints.forbiddenTransfers sizes =
          .ok again.hyperparameters.referenceSliceSizeBytes ∧
        ∀ hyper sketch, request.requestConfig.sketch = .obj sketch →
          Dict.get? sketch "hyperparameters" = some (.obj hyper) →
          ∀ key ∈ ["total_size_bytes", "reference_slice_size_bytes"], ∀ n : ℤ,
            Dict.get? hyper key = some (.int n) → Dict.get? out key = some (.int n) := by
  obtain ⟨topology, htopology, hnormalTopology⟩ := h.topology
  obtain ⟨atom, hatom, hnormalAtom⟩ := h.atom
  obtain ⟨sketch, hsketch, hnames, hplaced, hlive, _, _, _, _⟩ := h.sketch
  have hblank := blankFields_redacted redact hnames
  have hblankAtom := blankFields_redacted redact (hnormalAtom.names atom_plain)
  have hblankTopology :=
    blankFields_redacted redact (hnormalTopology.names topology_plain)
  unfold resolveRequest at hagain
  simp only [Checked.bind_ok] at hagain
  obtain ⟨_, hload, migrated, hmigrate, _, hdisabled, _, hoverrides, config, hnormalize, hresolve⟩ :=
    hagain
  rw [loadDocuments_ok hload] at hmigrate
  have hredacted : (request.requestConfig.redacted redact).sketch =
      .obj (redactFields redact sketch) := by
    show redactValue redact _ = _
    rw [hsketch, redactValue]
  have hredactedAtom : (request.requestConfig.redacted redact).atom =
      .obj (redactFields redact atom) := by
    show redactValue redact _ = _
    rw [hatom, redactValue]
  have hredactedTopology : (request.requestConfig.redacted redact).topology =
      .obj (redactFields redact topology) := by
    show redactValue redact _ = _
    rw [htopology, redactValue]
  obtain ⟨out, hout, hget⟩ := migrateOperator_obj (redactFields redact sketch)
  have hmigrated := migrate_placed hredacted hredactedAtom (hplaced.blank hblank)
    ((atom_placed hnormalAtom).blank hblankAtom) hmigrate
  have hnolive : Dict.get? out "live" = none := by
    rw [hget _ (by decide)]
    exact Json.get?_none_of_blank hblank hlive
  rw [hout] at hmigrated
  rw [hmigrated, migrateDisabledLive, Json.get?_obj, hnolive] at hdisabled
  cases hdisabled
  cases hoverrides
  unfold normalizeDocuments at hnormalize
  simp only [Checked.bind_ok, Checked.pure_ok] at hnormalize
  obtain ⟨topology', htopology', sketch', hsketch', atom', hatom', runtime', _, rfl⟩ := hnormalize
  obtain ⟨heq, heq', hyper, sizes, hhyper, hsizes, htotal, hreference⟩ := resolveConfig_sizes hresolve
  refine ⟨?_, ?_, ?_⟩
  · rw [heq, htopology]
    refine blank_of_normalize rfl hnormalTopology ?_ htopology'
    rw [hredactedTopology, Json.blank, Json.blank, hblankTopology]
  · rw [heq', hatom]
    refine blank_of_normalize rfl hnormalAtom ?_ hatom'
    rw [hredactedAtom, Json.blank, Json.blank, hblankAtom]
  · -- the sizes are integers: redaction, migration and normalization keep them
    obtain ⟨given, hgiven, _⟩ := hplaced.hyper
    obtain ⟨given', hgiven', hfields⟩ := Json.get?_obj_of_blank hblank hgiven
    have hgiven'' : Dict.get? out "hyperparameters" = some (.obj given') := by
      rw [hget _ (by decide)]
      exact hgiven'
    obtain ⟨sizeFields, rfl, hkeep⟩ := normalize_sizes hgiven'' hsketch' hhyper
    refine ⟨sizeFields, sizes, hsizes, htotal, hreference, ?_⟩
    intro hyper sketch₂ hsketch₂ hhyper₂ key hkey n hn
    rw [hsketch] at hsketch₂
    cases hsketch₂
    rw [hgiven] at hhyper₂
    cases hhyper₂
    exact hkeep key hkey n (Json.get?_int_of_blank hfields hn)

/-- **A reloaded request has the banned bytes of the saved one.** -/
theorem checkpointInputs_recorded {digest : Json → String} {redact : String → String}
    {purpose : Purpose} {request next : ResolvedRequest} (h : Recorded request)
    (hnext : checkpointInputs digest redact purpose request = .ok next) :
    Recorded next ∧ Agrees request next := by
  unfold checkpointInputs at hnext
  rw [Checked.bind_ok] at hnext
  obtain ⟨again, hagain, hnext⟩ := hnext
  rw [Checked.pure_ok] at hnext
  subst hnext
  obtain ⟨hrecorded, _⟩ := resolveRequest_recorded hagain
  obtain ⟨htopology, hatom, out, sizes, hsizes, htotal, hreference, hkeep⟩ :=
    resolve_redacted h hagain
  obtain ⟨sketch, hsketch, _, _, _, hyper, hhyper, hgiven, hgivenReference⟩ := h.sketch
  refine ⟨⟨hrecorded.topology, hrecorded.ranks, hrecorded.atom, hrecorded.forbidden,
    hrecorded.stage, hrecorded.sketch⟩, ?_⟩
  have hforbidden : again.atomConstraints.forbiddenTransfers =
      request.atomConstraints.forbiddenTransfers := by
    have hread := hrecorded.forbidden
    rw [← expandedForbiddenTransfers_blank, hatom, expandedForbiddenTransfers_blank,
      h.forbidden] at hread
    injection hread with hread
    exact hread.symm
  have hstage : again.atomConstraints.stageNum = request.atomConstraints.stageNum := by
    have hread := hrecorded.stage
    rw [Json.field_congr hatom _ Json.optional_natural_blank, h.stage] at hread
    injection hread with hread
    exact hread.symm
  have hranks : again.rankCount = request.rankCount := by
    have hread := hrecorded.ranks
    rw [Json.field_congr htopology _ Json.natural_blank, h.ranks] at hread
    injection hread with hread
    exact hread.symm
  obtain ⟨total, _, given, hgettotal, htotal', _, _, hgetreference, hreference'⟩ :=
    Sizes.read_ok.mp hsizes
  refine ⟨hranks, ?_, ?_, ?_⟩
  · show again.atomConstraints = _
    cases hc : again.atomConstraints
    cases hc' : request.atomConstraints
    rw [hc, hc'] at hforbidden hstage
    simp only at hforbidden hstage
    rw [hforbidden, hstage]
  · have hkept := hkeep hyper sketch hsketch hhyper _ List.mem_cons_self _ hgiven
    rw [hgettotal, htotal', Option.some.injEq, Json.int, Json.int] at hkept
    simp only [Json.num.injEq, Number.int.injEq, Nat.cast_inj] at hkept
    exact htotal.trans hkept
  · intro hne
    obtain ⟨size, _, hsize, hgivensize⟩ := hgivenReference hne
    have hkept := hkeep hyper sketch hsketch hhyper _
      (List.mem_cons_of_mem _ List.mem_cons_self) _ hgivensize
    rw [hgetreference, Option.some.injEq] at hkept
    subst hkept
    rcases Json.optional_natural_ok.mp hreference' with ⟨hnull, _⟩ | ⟨n, hn, hsome⟩
    · cases hnull
    · simp only [Json.int, Json.num.injEq, Number.int.injEq, Nat.cast_inj] at hn
      subst hn
      rcases bindReference_ok hreference with ⟨hnil, _⟩ | ⟨_, size', hsize', h' | ⟨h', _⟩⟩
      · rw [hforbidden] at hnil
        exact absurd hnil hne
      · rw [hsome] at h'
        cases h'
        rw [hsize]
        exact hsize'
      · rw [hsome] at h'
        cases h'

/-! ## Bans do not depend on the partition -/

theorem repartitioned_agrees {digest : Json → String} {redact : String → String}
    {origin request : ResolvedRequest} (ho : Recorded origin)
    (h : Repartitioned digest redact origin request) : Recorded request ∧ Agrees origin request := by
  induction h with
  | origin => exact ⟨ho, Agrees.refl origin⟩
  | parameters _ hnext ih =>
    obtain ⟨hrecorded, hagrees⟩ := resolveParameters_recorded ih.1 hnext
    exact ⟨hrecorded, ih.2.trans hagrees⟩
  | artifact _ hnext ih =>
    obtain ⟨hrecorded, hagrees⟩ := bindArtifactPartition_recorded ih.1 hnext
    exact ⟨hrecorded, ih.2.trans hagrees⟩
  | reload _ hnext ih =>
    obtain ⟨hrecorded, hagrees⟩ := checkpointInputs_recorded ih.1 hnext
    exact ⟨hrecorded, ih.2.trans hagrees⟩

/-- The number of the reference slice that holds a byte of a rank's input. -/
def referenceSlice (total reference rank byte : ℕ) : ℕ :=
  rank * (total / reference) + byte / reference

/-- A transfer of these ranges passes the constraints of the request. -/
def ResolvedRequest.Allows (request : ResolvedRequest) (contributors : List DataRange)
    (srcRank dstRank stageId : ℕ) : Prop :=
  ∃ set, request.bindConstraints = .ok set ∧
    set.allows contributors srcRank dstRank stageId = .ok true

/-- A range carries a byte of a reference slice. -/
def DataRange.Carries (range : DataRange) (total reference sliceId : ℕ) : Prop :=
  ∃ byte, range.start ≤ byte ∧ byte < range.stop ∧ byte < total ∧
    referenceSlice total reference range.sourceRank byte = sliceId

/-- A range meets the bytes of a banned slice exactly when it carries one of them. -/
theorem bindSlice_intersects {total reference rankCount : ℕ} {item : ForbiddenTransfer}
    {ban : EdgeBan} (hdvd : reference ∣ total)
    (h : bindSlice total reference rankCount item = .ok ban) (range : DataRange) :
    ban.data.intersects range ↔ range.Carries total reference item.sliceId := by
  unfold bindSlice at h
  simp only [Checked.bind_ok, Checked.ensure_ok] at h
  obtain ⟨_, hcount, _, hrank, h⟩ := h
  split at h
  · rename_i hnonempty
    rw [Checked.pure_ok] at h
    subst h
    have hreference : 0 < reference := by
      rcases Nat.eq_zero_or_pos reference with rfl | hpos
      · simp at hcount
      · exact hpos
    have hcount' : 0 < total / reference := Nat.pos_of_ne_zero hcount
    have htotal : total / reference * reference = total := Nat.div_mul_cancel hdvd
    constructor
    · -- the first common byte lies in the slice
      rintro ⟨hsource, hmeet⟩
      simp only at hsource hmeet
      have hindex : item.sliceId % (total / reference) < total / reference :=
        Nat.mod_lt _ hcount'
      have hend : (item.sliceId % (total / reference) + 1) * reference ≤ total := by
        calc (item.sliceId % (total / reference) + 1) * reference
            ≤ total / reference * reference := Nat.mul_le_mul_right _ hindex
          _ = total := htotal
      refine ⟨max (item.sliceId % (total / reference) * reference) range.start, le_max_right _ _,
        by omega, by omega, ?_⟩
      have hdiv : max (item.sliceId % (total / reference) * reference) range.start / reference =
          item.sliceId % (total / reference) :=
        Nat.div_eq_of_lt_le (le_max_left _ _) (by omega)
      rw [referenceSlice, hdiv, ← hsource]
      exact Nat.div_add_mod' _ _
    · rintro ⟨byte, hstart, hstop, hbyte, hslice⟩
      have hq : byte / reference < total / reference := by
        rw [Nat.div_lt_iff_lt_mul hreference, htotal]
        exact hbyte
      have hrankEq : item.sliceId / (total / reference) = range.sourceRank := by
        rw [← hslice, referenceSlice, Nat.mul_comm, Nat.mul_add_div hcount', Nat.div_eq_of_lt hq,
          Nat.add_zero]
      have hindexEq : item.sliceId % (total / reference) = byte / reference := by
        rw [← hslice, referenceSlice, Nat.mul_comm, Nat.mul_add_mod, Nat.mod_eq_of_lt hq]
      have hlower : byte / reference * reference ≤ byte := Nat.div_mul_le_self _ _
      have hupper : byte < (byte / reference + 1) * reference :=
        Nat.lt_mul_of_div_lt (Nat.lt_succ_self _) hreference
      refine ⟨hrankEq, ?_⟩
      simp only [hindexEq]
      omega
  · cases h

/-- A slice of the partition has its bytes on one of the ranks. -/
theorem bindSlice_total {total reference rankCount : ℕ} {item : ForbiddenTransfer}
    (hreference : reference ≠ 0) (h : item.sliceId < rankCount * (total / reference)) :
    ∃ ban, bindSlice total reference rankCount item = .ok ban := by
  have hcount : total / reference ≠ 0 := by
    intro hzero
    rw [hzero, Nat.mul_zero] at h
    exact Nat.not_lt_zero _ h
  have hrank : item.sliceId / (total / reference) < rankCount := by
    rw [Nat.div_lt_iff_lt_mul (Nat.pos_of_ne_zero hcount)]
    exact h
  have hnonempty : item.sliceId % (total / reference) * reference <
      (item.sliceId % (total / reference) + 1) * reference :=
    Nat.mul_lt_mul_of_pos_right (Nat.lt_succ_self _) (Nat.pos_of_ne_zero hreference)
  unfold bindSlice
  simp only [Checked.bind_ok, Checked.ensure_ok]
  rw [dif_pos hnonempty]
  exact ⟨_, (), hcount, (), hrank, rfl⟩

theorem bindSlice_edge {total reference rankCount : ℕ} {item : ForbiddenTransfer} {ban : EdgeBan}
    (h : bindSlice total reference rankCount item = .ok ban) :
    ban.srcRank = item.srcRank ∧ ban.dstRank = item.dstRank ∧ ban.stageId = item.stageId := by
  unfold bindSlice at h
  simp only [Checked.bind_ok] at h
  obtain ⟨_, _, _, _, h⟩ := h
  split at h
  · rw [Checked.pure_ok] at h
    subst h
    exact ⟨rfl, rfl, rfl⟩
  · cases h

/-- The constraints of a recorded request, with one ban for each banned transfer. -/
theorem bindConstraints_ok {request : ResolvedRequest} (h : Recorded request)
    (hd : InDomain request) :
    ∃ bans, request.bindConstraints =
        .ok ⟨bans, request.rankCount, request.atomConstraints.stageNum⟩ ∧
      (request.atomConstraints.forbiddenTransfers = [] ∧ bans = [] ∨
        ∃ size, request.hyperparameters.referenceSliceSizeBytes = some size ∧
          request.atomConstraints.forbiddenTransfers.mapM (bindSlice
            request.hyperparameters.totalSizeBytes size request.rankCount) = .ok bans) := by
  unfold ResolvedRequest.bindConstraints
  by_cases hne : request.atomConstraints.forbiddenTransfers = []
  · refine ⟨[], ?_, Or.inl ⟨hne, rfl⟩⟩
    rw [hne, bindBans_nil]
    rfl
  · obtain ⟨size, hsize, hreference⟩ := h.reference hne
    have htotal : ∀ item ∈ request.atomConstraints.forbiddenTransfers, ∃ ban,
        bindSlice request.hyperparameters.totalSizeBytes size request.rankCount item = .ok ban := by
      intro item hitem
      have hslice := hd.slices item hitem
      rw [hreference, Option.getD_some] at hslice
      exact bindSlice_total hsize hslice
    obtain ⟨bans, hbans⟩ := Checked.mapM_total htotal
    refine ⟨bans, ?_, Or.inr ⟨size, hreference, hbans⟩⟩
    rw [referenceSize_eq hsize hreference, bindBans, hbans]
    rfl

/-- **What the constraints allow.**  A transfer between two ranks in a stage that exists is
allowed exactly when it carries no byte of a slice that is banned on its edge and stage. -/
theorem allows_iff {request : ResolvedRequest} (h : Recorded request) (hd : InDomain request)
    {contributors : List DataRange} {srcRank dstRank stageId : ℕ} :
    request.Allows contributors srcRank dstRank stageId ↔
      srcRank < request.rankCount ∧ dstRank < request.rankCount ∧ srcRank ≠ dstRank ∧
      (∀ count ∈ request.atomConstraints.stageNum, stageId < count) ∧ contributors ≠ [] ∧
      ∀ item ∈ request.atomConstraints.forbiddenTransfers, item.srcRank = srcRank →
        item.dstRank = dstRank → item.stageId = stageId →
        ∀ size ∈ request.hyperparameters.referenceSliceSizeBytes, ∀ piece ∈ contributors,
          ¬ piece.Carries request.hyperparameters.totalSizeBytes size item.sliceId := by
  obtain ⟨bans, hbind, hbans⟩ := bindConstraints_ok h hd
  -- a ban on the edge that meets a piece is a banned transfer a byte of which is carried
  have hmeets : (∃ ban ∈ bans, (ban.srcRank = srcRank ∧ ban.dstRank = dstRank ∧
      ban.stageId = stageId) ∧ ∃ piece ∈ contributors, ban.data.intersects piece) ↔
      ∃ item ∈ request.atomConstraints.forbiddenTransfers, item.srcRank = srcRank ∧
        item.dstRank = dstRank ∧ item.stageId = stageId ∧
        ∃ size ∈ request.hyperparameters.referenceSliceSizeBytes, ∃ piece ∈ contributors,
          piece.Carries request.hyperparameters.totalSizeBytes size item.sliceId := by
    rcases hbans with ⟨hnil, rfl⟩ | ⟨size, hsize, hmap⟩
    · simp [hnil]
    · have hdvd := hd.divides size hsize
      constructor
      · rintro ⟨ban, hban, ⟨hsrc, hdst, hstage⟩, piece, hpiece, hmeet⟩
        obtain ⟨item, hitem, hslice⟩ := Checked.mapM_right hmap hban
        obtain ⟨hs, hd', ht⟩ := bindSlice_edge hslice
        exact ⟨item, hitem, hs ▸ hsrc, hd' ▸ hdst, ht ▸ hstage, size, hsize, piece, hpiece,
          (bindSlice_intersects hdvd hslice piece).mp hmeet⟩
      · rintro ⟨item, hitem, hsrc, hdst, hstage, size', hsize', piece, hpiece, hcarries⟩
        rw [hsize] at hsize'
        cases hsize'
        obtain ⟨ban, hban, hslice⟩ := Checked.mapM_left hmap hitem
        obtain ⟨hs, hd', ht⟩ := bindSlice_edge hslice
        exact ⟨ban, hban, ⟨hs.trans hsrc, hd'.trans hdst, ht.trans hstage⟩, piece, hpiece,
          (bindSlice_intersects hdvd hslice piece).mpr hcarries⟩
  unfold ResolvedRequest.Allows
  rw [hbind]
  simp only [Except.ok.injEq, exists_eq_left']
  rw [allows_ok, hmeets]
  constructor
  · rintro ⟨hsrc, hdst, hne, hstage, hcontributors, hfree⟩
    refine ⟨hsrc, hdst, hne, hstage, hcontributors, ?_⟩
    intro item hitem hs hd' ht size hsize piece hpiece hcarries
    exact hfree ⟨item, hitem, hs, hd', ht, size, hsize, piece, hpiece, hcarries⟩
  · rintro ⟨hsrc, hdst, hne, hstage, hcontributors, hfree⟩
    refine ⟨hsrc, hdst, hne, hstage, hcontributors, ?_⟩
    rintro ⟨item, hitem, hs, hd', ht, size, hsize, piece, hpiece, hcarries⟩
    exact hfree item hitem hs hd' ht size hsize piece hpiece hcarries

/-- **Hard edge bans do not depend on the partition.**  However a slice size is bound, and
however often, a transfer of byte ranges is allowed exactly when the resolved request allows
it; and a transfer that carries a byte of a banned slice over its edge, in its stage, never
is, whatever else it carries. -/
theorem bans_independent_of_partition {digest : Json → String} {redact : String → String}
    {purpose : Purpose} {overrideInput : Bool} {overrides : List (String × Json)}
    {files : Documents} {origin request : ResolvedRequest}
    (ho : resolveRequest digest purpose overrideInput overrides files = .ok origin)
    (h : Repartitioned digest redact origin request) :
    (∃ set, origin.bindConstraints = .ok set ∧ request.bindConstraints = .ok set) ∧
    (∀ contributors srcRank dstRank stageId,
      request.Allows contributors srcRank dstRank stageId ↔
        origin.Allows contributors srcRank dstRank stageId) ∧
    ∀ item ∈ origin.atomConstraints.forbiddenTransfers, ∃ size,
      origin.hyperparameters.referenceSliceSizeBytes = some size ∧
      ∀ contributors : List DataRange, (∃ piece ∈ contributors,
          piece.Carries origin.hyperparameters.totalSizeBytes size item.sliceId) →
        ¬ request.Allows contributors item.srcRank item.dstRank item.stageId := by
  obtain ⟨hrecorded, hdomain⟩ := resolveRequest_recorded ho
  obtain ⟨_, hagrees⟩ := repartitioned_agrees hrecorded h
  have hbind := hagrees.bindConstraints hrecorded
  have hsame : ∀ contributors srcRank dstRank stageId,
      request.Allows contributors srcRank dstRank stageId ↔
        origin.Allows contributors srcRank dstRank stageId := by
    intro contributors srcRank dstRank stageId
    unfold ResolvedRequest.Allows
    rw [hbind]
  refine ⟨?_, hsame, ?_⟩
  · obtain ⟨bans, hset, _⟩ := bindConstraints_ok hrecorded hdomain
    exact ⟨_, hset, hbind.trans hset⟩
  · intro item hitem
    obtain ⟨size, _, hsize⟩ := hrecorded.reference (List.ne_nil_of_mem hitem)
    refine ⟨size, hsize, ?_⟩
    rintro contributors ⟨piece, hpiece, hcarries⟩ hallows
    obtain ⟨_, _, _, _, _, hfree⟩ := (allows_iff hrecorded hdomain).mp ((hsame _ _ _ _).mp hallows)
    exact hfree item hitem rfl rfl rfl size hsize piece hpiece hcarries

theorem exists_of_any {ε α : Type} {x : Except ε α} {p : α → Bool} (h : x.toOption.any p = true) :
    ∃ a, x = .ok a ∧ p a = true := by
  cases x with
  | error e => cases h
  | ok a => exact ⟨a, rfl, h⟩

/-- The legacy documents with slices of four bytes, bound to one slice of eight: bytes 4 to 8
of rank 0, among the eight that are sent, stay banned on the link from 0 to 1. -/
theorem bans_independent_of_partition_legacy : ∃ origin request,
    resolveRequest (fun _ => "") .solve false [("sketch.hyperparameters.slice_size_bytes", .int 4)]
      legacyDocuments = .ok origin ∧
    resolveParameters origin ⟨2, 8, 1⟩ = .ok request ∧
    (∃ set, origin.bindConstraints = .ok set ∧ request.bindConstraints = .ok set) ∧
    (∀ contributors srcRank dstRank stageId,
      request.Allows contributors srcRank dstRank stageId ↔
        origin.Allows contributors srcRank dstRank stageId) ∧
    ∀ item ∈ origin.atomConstraints.forbiddenTransfers, ∃ size,
      origin.hyperparameters.referenceSliceSizeBytes = some size ∧
      ∀ contributors : List DataRange, (∃ piece ∈ contributors,
          piece.Carries origin.hyperparameters.totalSizeBytes size item.sliceId) →
        ¬ request.Allows contributors item.srcRank item.dstRank item.stageId := by
  obtain ⟨origin, ho, hp⟩ := exists_of_any (show (resolveRequest (fun _ => "") .solve false
    [("sketch.hyperparameters.slice_size_bytes", .int 4)] legacyDocuments).toOption.any
      (fun origin => (resolveParameters origin ⟨2, 8, 1⟩).isOk) = true by decide +kernel)
  obtain ⟨request, hrequest⟩ := exists_of_isOk hp
  have hbound : Repartitioned (fun _ => "") id origin request := .parameters .origin hrequest
  exact ⟨origin, request, ho, hrequest, bans_independent_of_partition ho hbound⟩

/-! ## The constraints of lowering -/

/-- The input of lowering is a request whose slice size is bound. -/
structure ResolvedInput.Presents (inputs : ResolvedInput) (request : ResolvedRequest) : Prop where
  ranks : request.rankCount = inputs.rankCount
  total : request.hyperparameters.totalSizeBytes = inputs.totalSizeBytes
  slice : request.hyperparameters.sliceSizeBytes = some inputs.sliceSizeBytes
  reference : request.hyperparameters.referenceSliceSizeBytes = inputs.referenceSliceSizeBytes
  stage : request.atomConstraints.stageNum = inputs.stageNum
  forbidden : request.atomConstraints.forbiddenTransfers = inputs.forbiddenTransfers

theorem bindTransfer_eq (inputs : ResolvedInput) (item : ForbiddenTransfer) :
    bindTransfer inputs item =
      bindSlice inputs.totalSizeBytes inputs.reference inputs.rankCount item := by
  have hdvd : inputs.reference ∣ inputs.totalSizeBytes := by
    unfold ResolvedInput.reference
    cases h : inputs.referenceSliceSizeBytes with
    | none => exact inputs.slice_dvd
    | some size => exact (inputs.reference_ok size h).2
  have hcount : inputs.totalSizeBytes / inputs.reference ≠ 0 :=
    (Nat.div_pos (Nat.le_of_dvd inputs.total_pos hdvd) inputs.reference_pos).ne'
  have hnonempty : item.sliceId % (inputs.totalSizeBytes / inputs.reference) * inputs.reference <
      (item.sliceId % (inputs.totalSizeBytes / inputs.reference) + 1) * inputs.reference :=
    Nat.mul_lt_mul_of_pos_right (Nat.lt_succ_self _) inputs.reference_pos
  unfold bindTransfer bindSlice
  simp only [Checked.ensure, if_pos hcount, dif_pos hnonempty]
  rfl

/-- **Lowering binds the constraints of the request it presents.** -/
theorem bindConstraints_presents {inputs : ResolvedInput} {request : ResolvedRequest}
    (h : inputs.Presents request) : bindConstraints inputs = request.bindConstraints := by
  have hreference : request.hyperparameters.referenceSize = some inputs.reference := by
    unfold ResolvedInput.reference
    cases hr : inputs.referenceSliceSizeBytes with
    | none =>
      unfold Hyperparameters.referenceSize
      rw [h.reference, hr, h.slice]
      rfl
    | some size =>
      exact referenceSize_eq (inputs.reference_ok size hr).1.ne' (h.reference.trans hr)
  unfold bindConstraints ResolvedRequest.bindConstraints
  rw [hreference, bindBans, h.ranks, h.total, h.forbidden, h.stage]
  simp only [funext (bindTransfer_eq inputs)]

end VeriCCL
