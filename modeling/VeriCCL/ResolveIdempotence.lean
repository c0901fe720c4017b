import VeriCCL.ResolveStability

/-! # A resolved request resolves to itself

Documents that the schemas accept have no field that migration would move or reject, so
migration returns them as they are.  With the stability of the sections, resolving the
documents of a resolved request gives the same request. -/
namespace VeriCCL

/-! ## Migration of normalized documents -/

/-- A name that is not one of the removed fields. -/
def Kept (name : String) : Prop := name ∉ removedFields

instance : DecidablePred Kept := fun name => inferInstanceAs (Decidable (name ∉ removedFields))

mutual

/-- Documents without removed names pass. -/
theorem rejectRemoved_ok : ∀ {json : Json}, json.AllNames Kept →
    ∀ path, rejectRemoved json path = .ok ()
  | .null, _, _ | .bool _, _, _ | .num _, _, _ | .str _, _, _ => by rw [rejectRemoved]
  | .arr items, h, path => by
    rw [Json.AllNames] at h
    rw [rejectRemoved]
    exact rejectRemovedItems_ok h path
  | .obj fields, h, path => by
    rw [Json.AllNames] at h
    rw [rejectRemoved]
    exact rejectRemovedFields_ok h path

theorem rejectRemovedItems_ok : ∀ {items : List Json}, Json.AllNamesItems Kept items →
    ∀ path, rejectRemovedItems items path = .ok ()
  | [], _, path => by rw [rejectRemovedItems]
  | item :: items, h, path => by
    rw [Json.AllNamesItems] at h
    rw [rejectRemovedItems, Checked.bind_ok]
    exact ⟨(), rejectRemoved_ok h.1 path, rejectRemovedItems_ok h.2 path⟩

theorem rejectRemovedFields_ok : ∀ {fields : List (String × Json)},
    Json.AllNamesFields Kept fields → ∀ path, rejectRemovedFields fields path = .ok ()
  | [], _, path => by rw [rejectRemovedFields]
  | (key, item) :: fields, h, path => by
    rw [Json.AllNamesFields] at h
    obtain ⟨hkey, hitem, hfields⟩ := h
    rw [rejectRemovedFields]
    simp only [Checked.bind_ok, Checked.ensure_ok]
    exact ⟨(), hkey, (), rejectRemoved_ok hitem _, rejectRemovedFields_ok hfields path⟩

end

/-- A sketch without settings in legacy places. -/
structure PlacedSketch (sketch : List (String × Json)) : Prop where
  hyper : ∃ hyper, Dict.get? sketch "hyperparameters" = some (.obj hyper) ∧
    ∀ key ∈ "total_solve_timeout_s" :: solverLegacyKeys, Dict.get? hyper key = none
  solver : ∃ solver, Dict.get? sketch "solver" = some (.obj solver) ∧
    Dict.get? solver "total_solve_timeout_s" = none

/-- A sketch without removed fields, legacy spellings or settings in legacy places. -/
structure CurrentSketch (sketch : List (String × Json)) : Prop extends PlacedSketch sketch where
  names : (Json.obj sketch).AllNames Kept
  operator : ∃ collective name, Dict.get? sketch "collective" = some (.obj collective) ∧
    Dict.get? collective "operator" = some (.str name) ∧ normalizeOperator (.str name) = .str name

/-- The algorithm booleans that are no longer accepted. -/
def algorithmBooleans : List String := ["hierarchy", "constructive_trees", "milp"]

/-- An atom file without settings in legacy places. -/
structure PlacedAtom (atom : List (String × Json)) : Prop where
  settings : ∀ key ∈ algorithmBooleans ++ strategyLegacyKeys, Dict.get? atom key = none
  strategies : ∃ strategies, Dict.get? atom "strategies" = some (.obj strategies) ∧
    ∀ key ∈ algorithmBooleans, Dict.get? strategies key = none

/-- A loop whose every turn returns what it is given returns that. -/
theorem foldlM_const {α : Type} {f : Json → α → Except InputFault Json} {json : Json} {l : List α}
    (h : ∀ a ∈ l, f json a = .ok json) : l.foldlM f json = .ok json := by
  induction l with
  | nil => rfl
  | cons a l ih =>
    rw [List.foldlM_cons, h a List.mem_cons_self]
    exact ih fun b hb => h b (List.mem_cons_of_mem _ hb)

theorem CurrentSketch.migrateOperator {sketch : List (String × Json)} (h : CurrentSketch sketch) :
    migrateOperator (.obj sketch) = .obj sketch := by
  obtain ⟨collective, name, hcollective, hname, hnormal⟩ := h.operator
  unfold VeriCCL.migrateOperator
  simp only [Json.get?_obj, hcollective, hname, hnormal, Json.set_obj, Dict.set_eq_self hname,
    Dict.set_eq_self hcollective]

theorem PlacedSketch.migrateTotal {sketch : List (String × Json)} (h : PlacedSketch sketch) :
    migrateTotal (.obj sketch) = .ok (.obj sketch) := by
  obtain ⟨hyper, hhyper, hnone⟩ := h.hyper
  obtain ⟨solver, hsolver, hnone'⟩ := h.solver
  have hfirst : popTotal (.obj sketch) "hyperparameters" = (.obj sketch, []) := by
    simp only [popTotal, Json.get?_obj, hhyper, hnone _ List.mem_cons_self]
  have hsecond : popTotal (.obj sketch) "solver" = (.obj sketch, []) := by
    simp only [popTotal, Json.get?_obj, hsolver, hnone']
  unfold VeriCCL.migrateTotal
  simp only [hfirst, hsecond, List.append_nil]

theorem PlacedSketch.migrateSolver {sketch : List (String × Json)} (h : PlacedSketch sketch) :
    solverLegacyKeys.foldlM migrateSolverKey (.obj sketch) = .ok (.obj sketch) := by
  obtain ⟨hyper, hhyper, hnone⟩ := h.hyper
  apply foldlM_const
  intro key hkey
  simp only [migrateSolverKey, Json.get?_obj, hhyper, hnone key (List.mem_cons_of_mem _ hkey)]

theorem PlacedAtom.rejectBooleans {atom : List (String × Json)} (h : PlacedAtom atom) :
    algorithmBooleans.forM (rejectAlgorithmBoolean (.obj atom)) = .ok () := by
  obtain ⟨strategies, hstrategies, hnone⟩ := h.strategies
  apply Checked.forM_ok.mpr
  intro key hkey
  rw [rejectAlgorithmBoolean, Checked.ensure_ok]
  refine ⟨h.settings key (List.mem_append_left _ hkey), ?_⟩
  rw [Json.get?_obj, hstrategies]
  rintro _ ⟨⟩
  exact hnone key hkey

theorem PlacedAtom.migrateStrategies {atom : List (String × Json)} (h : PlacedAtom atom) :
    strategyLegacyKeys.foldlM migrateStrategyKey (.obj atom) = .ok (.obj atom) := by
  apply foldlM_const
  intro key hkey
  simp only [migrateStrategyKey, Json.get?_obj, h.settings key (List.mem_append_right _ hkey)]

/-- **Migration leaves current documents alone.** -/
theorem migrate_current {documents : Documents} {sketch atom : List (String × Json)}
    (hsketch : documents.sketch = .obj sketch) (hatom : documents.atom = .obj atom)
    (hs : CurrentSketch sketch) (ha : PlacedAtom atom) (hnames : (Json.obj atom).AllNames Kept) :
    migrate documents = .ok documents := by
  unfold migrate
  simp only [Checked.bind_ok, Checked.pure_ok]
  rw [hsketch, hatom]
  refine ⟨(), rejectRemoved_ok hs.names _, (), rejectRemoved_ok hnames _, .obj sketch, ?_, .obj sketch,
    hs.migrateSolver, (), ha.rejectBooleans, .obj atom, ha.migrateStrategies, ?_⟩
  · rw [hs.migrateOperator]
    exact hs.migrateTotal
  · rw [← hsketch, ← hatom]

/-! ## The sections of normalized documents -/

/-- A section of a normalized document is normalized. -/
theorem Normalized.part {spec : Spec} {path : String} {fields : List (String × Json)}
    (h : Normalized spec path fields) (hnodup : (spec.properties.map (·.1)).Nodup) {key : String}
    {child : Spec} (hmem : (key, child) ∈ spec.properties)
    (hkept : key ∈ spec.required ∨ child.default ≠ none)
    (hobject : child.isObject = true)
    (hw : child.wellFormed = true) :
    ∃ inner, Dict.get? fields key = some (.obj inner) ∧
      Normalized child (path ++ "." ++ key) inner := by
  obtain ⟨value, hvalue, hfix⟩ := h.present hnodup hmem hkept
  obtain ⟨inner, rfl, hinner⟩ := normalize_normalized hobject hw hfix
  exact ⟨inner, hvalue, hinner⟩

theorem sketch_nodup : (RequestSchema.sketch.properties.map (·.1)).Nodup := by decide

theorem atom_nodup : (RequestSchema.atom.properties.map (·.1)).Nodup := by decide

section Sketch

variable {path : String} {sketch : List (String × Json)}
  (h : Normalized RequestSchema.sketch path sketch)

include h

theorem sketch_collective : ∃ inner, Dict.get? sketch "collective" = some (.obj inner) ∧
    Normalized RequestSchema.collective (path ++ "." ++ "collective") inner :=
  h.part sketch_nodup (by simp [RequestSchema.sketch, RequestSchema.obj, Spec.properties])
    (Or.inl (by simp [RequestSchema.sketch, RequestSchema.obj, Spec.required]))
    (by rfl) (by rfl)

theorem sketch_hyperparameters : ∃ inner, Dict.get? sketch "hyperparameters" = some (.obj inner) ∧
    Normalized RequestSchema.hyperparameters (path ++ "." ++ "hyperparameters") inner :=
  h.part sketch_nodup (by simp [RequestSchema.sketch, RequestSchema.obj, Spec.properties])
    (Or.inl (by simp [RequestSchema.sketch, RequestSchema.obj, Spec.required]))
    (by rfl) (by rfl)

theorem sketch_solver : ∃ inner, Dict.get? sketch "solver" = some (.obj inner) ∧
    Normalized RequestSchema.solver (path ++ "." ++ "solver") inner :=
  h.part sketch_nodup (by simp [RequestSchema.sketch, RequestSchema.obj, Spec.properties])
    (Or.inr (by simp [RequestSchema.solver, RequestSchema.optionalSection, Spec.default]))
    (by rfl) (by rfl)

end Sketch

/-- Current spellings. -/
theorem operator_spelling : ∀ name ∈ ["broadcast", "reduce", "allgather", "allreduce", "alltoall",
    "reduce_scatter"], normalizeOperator (.str name) = .str name := by
  have hspelling : ∀ name ∈ ["broadcast", "reduce", "allgather", "allreduce", "alltoall",
      "reduce_scatter"], (operatorAliases.get? name.toLower).getD name.toLower = name := by
    with_unfolding_all decide
  exact fun name hname => congrArg Json.str (hspelling name hname)

/-- The operators the schema accepts are in their current spelling. -/
theorem operator_current {path : String} {collective : List (String × Json)}
    (h : Normalized RequestSchema.collective path collective) {name : String}
    (hname : Dict.get? collective "operator" = some (.str name)) :
    normalizeOperator (.str name) = .str name := by
  have hmem : ("operator", RequestSchema.choice ["broadcast", "reduce", "allgather", "allreduce",
      "alltoall", "reduce_scatter"] none) ∈ RequestSchema.collective.properties := by
    simp [RequestSchema.collective, RequestSchema.obj, Spec.properties]
  obtain ⟨haccepts, _⟩ := (normalize_scalar rfl).mp (collective_fixed h hmem _ hname)
  exact operator_spelling name (haccepts.2.2.2 _ rfl)

/-- Normalized fields have none at a name that is no property of the schema. -/
theorem Normalized.absent {spec : Spec} {path : String} {fields : List (String × Json)}
    (h : Normalized spec path fields) {names : List String}
    (hnames : ∀ name ∈ names, name ∉ spec.properties.map (·.1)) :
    ∀ name ∈ names, Dict.get? fields name = none :=
  fun name hname => h.get?_eq_none (hnames name hname)

/-- Completing the collective section adds no name that the schema does not have. -/
theorem completed_names {path : String} {fields out : List (String × Json)} {kind : CollectiveKind}
    {P : String → Prop} (hnames : ∀ name ∈ RequestSchema.collective.names, P name)
    (hn : Normalized RequestSchema.collective path fields) (hc : Completed fields out kind) :
    (Json.obj out).AllNames P := by
  have hdistinct := hc.distinct (hn.distinct collective_nodup)
  have hkeys : ∀ name ∈ RequestSchema.collective.properties.map (·.1),
      name ∈ RequestSchema.collective.names := by decide
  have hbelow : ∀ property ∈ RequestSchema.collective.properties, ∀ name ∈ property.2.names,
      name ∈ RequestSchema.collective.names := by decide
  rw [Json.allNames_obj]
  intro entry hentry
  have hget := Dict.get?_of_mem hdistinct (k := entry.1) (v := entry.2) hentry
  have hknown := completed_keys hn hc (Dict.get?_isSome.mp ⟨_, hget⟩)
  refine ⟨hnames _ (hkeys _ hknown), ?_⟩
  obtain ⟨property, hp, hpkey⟩ := List.mem_map.mp hknown
  rcases completed_property hn hc hp with hskip | ⟨value, hvalue, hfix⟩
  · -- a field that is left out is there as `null`
    have hnull : entry.2.isNull = true := by
      unfold skipped at hskip
      rw [hpkey, hget, Option.getD_some] at hskip
      simp only [Bool.and_eq_true] at hskip
      exact hskip.1.1
    have : entry.2 = .null := by
      cases hv : entry.2 <;> rw [hv] at hnull <;> first | rfl | cases hnull
    rw [this]
    exact Json.allNames_null
  · rw [hpkey, hget] at hvalue
    cases hvalue
    exact normalize_names property.2 (fun name hname => hnames _ (hbelow property hp name hname)) hfix

/-- The names in a normalized section are names of its schema. -/
theorem Normalized.names {spec : Spec} {path : String} {fields : List (String × Json)}
    {P : String → Prop} (hnames : ∀ name ∈ spec.names, P name) (h : Normalized spec path fields) :
    (Json.obj fields).AllNames P := by
  have hproperties : ∀ name ∈ Spec.propertyNames spec.properties, P name := by
    cases spec with
    | object properties required default =>
      rw [Spec.names] at hnames
      exact hnames
    | _ => exact fun name hname => absurd hname (by simp [Spec.properties, Spec.propertyNames])
  exact Json.allNames_obj.mpr (normalizeProperties_names _ hproperties h)

theorem atom_strategies {path : String} {atom : List (String × Json)}
    (h : Normalized RequestSchema.atom path atom) :
    ∃ inner, Dict.get? atom "strategies" = some (.obj inner) ∧
      Normalized RequestSchema.strategies (path ++ "." ++ "strategies") inner :=
  h.part atom_nodup (by simp [RequestSchema.atom, RequestSchema.obj, Spec.properties])
    (Or.inr (by simp [RequestSchema.strategies, RequestSchema.optionalSection, Spec.default]))
    (by rfl) (by rfl)

/-- A normalized atom file has its settings in place. -/
theorem atom_placed {path : String} {atom : List (String × Json)}
    (h : Normalized RequestSchema.atom path atom) : PlacedAtom atom where
  settings := h.absent (by decide)
  strategies := by
    obtain ⟨strategies, hget, hn⟩ := atom_strategies h
    exact ⟨strategies, hget, hn.absent (by decide)⟩

/-- A normalized sketch stays current when its collective section is completed and its
reference size recorded. -/
theorem sketch_current {path : String} {sketch collective completed hyper : List (String × Json)}
    {kind : CollectiveKind} {path' : String} (h : Normalized RequestSchema.sketch path sketch)
    (hn : Normalized RequestSchema.collective path' collective)
    (hc : Completed collective completed kind) {path'' : String}
    (hh : Normalized RequestSchema.hyperparameters path'' hyper) :
    CurrentSketch (Dict.set (Dict.set sketch "collective" (.obj completed)) "hyperparameters"
      (.obj hyper)) where
  names := by
    have hsketch : (Json.obj sketch).AllNames Kept := h.names (by decide)
    have hhyper : (Json.obj hyper).AllNames Kept := hh.names (by decide)
    have hcompleted : (Json.obj completed).AllNames Kept :=
      completed_names (by decide) hn hc
    exact (hsketch.set (by decide) hcompleted).set (by decide) hhyper
  operator := by
    obtain ⟨name, hname, _⟩ := hc.kind_eq
    refine ⟨completed, name, ?_, ?_, operator_current hn hname⟩
    · rw [Dict.get?_set_ne _ _ (by decide), Dict.get?_set_self]
    · rw [hc.get?, if_neg (by decide), if_neg (by decide)]
      exact hname
  hyper := ⟨hyper, Dict.get?_set_self _ _ _, hh.absent (by decide)⟩
  solver := by
    obtain ⟨solver, hget, hsolver⟩ := sketch_solver h
    refine ⟨solver, ?_, hsolver.get?_eq_none (by decide)⟩
    rw [Dict.get?_set_ne _ _ (by decide), Dict.get?_set_ne _ _ (by decide)]
    exact hget

/-! ## The whole resolver -/

/-- The documents with sorted keys. -/
def Documents.canonical (documents : Documents) : Documents where
  topology := documents.topology.canonical
  sketch := documents.sketch.canonical
  atom := documents.atom.canonical
  runtime := documents.runtime.canonical

/-- A request with its documents in canonical form: two requests are the same when these
agree. -/
def ResolvedRequest.canonical (request : ResolvedRequest) : ResolvedRequest :=
  { request with
    requestConfig := request.requestConfig.canonical
    requiredCapabilities := request.requiredCapabilities.canonical }

/-- Documents that agree up to the order of fields have one hash. -/
theorem Documents.toJson_canonical {a b : Documents} (h : a.canonical = b.canonical) :
    a.toJson.canonical = b.toJson.canonical := by
  simp only [Documents.canonical, Documents.mk.injEq] at h
  obtain ⟨htopology, hsketch, hatom, hruntime⟩ := h
  simp only [Documents.toJson, Json.canonical_obj, List.map_cons, List.map_nil, htopology, hsketch,
    hatom, hruntime]

theorem readCollective_congr {f g : List (String × Json)}
    (h : ∀ j, Dict.get? f j = Dict.get? g j) :
    readCollective (.obj f) = readCollective (.obj g) := by
  simp only [readCollective, Json.field, Json.get?_obj, h]

/-- The recorded reference size passes the checks that the given sizes passed. -/
theorem checkSizes_record {spec : CollectiveSpec} {ranks element : ℕ} {sizes : Sizes}
    {forbidden : List ForbiddenTransfer} {reference : Option ℕ}
    (h : checkSizes spec ranks sizes = .ok element)
    (hr : bindReference forbidden sizes = .ok reference) :
    checkSizes spec ranks { sizes with reference := reference } = .ok element := by
  unfold checkSizes at h ⊢
  simp only [Checked.bind_ok, Checked.required_ok, Checked.ensure_ok, Checked.pure_ok, checkSlice]
    at h ⊢
  obtain ⟨e, he, _, htotal, _, hslice, _, hreference, _, hvalid, rfl⟩ := h
  refine ⟨e, he, (), htotal, (), hslice, (), ?_, (), hvalid, rfl⟩
  rcases bindReference_ok hr with ⟨_, rfl⟩ | ⟨_, size, rfl, hsize | ⟨_, hsize⟩⟩
  · exact hreference
  · rw [← hsize]
    exact hreference
  · rw [← hsize]
    exact hslice

theorem bindReference_record {forbidden : List ForbiddenTransfer} {sizes : Sizes}
    {reference : Option ℕ} (hr : bindReference forbidden sizes = .ok reference) :
    bindReference forbidden { sizes with reference := reference } = .ok reference := by
  rcases bindReference_ok hr with ⟨rfl, rfl⟩ | ⟨hf, size, rfl, _⟩
  · rfl
  · unfold bindReference
    rw [if_neg hf]
    rfl

/-- What normalization makes of the documents. -/
structure NormalDocuments (config : Documents) (sketch atom : List (String × Json)) : Prop where
  topology : normalize RequestSchema.topology "topology" config.topology = .ok config.topology
  sketch_eq : config.sketch = .obj sketch
  sketch : Normalized RequestSchema.sketch "sketch" sketch
  atom_eq : config.atom = .obj atom
  atom : Normalized RequestSchema.atom "atom" atom
  runtime : normalize RequestSchema.runtime "runtime" config.runtime = .ok config.runtime

theorem normalizeDocuments_ok {documents config : Documents}
    (h : normalizeDocuments documents = .ok config) :
    ∃ sketch atom, NormalDocuments config sketch atom := by
  unfold normalizeDocuments at h
  simp only [Checked.bind_ok, Checked.pure_ok] at h
  obtain ⟨topology, htopology, sketch, hsketch, atom, hatom, runtime, hruntime, rfl⟩ := h
  obtain ⟨sketch, rfl, hs⟩ := normalize_normalized (by rfl) (by rfl) hsketch
  obtain ⟨atom, rfl, ha⟩ := normalize_normalized (by rfl) (by rfl) hatom
  exact ⟨sketch, atom, normalize_idem _ (by rfl) htopology, rfl, hs, rfl, ha,
    normalize_idem _ (by rfl) hruntime⟩

/-- The sketch with the two sections the resolver writes to. -/
def rewriteSketch (sketch collective hyper : List (String × Json)) : List (String × Json) :=
  Dict.set (Dict.set sketch "collective" (.obj collective)) "hyperparameters" (.obj hyper)

theorem rewriteSketch_collective (sketch collective hyper : List (String × Json)) :
    Dict.get? (rewriteSketch sketch collective hyper) "collective" = some (.obj collective) := by
  rw [rewriteSketch, Dict.get?_set_ne _ _ (by decide), Dict.get?_set_self]

theorem rewriteSketch_hyper (sketch collective hyper : List (String × Json)) :
    Dict.get? (rewriteSketch sketch collective hyper) "hyperparameters" = some (.obj hyper) :=
  Dict.get?_set_self _ _ _

theorem rewriteSketch_other {sketch collective hyper : List (String × Json)} {key : String}
    (hc : "collective" ≠ key) (hh : "hyperparameters" ≠ key) :
    Dict.get? (rewriteSketch sketch collective hyper) key = Dict.get? sketch key := by
  rw [rewriteSketch, Dict.get?_set_ne _ _ hh, Dict.get?_set_ne _ _ hc]

/-- The sections the checks read are not those the resolver writes to. -/
theorem sections_rewrite {sketch collective hyper : List (String × Json)} :
    Sections.read (.obj (rewriteSketch sketch collective hyper)) = Sections.read (.obj sketch) := by
  unfold Sections.read
  simp only [Json.field, Json.get?_obj]
  rw [rewriteSketch_other (by decide) (by decide), rewriteSketch_other (by decide) (by decide),
    rewriteSketch_other (by decide) (by decide), rewriteSketch_other (by decide) (by decide),
    rewriteSketch_other (by decide) (by decide), rewriteSketch_other (by decide) (by decide)]

/-- Normalization of a rewritten sketch normalizes the two sections. -/
theorem rewriteSketch_normalize {sketch collective again hyper : List (String × Json)}
    (h : Normalized RequestSchema.sketch "sketch" sketch)
    (hc : normalize RequestSchema.collective ("sketch" ++ "." ++ "collective") (.obj collective) =
      .ok (.obj again))
    (hh : Normalized RequestSchema.hyperparameters ("sketch" ++ "." ++ "hyperparameters") hyper) :
    normalize RequestSchema.sketch "sketch" (.obj (rewriteSketch sketch collective hyper)) =
      .ok (.obj (rewriteSketch sketch again hyper)) := by
  obtain ⟨fields, hfields, _⟩ := sketch_collective h
  obtain ⟨sizeFields, hsizeFields, _⟩ := sketch_hyperparameters h
  have hmem : ("collective", RequestSchema.collective) ∈ RequestSchema.sketch.properties ∧
      ("hyperparameters", RequestSchema.hyperparameters) ∈ RequestSchema.sketch.properties := by
    simp [RequestSchema.sketch, RequestSchema.obj, Spec.properties]
  have hfirst := normalizeProperties_set sketch_nodup h hmem.1
    (Dict.get?_isSome.mp ⟨_, hfields⟩) (fun he => by cases he) hc
  have hhyper : normalize RequestSchema.hyperparameters ("sketch" ++ "." ++ "hyperparameters")
      (.obj hyper) = .ok (.obj hyper) :=
    normalize_object_obj.mpr ⟨fun key hkey => hh.keys_subset hkey, hh⟩
  have hkey : "hyperparameters" ∈ Dict.keys (Dict.set sketch "collective" (.obj again)) :=
    Dict.mem_keys_set.mpr (Or.inr (Dict.get?_isSome.mp ⟨_, hsizeFields⟩))
  have hsecond := normalizeProperties_set sketch_nodup hfirst hmem.2 hkey (fun he => by cases he)
    hhyper
  refine normalize_object_obj.mpr ⟨?_, hsecond⟩
  intro key hkey
  rcases Dict.mem_keys_set.mp hkey with rfl | hkey
  · exact List.mem_map.mpr ⟨_, hmem.2, rfl⟩
  · rcases Dict.mem_keys_set.mp hkey with rfl | hkey
    · exact List.mem_map.mpr ⟨_, hmem.1, rfl⟩
    · exact h.keys_subset hkey

/-- Sections with the same fields make the same sketch. -/
theorem rewriteSketch_canonical {sketch collective again last hyper : List (String × Json)}
    (h : Dict.Distinct sketch) (hc : Dict.Distinct collective) (hl : Dict.Distinct last)
    (hsame : ∀ j, Dict.get? last j = Dict.get? collective j) :
    (Json.obj (rewriteSketch (rewriteSketch sketch again hyper) last hyper)).canonical =
      (Json.obj (rewriteSketch sketch collective hyper)).canonical := by
  have hobj : (Json.obj last).canonical = (Json.obj collective).canonical :=
    Json.canonical_ext hl hc fun key => by rw [hsame]
  have hdistinct : ∀ {sketch a b : List (String × Json)}, Dict.Distinct sketch →
      Dict.Distinct (rewriteSketch sketch a b) := fun hs => (hs.set _ _).set _ _
  apply Json.canonical_ext (hdistinct (hdistinct h)) (hdistinct h)
  intro key
  by_cases hkey : "collective" = key
  · subst hkey
    rw [rewriteSketch_collective, rewriteSketch_collective, Option.map_some, Option.map_some, hobj]
  · by_cases hkey' : "hyperparameters" = key
    · subst hkey'
      rw [rewriteSketch_hyper, rewriteSketch_hyper]
    · rw [rewriteSketch_other hkey hkey', rewriteSketch_other hkey hkey',
        rewriteSketch_other hkey hkey']

/-- Normalization of normalized documents with a rewritten sketch. -/
theorem normalizeDocuments_rewrite {config : Documents} {sketch atom : List (String × Json)}
    (hconfig : NormalDocuments config sketch atom) {collective again hyper : List (String × Json)}
    (hc : normalize RequestSchema.collective ("sketch" ++ "." ++ "collective") (.obj collective) =
      .ok (.obj again))
    (hh : Normalized RequestSchema.hyperparameters ("sketch" ++ "." ++ "hyperparameters") hyper) :
    normalizeDocuments { config with sketch := .obj (rewriteSketch sketch collective hyper) } =
      .ok { config with sketch := .obj (rewriteSketch sketch again hyper) } := by
  have hatom : normalize RequestSchema.atom "atom" config.atom = .ok config.atom := by
    rw [hconfig.atom_eq]
    exact normalize_object_obj.mpr ⟨fun key hkey => hconfig.atom.keys_subset hkey, hconfig.atom⟩
  unfold normalizeDocuments
  simp only [Checked.bind_ok, Checked.pure_ok]
  exact ⟨_, hconfig.topology, _, rewriteSketch_normalize hconfig.sketch hc hh, _, hatom, _,
    hconfig.runtime, rfl⟩

/-- **Resolving normalized documents again.**  The documents of the result are current, and
are normalized to documents that resolve to the same request. -/
theorem resolveConfig_again {digest : Json → String} {purpose : Purpose} {config : Documents}
    {sketch atom : List (String × Json)} (hconfig : NormalDocuments config sketch atom)
    {request : ResolvedRequest} (h : resolveConfig digest purpose config = .ok request) :
    ∃ current config' request', request.requestConfig = { config with sketch := .obj current } ∧
      CurrentSketch current ∧ Dict.get? current "live" = none ∧
      normalizeDocuments request.requestConfig = .ok config' ∧
      resolveConfig digest purpose config' = .ok request' ∧
      request'.canonical = request.canonical := by
  unfold resolveConfig at h
  simp only [Checked.bind_ok, Checked.pure_ok] at h
  obtain ⟨ranks, hranks, c, hc, collective, hcollective, spec, hspec, hyper, hhyper, sizes, hsizes,
    element, helement, sections, hsections, _, htolerances, selected, hselected, forbidden,
    hforbidden, reference, hreference, stage, hstage, stageNum, hstageNum, _, hcheck, _, henabled,
    hyperparameters, hhyperparameters, solver, hsolver, strategies, hstrategies, protocol, hprotocol,
    hrequest⟩ := h
  obtain ⟨fields, hfields, hn⟩ := sketch_collective hconfig.sketch
  obtain ⟨sizeFields, hsizeFields, hh⟩ := sketch_hyperparameters hconfig.sketch
  rw [hconfig.sketch_eq] at hc hhyper hsections
  rw [Json.field, Checked.required_ok, Json.get?_obj] at hc hhyper
  rw [hfields] at hc
  rw [hsizeFields] at hhyper
  cases hc
  cases hhyper
  obtain ⟨completed, kind, rfl, hcompleted⟩ := completeCollective_ok hcollective
  obtain ⟨again, last, hagain, hlast, hdistinct, hsame⟩ := collective_stable hn hcompleted
  obtain ⟨sizeOut, hrecord, hnormal, hsizes', hrecord'⟩ := sizes_stable hh hsizes hreference
  have hsketch : (config.sketch.set "collective" (.obj completed)).set "hyperparameters"
      (recordReference forbidden reference (.obj sizeFields)) =
        .obj (rewriteSketch sketch completed sizeOut) := by
    rw [hconfig.sketch_eq, hrecord]
    rfl
  have hdistinct' := hcompleted.distinct (hn.distinct collective_nodup)
  have hfield : ∀ {key : String} {value : Json},
      Dict.get? (rewriteSketch sketch again sizeOut) key = some value →
      (Json.obj (rewriteSketch sketch again sizeOut)).field key = .ok value := by
    intro key value hvalue
    rw [Json.field, Checked.required_ok, Json.get?_obj]
    exact hvalue
  -- the second run takes every branch of the first, and differs in the order of fields only
  have hrun : resolveConfig digest purpose
      { config with sketch := .obj (rewriteSketch sketch again sizeOut) } = .ok { request with
        inputSha256 := digest ({ config with sketch := .obj (rewriteSketch
          (rewriteSketch sketch again sizeOut) last sizeOut) } : Documents).toJson.canonical
        requestConfig := { config with sketch := .obj (rewriteSketch
          (rewriteSketch sketch again sizeOut) last sizeOut) }
        requiredCapabilities := (Json.obj last).set "protocol" protocol } := by
    unfold resolveConfig
    simp only [Checked.bind_ok, Checked.pure_ok]
    refine ⟨ranks, hranks, _, hfield (rewriteSketch_collective _ _ _), _, hlast, spec, ?_, _,
      hfield (rewriteSketch_hyper _ _ _), _, hsizes', element, checkSizes_record helement hreference,
      sections, ?_, (), htolerances, selected, hselected, forbidden, hforbidden, reference,
      bindReference_record hreference, stage, hstage, stageNum, hstageNum, (), hcheck, (), henabled,
      hyperparameters, hhyperparameters, solver, hsolver, strategies, hstrategies, protocol,
      hprotocol, ?_⟩
    · rw [readCollective_congr hsame]
      exact hspec
    · rw [sections_rewrite]
      exact hsections
    · rw [← hrequest, hrecord']
      rfl
  have hdocuments : request.requestConfig =
      { config with sketch := .obj (rewriteSketch sketch completed sizeOut) } := by
    rw [← hrequest, ← hsketch]
  have hcanonical : ({ config with sketch := .obj (rewriteSketch
      (rewriteSketch sketch again sizeOut) last sizeOut) } : Documents).canonical =
        request.requestConfig.canonical := by
    rw [hdocuments]
    simp only [Documents.canonical]
    rw [rewriteSketch_canonical (hconfig.sketch.distinct sketch_nodup) hdistinct' hdistinct hsame]
  have hcapabilities : ((Json.obj last).set "protocol" protocol).canonical =
      request.requiredCapabilities.canonical := by
    rw [← hrequest]
    apply Json.canonical_ext (hdistinct.set _ _) (hdistinct'.set _ _)
    intro key
    rw [Dict.get?_set, Dict.get?_set, hsame]
  have hsha : request.inputSha256 = digest request.requestConfig.toJson.canonical := by
    rw [← hrequest]
  refine ⟨_, _, _, hdocuments, sketch_current hconfig.sketch hn hcompleted hnormal, ?_, ?_, hrun, ?_⟩
  · exact (rewriteSketch_other (by decide) (by decide)).trans
      (hconfig.sketch.get?_eq_none (by decide))
  · rw [hdocuments]
    exact normalizeDocuments_rewrite hconfig hagain hnormal
  · simp only [ResolvedRequest.canonical, hcanonical, hcapabilities, hsha,
      Documents.toJson_canonical hcanonical]

theorem normalize_isObject {spec : Spec} (hspec : spec.isObject = true) (hw : spec.wellFormed = true)
    {path : String} {value : Json} (h : normalize spec path value = .ok value) :
    value.isObject = true := by
  obtain ⟨fields, rfl, _⟩ := normalize_normalized hspec hw h
  rfl

/-- **Resolving is idempotent.**  The documents of a resolved request, resolved for the same
purpose and without overrides, are accepted and resolve to the same request: the same
documents, the same values read from them and the same hash. -/
theorem resolveRequest_idempotent {digest : Json → String} {purpose : Purpose}
    {overrideInput : Bool} {overrides : List (String × Json)} {files : Documents}
    {request : ResolvedRequest}
    (h : resolveRequest digest purpose overrideInput overrides files = .ok request)
    (overrideInput' : Bool) :
    ∃ request', resolveRequest digest purpose overrideInput' [] request.requestConfig =
      .ok request' ∧ request'.canonical = request.canonical := by
  unfold resolveRequest at h
  simp only [Checked.bind_ok] at h
  obtain ⟨_, _, _, _, _, _, _, _, config, hnormalize, h⟩ := h
  obtain ⟨sketch, atom, hconfig⟩ := normalizeDocuments_ok hnormalize
  obtain ⟨current, config', request', hdocuments, hcurrent, hlive, hnormalize', hresolve, hsame⟩ :=
    resolveConfig_again hconfig h
  refine ⟨request', ?_, hsame⟩
  unfold resolveRequest
  simp only [Checked.bind_ok]
  have hload : loadDocuments request.requestConfig = .ok request.requestConfig := by
    unfold loadDocuments
    simp only [Checked.bind_ok, Checked.ensure_ok, Checked.pure_ok]
    rw [hdocuments]
    exact ⟨(), normalize_isObject (by rfl) (by rfl) hconfig.topology, (), rfl, (),
      by rw [hconfig.atom_eq]; rfl, (),
      normalize_isObject (by rfl) (by rfl) hconfig.runtime, trivial⟩
  have hmigrate : migrate request.requestConfig = .ok request.requestConfig := by
    rw [hdocuments]
    exact migrate_current rfl hconfig.atom_eq hcurrent (atom_placed hconfig.atom)
      (hconfig.atom.names (by decide +kernel))
  have hdisabled : migrateDisabledLive request.requestConfig = .ok request.requestConfig := by
    rw [hdocuments, migrateDisabledLive, Json.get?_obj, hlive]
  exact ⟨_, hload, _, hmigrate, _, hdisabled, _, rfl, config', hnormalize', hresolve⟩

theorem exists_of_isOk {ε α : Type} {x : Except ε α} (h : x.isOk = true) : ∃ a, x = .ok a := by
  cases x with
  | error e => cases h
  | ok a => exact ⟨a, rfl⟩

/-- Two ranks on one node that reduce eight bytes, in a sketch with legacy spellings. -/
def legacyDocuments : Documents where
  topology := .obj [
    ("ranks", .int 2),
    ("nodes", .arr [.obj [("id", .int 0), ("ranks", .arr [.int 0, .int 1])]]),
    ("directed_links", .arr [.obj [("src", .int 0), ("dst", .int 1), ("alpha_us", .int 1),
      ("beta_us_per_byte", .int 1)]])]
  sketch := .obj [
    ("collective", .obj [("operator", .str "All_Reduce")]),
    ("hyperparameters", .obj [("total_size_bytes", .int 8), ("max_channels", .int 4),
      ("total_solve_timeout_s", .int 60)]),
    ("solver", .obj [("per_model_timeout_s", .int 10), ("cpu_budget", .int 2)]),
    ("budgets", .obj [("cleanup_reserve_s", .int 1), ("max_offline_validation_per_round_s", .int 1),
      ("max_offline_validation_total_s", .int 1), ("max_tuning_rounds", .int 0)]),
    ("tolerances", .obj [("absolute", .int 0), ("relative", .int 0)]),
    ("calibration", .obj [("enabled", .bool false)]),
    ("live", .null)]
  atom := .obj [
    ("synthesis_method", .str "hierarchy"),
    ("forbidden_transfers", .arr [.arr [.int 1, .int 0, .int 1, .int 0]]),
    ("symmetry", .bool true)]
  runtime := .obj [
    ("rank_map", .arr [.obj [("rank", .int 0), ("host", .str "a"), ("device", .int 0)],
      .obj [("rank", .int 1), ("host", .str "a"), ("device", .int 1)]]),
    ("environment", .obj [("NCCL_BUFFSIZE", .str "4096")]),
    ("scratch_bytes_per_rank", .int 0)]

/-- The legacy documents, with a slice size given on the command line. -/
theorem resolveRequest_idempotent_legacy : ∃ request,
    resolveRequest (fun _ => "") .solve false [("sketch.hyperparameters.slice_size_bytes", .int 4)]
      legacyDocuments = .ok request ∧
    ∃ request', resolveRequest (fun _ => "") .solve false [] request.requestConfig = .ok request' ∧
      request'.canonical = request.canonical := by
  obtain ⟨request, h⟩ := exists_of_isOk (show (resolveRequest (fun _ => "") .solve false
    [("sketch.hyperparameters.slice_size_bytes", .int 4)] legacyDocuments).isOk = true by
      decide +kernel)
  exact ⟨request, h, resolveRequest_idempotent h false⟩

end VeriCCL
