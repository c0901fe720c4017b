import VeriCCL.ResolveRequest

/-! # Resolving is idempotent

The documents a request resolves to are the identity of the request: they are hashed,
saved with every checkpoint and resolved again on resume and by `verify`.  This module
proves that resolving them again changes nothing.  Normalization is idempotent by itself;
what is left is that the resolver's own writes (a default root, a default reduction, the
`null` of a field that does not apply, the derived reference size) are read back as what
was written, and that migration finds nothing to do in documents the schemas accept. -/
namespace VeriCCL

/-- The names of the properties an object schema requires. -/
def Spec.required : Spec → List String
  | .object _ required _ => required
  | _ => []

/-- An object schema that never returns `null`. -/
def Spec.isObject : Spec → Bool
  | .object _ _ (some .null) => false
  | .object _ _ _ => true
  | _ => false

/-- Fields that normalization returns unchanged. -/
def Normalized (spec : Spec) (path : String) (fields : List (String × Json)) : Prop :=
  normalizeProperties spec.properties spec.required path fields = .ok fields

/-- What normalization returns is normalized. -/
theorem normalize_normalized {spec : Spec} (hspec : spec.isObject = true)
    (hw : spec.wellFormed = true) {path : String} {value result : Json}
    (h : normalize spec path value = .ok result) :
    ∃ fields, result = .obj fields ∧ Normalized spec path fields := by
  cases spec with
  | object properties required default =>
    rcases normalize_object h with ⟨rfl, _⟩ | ⟨fields, out, rfl, hout⟩
    · cases hspec
    · refine ⟨out, rfl, ?_⟩
      exact normalizeProperties_idem properties (by simpa [Spec.wellFormed] using hw) hout
        fun _ _ => rfl
  | _ => cases hspec

namespace Normalized

variable {spec : Spec} {path : String} {fields : List (String × Json)}

theorem keys_subset (h : Normalized spec path fields) {key : String}
    (hkey : key ∈ Dict.keys fields) : key ∈ spec.properties.map (·.1) :=
  (normalizeProperties_keys h).subset hkey

theorem distinct (h : Normalized spec path fields)
    (hnodup : (spec.properties.map (·.1)).Nodup) : Dict.Distinct fields :=
  (normalizeProperties_keys h).nodup hnodup

/-- There is nothing at a name that is no property. -/
theorem get?_eq_none (h : Normalized spec path fields) {key : String}
    (hkey : key ∉ spec.properties.map (·.1)) : Dict.get? fields key = none :=
  normalizeProperties_get?_of_notMem h hkey

/-- A property is left out, or its value is normalized. -/
theorem get? (h : Normalized spec path fields) (hnodup : (spec.properties.map (·.1)).Nodup)
    {key : String} {child : Spec} (hmem : (key, child) ∈ spec.properties) :
    (skipped spec.required key child fields = true ∧ Dict.get? fields key = none) ∨
      ∃ value, Dict.get? fields key = some value ∧
        normalize child (path ++ "." ++ key) value = .ok value := by
  rcases normalizeProperties_get? hnodup h hmem with hskip | ⟨_, value, hvalue, hget⟩
  · exact Or.inl hskip
  · rw [hget, Option.getD_some] at hvalue
    exact Or.inr ⟨value, hget, hvalue⟩

/-- A property that is required or has a default is there. -/
theorem present (h : Normalized spec path fields) (hnodup : (spec.properties.map (·.1)).Nodup)
    {key : String} {child : Spec} (hmem : (key, child) ∈ spec.properties)
    (hkept : key ∈ spec.required ∨ child.default ≠ none) :
    ∃ value, Dict.get? fields key = some value ∧
      normalize child (path ++ "." ++ key) value = .ok value := by
  rcases h.get? hnodup hmem with ⟨hskip, _⟩ | hvalue
  · unfold skipped at hskip
    rcases hkept with hkept | hkept
    · simp [hkept] at hskip
    · simp [Option.isNone_iff_eq_none, hkept] at hskip
  · exact hvalue

end Normalized

/-- Fields that are left out or normalized are returned, less what is left out. -/
theorem normalizeProperties_fixed {properties : List (String × Spec)}
    (hnodup : (properties.map (·.1)).Nodup) {required : List String} {path : String}
    {fields : List (String × Json)}
    (h : ∀ property ∈ properties, skipped required property.1 property.2 fields = true ∨
      ∃ value, Dict.get? fields property.1 = some value ∧
        normalize property.2 (path ++ "." ++ property.1) value = .ok value) :
    ∃ out, normalizeProperties properties required path fields = .ok out ∧
      ∀ property ∈ properties, Dict.get? out property.1 =
        if skipped required property.1 property.2 fields then none
        else Dict.get? fields property.1 := by
  have htotal : ∀ property ∈ properties, skipped required property.1 property.2 fields = false →
      ∃ value, normalize property.2 (path ++ "." ++ property.1)
        ((Dict.get? fields property.1).getD .null) = .ok value := by
    intro property hp hskip
    rcases h property hp with hs | ⟨value, hget, hvalue⟩
    · rw [hs] at hskip
      cases hskip
    · exact ⟨value, by rw [hget]; exact hvalue⟩
  obtain ⟨out, hout⟩ := normalizeProperties_total htotal
  refine ⟨out, hout, ?_⟩
  intro property hp
  rcases normalizeProperties_get? hnodup hout hp with ⟨hskip, hnone⟩ | ⟨hskip, value, hvalue, hget⟩
  · rw [if_pos hskip]
    exact hnone
  · rw [if_neg (by simp [hskip]), hget]
    rcases h property hp with hs | ⟨old, hold, hfix⟩
    · rw [hs] at hskip
      cases hskip
    · rw [hold] at hvalue ⊢
      rw [Option.getD_some, hfix] at hvalue
      injection hvalue with hvalue
      rw [hvalue]

/-- A normalized value is not left out. -/
theorem skipped_of_normalized {required : List String} {key path : String} {child : Spec}
    {fields : List (String × Json)} {value : Json} (hget : Dict.get? fields key = some value)
    (h : normalize child path value = .ok value) : skipped required key child fields = false := by
  refine skipped_eq_false hget ?_
  rintro rfl
  rw [normalize_null h]
  simp

/-! ## The collective section -/

/-- What the resolver writes at an operator-dependent field. -/
def completion (applies : Bool) (default : Json) : Json := if applies then default else .null

/-- Completing a field sets it, unless it is there already, which it may be only where it
applies. -/
theorem completeKey_ok {kind : CollectiveKind} {key : String} {applies : Bool} {default result : Json}
    {fields : List (String × Json)} :
    completeKey kind key applies default (.obj fields) = .ok result ↔
      (applies = false → Dict.get? fields key = none) ∧
        result = if (Dict.get? fields key).isSome then .obj fields
          else .obj (Dict.set fields key (completion applies default)) := by
  unfold completeKey
  rw [Json.get?_obj]
  cases applies <;> cases h : Dict.get? fields key <;> simp [completion, eq_comm]

theorem completeKey_get? {kind : CollectiveKind} {key : String} {applies : Bool}
    {default result : Json} {fields : List (String × Json)}
    (h : completeKey kind key applies default (.obj fields) = .ok result) :
    ∃ out, result = .obj out ∧ (Dict.Distinct fields → Dict.Distinct out) ∧
      ∀ j, Dict.get? out j = if key = j then
        some ((Dict.get? fields key).getD (completion applies default)) else Dict.get? fields j := by
  obtain ⟨_, rfl⟩ := completeKey_ok.mp h
  cases hget : Dict.get? fields key with
  | none =>
    refine ⟨Dict.set fields key (completion applies default), by simp, fun hd => hd.set _ _, ?_⟩
    intro j
    rw [Dict.get?_set, Option.getD_none]
  | some value =>
    refine ⟨fields, by simp, id, ?_⟩
    intro j
    by_cases hj : key = j
    · rw [if_pos hj, ← hj, hget, Option.getD_some]
    · rw [if_neg hj]

/-- A section as completion leaves it. -/
structure Completed (fields out : List (String × Json)) (kind : CollectiveKind) : Prop where
  distinct : Dict.Distinct fields → Dict.Distinct out
  kind_eq : ∃ operator, Dict.get? fields "operator" = some (.str operator) ∧
    CollectiveKind.ofValue? operator = some kind
  root : kind.takesRoot = false → Dict.get? fields "root" = none
  reduction : kind.reduction = false → Dict.get? fields "reduction_op" = none
  get? : ∀ j, Dict.get? out j =
    if "reduction_op" = j then
      some ((Dict.get? fields j).getD (completion kind.reduction (.str "sum")))
    else if "root" = j then some ((Dict.get? fields j).getD (completion kind.takesRoot (.int 0)))
    else Dict.get? fields j

theorem Json.text_ok {json : Json} {value : String} : json.text = .ok value ↔ json = .str value := by
  cases json <;> simp [Json.text]

/-- `completeCollective` completes the section. -/
theorem completeCollective_ok {fields : List (String × Json)} {result : Json}
    (h : completeCollective (.obj fields) = .ok result) :
    ∃ out kind, result = .obj out ∧ Completed fields out kind := by
  unfold completeCollective at h
  simp only [Checked.bind_ok, Json.field, Json.get?_obj, Checked.required_ok] at h
  obtain ⟨_, hoperator, operator, htext, kind, hkind, middle, hroot, hreduction⟩ := h
  obtain rfl := Json.text_ok.mp htext
  obtain ⟨inner, rfl, hd, hinner⟩ := completeKey_get? hroot
  obtain ⟨out, rfl, hd', hout⟩ := completeKey_get? hreduction
  have hred : Dict.get? inner "reduction_op" = Dict.get? fields "reduction_op" := by
    rw [hinner, if_neg (by decide)]
  refine ⟨out, kind, rfl, fun hdistinct => hd' (hd hdistinct), ⟨operator, hoperator, hkind⟩,
    (completeKey_ok.mp hroot).1, ?_, ?_⟩
  · rw [← hred]
    exact (completeKey_ok.mp hreduction).1
  · intro j
    rw [hout]
    by_cases hj : "reduction_op" = j
    · rw [if_pos hj, if_pos hj, hred, hj]
    · rw [if_neg hj, if_neg hj, hinner]
      by_cases hj' : "root" = j
      · rw [if_pos hj', if_pos hj', hj']
      · rw [if_neg hj', if_neg hj']

/-- A section whose operator-dependent fields are there only where they apply can be
completed. -/
theorem completeCollective_total {fields : List (String × Json)} {operator : String}
    {kind : CollectiveKind} (hoperator : Dict.get? fields "operator" = some (.str operator))
    (hkind : CollectiveKind.ofValue? operator = some kind)
    (hroot : kind.takesRoot = false → Dict.get? fields "root" = none)
    (hreduction : kind.reduction = false → Dict.get? fields "reduction_op" = none) :
    ∃ result, completeCollective (.obj fields) = .ok result := by
  have h : completeKey kind "root" kind.takesRoot (.int 0) (.obj fields) = .ok _ :=
    completeKey_ok.mpr ⟨hroot, rfl⟩
  obtain ⟨inner, hinner, _, hget⟩ := completeKey_get? h
  rw [hinner] at h
  have hred : Dict.get? inner "reduction_op" = Dict.get? fields "reduction_op" := by
    rw [hget, if_neg (by decide)]
  obtain ⟨result, hresult⟩ : ∃ result,
      completeKey kind "reduction_op" kind.reduction (.str "sum") (.obj inner) = .ok result :=
    ⟨_, completeKey_ok.mpr ⟨fun hr => hred.trans (hreduction hr), rfl⟩⟩
  refine ⟨result, ?_⟩
  unfold completeCollective
  simp only [Checked.bind_ok, Json.field, Json.get?_obj, Checked.required_ok]
  exact ⟨_, hoperator, operator, rfl, kind, hkind, _, h, hresult⟩

theorem collective_nodup : (RequestSchema.collective.properties.map (·.1)).Nodup := by decide

/-- The default root is one the schema accepts. -/
theorem normalize_default_root (path : String) :
    normalize RequestSchema.index path (.int 0) = .ok (.int 0) := by
  refine (normalize_scalar rfl).mpr ⟨⟨rfl, by decide +kernel, 0, by decide +kernel, ?_, ?_, ?_⟩, rfl⟩
  · rintro bound ⟨⟩
    exact le_refl 0
  · rintro bound ⟨⟩
    norm_num
  · rintro bound ⟨⟩

/-- So is the default reduction. -/
theorem normalize_default_reduction (path : String) :
    normalize (RequestSchema.choice ["sum", "prod", "min", "max", "avg"] none) path (.str "sum") =
      .ok (.str "sum") := by
  refine (normalize_scalar rfl).mpr ⟨⟨rfl, by decide, by decide, ?_⟩, rfl⟩
  rintro values ⟨⟩
  exact List.mem_cons_self

/-- The properties of the collective section. -/
theorem mem_collective {property : String × Spec}
    (h : property ∈ RequestSchema.collective.properties) :
    property.1 = "root" ∧ property.2 = RequestSchema.index ∨
      property.1 = "reduction_op" ∧
        property.2 = RequestSchema.choice ["sum", "prod", "min", "max", "avg"] none ∨
      property.1 ≠ "root" ∧ property.1 ≠ "reduction_op" ∧
        (property.1 ∈ RequestSchema.collective.required ∨ property.2.default ≠ none) := by
  simp only [RequestSchema.collective, RequestSchema.obj, Spec.properties, List.mem_cons,
    List.not_mem_nil, or_false] at h
  rcases h with rfl | rfl | rfl | rfl | rfl
  · exact Or.inr (Or.inr ⟨by decide, by decide, Or.inl List.mem_cons_self⟩)
  · exact Or.inr (Or.inr ⟨by decide, by decide, Or.inr (by simp [RequestSchema.choice,
      RequestSchema.scalar, Spec.default])⟩)
  · exact Or.inl ⟨rfl, rfl⟩
  · exact Or.inr (Or.inl ⟨rfl, rfl⟩)
  · exact Or.inr (Or.inr ⟨by decide, by decide, Or.inr (by simp [RequestSchema.flag,
      RequestSchema.scalar, Spec.default])⟩)

/-- An operator-dependent field, once completed, is dropped or kept by normalization. -/
theorem completion_stable {path key : String} {child : Spec} {applies : Bool} {default : Json}
    {fields out : List (String × Json)} (hchild : child.default = none)
    (hkey : RequestSchema.collective.required.contains key = false)
    (hdefault : normalize child path default = .ok default)
    (hfields : applies = false → Dict.get? fields key = none)
    (hvalue : ∀ value, Dict.get? fields key = some value → normalize child path value = .ok value)
    (hout : Dict.get? out key = some ((Dict.get? fields key).getD (completion applies default))) :
    (applies = false → skipped RequestSchema.collective.required key child out = true) ∧
      (applies = true → skipped RequestSchema.collective.required key child out = false ∧
        ∃ value, Dict.get? out key = some value ∧ normalize child path value = .ok value) := by
  constructor
  · intro ha
    unfold skipped
    rw [hout, hfields ha, hkey, hchild]
    simp [completion, ha, Json.isNull]
  · intro ha
    cases hget : Dict.get? fields key with
    | none =>
      rw [hget, Option.getD_none, completion, if_pos ha] at hout
      exact ⟨skipped_of_normalized hout hdefault, default, hout, hdefault⟩
    | some value =>
      rw [hget, Option.getD_some] at hout
      exact ⟨skipped_of_normalized hout (hvalue value hget), value, hout, hvalue value hget⟩

section Collective

variable {path : String} {fields out : List (String × Json)} {kind : CollectiveKind}
  (hn : Normalized RequestSchema.collective path fields) (hc : Completed fields out kind)

include hn in
theorem collective_fixed {key : String} {child : Spec}
    (hmem : (key, child) ∈ RequestSchema.collective.properties) :
    ∀ value, Dict.get? fields key = some value →
      normalize child (path ++ "." ++ key) value = .ok value := by
  intro value hvalue
  rcases hn.get? collective_nodup hmem with ⟨_, hnone⟩ | ⟨value', hvalue', h⟩
  · rw [hnone] at hvalue
    cases hvalue
  · rw [hvalue'] at hvalue
    cases hvalue
    exact h

include hn hc

theorem completed_root :
    (kind.takesRoot = false →
      skipped RequestSchema.collective.required "root" RequestSchema.index out = true) ∧
    (kind.takesRoot = true →
      skipped RequestSchema.collective.required "root" RequestSchema.index out = false ∧
      ∃ value, Dict.get? out "root" = some value ∧
        normalize RequestSchema.index (path ++ "." ++ "root") value = .ok value) :=
  completion_stable rfl rfl (normalize_default_root _) hc.root
    (collective_fixed hn (by simp [RequestSchema.collective, RequestSchema.obj, Spec.properties]))
    (by rw [hc.get?, if_neg (by decide), if_pos rfl])

theorem completed_reduction :
    (kind.reduction = false → skipped RequestSchema.collective.required "reduction_op"
      (RequestSchema.choice ["sum", "prod", "min", "max", "avg"] none) out = true) ∧
    (kind.reduction = true → skipped RequestSchema.collective.required "reduction_op"
        (RequestSchema.choice ["sum", "prod", "min", "max", "avg"] none) out = false ∧
      ∃ value, Dict.get? out "reduction_op" = some value ∧
        normalize (RequestSchema.choice ["sum", "prod", "min", "max", "avg"] none)
          (path ++ "." ++ "reduction_op") value = .ok value) :=
  completion_stable rfl rfl (normalize_default_reduction _) hc.reduction
    (collective_fixed hn (by simp [RequestSchema.collective, RequestSchema.obj, Spec.properties]))
    (by rw [hc.get?, if_pos rfl])

/-- The fields that completion leaves alone. -/
theorem completed_other {property : String × Spec}
    (hp : property ∈ RequestSchema.collective.properties) (hroot : property.1 ≠ "root")
    (hreduction : property.1 ≠ "reduction_op")
    (hkept : property.1 ∈ RequestSchema.collective.required ∨ property.2.default ≠ none) :
    ∃ value, Dict.get? out property.1 = some value ∧
      normalize property.2 (path ++ "." ++ property.1) value = .ok value := by
  obtain ⟨value, hvalue, h⟩ := hn.present collective_nodup hp hkept
  refine ⟨value, ?_, h⟩
  rw [hc.get?, if_neg (Ne.symm hreduction), if_neg (Ne.symm hroot)]
  exact hvalue

theorem completed_property {property : String × Spec}
    (hp : property ∈ RequestSchema.collective.properties) :
    skipped RequestSchema.collective.required property.1 property.2 out = true ∨
      ∃ value, Dict.get? out property.1 = some value ∧
        normalize property.2 (path ++ "." ++ property.1) value = .ok value := by
  rcases mem_collective hp with ⟨hkey, hchild⟩ | ⟨hkey, hchild⟩ | ⟨hroot, hreduction, hkept⟩
  · rw [hkey, hchild]
    cases happlies : kind.takesRoot with
    | false => exact Or.inl ((completed_root hn hc).1 happlies)
    | true => exact Or.inr ((completed_root hn hc).2 happlies).2
  · rw [hkey, hchild]
    cases happlies : kind.reduction with
    | false => exact Or.inl ((completed_reduction hn hc).1 happlies)
    | true => exact Or.inr ((completed_reduction hn hc).2 happlies).2
  · exact Or.inr (completed_other hn hc hp hroot hreduction hkept)

/-- Completion adds no field that the schema does not know. -/
theorem completed_keys {key : String} (hkey : key ∈ Dict.keys out) :
    key ∈ RequestSchema.collective.properties.map (·.1) := by
  by_contra hnot
  have hne : "reduction_op" ≠ key ∧ "root" ≠ key := by
    constructor <;> rintro rfl <;>
      simp [RequestSchema.collective, RequestSchema.obj, Spec.properties] at hnot
  obtain ⟨value, hvalue⟩ := Dict.get?_isSome.mpr hkey
  rw [hc.get?, if_neg hne.1, if_neg hne.2, hn.get?_eq_none hnot] at hvalue
  cases hvalue

/-- Normalization drops the operator-dependent fields that do not apply, and nothing else. -/
theorem completed_normalize :
    ∃ again, normalize RequestSchema.collective path (.obj out) = .ok (.obj again) ∧
      Dict.get? again "root" = (if kind.takesRoot then Dict.get? out "root" else none) ∧
      Dict.get? again "reduction_op" =
        (if kind.reduction then Dict.get? out "reduction_op" else none) ∧
      ∀ j, j ≠ "root" → j ≠ "reduction_op" → Dict.get? again j = Dict.get? out j := by
  obtain ⟨again, hagain, hget⟩ := normalizeProperties_fixed collective_nodup
    fun property hp => completed_property hn hc hp
  have hmem : ("root", RequestSchema.index) ∈ RequestSchema.collective.properties ∧
      ("reduction_op", RequestSchema.choice ["sum", "prod", "min", "max", "avg"] none) ∈
        RequestSchema.collective.properties := by
    simp [RequestSchema.collective, RequestSchema.obj, Spec.properties]
  refine ⟨again, normalize_object_obj.mpr ⟨fun key => completed_keys hn hc, hagain⟩, ?_, ?_, ?_⟩
  · rw [hget _ hmem.1]
    cases happlies : kind.takesRoot with
    | false => rw [if_pos ((completed_root hn hc).1 happlies)]; rfl
    | true => rw [((completed_root hn hc).2 happlies).1]; rfl
  · rw [hget _ hmem.2]
    cases happlies : kind.reduction with
    | false => rw [if_pos ((completed_reduction hn hc).1 happlies)]; rfl
    | true => rw [((completed_reduction hn hc).2 happlies).1]; rfl
  · intro j hroot hreduction
    by_cases hj : j ∈ RequestSchema.collective.properties.map (·.1)
    · obtain ⟨property, hp, rfl⟩ := List.mem_map.mp hj
      rcases mem_collective hp with ⟨hkey, _⟩ | ⟨hkey, _⟩ | ⟨_, _, hkept⟩
      · exact absurd hkey hroot
      · exact absurd hkey hreduction
      · obtain ⟨value, hvalue, hfix⟩ := completed_other hn hc hp hroot hreduction hkept
        rw [hget property hp, skipped_of_normalized hvalue hfix]
        rfl
    · rw [normalizeProperties_get?_of_notMem hagain hj, eq_comm, Dict.get?_eq_none]
      exact fun hkey => hj (completed_keys hn hc hkey)

/-- **Completing the normalized form of a completed section gives the section back**, up to
the order of its fields. -/
theorem collective_stable :
    ∃ again last, normalize RequestSchema.collective path (.obj out) = .ok (.obj again) ∧
      completeCollective (.obj again) = .ok (.obj last) ∧ Dict.Distinct last ∧
      ∀ j, Dict.get? last j = Dict.get? out j := by
  obtain ⟨again, hagain, hroot, hreduction, hother⟩ := completed_normalize hn hc
  obtain ⟨operator, hoperator, hkind⟩ := hc.kind_eq
  have hoperator' : Dict.get? again "operator" = some (.str operator) := by
    rw [hother _ (by decide) (by decide), hc.get?, if_neg (by decide), if_neg (by decide)]
    exact hoperator
  have hdrop : ∀ {applies : Bool} {x : Option Json},
      applies = false → (if applies then x else none) = none := by
    rintro applies x rfl
    rfl
  obtain ⟨result, hresult⟩ := completeCollective_total hoperator' hkind
    (fun h => hroot.trans (hdrop h)) (fun h => hreduction.trans (hdrop h))
  obtain ⟨last, kind', rfl, hc'⟩ := completeCollective_ok hresult
  obtain ⟨operator', hop, hkind'⟩ := hc'.kind_eq
  rw [hoperator'] at hop
  cases hop
  rw [hkind] at hkind'
  cases hkind'
  have hdistinct : Dict.Distinct again :=
    (normalizeProperties_keys (normalize_object_obj.mp hagain).2).nodup collective_nodup
  refine ⟨again, last, hagain, hresult, hc'.distinct hdistinct, ?_⟩
  -- what was dropped is written again, and what was kept is what was written
  intro j
  rw [hc'.get?]
  by_cases hj : "reduction_op" = j
  · subst hj
    rw [if_pos rfl, hreduction, hc.get?, if_pos rfl]
    cases happlies : kind.reduction with
    | false => rw [hc.reduction happlies]; rfl
    | true => rfl
  · by_cases hj' : "root" = j
    · subst hj'
      rw [if_neg hj, if_pos rfl, hroot, hc.get?, if_neg hj, if_pos rfl]
      cases happlies : kind.takesRoot with
      | false => rw [hc.root happlies]; rfl
      | true => rfl
    · rw [if_neg hj, if_neg hj', hother j (Ne.symm hj') (Ne.symm hj)]

end Collective

/-! ## The sizes -/

theorem Json.natural_ok {json : Json} {n : ℕ} : json.natural = .ok n ↔ json = .int n := by
  constructor
  · intro h
    unfold Json.natural at h
    split at h
    · cases h
      rfl
    · cases h
  · rintro rfl
    rfl

theorem Json.optional_natural_ok {json : Json} {size : Option ℕ} :
    json.optional Json.natural = .ok size ↔
      (json = .null ∧ size = none) ∨ ∃ n : ℕ, json = .int n ∧ size = some n := by
  cases json with
  | null =>
    simp only [Json.optional, Except.ok.injEq, true_and]
    constructor
    · rintro rfl
      exact Or.inl rfl
    · rintro (rfl | ⟨n, h, _⟩)
      · rfl
      · cases h
  | _ =>
    simp only [Json.optional, Checked.map_ok, Json.natural_ok, reduceCtorEq, false_and, false_or]
    constructor
    · rintro ⟨n, h, rfl⟩
      exact ⟨n, h, rfl⟩
    · rintro ⟨n, h, rfl⟩
      exact ⟨n, h, rfl⟩

/-- What the size section holds. -/
theorem Sizes.read_ok {fields : List (String × Json)} {sizes : Sizes} :
    Sizes.read (.obj fields) = .ok sizes ↔ ∃ total slice reference,
      Dict.get? fields "total_size_bytes" = some total ∧ total = .int sizes.total ∧
      Dict.get? fields "slice_size_bytes" = some slice ∧
        slice.optional Json.natural = .ok sizes.slice ∧
      Dict.get? fields "reference_slice_size_bytes" = some reference ∧
        reference.optional Json.natural = .ok sizes.reference := by
  unfold Sizes.read
  simp only [Json.field, Json.get?_obj, Checked.bind_ok, Checked.required_ok, Checked.pure_ok,
    Json.natural_ok]
  constructor
  · rintro ⟨total, htotal, _, h, slice, hslice, _, h', reference, hreference, _, h'', rfl⟩
    exact ⟨total, slice, reference, htotal, h, hslice, h', hreference, h''⟩
  · rintro ⟨total, slice, reference, htotal, h, hslice, h', hreference, h''⟩
    exact ⟨total, htotal, _, h, slice, hslice, _, h', reference, hreference, _, h'', rfl⟩

theorem hyperparameters_nodup :
    (RequestSchema.hyperparameters.properties.map (·.1)).Nodup := by decide

/-- The reference size is the one given, or else the slice size. -/
theorem bindReference_ok {forbidden : List ForbiddenTransfer} {sizes : Sizes}
    {reference : Option ℕ} (h : bindReference forbidden sizes = .ok reference) :
    (forbidden = [] ∧ reference = sizes.reference) ∨
      (forbidden ≠ [] ∧ ∃ size, reference = some size ∧
        (sizes.reference = some size ∨ sizes.reference = none ∧ sizes.slice = some size)) := by
  unfold bindReference at h
  by_cases hf : forbidden = []
  · rw [if_pos hf] at h
    cases h
    exact Or.inl ⟨hf, rfl⟩
  · rw [if_neg hf] at h
    simp only [Checked.map_ok, Checked.required_ok] at h
    obtain ⟨size, hsize, rfl⟩ := h
    refine Or.inr ⟨hf, size, rfl, ?_⟩
    cases hr : sizes.reference with
    | none =>
      rw [hr] at hsize
      exact Or.inr ⟨rfl, hsize⟩
    | some given =>
      rw [hr] at hsize
      cases hsize
      exact Or.inl rfl

/-- Either size of the section is one the schema of the reference size accepts. -/
theorem size_accepted {path : String} {fields : List (String × Json)}
    (hn : Normalized RequestSchema.hyperparameters path fields) {sizes : Sizes}
    (hs : Sizes.read (.obj fields) = .ok sizes) {size : ℕ}
    (h : sizes.reference = some size ∨ sizes.slice = some size) :
    normalize (RequestSchema.count (some .null) none)
      (path ++ "." ++ "reference_slice_size_bytes") (.int size) = .ok (.int size) := by
  obtain ⟨total, slice, reference, _, _, hslice, hslice', href, href'⟩ := Sizes.read_ok.mp hs
  -- the two fields have one schema, and acceptance does not depend on the path
  have key : ∀ {key : String} {value : Json}, Dict.get? fields key = some value →
      (key, RequestSchema.count (some .null) none) ∈ RequestSchema.hyperparameters.properties →
      value.optional Json.natural = .ok (some size) →
      normalize (RequestSchema.count (some .null) none)
        (path ++ "." ++ "reference_slice_size_bytes") (.int size) = .ok (.int size) := by
    intro key value hget hmem hvalue
    rcases Json.optional_natural_ok.mp hvalue with ⟨_, h⟩ | ⟨n, rfl, h⟩
    · cases h
    · cases h
      rcases hn.get? hyperparameters_nodup hmem with ⟨_, hnone⟩ | ⟨value', hvalue', hfix⟩
      · rw [hget] at hnone
        cases hnone
      · rw [hget] at hvalue'
        cases hvalue'
        exact (normalize_scalar rfl).mpr ((normalize_scalar rfl).mp hfix)
  rcases h with h | h
  · exact key href (by simp [RequestSchema.hyperparameters, RequestSchema.obj, Spec.properties])
      (href'.trans (by rw [h]))
  · exact key hslice (by simp [RequestSchema.hyperparameters, RequestSchema.obj, Spec.properties])
      (hslice'.trans (by rw [h]))

/-- **The section with the reference size recorded is normalized, and is read back with
it.** -/
theorem sizes_stable {path : String} {fields : List (String × Json)}
    (hn : Normalized RequestSchema.hyperparameters path fields) {sizes : Sizes}
    (hs : Sizes.read (.obj fields) = .ok sizes) {forbidden : List ForbiddenTransfer}
    {reference : Option ℕ} (hr : bindReference forbidden sizes = .ok reference) :
    ∃ out, recordReference forbidden reference (.obj fields) = .obj out ∧
      Normalized RequestSchema.hyperparameters path out ∧
      Sizes.read (.obj out) = .ok { sizes with reference := reference } ∧
      recordReference forbidden reference (.obj out) = .obj out := by
  rcases bindReference_ok hr with ⟨rfl, rfl⟩ | ⟨hf, size, rfl, hsize⟩
  · exact ⟨fields, rfl, hn, hs, rfl⟩
  · obtain ⟨item, items, rfl⟩ := List.exists_cons_of_ne_nil hf
    obtain ⟨total, slice, given, htotal, htotal', hslice, hslice', hgiven, _⟩ := Sizes.read_ok.mp hs
    have hvalue := size_accepted hn hs (hsize.imp_right And.right)
    have hmem : ("reference_slice_size_bytes", RequestSchema.count (some .null) none) ∈
        RequestSchema.hyperparameters.properties := by
      simp [RequestSchema.hyperparameters, RequestSchema.obj, Spec.properties]
    refine ⟨Dict.set fields "reference_slice_size_bytes" (.int size), rfl, ?_, ?_, ?_⟩
    · exact normalizeProperties_set hyperparameters_nodup hn hmem
        (Dict.get?_isSome.mp ⟨_, hgiven⟩) nofun hvalue
    · refine Sizes.read_ok.mpr ⟨total, slice, .int size, ?_, htotal', ?_, hslice',
        Dict.get?_set_self _ _ _, rfl⟩
      · rw [Dict.get?_set_ne _ _ (by decide)]
        exact htotal
      · rw [Dict.get?_set_ne _ _ (by decide)]
        exact hslice
    · show Json.obj (Dict.set _ _ _) = _
      rw [Dict.set_eq_self (Dict.get?_set_self _ _ _)]

end VeriCCL
