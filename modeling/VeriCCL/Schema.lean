import VeriCCL.Json

/-! # Schemas and normalization

The declarative schemas of `input/schema.py` and `_normalize`, which checks a document
against one, fills in defaults and drops unspecified optional fields.  A missing field and
a `null` are treated alike.  A normalized document is a fixed point of normalization
(`normalize_idem`), and stays one when a field that is present is replaced by another
value its own schema accepts (`normalizeProperties_set`). -/
namespace VeriCCL

/-- What the resolver may raise: an `InputValidationError` with its message, the
`OverflowError` of an integer that no double can hold, or the `KeyError` and `TypeError`
of reading a document that lacks a field or has another kind of value there. -/
inductive InputFault where
  | invalid (message : String)
  | overflow
  | missing (key : String)
  | type (expected : String)
  deriving DecidableEq

inductive ScalarKind where
  | integer
  | number
  | boolean
  | string
  deriving DecidableEq

def ScalarKind.name : ScalarKind → String
  | .integer => "integer"
  | .number => "number"
  | .boolean => "boolean"
  | .string => "string"

/-- The constraints on a scalar. -/
structure Scalar where
  kind : ScalarKind
  default : Option Json := none
  enum : Option (List String) := none
  minimum : Option ℚ := none
  maximum : Option ℚ := none
  exclusiveMinimum : Option ℚ := none

/-- A schema. -/
inductive Spec where
  | scalar (constraints : Scalar)
  | object (properties : List (String × Spec)) (required : List String) (default : Option Json)
  | array (items : Spec) (minItems : ℕ) (maxItems : Option ℕ) (default : Option Json)

namespace Spec

/-- The value that stands for an unspecified one. -/
def default : Spec → Option Json
  | .scalar constraints => constraints.default
  | .object _ _ default => default
  | .array _ _ _ default => default

/-- The properties of an object schema. -/
def properties : Spec → List (String × Spec)
  | .object properties _ _ => properties
  | _ => []

mutual

/-- All property names of a schema and of the schemas inside it. -/
def names : Spec → List String
  | .scalar _ => []
  | .object properties _ _ => propertyNames properties
  | .array items _ _ _ => names items

def propertyNames : List (String × Spec) → List String
  | [] => []
  | (key, child) :: properties => key :: (names child ++ propertyNames properties)

end

mutual

/-- No object schema lists a property twice. -/
def wellFormed : Spec → Bool
  | .scalar _ => true
  | .object properties _ _ => propertiesWellFormed properties
  | .array items _ _ _ => wellFormed items

def propertiesWellFormed : List (String × Spec) → Bool
  | [] => true
  | (key, child) :: properties =>
    !(properties.map (·.1)).contains key && wellFormed child && propertiesWellFormed properties

end

theorem propertiesWellFormed_cons {key : String} {child : Spec}
    {properties : List (String × Spec)} :
    propertiesWellFormed ((key, child) :: properties) = true ↔
      key ∉ properties.map (·.1) ∧ child.wellFormed = true ∧
        propertiesWellFormed properties = true := by
  simp [propertiesWellFormed, and_assoc]

end Spec

/-- `isinstance` of a scalar's kind; a boolean is no number here. -/
def ScalarKind.admits : ScalarKind → Json → Bool
  | .integer, .num (.int _) => true
  | .number, .num _ => true
  | .boolean, .bool _ => true
  | .string, .str _ => true
  | _, _ => false

/-- Integers that round to a finite double. -/
def Number.fitsDouble : Number → Bool
  | .int value => decide (|value| < 2 ^ 1024 - 2 ^ 970)
  | _ => true

/-- The numeric range of a scalar. -/
def Scalar.checkRange (constraints : Scalar) (path : String) (number : Number) :
    Except InputFault Unit :=
  match number.value? with
  | none => .error (.invalid (path ++ " is outside its finite numeric range"))
  | some value => do
    Checked.ensure ((∀ bound ∈ constraints.minimum, bound ≤ value) ∧
        (∀ bound ∈ constraints.maximum, value ≤ bound) ∧
        (∀ bound ∈ constraints.exclusiveMinimum, bound < value))
      (.invalid (path ++ " is outside its finite numeric range"))
    -- `math.isfinite` converts an integer to a double first
    Checked.ensure (number.fitsDouble = true) .overflow

/-- The checks of one scalar that has the right type. -/
def Scalar.check (constraints : Scalar) (path : String) (value : Json) : Except InputFault Unit :=
  match value with
  | .num number => constraints.checkRange path number
  | .str text => do
    Checked.ensure (text ≠ "" ∧ '\x00' ∉ text.toList)
      (.invalid (path ++ " must be a nonempty string without NUL"))
    -- the quotes are those of `repr` for a text without quotes of its own
    Checked.ensure (∀ values ∈ constraints.enum, text ∈ values)
      (.invalid (path ++ " has unsupported value '" ++ text ++ "'"))
  | _ => .ok ()

/-- `_normalize` of a scalar. -/
def Scalar.normalize (constraints : Scalar) (path : String) (value : Json) :
    Except InputFault Json := do
  Checked.ensure (constraints.kind.admits value = true)
    (.invalid (path ++ " must be " ++ constraints.kind.name))
  constraints.check path value
  return value

def Json.isNull : Json → Bool
  | .null => true
  | _ => false

/-- Replace an unspecified value by the default, which may itself be `null`. -/
def withDefault (default : Option Json) (path : String) (value : Json)
    (check : Json → Except InputFault Json) : Except InputFault Json :=
  if value.isNull then
    match default with
    | none => .error (.invalid (path ++ " is required"))
    | some .null => .ok .null
    | some value => check value
  else check value

/-- The first field, in sorted order, that is no property. -/
def unknownField? (properties : List (String × Spec)) (fields : List (String × Json)) :
    Option String :=
  (((Dict.keys fields).filter (· ∉ properties.map (·.1))).insertionSort (· ≤ ·)).head?

/-- The fields of an object that has known fields only. -/
def knownFields (properties : List (String × Spec)) (path : String) :
    Json → Except InputFault (List (String × Json))
  | .obj fields =>
    match unknownField? properties fields with
    | some key => .error (.invalid ("unknown field " ++ path ++ "." ++ key))
    | none => .ok fields
  | _ => .error (.invalid (path ++ " must be an object"))

/-- The items of an array of an allowed length. -/
def boundedItems (minItems : ℕ) (maxItems : Option ℕ) (path : String) :
    Json → Except InputFault (List Json)
  | .arr items => do
    Checked.ensure (minItems ≤ items.length ∧ ∀ bound ∈ maxItems, items.length ≤ bound)
      (.invalid (path ++ " has invalid array length or type"))
    return items
  | _ => .error (.invalid (path ++ " has invalid array length or type"))

/-- An unspecified property that may be left out. -/
def skipped (required : List String) (key : String) (child : Spec) (fields : List (String × Json)) :
    Bool :=
  ((Dict.get? fields key).getD .null).isNull && !required.contains key && child.default.isNone

mutual

/-- `_normalize`, without the record of where each value came from. -/
def normalize : Spec → String → Json → Except InputFault Json
  | .scalar constraints, path, value =>
    withDefault constraints.default path value (constraints.normalize path)
  | .object properties required default, path, value =>
    withDefault default path value fun value => do
      let fields ← knownFields properties path value
      let result ← normalizeProperties properties required path fields
      return .obj result
  | .array items minItems maxItems default, path, value =>
    withDefault default path value fun value => do
      let list ← boundedItems minItems maxItems path value
      let result ← list.zipIdx.mapM fun entry =>
        normalize items (path ++ "[" ++ toString entry.2 ++ "]") entry.1
      return .arr result

/-- The properties of an object, in the order of the schema. -/
def normalizeProperties : List (String × Spec) → List String → String → List (String × Json) →
    Except InputFault (List (String × Json))
  | [], _, _, _ => .ok []
  | (key, child) :: properties, required, path, fields =>
    if skipped required key child fields then normalizeProperties properties required path fields
    else do
      let value ← normalize child (path ++ "." ++ key) ((Dict.get? fields key).getD .null)
      let result ← normalizeProperties properties required path fields
      return (key, value) :: result

end

/-- An accepted value is `null` by default, or has passed the check. -/
theorem withDefault_ok {default : Option Json} {path : String} {value result : Json}
    {check : Json → Except InputFault Json} (h : withDefault default path value check = .ok result) :
    (default = some .null ∧ result = .null) ∨ ∃ u, u.isNull = false ∧ check u = .ok result := by
  unfold withDefault at h
  split at h
  · cases default with
    | none => cases h
    | some d =>
      cases d with
      | null => exact Or.inl ⟨rfl, by injection h with h; exact h.symm⟩
      | _ => exact Or.inr ⟨_, rfl, h⟩
  · rename_i hv
    exact Or.inr ⟨value, by simpa using hv, h⟩

theorem withDefault_of_not_null {default : Option Json} {path : String} {value : Json}
    {check : Json → Except InputFault Json} (h : value.isNull = false) :
    withDefault default path value check = check value := by
  unfold withDefault
  rw [if_neg (by simp [h])]

theorem withDefault_null {path : String} {check : Json → Except InputFault Json} :
    withDefault (some .null) path .null check = .ok .null := rfl

/-- The values a scalar schema accepts, whatever the path of the field. -/
def Scalar.Accepts (constraints : Scalar) : Json → Prop
  | .num number => constraints.kind.admits (.num number) = true ∧ number.fitsDouble = true ∧
    ∃ value, number.value? = some value ∧ (∀ bound ∈ constraints.minimum, bound ≤ value) ∧
      (∀ bound ∈ constraints.maximum, value ≤ bound) ∧
      (∀ bound ∈ constraints.exclusiveMinimum, bound < value)
  | .str text => constraints.kind.admits (.str text) = true ∧ text ≠ "" ∧ '\x00' ∉ text.toList ∧
    ∀ values ∈ constraints.enum, text ∈ values
  | value => constraints.kind.admits value = true

theorem Scalar.checkRange_ok {constraints : Scalar} {path : String} {number : Number} :
    constraints.checkRange path number = .ok () ↔ number.fitsDouble = true ∧
      ∃ value, number.value? = some value ∧ (∀ bound ∈ constraints.minimum, bound ≤ value) ∧
        (∀ bound ∈ constraints.maximum, value ≤ bound) ∧
        (∀ bound ∈ constraints.exclusiveMinimum, bound < value) := by
  unfold Scalar.checkRange
  cases number.value? with
  | none => simp
  | some value =>
    simp only [Checked.bind_ok, Checked.ensure_ok, Option.some.injEq, exists_eq_left']
    constructor
    · rintro ⟨_, hrange, hfits⟩
      exact ⟨hfits, hrange⟩
    · rintro ⟨hfits, hrange⟩
      exact ⟨(), hrange, hfits⟩

/-- A scalar that is accepted is returned as it is. -/
theorem Scalar.normalize_ok {constraints : Scalar} {path : String} {value result : Json} :
    constraints.normalize path value = .ok result ↔ constraints.Accepts value ∧ result = value := by
  unfold Scalar.normalize
  simp only [Checked.bind_ok, Checked.ensure_ok, Checked.pure_ok]
  constructor
  · rintro ⟨_, hkind, _, hcheck, rfl⟩
    refine ⟨?_, rfl⟩
    cases value with
    | num number => exact ⟨hkind, Scalar.checkRange_ok.mp hcheck⟩
    | str text =>
      simp only [Scalar.check, Checked.bind_ok, Checked.ensure_ok] at hcheck
      obtain ⟨_, ⟨hne, hnul⟩, henum⟩ := hcheck
      exact ⟨hkind, hne, hnul, henum⟩
    | _ => exact hkind
  · rintro ⟨h, rfl⟩
    cases result with
    | num number => exact ⟨(), h.1, (), Scalar.checkRange_ok.mpr h.2, rfl⟩
    | str text =>
      obtain ⟨hkind, hne, hnul, henum⟩ := h
      refine ⟨(), hkind, (), ?_, rfl⟩
      simp only [Scalar.check, Checked.bind_ok, Checked.ensure_ok]
      exact ⟨(), ⟨hne, hnul⟩, henum⟩
    | _ => exact ⟨(), h, (), rfl, rfl⟩

/-- Normalization of a scalar that is specified. -/
theorem normalize_scalar {constraints : Scalar} {path : String} {value result : Json}
    (hvalue : value.isNull = false) :
    normalize (.scalar constraints) path value = .ok result ↔
      constraints.Accepts value ∧ result = value := by
  rw [normalize, withDefault_of_not_null hvalue, Scalar.normalize_ok]

theorem unknownField?_eq_none {properties : List (String × Spec)} {fields : List (String × Json)} :
    unknownField? properties fields = none ↔
      ∀ key ∈ Dict.keys fields, key ∈ properties.map (·.1) := by
  unfold unknownField?
  rw [List.head?_eq_none_iff, ← List.length_eq_zero_iff, List.length_insertionSort,
    List.length_eq_zero_iff, List.filter_eq_nil_iff]
  simp

theorem knownFields_ok {properties : List (String × Spec)} {path : String} {value : Json}
    {fields : List (String × Json)} :
    knownFields properties path value = .ok fields ↔
      value = .obj fields ∧ ∀ key ∈ Dict.keys fields, key ∈ properties.map (·.1) := by
  cases value with
  | obj given =>
    rw [knownFields]
    cases h : unknownField? properties given with
    | none =>
      have hknown := unknownField?_eq_none.mp h
      constructor
      · rintro ⟨⟩
        exact ⟨rfl, hknown⟩
      · rintro ⟨⟨⟩, _⟩
        rfl
    | some key =>
      simp only [reduceCtorEq, Json.obj.injEq, false_iff, not_and]
      rintro rfl hknown
      rw [unknownField?_eq_none.mpr hknown] at h
      cases h
  | _ => simp [knownFields]

theorem boundedItems_ok {minItems : ℕ} {maxItems : Option ℕ} {path : String} {value : Json}
    {items : List Json} :
    boundedItems minItems maxItems path value = .ok items ↔
      value = .arr items ∧ minItems ≤ items.length ∧ ∀ bound ∈ maxItems, items.length ≤ bound := by
  cases value with
  | arr given =>
    simp only [boundedItems, Checked.bind_ok, Checked.ensure_ok, Checked.pure_ok, Json.arr.injEq]
    constructor
    · rintro ⟨_, h, rfl⟩
      exact ⟨rfl, h⟩
    · rintro ⟨rfl, h⟩
      exact ⟨(), h, rfl⟩
  | _ => simp [boundedItems]

/-- What `_normalize` returns for an object. -/
theorem normalize_object {properties : List (String × Spec)} {required : List String}
    {default : Option Json} {path : String} {value result : Json}
    (h : normalize (.object properties required default) path value = .ok result) :
    (default = some .null ∧ result = .null) ∨ ∃ fields out, result = .obj out ∧
      normalizeProperties properties required path fields = .ok out := by
  rw [normalize] at h
  rcases withDefault_ok h with h | ⟨u, _, h⟩
  · exact Or.inl h
  · simp only [Checked.bind_ok, Checked.pure_ok] at h
    obtain ⟨fields, _, out, hout, rfl⟩ := h
    exact Or.inr ⟨fields, out, rfl, hout⟩

theorem normalize_object_obj {properties : List (String × Spec)} {required : List String}
    {default : Option Json} {path : String} {fields out : List (String × Json)} :
    normalize (.object properties required default) path (.obj fields) = .ok (.obj out) ↔
      (∀ key ∈ Dict.keys fields, key ∈ properties.map (·.1)) ∧
        normalizeProperties properties required path fields = .ok out := by
  rw [normalize, withDefault_of_not_null rfl]
  simp only [Checked.bind_ok, Checked.pure_ok, knownFields_ok, Json.obj.injEq]
  constructor
  · rintro ⟨_, ⟨rfl, hknown⟩, _, h, rfl⟩
    exact ⟨hknown, h⟩
  · rintro ⟨hknown, h⟩
    exact ⟨fields, ⟨rfl, hknown⟩, out, h, rfl⟩

/-- Only a schema whose default is `null` returns `null`. -/
theorem normalize_null {spec : Spec} {path : String} {value : Json}
    (h : normalize spec path value = .ok .null) : spec.default = some .null := by
  cases spec with
  | scalar constraints =>
    rw [normalize] at h
    rcases withDefault_ok h with ⟨h, _⟩ | ⟨u, hu, h⟩
    · exact h
    · rw [← (Scalar.normalize_ok.mp h).2] at hu
      cases hu
  | object properties required default =>
    rcases normalize_object h with ⟨h, _⟩ | ⟨_, _, h, _⟩
    · exact h
    · cases h
  | array items minItems maxItems default =>
    rw [normalize] at h
    rcases withDefault_ok h with ⟨h, _⟩ | ⟨u, _, h⟩
    · exact h
    · simp [Checked.bind_ok] at h

/-- The properties that are returned stand in the order of the schema. -/
theorem normalizeProperties_keys {properties : List (String × Spec)} {required : List String}
    {path : String} {fields out : List (String × Json)}
    (h : normalizeProperties properties required path fields = .ok out) :
    (Dict.keys out).Sublist (properties.map (·.1)) := by
  induction properties generalizing out with
  | nil =>
    rw [normalizeProperties] at h
    injection h with h
    subst h
    exact List.Sublist.refl _
  | cons property properties ih =>
    obtain ⟨key, child⟩ := property
    rw [normalizeProperties] at h
    split at h
    · exact (ih h).cons key
    · simp only [Checked.bind_ok, Checked.pure_ok] at h
      obtain ⟨value, _, result, hresult, rfl⟩ := h
      exact (ih hresult).cons_cons key

/-- What is returned for the items of an array, is returned for itself. -/
theorem mapM_zipIdx_idem {f : Json × ℕ → Except InputFault Json}
    (hf : ∀ entry result, f entry = .ok result → f (result, entry.2) = .ok result) {n : ℕ}
    {items results : List Json} (h : (items.zipIdx n).mapM f = .ok results) :
    (results.zipIdx n).mapM f = .ok results := by
  induction items generalizing n results with
  | nil =>
    rw [List.zipIdx_nil, List.mapM_nil, Checked.pure_ok] at h
    subst h
    rfl
  | cons item items ih =>
    simp only [List.zipIdx_cons, List.mapM_cons, Checked.bind_ok, Checked.pure_ok] at h
    obtain ⟨result, hresult, rest, hrest, rfl⟩ := h
    simp only [List.zipIdx_cons, List.mapM_cons, Checked.bind_ok, Checked.pure_ok]
    exact ⟨result, hf _ _ hresult, rest, ih hrest, rfl⟩

theorem Spec.propertiesWellFormed_nodup {properties : List (String × Spec)}
    (h : Spec.propertiesWellFormed properties = true) : (properties.map (·.1)).Nodup := by
  induction properties with
  | nil => exact List.nodup_nil
  | cons property properties ih =>
    obtain ⟨key, child⟩ := property
    rw [Spec.propertiesWellFormed_cons] at h
    exact List.nodup_cons.mpr ⟨h.1, ih h.2.2⟩

theorem skipped_congr {required : List String} {key : String} {child : Spec}
    {f g : List (String × Json)} (h : Dict.get? f key = Dict.get? g key) :
    skipped required key child f = skipped required key child g := by
  unfold skipped
  rw [h]

/-- A property that has a value other than `null` is not skipped. -/
theorem skipped_eq_false {required : List String} {key : String} {child : Spec}
    {fields : List (String × Json)} {value : Json} (h : Dict.get? fields key = some value)
    (hnull : value = .null → child.default ≠ none) : skipped required key child fields = false := by
  unfold skipped
  rw [h, Option.getD_some]
  cases hv : value.isNull with
  | false => rfl
  | true =>
    have hvalue : value = .null := by
      cases value <;> simp_all [Json.isNull]
    have := hnull hvalue
    cases hd : child.default with
    | none => exact absurd hd this
    | some d => simp

/-- Only the fields that are properties are read. -/
theorem normalizeProperties_congr {properties : List (String × Spec)} {required : List String}
    {path : String} {f g : List (String × Json)}
    (h : ∀ key ∈ properties.map (·.1), Dict.get? f key = Dict.get? g key) :
    normalizeProperties properties required path f =
      normalizeProperties properties required path g := by
  induction properties with
  | nil => rw [normalizeProperties, normalizeProperties]
  | cons property properties ih =>
    obtain ⟨key, child⟩ := property
    rw [List.map_cons] at h
    rw [normalizeProperties, normalizeProperties, ih fun k hk => h k (List.mem_cons_of_mem _ hk),
      skipped_congr (h key List.mem_cons_self), h key List.mem_cons_self]

theorem normalizeProperties_get?_of_notMem {properties : List (String × Spec)}
    {required : List String} {path : String} {fields out : List (String × Json)}
    (h : normalizeProperties properties required path fields = .ok out) {key : String}
    (hkey : key ∉ properties.map (·.1)) : Dict.get? out key = none :=
  Dict.get?_eq_none.mpr fun hmem => hkey ((normalizeProperties_keys h).subset hmem)

mutual

/-- **A normalized value is normalized to itself.** -/
theorem normalize_idem : ∀ (spec : Spec), spec.wellFormed = true →
    ∀ {path : String} {value result : Json},
      normalize spec path value = .ok result → normalize spec path result = .ok result
  | .scalar constraints, _, path, value, result, h => by
    rw [normalize] at h ⊢
    rcases withDefault_ok h with ⟨hd, rfl⟩ | ⟨u, hu, h⟩
    · rw [hd, withDefault_null]
    · obtain ⟨_, rfl⟩ := Scalar.normalize_ok.mp h
      rw [withDefault_of_not_null hu]
      exact h
  | .object properties required default, hw, path, value, result, h => by
    rw [Spec.wellFormed] at hw
    rcases normalize_object h with ⟨hd, rfl⟩ | ⟨fields, out, rfl, hout⟩
    · rw [normalize, hd, withDefault_null]
    · exact normalize_object_obj.mpr ⟨fun key hkey => (normalizeProperties_keys hout).subset hkey,
        normalizeProperties_idem properties hw hout fun _ _ => rfl⟩
  | .array items minItems maxItems default, hw, path, value, result, h => by
    rw [Spec.wellFormed] at hw
    rw [normalize] at h ⊢
    rcases withDefault_ok h with ⟨hd, rfl⟩ | ⟨u, _, h⟩
    · rw [hd, withDefault_null]
    · simp only [Checked.bind_ok, Checked.pure_ok, boundedItems_ok] at h
      obtain ⟨list, ⟨_, hmin, hmax⟩, results, hresults, rfl⟩ := h
      have hlen : list.length = results.length := by
        simpa using (Checked.mapM_ok.mp hresults).length_eq
      rw [withDefault_of_not_null rfl]
      simp only [Checked.bind_ok, Checked.pure_ok, boundedItems_ok]
      refine ⟨results, ⟨rfl, hlen ▸ hmin, hlen ▸ hmax⟩, results, ?_, rfl⟩
      apply mapM_zipIdx_idem _ hresults
      intro entry result hresult
      exact normalize_idem items hw hresult

/-- Fields that agree with the normalized ones are normalized to these. -/
theorem normalizeProperties_idem : ∀ (properties : List (String × Spec)),
    Spec.propertiesWellFormed properties = true → ∀ {required : List String} {path : String}
      {fields out other : List (String × Json)},
      normalizeProperties properties required path fields = .ok out →
      (∀ key ∈ properties.map (·.1), Dict.get? other key = Dict.get? out key) →
      normalizeProperties properties required path other = .ok out
  | [], _, required, path, fields, out, other, h, _ => by
    rw [normalizeProperties] at h ⊢
    exact h
  | (key, child) :: properties, hw, required, path, fields, out, other, h, hagree => by
    rw [Spec.propertiesWellFormed_cons] at hw
    obtain ⟨hnot, hchild, hrest⟩ := hw
    have hother := hagree key List.mem_cons_self
    rw [normalizeProperties] at h ⊢
    split at h
    · -- the property was left out, and is not among the fields
      rename_i hskip
      have hnone := normalizeProperties_get?_of_notMem h hnot
      rw [hnone] at hother
      have : skipped required key child other = true := by
        unfold skipped at hskip ⊢
        rw [hother]
        simp_all [Json.isNull]
      rw [if_pos this]
      exact normalizeProperties_idem properties hrest h fun k hk =>
        hagree k (List.mem_cons_of_mem _ hk)
    · simp only [Checked.bind_ok, Checked.pure_ok] at h
      obtain ⟨value, hvalue, result, hresult, rfl⟩ := h
      have hget : Dict.get? other key = some value := by
        rw [hother, Dict.get?_cons, if_pos rfl]
      have : skipped required key child other = false := by
        refine skipped_eq_false hget ?_
        rintro rfl
        rw [normalize_null hvalue]
        simp
      rw [if_neg (by simp [this])]
      simp only [Checked.bind_ok, Checked.pure_ok]
      refine ⟨value, ?_, result, ?_, rfl⟩
      · rw [hget]
        exact normalize_idem child hchild hvalue
      · apply normalizeProperties_idem properties hrest hresult
        intro k hk
        have hne : key ≠ k := by
          rintro rfl
          exact hnot hk
        rw [hagree k (List.mem_cons_of_mem _ hk), Dict.get?_cons, if_neg hne]

end

/-- What is returned at a property. -/
theorem normalizeProperties_get? {properties : List (String × Spec)}
    (hnodup : (properties.map (·.1)).Nodup) {required : List String} {path : String}
    {fields out : List (String × Json)}
    (h : normalizeProperties properties required path fields = .ok out) {key : String} {child : Spec}
    (hmem : (key, child) ∈ properties) :
    (skipped required key child fields = true ∧ Dict.get? out key = none) ∨
      (skipped required key child fields = false ∧ ∃ value,
        normalize child (path ++ "." ++ key) ((Dict.get? fields key).getD .null) = .ok value ∧
          Dict.get? out key = some value) := by
  induction properties generalizing out with
  | nil => cases hmem
  | cons property properties ih =>
    obtain ⟨k, c⟩ := property
    obtain ⟨hnot, hnodup⟩ := List.nodup_cons.mp hnodup
    rw [normalizeProperties] at h
    by_cases hk : k = key
    · obtain rfl : c = child := by
        rcases List.mem_cons.mp hmem with hmem | hmem
        · exact (Prod.mk.inj hmem).2.symm
        · exact absurd (List.mem_map.mpr ⟨_, hmem, hk.symm⟩) hnot
      subst hk
      split at h
      · rename_i hskip
        exact Or.inl ⟨hskip, normalizeProperties_get?_of_notMem h hnot⟩
      · rename_i hskip
        simp only [Checked.bind_ok, Checked.pure_ok] at h
        obtain ⟨value, hvalue, result, hresult, rfl⟩ := h
        exact Or.inr ⟨by simpa using hskip, value, hvalue, by rw [Dict.get?_cons, if_pos rfl]⟩
    · have hmem : (key, child) ∈ properties := by
        rcases List.mem_cons.mp hmem with hmem | hmem
        · exact absurd (Prod.mk.inj hmem).1.symm hk
        · exact hmem
      split at h
      · exact ih hnodup h hmem
      · simp only [Checked.bind_ok, Checked.pure_ok] at h
        obtain ⟨value, _, result, hresult, rfl⟩ := h
        rw [Dict.get?_cons, if_neg hk]
        exact ih hnodup hresult hmem

/-- Normalization succeeds when it does for every property that is not left out. -/
theorem normalizeProperties_total {properties : List (String × Spec)} {required : List String}
    {path : String} {fields : List (String × Json)}
    (h : ∀ property ∈ properties, skipped required property.1 property.2 fields = false →
      ∃ value, normalize property.2 (path ++ "." ++ property.1)
        ((Dict.get? fields property.1).getD .null) = .ok value) :
    ∃ out, normalizeProperties properties required path fields = .ok out := by
  induction properties with
  | nil => exact ⟨[], by rw [normalizeProperties]⟩
  | cons property properties ih =>
    obtain ⟨key, child⟩ := property
    obtain ⟨result, hresult⟩ := ih fun p hp => h p (List.mem_cons_of_mem _ hp)
    rw [normalizeProperties]
    by_cases hskip : skipped required key child fields = true
    · exact ⟨result, by rw [if_pos hskip]; exact hresult⟩
    · obtain ⟨value, hvalue⟩ := h _ List.mem_cons_self (by simpa using hskip)
      refine ⟨(key, value) :: result, ?_⟩
      rw [if_neg hskip]
      simp only [Checked.bind_ok, Checked.pure_ok]
      exact ⟨value, hvalue, result, hresult, rfl⟩

/-- **Replacing a property that is present replaces what is returned for it.** -/
theorem normalizeProperties_set {properties : List (String × Spec)}
    (hnodup : (properties.map (·.1)).Nodup) {required : List String} {path : String}
    {fields out : List (String × Json)}
    (h : normalizeProperties properties required path fields = .ok out) {key : String} {child : Spec}
    (hmem : (key, child) ∈ properties) (hkey : key ∈ Dict.keys out) {value result : Json}
    (hnull : value = .null → child.default ≠ none)
    (hvalue : normalize child (path ++ "." ++ key) value = .ok result) :
    normalizeProperties properties required path (Dict.set fields key value) =
      .ok (Dict.set out key result) := by
  induction properties generalizing out with
  | nil => cases hmem
  | cons property properties ih =>
    obtain ⟨k, c⟩ := property
    obtain ⟨hnot, hnodup⟩ := List.nodup_cons.mp hnodup
    rw [normalizeProperties] at h ⊢
    by_cases hk : k = key
    · obtain rfl : c = child := by
        rcases List.mem_cons.mp hmem with hmem | hmem
        · exact (Prod.mk.inj hmem).2.symm
        · exact absurd (List.mem_map.mpr ⟨_, hmem, hk.symm⟩) hnot
      subst hk
      have hrest : normalizeProperties properties required path (Dict.set fields k value) =
          normalizeProperties properties required path fields := by
        apply normalizeProperties_congr
        intro j hj
        apply Dict.get?_set_ne
        rintro rfl
        exact hnot hj
      have hskip : skipped required k c (Dict.set fields k value) = false :=
        skipped_eq_false (Dict.get?_set_self _ _ _) hnull
      rw [if_neg (by simp [hskip]), hrest]
      split at h
      · exact absurd ((normalizeProperties_keys h).subset hkey) hnot
      · simp only [Checked.bind_ok, Checked.pure_ok] at h ⊢
        obtain ⟨old, _, rest, hrest, rfl⟩ := h
        refine ⟨result, ?_, rest, hrest, ?_⟩
        · rw [Dict.get?_set_self]
          exact hvalue
        · rw [Dict.set, if_pos rfl]
    · have hmem : (key, child) ∈ properties := by
        rcases List.mem_cons.mp hmem with hmem | hmem
        · exact absurd (Prod.mk.inj hmem).1.symm hk
        · exact hmem
      have hget : Dict.get? (Dict.set fields key value) k = Dict.get? fields k :=
        Dict.get?_set_ne _ _ (Ne.symm hk)
      rw [skipped_congr hget, hget]
      split at h
      · rename_i hskip
        rw [if_pos hskip]
        exact ih hnodup h hmem hkey
      · rename_i hskip
        rw [if_neg hskip]
        simp only [Checked.bind_ok, Checked.pure_ok] at h ⊢
        obtain ⟨old, hold, rest, hrest, rfl⟩ := h
        have hkey : key ∈ Dict.keys rest := by
          rcases List.mem_cons.mp hkey with hkey | hkey
          · exact absurd hkey.symm hk
          · exact hkey
        refine ⟨old, hold, Dict.set rest key result, ih hnodup hrest hmem hkey, ?_⟩
        rw [Dict.set, if_neg hk]

/-! ## The names in a document -/

namespace Json

mutual

/-- Every field at any depth has a name with the property. -/
def AllNames (P : String → Prop) : Json → Prop
  | .null | .bool _ | .num _ | .str _ => True
  | .arr items => AllNamesItems P items
  | .obj fields => AllNamesFields P fields

def AllNamesItems (P : String → Prop) : List Json → Prop
  | [] => True
  | item :: items => AllNames P item ∧ AllNamesItems P items

def AllNamesFields (P : String → Prop) : List (String × Json) → Prop
  | [] => True
  | (key, value) :: fields => P key ∧ AllNames P value ∧ AllNamesFields P fields

end

variable {P : String → Prop}

theorem allNames_arr {items : List Json} :
    (arr items).AllNames P ↔ ∀ item ∈ items, item.AllNames P := by
  rw [AllNames]
  induction items with
  | nil => simp [AllNamesItems]
  | cons item items ih => rw [AllNamesItems, ih, List.forall_mem_cons]

theorem allNames_obj {fields : List (String × Json)} :
    (obj fields).AllNames P ↔ ∀ entry ∈ fields, P entry.1 ∧ entry.2.AllNames P := by
  rw [AllNames]
  induction fields with
  | nil => simp [AllNamesFields]
  | cons entry fields ih => rw [AllNamesFields, ih, List.forall_mem_cons, and_assoc]

theorem AllNames.set {fields : List (String × Json)} (h : (obj fields).AllNames P) {key : String}
    {value : Json} (hkey : P key) (hvalue : value.AllNames P) :
    (obj (Dict.set fields key value)).AllNames P := by
  rw [allNames_obj] at h ⊢
  intro entry hentry
  rcases Dict.mem_set hentry with hentry | rfl
  · exact h entry hentry
  · exact ⟨hkey, hvalue⟩

theorem AllNames.get? {fields : List (String × Json)} (h : (obj fields).AllNames P) {key : String}
    {value : Json} (hvalue : Dict.get? fields key = some value) : value.AllNames P :=
  (allNames_obj.mp h _ (Dict.mem_of_get? hvalue)).2

end Json

/-- An accepted scalar has no fields. -/
theorem Scalar.Accepts.allNames {P : String → Prop} {constraints : Scalar} {value : Json}
    (h : constraints.Accepts value) : value.AllNames P := by
  cases value with
  | arr items => cases hk : constraints.kind <;> simp [Scalar.Accepts, ScalarKind.admits, hk] at h
  | obj fields => cases hk : constraints.kind <;> simp [Scalar.Accepts, ScalarKind.admits, hk] at h
  | _ => rw [Json.AllNames]; trivial

theorem Json.allNames_null {P : String → Prop} : Json.null.AllNames P := by
  rw [Json.AllNames]
  trivial

mutual

/-- **The names in a normalized document are names of the schema.** -/
theorem normalize_names {P : String → Prop} : ∀ (spec : Spec), (∀ name ∈ spec.names, P name) →
    ∀ {path : String} {value result : Json}, normalize spec path value = .ok result →
      result.AllNames P
  | .scalar constraints, _, path, value, result, h => by
    rw [normalize] at h
    rcases withDefault_ok h with ⟨_, rfl⟩ | ⟨u, _, h⟩
    · exact Json.allNames_null
    · obtain ⟨haccepts, rfl⟩ := Scalar.normalize_ok.mp h
      exact haccepts.allNames
  | .object properties required default, hnames, path, value, result, h => by
    rw [Spec.names] at hnames
    rcases normalize_object h with ⟨_, rfl⟩ | ⟨fields, out, rfl, hout⟩
    · exact Json.allNames_null
    · exact Json.allNames_obj.mpr (normalizeProperties_names properties hnames hout)
  | .array items minItems maxItems default, hnames, path, value, result, h => by
    rw [Spec.names] at hnames
    rw [normalize] at h
    rcases withDefault_ok h with ⟨_, rfl⟩ | ⟨u, _, h⟩
    · exact Json.allNames_null
    · simp only [Checked.bind_ok, Checked.pure_ok] at h
      obtain ⟨list, _, results, hresults, rfl⟩ := h
      apply Json.allNames_arr.mpr
      intro item hitem
      obtain ⟨entry, _, hentry⟩ := Checked.mapM_right hresults hitem
      exact normalize_names items hnames hentry

theorem normalizeProperties_names {P : String → Prop} : ∀ (properties : List (String × Spec)),
    (∀ name ∈ Spec.propertyNames properties, P name) → ∀ {required : List String}
      {path : String} {fields out : List (String × Json)},
      normalizeProperties properties required path fields = .ok out →
      ∀ entry ∈ out, P entry.1 ∧ entry.2.AllNames P
  | [], _, required, path, fields, out, h => by
    rw [normalizeProperties] at h
    cases h
    exact fun _ he => absurd he List.not_mem_nil
  | (key, child) :: properties, hnames, required, path, fields, out, h => by
    rw [Spec.propertyNames] at hnames
    simp only [List.mem_cons, List.mem_append] at hnames
    rw [normalizeProperties] at h
    split at h
    · exact normalizeProperties_names properties (fun n hn => hnames n (Or.inr (Or.inr hn))) h
    · simp only [Checked.bind_ok, Checked.pure_ok] at h
      obtain ⟨value, hvalue, result, hresult, rfl⟩ := h
      intro entry hentry
      rcases List.mem_cons.mp hentry with rfl | hentry
      · exact ⟨hnames key (Or.inl rfl),
          normalize_names child (fun n hn => hnames n (Or.inr (Or.inl hn))) hvalue⟩
      · exact normalizeProperties_names properties (fun n hn => hnames n (Or.inr (Or.inr hn)))
          hresult entry hentry

end

end VeriCCL
