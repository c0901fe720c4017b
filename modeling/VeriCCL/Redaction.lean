import VeriCCL.RequestSchema

/-! # Redaction of saved documents

`Redactor.value` of `execution/security.py`, through which every saved document passes.  On
the documents of a request it replaces texts only, so what a document says apart from its
texts (`Json.blank`) is what was saved.  Normalization respects this: documents that
differ in texts are normalized to documents that differ in texts. -/
namespace VeriCCL

/-- The lower-case words between the separators of a key. -/
def keyWords : List Char → List (List Char)
  | [] => [[]]
  | c :: key =>
    if c = '_' ∨ c = '-' then [] :: keyWords key
    else match keyWords key with
      | [] => [[c.toLower]]
      | word :: words => (c.toLower :: word) :: words

/-- The words of `_SECRET_KEY`. -/
def secretWords : List (List Char) :=
  [['p', 'a', 's', 's', 'w', 'o', 'r', 'd'], ['p', 'a', 's', 's', 'w', 'd'],
    ['t', 'o', 'k', 'e', 'n'], ['s', 'e', 'c', 'r', 'e', 't'],
    ['p', 'r', 'i', 'v', 'a', 't', 'e', 'k', 'e', 'y'], ['a', 'p', 'i', 'k', 'e', 'y'],
    ['c', 'r', 'e', 'd', 'e', 'n', 't', 'i', 'a', 'l']]

/-- The secrets that are spelled as two words. -/
def secretPairs : List (List Char × List Char) :=
  [(['p', 'r', 'i', 'v', 'a', 't', 'e'], ['k', 'e', 'y']), (['a', 'p', 'i'], ['k', 'e', 'y'])]

/-- A word, or two that follow each other, name a credential. -/
def secretIn (words : List (List Char)) : Bool :=
  words.any secretWords.contains || (words.zip words.tail).any secretPairs.contains

/-- `sensitive_key`. -/
def sensitiveKey (key : String) : Bool := secretIn (keyWords key.toList)

example : sensitiveKey "API-Key" = true ∧ sensitiveKey "tokens" = false := by decide +kernel

/-- `Redactor.text` of a value that is a text. -/
def redactText (redact : String → String) : Json → Json
  | .str text => .str (redact text)
  | json => json

/-- An environment keeps the variables on the allowlist. -/
def redactEnvironment (redact : String → String) (values : List (String × Json)) :
    List (String × Json) :=
  (values.filter fun entry => RequestSchema.environmentAllowlist.contains entry.1).map fun entry =>
    (entry.1, redactText redact entry.2)

mutual

/-- `Redactor.value`; `argv` and `command` name no field of the documents saved here. -/
def redactValue (redact : String → String) : Json → Json
  | .null => .null
  | .bool value => .bool value
  | .num value => .num value
  | .str text => .str (redact text)
  | .arr items => .arr (redactItems redact items)
  | .obj fields => .obj (redactFields redact fields)

def redactItems (redact : String → String) : List Json → List Json
  | [] => []
  | item :: items => redactValue redact item :: redactItems redact items

def redactFields (redact : String → String) : List (String × Json) → List (String × Json)
  | [] => []
  | (key, item) :: fields =>
    (key, if sensitiveKey key then .str "[REDACTED]"
      else match ["environment", "env"].contains key, item with
        | true, .obj values => .obj (redactEnvironment redact values)
        | _, item => redactValue redact item) :: redactFields redact fields

end

namespace Json

mutual

/-- The document with every text blanked. -/
def blank : Json → Json
  | .null => .null
  | .bool value => .bool value
  | .num value => .num value
  | .str _ => .str ""
  | .arr items => .arr (blankItems items)
  | .obj fields => .obj (blankFields fields)

def blankItems : List Json → List Json
  | [] => []
  | item :: items => blank item :: blankItems items

def blankFields : List (String × Json) → List (String × Json)
  | [] => []
  | (key, value) :: fields => (key, blank value) :: blankFields fields

end

theorem blankItems_eq (items : List Json) : blankItems items = items.map blank := by
  induction items with
  | nil => rfl
  | cons item items ih => rw [blankItems, ih, List.map_cons]

theorem get?_blankFields (fields : List (String × Json)) (key : String) :
    Dict.get? (blankFields fields) key = (Dict.get? fields key).map blank := by
  induction fields with
  | nil => rfl
  | cons entry fields ih =>
    obtain ⟨k, value⟩ := entry
    rw [blankFields, Dict.get?_cons, Dict.get?_cons, ih]
    by_cases hk : k = key <;> simp [hk]

end Json

/-- A name that redaction does not look at. -/
def Plain (name : String) : Prop :=
  sensitiveKey name = false ∧ ["environment", "env"].contains name = false

instance : DecidablePred Plain := fun _ => inferInstanceAs (Decidable (_ ∧ _))

theorem topology_plain : ∀ name ∈ RequestSchema.topology.names, Plain name := by decide

theorem atom_plain : ∀ name ∈ RequestSchema.atom.names, Plain name := by decide

theorem sketch_plain : ∀ name ∈ RequestSchema.sketch.names, Plain name := by decide +kernel

mutual

/-- **Redaction changes texts only.** -/
theorem blank_redactValue {redact : String → String} : ∀ {json : Json}, json.AllNames Plain →
    (redactValue redact json).blank = json.blank
  | .null, _ | .bool _, _ | .num _, _ | .str _, _ => by rw [redactValue] <;> rfl
  | .arr items, h => by
    rw [Json.AllNames] at h
    rw [redactValue, Json.blank, Json.blank, blank_redactItems h]
  | .obj fields, h => by
    rw [Json.AllNames] at h
    rw [redactValue, Json.blank, Json.blank, blank_redactFields h]

theorem blank_redactItems {redact : String → String} : ∀ {items : List Json},
    Json.AllNamesItems Plain items →
      Json.blankItems (redactItems redact items) = Json.blankItems items
  | [], _ => by rw [redactItems]
  | item :: items, h => by
    rw [Json.AllNamesItems] at h
    rw [redactItems, Json.blankItems, Json.blankItems, blank_redactValue h.1, blank_redactItems h.2]

theorem blank_redactFields {redact : String → String} : ∀ {fields : List (String × Json)},
    Json.AllNamesFields Plain fields →
      Json.blankFields (redactFields redact fields) = Json.blankFields fields
  | [], _ => by rw [redactFields]
  | (key, item) :: fields, h => by
    rw [Json.AllNamesFields] at h
    obtain ⟨⟨hsensitive, henvironment⟩, hitem, hfields⟩ := h
    rw [redactFields, Json.blankFields, Json.blankFields, blank_redactFields hfields,
      ← blank_redactValue hitem]
    · rw [hsensitive]
      rfl
    · intro values hkey
      rw [henvironment] at hkey
      cases hkey

end

/-! ## Normalization of documents that differ in texts -/

theorem Json.blank_isNull {a b : Json} (h : a.blank = b.blank) : a.isNull = b.isNull := by
  cases a <;> cases b <;> simp_all [Json.blank, Json.isNull]

theorem Json.blank_obj {a : Json} {fields : List (String × Json)}
    (h : a.blank = (Json.obj fields).blank) : ∃ others, a = .obj others ∧
      Json.blankFields others = Json.blankFields fields := by
  cases a <;> simp_all [Json.blank]

theorem Json.blank_arr {a : Json} {items : List Json} (h : a.blank = (Json.arr items).blank) :
    ∃ others, a = .arr others ∧ others.map Json.blank = items.map Json.blank := by
  cases a <;> simp_all [Json.blank, Json.blankItems_eq]

theorem Json.get?_of_blankFields {f g : List (String × Json)}
    (h : Json.blankFields f = Json.blankFields g) (key : String) :
    (Dict.get? f key).map Json.blank = (Dict.get? g key).map Json.blank := by
  rw [← Json.get?_blankFields, h, Json.get?_blankFields]

/-- What is missing is missing in fields that differ in texts. -/
theorem Json.get?_none_of_blank {f g : List (String × Json)}
    (h : Json.blankFields g = Json.blankFields f) {key : String} (hf : Dict.get? f key = none) :
    Dict.get? g key = none := by
  have hget := Json.get?_of_blankFields h key
  rw [hf] at hget
  exact Option.map_eq_none_iff.mp hget

/-- A section is a section in fields that differ in texts. -/
theorem Json.get?_obj_of_blank {f g : List (String × Json)}
    (h : Json.blankFields g = Json.blankFields f) {key : String} {inner : List (String × Json)}
    (hf : Dict.get? f key = some (.obj inner)) : ∃ others, Dict.get? g key = some (.obj others) ∧
      Json.blankFields others = Json.blankFields inner := by
  have hget := Json.get?_of_blankFields h key
  rw [hf, Option.map_some, Option.map_eq_some_iff] at hget
  obtain ⟨value, hvalue, hblank⟩ := hget
  obtain ⟨others, rfl, hothers⟩ := Json.blank_obj hblank
  exact ⟨others, hvalue, hothers⟩

/-- An integer is the same integer in fields that differ in texts. -/
theorem Json.get?_int_of_blank {f g : List (String × Json)}
    (h : Json.blankFields g = Json.blankFields f) {key : String} {n : ℤ}
    (hf : Dict.get? f key = some (.int n)) : Dict.get? g key = some (.int n) := by
  have hget := Json.get?_of_blankFields h key
  rw [hf, Option.map_some, Option.map_eq_some_iff] at hget
  obtain ⟨value, hvalue, hblank⟩ := hget
  cases value <;> simp_all [Json.int, Json.blank]

theorem Json.getD_blank {f g : List (String × Json)}
    (h : Json.blankFields f = Json.blankFields g) (key : String) :
    ((Dict.get? f key).getD .null).blank = ((Dict.get? g key).getD .null).blank := by
  have hget := Json.get?_of_blankFields h key
  cases hf : Dict.get? f key <;> cases hg : Dict.get? g key <;> simp_all

theorem skipped_blank {f g : List (String × Json)} (h : Json.blankFields f = Json.blankFields g)
    {required : List String} {key : String} {child : Spec} :
    skipped required key child f = skipped required key child g := by
  unfold skipped
  rw [Json.blank_isNull (Json.getD_blank h key)]

/-- Two values that differ in texts get the same default, or both their check. -/
theorem withDefault_blank {default : Option Json} {path : String} {a b : Json}
    {check : Json → Except InputFault Json} {a' b' : Json} (h : a.blank = b.blank)
    (ha : withDefault default path a check = .ok a')
    (hb : withDefault default path b check = .ok b') :
    a' = b' ∨ ∃ u v, u.blank = v.blank ∧ check u = .ok a' ∧ check v = .ok b' := by
  have hnull := Json.blank_isNull h
  unfold withDefault at ha hb
  rw [hnull] at ha
  by_cases hb' : b.isNull = true
  · rw [if_pos hb'] at ha hb
    rw [ha] at hb
    injection hb with hb
    exact Or.inl hb
  · rw [if_neg hb'] at ha hb
    exact Or.inr ⟨a, b, h, ha, hb⟩

theorem mapM_zipIdx_blank {f : Json × ℕ → Except InputFault Json}
    (hf : ∀ a b n a' b', a.blank = b.blank → f (a, n) = .ok a' → f (b, n) = .ok b' →
      a'.blank = b'.blank) {n : ℕ} {as bs as' bs' : List Json}
    (h : as.map Json.blank = bs.map Json.blank) (ha : (as.zipIdx n).mapM f = .ok as')
    (hb : (bs.zipIdx n).mapM f = .ok bs') : as'.map Json.blank = bs'.map Json.blank := by
  induction as generalizing bs as' bs' n with
  | nil =>
    obtain rfl : bs = [] := by
      cases bs with
      | nil => rfl
      | cons b bs => cases h
    rw [ha] at hb
    injection hb with hb
    rw [hb]
  | cons a as ih =>
    cases bs with
    | nil => cases h
    | cons b bs =>
      simp only [List.map_cons, List.cons.injEq] at h
      simp only [List.zipIdx_cons, List.mapM_cons, Checked.bind_ok, Checked.pure_ok] at ha hb
      obtain ⟨a', ha', as', has', rfl⟩ := ha
      obtain ⟨b', hb', bs', hbs', rfl⟩ := hb
      rw [List.map_cons, List.map_cons, hf a b n a' b' h.1 ha' hb', ih h.2 has' hbs']

mutual

/-- **Documents that differ in texts are normalized to documents that differ in texts.** -/
theorem normalize_blank : ∀ (spec : Spec) {path : String} {a b a' b' : Json}, a.blank = b.blank →
    normalize spec path a = .ok a' → normalize spec path b = .ok b' → a'.blank = b'.blank
  | .scalar constraints, path, a, b, a', b', h, ha, hb => by
    rw [normalize] at ha hb
    rcases withDefault_blank h ha hb with rfl | ⟨u, v, huv, hu, hv⟩
    · rfl
    · obtain ⟨_, rfl⟩ := Scalar.normalize_ok.mp hu
      obtain ⟨_, rfl⟩ := Scalar.normalize_ok.mp hv
      exact huv
  | .object properties required default, path, a, b, a', b', h, ha, hb => by
    rw [normalize] at ha hb
    rcases withDefault_blank h ha hb with rfl | ⟨u, v, huv, hu, hv⟩
    · rfl
    · simp only [Checked.bind_ok, Checked.pure_ok, knownFields_ok] at hu hv
      obtain ⟨f, ⟨rfl, _⟩, f', hf', rfl⟩ := hu
      obtain ⟨g, ⟨rfl, _⟩, g', hg', rfl⟩ := hv
      simp only [Json.blank, Json.obj.injEq] at huv
      rw [Json.blank, Json.blank, normalizeProperties_blank properties huv hf' hg']
  | .array items minItems maxItems default, path, a, b, a', b', h, ha, hb => by
    rw [normalize] at ha hb
    rcases withDefault_blank h ha hb with rfl | ⟨u, v, huv, hu, hv⟩
    · rfl
    · simp only [Checked.bind_ok, Checked.pure_ok, boundedItems_ok] at hu hv
      obtain ⟨as, ⟨rfl, _⟩, as', has', rfl⟩ := hu
      obtain ⟨bs, ⟨rfl, _⟩, bs', hbs', rfl⟩ := hv
      simp only [Json.blank, Json.arr.injEq, Json.blankItems_eq] at huv ⊢
      apply mapM_zipIdx_blank _ huv has' hbs'
      intro a b n a' b' hab ha hb
      exact normalize_blank items hab ha hb

theorem normalizeProperties_blank : ∀ (properties : List (String × Spec)) {required : List String}
    {path : String} {f g f' g' : List (String × Json)}, Json.blankFields f = Json.blankFields g →
      normalizeProperties properties required path f = .ok f' →
      normalizeProperties properties required path g = .ok g' →
      Json.blankFields f' = Json.blankFields g'
  | [], required, path, f, g, f', g', h, hf, hg => by
    rw [normalizeProperties] at hf hg
    cases hf
    cases hg
    rfl
  | (key, child) :: properties, required, path, f, g, f', g', h, hf, hg => by
    rw [normalizeProperties] at hf hg
    rw [skipped_blank h] at hf
    by_cases hskip : skipped required key child g = true
    · rw [if_pos hskip] at hf hg
      exact normalizeProperties_blank properties h hf hg
    · rw [if_neg hskip] at hf hg
      simp only [Checked.bind_ok, Checked.pure_ok] at hf hg
      obtain ⟨a', ha', f', hf', rfl⟩ := hf
      obtain ⟨b', hb', g', hg', rfl⟩ := hg
      rw [Json.blankFields, Json.blankFields, normalize_blank child (Json.getD_blank h key) ha' hb',
        normalizeProperties_blank properties h hf' hg']

end

end VeriCCL
