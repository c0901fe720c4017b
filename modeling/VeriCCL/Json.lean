import VeriCCL.Checked
import VeriCCL.Dict
import Mathlib.Data.List.Sort
import Mathlib.Data.String.Basic

/-! # Documents

A parsed document is a tree of scalars, arrays and objects.  The fields of an object are
in insertion order, as a Python dictionary has them; two documents are the same when they
agree after the keys of every object are sorted (`Json.canonical`), which is also the form
that is hashed.  Objects with distinct keys and the same value at every key are the same
(`Json.canonical_ext`). -/
namespace VeriCCL

/-- A number of a document: an integer of any size, or a double.  A literal that is out of
range reads as an infinity. -/
inductive Number where
  | int (value : ℤ)
  | float (value : ℚ)
  | negativeZero
  | infinite (negative : Bool)
  deriving DecidableEq

/-- The value of a finite number. -/
def Number.value? : Number → Option ℚ
  | .int value => some value
  | .float value => some value
  | .negativeZero => some 0
  | .infinite _ => none

/-- A parsed document. -/
inductive Json where
  | null
  | bool (value : Bool)
  | num (value : Number)
  | str (value : String)
  | arr (items : List Json)
  | obj (fields : List (String × Json))

namespace Json

/-- An integer. -/
def int (value : ℤ) : Json := .num (.int value)

/-- `get`: the value at a key, when this is an object that has the key. -/
def get? : Json → String → Option Json
  | .obj fields, key => Dict.get? fields key
  | _, _ => none

/-- Assign to a key of an object. -/
def set : Json → String → Json → Json
  | .obj fields, key, value => .obj (Dict.set fields key value)
  | json, _, _ => json

/-- `pop`: an object without a key. -/
def pop : Json → String → Json
  | .obj fields, key => .obj (fields.filter (fun entry => entry.1 ≠ key))
  | json, _ => json

/-- `isinstance(value, dict)`. -/
def isObject : Json → Bool
  | .obj _ => true
  | _ => false

/-- The keys of an object. -/
def keys : Json → List String
  | .obj fields => Dict.keys fields
  | _ => []

/-- Sort the fields of one object. -/
def sortFields (fields : List (String × Json)) : List (String × Json) :=
  fields.insertionSort (fun a b => a.1 ≤ b.1)

mutual

/-- The document with the keys of every object sorted: what `canonical_json` writes. -/
def canonical : Json → Json
  | .null => .null
  | .bool value => .bool value
  | .num value => .num value
  | .str value => .str value
  | .arr items => .arr (canonicalItems items)
  | .obj fields => .obj (sortFields (canonicalFields fields))

def canonicalItems : List Json → List Json
  | [] => []
  | item :: items => canonical item :: canonicalItems items

def canonicalFields : List (String × Json) → List (String × Json)
  | [] => []
  | (key, value) :: fields => (key, canonical value) :: canonicalFields fields

end

mutual

/-- Python's `==`: numbers and booleans by value, objects key by key. -/
def equal : Json → Json → Bool
  | .null, .null => true
  | .str a, .str b => a = b
  | .arr a, .arr b => equalItems a b
  | .obj a, .obj b => a.length = b.length && equalFields a b
  | .num (.infinite a), .num (.infinite b) => a = b
  | .num a, .num b => a.value?.isSome && a.value? = b.value?
  | .bool a, .bool b => a = b
  | .bool a, .num b => b.value? = some (if a then 1 else 0)
  | .num a, .bool b => a.value? = some (if b then 1 else 0)
  | _, _ => false

def equalItems : List Json → List Json → Bool
  | [], [] => true
  | a :: as, b :: bs => equal a b && equalItems as bs
  | _, _ => false

def equalFields : List (String × Json) → List (String × Json) → Bool
  | [], _ => true
  | (key, a) :: fields, others =>
    (match Dict.get? others key with
      | some b => equal a b
      | none => false) && equalFields fields others

end

@[simp] theorem get?_obj (fields : List (String × Json)) (key : String) :
    (obj fields).get? key = Dict.get? fields key := rfl

@[simp] theorem set_obj (fields : List (String × Json)) (key : String) (value : Json) :
    (obj fields).set key value = obj (Dict.set fields key value) := rfl

@[simp] theorem keys_obj (fields : List (String × Json)) : (obj fields).keys = Dict.keys fields :=
  rfl

theorem canonicalItems_eq (items : List Json) : canonicalItems items = items.map canonical := by
  induction items with
  | nil => rfl
  | cons item items ih => rw [canonicalItems, ih, List.map_cons]

theorem canonicalFields_eq (fields : List (String × Json)) :
    canonicalFields fields = fields.map fun entry => (entry.1, entry.2.canonical) := by
  induction fields with
  | nil => rfl
  | cons entry fields ih => rw [canonicalFields, ih, List.map_cons]

theorem canonical_obj (fields : List (String × Json)) :
    (obj fields).canonical = obj (sortFields (fields.map fun entry => (entry.1, entry.2.canonical)))
    := by
  rw [canonical, canonicalFields_eq]

/-- Fields with distinct keys have one sorted order. -/
theorem sortFields_perm {f g : List (String × Json)} (hf : (f.map (·.1)).Nodup) (h : f.Perm g) :
    sortFields f = sortFields g := by
  have hperm : (sortFields f).Perm (sortFields g) :=
    (List.perm_insertionSort _ f).trans (h.trans (List.perm_insertionSort _ g).symm)
  -- only equal entries have equal keys, so the order of the keys is antisymmetric here
  have hanti : ∀ a b, a ∈ sortFields f → b ∈ sortFields g → a.1 ≤ b.1 → b.1 ≤ a.1 → a = b := by
    intro a b ha hb hab hba
    have ha : a ∈ f := (List.mem_insertionSort _).mp ha
    have hb : b ∈ f := h.mem_iff.mpr ((List.mem_insertionSort _).mp hb)
    exact List.inj_on_of_nodup_map hf ha hb (le_antisymm hab hba)
  have : Std.Total (fun a b : String × Json => a.1 ≤ b.1) := ⟨fun a b => le_total a.1 b.1⟩
  have : IsTrans (String × Json) (fun a b => a.1 ≤ b.1) := ⟨fun _ _ _ hab hbc => le_trans hab hbc⟩
  exact List.Perm.eq_of_pairwise hanti (List.pairwise_insertionSort _ f)
    (List.pairwise_insertionSort _ g) hperm

/-- **The same value at every key makes the same object.** -/
theorem canonical_ext {f g : List (String × Json)} (hf : Dict.Distinct f) (hg : Dict.Distinct g)
    (h : ∀ key, (Dict.get? f key).map canonical = (Dict.get? g key).map canonical) :
    (obj f).canonical = (obj g).canonical := by
  have hkeys : ∀ fields : List (String × Json),
      (fields.map fun entry => (entry.1, entry.2.canonical)).map (·.1) = Dict.keys fields := by
    intro fields
    simp [Dict.keys]
  have hmem : ∀ {f g : List (String × Json)}, Dict.Distinct f →
      (∀ key, (Dict.get? f key).map canonical = (Dict.get? g key).map canonical) →
      ∀ e ∈ f.map fun entry => (entry.1, entry.2.canonical),
        e ∈ g.map fun entry => (entry.1, entry.2.canonical) := by
    intro f g hf h e he
    obtain ⟨entry, hentry, rfl⟩ := List.mem_map.mp he
    have hk := h entry.1
    rw [Dict.get?_of_mem hf hentry, Option.map_some] at hk
    obtain ⟨v, hv, hc⟩ := Option.map_eq_some_iff.mp hk.symm
    exact List.mem_map.mpr ⟨_, Dict.mem_of_get? hv, by rw [← hc]⟩
  rw [canonical_obj, canonical_obj]
  congr 1
  apply sortFields_perm
  · rw [hkeys]
    exact hf
  · apply (List.perm_ext_iff_of_nodup _ _).mpr
    · exact fun e => ⟨hmem hf h e, hmem hg (fun key => (h key).symm) e⟩
    · exact List.Nodup.of_map (·.1) (hkeys f ▸ hf)
    · exact List.Nodup.of_map (·.1) (hkeys g ▸ hg)

end Json
end VeriCCL
