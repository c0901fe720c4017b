import Mathlib.Data.List.Nodup
import Mathlib.Tactic

/-! # Insertion-ordered dictionaries

A dictionary is the list of its entries in the order their keys were first
inserted: assigning to a key that is present keeps its place, and a new key goes
to the end.  Well-formed dictionaries (`Dict.Distinct`) have one entry per key;
every dictionary built by `set` is. -/
namespace VeriCCL

/-- Two members of a chain are ordered. -/
theorem pairwise_or {α : Type} {R : α → α → Prop} {l : List α} (h : l.Pairwise R) {a b : α}
    (ha : a ∈ l) (hb : b ∈ l) (hne : a ≠ b) : R a b ∨ R b a := by
  obtain ⟨i, hi, rfl⟩ := List.mem_iff_getElem.mp ha
  obtain ⟨j, hj, rfl⟩ := List.mem_iff_getElem.mp hb
  rw [List.pairwise_iff_getElem] at h
  rcases Nat.lt_trichotomy i j with hij | rfl | hij
  · exact Or.inl (h i j hi hj hij)
  · exact absurd rfl hne
  · exact Or.inr (h j i hj hi hij)

/-- A place in a list with one more element is the last place, or a place before. -/
theorem split_snoc {α : Type} {xs before after : List α} {x y : α}
    (h : xs ++ [x] = before ++ y :: after) :
    (after = [] ∧ y = x ∧ before = xs) ∨
      ∃ rest, after = rest ++ [x] ∧ xs = before ++ y :: rest := by
  rcases List.eq_nil_or_concat after with rfl | ⟨rest, z, rfl⟩
  · obtain ⟨hbefore, hlast⟩ := List.append_inj' h rfl
    simp only [List.cons.injEq, and_true] at hlast
    exact .inl ⟨rfl, hlast.symm, hbefore.symm⟩
  · have h : xs ++ [x] = (before ++ y :: rest) ++ [z] := by simpa using h
    obtain ⟨hxs, hlast⟩ := List.append_inj' h rfl
    simp only [List.cons.injEq, and_true] at hlast
    exact .inr ⟨rest, by simp [hlast], hxs⟩

/-- The largest of some values is not smaller than any of them. -/
theorem le_foldl_max {α : Type} [LinearOrder α] (l : List α) (a : α) :
    a ≤ l.foldl max a ∧ ∀ x ∈ l, x ≤ l.foldl max a := by
  induction l generalizing a with
  | nil => exact ⟨le_rfl, fun x hx => by cases hx⟩
  | cons b l ih =>
    obtain ⟨hle, hall⟩ := ih (max a b)
    refine ⟨(le_max_left a b).trans hle, fun x hx => ?_⟩
    rcases List.mem_cons.mp hx with rfl | hx
    · exact (le_max_right a x).trans hle
    · exact hall x hx

/-- It is one of them. -/
theorem foldl_max_mem {α : Type} [LinearOrder α] (l : List α) (a : α) :
    l.foldl max a = a ∨ l.foldl max a ∈ l := by
  induction l generalizing a with
  | nil => exact Or.inl rfl
  | cons b l ih =>
    rw [List.foldl_cons]
    rcases ih (max a b) with h | h
    · rcases max_choice a b with hab | hab
      · exact Or.inl (h.trans hab)
      · exact Or.inr (by rw [h, hab]; exact List.mem_cons_self)
    · exact Or.inr (List.mem_cons_of_mem _ h)

theorem foldl_max_le {α : Type} [LinearOrder α] {l : List α} {a b : α} (ha : a ≤ b)
    (hl : ∀ x ∈ l, x ≤ b) : l.foldl max a ≤ b := by
  rcases foldl_max_mem l a with h | h
  · exact h.trans_le ha
  · exact hl _ h

/-- `max(values, default=a)`. -/
def maxDefault {α : Type} [LinearOrder α] (a : α) : List α → α
  | [] => a
  | b :: l => l.foldl max b

section MaxDefault
variable {α : Type} [LinearOrder α] {a b : α} {l m : List α}

theorem le_maxDefault (h : b ∈ l) : b ≤ maxDefault a l := by
  cases l with
  | nil => cases h
  | cons c l =>
    rcases List.mem_cons.mp h with rfl | h
    · exact (le_foldl_max l b).1
    · exact (le_foldl_max l c).2 b h

theorem maxDefault_mem (h : l ≠ []) : maxDefault a l ∈ l := by
  cases l with
  | nil => exact absurd rfl h
  | cons c l =>
    rcases foldl_max_mem l c with heq | hmem
    · show l.foldl max c ∈ c :: l
      rw [heq]
      exact List.mem_cons_self
    · exact List.mem_cons_of_mem _ hmem

theorem maxDefault_le (ha : a ≤ b) (h : ∀ x ∈ l, x ≤ b) : maxDefault a l ≤ b := by
  by_cases hl : l = []
  · subst hl
    exact ha
  · exact h _ (maxDefault_mem hl)

theorem default_le (h : ∀ x ∈ l, a ≤ x) : a ≤ maxDefault a l := by
  by_cases hl : l = []
  · subst hl
    exact le_rfl
  · exact h _ (maxDefault_mem hl)

end MaxDefault

/-- Entries in insertion order. -/
abbrev Dict (κ ν : Type) := List (κ × ν)

namespace Dict

variable {κ ν : Type} [DecidableEq κ]

/-- The value at `k`, if there is one. -/
def get? (d : Dict κ ν) (k : κ) : Option ν := (d.find? (fun e => e.1 = k)).map (·.2)

/-- Assign `v` to `k`. -/
def set : Dict κ ν → κ → ν → Dict κ ν
  | [], k, v => [(k, v)]
  | e :: d, k, v => if e.1 = k then (k, v) :: d else e :: set d k v

/-- `del d[k]`. -/
def erase (d : Dict κ ν) (k : κ) : Dict κ ν := d.filter (fun e => e.1 ≠ k)

/-- The keys, in insertion order. -/
def keys (d : Dict κ ν) : List κ := d.map (·.1)

/-- The values, in insertion order. -/
def values (d : Dict κ ν) : List ν := d.map (·.2)

/-- Assign every entry of a list in turn: a later entry for a key wins. -/
def ofList (l : List (κ × ν)) : Dict κ ν := l.foldl (fun d e => d.set e.1 e.2) []

/-- One entry per key. -/
def Distinct (d : Dict κ ν) : Prop := d.keys.Nodup

instance (d : Dict κ ν) : Decidable d.Distinct := inferInstanceAs (Decidable d.keys.Nodup)

/-- Equality of dictionaries, whatever the order of their entries. -/
def Same (d e : Dict κ ν) : Prop := ∀ k, d.get? k = e.get? k

@[simp] theorem get?_nil (k : κ) : get? ([] : Dict κ ν) k = none := rfl

theorem get?_cons (e : κ × ν) (d : Dict κ ν) (k : κ) :
    get? (e :: d) k = if e.1 = k then some e.2 else get? d k := by
  unfold get?
  rw [List.find?_cons]
  by_cases h : e.1 = k <;> simp [h]

theorem get?_set (d : Dict κ ν) (k j : κ) (v : ν) :
    (d.set k v).get? j = if k = j then some v else d.get? j := by
  induction d with
  | nil => simp [set, get?_cons]
  | cons e d ih =>
    unfold set
    by_cases he : e.1 = k
    · rw [if_pos he, get?_cons, get?_cons]
      by_cases hj : k = j
      · simp [hj]
      · simp [hj, he]
    · rw [if_neg he, get?_cons, get?_cons, ih]
      by_cases hj : k = j
      · subst hj
        simp [he]
      · simp [hj]

@[simp] theorem get?_set_self (d : Dict κ ν) (k : κ) (v : ν) : (d.set k v).get? k = some v := by
  rw [get?_set, if_pos rfl]

theorem get?_set_ne (d : Dict κ ν) {k j : κ} (v : ν) (h : k ≠ j) :
    (d.set k v).get? j = d.get? j := by
  rw [get?_set, if_neg h]

omit [DecidableEq κ] in
@[simp] theorem mem_keys {d : Dict κ ν} {k : κ} : k ∈ d.keys ↔ ∃ v, (k, v) ∈ d := by
  simp [keys]

/-- A key is present exactly when it has a value. -/
theorem get?_isSome {d : Dict κ ν} {k : κ} : (∃ v, d.get? k = some v) ↔ k ∈ d.keys := by
  induction d with
  | nil => simp [keys]
  | cons e d ih =>
    simp only [get?_cons]
    by_cases he : e.1 = k
    · simp [he, keys]
    · rw [if_neg he, ih]
      simp [keys, Ne.symm he]

theorem get?_eq_none {d : Dict κ ν} {k : κ} : d.get? k = none ↔ k ∉ d.keys := by
  rw [← get?_isSome, Option.eq_none_iff_forall_ne_some]
  simp

theorem mem_of_get? {d : Dict κ ν} {k : κ} {v : ν} (h : d.get? k = some v) : (k, v) ∈ d := by
  induction d with
  | nil => simp at h
  | cons e d ih =>
    rw [get?_cons] at h
    by_cases he : e.1 = k
    · rw [if_pos he, Option.some.injEq] at h
      subst he h
      exact List.mem_cons_self
    · rw [if_neg he] at h
      exact List.mem_cons_of_mem _ (ih h)

theorem get?_erase (d : Dict κ ν) (k j : κ) :
    (d.erase k).get? j = if k = j then none else d.get? j := by
  induction d with
  | nil => simp [erase]
  | cons e d ih =>
    unfold erase at ih ⊢
    by_cases he : e.1 = k
    · rw [List.filter_cons_of_neg (by simpa using he), ih, get?_cons]
      split
      · rfl
      · rename_i hne
        rw [if_neg (fun hj => hne (he.symm.trans hj))]
    · rw [List.filter_cons_of_pos (by simpa using he), get?_cons, get?_cons, ih]
      split
      · rename_i hj
        rw [if_neg (fun hkj => he (hj.trans hkj.symm))]
      · rfl

/-- With one entry per key, an entry is what its key maps to. -/
theorem get?_of_mem {d : Dict κ ν} (hd : d.Distinct) {k : κ} {v : ν} (h : (k, v) ∈ d) :
    d.get? k = some v := by
  induction d with
  | nil => simp at h
  | cons e d ih =>
    obtain ⟨hnot, hd⟩ := List.nodup_cons.mp hd
    rw [get?_cons]
    rcases List.mem_cons.mp h with rfl | h
    · simp
    · rw [if_neg, ih hd h]
      rintro rfl
      exact hnot (mem_keys.mpr ⟨v, h⟩)

/-- Assigning adds at most its own key, at the end. -/
theorem keys_set (d : Dict κ ν) (k : κ) (v : ν) :
    (d.set k v).keys = if k ∈ d.keys then d.keys else d.keys ++ [k] := by
  induction d with
  | nil => simp [set, keys]
  | cons e d ih =>
    unfold set
    by_cases he : e.1 = k
    · simp [he, keys]
    · rw [if_neg he]
      have hcons : ∀ m : Dict κ ν, keys (e :: m) = e.1 :: keys m := fun _ => rfl
      rw [hcons, hcons, ih]
      by_cases hk : k ∈ keys d
      · simp [hk]
      · simp [hk, Ne.symm he]

theorem mem_keys_set {d : Dict κ ν} {k j : κ} {v : ν} :
    j ∈ (d.set k v).keys ↔ j = k ∨ j ∈ d.keys := by
  rw [keys_set]
  by_cases hk : k ∈ d.keys
  · rw [if_pos hk]
    constructor
    · exact Or.inr
    · rintro (rfl | h)
      · exact hk
      · exact h
  · rw [if_neg hk, List.mem_append, List.mem_singleton]
    exact or_comm

theorem mem_set {d : Dict κ ν} {k : κ} {v : ν} {e : κ × ν} (h : e ∈ d.set k v) :
    e ∈ d ∨ e = (k, v) := by
  induction d with
  | nil => exact Or.inr (List.mem_singleton.mp h)
  | cons f d ih =>
    unfold set at h
    split at h
    · rcases List.mem_cons.mp h with h | h
      · exact Or.inr h
      · exact Or.inl (List.mem_cons_of_mem _ h)
    · rcases List.mem_cons.mp h with rfl | h
      · exact Or.inl List.mem_cons_self
      · exact (ih h).imp_left (List.mem_cons_of_mem _)

/-- Assigning the value that is there changes nothing. -/
theorem set_eq_self {d : Dict κ ν} {k : κ} {v : ν} (h : d.get? k = some v) : d.set k v = d := by
  induction d with
  | nil => simp at h
  | cons e d ih =>
    rw [get?_cons] at h
    unfold set
    by_cases he : e.1 = k
    · rw [if_pos he, Option.some.injEq] at h
      rw [if_pos he, ← he, ← h]
    · rw [if_neg he] at h
      rw [if_neg he, ih h]

/-- A new key is put at the end. -/
theorem set_of_notMem {d : Dict κ ν} {k : κ} (h : k ∉ d.keys) (v : ν) : d.set k v = d ++ [(k, v)] := by
  induction d with
  | nil => rfl
  | cons e d ih =>
    rw [keys, List.map_cons, List.mem_cons, not_or] at h
    rw [set, if_neg (Ne.symm h.1), ih h.2]
    rfl

theorem Distinct.set {d : Dict κ ν} (hd : d.Distinct) (k : κ) (v : ν) : (d.set k v).Distinct := by
  unfold Distinct
  rw [keys_set]
  split
  · exact hd
  · rename_i hk
    exact List.nodup_append.mpr ⟨hd, List.nodup_singleton k, fun a ha b hb => by
      rw [List.mem_singleton] at hb
      exact fun he => hk (hb ▸ he ▸ ha)⟩

omit [DecidableEq κ] in
theorem distinct_nil : Distinct ([] : Dict κ ν) := List.nodup_nil

theorem distinct_foldl_set (l : List (κ × ν)) (d : Dict κ ν) (hd : d.Distinct) :
    (l.foldl (fun d e => d.set e.1 e.2) d).Distinct := by
  induction l generalizing d with
  | nil => exact hd
  | cons e l ih => exact ih _ (hd.set e.1 e.2)

theorem distinct_ofList (l : List (κ × ν)) : (ofList l).Distinct :=
  distinct_foldl_set l [] distinct_nil

theorem keys_foldl_set (l : List (κ × ν)) (d : Dict κ ν) (k : κ) :
    k ∈ (l.foldl (fun d e => d.set e.1 e.2) d).keys ↔ k ∈ d.keys ∨ k ∈ l.map (·.1) := by
  induction l generalizing d with
  | nil => simp
  | cons e l ih =>
    rw [List.foldl_cons, ih, mem_keys_set]
    simp only [List.map_cons, List.mem_cons]
    tauto

theorem mem_keys_ofList {l : List (κ × ν)} {k : κ} : k ∈ (ofList l).keys ↔ k ∈ l.map (·.1) := by
  rw [ofList, keys_foldl_set]
  simp [keys]

/-- Every entry of the dictionary was listed. -/
theorem mem_of_ofList_get? {l : List (κ × ν)} {k : κ} {v : ν}
    (h : (ofList l).get? k = some v) : (k, v) ∈ l := by
  suffices key : ∀ (l : List (κ × ν)) (d : Dict κ ν),
      (l.foldl (fun d e => d.set e.1 e.2) d).get? k = some v → (k, v) ∈ l ∨ d.get? k = some v by
    rcases key l [] h with h | h
    · exact h
    · simp at h
  intro l
  induction l with
  | nil => exact fun d h => Or.inr h
  | cons e l ih =>
    intro d hd
    rcases ih _ hd with hl | hs
    · exact Or.inl (List.mem_cons_of_mem _ hl)
    · rw [get?_set] at hs
      by_cases he : e.1 = k
      · rw [if_pos he, Option.some.injEq] at hs
        exact Or.inl (List.mem_cons.mpr (Or.inl (Prod.ext he.symm hs.symm)))
      · rw [if_neg he] at hs
        exact Or.inr hs

/-- With distinct keys, listing and looking up agree. -/
theorem ofList_get? {l : List (κ × ν)} (hl : (l.map (·.1)).Nodup) {k : κ} {v : ν} :
    (ofList l).get? k = some v ↔ (k, v) ∈ l := by
  refine ⟨mem_of_ofList_get?, fun h => ?_⟩
  have hk : k ∈ (ofList l).keys := mem_keys_ofList.mpr (List.mem_map.mpr ⟨_, h, rfl⟩)
  obtain ⟨w, hw⟩ := get?_isSome.mpr hk
  have hm := mem_of_ofList_get? hw
  have : w = v := by
    have := List.inj_on_of_nodup_map hl hm h rfl
    exact congrArg Prod.snd this
  exact this ▸ hw

/-- Assigning entries leaves the other keys alone. -/
theorem get?_foldl_set_of_notMem {l : List (κ × ν)} {k : κ} (h : k ∉ l.map (·.1)) :
    ∀ d : Dict κ ν, (l.foldl (fun d e => d.set e.1 e.2) d).get? k = d.get? k := by
  induction l with
  | nil => exact fun d => rfl
  | cons e l ih =>
    intro d
    simp only [List.map_cons, List.mem_cons, not_or] at h
    rw [List.foldl_cons, ih h.2, get?_set_ne _ _ (Ne.symm h.1)]

/-- Of entries with distinct keys each gets its value. -/
theorem get?_foldl_set_of_mem {l : List (κ × ν)} (hl : (l.map (·.1)).Nodup) {k : κ} {v : ν}
    (h : (k, v) ∈ l) : ∀ d : Dict κ ν, (l.foldl (fun d e => d.set e.1 e.2) d).get? k = some v := by
  induction l with
  | nil => simp at h
  | cons e l ih =>
    intro d
    rw [List.map_cons, List.nodup_cons] at hl
    rw [List.foldl_cons]
    rcases List.mem_cons.mp h with rfl | h
    · rw [get?_foldl_set_of_notMem hl.1, get?_set_self]
    · exact ih hl.2 h _

instance [DecidableEq ν] (d e : Dict κ ν) : Decidable (d.Same e) :=
  decidable_of_iff (∀ k ∈ d.keys ++ e.keys, d.get? k = e.get? k) (by
    constructor
    · intro h k
      by_cases hk : k ∈ d.keys ++ e.keys
      · exact h k hk
      · rw [List.mem_append, not_or] at hk
        rw [get?_eq_none.mpr hk.1, get?_eq_none.mpr hk.2]
    · exact fun h k _ => h k)

end Dict
end VeriCCL
