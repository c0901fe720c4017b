import Mathlib.Data.Finset.Sort
import VeriCCL.Checked

/-! # One order after the other

Items wait for others (`blocked`).  `visit` chooses a free item in every possible way, and so lists
the orders in which every item comes after those it waits for (`Extends`): each of them once
(`visit_ok`).  `product` lists the ways to choose one value from each of several lists. -/
namespace VeriCCL.OrderEnumeration

section Orders
variable {α : Type} [LinearOrder α] {blocked : α → Finset α} {items : Finset α} {a : α} {order : List α}

/-- The items in an order in which each comes after the items that it waits for. -/
structure Extends (blocked : α → Finset α) (items : Finset α) (order : List α) : Prop where
  nodup : order.Nodup
  mem : ∀ a, a ∈ order ↔ a ∈ items
  after : ∀ before a rest, order = before ++ a :: rest → ∀ b ∈ blocked a, b ∈ items → b ∈ before

omit [LinearOrder α] in
theorem extends_empty : Extends blocked ∅ order ↔ order = [] := by
  constructor
  · intro h
    refine List.eq_nil_iff_forall_not_mem.mpr fun a ha => ?_
    simpa using (h.mem a).mp ha
  · rintro rfl
    exact ⟨List.nodup_nil, by simp, by simp⟩

/-- **The first item of an order is free**, and the rest is an order of the other items. -/
theorem extends_cons : Extends blocked items (a :: order) ↔
    a ∈ items ∧ Disjoint (blocked a) items ∧ Extends blocked (items.erase a) order := by
  constructor
  · intro h
    obtain ⟨hnew, hnodup⟩ := List.nodup_cons.mp h.nodup
    refine ⟨(h.mem a).mp List.mem_cons_self, ?_, hnodup, fun b => ?_, ?_⟩
    · refine Finset.disjoint_left.mpr fun b hb hitem => ?_
      cases h.after [] a order rfl b hb hitem
    · rw [Finset.mem_erase, ← h.mem b, List.mem_cons]
      constructor
      · exact fun hb => ⟨fun heq => hnew (heq ▸ hb), .inr hb⟩
      · rintro ⟨hne, rfl | hb⟩
        · exact absurd rfl hne
        · exact hb
    · rintro before c rest rfl b hb hitem
      obtain ⟨hne, hitem⟩ := Finset.mem_erase.mp hitem
      exact (List.mem_cons.mp (h.after (a :: before) c rest rfl b hb hitem)).resolve_left hne
  · rintro ⟨ha, hfree, h⟩
    have hnew : a ∉ order := fun hmem => by simpa using (h.mem a).mp hmem
    refine ⟨List.nodup_cons.mpr ⟨hnew, h.nodup⟩, fun b => ?_, ?_⟩
    · rw [List.mem_cons, h.mem, Finset.mem_erase]
      by_cases hb : b = a
      · simp [hb, ha]
      · simp [hb]
    · intro before c rest hsplit b hb hitem
      cases before with
      | nil =>
        obtain ⟨rfl, -⟩ := List.cons.inj hsplit
        exact absurd hitem (Finset.disjoint_left.mp hfree hb)
      | cons x before =>
        obtain ⟨rfl, hrest⟩ := List.cons.inj hsplit
        by_cases hba : b = a
        · exact hba ▸ List.mem_cons_self
        · exact List.mem_cons_of_mem _ (h.after before c rest hrest b hb (Finset.mem_erase.mpr ⟨hba, hitem⟩))

variable {ε : Type} {fault : ε}

local instance transitive : IsTrans α LE.le := ⟨fun _ _ _ => le_trans⟩

local instance antisymmetric : Std.Antisymm (LE.le : α → α → Prop) := ⟨fun _ _ => le_antisymm⟩

variable (blocked fault) in
/-- Every free item in turn, and then the orders of what is left.  There are as many turns as
there are items. -/
def visit : ℕ → List α → Finset α → Except ε (List (List α))
  | 0, chosen, _ => .ok [chosen]
  | turns + 1, chosen, items => do
    let ready := (items.filter fun a => Disjoint (blocked a) items).sort LE.le
    Checked.ensure (ready ≠ []) fault
    let found ← ready.mapM fun a => visit turns (chosen ++ [a]) (items.erase a)
    return found.flatten

/-- **Every order once.** -/
theorem visit_ok {turns : ℕ} {chosen : List α} {found : List (List α)} (hcard : items.card = turns)
    (h : visit blocked fault turns chosen items = .ok found) :
    (∀ order, order ∈ found ↔ ∃ rest, order = chosen ++ rest ∧ Extends blocked items rest) ∧ found.Nodup := by
  induction turns generalizing chosen items found with
  | zero =>
    obtain rfl := Finset.card_eq_zero.mp hcard
    obtain rfl := Except.ok.inj h
    simp [extends_empty]
  | succ turns ih =>
    simp only [visit, Checked.bind_ok, Checked.ensure_ok, Checked.pure_ok] at h
    obtain ⟨-, -, parts, hparts, rfl⟩ := h
    have hready : ∀ a, a ∈ (items.filter fun a => Disjoint (blocked a) items).sort LE.le ↔
        a ∈ items ∧ Disjoint (blocked a) items := fun a => by
      rw [Finset.mem_sort, Finset.mem_filter]
    have hpart : ∀ {a part}, a ∈ items → visit blocked fault turns (chosen ++ [a]) (items.erase a) = .ok part →
        (∀ order, order ∈ part ↔ ∃ rest, order = chosen ++ [a] ++ rest ∧ Extends blocked (items.erase a) rest) ∧
          part.Nodup := by
      intro a part ha hvisit
      exact ih (by rw [Finset.card_erase_of_mem ha, hcard, Nat.add_sub_cancel]) hvisit
    constructor
    · intro order
      rw [List.mem_flatten]
      constructor
      · rintro ⟨part, hmem, horder⟩
        obtain ⟨a, ha, hvisit⟩ := Checked.mapM_right hparts hmem
        obtain ⟨hitem, hfree⟩ := (hready a).mp ha
        obtain ⟨rest, rfl, hrest⟩ := ((hpart hitem hvisit).1 order).mp horder
        exact ⟨a :: rest, by simp, extends_cons.mpr ⟨hitem, hfree, hrest⟩⟩
      · rintro ⟨rest, rfl, hrest⟩
        cases rest with
        | nil =>
          obtain ⟨a, ha⟩ := Finset.card_pos.mp (by omega : 0 < items.card)
          cases (hrest.mem a).mpr ha
        | cons a rest =>
          obtain ⟨hitem, hfree, hrest⟩ := extends_cons.mp hrest
          obtain ⟨part, hmem, hvisit⟩ := Checked.mapM_left hparts ((hready a).mpr ⟨hitem, hfree⟩)
          exact ⟨part, hmem, ((hpart hitem hvisit).1 _).mpr ⟨rest, by simp, hrest⟩⟩
    · refine List.nodup_flatten.mpr ⟨fun part hmem => ?_, ?_⟩
      · obtain ⟨a, ha, hvisit⟩ := Checked.mapM_right hparts hmem
        exact (hpart ((hready a).mp ha).1 hvisit).2
      · -- orders of different parts differ where the item was chosen
        have hall := Checked.mapM_ok.mp hparts
        have hnodup := Finset.sort_nodup (items.filter fun a => Disjoint (blocked a) items) LE.le
        have hitems : ∀ a ∈ (items.filter fun a => Disjoint (blocked a) items).sort LE.le, a ∈ items :=
          fun a ha => ((hready a).mp ha).1
        clear hready hparts
        generalize (items.filter fun a => Disjoint (blocked a) items).sort LE.le = ready at hall hnodup hitems
        induction hall with
        | nil => exact .nil
        | @cons a part ready parts hvisit htail ihs =>
          obtain ⟨hnew, hnodup⟩ := List.nodup_cons.mp hnodup
          refine .cons (fun other hother => ?_) (ihs hnodup fun b hb => hitems b (List.mem_cons_of_mem _ hb))
          obtain ⟨b, hb, hvisit'⟩ := Checked.mapM_right (Checked.mapM_ok.mpr htail) hother
          refine List.disjoint_left.mpr fun order horder horder' => ?_
          obtain ⟨rest, rfl, -⟩ := ((hpart (hitems a List.mem_cons_self) hvisit).1 order).mp horder
          obtain ⟨rest', heq, -⟩ := ((hpart (hitems b (List.mem_cons_of_mem _ hb)) hvisit').1 _).mp horder'
          have hsame : a = b := by simpa using (List.append_inj heq (by simp)).1
          exact hnew (hsame ▸ hb)

end Orders

section Product
variable {α : Type} {choices : List (List α)} {chosen : List α}

/-- `itertools.product`: one value from each list, the last choice changing first. -/
def product : List (List α) → List (List α)
  | [] => [[]]
  | first :: choices => first.flatMap fun a => (product choices).map (a :: ·)

theorem mem_product : chosen ∈ product choices ↔ List.Forall₂ (· ∈ ·) chosen choices := by
  induction choices generalizing chosen with
  | nil => simp [product]
  | cons first choices ih =>
    cases chosen with
    | nil => simp [product]
    | cons a chosen => simp [product, ih]

theorem nodup_product (h : ∀ l ∈ choices, l.Nodup) : (product choices).Nodup := by
  induction choices with
  | nil => simp [product]
  | cons first choices ih =>
    have hrest := ih fun l hl => h l (List.mem_cons_of_mem _ hl)
    refine List.nodup_flatMap.mpr ⟨fun a _ => hrest.map (List.cons_injective), ?_⟩
    refine (h first List.mem_cons_self).imp fun {a b} hne => List.disjoint_left.mpr fun l hl hl' => ?_
    obtain ⟨rest, -, rfl⟩ := List.mem_map.mp hl
    obtain ⟨rest', -, heq⟩ := List.mem_map.mp hl'
    exact hne (List.cons.inj heq).1.symm

end Product

end VeriCCL.OrderEnumeration
