import Mathlib.Data.List.Infix
import Mathlib.Tactic

/-! # Leftmost-longest matching

A text is cut into occurrences of patterns and single symbols: reading from the left, where a
pattern occurs the longest one that does is taken (`Pieces`).  The cut is unique, and a symbol
that stands alone belongs to an occurrence only if that occurrence begins inside an earlier one
that was taken (`Pieces.plain_overlapped`). -/
namespace VeriCCL

/-- A piece of a text: an occurrence of a pattern, or one symbol. -/
inductive Piece (α : Type) where
  | found (pattern : List α)
  | plain (symbol : α)
  deriving DecidableEq

variable {α : Type}

/-- The symbols of a piece. -/
def Piece.raw : Piece α → List α
  | .found pattern => pattern
  | .plain symbol => [symbol]

/-- The text that pieces make up. -/
def rawText (pieces : List (Piece α)) : List α := pieces.flatMap Piece.raw

@[simp] theorem rawText_nil : rawText ([] : List (Piece α)) = [] := rfl

@[simp] theorem rawText_cons (piece : Piece α) (pieces : List (Piece α)) :
    rawText (piece :: pieces) = piece.raw ++ rawText pieces := rfl

@[simp] theorem rawText_append (l m : List (Piece α)) :
    rawText (l ++ m) = rawText l ++ rawText m := by
  simp [rawText]

theorem rawText_map_plain (l : List α) : rawText (l.map .plain) = l := by
  induction l with
  | nil => rfl
  | cons b l ih => rw [List.map_cons, rawText_cons, ih]; rfl

/-- **The leftmost-longest cut of a text.** -/
inductive Pieces (patterns : List (List α)) : List α → List (Piece α) → Prop where
  | nil : Pieces patterns [] []
  | found {p text : List α} {pieces : List (Piece α)} (mem : p ∈ patterns)
      (longest : ∀ q ∈ patterns, q <+: p ++ text → q.length ≤ p.length)
      (rest : Pieces patterns text pieces) : Pieces patterns (p ++ text) (.found p :: pieces)
  | plain {b : α} {text : List α} {pieces : List (Piece α)}
      (none : ∀ q ∈ patterns, ¬ q <+: b :: text) (rest : Pieces patterns text pieces) :
      Pieces patterns (b :: text) (.plain b :: pieces)

/-- No pattern is the beginning of another. -/
def PrefixFree (patterns : List (List α)) : Prop :=
  ∀ p ∈ patterns, ∀ q ∈ patterns, p <+: q → p = q

namespace Pieces

variable {patterns : List (List α)} {text : List α} {pieces pieces' : List (Piece α)}

theorem raw (h : Pieces patterns text pieces) : rawText pieces = text := by
  induction h with
  | nil => rfl
  | found _ _ _ ih => rw [rawText_cons, ih]; rfl
  | plain _ _ ih => rw [rawText_cons, ih]; rfl

/-- Every text has a cut when no pattern is empty. -/
theorem exists_of_nonempty (hpos : ∀ p ∈ patterns, p ≠ []) (text : List α) :
    ∃ pieces, Pieces patterns text pieces := by
  induction hn : text.length using Nat.strong_induction_on generalizing text with
  | _ n ih =>
    cases text with
    | nil => exact ⟨[], .nil⟩
    | cons b text =>
      by_cases hmatch : ∃ q ∈ patterns, q <+: b :: text
      · -- the longest pattern that occurs here
        classical
        obtain ⟨p, hp, hlongest⟩ := Finset.exists_max_image
          (patterns.toFinset.filter fun q => q <+: b :: text) List.length (by
            obtain ⟨q, hq, hpre⟩ := hmatch
            exact ⟨q, by simp [hq, hpre]⟩)
        simp only [Finset.mem_filter, List.mem_toFinset] at hp hlongest
        obtain ⟨hmem, rest, hrest⟩ := hp
        have hlen := congrArg List.length hrest
        rw [List.length_append] at hlen
        have hlt : rest.length < n := by
          have := List.length_pos_of_ne_nil (hpos p hmem)
          omega
        obtain ⟨pieces, hpieces⟩ := ih rest.length hlt rest rfl
        rw [← hrest]
        exact ⟨_, .found hmem (fun q hq hpre => hlongest q ⟨hq, hrest ▸ hpre⟩) hpieces⟩
      · obtain ⟨pieces, hpieces⟩ := ih text.length (by rw [← hn]; simp) text rfl
        exact ⟨_, .plain (fun q hq hpre => hmatch ⟨q, hq, hpre⟩) hpieces⟩

theorem eq_nil (hpos : ∀ p ∈ patterns, p ≠ []) (h : Pieces patterns [] pieces) : pieces = [] := by
  generalize htext : ([] : List α) = text at h
  cases h with
  | nil => rfl
  | found mem _ _ => exact absurd (List.append_eq_nil_iff.mp htext.symm).1 (hpos _ mem)
  | plain => cases htext

/-- Where a pattern occurs the longest one is taken. -/
theorem found_inv (hpos : ∀ p ∈ patterns, p ≠ []) {p : List α} (mem : p ∈ patterns)
    (longest : ∀ q ∈ patterns, q <+: p ++ text → q.length ≤ p.length)
    (h : Pieces patterns (p ++ text) pieces) :
    ∃ rest, pieces = .found p :: rest ∧ Pieces patterns text rest := by
  generalize htext : p ++ text = whole at h longest
  cases h with
  | nil => exact absurd (List.append_eq_nil_iff.mp htext).1 (hpos p mem)
  | @found q _ rest mem' longest' hrest =>
    have hlen : p.length = q.length :=
      Nat.le_antisymm (longest' p mem ⟨text, htext⟩) (longest q mem' (List.prefix_append _ _))
    obtain ⟨rfl, rfl⟩ := List.append_inj htext hlen
    exact ⟨rest, rfl, hrest⟩
  | plain none _ => exact absurd ⟨text, htext⟩ (none p mem)

/-- Where no pattern occurs the symbol stands alone. -/
theorem plain_inv {b : α} (none : ∀ q ∈ patterns, ¬ q <+: b :: text)
    (h : Pieces patterns (b :: text) pieces) :
    ∃ rest, pieces = .plain b :: rest ∧ Pieces patterns text rest := by
  generalize htext : b :: text = whole at h none
  cases h with
  | nil => cases htext
  | found mem _ _ => exact absurd (List.prefix_append _ _) (none _ mem)
  | plain _ hrest =>
    obtain ⟨rfl, rfl⟩ := List.cons.inj htext
    exact ⟨_, rfl, hrest⟩

/-- **The cut is unique.** -/
theorem unique (hpos : ∀ p ∈ patterns, p ≠ []) (h : Pieces patterns text pieces)
    (h' : Pieces patterns text pieces') : pieces = pieces' := by
  induction h generalizing pieces' with
  | nil => exact (eq_nil hpos h').symm
  | found mem longest _ ih =>
    obtain ⟨rest, rfl, hrest⟩ := found_inv hpos mem longest h'
    rw [ih hrest]
  | plain none _ ih =>
    obtain ⟨rest, rfl, hrest⟩ := plain_inv none h'
    rw [ih hrest]

/-- Symbols at which no pattern occurs stand alone. -/
theorem plains {l : List α} (none : ∀ i < l.length, ∀ q ∈ patterns, ¬ q <+: (l ++ text).drop i)
    (h : Pieces patterns text pieces) : Pieces patterns (l ++ text) (l.map .plain ++ pieces) := by
  induction l with
  | nil => exact h
  | cons b l ih =>
    refine .plain (none 0 (by simp)) (ih fun i hi => ?_)
    exact none (i + 1) (by simpa using hi)

/-- A pattern that occurs is the longest one when none is the beginning of another. -/
theorem found_of_prefixFree (hfree : PrefixFree patterns) {p : List α} (mem : p ∈ patterns)
    (h : Pieces patterns text pieces) : Pieces patterns (p ++ text) (.found p :: pieces) := by
  refine .found mem (fun q hq hpre => ?_) h
  rcases List.prefix_or_prefix_of_prefix hpre (List.prefix_append p text) with hqp | hpq
  · exact hqp.length_le
  · rw [hfree p mem q hq hpq]

end Pieces

/-! ## Occurrences -/

/-- The symbol at a position of the text stands alone. -/
def PlainAt (pieces : List (Piece α)) (position : ℕ) : Prop :=
  ∃ before b after, pieces = before ++ .plain b :: after ∧ (rawText before).length = position

/-- A position of the text lies inside an occurrence that was taken, after its first symbol. -/
def OverlappedAt (pieces : List (Piece α)) (position : ℕ) : Prop :=
  ∃ before p after, pieces = before ++ .found p :: after ∧
    (rawText before).length < position ∧ position < (rawText before).length + p.length

theorem PlainAt.cons_found {p : List α} {pieces : List (Piece α)} {position : ℕ}
    (h : PlainAt (.found p :: pieces) position) :
    p.length ≤ position ∧ PlainAt pieces (position - p.length) := by
  obtain ⟨before, b, after, hsplit, rfl⟩ := h
  cases before with
  | nil => cases hsplit
  | cons piece before =>
    obtain ⟨rfl, rfl⟩ := List.cons.inj hsplit
    rw [rawText_cons, List.length_append]
    exact ⟨Nat.le_add_right _ _, before, b, after, rfl, by simp [Piece.raw]⟩

theorem PlainAt.cons_plain {a : α} {pieces : List (Piece α)} {position : ℕ}
    (h : PlainAt (.plain a :: pieces) position) :
    position = 0 ∨ 1 ≤ position ∧ PlainAt pieces (position - 1) := by
  obtain ⟨before, b, after, hsplit, rfl⟩ := h
  cases before with
  | nil => exact Or.inl rfl
  | cons piece before =>
    obtain ⟨rfl, rfl⟩ := List.cons.inj hsplit
    refine Or.inr ⟨?_, before, b, after, rfl, ?_⟩ <;> simp [Piece.raw]

theorem OverlappedAt.cons {pieces : List (Piece α)} {position : ℕ}
    (h : OverlappedAt pieces position) (piece : Piece α) : OverlappedAt (piece :: pieces)
      (piece.raw.length + position) := by
  obtain ⟨before, p, after, rfl, hlt, hlt'⟩ := h
  refine ⟨piece :: before, p, after, rfl, ?_, ?_⟩ <;>
    rw [rawText_cons, List.length_append] <;> omega

/-- **A symbol that stands alone is in no occurrence of a pattern**, except one that begins
inside an earlier occurrence. -/
theorem Pieces.plain_overlapped {patterns : List (List α)} {text : List α}
    {pieces : List (Piece α)} (h : Pieces patterns text pieces) {p : ℕ} (hplain : PlainAt pieces p)
    {q : ℕ} {t : List α} (ht : t ∈ patterns) (hle : q ≤ p) (hlt : p < q + t.length)
    (hoccurs : t <+: text.drop q) : OverlappedAt pieces q := by
  induction h generalizing p q with
  | nil =>
    obtain ⟨before, b, after, hsplit, -⟩ := hplain
    simp at hsplit
  | @found r rest pieces mem longest _ ih =>
    obtain ⟨hpast, hplain⟩ := hplain.cons_found
    by_cases hinside : q < r.length
    · -- the occurrence begins inside the piece, and not at its start
      refine ⟨[], r, pieces, rfl, ?_, by simpa using hinside⟩
      rcases Nat.eq_zero_or_pos q with rfl | hpos
      · have := longest t ht (by simpa using hoccurs)
        omega
      · simpa using hpos
    · have hover := ih hplain (q := q - r.length) (by omega) (by omega) (by
        have hdrop : (r ++ rest).drop q = rest.drop (q - r.length) := by
          rw [List.drop_append, List.drop_eq_nil_of_le (by omega), List.nil_append]
        rwa [hdrop] at hoccurs)
      have hcons := hover.cons (.found r)
      rwa [Piece.raw, Nat.add_sub_cancel' (by omega)] at hcons
  | @plain b rest pieces none _ ih =>
    rcases Nat.eq_zero_or_pos q with rfl | hpos
    · exact absurd hoccurs (none t ht)
    · rcases hplain.cons_plain with rfl | ⟨-, hplain⟩
      · omega
      · obtain ⟨k, rfl⟩ : ∃ k, q = k + 1 := ⟨q - 1, by omega⟩
        have hcons := (ih hplain (q := k) (by omega) (by omega) hoccurs).cons (.plain b)
        rwa [Piece.raw, List.length_singleton, Nat.add_comm] at hcons

end VeriCCL
