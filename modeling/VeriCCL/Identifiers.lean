import Mathlib.Tactic

/-! # Identities spelled as text

Identities are texts whose parts are joined by colons.  Numbers are spelled in
decimal, so a number's text contains no colon and determines it; a text is taken apart
at its first colon (`colon_inj`). -/
namespace VeriCCL.Identifiers

theorem toList_nat (n : ℕ) : (toString n).toList = Nat.toDigits 10 n := by
  simp [toString, Nat.repr]

/-- A natural number's text determines it. -/
theorem nat_inj {a b : ℕ} (h : toString a = toString b) : a = b := by
  have hlist : Nat.toDigits 10 a = Nat.toDigits 10 b := by
    rw [← toList_nat, ← toList_nat, h]
  have hvalue := congrArg (fun l => Nat.ofDigitChars 10 l 0) hlist
  simpa using hvalue

/-- Leading zeros do not change a number. -/
theorem ofDigitChars_zeros (k n : ℕ) :
    Nat.ofDigitChars 10 (List.replicate k '0' ++ (toString n).toList) 0 = n := by
  induction k with
  | zero => simp
  | succ k ih => simpa [List.replicate_succ, Nat.ofDigitChars_cons] using ih

/-- The characters of a number's text are digits. -/
theorem isDigit_of_mem_nat {n : ℕ} {c : Char} (h : c ∈ (toString n).toList) : c.isDigit = true := by
  rw [toList_nat] at h
  exact Nat.isDigit_of_mem_toDigits (by decide) (by decide) h

theorem colon_notMem_nat (n : ℕ) : ':' ∉ (toString n).toList := by
  intro h
  have := isDigit_of_mem_nat h
  revert this
  decide

theorem dash_notMem_nat (n : ℕ) : '-' ∉ (toString n).toList := by
  intro h
  have := isDigit_of_mem_nat h
  revert this
  decide

/-- An integer's text determines it. -/
theorem int_inj {a b : ℤ} (h : toString a = toString b) : a = b := by
  have hsign : ∀ m n : ℕ, toString m ≠ "-" ++ toString n := by
    intro m n heq
    have hmem : '-' ∈ (toString m).toList := by
      rw [heq, String.toList_append]
      exact List.mem_append_left _ (by decide)
    have := isDigit_of_mem_nat hmem
    revert this
    decide
  cases a with
  | ofNat m =>
    cases b with
    | ofNat n => exact congrArg Int.ofNat (nat_inj h)
    | negSucc n => exact absurd h (hsign m (n + 1))
  | negSucc m =>
    cases b with
    | ofNat n => exact absurd h.symm (hsign n (m + 1))
    | negSucc n =>
      have hlist := congrArg String.toList h
      have hdigits : (toString (m + 1)).toList = (toString (n + 1)).toList := by
        have : ("-" ++ toString (m + 1)).toList = ("-" ++ toString (n + 1)).toList := hlist
        rwa [String.toList_append, String.toList_append, List.append_right_inj] at this
      have := nat_inj (String.ext hdigits)
      congr 1
      omega

/-- A list is taken apart at the first place of a separator. -/
theorem list_separator_inj {x : Char} {a c u v : List Char} (ha : x ∉ a) (hc : x ∉ c)
    (h : a ++ x :: u = c ++ x :: v) : a = c ∧ u = v := by
  induction a generalizing c with
  | nil =>
    cases c with
    | nil => simpa using h
    | cons y c =>
      have : x = y := (List.cons.inj h).1
      exact absurd (this ▸ List.mem_cons_self) hc
  | cons y a ih =>
    cases c with
    | nil =>
      have : y = x := (List.cons.inj h).1
      exact absurd (this ▸ List.mem_cons_self) ha
    | cons z c =>
      obtain ⟨rfl, htail⟩ := List.cons.inj h
      obtain ⟨rfl, rfl⟩ := ih (fun hm => ha (List.mem_cons_of_mem _ hm))
        (fun hm => hc (List.mem_cons_of_mem _ hm)) htail
      exact ⟨rfl, rfl⟩

/-- **A text is taken apart at its first colon.** -/
theorem colon_inj {a b c d : String} (ha : ':' ∉ a.toList) (hc : ':' ∉ c.toList)
    (h : a ++ (":" ++ b) = c ++ (":" ++ d)) : a = c ∧ b = d := by
  have hlist := congrArg String.toList h
  have hcolon : (":" : String).toList = [':'] := by decide
  simp only [String.toList_append, hcolon, List.singleton_append] at hlist
  obtain ⟨h1, h2⟩ := list_separator_inj ha hc hlist
  exact ⟨String.ext h1, String.ext h2⟩

/-- **A text is taken apart at its last colon.** -/
theorem last_colon_inj {a b c d : String} (hb : ':' ∉ b.toList) (hd : ':' ∉ d.toList)
    (h : a ++ (":" ++ b) = c ++ (":" ++ d)) : a = c ∧ b = d := by
  have hlist := congrArg (fun text => text.toList.reverse) h
  have hcolon : (":" : String).toList = [':'] := by decide
  simp only [String.toList_append, hcolon, List.singleton_append, List.reverse_append,
    List.reverse_cons, List.append_assoc] at hlist
  obtain ⟨h1, h2⟩ := list_separator_inj (by simpa using hb) (by simpa using hd) hlist
  exact ⟨String.ext (List.reverse_injective h2), String.ext (List.reverse_injective h1)⟩

/-- **Two numbers joined by a dash** are determined by the text. -/
theorem nat_dash_nat_inj {a b c d : ℕ} (h : toString a ++ "-" ++ toString b = toString c ++ "-" ++ toString d) :
    a = c ∧ b = d := by
  have hlist := congrArg String.toList h
  have hdash : ("-" : String).toList = ['-'] := by decide
  simp only [String.toList_append, hdash, List.append_assoc, List.singleton_append] at hlist
  obtain ⟨h1, h2⟩ := list_separator_inj (dash_notMem_nat a) (dash_notMem_nat c) hlist
  exact ⟨nat_inj (String.ext h1), nat_inj (String.ext h2)⟩

/-- **A number behind a letter** is what follows the last such letter. -/
theorem letter_nat_inj {x : Char} (hx : x.isDigit = false) {a c : List Char} {m n : ℕ}
    (h : a ++ x :: (toString m).toList = c ++ x :: (toString n).toList) : a = c ∧ m = n := by
  have hletter : ∀ k : ℕ, x ∉ (toString k).toList := by
    intro k hmem
    rw [isDigit_of_mem_nat hmem] at hx
    cases hx
  have hreverse := congrArg List.reverse h
  simp only [List.reverse_append, List.reverse_cons, List.append_assoc, List.singleton_append] at hreverse
  obtain ⟨hnumber, hfront⟩ :=
    list_separator_inj (by simpa using hletter m) (by simpa using hletter n) hreverse
  exact ⟨List.reverse_injective hfront, nat_inj (String.ext (List.reverse_injective hnumber))⟩

end VeriCCL.Identifiers
