import Mathlib.Tactic
import Mathlib.Data.List.Basic

/-! # Computations that may fail

A function of the source that may raise is an `Except` computation here.  This
module has what every proof about such a function needs: how a successful
computation is taken apart (`Checked.bind_ok`), and the rules for the loops that
stop at the first failure.  A loop is `List.foldlM`; what each turn keeps, the
whole loop keeps (`Checked.foldlM_invariant`), and what each turn checks holds of
every element (`Checked.forM_ok`). -/
namespace VeriCCL.Checked

variable {ε α β σ : Type}

/-- Fail with `e` unless the condition holds. -/
def ensure (c : Prop) [Decidable c] (e : ε) : Except ε Unit :=
  if c then .ok () else .error e

@[simp] theorem ensure_ok {c : Prop} [Decidable c] {e : ε} {u : Unit} :
    ensure c e = .ok u ↔ c := by
  unfold ensure
  split <;> simp_all

/-- **A successful sequence is two successful computations.** -/
@[simp] theorem bind_ok {x : Except ε α} {f : α → Except ε β} {b : β} :
    (x >>= f) = .ok b ↔ ∃ a, x = .ok a ∧ f a = .ok b := by
  cases x with
  | error e => simp [bind, Except.bind]
  | ok a => simp [bind, Except.bind]

/-- A successful computation hands its value on. -/
theorem ok_bind {a : α} {f : α → Except ε β} : ((Except.ok a : Except ε α) >>= f) = f a := rfl

@[simp] theorem pure_ok {a b : α} : (pure a : Except ε α) = .ok b ↔ a = b := by
  simp [pure, Except.pure]

@[simp] theorem throw_ok {e : ε} {a : α} : (throw e : Except ε α) = .ok a ↔ False := by
  simp [throw, throwThe, MonadExceptOf.throw]

@[simp] theorem map_ok {x : Except ε α} {f : α → β} {b : β} :
    (f <$> x) = .ok b ↔ ∃ a, x = .ok a ∧ f a = b := by
  cases x with
  | error e => simp [Functor.map, Except.map]
  | ok a => simp [Functor.map, Except.map]

/-- The value at a key that must be present. -/
def required (x : Option α) (e : ε) : Except ε α :=
  match x with
  | some a => .ok a
  | none => .error e

@[simp] theorem required_ok {x : Option α} {e : ε} {a : α} :
    required x e = .ok a ↔ x = some a := by
  cases x <;> simp [required]

theorem required_some {a : α} {e : ε} : required (some a) e = .ok a := rfl

/-- **What every turn of a loop keeps, the loop keeps.** -/
theorem foldlM_invariant {f : σ → α → Except ε σ} (I : σ → Prop) {l : List α}
    (step : ∀ s a t, a ∈ l → I s → f s a = .ok t → I t) {s t : σ}
    (hs : I s) (h : l.foldlM f s = .ok t) : I t := by
  induction l generalizing s with
  | nil =>
    rw [List.foldlM_nil, pure_ok] at h
    exact h ▸ hs
  | cons a l ih =>
    rw [List.foldlM_cons, bind_ok] at h
    obtain ⟨u, hu, h⟩ := h
    exact ih (fun s b t hb => step s b t (List.mem_cons_of_mem _ hb))
      (step s a u List.mem_cons_self hs hu) h

/-- A loop over a list that is cut in two is two loops. -/
theorem foldlM_append_ok {f : σ → α → Except ε σ} {l m : List α} {s t : σ} :
    (l ++ m).foldlM f s = .ok t ↔ ∃ u, l.foldlM f s = .ok u ∧ m.foldlM f u = .ok t := by
  rw [List.foldlM_append, bind_ok]

/-- A loop with one more turn. -/
theorem foldlM_snoc_ok {f : σ → α → Except ε σ} {l : List α} {a : α} {s t : σ} :
    (l ++ [a]).foldlM f s = .ok t ↔ ∃ u, l.foldlM f s = .ok u ∧ f u a = .ok t := by
  rw [foldlM_append_ok]
  simp only [List.foldlM_cons, List.foldlM_nil, bind_pure]

/-- Every turn of a successful loop was reached, and succeeded. -/
theorem foldlM_turn {f : σ → α → Except ε σ} {l m : List α} {a : α} {s t : σ}
    (h : (l ++ a :: m).foldlM f s = .ok t) :
    ∃ u v, l.foldlM f s = .ok u ∧ f u a = .ok v ∧ m.foldlM f v = .ok t := by
  obtain ⟨u, hu, h⟩ := foldlM_append_ok.mp h
  rw [List.foldlM_cons, bind_ok] at h
  obtain ⟨v, hv, h⟩ := h
  exact ⟨u, v, hu, hv, h⟩

/-- A loop of checks succeeds exactly when every check does. -/
theorem forM_ok {f : α → Except ε Unit} {l : List α} :
    forM l f = .ok () ↔ ∀ a ∈ l, f a = .ok () := by
  induction l with
  | nil => simp [pure, Except.pure]
  | cons a l ih =>
    rw [List.forM_cons, bind_ok]
    constructor
    · rintro ⟨_, ha, hl⟩ b hb
      rcases List.mem_cons.mp hb with rfl | hb
      · exact ha
      · exact ih.mp hl b hb
    · intro h
      exact ⟨(), h a List.mem_cons_self, ih.mpr fun b hb => h b (List.mem_cons_of_mem _ hb)⟩

/-- Building a list element by element: the results correspond one to one. -/
theorem mapM_ok {f : α → Except ε β} {l : List α} {m : List β} :
    l.mapM f = .ok m ↔ List.Forall₂ (fun a b => f a = .ok b) l m := by
  induction l generalizing m with
  | nil =>
    rw [List.mapM_nil, pure_ok, List.forall₂_nil_left_iff]
    exact eq_comm
  | cons a l ih =>
    rw [List.mapM_cons, bind_ok, List.forall₂_cons_left_iff]
    constructor
    · rintro ⟨b, hb, h⟩
      obtain ⟨bs, hbs, h⟩ := bind_ok.mp h
      exact ⟨b, bs, hb, ih.mp hbs, (pure_ok.mp h).symm⟩
    · rintro ⟨b, bs, hb, hbs, rfl⟩
      exact ⟨b, hb, bind_ok.mpr ⟨bs, ih.mpr hbs, pure_ok.mpr rfl⟩⟩

/-- Building a list succeeds when every element has a result. -/
theorem mapM_total {f : α → Except ε β} {l : List α} (h : ∀ a ∈ l, ∃ b, f a = .ok b) :
    ∃ m, l.mapM f = .ok m := by
  induction l with
  | nil => exact ⟨[], rfl⟩
  | cons a l ih =>
    obtain ⟨b, hb⟩ := h a List.mem_cons_self
    obtain ⟨m, hm⟩ := ih fun c hc => h c (List.mem_cons_of_mem _ hc)
    refine ⟨b :: m, ?_⟩
    rw [List.mapM_cons, bind_ok]
    exact ⟨b, hb, bind_ok.mpr ⟨m, hm, rfl⟩⟩

/-- A list is built without failing when every element has its result. -/
theorem mapM_pure {f : α → Except ε β} {g : α → β} {l : List α}
    (h : ∀ a ∈ l, f a = .ok (g a)) : l.mapM f = .ok (l.map g) := by
  rw [mapM_ok, List.forall₂_map_right_iff, List.forall₂_same]
  exact h

/-- Every element of the list has its result. -/
theorem mapM_left {f : α → Except ε β} {l : List α} {m : List β} (h : l.mapM f = .ok m) {a : α}
    (ha : a ∈ l) : ∃ b ∈ m, f a = .ok b := by
  rw [mapM_ok] at h
  induction h with
  | nil => simp at ha
  | cons hab _ ih =>
    rcases List.mem_cons.mp ha with rfl | ha
    · exact ⟨_, List.mem_cons_self, hab⟩
    · obtain ⟨b, hb, hfb⟩ := ih ha
      exact ⟨b, List.mem_cons_of_mem _ hb, hfb⟩

/-- Every result comes from an element of the list. -/
theorem mapM_right {f : α → Except ε β} {l : List α} {m : List β} (h : l.mapM f = .ok m) {b : β}
    (hb : b ∈ m) : ∃ a ∈ l, f a = .ok b := by
  rw [mapM_ok] at h
  induction h with
  | nil => simp at hb
  | cons hab _ ih =>
    rcases List.mem_cons.mp hb with rfl | hb
    · exact ⟨_, List.mem_cons_self, hab⟩
    · obtain ⟨a, ha, hfa⟩ := ih hb
      exact ⟨a, List.mem_cons_of_mem _ ha, hfa⟩

/-- Results stand at the places of their elements. -/
theorem mapM_getElem? {f : α → Except ε β} {l : List α} {m : List β} (h : l.mapM f = .ok m) {i : ℕ}
    {a : α} (ha : l[i]? = some a) : ∃ b, m[i]? = some b ∧ f a = .ok b := by
  rw [mapM_ok] at h
  induction h generalizing i with
  | nil => simp at ha
  | cons hab _ ih =>
    cases i with
    | zero =>
      obtain rfl : _ = a := by simpa using ha
      exact ⟨_, rfl, hab⟩
    | succ i => exact ih (by simpa using ha)

theorem mapM_getElem?' {f : α → Except ε β} {l : List α} {m : List β} (h : l.mapM f = .ok m) {i : ℕ}
    {b : β} (hb : m[i]? = some b) : ∃ a, l[i]? = some a ∧ f a = .ok b := by
  have hlen : l.length = m.length := (mapM_ok.mp h).length_eq
  have hi : i < l.length := hlen ▸ (List.getElem?_eq_some_iff.mp hb).1
  obtain ⟨b', hb', hf⟩ := mapM_getElem? h (List.getElem?_eq_getElem hi)
  obtain rfl : b' = b := Option.some.inj (hb'.symm.trans hb)
  exact ⟨_, List.getElem?_eq_getElem hi, hf⟩

/-- Results that keep a projection of the elements, keep it for the whole list. -/
theorem mapM_map {γ : Type} {f : α → Except ε β} {l : List α} {m : List β} (h : l.mapM f = .ok m)
    {g : β → γ} {k : α → γ} (hf : ∀ a ∈ l, ∀ b, f a = .ok b → g b = k a) : m.map g = l.map k := by
  rw [mapM_ok] at h
  induction h with
  | nil => rfl
  | cons hab _ ih =>
    rw [List.map_cons, List.map_cons, hf _ List.mem_cons_self _ hab,
      ih fun a ha => hf a (List.mem_cons_of_mem _ ha)]

/-! ## Failures -/

theorem ensure_error {c : Prop} [Decidable c] {e e' : ε} (h : ensure c e = .error e') :
    ¬ c ∧ e = e' := by
  unfold ensure at h
  split at h
  · cases h
  · exact ⟨‹_›, Except.error.inj h⟩

theorem required_error {x : Option α} {e e' : ε} (h : required x e = .error e') :
    x = none ∧ e = e' := by
  cases x with
  | some a => cases h
  | none => exact ⟨rfl, Except.error.inj h⟩

/-- **A sequence fails in its first or in its second computation.** -/
theorem bind_error {x : Except ε α} {f : α → Except ε β} {e : ε} (h : (x >>= f) = .error e) :
    x = .error e ∨ ∃ a, x = .ok a ∧ f a = .error e := by
  cases x with
  | error e' => exact Or.inl (congrArg Except.error (Except.error.inj h))
  | ok a => exact Or.inr ⟨a, rfl, h⟩

/-- A loop fails in one of its turns, in a state that satisfies what the turns keep. -/
theorem foldlM_error {f : σ → α → Except ε σ} (I : σ → List α → Prop) {l : List α}
    (step : ∀ s a l t, I s (a :: l) → f s a = .ok t → I t l) {s : σ} {e : ε}
    (hs : I s l) (h : l.foldlM f s = .error e) : ∃ t a m, I t (a :: m) ∧ f t a = .error e := by
  induction l generalizing s with
  | nil => cases h
  | cons a l ih =>
    rw [List.foldlM_cons] at h
    rcases bind_error h with h | ⟨u, hu, h⟩
    · exact ⟨s, a, l, hs, h⟩
    · exact ih (step s a l u hs hu) h

/-- A loop of checks fails in one of them. -/
theorem forM_error {f : α → Except ε Unit} {l : List α} {e : ε} (h : forM l f = .error e) :
    ∃ a ∈ l, f a = .error e := by
  induction l with
  | nil => cases h
  | cons a l ih =>
    rw [List.forM_cons] at h
    rcases bind_error h with h | ⟨_, -, h⟩
    · exact ⟨a, List.mem_cons_self, h⟩
    · obtain ⟨b, hb, h⟩ := ih h
      exact ⟨b, List.mem_cons_of_mem _ hb, h⟩

/-- Building a list fails at one of its elements. -/
theorem mapM_error {f : α → Except ε β} {l : List α} {e : ε} (h : l.mapM f = .error e) :
    ∃ a ∈ l, f a = .error e := by
  induction l with
  | nil => cases h
  | cons a l ih =>
    rw [List.mapM_cons] at h
    rcases bind_error h with h | ⟨b, -, h⟩
    · exact ⟨a, List.mem_cons_self, h⟩
    · rcases bind_error h with h | ⟨bs, -, h⟩
      · obtain ⟨c, hc, h⟩ := ih h
        exact ⟨c, List.mem_cons_of_mem _ hc, h⟩
      · cases h

end VeriCCL.Checked
