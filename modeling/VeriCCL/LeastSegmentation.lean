import VeriCCL.Dict

/-! # Cutting a list into the fewest segments

A list is cut into contiguous segments of a least length, each accepted by `piece`
(`Segmented`).  `bestPrefixes` finds for every prefix a cut with the fewest segments: each end is
tried with each start, and the first of the shortest cuts stays (`bestPrefixes_optimal`). -/
namespace VeriCCL

variable {α β : Type} (piece : List α → Option β) (least : ℕ)

/-- The list can be cut into segments with these results. -/
inductive Segmented : List α → List β → Prop where
  | nil : Segmented [] []
  | snoc {xs segment : List α} {bs : List β} {b : β} (before : Segmented xs bs)
      (long : least ≤ segment.length) (accepted : piece segment = some b) :
      Segmented (xs ++ segment) (bs ++ [b])

/-- Try the segment from `start` to `stop`. -/
def extendPrefix (xs : List α) (stop : ℕ) (best : Dict ℕ (List β)) (start : ℕ) :
    Dict ℕ (List β) :=
  match best.get? start, piece ((xs.take stop).drop start) with
  | some previous, some b =>
    let candidate := previous ++ [b]
    match best.get? stop with
    | none => best.set stop candidate
    | some now => if candidate.length < now.length then best.set stop candidate else best
  | _, _ => best

/-- All starts for one end. -/
def extendPrefixes (xs : List α) (best : Dict ℕ (List β)) (stop : ℕ) : Dict ℕ (List β) :=
  (List.range (stop - least + 1)).foldl (extendPrefix piece xs stop) best

/-- The best cuts of the prefixes. -/
def bestPrefixes (xs : List α) : Dict ℕ (List β) :=
  (List.range' least (xs.length + 1 - least)).foldl (extendPrefixes piece least xs) [(0, [])]

/-! ## What the loops find -/

/-- The entry is a shortest list that satisfies `P`, or there is none. -/
def OptimalIn (P : List β → Prop) : Option (List β) → Prop
  | none => ∀ bs, ¬ P bs
  | some bs => P bs ∧ ∀ cs, P cs → bs.length ≤ cs.length

theorem OptimalIn.congr {P Q : List β → Prop} (hPQ : ∀ bs, P bs ↔ Q bs) {entry : Option (List β)}
    (h : OptimalIn P entry) : OptimalIn Q entry := by
  cases entry with
  | none => exact fun bs hbs => h bs ((hPQ bs).mpr hbs)
  | some bs => exact ⟨(hPQ bs).mp h.1, fun cs hcs => h.2 cs ((hPQ cs).mpr hcs)⟩

/-- A turn for each number below a bound. -/
theorem foldl_range_invariant {σ : Type} {f : σ → ℕ → σ} (I : ℕ → σ → Prop) {n : ℕ} {s : σ}
    (hs : I 0 s) (step : ∀ i t, i < n → I i t → I (i + 1) (f t i)) :
    I n ((List.range n).foldl f s) := by
  induction n with
  | zero => exact hs
  | succ n ih =>
    rw [List.range_succ, List.foldl_append]
    exact step n _ (Nat.lt_succ_self n) (ih fun i t hi => step i t (Nat.lt_succ_of_lt hi))

variable {piece least} {xs : List α}

theorem Segmented.length_le {bs : List β} (h : Segmented piece least xs bs) :
    bs.length * least ≤ xs.length := by
  induction h with
  | nil => simp
  | snoc _ long _ ih =>
    rw [List.length_append, List.length_append, List.length_singleton, Nat.add_mul, Nat.one_mul]
    omega

/-- Only the empty list is cut into no segments. -/
theorem Segmented.eq_nil (h : Segmented piece least xs []) : xs = [] := by
  generalize hbs : ([] : List β) = bs at h
  cases h with
  | nil => rfl
  | snoc => simp at hbs

/-- A list shorter than a segment is not cut. -/
theorem Segmented.not_short (hne : xs ≠ []) (hshort : xs.length < least) {bs : List β} :
    ¬ Segmented piece least xs bs := by
  intro h
  have hlen := h.length_le
  rcases Nat.eq_zero_or_pos bs.length with hzero | hpos
  · rw [List.length_eq_zero_iff.mp hzero] at h
    exact hne h.eq_nil
  · have := Nat.le_mul_of_pos_left least hpos
    omega

/-- The cuts of a prefix whose last segment starts before `bound`. -/
def CutBefore (piece : List α → Option β) (least : ℕ) (xs : List α) (stop bound : ℕ)
    (cs : List β) : Prop :=
  ∃ start < bound, start + least ≤ stop ∧ ∃ bs b, Segmented piece least (xs.take start) bs ∧
    piece ((xs.take stop).drop start) = some b ∧ cs = bs ++ [b]

/-- A cut of a prefix is a cut of a shorter one and a last segment. -/
theorem segmented_take_iff (hpos : 0 < least) {stop : ℕ} (hstop : stop ≤ xs.length)
    (hleast : least ≤ stop) (cs : List β) :
    CutBefore piece least xs stop (stop - least + 1) cs ↔ Segmented piece least (xs.take stop) cs := by
  constructor
  · rintro ⟨start, hstart, hle, bs, b, hbs, hb, rfl⟩
    have hsplit : xs.take stop = xs.take start ++ (xs.take stop).drop start := by
      have htake : xs.take start = (xs.take stop).take start := by
        rw [List.take_take, Nat.min_eq_left (by omega)]
      rw [htake, List.take_append_drop]
    rw [hsplit]
    refine .snoc hbs ?_ hb
    rw [List.length_drop, List.length_take]
    omega
  · intro h
    generalize hlist : xs.take stop = whole at h
    cases h with
    | nil =>
      have hlen := congrArg List.length hlist
      rw [List.length_take, List.length_nil] at hlen
      omega
    | @snoc before segment bs b hbefore hlong haccepted =>
      have hlen := congrArg List.length hlist
      rw [List.length_take, List.length_append] at hlen
      have htake : xs.take before.length = before := by
        have h := congrArg (List.take before.length) hlist
        rwa [List.take_take, Nat.min_eq_left (by omega), List.take_left] at h
      refine ⟨before.length, by omega, by omega, bs, b, ?_, ?_, rfl⟩
      · rwa [htake]
      · rwa [hlist, List.drop_left]

/-- The table has the best cut of every prefix that ends before `bound`, and nothing else. -/
def OptimalBelow (piece : List α → Option β) (least : ℕ) (xs : List α) (bound : ℕ)
    (best : Dict ℕ (List β)) : Prop :=
  (∀ k < bound, OptimalIn (Segmented piece least (xs.take k)) (best.get? k)) ∧
    ∀ k, bound ≤ k → best.get? k = none

/-- One turn of the inner loop. -/
theorem extendPrefix_get? (best : Dict ℕ (List β)) (stop start k : ℕ) (hk : k ≠ stop) :
    (extendPrefix piece xs stop best start).get? k = best.get? k := by
  unfold extendPrefix
  split
  · dsimp only
    split
    · exact Dict.get?_set_ne _ _ hk.symm
    · split
      · exact Dict.get?_set_ne _ _ hk.symm
      · rfl
  · rfl

theorem extendPrefix_optimal {best : Dict ℕ (List β)} {stop start : ℕ} (hlt : start + least ≤ stop)
    (hstart : OptimalIn (Segmented piece least (xs.take start)) (best.get? start))
    (hstop : OptimalIn (CutBefore piece least xs stop start) (best.get? stop)) :
    OptimalIn (CutBefore piece least xs stop (start + 1))
      ((extendPrefix piece xs stop best start).get? stop) := by
  -- a cut before the next bound is one before this bound, or its last segment starts here
  have hcuts : ∀ cs, CutBefore piece least xs stop (start + 1) cs ↔
      CutBefore piece least xs stop start cs ∨ ∃ bs b, Segmented piece least (xs.take start) bs ∧
        piece ((xs.take stop).drop start) = some b ∧ cs = bs ++ [b] := by
    intro cs
    constructor
    · rintro ⟨s, hs, hle, hcut⟩
      rcases Nat.lt_succ_iff_lt_or_eq.mp hs with hs | rfl
      · exact Or.inl ⟨s, hs, hle, hcut⟩
      · exact Or.inr hcut
    · rintro (⟨s, hs, hle, hcut⟩ | hcut)
      · exact ⟨s, Nat.lt_succ_of_lt hs, hle, hcut⟩
      · exact ⟨start, Nat.lt_succ_self _, hlt, hcut⟩
  refine OptimalIn.congr (fun cs => (hcuts cs).symm) ?_
  unfold extendPrefix
  cases hprevious : best.get? start with
  | none =>
    rw [hprevious] at hstart
    exact hstop.congr fun cs => ⟨Or.inl, fun h => h.resolve_right fun ⟨bs, _, hbs, _⟩ => hstart bs hbs⟩
  | some previous =>
    rw [hprevious] at hstart
    cases hpiece : piece ((xs.take stop).drop start) with
    | none =>
      exact hstop.congr fun cs => ⟨Or.inl, fun h => h.resolve_right fun ⟨_, _, _, hb, _⟩ => by
        cases hb⟩
    | some b =>
      -- the new candidate is the best of those that start here
      have hnew : ∀ cs, (∃ bs b', Segmented piece least (xs.take start) bs ∧
          some b = some b' ∧ cs = bs ++ [b']) → (previous ++ [b]).length ≤ cs.length := by
        rintro cs ⟨bs, b', hbs, -, rfl⟩
        have := hstart.2 bs hbs
        simpa using this
      have hmine : ∃ bs b', Segmented piece least (xs.take start) bs ∧ some b = some b' ∧
          previous ++ [b] = bs ++ [b'] := ⟨previous, b, hstart.1, rfl, rfl⟩
      dsimp only
      cases hnow : best.get? stop with
      | none =>
        rw [hnow] at hstop
        dsimp only
        rw [Dict.get?_set_self]
        exact ⟨Or.inr hmine, fun cs hcs => hcs.elim (fun h => absurd h (hstop cs)) (hnew cs)⟩
      | some now =>
        rw [hnow] at hstop
        dsimp only
        split
        · rename_i hshort
          rw [Dict.get?_set_self]
          exact ⟨Or.inr hmine, fun cs hcs => hcs.elim
            (fun h => le_trans (le_of_lt hshort) (hstop.2 cs h)) (hnew cs)⟩
        · rename_i hshort
          rw [hnow]
          exact ⟨Or.inl hstop.1, fun cs hcs => hcs.elim (hstop.2 cs)
            fun h => le_trans (not_lt.mp hshort) (hnew cs h)⟩

/-- One turn of the outer loop. -/
theorem extendPrefixes_optimal (hpos : 0 < least) {best : Dict ℕ (List β)} {stop : ℕ}
    (hleast : least ≤ stop) (hstop : stop ≤ xs.length) (h : OptimalBelow piece least xs stop best) :
    OptimalBelow piece least xs (stop + 1) (extendPrefixes piece least xs best stop) := by
  have hinv := foldl_range_invariant (f := extendPrefix piece xs stop) (n := stop - least + 1)
    (fun start t => (∀ k, k ≠ stop → t.get? k = best.get? k) ∧
      OptimalIn (CutBefore piece least xs stop start) (t.get? stop))
    ⟨fun _ _ => rfl, by
      rw [h.2 stop (le_refl _)]
      rintro cs ⟨start, hstart, -⟩
      omega⟩
    (fun start t hstart ht => by
      refine ⟨fun k hk => (extendPrefix_get? t stop start k hk).trans (ht.1 k hk), ?_⟩
      refine extendPrefix_optimal (by omega) ?_ ht.2
      rw [ht.1 start (by omega)]
      exact h.1 start (by omega))
  obtain ⟨hothers, hown⟩ := hinv
  refine ⟨fun k hk => ?_, fun k hk => ?_⟩
  · by_cases heq : k = stop
    · rw [heq]
      exact hown.congr (segmented_take_iff hpos hstop hleast)
    · unfold extendPrefixes
      rw [hothers k heq]
      exact h.1 k (by omega)
  · unfold extendPrefixes
    rw [hothers k (by omega)]
    exact h.2 k (by omega)

variable (piece least xs) in
/-- **The table has a cut with the fewest segments for every prefix that has one.** -/
theorem bestPrefixes_optimal (hpos : 0 < least) (hleast : least ≤ xs.length + 1) {k : ℕ}
    (hk : k ≤ xs.length) :
    OptimalIn (Segmented piece least (xs.take k)) ((bestPrefixes piece least xs).get? k) := by
  have hstart : OptimalBelow piece least xs least [(0, [])] := by
    refine ⟨fun k hk => ?_, fun k hk => ?_⟩
    · rcases Nat.eq_zero_or_pos k with rfl | hkpos
      · exact ⟨.nil, fun cs _ => Nat.zero_le _⟩
      · have hnone : Dict.get? ([(0, [])] : Dict ℕ (List β)) k = none := by
          rw [Dict.get?_cons, if_neg (by omega)]
          rfl
        rw [hnone]
        intro cs
        refine Segmented.not_short ?_ ?_
        · exact List.ne_nil_of_length_pos (by rw [List.length_take]; omega)
        · rw [List.length_take]
          omega
    · rw [Dict.get?_cons, if_neg (by omega)]
      rfl
  have hinv := foldl_range_invariant
    (f := fun best i => extendPrefixes piece least xs best (least + i)) (n := xs.length + 1 - least)
    (fun i best => OptimalBelow piece least xs (least + i) best) hstart
    (fun i best hi hbest => by
      have hstop : least + i ≤ xs.length := by omega
      exact extendPrefixes_optimal hpos (Nat.le_add_right _ _) hstop hbest)
  unfold bestPrefixes
  rw [List.range'_eq_map_range, List.foldl_map]
  exact hinv.1 k (by omega)

end VeriCCL
