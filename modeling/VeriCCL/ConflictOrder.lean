import VeriCCL.Trace

/-! # Sequences that keep the order of conflicts

Two operations conflict if one of them writes a location that the other touches.  Sequences of
the same operations in which conflicting operations come in the same order leave the same memory
(`sequence_eq_of_keeps`), and an operation finds the same in what it reads
(`found_eq_of_keeps`). -/
namespace VeriCCL.Trace

variable {ι L V : Type} {P : Operations ι L V} {m : L → V} {i j : ι}

/-- One of two operations writes a location that the other touches. -/
def Operations.Conflict (P : Operations ι L V) (i j : ι) : Prop :=
  ∃ l, (P.writes i l ∧ (P.reads j l ∨ P.writes j l)) ∨ (P.reads i l ∧ P.writes j l)

/-- What an operation writes depends on what it reads, and on nothing else. -/
def Operations.Closed (P : Operations ι L V) : Prop :=
  ∀ i l k, P.writes i l → P.uses i l k → P.reads i k

/-- Conflicting operations come in the same order. -/
def Operations.Keeps (P : Operations ι L V) (order order' : List ι) : Prop :=
  ∀ i j, P.Conflict i j → Earlier order i j → Earlier order' i j

theorem Operations.Conflict.symm (h : P.Conflict i j) : P.Conflict j i := by
  obtain ⟨l, ⟨hi, hj | hj⟩ | ⟨hi, hj⟩⟩ := h
  · exact ⟨l, .inr ⟨hj, hi⟩⟩
  · exact ⟨l, .inl ⟨hj, .inr hi⟩⟩
  · exact ⟨l, .inl ⟨hj, .inl hi⟩⟩

theorem earlier_iff_sublist {order : List ι} : Earlier order i j ↔ [i, j].Sublist order := by
  constructor
  · rintro ⟨x, y, rfl, hi⟩
    exact (List.singleton_sublist.mpr hi).append (List.singleton_sublist.mpr List.mem_cons_self)
  · intro h
    obtain ⟨x, y, rfl, hi, hj⟩ := List.cons_sublist_iff.mp h
    obtain ⟨a, b, rfl⟩ := List.append_of_mem (List.singleton_sublist.mp hj)
    exact ⟨x ++ a, b, by simp, List.mem_append_left a hi⟩

/-! ## Operations that do not conflict -/

/-- What one operation writes is not touched by the other. -/
theorem apply_of_reads (h : ¬ P.Conflict i j) {l : L} (hread : P.reads j l) : P.apply m i l = m l :=
  apply_of_not_writes fun hwrite => h ⟨l, .inl ⟨hwrite, .inl hread⟩⟩

/-- An operation makes the same of what it reads. -/
theorem value_of_reads (hclosed : P.Closed) (h : ¬ P.Conflict i j) {l : L} (hwrite : P.writes j l) :
    P.value j (P.apply m i) l = P.value j m l :=
  P.value_congr j l _ _ fun k hk => apply_of_reads h (hclosed j l k hwrite hk)

/-- **Operations that do not conflict may change places.** -/
theorem apply_comm (hclosed : P.Closed) (h : ¬ P.Conflict i j) :
    P.apply (P.apply m i) j = P.apply (P.apply m j) i := by
  funext l
  by_cases hi : P.writes i l
  · have hj : ¬ P.writes j l := fun hj => h ⟨l, .inl ⟨hi, .inr hj⟩⟩
    rw [apply_of_not_writes hj, apply_of_writes hi, apply_of_writes hi,
      value_of_reads hclosed (fun hc => h hc.symm) hi]
  · rw [apply_of_not_writes hi]
    by_cases hj : P.writes j l
    · rw [apply_of_writes hj, apply_of_writes hj, value_of_reads hclosed h hj]
    · rw [apply_of_not_writes hj, apply_of_not_writes hj, apply_of_not_writes hi]

/-- An operation may come before all it does not conflict with. -/
theorem sequence_apply_comm (hclosed : P.Closed) {a : List ι} (h : ∀ j ∈ a, ¬ P.Conflict i j) :
    P.sequence (P.apply m i) a = P.apply (P.sequence m a) i := by
  induction a generalizing m with
  | nil => rfl
  | cons j a ih =>
    show P.sequence (P.apply (P.apply m i) j) a = P.apply (P.sequence (P.apply m j) a) i
    rw [apply_comm hclosed (h j List.mem_cons_self), ih fun k hk => h k (List.mem_cons_of_mem _ hk)]

/-! ## Orders of the same operations -/

section Orders
variable {order rest a b : List ι}

/-- The first operation conflicts with nothing that another order puts before it. -/
theorem not_conflict_of_first (hnodup : (i :: rest).Nodup) (hkeeps : P.Keeps order (i :: rest))
    (hj : Earlier order j i) : ¬ P.Conflict i j := by
  intro hconflict
  obtain ⟨x, y, hsplit, hx⟩ := hkeeps j i hconflict.symm hj
  cases x with
  | nil => simp at hx
  | cons k x =>
    obtain ⟨rfl, rfl⟩ := List.cons.inj hsplit
    simp at hnodup

theorem earlier_of_mem (hj : j ∈ a) : Earlier (a ++ i :: b) j i := ⟨a, b, rfl, hj⟩

/-- Without the first operation, too. -/
theorem Operations.Keeps.tail (hnodup : (a ++ i :: b).Nodup)
    (hkeeps : P.Keeps (a ++ i :: b) (i :: rest)) : P.Keeps (a ++ b) rest := by
  intro j k hconflict hjk
  have hsub := earlier_iff_sublist.mp hjk
  have hwhole : [j, k].Sublist (a ++ i :: b) :=
    hsub.trans ((List.sublist_cons_self i b).append_left a)
  have hne : j ≠ i := by
    rintro rfl
    have hj : j ∈ a ++ b := hsub.subset List.mem_cons_self
    rw [List.nodup_middle] at hnodup
    exact (List.nodup_cons.mp hnodup).1 hj
  have hrest := earlier_iff_sublist.mp (hkeeps j k hconflict (earlier_iff_sublist.mpr hwhole))
  rw [List.sublist_cons_iff] at hrest
  obtain hrest | ⟨r, hr, -⟩ := hrest
  · exact earlier_iff_sublist.mpr hrest
  · exact absurd (List.cons.inj hr).1 hne

/-- **The memory in the end.** -/
theorem sequence_eq_of_keeps (hclosed : P.Closed) {order' : List ι} (hnodup : order.Nodup)
    (hperm : order'.Perm order) (hkeeps : P.Keeps order order') :
    P.sequence m order' = P.sequence m order := by
  induction order' generalizing m order with
  | nil => rw [hperm.nil_eq]
  | cons i rest ih =>
    obtain ⟨a, b, rfl⟩ := List.append_of_mem (hperm.mem_iff.mp List.mem_cons_self)
    have hfree : ∀ j ∈ a, ¬ P.Conflict i j := fun j hj =>
      not_conflict_of_first (hperm.nodup_iff.mpr hnodup) hkeeps (earlier_of_mem hj)
    have hrest : rest.Perm (a ++ b) := (hperm.trans List.perm_middle).cons_inv
    have hnodup' : (a ++ b).Nodup := (List.nodup_cons.mp (List.nodup_middle.mp hnodup)).2
    calc P.sequence m (i :: rest) = P.sequence (P.apply m i) rest := rfl
      _ = P.sequence (P.apply m i) (a ++ b) := ih hnodup' hrest (hkeeps.tail hnodup)
      _ = P.sequence (P.apply (P.sequence m a) i) b := by
        rw [sequence_append, sequence_apply_comm hclosed hfree]
      _ = P.sequence m (a ++ i :: b) := by
        rw [sequence_append]
        rfl

/-- **What an operation finds in what it reads.** -/
theorem found_eq_of_keeps (hclosed : P.Closed) {x y x' y' : List ι} (hnodup : (x ++ j :: y).Nodup)
    (hperm : (x' ++ j :: y').Perm (x ++ j :: y)) (hkeeps : P.Keeps (x ++ j :: y) (x' ++ j :: y'))
    {l : L} (hread : P.reads j l) : P.sequence m x' l = P.sequence m x l := by
  induction x' generalizing m x y with
  | nil =>
    refine (sequence_of_not_writes x fun i hi hwrite => ?_).symm
    have hfree := not_conflict_of_first (hperm.nodup_iff.mpr hnodup) hkeeps (earlier_of_mem hi)
    exact hfree ⟨l, .inr ⟨hread, hwrite⟩⟩
  | cons i x' ih =>
    have hnodup' : (i :: (x' ++ j :: y')).Nodup := hperm.nodup_iff.mpr hnodup
    have hne : i ≠ j := by
      rintro rfl
      simp at hnodup'
    have hmem : i ∈ x ++ j :: y := hperm.mem_iff.mp List.mem_cons_self
    rw [List.mem_append, List.mem_cons, or_iff_right hne] at hmem
    obtain hi | hi := hmem
    · obtain ⟨a, b, rfl⟩ := List.append_of_mem hi
      simp only [List.append_assoc, List.cons_append] at hnodup hperm hkeeps
      have hfree : ∀ k ∈ a, ¬ P.Conflict i k := fun k hk =>
        not_conflict_of_first hnodup' hkeeps (earlier_of_mem hk)
      have hrest : (x' ++ j :: y').Perm ((a ++ b) ++ j :: y) := by
        rw [List.append_assoc]
        exact (hperm.trans List.perm_middle).cons_inv
      have hshort : ((a ++ b) ++ j :: y).Nodup := by
        rw [List.append_assoc]
        exact (List.nodup_cons.mp (List.nodup_middle.mp hnodup)).2
      have htail : P.Keeps ((a ++ b) ++ j :: y) (x' ++ j :: y') := by
        rw [List.append_assoc]
        exact hkeeps.tail hnodup
      calc P.sequence m (i :: x') l = P.sequence (P.apply m i) x' l := rfl
        _ = P.sequence (P.apply m i) (a ++ b) l := ih hshort hrest htail
        _ = P.sequence (P.apply (P.sequence m a) i) b l := by
          rw [sequence_append, sequence_apply_comm hclosed hfree]
        _ = P.sequence m (a ++ i :: b) l := by
          rw [sequence_append]
          rfl
    · obtain ⟨a, b, rfl⟩ := List.append_of_mem hi
      have hassoc : x ++ j :: (a ++ i :: b) = (x ++ j :: a) ++ i :: b := by simp
      rw [hassoc] at hnodup hperm hkeeps
      have hfree : ∀ k ∈ x ++ j :: a, ¬ P.Conflict i k := fun k hk =>
        not_conflict_of_first hnodup' hkeeps (earlier_of_mem hk)
      have hshort : x ++ j :: (a ++ b) = (x ++ j :: a) ++ b := by simp
      have hrest : (x' ++ j :: y').Perm (x ++ j :: (a ++ b)) := by
        rw [hshort]
        exact (hperm.trans List.perm_middle).cons_inv
      calc P.sequence m (i :: x') l = P.sequence (P.apply m i) x' l := rfl
        _ = P.sequence (P.apply m i) x l := by
          refine ih (y := a ++ b) ?_ hrest ?_
          · rw [hshort]
            exact (List.nodup_cons.mp (List.nodup_middle.mp hnodup)).2
          · rw [hshort]
            exact hkeeps.tail hnodup
        _ = P.apply (P.sequence m x) i l := by
          rw [sequence_apply_comm hclosed fun k hk => hfree k (List.mem_append_left _ hk)]
        _ = P.sequence m x l := apply_of_reads (hfree j (by simp)) hread

end Orders

end VeriCCL.Trace
