import VeriCCL.ScheduleHistory

/-! # Executing transfers

A rank holds sets of contributions, and a transfer adds one to its destination: what its source
holds, with what the destination holds already if it is a reduction.  In a sound network every
transfer waits for the transfers that bring what it reads, and nothing is ever lost, so every
order that respects the dependencies executes (`NetworkSound.run`) and ends with the outputs of
the collective (`NetworkSound.outputs_held`). -/
namespace VeriCCL

/-- The sets of contributions that every rank holds, oldest first. -/
abbrev Holdings := ℕ → List (Finset ℕ)

/-- What ranks hold before the first transfer: their inputs. -/
def startHoldings (spec : CollectiveSpec) (ranks n : ℕ) : Holdings := fun rank =>
  if rank ∈ sourceRanks spec ranks then (List.range n).map fun logical => {rank * n + logical} else []

/-- What a transfer leaves at its destination, which holds `states`.  A reduction takes the
largest state that adds nothing twice and nothing that is not asked for. -/
def NetworkOperation.combine (op : NetworkOperation) (states : List (Finset ℕ)) : Option (Finset ℕ) :=
  match op.kind with
  | .send => some op.contributors
  | .rrc => (largest Finset.card (states.filter fun state =>
      Disjoint state op.contributors ∧ state ⊆ op.targetContributors)).map (· ∪ op.contributors)
  | _ => none

/-- One transfer: its source must hold what it carries. -/
def NetworkOperation.execute (held : Holdings) (op : NetworkOperation) : Option Holdings :=
  if op.contributors ∈ held op.srcRank then
    (op.combine (held op.dstRank)).map fun state =>
      Function.update held op.dstRank (held op.dstRank ++ [state])
  else none

/-! ## The largest of a list -/

section Largest
variable {α : Type} {size : α → ℕ} {items : List α} {a b : α}

theorem largest_mem (h : largest size items = some a) : a ∈ items := by
  obtain ⟨e, he, rfl⟩ := Option.map_eq_some_iff.mp h
  exact (List.mem_zipIdx' (List.argmax_mem he)).2 ▸ List.getElem_mem _

theorem le_largest (h : largest size items = some a) (hb : b ∈ items) : size b ≤ size a := by
  obtain ⟨e, he, rfl⟩ := Option.map_eq_some_iff.mp h
  obtain ⟨i, hi, rfl⟩ := List.getElem_of_mem hb
  have hle := List.le_of_mem_argmax (List.mk_mem_zipIdx_iff_getElem?.mpr (List.getElem?_eq_getElem hi)) he
  exact (Prod.Lex.le_iff.mp hle).elim (fun hlt => hlt.le) fun heq => heq.1.le

theorem largest_isSome (h : items ≠ []) : ∃ a, largest size items = some a := by
  cases hmax : items.zipIdx.argmax fun e => toLex (size e.1, e.2) with
  | none =>
    rw [List.argmax_eq_none] at hmax
    exact absurd (by simpa using hmax) h
  | some e => exact ⟨e.1, by rw [largest, hmax]; rfl⟩

end Largest

/-! ## Sound networks -/

section Sound
variable (spec : CollectiveSpec) (ranks n : ℕ) (operations : List NetworkOperation)

/-- A transfer finds a set of contributions on a rank: it is there at the start, or a transfer
that is waited for leaves it there. -/
def Supplied (op : NetworkOperation) (rank : ℕ) (state : Finset ℕ) : Prop :=
  state ∈ startHoldings spec ranks n rank ∨ ∃ other ∈ operations,
    other.operationId ∈ op.dependencies ∧ other.dstRank = rank ∧ other.targetContributors = state

/-- What a transfer reads and leaves.  A reduction reads what its destination holds, too. -/
def Delivers (op : NetworkOperation) : Prop :=
  (op.kind = .send ∧ op.targetContributors = op.contributors) ∨
    (op.kind = .rrc ∧ ∃ state, Disjoint state op.contributors ∧
      op.targetContributors = state ∪ op.contributors ∧ Supplied spec ranks n operations op op.dstRank state)

/-- Contributions of ranks at one logical slice. -/
def AtSlice (position : ℕ) (contributors : Finset ℕ) : Prop :=
  contributors.Nonempty ∧ ∀ value ∈ contributors, value / n < ranks ∧ value % n = position

/-- **A sound network.**  The transfers carry what the collective asks for, each waits for what
it reads, and only for transfers of its own slice. -/
structure NetworkSound : Prop where
  distinct : (operations.map (·.operationId)).Nodup
  ordered : ∃ level : String → ℕ, ∀ op ∈ operations, ∀ key ∈ op.dependencies, level key < level op.operationId
  sameSlice : ∀ op ∈ operations, ∃ position < n, AtSlice ranks n position op.contributors ∧
    AtSlice ranks n position op.targetContributors ∧ ∀ key ∈ op.dependencies, ∃ other ∈ operations,
      other.operationId = key ∧ AtSlice ranks n position other.contributors
  inRange : ∀ op ∈ operations, op.srcRank < ranks ∧ op.dstRank < ranks ∧ ∀ rank ∈ op.participants, rank < ranks
  reads : ∀ op ∈ operations, Supplied spec ranks n operations op op.srcRank op.contributors
  delivers : ∀ op ∈ operations, Delivers spec ranks n operations op
  outputs : ∀ entry ∈ requiredEntries spec ranks n, entry.2 ∈ startHoldings spec ranks n entry.1.rank ∨
    ∃ op ∈ operations, op.dstRank = entry.1.rank ∧ op.targetContributors = entry.2

end Sound

/-! ## Slices -/

/-- A contribution from its rank and its slice. -/
theorem contribution_spec {n position r : ℕ} (hposition : position < n) :
    (r * n + position) / n = r ∧ (r * n + position) % n = position := by
  constructor
  · rw [mul_comm, Nat.mul_add_div (by omega), Nat.div_eq_of_lt hposition, add_zero]
  · rw [mul_comm, Nat.mul_add_mod, Nat.mod_eq_of_lt hposition]

/-- The slice of a set of contributions of one slice. -/
theorem logicalPosition_eq {ranks n position : ℕ} {values : Finset ℕ} (h : AtSlice ranks n position values) :
    logicalPosition values n = position := by
  obtain ⟨a, ha⟩ := Finset.min_of_nonempty h.1
  rw [logicalPosition, ha]
  exact (h.2 a (Finset.mem_of_min ha)).2

theorem image_slice {ranks n position : ℕ} {values : Finset ℕ} (h : AtSlice ranks n position values) :
    (values.image (· % n)).card = 1 := by
  have himage : values.image (· % n) = {position} := by
    ext p
    simp only [Finset.mem_image, Finset.mem_singleton]
    constructor
    · rintro ⟨value, hvalue, rfl⟩
      exact (h.2 value hvalue).2
    · rintro rfl
      obtain ⟨value, hvalue⟩ := h.1
      exact ⟨value, hvalue, (h.2 value hvalue).2⟩
  rw [himage, Finset.card_singleton]

/-- A slice determines the sets of contributions at it. -/
theorem AtSlice.unique {ranks n p q : ℕ} {values : Finset ℕ} (hp : AtSlice ranks n p values)
    (hq : AtSlice ranks n q values) : p = q :=
  (logicalPosition_eq hp).symm.trans (logicalPosition_eq hq)

/-! ## Runs -/

section Run
variable {spec : CollectiveSpec} {ranks n : ℕ} {operations order done : List NetworkOperation}
  {op : NetworkOperation} {held : Holdings}

/-- Ranks hold what they held at the start and what the transfers that are done left. -/
def HoldsAfter (spec : CollectiveSpec) (ranks n : ℕ) (done : List NetworkOperation) (held : Holdings) : Prop :=
  ∀ rank state, state ∈ held rank ↔ state ∈ startHoldings spec ranks n rank ∨
    ∃ op ∈ done, op.dstRank = rank ∧ op.targetContributors = state

/-- What is supplied is held once the transfers that are waited for are done. -/
theorem HoldsAfter.supplied {rank : ℕ} {state : Finset ℕ} (h : HoldsAfter spec ranks n done held)
    (hdistinct : (operations.map (·.operationId)).Nodup) (hdone : ∀ other ∈ done, other ∈ operations)
    (hwaits : ∀ key ∈ op.dependencies, key ∈ done.map (·.operationId))
    (hsupplied : Supplied spec ranks n operations op rank state) : state ∈ held rank := by
  rw [h]
  obtain hstart | ⟨other, hother, hkey, hrank, hstate⟩ := hsupplied
  · exact .inl hstart
  · obtain ⟨same, hsame, hid⟩ := List.mem_map.mp (hwaits _ hkey)
    obtain rfl : same = other := List.inj_on_of_nodup_map hdistinct (hdone same hsame) hother hid
    exact .inr ⟨same, hsame, hrank, hstate⟩

/-- A reduction adds to the one state that completes its target: a larger one would add
something twice, or something that is not asked for. -/
theorem combine_reduction {states : List (Finset ℕ)} {state : Finset ℕ} (hkind : op.kind = .rrc)
    (hstate : state ∈ states) (hdisjoint : Disjoint state op.contributors)
    (htarget : op.targetContributors = state ∪ op.contributors) :
    op.combine states = some op.targetContributors := by
  have hpossible : state ∈ states.filter fun c =>
      Disjoint c op.contributors ∧ c ⊆ op.targetContributors := by
    rw [htarget]
    simp [hstate, hdisjoint]
  obtain ⟨found, hfound⟩ : ∃ found, largest Finset.card (states.filter fun c =>
      Disjoint c op.contributors ∧ c ⊆ op.targetContributors) = some found :=
    largest_isSome (List.ne_nil_of_mem hpossible)
  obtain ⟨-, hdisjoint', hsubset⟩ : found ∈ states ∧ Disjoint found op.contributors ∧
      found ⊆ op.targetContributors := by simpa using largest_mem hfound
  have hinside : found ⊆ state := by
    intro value hvalue
    obtain h | h := Finset.mem_union.mp (htarget ▸ hsubset hvalue)
    · exact h
    · exact absurd h (Finset.disjoint_left.mp hdisjoint' hvalue)
  obtain rfl : found = state :=
    Finset.eq_of_subset_of_card_le hinside (le_largest hfound hpossible)
  simp only [NetworkOperation.combine, hkind]
  rw [hfound, htarget]
  rfl

/-- **One transfer.** -/
theorem NetworkSound.execute (h : NetworkSound spec ranks n operations) (hop : op ∈ operations)
    (hheld : HoldsAfter spec ranks n done held) (hdone : ∀ other ∈ done, other ∈ operations)
    (hwaits : ∀ key ∈ op.dependencies, key ∈ done.map (·.operationId)) :
    ∃ next, op.execute held = some next ∧ HoldsAfter spec ranks n (done ++ [op]) next := by
  have hsource : op.contributors ∈ held op.srcRank :=
    hheld.supplied h.distinct hdone hwaits (h.reads op hop)
  have hcombine : op.combine (held op.dstRank) = some op.targetContributors := by
    obtain ⟨hkind, htarget⟩ | ⟨hkind, state, hdisjoint, htarget, hsupplied⟩ := h.delivers op hop
    · rw [NetworkOperation.combine, hkind, htarget]
    · exact combine_reduction hkind (hheld.supplied h.distinct hdone hwaits hsupplied) hdisjoint htarget
  refine ⟨Function.update held op.dstRank (held op.dstRank ++ [op.targetContributors]),
    by rw [NetworkOperation.execute, if_pos hsource, hcombine]; rfl, fun rank state => ?_⟩
  by_cases hrank : rank = op.dstRank
  · subst hrank
    rw [Function.update_self, List.mem_append, hheld, List.mem_singleton]
    simp only [List.mem_append, List.mem_singleton, or_and_right, exists_or, exists_eq_left, true_and,
      or_assoc, eq_comm (a := state)]
  · rw [Function.update_of_ne hrank, hheld]
    simp only [List.mem_append, List.mem_singleton, or_and_right, exists_or, exists_eq_left]
    simp [Ne.symm hrank]

/-- **Every order that respects the dependencies executes.** -/
theorem NetworkSound.run (h : NetworkSound spec ranks n operations)
    (horder : LinearOrderOf (·.operationId) (·.dependencies) operations order) :
    ∃ final, order.foldlM NetworkOperation.execute (startHoldings spec ranks n) = some final ∧
      HoldsAfter spec ranks n order final := by
  obtain ⟨hperm, hafter⟩ := horder
  suffices hrun : ∀ done rest, order = done ++ rest →
      ∃ held, done.foldlM NetworkOperation.execute (startHoldings spec ranks n) = some held ∧
        HoldsAfter spec ranks n done held by
    exact hrun order [] (by simp)
  intro done
  induction done using List.reverseRecOn with
  | nil => exact fun _ _ => ⟨_, rfl, by simp [HoldsAfter]⟩
  | append_singleton done op ih =>
    intro rest hsplit
    obtain ⟨held, hheld, hafterDone⟩ := ih (op :: rest) (by simp [hsplit])
    have hin : ∀ other ∈ order, other ∈ operations := fun other => hperm.mem_iff.mp
    obtain ⟨next, hnext, hafterOp⟩ := h.execute (hin op (by simp [hsplit])) hafterDone
      (fun other hother => hin other (by simp [hsplit, hother]))
      (hafter done op rest (by simp [hsplit]))
    exact ⟨next, by simp [List.foldlM_append, hheld, hnext], hafterOp⟩

/-- **In the end the outputs are there.** -/
theorem NetworkSound.outputs_held (h : NetworkSound spec ranks n operations) {final : Holdings}
    (hperm : order.Perm operations) (hfinal : HoldsAfter spec ranks n order final)
    {entry : OutputSlot × Finset ℕ} (hentry : entry ∈ requiredEntries spec ranks n) :
    entry.2 ∈ final entry.1.rank := by
  rw [hfinal]
  obtain hstart | ⟨op, hop, hrank, hstate⟩ := h.outputs entry hentry
  · exact .inl hstart
  · exact .inr ⟨op, hperm.mem_iff.mpr hop, hrank, hstate⟩

end Run

end VeriCCL
