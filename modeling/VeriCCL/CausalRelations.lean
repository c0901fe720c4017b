import VeriCCL.CausalIndex
import VeriCCL.OverlapComponents

/-! # Related operations are the pairwise ones

The loop over a resource keeps the operations that have not ended; it is the sweep that meets all
pairs (`foldl_visit`).  So the related operations are those that share a resource and each of
which starts before the other ends (`buildCausalIndex_spec`), and the critical operations are those
that the tails reach over predecessors and related operations (`ClosureUnder.mem_iff`). -/
namespace VeriCCL

/-! ## Related operations -/

/-- A key is listed for another. -/
def Listed (related : Dict String (List String)) (key other : String) : Prop :=
  ∃ values, related.get? key = some values ∧ other ∈ values

/-- Every key has its list, without repetition. -/
structure RelatedTable (keys : List String) (related : Dict String (List String)) : Prop where
  keys : ∀ key, key ∈ related.keys ↔ key ∈ keys
  nodup : ∀ key values, related.get? key = some values → values.Nodup

section Related
variable {keys : List String} {related : Dict String (List String)} {key other : String}

theorem get?_addRelated (related : Dict String (List String)) (key other x : String) :
    (addRelated related key other).get? x =
      if key = x then some (((related.get? key).getD []).insert other) else related.get? x := by
  rw [addRelated, Dict.get?_set]

theorem listed_addRelated {x y : String} :
    Listed (addRelated related key other) x y ↔ Listed related x y ∨ x = key ∧ y = other := by
  unfold Listed
  rw [get?_addRelated]
  by_cases hx : key = x
  · subst hx
    cases related.get? key with
    | none => simp
    | some values => simp [or_comm]
  · simp [hx, Ne.symm hx]

theorem RelatedTable.addRelated (h : RelatedTable keys related) (hkey : key ∈ keys) :
    RelatedTable keys (addRelated related key other) where
  keys x := by
    rw [VeriCCL.addRelated, Dict.mem_keys_set, h.keys]
    constructor
    · rintro (rfl | hx)
      · exact hkey
      · exact hx
    · exact .inr
  nodup x values hvalues := by
    rw [get?_addRelated] at hvalues
    split at hvalues
    · obtain rfl := Option.some.inj hvalues
      refine List.Nodup.insert ?_
      cases hx : related.get? key with
      | none => exact List.nodup_nil
      | some values => exact h.nodup key values hx
    · exact h.nodup x values hvalues

/-- The two keys of a pair are related, in either order. -/
def RelatedBy (pairs : List (OperationSpan × OperationSpan)) (x y : String) : Prop :=
  ∃ pair ∈ pairs, x = pair.1.key ∧ y = pair.2.key ∨ x = pair.2.key ∧ y = pair.1.key

theorem relatedBy_append {pairs more : List (OperationSpan × OperationSpan)} {x y : String} :
    RelatedBy (pairs ++ more) x y ↔ RelatedBy pairs x y ∨ RelatedBy more x y := by
  simp only [RelatedBy, List.mem_append, or_and_right, exists_or]

/-- The inner loop relates the operation to those that begin before it ends. -/
theorem foldl_addRelated (h : RelatedTable keys related) (span : OperationSpan)
    (hspan : span.key ∈ keys) {active : List OperationSpan}
    (hactive : ∀ other ∈ active, other.key ∈ keys) :
    let result := active.foldl (fun related other =>
      if other.start < span.stop then
        addRelated (addRelated related span.key other.key) other.key span.key
      else related) related
    RelatedTable keys result ∧ ∀ x y, Listed result x y ↔ Listed related x y ∨
      RelatedBy ((active.filter fun other => other.start < span.stop).map fun other => (span, other))
        x y := by
  induction active generalizing related with
  | nil => exact ⟨h, fun x y => by simp [RelatedBy]⟩
  | cons other active ih =>
    have hothers : ∀ o ∈ active, o.key ∈ keys := fun o ho => hactive o (List.mem_cons_of_mem _ ho)
    by_cases hlt : other.start < span.stop
    · have hnext : RelatedTable keys
          (addRelated (addRelated related span.key other.key) other.key span.key) :=
        (h.addRelated hspan).addRelated (hactive other List.mem_cons_self)
      obtain ⟨htable, hlisted⟩ := ih hnext hothers
      have hkept : (other :: active).filter (fun other => other.start < span.stop) =
          other :: active.filter fun other => other.start < span.stop :=
        List.filter_cons_of_pos (decide_eq_true hlt)
      rw [List.foldl_cons, if_pos hlt, hkept]
      refine ⟨htable, fun x y => (hlisted x y).trans ?_⟩
      simp only [listed_addRelated, RelatedBy, List.map_cons, List.exists_mem_cons_iff, or_assoc]
    · obtain ⟨htable, hlisted⟩ := ih h hothers
      have hkept : (other :: active).filter (fun other => other.start < span.stop) =
          active.filter fun other => other.start < span.stop :=
        List.filter_cons_of_neg (by simpa using hlt)
      rw [List.foldl_cons, if_neg hlt, hkept]
      exact ⟨htable, hlisted⟩

/-- **The loop over the operations of a resource relates the pairs that the sweep finds.** -/
theorem foldl_visit (h : RelatedTable keys related) {spans : List OperationSpan}
    (hspans : ∀ span ∈ spans, span.key ∈ keys) :
    let last := spans.foldl Competition.visit ⟨[], related⟩
    let swept := IntervalSweep.meet OperationSpan.start OperationSpan.stop spans
    last.active = swept.active ∧ RelatedTable keys last.related ∧
      ∀ x y, Listed last.related x y ↔ Listed related x y ∨ RelatedBy swept.pairs x y := by
  induction spans using List.reverseRecOn with
  | nil => exact ⟨rfl, h, fun x y => by simp [RelatedBy, IntervalSweep.meet]⟩
  | append_singleton spans span ih =>
    obtain ⟨hactive, htable, hlisted⟩ := ih fun o ho => hspans o (List.mem_append_left _ ho)
    rw [List.foldl_append, IntervalSweep.meet_snoc]
    have hknown : ∀ other ∈ (IntervalSweep.meet OperationSpan.start OperationSpan.stop
        spans).active.filter fun other => span.start < other.stop, other.key ∈ keys := by
      intro other hother
      exact hspans other (List.mem_append_left _
        ((IntervalSweep.mem_active _ _ spans).1 other (List.mem_of_mem_filter hother)))
    obtain ⟨htable', hlisted'⟩ := foldl_addRelated htable span (hspans span (by simp)) hknown
    refine ⟨?_, ?_, ?_⟩
    · show List.filter _ _ ++ [span] = List.filter _ _ ++ [span]
      rw [hactive]
    · show RelatedTable keys (List.foldl _ _ (List.filter _ _))
      rw [hactive]
      exact htable'
    · intro x y
      show Listed (List.foldl _ _ (List.filter _ _)) x y ↔ _
      rw [hactive, IntervalSweep.Active.visit, relatedBy_append, ← or_assoc, ← hlisted]
      exact hlisted' x y

end Related

/-- The predicted start of a key. -/
def Prediction.startOf (prediction : Prediction) (key : String) : ℚ :=
  (prediction.startTimes.get? key).getD 0

/-- The predicted end of a key. -/
def Prediction.stopOf (prediction : Prediction) (key : String) : ℚ :=
  (prediction.endTimes.get? key).getD 0

/-- A prediction that knows all keys. -/
structure Prediction.Complete (prediction : Prediction) (keys : List String) : Prop where
  total : prediction.tPred ≠ none
  starts : ∀ key ∈ keys, key ∈ prediction.startTimes.keys
  stops : ∀ key ∈ keys, key ∈ prediction.endTimes.keys

/-- Each of two keys starts before the other ends. -/
def Prediction.Crosses (prediction : Prediction) (x y : String) : Prop :=
  prediction.startOf x < prediction.stopOf y ∧ prediction.startOf y < prediction.stopOf x

section Predicted
variable {prediction : Prediction} {keys group : List String} {related : Dict String (List String)}
  {key x y : String}

theorem Prediction.Complete.span (h : prediction.Complete keys) (hkey : key ∈ keys) :
    spanOf prediction key = .ok ⟨key, prediction.startOf key, prediction.stopOf key⟩ := by
  obtain ⟨start, hstart⟩ := Dict.get?_isSome.mpr (h.starts key hkey)
  obtain ⟨stop, hstop⟩ := Dict.get?_isSome.mpr (h.stops key hkey)
  rw [spanOf, Prediction.startOf, Prediction.stopOf, hstart, hstop]
  rfl

/-- The pairs that the sweep over a resource finds are those that cross. -/
theorem relatedBy_sortSpans (hnodup : group.Nodup) :
    RelatedBy (IntervalSweep.meet OperationSpan.start OperationSpan.stop (sortSpans (group.map
        fun key => ⟨key, prediction.startOf key, prediction.stopOf key⟩))).pairs x y ↔
      x ∈ group ∧ y ∈ group ∧ x ≠ y ∧ prediction.Crosses x y := by
  let span (key : String) : OperationSpan := ⟨key, prediction.startOf key, prediction.stopOf key⟩
  have hperm : (sortSpans (group.map span)).Perm (group.map span) := List.perm_insertionSort _ _
  have hmem : ∀ {a}, a ∈ sortSpans (group.map span) → a.key ∈ group ∧ a = span a.key := by
    intro a ha
    obtain ⟨key, hkey, rfl⟩ := List.mem_map.mp (hperm.mem_iff.mp ha)
    exact ⟨hkey, rfl⟩
  have hspan : ∀ {key}, key ∈ group → span key ∈ sortSpans (group.map span) := fun hkey =>
    hperm.mem_iff.mpr (List.mem_map.mpr ⟨_, hkey, rfl⟩)
  have hspans : (sortSpans (group.map span)).Nodup := by
    rw [hperm.nodup_iff]
    exact hnodup.map fun a b h => congrArg OperationSpan.key h
  have hsorted : (sortSpans (group.map span)).Pairwise fun a b => a.start ≤ b.start := by
    let r (a b : OperationSpan) : Prop := toLex (a.start, a.key) ≤ toLex (b.start, b.key)
    have : Std.Total r := ⟨fun a b => le_total (toLex (a.start, a.key)) (toLex (b.start, b.key))⟩
    have : IsTrans _ r := ⟨fun _ _ _ h h' => h.trans h'⟩
    have hkeys : (sortSpans (group.map span)).Pairwise r := List.pairwise_insertionSort r _
    refine hkeys.imp fun {a b} h => ?_
    exact (Prod.Lex.le_iff.mp h).elim le_of_lt fun h => h.1.le
  constructor
  · rintro ⟨⟨a, b⟩, hpair, hxy⟩
    obtain ⟨hsub, hmeets⟩ := (IntervalSweep.mem_pairs_meet hsorted).mp hpair
    obtain ⟨ha, haspan⟩ := hmem (hsub.subset (by simp : a ∈ [b, a]))
    obtain ⟨hb, hbspan⟩ := hmem (hsub.subset (by simp : b ∈ [b, a]))
    have hne : a.key ≠ b.key := by
      intro heq
      have hpair := hspans.sublist hsub
      rw [haspan, hbspan, heq] at hpair
      simp at hpair
    rw [haspan, hbspan] at hmeets
    rcases hxy with ⟨rfl, rfl⟩ | ⟨rfl, rfl⟩
    · exact ⟨ha, hb, hne, hmeets⟩
    · exact ⟨hb, ha, hne.symm, hmeets.symm⟩
  · rintro ⟨hx, hy, hne, hcross⟩
    have hspan_ne : span x ≠ span y := fun h => hne (congrArg OperationSpan.key h)
    rcases IntervalSweep.pair_sublist_of_ne (hspan hx) (hspan hy) hspan_ne with hsub | hsub
    · exact ⟨(span y, span x), (IntervalSweep.mem_pairs_meet hsorted).mpr ⟨hsub, hcross.symm⟩,
        .inr ⟨rfl, rfl⟩⟩
    · exact ⟨(span x, span y), (IntervalSweep.mem_pairs_meet hsorted).mpr ⟨hsub, hcross⟩,
        .inl ⟨rfl, rfl⟩⟩

/-- **A resource relates the operations that cross on it.** -/
theorem competeOn_spec (hcomplete : prediction.Complete keys) (hgroup : ∀ key ∈ group, key ∈ keys)
    (hnodup : group.Nodup) (h : RelatedTable keys related) :
    ∃ next, competeOn prediction related group = .ok next ∧ RelatedTable keys next ∧
      ∀ x y, Listed next x y ↔ Listed related x y ∨
        x ∈ group ∧ y ∈ group ∧ x ≠ y ∧ prediction.Crosses x y := by
  have hspans : group.mapM (spanOf prediction) = .ok (group.map
      fun key => ⟨key, prediction.startOf key, prediction.stopOf key⟩) :=
    Checked.mapM_pure fun key hkey => hcomplete.span (hgroup key hkey)
  have hknown : ∀ span ∈ sortSpans (group.map
      fun key => ⟨key, prediction.startOf key, prediction.stopOf key⟩), span.key ∈ keys := by
    intro span hspan
    obtain ⟨key, hkey, rfl⟩ := List.mem_map.mp ((List.mem_insertionSort _).mp hspan)
    exact hgroup key hkey
  obtain ⟨-, htable, hlisted⟩ := foldl_visit h hknown
  exact ⟨_, Checked.bind_ok.mpr ⟨_, hspans, rfl⟩, htable,
    fun x y => (hlisted x y).trans (or_congr_right (relatedBy_sortSpans hnodup))⟩

theorem foldlM_competeOn (hcomplete : prediction.Complete keys) {groups : List (List String)}
    (hgroups : ∀ group ∈ groups, group.Nodup ∧ ∀ key ∈ group, key ∈ keys)
    (h : RelatedTable keys related) :
    ∃ last, groups.foldlM (competeOn prediction) related = .ok last ∧ RelatedTable keys last ∧
      ∀ x y, Listed last x y ↔ Listed related x y ∨
        ∃ group ∈ groups, x ∈ group ∧ y ∈ group ∧ x ≠ y ∧ prediction.Crosses x y := by
  induction groups generalizing related with
  | nil => exact ⟨related, rfl, h, fun x y => by simp⟩
  | cons group groups ih =>
    obtain ⟨hnodup, hgroup⟩ := hgroups group List.mem_cons_self
    obtain ⟨next, hnext, htable, hlisted⟩ := competeOn_spec hcomplete hgroup hnodup h
    obtain ⟨last, hlast, htable, hlisted'⟩ :=
      ih (fun g hg => hgroups g (List.mem_cons_of_mem _ hg)) htable
    refine ⟨last, ?_, htable, fun x y => ?_⟩
    · rw [List.foldlM_cons]
      exact Checked.bind_ok.mpr ⟨next, hnext, hlast⟩
    · rw [hlisted', hlisted, List.exists_mem_cons_iff, or_assoc]

end Predicted

/-! ## The users of a resource -/

section Users
variable {table : Dict String (List String)} {operations : List WorkOperation} {key resource : String}

theorem foldl_appendUser {resources : List String} (hnodup : resources.Nodup)
    (hd : table.Distinct) (resource : String) :
    (resources.foldl (appendUser key) table).Distinct ∧
      ((resources.foldl (appendUser key) table).get? resource).getD [] =
        (table.get? resource).getD [] ++ if resource ∈ resources then [key] else [] := by
  induction resources generalizing table with
  | nil => exact ⟨hd, by simp⟩
  | cons first resources ih =>
    rw [List.nodup_cons] at hnodup
    obtain ⟨hdistinct, hget⟩ := ih hnodup.2 (hd.set first _)
    refine ⟨hdistinct, hget.trans ?_⟩
    rw [Dict.get?_set]
    by_cases hfirst : first = resource
    · subst hfirst
      simp [hnodup.1]
    · simp [hfirst, Ne.symm hfirst]

/-- **The users of a resource**, in order. -/
theorem byResource_spec (hnodup : ∀ op ∈ operations, op.resources.Nodup) :
    (byResource operations).Distinct ∧ ∀ resource,
      ((byResource operations).get? resource).getD [] =
        (operations.filter fun op => resource ∈ op.resources).map (·.operationId) := by
  induction operations using List.reverseRecOn with
  | nil => exact ⟨Dict.distinct_nil, fun _ => rfl⟩
  | append_singleton operations op ih =>
    obtain ⟨hd, hget⟩ := ih fun o ho => hnodup o (List.mem_append_left _ ho)
    have hturn : byResource (operations ++ [op]) =
        op.resources.foldl (appendUser op.operationId) (byResource operations) := by
      rw [byResource, List.foldl_append]
      rfl
    have hop : op.resources.Nodup := hnodup op (by simp)
    rw [hturn]
    refine ⟨(foldl_appendUser hop hd "").1, fun resource => ?_⟩
    rw [(foldl_appendUser hop hd resource).2, hget, List.filter_append, List.map_append]
    congr 1
    by_cases hresource : resource ∈ op.resources <;> simp [hresource]

/-- The users that a list of `byResource` holds. -/
theorem mem_byResource (hnodup : ∀ op ∈ operations, op.resources.Nodup) {users : List String}
    (h : users ∈ (byResource operations).values) :
    ∃ resource, users =
      (operations.filter fun op => resource ∈ op.resources).map (·.operationId) := by
  obtain ⟨hd, hget⟩ := byResource_spec hnodup
  obtain ⟨⟨resource, _⟩, hentry, rfl⟩ := List.mem_map.mp h
  refine ⟨resource, ?_⟩
  rw [← hget, Dict.get?_of_mem hd hentry]
  rfl

theorem exists_users (hnodup : ∀ op ∈ operations, op.resources.Nodup) {op : WorkOperation}
    (hop : op ∈ operations) (hresource : resource ∈ op.resources) :
    (operations.filter fun op => resource ∈ op.resources).map (·.operationId) ∈
      (byResource operations).values := by
  have hget := (byResource_spec hnodup).2 resource
  have huser : op.operationId ∈
      (operations.filter fun op => resource ∈ op.resources).map (·.operationId) :=
    List.mem_map.mpr ⟨op, List.mem_filter.mpr ⟨hop, decide_eq_true hresource⟩, rfl⟩
  rw [← hget] at huser ⊢
  cases hfound : (byResource operations).get? resource with
  | none =>
    rw [hfound] at huser
    cases huser
  | some users => exact List.mem_map.mpr ⟨_, Dict.mem_of_get? hfound, rfl⟩

end Users

/-! ## The closure -/

section Closure
variable {predecessors related : Dict String (List String)} {keys tails : List String}

/-- What may have delayed an operation. -/
def Causes (predecessors related : Dict String (List String)) (key other : String) : Prop :=
  ∃ causes, causesOf predecessors related key = .ok causes ∧ other ∈ causes

/-- What the loop over `pending` keeps: all that is found comes from a tail, and what may have
delayed an operation of the closure is in the closure or pending. -/
structure ClosureUnder (predecessors related : Dict String (List String)) (tails : List String)
    (closure : Finset String) (pending : List String) : Prop where
  reached : ∀ key, key ∈ closure ∨ key ∈ pending →
    ∃ tail ∈ tails, Relation.ReflTransGen (Causes predecessors related) tail key
  started : ∀ tail ∈ tails, tail ∈ closure ∨ tail ∈ pending
  closed : ∀ key ∈ closure, ∀ other, Causes predecessors related key other →
    other ∈ closure ∨ other ∈ pending

/-- How often `pending` can still be extended. -/
def unexpanded (predecessors related : Dict String (List String)) (closure : Finset String) : ℕ :=
  ((predecessors.filter fun row => row.1 ∉ closure).map fun row =>
    row.2.length + ((related.get? row.1).getD []).length).sum

theorem sum_filter_add_le {α : Type} {f : α → ℕ} {p q : α → Bool} {l : List α} {a : α}
    (hqp : ∀ b, q b = true → p b = true) (ha : a ∈ l) (hp : p a = true) (hq : q a = false) :
    ((l.filter q).map f).sum + f a ≤ ((l.filter p).map f).sum := by
  have hmono : ∀ l : List α, ((l.filter q).map f).sum ≤ ((l.filter p).map f).sum := fun l =>
    ((List.monotone_filter_right l hqp).map f).sum_le_sum fun _ _ => Nat.zero_le _
  induction l with
  | nil => cases ha
  | cons b l ih =>
    rcases List.mem_cons.mp ha with rfl | hal
    · have hrest := hmono l
      rw [List.filter_cons_of_pos hp, List.filter_cons_of_neg (by simp [hq]), List.map_cons,
        List.sum_cons]
      omega
    · have ih := ih hal
      by_cases hb : q b = true
      · rw [List.filter_cons_of_pos hb, List.filter_cons_of_pos (hqp b hb), List.map_cons,
          List.map_cons, List.sum_cons, List.sum_cons]
        omega
      · rw [List.filter_cons_of_neg hb]
        by_cases hpb : p b = true
        · rw [List.filter_cons_of_pos hpb, List.map_cons, List.sum_cons]
          omega
        · rw [List.filter_cons_of_neg hpb]
          exact ih

theorem unexpanded_insert {closure : Finset String} {key : String} {causes : List String}
    (hkey : key ∉ closure) (hcauses : causesOf predecessors related key = .ok causes) :
    unexpanded predecessors related (insert key closure) + causes.length ≤
      unexpanded predecessors related closure := by
  simp only [causesOf, Checked.bind_ok, Checked.required_ok, Checked.pure_ok] at hcauses
  obtain ⟨before, hbefore, beside, hbeside, rfl⟩ := hcauses
  have hlength : (before ++ beside).dedup.length ≤ before.length + beside.length := by
    rw [← List.length_append]
    exact (List.dedup_sublist _).length_le
  have hsum := sum_filter_add_le (l := predecessors)
    (f := fun row => row.2.length + ((related.get? row.1).getD []).length)
    (p := fun row => decide (row.1 ∉ closure)) (q := fun row => decide (row.1 ∉ insert key closure))
    (a := (key, before))
    (fun row hrow => by
      simp only [decide_eq_true_eq, Finset.mem_insert, not_or] at hrow ⊢
      exact hrow.2)
    (Dict.mem_of_get? hbefore) (decide_eq_true hkey) (by simp)
  simp only [hbeside, Option.getD_some] at hsum
  unfold unexpanded
  omega

/-- One turn of the loop. -/
theorem ClosureUnder.expand {closure : Finset String} {key : String} {pending causes : List String}
    (h : ClosureUnder predecessors related tails closure (key :: pending))
    (hcauses : causesOf predecessors related key = .ok causes) :
    ClosureUnder predecessors related tails (insert key closure) (causes ++ pending) where
  reached other hother := by
    obtain ⟨tail, htail, hreach⟩ := h.reached key (.inr List.mem_cons_self)
    rcases hother with hother | hother
    · rcases Finset.mem_insert.mp hother with rfl | hother
      · exact ⟨tail, htail, hreach⟩
      · exact h.reached other (.inl hother)
    · rcases List.mem_append.mp hother with hother | hother
      · exact ⟨tail, htail, hreach.tail ⟨causes, hcauses, hother⟩⟩
      · exact h.reached other (.inr (List.mem_cons_of_mem _ hother))
  started tail htail := by
    rcases h.started tail htail with hin | hin
    · exact .inl (Finset.mem_insert_of_mem hin)
    · rcases List.mem_cons.mp hin with rfl | hin
      · exact .inl (Finset.mem_insert_self _ _)
      · exact .inr (List.mem_append_right _ hin)
  closed x hx other hcause := by
    rcases Finset.mem_insert.mp hx with rfl | hx
    · obtain ⟨causes', hcauses', hmem⟩ := hcause
      obtain rfl := Except.ok.inj (hcauses.symm.trans hcauses')
      exact .inr (List.mem_append_left _ hmem)
    · rcases h.closed x hx other hcause with hin | hin
      · exact .inl (Finset.mem_insert_of_mem hin)
      · rcases List.mem_cons.mp hin with rfl | hin
        · exact .inl (Finset.mem_insert_self _ _)
        · exact .inr (List.mem_append_right _ hin)

/-- A key that is in the closure is not expanded again. -/
theorem ClosureUnder.skip {closure : Finset String} {key : String} {pending : List String}
    (h : ClosureUnder predecessors related tails closure (key :: pending)) (hkey : key ∈ closure) :
    ClosureUnder predecessors related tails closure pending where
  reached other hother := h.reached other (hother.imp_right (List.mem_cons_of_mem _))
  started tail htail := by
    rcases h.started tail htail with hin | hin
    · exact .inl hin
    · rcases List.mem_cons.mp hin with rfl | hin
      · exact .inl hkey
      · exact .inr hin
  closed x hx other hcause := by
    rcases h.closed x hx other hcause with hin | hin
    · exact .inl hin
    · rcases List.mem_cons.mp hin with rfl | hin
      · exact .inl hkey
      · exact .inr hin

/-- **The loop ends** with nothing pending, if it may take enough turns. -/
theorem closureLoop_spec (hknown : ∀ key ∈ keys, ∃ causes,
      causesOf predecessors related key = .ok causes ∧ ∀ other ∈ causes, other ∈ keys)
    {turns : ℕ} {closure : Finset String} {pending : List String}
    (h : ClosureUnder predecessors related tails closure pending)
    (hpending : ∀ key ∈ pending, key ∈ keys)
    (hturns : unexpanded predecessors related closure + pending.length ≤ turns) :
    ∃ last, closureLoop predecessors related turns closure pending = .ok (last, []) ∧
      ClosureUnder predecessors related tails last [] := by
  induction turns generalizing closure pending with
  | zero =>
    obtain rfl : pending = [] := List.length_eq_zero_iff.mp (by omega)
    exact ⟨closure, rfl, h⟩
  | succ turns ih =>
    cases pending with
    | nil => exact ⟨closure, rfl, h⟩
    | cons key pending =>
      rw [closureLoop]
      rw [List.length_cons] at hturns
      by_cases hkey : key ∈ closure
      · rw [if_pos hkey]
        exact ih (h.skip hkey) (fun k hk => hpending k (List.mem_cons_of_mem _ hk)) (by omega)
      · rw [if_neg hkey]
        obtain ⟨causes, hcauses, hin⟩ := hknown key (hpending key List.mem_cons_self)
        have hless := unexpanded_insert hkey hcauses
        obtain ⟨last, hlast, hunder⟩ := ih (h.expand hcauses) (fun k hk => by
            rcases List.mem_append.mp hk with hk | hk
            · exact hin k hk
            · exact hpending k (List.mem_cons_of_mem _ hk))
          (by rw [List.length_append]; omega)
        exact ⟨last, Checked.bind_ok.mpr ⟨causes, hcauses, hlast⟩, hunder⟩

/-- **The closure is what the tails reach.** -/
theorem ClosureUnder.mem_iff {closure : Finset String}
    (h : ClosureUnder predecessors related tails closure []) {key : String} :
    key ∈ closure ↔
      ∃ tail ∈ tails, Relation.ReflTransGen (Causes predecessors related) tail key := by
  refine ⟨fun hkey => h.reached key (.inl hkey), ?_⟩
  rintro ⟨tail, htail, hreach⟩
  have hstart : tail ∈ closure := (h.started tail htail).resolve_right List.not_mem_nil
  induction hreach with
  | refl => exact hstart
  | tail _ hcause ih => exact (h.closed _ ih _ hcause).resolve_right List.not_mem_nil

end Closure

/-! ## `build_causal_index` -/

/-- Two operations use a resource in common. -/
def SharesResource (a b : WorkOperation) : Prop := ∃ resource ∈ a.resources, resource ∈ b.resources

/-- The predicted interval of an operation. -/
def Prediction.interval (prediction : Prediction) (op : WorkOperation) : Set ℚ :=
  Set.Icc (prediction.startOf op.operationId) (prediction.stopOf op.operationId)

/-- The related operations are those that share a resource and have more than an instant in
common, each once. -/
structure RelatedExact (executable : Executable) (prediction : Prediction) (index : CausalIndex) :
    Prop where
  keys : ∀ key, key ∈ index.related.keys ↔ key ∈ executable.ids
  related : ∀ op ∈ executable.operations, ∃ values,
    index.related.get? op.operationId = some values ∧ values.Nodup ∧
    ∀ key, key ∈ values ↔ ∃ other ∈ executable.operations, other.operationId = key ∧ other ≠ op ∧
      SharesResource op other ∧ (prediction.interval op ∩ prediction.interval other).Nontrivial

/-- An operation that ends as it starts, inside the interval of one with which it shares a
resource. -/
def CrossedByInstant (executable : Executable) (prediction : Prediction) : Prop :=
  ∃ a ∈ executable.operations, ∃ b ∈ executable.operations, a ≠ b ∧ SharesResource a b ∧
    prediction.stopOf a.operationId ≤ prediction.startOf a.operationId ∧
    prediction.Crosses a.operationId b.operationId

theorem nontrivial_Icc {a b : ℚ} : (Set.Icc a b).Nontrivial ↔ a < b := by
  constructor
  · rintro ⟨x, hx, y, hy, hne⟩
    rcases lt_or_gt_of_ne hne with h | h
    · exact hx.1.trans_lt (h.trans_le hy.2)
    · exact hy.1.trans_lt (h.trans_le hx.2)
  · intro h
    exact ⟨a, Set.left_mem_Icc.mpr h.le, b, Set.right_mem_Icc.mpr h.le, h.ne⟩

theorem nontrivial_interval {prediction : Prediction} {a b : WorkOperation} :
    (prediction.interval a ∩ prediction.interval b).Nontrivial ↔
      prediction.Crosses a.operationId b.operationId ∧
      prediction.startOf a.operationId < prediction.stopOf a.operationId ∧
      prediction.startOf b.operationId < prediction.stopOf b.operationId := by
  rw [Prediction.interval, Prediction.interval, Set.Icc_inter_Icc, nontrivial_Icc, sup_lt_iff,
    lt_inf_iff, lt_inf_iff, Prediction.Crosses]
  tauto

section Index
variable {executable : Executable} {prediction : Prediction}
  {semantic : Option (Dict String (List String))}

theorem Executable.unique (hnodup : executable.ids.Nodup) {a b : WorkOperation}
    (ha : a ∈ executable.operations) (hb : b ∈ executable.operations)
    (h : a.operationId = b.operationId) : a = b :=
  List.inj_on_of_nodup_map hnodup ha hb h

theorem get?_map_snd {α β : Type} (table : Dict String α) (f : α → β) (key : String) :
    Dict.get? (table.map fun row => (row.1, f row.2)) key = (table.get? key).map f := by
  induction table with
  | nil => rfl
  | cons row table ih =>
    rw [List.map_cons, Dict.get?_cons, Dict.get?_cons, ih]
    split <;> rfl

/-- The operations that a resource relates to an operation. -/
theorem exists_users_iff (hops : ∀ op ∈ executable.operations, op.resources.Nodup)
    (hnodup : executable.ids.Nodup) {op : WorkOperation} (hop : op ∈ executable.operations)
    {key : String} :
    (∃ users ∈ (byResource executable.operations).values, op.operationId ∈ users ∧ key ∈ users ∧
        op.operationId ≠ key ∧ prediction.Crosses op.operationId key) ↔
      ∃ other ∈ executable.operations, other.operationId = key ∧ other ≠ op ∧
        SharesResource op other ∧ prediction.Crosses op.operationId other.operationId := by
  constructor
  · rintro ⟨users, husers, hin, hkey, hne, hcross⟩
    obtain ⟨resource, rfl⟩ := mem_byResource hops husers
    obtain ⟨same, hsame, hid⟩ := List.mem_map.mp hin
    obtain ⟨hsame, hresource⟩ := List.mem_filter.mp hsame
    obtain rfl := executable.unique hnodup hsame hop hid
    obtain ⟨other, hother, rfl⟩ := List.mem_map.mp hkey
    obtain ⟨hother, hresource'⟩ := List.mem_filter.mp hother
    exact ⟨other, hother, rfl, fun h => hne (by rw [h]),
      ⟨resource, of_decide_eq_true hresource, of_decide_eq_true hresource'⟩, hcross⟩
  · rintro ⟨other, hother, rfl, hne, ⟨resource, hresource, hresource'⟩, hcross⟩
    refine ⟨_, exists_users hops hop hresource, ?_, ?_, ?_, hcross⟩
    · exact List.mem_map.mpr ⟨op, List.mem_filter.mpr ⟨hop, decide_eq_true hresource⟩, rfl⟩
    · exact List.mem_map.mpr ⟨other, List.mem_filter.mpr ⟨hother, decide_eq_true hresource'⟩, rfl⟩
    · exact fun h => hne (executable.unique hnodup hother hop h.symm)

theorem relatedTable_start (keys : List String) :
    RelatedTable keys (keys.map fun key => (key, [])) where
  keys key := by
    have hkeys : Dict.keys (keys.map fun key => (key, ([] : List String))) = keys := by
      rw [Dict.keys, List.map_map]
      exact List.map_id _
    rw [hkeys]
  nodup key values hvalues := by
    obtain ⟨_, -, heq⟩ := List.mem_map.mp (Dict.mem_of_get? hvalues)
    obtain ⟨rfl, rfl⟩ := Prod.ext_iff.mp heq
    exact List.nodup_nil

theorem not_listed_start (keys : List String) (x y : String) :
    ¬ Listed (keys.map fun key => (key, [])) x y := by
  rintro ⟨values, hvalues, hy⟩
  obtain ⟨_, -, heq⟩ := List.mem_map.mp (Dict.mem_of_get? hvalues)
  obtain ⟨rfl, rfl⟩ := Prod.ext_iff.mp heq
  cases hy

theorem waitOf_total {keys : List String} (hcomplete : prediction.Complete keys)
    {table : Dict String (List String)} {op : WorkOperation} (hop : op.operationId ∈ keys)
    (hdeps : ∀ deps, table.get? op.operationId = some deps → ∀ dep ∈ deps, dep ∈ keys) :
    ∃ wait, waitOf prediction table op = .ok wait := by
  obtain ⟨start, hstart⟩ := Dict.get?_isSome.mpr (hcomplete.starts _ hop)
  have hwaits : ∀ dep ∈ (table.get? op.operationId).getD [], dep ∈ keys := by
    intro dep hdep
    cases hget : table.get? op.operationId with
    | none => rw [hget] at hdep; cases hdep
    | some deps =>
      rw [hget] at hdep
      exact hdeps deps hget dep hdep
  obtain ⟨ends, hends⟩ := Checked.mapM_total (f := fun dep =>
      Checked.required (prediction.endTimes.get? dep) (Fault.missing dep)) fun dep hdep => by
    obtain ⟨stop, hstop⟩ := Dict.get?_isSome.mpr (hcomplete.stops dep (hwaits dep hdep))
    exact ⟨stop, Checked.required_ok.mpr hstop⟩
  exact ⟨_, Checked.bind_ok.mpr ⟨start, Checked.required_ok.mpr hstart,
    Checked.bind_ok.mpr ⟨ends, hends, rfl⟩⟩⟩

/-- **`buildCausalIndex` relates the operations that share a resource and cross**, and its closure
is what the tails reach over predecessors and related operations. -/
theorem buildCausalIndex_spec (hexecutable : executable.check = .ok ())
    (hops : ∀ op ∈ executable.operations, op.check = .ok ())
    (hcomplete : prediction.Complete executable.ids)
    (hsemantic : ∀ table, semantic = some table → ∀ key deps, table.get? key = some deps →
      ∀ dep ∈ deps, dep ∈ executable.ids) :
    ∃ index related, buildCausalIndex executable prediction semantic = .ok index ∧
      index.related = related.map (fun row => (row.1, sortStrings row.2)) ∧
      RelatedTable executable.ids related ∧
      (∀ op ∈ executable.operations, ∀ key, Listed related op.operationId key ↔
        ∃ other ∈ executable.operations, other.operationId = key ∧ other ≠ op ∧
          SharesResource op other ∧ prediction.Crosses op.operationId other.operationId) ∧
      ∀ key, key ∈ index.criticalOperations ↔ ∃ tail ∈ index.tails,
        Relation.ReflTransGen (Causes index.predecessors related) tail key := by
  have hchecked := hexecutable
  unfold Executable.check at hchecked
  simp only [Checked.bind_ok, Checked.ensure_ok] at hchecked
  obtain ⟨_, hnodup, _, hdependencies, -⟩ := hchecked
  have hresources : ∀ op ∈ executable.operations, op.resources.Nodup := fun op hop =>
    (WorkOperation.check_ok (hops op hop)).2.2.2
  set predecessors : Dict String (List String) :=
    executable.operations.map fun op => (op.operationId, op.dependencies) with hpredecessors
  have hbefore : ∀ key deps, predecessors.get? key = some deps →
      ∀ dep ∈ deps, dep ∈ executable.ids := by
    intro key deps hdeps
    obtain ⟨op, hop, heq⟩ := List.mem_map.mp (Dict.mem_of_get? hdeps)
    obtain ⟨rfl, rfl⟩ := Prod.ext_iff.mp heq
    exact hdependencies op hop
  have hgroups : ∀ users ∈ (byResource executable.operations).values,
      users.Nodup ∧ ∀ key ∈ users, key ∈ executable.ids := by
    intro users husers
    obtain ⟨resource, rfl⟩ := mem_byResource hresources husers
    have hsub : ((executable.operations.filter fun op => resource ∈ op.resources).map
        (·.operationId)).Sublist executable.ids := List.filter_sublist.map _
    exact ⟨hnodup.sublist hsub, fun key hkey => hsub.subset hkey⟩
  obtain ⟨related, hrelated, htable, hlisted⟩ := foldlM_competeOn hcomplete hgroups
    (relatedTable_start executable.ids)
  have hcauses : ∀ key ∈ executable.ids, ∃ causes,
      causesOf predecessors related key = .ok causes ∧ ∀ other ∈ causes, other ∈ executable.ids := by
    intro key hkey
    obtain ⟨op, hop, rfl⟩ := List.mem_map.mp hkey
    have hkeys : op.operationId ∈ predecessors.keys :=
      List.mem_map.mpr ⟨_, List.mem_map.mpr ⟨op, hop, rfl⟩, rfl⟩
    obtain ⟨before, hget⟩ := Dict.get?_isSome.mpr hkeys
    obtain ⟨beside, hget'⟩ := Dict.get?_isSome.mpr ((htable.keys _).mpr hkey)
    refine ⟨(before ++ beside).dedup, ?_, fun other hother => ?_⟩
    · rw [causesOf, hget, hget']
      rfl
    · rcases List.mem_append.mp (List.mem_dedup.mp hother) with hother | hother
      · exact hbefore _ _ hget other hother
      · rcases (hlisted _ _).mp ⟨beside, hget', hother⟩ with hlist | ⟨users, husers, -, hin, -⟩
        · exact absurd hlist (not_listed_start _ _ _)
        · exact (hgroups users husers).2 other hin
  obtain ⟨tPred, htPred⟩ := Option.ne_none_iff_exists'.mp hcomplete.total
  let tails := sortStrings
    (executable.ids.filter fun key => prediction.endTimes.get? key = some tPred)
  have htails : ∀ key ∈ tails, key ∈ executable.ids := fun key hkey =>
    List.mem_of_mem_filter (mem_sortStrings.mp hkey)
  have hunder : ClosureUnder predecessors related tails ∅ tails.reverse := by
    refine ⟨fun key hkey => ?_, fun tail htail => .inr (List.mem_reverse.mpr htail),
      fun key hkey => (by simp at hkey)⟩
    exact ⟨key, List.mem_reverse.mp (hkey.resolve_left (Finset.notMem_empty key)), .refl⟩
  have hturns : unexpanded predecessors related ∅ + tails.reverse.length ≤
      closureTurns predecessors related tails := by
    simp [unexpanded, closureTurns, add_comm]
  obtain ⟨closure, hclosure, hunder⟩ := closureLoop_spec hcauses hunder
    (fun key hkey => htails key (List.mem_reverse.mp hkey)) hturns
  have hwait : ∃ wait, executable.operations.mapM
      (waitOf prediction (semantic.getD predecessors)) = .ok wait := by
    refine Checked.mapM_total fun op hop => ?_
    refine waitOf_total hcomplete (List.mem_map.mpr ⟨op, hop, rfl⟩) fun deps hdeps => ?_
    cases hsome : semantic with
    | none =>
      rw [hsome] at hdeps
      exact hbefore _ _ hdeps
    | some table =>
      rw [hsome] at hdeps
      exact hsemantic table hsome _ _ hdeps
  obtain ⟨wait, hwait⟩ := hwait
  have hservice : ∃ service, (executable.ids.mapM fun key => do
      let span ← spanOf prediction key
      return (key, span.stop - span.start)) = .ok service :=
    Checked.mapM_total fun key hkey =>
      ⟨_, Checked.bind_ok.mpr ⟨_, hcomplete.span hkey, rfl⟩⟩
  obtain ⟨service, hservice⟩ := hservice
  refine ⟨⟨tails, closure, related.map fun row => (row.1, sortStrings row.2), wait, service,
    predecessors⟩, related, ?_, rfl, htable, fun op hop key => ?_, fun key => hunder.mem_iff⟩
  · unfold buildCausalIndex
    simp only [Checked.bind_ok, Checked.required_ok, Checked.ensure_ok, Checked.pure_ok]
    exact ⟨tPred, htPred, (), hcomplete.stops, related, hrelated, (closure, []), hclosure, wait,
      hwait, service, hservice, rfl⟩
  · rw [hlisted, ← exists_users_iff hresources hnodup hop]
    exact or_iff_right (not_listed_start _ _ _)

end Index

end VeriCCL
