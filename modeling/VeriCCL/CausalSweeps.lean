import VeriCCL.CausalRelations

/-! # The causal sweeps against their pairwise definitions

The tails are exact.  An instant that is swept after an observation that begins with it joins its
group although it overlaps nothing, and an operation that takes no time is related to what runs
meanwhile.  Without these two, groups and related operations are exact as well. -/
namespace VeriCCL

section Sweeps
variable {executable : Executable} {prediction : Prediction}
  {semantic : Option (Dict String (List String))}

/-- The related operations are exact as long as none is an instant inside another. -/
theorem relatedExact_iff {index : CausalIndex} {related : Dict String (List String)}
    (hindex : index.related = related.map fun row => (row.1, sortStrings row.2))
    (htable : RelatedTable executable.ids related)
    (hlisted : ∀ op ∈ executable.operations, ∀ key, Listed related op.operationId key ↔
      ∃ other ∈ executable.operations, other.operationId = key ∧ other ≠ op ∧
        SharesResource op other ∧ prediction.Crosses op.operationId other.operationId) :
    RelatedExact executable prediction index ↔ ¬ CrossedByInstant executable prediction := by
  have hvalues : ∀ op ∈ executable.operations, ∃ values,
      index.related.get? op.operationId = some (sortStrings values) ∧ values.Nodup ∧
      ∀ key, key ∈ values ↔ Listed related op.operationId key := by
    intro op hop
    have hid : op.operationId ∈ executable.ids := List.mem_map.mpr ⟨op, hop, rfl⟩
    obtain ⟨values, hget⟩ := Dict.get?_isSome.mpr ((htable.keys _).mpr hid)
    refine ⟨values, by rw [hindex, get?_map_snd, hget]; rfl, htable.nodup _ _ hget, fun key => ?_⟩
    constructor
    · exact fun hkey => ⟨values, hget, hkey⟩
    · rintro ⟨values', hget', hkey⟩
      obtain rfl := Option.some.inj (hget.symm.trans hget')
      exact hkey
  constructor
  · rintro hexact ⟨a, ha, b, hb, hne, hshares, hinstant, hcross⟩
    obtain ⟨values, hget, -, hkeys⟩ := hvalues a ha
    obtain ⟨values', hget', -, hkeys'⟩ := hexact.related a ha
    obtain rfl := Option.some.inj (hget.symm.trans hget')
    have hlist : b.operationId ∈ sortStrings values := mem_sortStrings.mpr
      ((hkeys _).mpr ((hlisted a ha _).mpr ⟨b, hb, rfl, hne.symm, hshares, hcross⟩))
    obtain ⟨other, -, -, -, -, hoverlap⟩ := (hkeys' _).mp hlist
    exact absurd (nontrivial_interval.mp hoverlap).2.1 (not_lt.mpr hinstant)
  · intro hinstant
    refine ⟨fun key => ?_, fun op hop => ?_⟩
    · have hkeys : index.related.keys = related.keys := by
        rw [hindex, Dict.keys, Dict.keys, List.map_map]
        rfl
      rw [hkeys, htable.keys]
    · obtain ⟨values, hget, hnodup, hkeys⟩ := hvalues op hop
      refine ⟨_, hget, nodup_sortStrings hnodup, fun key => ?_⟩
      rw [mem_sortStrings, hkeys, hlisted op hop]
      refine exists_congr fun other => and_congr_right fun hother => and_congr_right fun _ =>
        and_congr_right fun hne => and_congr_right fun hshares => ?_
      rw [nontrivial_interval]
      refine ⟨fun hcross => ⟨hcross, ?_, ?_⟩, fun h => h.1⟩
      · exact not_le.mp fun h => hinstant ⟨op, hop, other, hother, hne.symm, hshares, h, hcross⟩
      · exact not_le.mp fun h => hinstant ⟨other, hother, op, hop, hne,
          hshares.imp fun _ h => h.symm, h, hcross.symm⟩

/-- **The causal sweeps are exact as long as no instant joins them.**  The tails are those that
the bounds of the other keys leave.  The groups are the components of the possible overlaps, and
the related operations those that share a resource and have more than an instant in common, if
and only if no observed instant is swept after an observation that begins with it while it is
inside no other, and no operation is predicted to end as it starts inside the interval of one with
which it shares a resource. -/
theorem causal_sweeps_exact_iff {bounds : Dict String TimeBounds} (hbounds : bounds.Distinct)
    {sets : Dict (String × String) (List Observation)} (hsets : sets.Distinct)
    {operations : Dict String (List String)}
    (hknown : ∀ entry ∈ sets, ∀ o ∈ entry.2, o.key ∈ operations.keys)
    (hexecutable : executable.check = .ok ())
    (hops : ∀ op ∈ executable.operations, op.check = .ok ())
    (hcomplete : prediction.Complete executable.ids)
    (hsemantic : ∀ table, semantic = some table → ∀ key deps, table.get? key = some deps →
      ∀ dep ∈ deps, dep ∈ executable.ids) :
    ∃ groups after index, overlapGroups sets operations = .ok (groups, after) ∧
      buildCausalIndex executable prediction semantic = .ok index ∧
      (TailsExact bounds ∧ GroupsExact sets groups ∧ RelatedExact executable prediction index ↔
        (∀ entry ∈ sets, ¬ JoinsInstant entry.2) ∧ ¬ CrossedByInstant executable prediction) := by
  obtain ⟨groups, after, hrun, hgroups⟩ := overlapGroups_spec hsets hknown
  obtain ⟨index, related, hindex, hrelated, htable, hlisted, -⟩ :=
    buildCausalIndex_spec hexecutable hops hcomplete hsemantic
  refine ⟨groups, after, index, hrun, hindex, ?_⟩
  rw [groupsExact_iff hgroups, relatedExact_iff hrelated htable hlisted]
  exact and_iff_right (tails_exact hbounds)

end Sweeps

/-! ## A call that takes no time -/

/-- A time without uncertainty. -/
def TimeBounds.exactly (time : ℚ) : TimeBounds := ⟨time, time, le_refl _⟩

theorem five_le_six : (5 : ℚ) ≤ 6 := by norm_num

/-- A call that takes a microsecond. -/
def longCall : Observation := ⟨"a", .exactly 5, .exactly 6, five_le_six⟩

/-- A call that begins with it, and takes no time. -/
def instantCall : Observation := ⟨"b", .exactly 5, .exactly 5, le_refl _⟩

def touchingSets : Dict (String × String) (List Observation) :=
  [(("link:0:1", "rank-0-invocation-0"), [longCall, instantCall])]

def touchingOperations : Dict String (List String) := [("a", []), ("b", [])]

/-- The calls have only an instant in common, and are one group. -/
theorem instant_joins_group :
    ∃ groups after, overlapGroups touchingSets touchingOperations = .ok (groups, after) ∧
      groups.values.map (·.operationIds) = [["a", "b"]] ∧
      ¬ IntervalSweep.Meets Observation.earliest Observation.latest longCall instantCall ∧
      ¬ GroupsExact touchingSets groups := by
  have hjoins : JoinsInstant [longCall, instantCall] := by
    refine ⟨longCall, instantCall, ?_, rfl, le_refl (5 : ℚ), ?_, ?_⟩
    · show [longCall, instantCall].Sublist [longCall, instantCall]
      exact List.Sublist.refl _
    · show (5 : ℚ) < 6
      norm_num
    · show ∀ x ∈ [longCall, instantCall], x.earliest < 5 → x.latest ≤ 5
      intro x hx hbefore
      have hfive : x.earliest = 5 := by
        rcases List.mem_pair.mp hx with rfl | rfl <;> rfl
      exact absurd hbefore (hfive ▸ lt_irrefl _)
  have hdistinct : touchingSets.Distinct := by decide
  have hknown : ∀ entry ∈ touchingSets, ∀ o ∈ entry.2, o.key ∈ touchingOperations.keys := by decide
  obtain ⟨groups, after, hrun, hgroups⟩ := overlapGroups_spec hdistinct hknown
  have heval : overlapGroups touchingSets touchingOperations =
      .ok ([("overlap-000000", ⟨"link:0:1", "rank-0-invocation-0", ["a", "b"],
        [⟨"a", "b", .possibleWithinClockBounds⟩], overlapInterpretation⟩)],
        [("a", ["overlap-000000"]), ("b", ["overlap-000000"])]) := by decide +kernel
  obtain ⟨rfl, rfl⟩ := Prod.ext_iff.mp (Except.ok.inj (hrun.symm.trans heval))
  refine ⟨_, _, hrun, rfl, fun hmeets => ?_, fun hexact => ?_⟩
  · exact absurd hmeets.1 (lt_irrefl (5 : ℚ))
  · exact (groupsExact_iff hgroups).mp hexact _ List.mem_cons_self hjoins

/-- Two transfers over one link, one after the other. -/
def pipelinedExecutable : Executable where
  operations :=
    [{ operationId := "a", kind := .send, costKey := some "c", payloadBytes := 4,
       resources := ["link:0:1"], flowId := some "f" },
     { operationId := "b", kind := .send, costKey := some "c", payloadBytes := 4,
       dependencies := ["a"], resources := ["link:0:1"], flowId := some "g" }]
  outputOperations := ["b"]

def pipelinedPrediction : Prediction where
  modelVersion := "1"
  tPred := some 2
  outputReady := some 2
  startTimes := [("a", 0), ("b", 1)]
  endTimes := [("a", 1), ("b", 2)]
  events := []
  segments := []
  missingComponents := []
  unavailableOperations := []

example : (buildCausalIndex pipelinedExecutable pipelinedPrediction none).toOption.map
    (fun index => (index.tails, index.related, index.criticalOperations)) =
      some (["b"], [("a", []), ("b", [])], {"a", "b"}) := by decide +kernel

theorem causal_sweeps_exact_iff_touching :
    ∃ groups after index, overlapGroups touchingSets touchingOperations = .ok (groups, after) ∧
      buildCausalIndex pipelinedExecutable pipelinedPrediction none = .ok index ∧
      (TailsExact [("a", .exactly 6), ("b", .exactly 5)] ∧ GroupsExact touchingSets groups ∧
          RelatedExact pipelinedExecutable pipelinedPrediction index ↔
        (∀ entry ∈ touchingSets, ¬ JoinsInstant entry.2) ∧
          ¬ CrossedByInstant pipelinedExecutable pipelinedPrediction) :=
  causal_sweeps_exact_iff (by decide) (by decide) (by decide) (by decide +kernel)
    (by decide +kernel) ⟨by decide, by decide, by decide⟩ (fun table h => (by cases h))

end VeriCCL
