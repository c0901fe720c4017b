import VeriCCL.BuildExecutable
import VeriCCL.ConnectionOrder
import VeriCCL.DeadlockFreedom
import VeriCCL.PredictInvariant

/-! # Flows do not overlap

The event simulation refuses two active operations with the same flow: their rates
would be measured together.  A flow is a connection, the transfers of a connection are
ordered by the dependency relation, and an operation is active only after everything it
waits for has ended; so for a program that was bound to its plan the simulation never
sees such a pair. -/
namespace VeriCCL

variable {program : NativeProgram} {storage : StoragePlan} {context : LoweringContext}
  {result : ExecutionDependencies} {executable : Executable}

/-- The records of an executable make a well-formed simulation. -/
theorem Built.wellFormed (h : Built storage context result executable) (model : CostModel) :
    (simulation executable model).WellFormed := by
  exact ⟨h.ids_nodup, fun op hop => (WorkOperation.check_ok (h.checked op hop)).2.2.1⟩

/-- Communication is the work of a transfer. -/
theorem Built.transfer (h : Built storage context result executable) {work : WorkOperation}
    (hwork : work ∈ executable.operations) (hk : work.kind.communicates = true) :
    ∃ op ∈ storage.instructions, WorkOf result storage context op work ∧
      op.kind.transfers = true := by
  rcases h.work work hwork with ⟨op, hop, hw⟩ | ⟨hcopy, -⟩
  · refine ⟨op, hop, hw, ?_⟩
    have hkind := hw.kind
    cases hop : op.kind with
    | send => rfl
    | rrc => rfl
    | copy =>
      rw [hop] at hkind
      rw [← Option.some.inj hkind] at hk
      simp [WorkKind.communicates] at hk
    | reduce =>
      rw [hop] at hkind
      rw [← Option.some.inj hkind] at hk
      simp [WorkKind.communicates] at hk
    | other name =>
      rw [hop] at hkind
      simp only [InstructionKind.work] at hkind
      split at hkind
      · rw [← Option.some.inj hkind] at hk
        simp [WorkKind.communicates] at hk
      · simp at hkind
  · rw [hcopy] at hk
    simp [WorkKind.communicates] at hk

/-- A bound transfer is sent on the connection its route and channel name. -/
theorem Bound.sent_on (hbound : Bound program storage result) (hacc : Accepted program result)
    {op : Instruction} (hop : op ∈ storage.instructions) (ht : op.kind.transfers = true)
    {first : String} {source destination : Address} (hfirst : op.inputs[0]? = some first)
    (hsource : storage.addresses.get? first = some source)
    (hdest : storage.addresses.get? op.output = some destination) :
    op.operationId ∈ sendsOn program source.rank destination.rank op.channel := by
  have hcopy : op.kind ≠ .copy := by
    rintro hk
    simp [hk, InstructionKind.transfers] at ht
  obtain ⟨specs, hspecs, hperm⟩ := hbound.shape op hop
  unfold endpointSpecs at hspecs
  simp only [Instruction.input, StoragePlan.address, Checked.bind_ok, Checked.required_ok, hfirst,
    Option.some.injEq, exists_eq_left', hsource, hdest, if_neg hcopy] at hspecs
  obtain ⟨receiver, -, hspecs⟩ := hspecs
  obtain rfl := Checked.pure_ok.mp hspecs
  -- the ends the specification asks for are ends of the program
  have hmem : ∀ e ∈ [(source.rank, StepKind.s, some source, some destination),
      (destination.rank, if op.kind = .rrc then StepKind.rrc else StepKind.r, some receiver,
        some destination)], ∃ b i step, Endpoint program b i step ∧
        step.operationId = op.operationId ∧ (b.rank, step.kind, step.src, step.dst) = e := by
    intro e he
    have := hperm.mem_iff.mpr (by simpa using he)
    obtain ⟨⟨b, step⟩, hb, rfl⟩ := List.mem_map.mp this
    obtain ⟨hblock, hstep, hk, hid⟩ := mem_endpointsOf.mp hb
    obtain ⟨i, hi⟩ := List.mem_iff_getElem?.mp hstep
    exact ⟨b, i, step, ⟨hblock, hi, hk⟩, hid, rfl⟩
  obtain ⟨sb, i, ss, hs, hsid, hseq⟩ := hmem _ List.mem_cons_self
  obtain ⟨rb, j, rs, hr, hrid, hreq⟩ := hmem _ (List.mem_cons_of_mem _ List.mem_cons_self)
  obtain ⟨hsrank, hsk, -⟩ := by simpa using hseq
  obtain ⟨hrrank, hrk, -⟩ := by simpa using hreq
  rw [mem_sendsOn]
  refine ⟨sb, i, ss, hs, hsk, hsid, hsrank, ?_, (hbound.channel op hop sb i ss hs hsid).resolve_left hcopy⟩
  have hreceives : rs.kind.receives = true := by
    rw [hrk]
    split <;> rfl
  rcases hacc.shape hs with ⟨_, _, _, -, -, hkind, only⟩ |
    ⟨sb', _, ss', rb', _, rs', -, -, -, -, hsk', hrk', hface, only⟩
  · rw [← (Prod.mk.inj (Prod.mk.inj (only _ _ _ hs rfl)).2).2, hsk] at hkind
    simp at hkind
  · have hsb : sb = sb' := by
      rcases only _ _ _ hs rfl with heq | heq
      · exact (Prod.mk.inj heq).1
      · rw [← (Prod.mk.inj (Prod.mk.inj heq).2).2, hsk] at hrk'
        simp [StepKind.receives] at hrk'
    have hrb : rb = rb' := by
      rcases only _ _ _ hr (hrid.trans hsid.symm) with heq | heq
      · rw [(Prod.mk.inj (Prod.mk.inj heq).2).2, hsk'] at hreceives
        simp [StepKind.receives] at hreceives
      · exact (Prod.mk.inj heq).1
    rw [hsb, hface.1, ← hrb, hrrank]

/-- The relation of the program is that of the simulation. -/
theorem Built.deps_of_edge (hacc : Accepted program result)
    (hbuilt : Built storage context result executable) (hbound : Bound program storage result)
    (model : CostModel) {p x : String} (h : Relation.TransGen result.Edge p x) :
    Relation.TransGen (fun p x => p ∈ (simulation executable model).deps x) p x := by
  refine h.lift id fun p x hedge => ?_
  have hx : x ∈ storage.instructions.map (·.operationId) :=
    (hbound.coverage x).mp (hacc.edge_key hedge)
  obtain ⟨op, hop, rfl⟩ := List.mem_map.mp hx
  obtain ⟨work, hwork, hw⟩ := hbuilt.complete hbound.ids_nodup op hop
  have hfind : (simulation executable model).operation? op.operationId = some work := by
    rw [← hw.operationId]
    exact (hbuilt.wellFormed model).operation?_eq hwork
  show p ∈ (simulation executable model).deps op.operationId
  unfold Simulation.deps
  rw [hfind, Option.map_some, Option.getD_some, hw.dependencies]
  exact (mem_sortedDependencies hacc).mpr hedge

/-- **No two active operations share a flow.** -/
theorem Built.active_flows (hacc : Accepted program result) (hfits : Fits program)
    (hbuilt : Built storage context result executable) (hbound : Bound program storage result)
    (model : CostModel) {available : List String} {s : Clock}
    (hs : s.Inv (simulation executable model) available) {a b : WorkOperation}
    (ha : a ∈ executable.operations) (hb : b ∈ executable.operations)
    (hactive : a.operationId ∈ s.active) (hactive' : b.operationId ∈ s.active)
    (hk : a.kind.communicates = true) (hk' : b.kind.communicates = true)
    (hflow : a.flowId = b.flowId) : a = b := by
  obtain ⟨op, hop, hw, ht⟩ := hbuilt.transfer ha hk
  obtain ⟨op', hop', hw', ht'⟩ := hbuilt.transfer hb hk'
  obtain ⟨first, source, destination, link, hfirst, hsource, hdest, -, -, -, hid⟩ := hw.transfer ht
  obtain ⟨first', source', destination', link', hfirst', hsource', hdest', -, -, -, hid'⟩ :=
    hw'.transfer ht'
  rw [hid, hid', Option.some.injEq] at hflow
  obtain ⟨hsrc, hdst, hch⟩ := flowIdentity_inj ht ht' hflow
  have hmem := hbound.sent_on hacc hop ht hfirst hsource hdest
  have hmem' := hbound.sent_on hacc hop' ht' hfirst' hsource' hdest'
  rw [← hsrc, ← hdst, ← hch] at hmem'
  by_cases heq : a.operationId = b.operationId
  · exact List.inj_on_of_nodup_map hbuilt.ids_nodup ha hb heq
  · exfalso
    have hne : op.operationId ≠ op'.operationId := by
      rwa [hw.operationId, hw'.operationId] at heq
    -- the later of the two has been launched, so the earlier has ended
    have hover : ∀ {x y : WorkOperation}, x.operationId ∈ s.active → y.operationId ∈ s.active →
        ¬ Relation.TransGen result.Edge x.operationId y.operationId := by
      intro x y hx hy hpath
      obtain ⟨hav, hp⟩ := hs.launched _ (Or.inr (Or.inl hy))
      exact hs.active_only _ hx
        (hs.ended_before (hbuilt.deps_of_edge hacc hbound model hpath) hav hp)
    rcases pairwise_or (hacc.sendsOn_chain hfits _ _ _) hmem hmem' hne with hpath | hpath
    · rw [← hw.operationId, ← hw'.operationId] at hpath
      exact hover hactive hactive' hpath
    · rw [← hw.operationId, ← hw'.operationId] at hpath
      exact hover hactive' hactive hpath

/-- **Connections are first in, first out.**  For a program that `execution_dependencies`
and the capacity check accept: the `k`-th send and the `k`-th receive of a connection
belong to one operation; two transfers of a connection are ordered by the dependency
relation; and for every plan it is bound to, the simulation of its executable never has
two active communications with one flow when it asks for their rates. -/
theorem connection_fifo {limits : RuntimeLimits} {sliceBytes scratchBytesPerRank : Option ℕ}
    {capacity : CapacityReport} (hdeps : executionDependencies program = .ok result)
    (hcapacity : checkCapacity (executionShape program) limits sliceBytes scratchBytesPerRank =
      .ok capacity) (hcompatible : capacity.compatible = true) :
    (∀ src dst channel (k : ℕ),
      (sendsOn program src dst channel)[k]? = (receivesOn program src dst channel)[k]?) ∧
    (∀ src dst channel, ∀ x ∈ sendsOn program src dst channel,
      ∀ y ∈ sendsOn program src dst channel, x ≠ y →
        Relation.TransGen result.Edge x y ∨ Relation.TransGen result.Edge y x) ∧
    ∀ (storage : StoragePlan) (context : LoweringContext) (executable : Executable)
      (model : CostModel), validateBindings program storage = .ok () →
      buildExecutable program storage context = .ok executable →
      ∀ s u, Clock.Reached (simulation executable model)
          (unavailableOf executable.operations model) s →
        Clock.settle (simulation executable model) s = .ok u →
        ∀ a ∈ executable.operations, ∀ b ∈ executable.operations,
          a.operationId ∈ u.active → b.operationId ∈ u.active →
          a.kind.communicates = true → b.kind.communicates = true → a.flowId = b.flowId → a = b := by
  have hacc := executionDependencies_accepted hdeps
  have hfits := fits_of_checkCapacity hcapacity hcompatible
  refine ⟨fun src dst channel k => by rw [hacc.sendsOn_eq_receivesOn hfits], ?_, ?_⟩
  · intro src dst channel x hx y hy hne
    exact pairwise_or (hacc.sendsOn_chain hfits src dst channel) hx hy hne
  · intro storage context executable model hvalid hbuild s u hs hu a ha b hb hact hact' hk hk' hflow
    have hbound := validateBindings_bound hacc hfits hdeps hvalid
    have hbuilt := buildExecutable_built hdeps hbuild
    have hinv := (Clock.settle_moves (hbuilt.wellFormed model) (hs.inv (hbuilt.wellFormed model)) hu).2
    exact hbuilt.active_flows hacc hfits hbound model hinv ha hb hact hact' hk hk' hflow

/-- Both transfers of `twoTransfers` are on one connection. -/
theorem connection_fifo_twoTransfers : sendsOn twoTransfers 0 1 0 = ["a", "b"] ∧
    ∀ k : ℕ, (sendsOn twoTransfers 0 1 0)[k]? = (receivesOn twoTransfers 0 1 0)[k]? :=
  ⟨by decide +kernel,
    (connection_fifo twoTransfers_accepted twoTransfers_fits rfl).1 0 1 0⟩

end VeriCCL
