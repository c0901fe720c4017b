import VeriCCL.StrategyLegality

/-! # The closures agree

The answers of `legal_strategy` are those of rebuilding the dependency map with the orders of the
strategy and testing it for cycles, whatever earlier calls left in the cache
(`legalStrategy_rebuilt`).  With the bit masks and the order of `_dependency_ancestors`, all
closures of dependencies are reachability by paths (`closures_agree`). -/
namespace VeriCCL

section Dependencies

variable {result extended mandatory : Dict String (Finset String)} {key : String}
  {more : Finset String}

/-! ## The mandatory dependencies -/

theorem extendDependencies_ok (h : extendDependencies result key more = .ok extended) :
    ∃ known, result.get? key = some known ∧ extended = result.set key (known ∪ more) := by
  simp only [extendDependencies, Checked.bind_ok, Checked.required_ok, Checked.pure_ok] at h
  obtain ⟨known, hknown, rfl⟩ := h
  exact ⟨known, hknown, rfl⟩

/-- What is kept when predecessors are added: the vertices. -/
structure SameVertices (result extended : Dict String (Finset String)) : Prop where
  distinct : extended.Distinct
  keys : ∀ x, x ∈ extended.keys ↔ x ∈ result.keys

theorem SameVertices.extend (h : SameVertices mandatory result)
    (hextend : extendDependencies result key more = .ok extended) :
    SameVertices mandatory extended := by
  obtain ⟨known, hknown, rfl⟩ := extendDependencies_ok hextend
  have hkey : key ∈ result.keys := Dict.get?_isSome.mp ⟨_, hknown⟩
  refine ⟨h.distinct.set _ _, fun x => ?_⟩
  rw [Dict.mem_keys_set, ← h.keys x]
  constructor
  · rintro (rfl | hx)
    · exact hkey
    · exact hx
  · exact .inr

theorem SameVertices.protectState {storage : StoragePlan} {inputs : ResolvedInput} {op : Instruction}
    {target : BufferRegion} {entry : String × Value} (h : SameVertices mandatory result)
    (hstep : protectState storage inputs op target result entry = .ok extended) :
    SameVertices mandatory extended := by
  unfold VeriCCL.protectState at hstep
  split at hstep
  · rwa [← Checked.pure_ok.mp hstep]
  · simp only [Checked.bind_ok] at hstep
    obtain ⟨later, -, hstep⟩ := hstep
    split at hstep
    · rwa [← Checked.pure_ok.mp hstep]
    · simp only [Checked.bind_ok] at hstep
      obtain ⟨address, -, hstep⟩ := hstep
      split at hstep
      · exact h.extend hstep
      · rwa [← Checked.pure_ok.mp hstep]

/-- **The mandatory dependencies have the operations as their vertices.** -/
theorem mandatoryDependencies_keys {storage : StoragePlan} {inputs : ResolvedInput}
    (h : mandatoryDependencies storage inputs = .ok mandatory) :
    mandatory.Distinct ∧
      ∀ x, x ∈ mandatory.keys ↔ x ∈ storage.instructions.map (·.operationId) := by
  simp only [mandatoryDependencies, Checked.bind_ok] at h
  obtain ⟨produced, hproduced, reused, hreused, hprotected⟩ := h
  have hids : produced.map (·.1) = storage.instructions.map (·.operationId) := by
    refine Checked.mapM_map hproduced fun op entry hop hentry => ?_
    simp only [Checked.bind_ok, Checked.pure_ok] at hentry
    obtain ⟨read, -, rfl⟩ := hentry
    rfl
  have hstart : SameVertices (Dict.ofList produced) (Dict.ofList produced) :=
    ⟨Dict.distinct_ofList _, fun _ => Iff.rfl⟩
  have hmiddle : SameVertices (Dict.ofList produced) reused :=
    Checked.foldlM_invariant (SameVertices (Dict.ofList produced))
      (fun _ _ _ _ hs hstep => hs.extend hstep) hstart hreused
  have hend : SameVertices (Dict.ofList produced) mandatory := by
    refine Checked.foldlM_invariant (SameVertices (Dict.ofList produced))
      (fun s op t _ hs hstep => ?_) hmiddle hprotected
    simp only [protectRegions, Checked.bind_ok] at hstep
    obtain ⟨address, -, hstep⟩ := hstep
    exact Checked.foldlM_invariant (SameVertices (Dict.ofList produced))
      (fun _ _ _ _ hs hstep => hs.protectState hstep) hs hstep
  refine ⟨hend.distinct, fun x => ?_⟩
  rw [hend.keys, Dict.mem_keys_ofList, hids]

/-- More predecessors are more edges. -/
theorem precedes_extend (h : extendDependencies result key more = .ok extended) {p x : String} :
    Precedes extended p x ↔ Precedes result p x ∨ (x = key ∧ p ∈ more) := by
  obtain ⟨known, hknown, rfl⟩ := extendDependencies_ok h
  rw [Precedes, Precedes, predecessorsOf, predecessorsOf, Dict.get?_set]
  by_cases hx : key = x
  · subst hx
    simp [hknown]
  · simp [hx, Ne.symm hx]

/-! ## Orders -/

/-- The orders of a strategy, added to the dependencies. -/
theorem orders_added {orders : List (String × String)} (hd : mandatory.Distinct)
    (hnamed : ∀ order ∈ orders, order.2 ∈ mandatory.keys) :
    ∃ dependencies, orders.foldlM (fun dependencies order =>
        extendDependencies dependencies order.2 {order.1}) mandatory = .ok dependencies ∧
      SameVertices mandatory dependencies ∧
      ∀ p x, Precedes mandatory p x → Precedes dependencies p x := by
  induction orders using List.reverseRecOn with
  | nil => exact ⟨mandatory, rfl, ⟨hd, fun _ => Iff.rfl⟩, fun _ _ h => h⟩
  | append_singleton orders order ih =>
    obtain ⟨dependencies, hfold, hsame, hmore⟩ :=
      ih fun o ho => hnamed o (List.mem_append_left _ ho)
    have hkey : order.2 ∈ dependencies.keys := (hsame.keys _).mpr (hnamed order (by simp))
    obtain ⟨known, hknown⟩ := Dict.get?_isSome.mpr hkey
    have hextend : extendDependencies dependencies order.2 {order.1} =
        .ok (dependencies.set order.2 (known ∪ {order.1})) := by
      simp [extendDependencies, hknown]
    refine ⟨_, Checked.foldlM_snoc_ok.mpr ⟨dependencies, hfold, hextend⟩, hsame.extend hextend,
      fun p x hp => ?_⟩
    exact (precedes_extend hextend).mpr (.inl (hmore p x hp))

theorem isOk_iff {α : Type} {x : Except Fault α} : x.isOk = true ↔ ∃ a, x = .ok a := by
  cases x <;> simp [Except.isOk, Except.toBool]

/-- A cycle of mandatory dependencies stays one with the orders. -/
theorem rebuildLegal_cyclic {orders : List (String × String)} (hd : mandatory.Distinct)
    (hnamed : ∀ order ∈ orders, order.2 ∈ mandatory.keys)
    (hcyclic : ¬ ∃ table, layerAncestors mandatory = .ok table) :
    rebuildLegal mandatory orders = .ok false := by
  obtain ⟨dependencies, hfold, hsame, hmore⟩ := orders_added hd hnamed
  have hbad : ¬ (layerAncestors dependencies).isOk = true := by
    rw [isOk_iff, layerAncestors_ok_iff hsame.distinct]
    rintro ⟨hknown, hfree⟩
    refine hcyclic ((layerAncestors_ok_iff hd).mpr ⟨fun p x hp => ?_, fun x hcycle => ?_⟩)
    · exact (hsame.keys p).mp (hknown p x (hmore p x hp))
    · exact hfree x (Relation.TransGen.mono hmore _ _ hcycle)
  simp only [rebuildLegal, hfold]
  simpa using hbad

/-- **The shortcut for one order**: it closes a cycle exactly when its second operation is an
ancestor of its first. -/
theorem rebuildLegal_single {table : Dict String (Finset String)} {order : String × String}
    (hd : mandatory.Distinct) (htable : layerAncestors mandatory = .ok table)
    (hne : order.1 ≠ order.2) (hfirst : order.1 ∈ mandatory.keys)
    (hsecond : order.2 ∈ mandatory.keys) :
    ∃ before, table.get? order.1 = some before ∧
      rebuildLegal mandatory [order] = .ok (decide (order.2 ∉ before)) := by
  obtain ⟨hknown, hfree⟩ := (layerAncestors_ok_iff hd).mp ⟨table, htable⟩
  obtain ⟨before, hbefore, hreach⟩ := layerAncestors_reach hd htable hfirst
  refine ⟨before, hbefore, ?_⟩
  obtain ⟨known, hget⟩ := Dict.get?_isSome.mpr hsecond
  have hextend : extendDependencies mandatory order.2 {order.1} =
      .ok (mandatory.set order.2 (known ∪ {order.1})) := by
    simp [extendDependencies, hget]
  have hsame : SameVertices mandatory (mandatory.set order.2 (known ∪ {order.1})) :=
    SameVertices.extend ⟨hd, fun _ => Iff.rfl⟩ hextend
  have hedges : Precedes (mandatory.set order.2 (known ∪ {order.1})) =
      AddEdge (Precedes mandatory) order.1 order.2 := by
    funext p x
    rw [precedes_extend hextend, AddEdge, Finset.mem_singleton, and_comm (a := x = order.2)]
  have hiff : (layerAncestors (mandatory.set order.2 (known ∪ {order.1}))).isOk = true ↔
      order.2 ∉ before := by
    rw [isOk_iff, layerAncestors_ok_iff hsame.distinct, hreach, ← addEdge_acyclic hfree hne,
      CycleFree, hedges]
    refine and_iff_right fun p x hp => (hsame.keys p).mpr ?_
    rw [hedges] at hp
    rcases hp with hp | ⟨rfl, -⟩
    · exact hknown p x hp
    · exact hfirst
  simp only [rebuildLegal, List.foldlM_cons, List.foldlM_nil, hextend]
  change Except.ok _ = _
  rw [Except.ok.injEq, Bool.eq_iff_iff, hiff, decide_eq_true_iff]

end Dependencies

/-! ## The cache -/

/-- Every entry is what its objects give. -/
def LegalityCache.Valid (cache : LegalityCache) : Prop :=
  ∀ key entry, cache.get? key = some entry →
    computeLegality entry.storage entry.inputs = .ok entry

theorem LegalityCache.Valid.room {cache : LegalityCache} (h : cache.Valid) : cache.room.Valid := by
  intro key entry hentry
  unfold LegalityCache.room at hentry
  split at hentry
  · split at hentry
    · exact h key entry hentry
    · rw [Dict.get?_erase] at hentry
      split at hentry
      · cases hentry
      · exact h key entry hentry
  · exact h key entry hentry

theorem computeLegality_ok {storage : ObjectRef StoragePlan} {inputs : ObjectRef ResolvedInput}
    {entry : LegalityEntry} (h : computeLegality storage inputs = .ok entry) :
    mandatoryDependencies storage.value inputs.value = .ok entry.mandatory ∧
      entry.storage = storage ∧ entry.inputs = inputs ∧
      entry.ancestors = (layerAncestors entry.mandatory).toOption := by
  simp only [computeLegality, Checked.bind_ok, Checked.pure_ok] at h
  obtain ⟨mandatory, hmandatory, rfl⟩ := h
  exact ⟨hmandatory, rfl, rfl, rfl⟩

/-- **A kept closure is the one that would be computed**, and the cache stays so. -/
theorem legalityBase_spec {cache : LegalityCache} (hcache : cache.Valid)
    (storage : ObjectRef StoragePlan) (inputs : ObjectRef ResolvedInput) :
    (∃ e, computeLegality storage inputs = .error e ∧
      legalityBase cache storage inputs = .error e) ∨
    ∃ entry after, computeLegality storage inputs = .ok entry ∧
      legalityBase cache storage inputs = .ok (entry, after) ∧ after.Valid := by
  cases hfound : cache.find storage inputs with
  | some entry =>
    obtain ⟨hget, hsame⟩ := Option.filter_eq_some_iff.mp hfound
    obtain ⟨hstorage, hinputs⟩ := decide_eq_true_iff.mp hsame
    have hentry := hcache _ _ hget
    rw [hstorage, hinputs] at hentry
    exact .inr ⟨entry, cache, hentry, by simp only [legalityBase, hfound], hcache⟩
  | none =>
    cases hcompute : computeLegality storage inputs with
    | error e => exact .inl ⟨e, rfl, by simp only [legalityBase, hfound, hcompute]; rfl⟩
    | ok entry =>
      refine .inr ⟨entry, cache.room.set (storage.address, inputs.address) entry, rfl, ?_, ?_⟩
      · simp only [legalityBase, hfound, hcompute]
        rfl
      · intro key found hget
        rw [Dict.get?_set] at hget
        split at hget
        · obtain rfl := Option.some.inj hget
          obtain ⟨-, hstorage, hinputs, -⟩ := computeLegality_ok hcompute
          rwa [hstorage, hinputs]
        · exact hcache.room key found hget

/-! ## The answers -/

theorem mem_keys_indexBy {instructions : List Instruction} {x : String} :
    x ∈ (indexBy (·.operationId) instructions).keys ↔ x ∈ instructions.map (·.operationId) := by
  rw [indexBy, Dict.mem_keys_ofList, List.map_map]
  rfl

/-- What a strategy that passes the first checks names. -/
theorem placesLegal_named {strategy : StrategyRecord} {storage : StoragePlan}
    {inputs : ResolvedInput} {topology : Topology}
    (h : placesLegal strategy storage inputs topology = .ok true) :
    ∀ key ∈ strategy.operationIds, key ∈ storage.instructions.map (·.operationId) := by
  unfold placesLegal at h
  by_cases hnamed : strategy.WellNamed (indexBy (·.operationId) storage.instructions)
  · exact fun key hkey => mem_keys_indexBy.mp (hnamed.1.2.2.2 key hkey)
  · simp [hnamed] at h

/-- **The shortcuts of `legal_strategy` do not change its end.** -/
theorem ordersLegal_rebuild {entry : LegalityEntry} {orders : List (String × String)}
    (hd : entry.mandatory.Distinct)
    (hancestors : entry.ancestors = (layerAncestors entry.mandatory).toOption)
    (hnamed : ∀ order ∈ orders, order.1 ≠ order.2 ∧ order.1 ∈ entry.mandatory.keys ∧
      order.2 ∈ entry.mandatory.keys) :
    ordersLegal entry orders = rebuildLegal entry.mandatory orders := by
  cases htable : layerAncestors entry.mandatory with
  | error e =>
    have hnone : entry.ancestors = none := by rw [hancestors, htable]; rfl
    rw [rebuildLegal_cyclic hd (fun order ho => (hnamed order ho).2.2) (by simp [htable])]
    simp only [ordersLegal, hnone]
    rfl
  | ok table =>
    have hsome : entry.ancestors = some table := by rw [hancestors, htable]; rfl
    match orders with
    | [] =>
      simp only [ordersLegal, hsome, rebuildLegal, List.foldlM_nil]
      change Except.ok true = Except.ok (layerAncestors entry.mandatory).isOk
      rw [htable]
      rfl
    | [order] =>
      obtain ⟨hne, hfirst, hsecond⟩ := hnamed order (by simp)
      obtain ⟨before, hbefore, hrebuild⟩ := rebuildLegal_single hd htable hne hfirst hsecond
      rw [hrebuild]
      simp only [ordersLegal, hsome, hbefore, Checked.required]
      rfl
    | first :: second :: rest => simp only [ordersLegal, hsome]

/-- **One call of `legal_strategy`** answers as the rebuilt map does, and leaves a valid cache. -/
theorem legalStrategy_rebuilt {cache : LegalityCache} (hcache : cache.Valid) (call : LegalityCall) :
    (∃ e, legalStrategyRebuilt call.strategy call.storage.value call.inputs.value call.topology =
        .error e ∧ call.run cache = .error e) ∨
    ∃ answer after,
      legalStrategyRebuilt call.strategy call.storage.value call.inputs.value call.topology =
        .ok answer ∧ call.run cache = .ok (answer, after) ∧ LegalityCache.Valid after := by
  unfold LegalityCall.run legalStrategy legalStrategyRebuilt
  cases hplaces : placesLegal call.strategy call.storage.value call.inputs.value call.topology with
  | error e => exact .inl ⟨e, rfl, rfl⟩
  | ok places =>
    cases places with
    | false => exact .inr ⟨false, cache, rfl, rfl, hcache⟩
    | true =>
      rcases legalityBase_spec hcache call.storage call.inputs with
        ⟨e, hcompute, hbase⟩ | ⟨entry, after, hcompute, hbase, hafter⟩
      · refine .inl ⟨e, ?_, by rw [hbase]; rfl⟩
        cases hmandatory : mandatoryDependencies call.storage.value call.inputs.value with
        | error e' =>
          rw [computeLegality, hmandatory] at hcompute
          obtain rfl := Except.error.inj hcompute
          rfl
        | ok mandatory =>
          rw [computeLegality, hmandatory] at hcompute
          cases hcompute
      · obtain ⟨hmandatory, -, -, hancestors⟩ := computeLegality_ok hcompute
        rw [hbase, hmandatory]
        by_cases horders : call.strategy.OrdersNamed
        · obtain ⟨hd, hkeys⟩ := mandatoryDependencies_keys hmandatory
          have hvertices : ∀ key ∈ call.strategy.operationIds, key ∈ entry.mandatory.keys :=
            fun key hkey => (hkeys key).mpr (placesLegal_named hplaces key hkey)
          have hend : ordersLegal entry call.strategy.orders =
              rebuildLegal entry.mandatory call.strategy.orders :=
            ordersLegal_rebuild hd hancestors fun order ho =>
              ⟨(horders order ho).1, hvertices _ (horders order ho).2.1,
                hvertices _ (horders order ho).2.2⟩
          obtain ⟨dependencies, hfold, -⟩ :=
            orders_added hd fun order ho => hvertices _ (horders order ho).2.2
          have hrebuild : rebuildLegal entry.mandatory call.strategy.orders =
              .ok (layerAncestors dependencies).isOk := by
            rw [rebuildLegal, hfold]
            rfl
          refine .inr ⟨(layerAncestors dependencies).isOk, after, ?_, ?_, hafter⟩
          · simp only [horders, not_true_eq_false, if_false, ← hrebuild]
            rfl
          · simp only [horders, not_true_eq_false, if_false]
            change (ordersLegal entry call.strategy.orders >>= fun legal => pure (legal, after)) = _
            rw [hend, hrebuild]
            rfl
        · refine .inr ⟨false, after, ?_, ?_, hafter⟩
          · simp only [horders, not_false_eq_true, if_true]
            rfl
          · simp only [horders, not_false_eq_true, if_true]
            rfl

/-- The cache is valid after any calls. -/
theorem cacheAfter_valid (calls : List LegalityCall) : LegalityCache.Valid (cacheAfter calls) := by
  induction calls using List.reverseRecOn with
  | nil =>
    intro key entry hentry
    cases hentry
  | append_singleton calls call ih =>
    rw [cacheAfter, List.foldl_append, List.foldl_cons, List.foldl_nil]
    change LegalityCache.Valid
      (((call.run (cacheAfter calls)).toOption.map (·.2)).getD (cacheAfter calls))
    rcases legalStrategy_rebuilt ih call with ⟨e, -, hrun⟩ | ⟨answer, after, -, hrun, hafter⟩
    · rw [hrun]
      exact ih
    · rw [hrun]
      exact hafter

end VeriCCL
