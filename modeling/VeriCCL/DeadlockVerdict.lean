import VeriCCL.Collective
import VeriCCL.EndpointMachine
import Mathlib.Algebra.Order.BigOperators.Group.List

/-! # The deadlock verdict

`simulate_endpoint_execution` executes the steps of a program in one of very many orders.  Its
verdict does not depend on the order: moves that are possible together stay possible after each
other and lead to the same state (`move_diamond`), so all maximal runs end in one state
(`simulate_every_run`). -/
namespace VeriCCL

/-- **In a relation with diamonds all ends of an element are equal.** -/
theorem ends_unique {α : Type} {r : α → α → Prop}
    (hdiamond : ∀ a b c, r a b → r a c → b = c ∨ ∃ d, r b d ∧ r c d) {a b c : α}
    (hb : Relation.ReflTransGen r a b) (hc : Relation.ReflTransGen r a c)
    (hbEnd : ∀ d, ¬ r b d) (hcEnd : ∀ d, ¬ r c d) : b = c := by
  have hjoin : Relation.Join (Relation.ReflTransGen r) b c := by
    refine Relation.church_rosser (fun a b c hab hac => ?_) hb hc
    rcases hdiamond a b c hab hac with rfl | ⟨d, hbd, hcd⟩
    · exact ⟨b, .refl, .refl⟩
    · exact ⟨d, .single hbd, .single hcd⟩
  obtain ⟨d, hbd, hcd⟩ := hjoin
  have hb' : b = d := by
    rcases Relation.ReflTransGen.cases_head hbd with heq | ⟨e, hstep, -⟩
    · exact heq
    · exact absurd hstep (hbEnd e)
  have hc' : c = d := by
    rcases Relation.ReflTransGen.cases_head hcd with heq | ⟨e, hstep, -⟩
    · exact heq
    · exact absurd hstep (hcEnd e)
  rw [hb', hc']

namespace EndpointState

variable {program : ThreadblockProgram} {s : EndpointState}

/-! ## Heads -/

theorem mem_heads {head : (ℕ × ℕ) × XmlStep} :
    head ∈ s.heads program ↔ ∃ block ∈ program.threadblocks, block.blockId = head.1 ∧
      block.steps[s.positions head.1]? = some head.2 := by
  simp only [heads, List.mem_filterMap, Option.map_eq_some_iff]
  constructor
  · rintro ⟨block, hblock, step, hstep, rfl⟩
    exact ⟨block, hblock, rfl, hstep⟩
  · rintro ⟨block, hblock, hid, hstep⟩
    exact ⟨block, hblock, head.2, by rw [hid]; exact hstep, by rw [hid]⟩

theorem heads_keys_nodup (program : ThreadblockProgram) (s : EndpointState) :
    ((s.heads program).map (·.1)).Nodup := by
  refine List.Nodup.sublist ?_ program.blocks_unique
  rw [heads]
  induction program.threadblocks with
  | nil => simp
  | cons block blocks ih =>
    rw [List.filterMap_cons]
    cases block.steps[s.positions block.blockId]? with
    | none => exact ih.cons _
    | some step => exact ih.cons_cons _

/-- A block has one head. -/
theorem head_unique {a b : (ℕ × ℕ) × XmlStep} (ha : a ∈ s.heads program)
    (hb : b ∈ s.heads program) (hkey : a.1 = b.1) : a = b :=
  List.inj_on_of_nodup_map (heads_keys_nodup program s) ha hb hkey

/-- **A step has one place.** -/
theorem place_unique {first second : Threadblock} (hfirst : first ∈ program.threadblocks)
    (hsecond : second ∈ program.threadblocks) {i j : ℕ} {a b : XmlStep}
    (ha : first.steps[i]? = some a) (hb : second.steps[j]? = some b) (hid : a.stepId = b.stepId) :
    first = second ∧ i = j := by
  have hunique := program.steps_unique
  rw [blockSteps, List.map_flatMap, List.nodup_flatMap] at hunique
  obtain ⟨hwithin, hacross⟩ := hunique
  have hmemA : a.stepId ∈ first.steps.map (·.stepId) :=
    List.mem_map_of_mem (List.mem_of_getElem? ha)
  have hmemB : a.stepId ∈ second.steps.map (·.stepId) :=
    hid ▸ List.mem_map_of_mem (List.mem_of_getElem? hb)
  by_cases hsame : first = second
  · subst hsame
    refine ⟨rfl, ?_⟩
    have hi : (first.steps.map (·.stepId))[i]? = some a.stepId := by simp [ha]
    have hj : (first.steps.map (·.stepId))[j]? = some a.stepId := by simp [hb, hid]
    obtain ⟨hlt, -⟩ := List.getElem?_eq_some_iff.mp hi
    exact (List.getElem?_inj hlt (hwithin first hfirst)).mp (hi.trans hj.symm)
  · exfalso
    rcases pairwise_or hacross hfirst hsecond hsame with hdisjoint | hdisjoint
    · exact hdisjoint hmemA hmemB
    · exact hdisjoint hmemB hmemA

/-- A step heads one block. -/
theorem head_of_id {a b : (ℕ × ℕ) × XmlStep} (ha : a ∈ s.heads program)
    (hb : b ∈ s.heads program) (hid : a.2.stepId = b.2.stepId) : a = b := by
  obtain ⟨first, hfirst, hfirstId, hfirstStep⟩ := mem_heads.mp ha
  obtain ⟨second, hsecond, hsecondId, hsecondStep⟩ := mem_heads.mp hb
  obtain ⟨rfl, -⟩ := place_unique hfirst hsecond hfirstStep hsecondStep hid
  exact head_unique ha hb (hfirstId.symm.trans hsecondId)

theorem mem_steps_of_head {head : (ℕ × ℕ) × XmlStep} (h : head ∈ s.heads program) :
    head.2 ∈ program.steps := by
  obtain ⟨block, hblock, -, hstep⟩ := mem_heads.mp h
  exact List.mem_flatMap.mpr ⟨block, hblock, List.mem_of_getElem? hstep⟩

/-! ## Completing several heads -/

theorem completed_foldl (l : List ((ℕ × ℕ) × XmlStep)) (s : EndpointState) :
    (l.foldl complete s).completed = s.completed ∪ (l.map (·.2.stepId)).toFinset := by
  induction l generalizing s with
  | nil => simp
  | cons head l ih =>
    rw [List.foldl_cons, ih]
    ext id
    simp [complete]

theorem positions_foldl {l : List ((ℕ × ℕ) × XmlStep)} (hkeys : (l.map (·.1)).Nodup)
    (s : EndpointState) (key : ℕ × ℕ) :
    (l.foldl complete s).positions key =
      s.positions key + if key ∈ l.map (·.1) then 1 else 0 := by
  induction l generalizing s with
  | nil => simp
  | cons head l ih =>
    rw [List.map_cons, List.nodup_cons] at hkeys
    rw [List.foldl_cons, ih hkeys.2, List.map_cons]
    by_cases hkey : key = head.1
    · subst hkey
      simp [complete, hkeys.1]
    · simp only [complete, Function.update_of_ne hkey, List.mem_cons, hkey, false_or]

/-- The order does not matter. -/
theorem foldl_complete_congr {l m : List ((ℕ × ℕ) × XmlStep)} (hl : (l.map (·.1)).Nodup)
    (hm : (m.map (·.1)).Nodup) (hmem : ∀ head, head ∈ l ↔ head ∈ m) (s : EndpointState) :
    l.foldl complete s = m.foldl complete s := by
  have hpositions : (l.foldl complete s).positions = (m.foldl complete s).positions := by
    funext key
    rw [positions_foldl hl, positions_foldl hm]
    simp only [List.mem_map, hmem]
  have hcompleted : (l.foldl complete s).completed = (m.foldl complete s).completed := by
    rw [completed_foldl, completed_foldl]
    ext id
    simp only [Finset.mem_union, List.mem_toFinset, List.mem_map, hmem]
  calc l.foldl complete s
      = ⟨(l.foldl complete s).positions, (l.foldl complete s).completed⟩ := rfl
    _ = m.foldl complete s := by rw [hpositions, hcompleted]

theorem Ready.foldl {step : XmlStep} (h : s.Ready step) (l : List ((ℕ × ℕ) × XmlStep)) :
    (l.foldl complete s).Ready step := by
  intro id hid
  rw [completed_foldl]
  exact Finset.mem_union_left _ (h id hid)

/-- Other blocks keep their heads. -/
theorem head_foldl {l : List ((ℕ × ℕ) × XmlStep)} (hkeys : (l.map (·.1)).Nodup)
    {head : (ℕ × ℕ) × XmlStep} (hhead : head ∈ s.heads program) (hkey : head.1 ∉ l.map (·.1)) :
    head ∈ (l.foldl complete s).heads program := by
  rw [mem_heads] at hhead ⊢
  rwa [positions_foldl hkeys, if_neg hkey, Nat.add_zero]

end EndpointState

/-! ## Moves -/

/-- **The transfers cover every communication step exactly once.** -/
def ThreadblockProgram.Covered (program : ThreadblockProgram) : Prop :=
  (program.transferSteps.flatMap fun entry => [entry.2.1, entry.2.2]).Perm
    ((program.steps.filter fun step => step.xmlType.isLocal = false).map (·.stepId))

section Moves

variable {program : ThreadblockProgram} {s t : EndpointState}

theorem Covered.nodup (h : program.Covered) :
    (program.transferSteps.flatMap fun entry => [entry.2.1, entry.2.2]).Nodup :=
  h.nodup_iff.mpr (program.steps_unique.sublist (List.filter_sublist.map _))

/-- A step of a transfer is a communication. -/
theorem Covered.not_local (h : program.Covered) {entry : String × String × String}
    (hentry : entry ∈ program.transferSteps) {step : XmlStep} (hstep : step ∈ program.steps)
    (hid : step.stepId = entry.2.1 ∨ step.stepId = entry.2.2) : step.xmlType.isLocal = false := by
  have hmem : step.stepId ∈ program.transferSteps.flatMap fun entry => [entry.2.1, entry.2.2] :=
    List.mem_flatMap.mpr ⟨entry, hentry, by simpa using hid⟩
  obtain ⟨other, hother, hsame⟩ := List.mem_map.mp (h.mem_iff.mp hmem)
  obtain ⟨hmemOther, hcommunication⟩ := List.mem_filter.mp hother
  obtain rfl : other = step :=
    List.inj_on_of_nodup_map program.steps_unique hmemOther hstep hsame
  simpa using hcommunication

/-- A communication belongs to one transfer. -/
theorem Covered.unique (h : program.Covered) {entry other : String × String × String}
    (hentry : entry ∈ program.transferSteps) (hother : other ∈ program.transferSteps) {id : String}
    (hid : id = entry.2.1 ∨ id = entry.2.2) (hid' : id = other.2.1 ∨ id = other.2.2) :
    entry = other := by
  by_contra hne
  have hdisjoint := (List.nodup_flatMap.mp (Covered.nodup h)).2
  rcases pairwise_or hdisjoint hentry hother hne with hdisjoint | hdisjoint
  · exact hdisjoint (by simpa using hid) (by simpa using hid')
  · exact hdisjoint (by simpa using hid') (by simpa using hid)

/-- The two steps of a transfer are different. -/
theorem Covered.ne (h : program.Covered) {entry : String × String × String}
    (hentry : entry ∈ program.transferSteps) : entry.2.1 ≠ entry.2.2 := by
  have hpair := (List.nodup_flatMap.mp (Covered.nodup h)).1 entry hentry
  simpa using hpair

/-- The heads that complete in one move. -/
inductive MoveHeads (program : ThreadblockProgram) : List ((ℕ × ℕ) × XmlStep) → Prop
  | step {head : (ℕ × ℕ) × XmlStep} (hlocal : head.2.xmlType.isLocal = true) :
      MoveHeads program [head]
  | transfer {entry : String × String × String} {first second : (ℕ × ℕ) × XmlStep}
      (hentry : entry ∈ program.transferSteps) (hfirst : first.2.stepId = entry.2.1)
      (hsecond : second.2.stepId = entry.2.2) : MoveHeads program [first, second]

theorem endpointMove_iff : EndpointMove program s t ↔ ∃ l, MoveHeads program l ∧
    (∀ head ∈ l, head ∈ s.heads program ∧ s.Ready head.2) ∧ t = l.foldl EndpointState.complete s := by
  constructor
  · rintro (⟨hhead, hlocal, hready⟩ | ⟨hentry, hfirst, hfirstId, hsecond, hsecondId, hr, hr'⟩)
    · exact ⟨_, .step hlocal, by simp [hhead, hready], rfl⟩
    · exact ⟨_, .transfer hentry hfirstId hsecondId, by simp [hfirst, hr, hsecond, hr'], rfl⟩
  · rintro ⟨l, hl, hheads, rfl⟩
    cases hl with
    | step hlocal =>
      obtain ⟨hhead, hready⟩ := hheads _ List.mem_cons_self
      exact .step hhead hlocal hready
    | transfer hentry hfirst hsecond =>
      obtain ⟨hheadFirst, hreadyFirst⟩ := hheads _ List.mem_cons_self
      obtain ⟨hheadSecond, hreadySecond⟩ := hheads _ (List.mem_cons_of_mem _ List.mem_cons_self)
      exact .transfer hentry hheadFirst hfirst hheadSecond hsecond hreadyFirst hreadySecond

/-- The heads of a move are on different blocks. -/
theorem MoveHeads.nodup (hcover : program.Covered) {l : List ((ℕ × ℕ) × XmlStep)}
    (hl : MoveHeads program l) (hheads : ∀ head ∈ l, head ∈ s.heads program) :
    (l.map (·.1)).Nodup := by
  cases hl with
  | step => simp
  | @transfer entry first second hentry hfirst hsecond =>
    suffices first.1 ≠ second.1 by simpa using this
    intro hkey
    have hsame := EndpointState.head_unique (hheads first (by simp)) (hheads second (by simp)) hkey
    exact Covered.ne hcover hentry (hfirst.symm.trans ((congrArg (·.2.stepId) hsame).trans hsecond))

theorem pair_id {entry : String × String × String} {first second head : (ℕ × ℕ) × XmlStep}
    (hfirst : first.2.stepId = entry.2.1) (hsecond : second.2.stepId = entry.2.2)
    (h : head ∈ [first, second]) : head.2.stepId = entry.2.1 ∨ head.2.stepId = entry.2.2 := by
  rcases List.mem_pair.mp h with rfl | rfl
  · exact .inl hfirst
  · exact .inr hsecond

/-- **Two moves of one state are the same, or on different blocks.** -/
theorem MoveHeads.same_or_disjoint (hcover : program.Covered) {l m : List ((ℕ × ℕ) × XmlStep)}
    (hl : MoveHeads program l) (hm : MoveHeads program m)
    (hlheads : ∀ head ∈ l, head ∈ s.heads program) (hmheads : ∀ head ∈ m, head ∈ s.heads program) :
    l = m ∨ ∀ key ∈ l.map (·.1), key ∉ m.map (·.1) := by
  by_cases hshare : ∃ head ∈ l, head ∈ m
  · left
    obtain ⟨head, hheadL, hheadM⟩ := hshare
    have hstep := EndpointState.mem_steps_of_head (hlheads head hheadL)
    cases hl with
    | step hlocal =>
      obtain rfl := List.mem_singleton.mp hheadL
      cases hm with
      | step => rw [List.mem_singleton.mp hheadM]
      | transfer hentry hfirst hsecond =>
        rw [Covered.not_local hcover hentry hstep (pair_id hfirst hsecond hheadM)] at hlocal
        cases hlocal
    | transfer hentry hfirst hsecond =>
      have hid := pair_id hfirst hsecond hheadL
      cases hm with
      | step hlocal =>
        obtain rfl := List.mem_singleton.mp hheadM
        rw [Covered.not_local hcover hentry hstep hid] at hlocal
        cases hlocal
      | transfer hentry' hfirst' hsecond' =>
        obtain rfl := Covered.unique hcover hentry hentry' hid (pair_id hfirst' hsecond' hheadM)
        rw [EndpointState.head_of_id (hlheads _ (by simp)) (hmheads _ (by simp))
            (hfirst.trans hfirst'.symm),
          EndpointState.head_of_id (hlheads _ (by simp)) (hmheads _ (by simp))
            (hsecond.trans hsecond'.symm)]
  · right
    intro key hkeyL hkeyM
    obtain ⟨a, ha, rfl⟩ := List.mem_map.mp hkeyL
    obtain ⟨b, hb, hkey⟩ := List.mem_map.mp hkeyM
    obtain rfl := EndpointState.head_unique (hlheads a ha) (hmheads b hb) hkey.symm
    exact hshare ⟨a, ha, hb⟩

/-- **Moves that are possible together stay possible, in either order, and meet.** -/
theorem move_diamond (hcover : program.Covered) {a b c : EndpointState}
    (hb : EndpointMove program a b) (hc : EndpointMove program a c) :
    b = c ∨ ∃ d, EndpointMove program b d ∧ EndpointMove program c d := by
  obtain ⟨l, hl, hlheads, rfl⟩ := endpointMove_iff.mp hb
  obtain ⟨m, hm, hmheads, rfl⟩ := endpointMove_iff.mp hc
  have hlnodup := hl.nodup hcover fun head h => (hlheads head h).1
  have hmnodup := hm.nodup hcover fun head h => (hmheads head h).1
  rcases hl.same_or_disjoint hcover hm (fun head h => (hlheads head h).1)
    (fun head h => (hmheads head h).1) with rfl | hdisjoint
  · exact .inl rfl
  · refine .inr ⟨(l ++ m).foldl EndpointState.complete a, ?_, ?_⟩
    · refine endpointMove_iff.mpr ⟨m, hm, fun head hhead => ?_, List.foldl_append⟩
      refine ⟨EndpointState.head_foldl hlnodup (hmheads head hhead).1 fun hkey => ?_,
        (hmheads head hhead).2.foldl l⟩
      exact hdisjoint _ hkey (List.mem_map_of_mem hhead)
    · refine endpointMove_iff.mpr ⟨l, hl, fun head hhead => ?_, ?_⟩
      · refine ⟨EndpointState.head_foldl hmnodup (hlheads head hhead).1 fun hkey => ?_,
          (hlheads head hhead).2.foldl m⟩
        exact hdisjoint _ (List.mem_map_of_mem hhead) hkey
      · rw [← List.foldl_append]
        refine EndpointState.foldl_complete_congr ?_ ?_ (fun head => ?_) a
        · rw [List.map_append]
          exact List.nodup_append.mpr ⟨hlnodup, hmnodup, fun x hx y hy heq =>
            hdisjoint x hx (heq ▸ hy)⟩
        · rw [List.map_append]
          exact List.nodup_append.mpr ⟨hmnodup, hlnodup, fun x hx y hy heq =>
            hdisjoint y hy (heq ▸ hx)⟩
        · simp only [List.mem_append, or_comm]

/-! ## Every run ends -/

/-- The steps that are left. -/
def remaining (program : ThreadblockProgram) (s : EndpointState) : ℕ :=
  (program.threadblocks.map fun block => block.steps.length - s.positions block.blockId).sum

theorem positions_le_complete (s : EndpointState) (head : (ℕ × ℕ) × XmlStep) (key : ℕ × ℕ) :
    s.positions key ≤ (s.complete head).positions key := by
  by_cases hkey : key = head.1
  · subst hkey
    simp [EndpointState.complete]
  · simp [EndpointState.complete, Function.update_of_ne hkey]

theorem remaining_complete_le (s : EndpointState) (head : (ℕ × ℕ) × XmlStep) :
    remaining program (s.complete head) ≤ remaining program s :=
  List.sum_le_sum fun block _ => Nat.sub_le_sub_left (positions_le_complete s head block.blockId) _

theorem remaining_complete_lt {head : (ℕ × ℕ) × XmlStep} (hhead : head ∈ s.heads program) :
    remaining program (s.complete head) < remaining program s := by
  obtain ⟨block, hblock, hid, hstep⟩ := EndpointState.mem_heads.mp hhead
  refine List.sum_lt_sum _ _
    (fun block _ => Nat.sub_le_sub_left (positions_le_complete s head block.blockId) _)
    ⟨block, hblock, ?_⟩
  obtain ⟨hlt, -⟩ := List.getElem?_eq_some_iff.mp hstep
  rw [hid]
  simp only [EndpointState.complete, Function.update_self]
  omega

/-- **A move leaves fewer steps.** -/
theorem EndpointMove.remaining_lt (h : EndpointMove program s t) :
    remaining program t < remaining program s := by
  cases h with
  | step hhead _ _ => exact remaining_complete_lt hhead
  | transfer _ hfirst _ _ _ _ _ =>
    exact (remaining_complete_le _ _).trans_lt (remaining_complete_lt hfirst)

theorem remaining_start (program : ThreadblockProgram) :
    remaining program EndpointState.start = program.steps.length := by
  simp [remaining, EndpointState.start, ThreadblockProgram.steps, blockSteps, List.length_flatMap]

/-! ## What has completed -/

/-- The completed steps are those before the positions of the blocks. -/
def Progressed (program : ThreadblockProgram) (s : EndpointState) : Prop :=
  ∀ id, id ∈ s.completed ↔ ∃ block ∈ program.threadblocks, ∃ i step,
    i < s.positions block.blockId ∧ block.steps[i]? = some step ∧ step.stepId = id

theorem Progressed.complete (h : Progressed program s) {head : (ℕ × ℕ) × XmlStep}
    (hhead : head ∈ s.heads program) : Progressed program (s.complete head) := by
  obtain ⟨own, hown, hownId, hownStep⟩ := EndpointState.mem_heads.mp hhead
  have hposition : ∀ key, (s.complete head).positions key =
      s.positions key + if key = head.1 then 1 else 0 := by
    intro key
    by_cases hkey : key = head.1
    · subst hkey
      simp [EndpointState.complete]
    · simp [EndpointState.complete, hkey]
  intro id
  have hcompleted : id ∈ (s.complete head).completed ↔ id = head.2.stepId ∨ id ∈ s.completed := by
    simp [EndpointState.complete]
  rw [hcompleted, h id]
  constructor
  · rintro (rfl | ⟨block, hblock, i, step, hi, hstep, hid⟩)
    · exact ⟨own, hown, s.positions head.1, head.2, by simp [hposition, hownId], hownStep, rfl⟩
    · exact ⟨block, hblock, i, step, by rw [hposition]; omega, hstep, hid⟩
  · rintro ⟨block, hblock, i, step, hi, hstep, hid⟩
    rw [hposition] at hi
    by_cases hbefore : i < s.positions block.blockId
    · exact .inr ⟨block, hblock, i, step, hbefore, hstep, hid⟩
    · -- the step at the old position of the head's block
      left
      split at hi
      · rename_i hkey
        obtain rfl : block = own :=
          List.inj_on_of_nodup_map program.blocks_unique hblock hown (hkey.trans hownId.symm)
        obtain rfl : i = s.positions head.1 := by rw [← hkey]; omega
        rw [← hid, Option.some.inj (hstep.symm.trans hownStep)]
      · omega

theorem Progressed.move (hcover : program.Covered) (h : Progressed program s)
    (hmove : EndpointMove program s t) : Progressed program t := by
  cases hmove with
  | step hhead _ _ => exact h.complete hhead
  | @transfer entry first second hentry hfirst hfirstId hsecond hsecondId _ _ =>
    have hkeys := (MoveHeads.transfer hentry hfirstId hsecondId).nodup hcover
      (by
        intro head hhead
        rcases List.mem_pair.mp hhead with rfl | rfl
        · exact hfirst
        · exact hsecond)
    have hne : second.1 ∉ [first].map (·.1) := by
      have hne' : first.1 ≠ second.1 := by simpa using hkeys
      simpa using hne'.symm
    have hstill : second ∈ (s.complete first).heads program :=
      EndpointState.head_foldl (by simp) hsecond hne
    exact (h.complete hfirst).complete hstill

theorem progressed_start (program : ThreadblockProgram) :
    Progressed program EndpointState.start := by
  intro id
  simp [EndpointState.start]

theorem Progressed.run (hcover : program.Covered) (h : Progressed program s)
    (hrun : Relation.ReflTransGen (EndpointMove program) s t) : Progressed program t := by
  induction hrun with
  | refl => exact h
  | tail _ hmove ih => exact ih.move hcover hmove

/-- Some step has not completed. -/
def StopsEarly (program : ThreadblockProgram) (s : EndpointState) : Prop :=
  ∃ step ∈ program.steps, step.stepId ∉ s.completed

/-- **A step is left exactly when some block has a head.** -/
theorem Progressed.stopsEarly_iff (h : Progressed program s) :
    StopsEarly program s ↔ s.heads program ≠ [] := by
  constructor
  · rintro ⟨step, hstep, hleft⟩
    obtain ⟨block, hblock, hmem⟩ := List.mem_flatMap.mp hstep
    obtain ⟨i, hi⟩ := List.mem_iff_getElem?.mp hmem
    obtain ⟨hlt, -⟩ := List.getElem?_eq_some_iff.mp hi
    have hposition : s.positions block.blockId ≤ i := by
      by_contra hbefore
      exact hleft ((h step.stepId).mpr ⟨block, hblock, i, step, by omega, hi, rfl⟩)
    have hbound : s.positions block.blockId < block.steps.length := by omega
    have hhead : (block.blockId, block.steps[s.positions block.blockId]) ∈ s.heads program :=
      EndpointState.mem_heads.mpr ⟨block, hblock, rfl, List.getElem?_eq_getElem hbound⟩
    exact List.ne_nil_of_mem hhead
  · intro hheads
    obtain ⟨head, hhead⟩ := List.exists_mem_of_ne_nil _ hheads
    refine ⟨head.2, EndpointState.mem_steps_of_head hhead, fun hcompleted => ?_⟩
    obtain ⟨own, hown, hownId, hownStep⟩ := EndpointState.mem_heads.mp hhead
    obtain ⟨block, hblock, i, step, hi, hstep, hid⟩ := (h head.2.stepId).mp hcompleted
    obtain ⟨rfl, rfl⟩ := EndpointState.place_unique hblock hown hstep hownStep hid
    rw [hownId] at hi
    exact lt_irrefl _ hi

/-! ## The batches -/

/-- What a batch does: some moves, if it notes progress; nothing else otherwise, and then nothing
of the batch was possible. -/
structure BatchRun (program : ThreadblockProgram) (before after : EndpointState × Bool)
    (stuck : Prop) : Prop where
  moves : Relation.ReflTransGen (EndpointMove program) before.1 after.1
  idle : after.2 = false → after = before ∧ stuck
  busy : before.2 = false → after.2 = true → Relation.TransGen (EndpointMove program) before.1 after.1

/-- A move, and the rest of the batch. -/
theorem BatchRun.after_move {before after : EndpointState × Bool} {next : EndpointState}
    {stuck stuck' : Prop} (hmove : EndpointMove program before.1 next)
    (h : BatchRun program (next, true) after stuck') : BatchRun program before after stuck where
  moves := .head hmove h.moves
  idle hidle := by
    obtain ⟨rfl, -⟩ := h.idle hidle
    cases hidle
  busy _ _ := Relation.TransGen.head' hmove h.moves

theorem localBatch {rest : List ((ℕ × ℕ) × XmlStep)} {acc : EndpointState × Bool}
    (hkeys : (rest.map (·.1)).Nodup) (hheads : ∀ head ∈ rest, head ∈ acc.1.heads program) :
    BatchRun program acc (rest.foldl localStep acc)
      (∀ head ∈ rest, ¬ (head.2.xmlType.isLocal = true ∧ acc.1.Ready head.2)) := by
  induction rest generalizing acc with
  | nil => exact ⟨.refl, fun _ => ⟨rfl, by simp⟩, fun hbefore hafter => by simp_all⟩
  | cons head rest ih =>
    rw [List.map_cons, List.nodup_cons] at hkeys
    rw [List.foldl_cons]
    by_cases hpossible : head.2.xmlType.isLocal = true ∧ acc.1.Ready head.2
    · have hstep : localStep acc head = (acc.1.complete head, true) := if_pos hpossible
      rw [hstep]
      refine BatchRun.after_move (.step (hheads head List.mem_cons_self) hpossible.1 hpossible.2)
        (ih hkeys.2 fun other hother => ?_)
      have hne : other.1 ∉ [head].map (·.1) := by
        rintro hmem
        rw [List.map_singleton, List.mem_singleton] at hmem
        exact hkeys.1 (hmem ▸ List.mem_map_of_mem hother)
      exact EndpointState.head_foldl (by simp) (hheads other (List.mem_cons_of_mem _ hother)) hne
    · have hstep : localStep acc head = acc := if_neg hpossible
      rw [hstep]
      have hrest := ih hkeys.2 fun other hother => hheads other (List.mem_cons_of_mem _ hother)
      refine ⟨hrest.moves, fun hidle => ?_, hrest.busy⟩
      obtain ⟨hsame, hstuck⟩ := hrest.idle hidle
      exact ⟨hsame, List.forall_mem_cons.mpr ⟨hpossible, hstuck⟩⟩

theorem stepsById_get? {id : String} {step : XmlStep} :
    program.stepsById.get? id = some step ↔ step ∈ program.steps ∧ step.stepId = id := by
  have hkeys : ((program.steps.map fun step => (step.stepId, step)).map (·.1)).Nodup := by
    rw [List.map_map]
    exact program.steps_unique
  rw [ThreadblockProgram.stepsById, Dict.ofList_get? hkeys, List.mem_map]
  constructor
  · rintro ⟨other, hother, heq⟩
    obtain ⟨rfl, rfl⟩ := Prod.mk.inj heq
    exact ⟨hother, rfl⟩
  · rintro ⟨hstep, rfl⟩
    exact ⟨step, hstep, rfl⟩

/-- A head of the batch that a transfer names. -/
theorem ready_of_head {id : String} {head : (ℕ × ℕ) × XmlStep} {base : EndpointState}
    (hhead : head ∈ base.heads program) (hid : head.2.stepId = id) :
    (∀ step ∈ program.stepsById.get? id, s.Ready step) ↔ s.Ready head.2 := by
  have hget := stepsById_get?.mpr ⟨EndpointState.mem_steps_of_head hhead, hid⟩
  simp [hget]

/-- **The batch of transfers.**  A transfer that waits keeps its heads while others execute. -/
theorem transferBatch (hcover : program.Covered) {base : EndpointState}
    {rest : List (String × String × String)} {acc : EndpointState × Bool} (hnodup : rest.Nodup)
    (hrest : ∀ entry ∈ rest, entry ∈ program.transferSteps)
    (hheads : ∀ entry ∈ rest, ∀ head ∈ base.heads program,
      head.2.stepId = entry.2.1 ∨ head.2.stepId = entry.2.2 → head ∈ acc.1.heads program) :
    BatchRun program acc (rest.foldl (transferStep program (base.heads program)) acc)
      (∀ entry ∈ rest,
        ¬ transferReady program ((base.heads program).map (·.2.stepId)) acc.1 entry) := by
  induction rest generalizing acc with
  | nil => exact ⟨.refl, fun _ => ⟨rfl, by simp⟩, fun hbefore hafter => by simp_all⟩
  | cons entry rest ih =>
    rw [List.nodup_cons] at hnodup
    rw [List.foldl_cons]
    have hentry := hrest entry List.mem_cons_self
    by_cases hpossible :
        transferReady program ((base.heads program).map (·.2.stepId)) acc.1 entry
    · obtain ⟨first, hfirst, hfirstId⟩ := List.mem_map.mp hpossible.1.1
      obtain ⟨second, hsecond, hsecondId⟩ := List.mem_map.mp hpossible.1.2
      have hpair : ([first, second].map (·.1)).Nodup :=
        (MoveHeads.transfer hentry hfirstId hsecondId).nodup hcover (s := base) (by
          intro head hhead
          rcases List.mem_pair.mp hhead with rfl | rfl
          · exact hfirst
          · exact hsecond)
      -- the heads that the source completes are the two of the transfer
      have hnamed : ∀ head, head ∈ (base.heads program).filter (fun head =>
          head.2.stepId = entry.2.1 ∨ head.2.stepId = entry.2.2) ↔ head ∈ [first, second] := by
        intro head
        rw [List.mem_filter, decide_eq_true_iff, List.mem_pair]
        constructor
        · rintro ⟨hhead, hid | hid⟩
          · exact .inl (EndpointState.head_of_id hhead hfirst (hid.trans hfirstId.symm))
          · exact .inr (EndpointState.head_of_id hhead hsecond (hid.trans hsecondId.symm))
        · rintro (rfl | rfl)
          · exact ⟨hfirst, .inl hfirstId⟩
          · exact ⟨hsecond, .inr hsecondId⟩
      have hstep : transferStep program (base.heads program) acc entry =
          ([first, second].foldl EndpointState.complete acc.1, true) := by
        rw [transferStep, if_pos hpossible, EndpointState.foldl_complete_congr
          ((EndpointState.heads_keys_nodup program base).sublist (List.filter_sublist.map _))
          hpair hnamed]
      have hmove : EndpointMove program acc.1
          ([first, second].foldl EndpointState.complete acc.1) :=
        .transfer hentry (hheads entry List.mem_cons_self first hfirst (.inl hfirstId)) hfirstId
          (hheads entry List.mem_cons_self second hsecond (.inr hsecondId)) hsecondId
          ((ready_of_head hfirst hfirstId).mp hpossible.2.1)
          ((ready_of_head hsecond hsecondId).mp hpossible.2.2)
      rw [hstep]
      refine BatchRun.after_move hmove (ih hnodup.2
        (fun other hother => hrest other (List.mem_cons_of_mem _ hother))
        fun other hother head hhead hid => ?_)
      refine EndpointState.head_foldl hpair
        (hheads other (List.mem_cons_of_mem _ hother) head hhead hid) fun hkey => ?_
      obtain ⟨named, hmem, hkey⟩ := List.mem_map.mp hkey
      have hnamedHead := (hnamed named).mpr hmem
      obtain ⟨hbase, hnamedId⟩ := List.mem_filter.mp hnamedHead
      obtain rfl := EndpointState.head_unique hbase hhead hkey
      have hsame := Covered.unique hcover hentry (hrest other (List.mem_cons_of_mem _ hother))
        (decide_eq_true_iff.mp hnamedId) hid
      exact hnodup.1 (hsame ▸ hother)
    · have hstep : transferStep program (base.heads program) acc entry = acc := if_neg hpossible
      rw [hstep]
      have hmore := ih hnodup.2 (fun other hother => hrest other (List.mem_cons_of_mem _ hother))
        fun other hother => hheads other (List.mem_cons_of_mem _ hother)
      refine ⟨hmore.moves, fun hidle => ?_, hmore.busy⟩
      obtain ⟨hsame, hstuck⟩ := hmore.idle hidle
      exact ⟨hsame, List.forall_mem_cons.mpr ⟨hpossible, hstuck⟩⟩

/-! ## The simulation -/

/-- No move is possible. -/
def Stuck (program : ThreadblockProgram) (s : EndpointState) : Prop :=
  ∀ t, ¬ EndpointMove program s t

/-- What the simulation reports of a state. -/
def verdict (program : ThreadblockProgram) (s : EndpointState) : DeadlockResult where
  deadlocked := decide (s.heads program ≠ [])
  completedStepIds := s.completed
  blockedTransferIds := blockedTransfers (s.heads program)
  tbHeads := (s.heads program).map fun head => (head.1, head.2.stepId)

theorem sortHeads_perm (current : List ((ℕ × ℕ) × XmlStep)) : (sortHeads current).Perm current :=
  List.perm_insertionSort _ _

theorem sortTransfers_perm (program : ThreadblockProgram) :
    (sortTransfers program).Perm program.transferSteps := List.perm_insertionSort _ _

theorem stuck_of_no_heads (h : s.heads program = []) : Stuck program s := by
  rintro t (⟨hhead, -, -⟩ | ⟨-, hfirst, -, -, -, -, -⟩)
  · rw [h] at hhead
    cases hhead
  · rw [h] at hfirst
    cases hfirst

/-- A state in which both batches find nothing is stuck. -/
theorem stuck_of_idle
    (hlocal : ∀ head ∈ s.heads program, ¬ (head.2.xmlType.isLocal = true ∧ s.Ready head.2))
    (htransfer : ∀ entry ∈ program.transferSteps,
      ¬ transferReady program ((s.heads program).map (·.2.stepId)) s entry) : Stuck program s := by
  rintro t (⟨hhead, hisLocal, hready⟩ |
    ⟨hentry, hfirst, hfirstId, hsecond, hsecondId, hfirstReady, hsecondReady⟩)
  · exact hlocal _ hhead ⟨hisLocal, hready⟩
  · refine htransfer _ hentry ⟨⟨?_, ?_⟩, ?_, ?_⟩
    · exact hfirstId ▸ List.mem_map_of_mem hfirst
    · exact hsecondId ▸ List.mem_map_of_mem hsecond
    · exact (ready_of_head hfirst hfirstId).mpr hfirstReady
    · exact (ready_of_head hsecond hsecondId).mpr hsecondReady

/-- **The loop ends in a state without moves, and reports it.** -/
theorem simulateLoop_ends (hcover : program.Covered) {turns : ℕ} {s : EndpointState}
    (hturns : remaining program s < turns) :
    ∃ final, Relation.ReflTransGen (EndpointMove program) s final ∧ Stuck program final ∧
      simulateLoop program turns s = some (verdict program final) := by
  induction turns generalizing s with
  | zero => omega
  | succ turns ih =>
    -- a batch with progress leaves fewer steps
    have hless : ∀ {t}, Relation.TransGen (EndpointMove program) s t →
        remaining program t < turns := by
      intro t ht
      have hmeasure : remaining program t < remaining program s := by
        induction ht with
        | single hmove => exact hmove.remaining_lt
        | tail _ hmove ih => exact hmove.remaining_lt.trans ih
      omega
    by_cases hheads : s.heads program = []
    · refine ⟨s, .refl, stuck_of_no_heads hheads, ?_⟩
      simp [simulateLoop, verdict, hheads, blockedTransfers]
    · have halone : BatchRun program (s, false)
          ((sortHeads (s.heads program)).foldl localStep (s, false)) _ :=
        localBatch (((sortHeads_perm _).map (·.1)).nodup_iff.mpr
          (EndpointState.heads_keys_nodup program s)) fun _ hhead => (sortHeads_perm _).mem_iff.mp hhead
      cases hfirst : ((sortHeads (s.heads program)).foldl localStep (s, false)).2 with
      | true =>
        have hrun := halone.busy rfl hfirst
        obtain ⟨final, hfinal, hstuck, hloop⟩ := ih (hless hrun)
        refine ⟨final, hrun.to_reflTransGen.trans hfinal, hstuck, ?_⟩
        simp only [simulateLoop, hheads, if_false, hfirst, if_true]
        exact hloop
      | false =>
        obtain ⟨hsame, hlocal⟩ := halone.idle hfirst
        have hpaired : BatchRun program (s, false)
            ((sortTransfers program).foldl (transferStep program (s.heads program)) (s, false)) _ :=
          transferBatch hcover ((sortTransfers_perm program).nodup_iff.mpr
              (List.Nodup.of_map _ program.transfers_unique))
            (fun _ hentry => (sortTransfers_perm program).mem_iff.mp hentry)
            fun _ _ _ hhead _ => hhead
        cases hsecond : ((sortTransfers program).foldl
            (transferStep program (s.heads program)) (s, false)).2 with
        | true =>
          have hrun := hpaired.busy rfl hsecond
          obtain ⟨final, hfinal, hstuck, hloop⟩ := ih (hless hrun)
          refine ⟨final, hrun.to_reflTransGen.trans hfinal, hstuck, ?_⟩
          simp only [simulateLoop, hheads, if_false, hsame, Bool.false_eq_true, hsecond, if_true]
          exact hloop
        | false =>
          obtain ⟨hsame', htransfer⟩ := hpaired.idle hsecond
          refine ⟨s, .refl, ?_, ?_⟩
          · exact stuck_of_idle
              (fun head hhead => hlocal head ((sortHeads_perm _).mem_iff.mpr hhead))
              fun entry hentry => htransfer entry ((sortTransfers_perm program).mem_iff.mpr hentry)
          · simp only [simulateLoop, hheads, if_false, hsame, Bool.false_eq_true, hsame', verdict]
            simp [hheads]

/-- There is no run without end. -/
theorem no_endless_run (run : ℕ → EndpointState) :
    ¬ ∀ n, EndpointMove program (run n) (run (n + 1)) := by
  intro hrun
  have hless : ∀ n, remaining program (run n) + n ≤ remaining program (run 0) := by
    intro n
    induction n with
    | zero => simp
    | succ n ih =>
      have := (hrun n).remaining_lt
      omega
  have := hless (remaining program (run 0) + 1)
  omega

/-- A maximal run from the start ends in the state. -/
def EndsIn (program : ThreadblockProgram) (final : EndpointState) : Prop :=
  Relation.ReflTransGen (EndpointMove program) .start final ∧ Stuck program final

end Moves

/-- **The verdict is that of every run.**  The loop needs at most one turn more than there are
steps.  Runs cannot go on for ever; some run that cannot be continued exists, and however such a
run executes the steps, its last state has completed the steps that are reported, stops early
exactly when a deadlock is reported, and has the heads and waiting transfers of the report. -/
theorem simulate_every_run (program : ThreadblockProgram) (hcover : program.Covered) :
    ∃ result, (∀ turns, program.steps.length < turns →
        simulateLoop program turns .start = some result) ∧
      (∀ run : ℕ → EndpointState, run 0 = .start →
        ¬ ∀ n, EndpointMove program (run n) (run (n + 1))) ∧
      (∃ final, EndsIn program final) ∧
      ∀ final, EndsIn program final →
        result.completedStepIds = final.completed ∧
        (result.deadlocked = true ↔ StopsEarly program final) ∧
        result.blockedTransferIds = blockedTransfers (final.heads program) ∧
        result.tbHeads = (final.heads program).map fun head => (head.1, head.2.stepId) := by
  have hloop : ∀ turns, program.steps.length < turns → ∃ final, EndsIn program final ∧
      simulateLoop program turns .start = some (verdict program final) := by
    intro turns hturns
    obtain ⟨final, hrun, hstuck, hresult⟩ :=
      simulateLoop_ends hcover (by rwa [remaining_start] : remaining program .start < turns)
    exact ⟨final, ⟨hrun, hstuck⟩, hresult⟩
  have hunique : ∀ a b, EndsIn program a → EndsIn program b → a = b := fun a b ha hb =>
    ends_unique (fun _ _ _ => move_diamond hcover) ha.1 hb.1 ha.2 hb.2
  obtain ⟨final, hfinal, -⟩ := hloop _ (Nat.lt_succ_self _)
  refine ⟨verdict program final, fun turns hturns => ?_, fun run _ => no_endless_run run,
    ⟨final, hfinal⟩, fun other hother => ?_⟩
  · obtain ⟨last, hlast, hresult⟩ := hloop turns hturns
    rw [hresult, hunique last final hlast hfinal]
  · obtain rfl := hunique final other hfinal hother
    have hprogressed := (progressed_start program).run hcover hfinal.1
    refine ⟨rfl, ?_, rfl, rfl⟩
    rw [hprogressed.stopsEarly_iff, verdict, decide_eq_true_iff]

/-- A step of transfer `transferId` between two ranks on channel 0. -/
def exchangeStep (stepId transferId : String) (xmlType : EndpointType) (rank : ℕ)
    (dependency : Option String) (hasDependence : Bool) : XmlStep :=
  ⟨stepId, transferId, xmlType, rank, 1 - rank, 0, dependency, hasDependence⟩

/-- A thread block of one such step. -/
def exchangeBlock (rank tbId : ℕ) (direction : BlockDirection) (step : XmlStep)
    (hdirection : direction ≠ .copy) (hpeer : (0 : ℤ) ≤ 1 - rank)
    (hrank : step.rank = rank ∧ step.peer = 1 - rank ∧ step.channel = 0)
    (htype : step.xmlType ∈ direction.allowed) : Threadblock where
  key := ⟨rank, direction, 1 - rank, 0, fun h => absurd h hdirection,
    fun _ => ⟨hpeer, le_rfl, by omega⟩⟩
  tbId := tbId
  steps := [step]
  rank_ok := by simpa using hrank.1
  lane_ok := by simpa using hrank.2
  type_ok := by simpa using htype

/-- Two ranks that each receive before they send. -/
def exchangeProgram : ThreadblockProgram where
  threadblocks := [
    exchangeBlock 0 0 .send (exchangeStep "s0" "forth" .send 0 (some "r0") false)
      (by decide) (by decide) (by decide) (by decide),
    exchangeBlock 0 1 .recv (exchangeStep "r0" "back" .recv 0 none true)
      (by decide) (by decide) (by decide) (by decide),
    exchangeBlock 1 0 .send (exchangeStep "s1" "back" .send 1 (some "r1") false)
      (by decide) (by decide) (by decide) (by decide),
    exchangeBlock 1 1 .recv (exchangeStep "r1" "forth" .recv 1 none true)
      (by decide) (by decide) (by decide) (by decide)]
  transferSteps := [("back", "s1", "r0"), ("forth", "s0", "r1")]
  referencedStepIds := {"r0", "r1"}
  blocks_unique := by decide +kernel
  steps_unique := by decide +kernel
  transfers_unique := by
    unfold Dict.Distinct
    decide +kernel
  transfers_known := by decide +kernel
  referenced_known := by decide +kernel
  dependencies_ok := by decide +kernel
  flags_ok := by decide +kernel

theorem simulate_every_run_exchange :
    exchangeProgram.Covered ∧ ∀ final, EndsIn exchangeProgram final →
      StopsEarly exchangeProgram final ∧
        blockedTransfers (final.heads exchangeProgram) = {"back", "forth"} := by
  have hcover : exchangeProgram.Covered := by
    unfold ThreadblockProgram.Covered
    decide +kernel
  obtain ⟨result, hresult, -, -, hevery⟩ := simulate_every_run exchangeProgram hcover
  have hsimulated : simulateLoop exchangeProgram 5 .start = some
      { deadlocked := true, completedStepIds := ∅, blockedTransferIds := {"back", "forth"},
        tbHeads := [((0, 0), "s0"), ((0, 1), "r0"), ((1, 0), "s1"), ((1, 1), "r1")] } := by
    decide +kernel
  obtain rfl := Option.some.inj ((hresult 5 (by decide)).symm.trans hsimulated)
  refine ⟨hcover, fun final hfinal => ?_⟩
  obtain ⟨-, hdeadlocked, hblocked, -⟩ := hevery final hfinal
  exact ⟨hdeadlocked.mp rfl, hblocked.symm⟩

end VeriCCL
