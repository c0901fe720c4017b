import VeriCCL.ProgramDependencies

/-! # Endpoints of an accepted program

An endpoint is a step that does work, at its place in its block.  An accepted
program has, for every operation, one local endpoint or one send and one receive
on blocks that face each other; an operation therefore has at most one endpoint on
a rank.  `Accepted.level` turns the topological order of the operations into a
number per operation that every edge increases, which is what inductions on an
accepted program run on. -/
namespace VeriCCL

/-- `step` is step `i` of a block of the program, and does work. -/
structure Endpoint (program : NativeProgram) (block : NativeBlock) (i : ℕ)
    (step : NativeStep) : Prop where
  block_mem : block ∈ program.blocks
  at_index : block.steps[i]? = some step
  works : step.kind ≠ .nop

/-- All steps with their places. -/
def occurrences (program : NativeProgram) : List (NativeBlock × ℕ × NativeStep) :=
  program.blocks.flatMap fun block => block.steps.zipIdx.map fun e => (block, e.2, e.1)

/-- The endpoints of an operation, with their places. -/
def endpointPlaces (program : NativeProgram) (operation : String) :
    List (NativeBlock × ℕ × NativeStep) :=
  (occurrences program).filter fun e => e.2.2.kind ≠ .nop ∧ e.2.2.operationId = operation

theorem mem_endpointPlaces {program : NativeProgram} {operation : String} {block : NativeBlock}
    {i : ℕ} {step : NativeStep} :
    (block, i, step) ∈ endpointPlaces program operation ↔
      Endpoint program block i step ∧ step.operationId = operation := by
  have hocc : (block, i, step) ∈ occurrences program ↔
      block ∈ program.blocks ∧ block.steps[i]? = some step := by
    simp only [occurrences, List.mem_flatMap, List.mem_map, Prod.mk.injEq]
    constructor
    · rintro ⟨b, hb, ⟨st, k⟩, he, rfl, rfl, rfl⟩
      exact ⟨hb, by simpa [List.mem_zipIdx_iff_getElem?] using he⟩
    · rintro ⟨hb, hi⟩
      exact ⟨block, hb, (step, i), by simpa [List.mem_zipIdx_iff_getElem?] using hi, rfl, rfl, rfl⟩
  simp only [endpointPlaces, List.mem_filter, hocc, decide_eq_true_eq]
  constructor
  · rintro ⟨⟨hb, hi⟩, hk, hop⟩
    exact ⟨⟨hb, hi, hk⟩, hop⟩
  · rintro ⟨⟨hb, hi, hk⟩, hop⟩
    exact ⟨⟨hb, hi⟩, hk, hop⟩

/-- Forgetting the places gives the endpoints of the source. -/
theorem endpointPlaces_map (program : NativeProgram) (operation : String) :
    (endpointPlaces program operation).map (fun e => (e.1, e.2.2)) =
      endpointsOf program operation := by
  have hsteps : ∀ block : NativeBlock,
      ((block.steps.zipIdx.map fun e => (block, e.2, e.1)).filter
          fun e : NativeBlock × ℕ × NativeStep =>
            e.2.2.kind ≠ .nop ∧ e.2.2.operationId = operation).map (fun e => (e.1, e.2.2)) =
        ((block.steps.filter (fun step => step.kind ≠ .nop)).map fun step => (block, step)).filter
          (fun m => m.2.operationId = operation) := by
    intro block
    conv_rhs => rw [← List.zipIdx_map_fst (l := block.steps) (i := 0)]
    simp only [List.filter_map, List.map_map, List.filter_filter]
    congr 1
    refine List.filter_congr fun e _ => ?_
    simp [Bool.and_comm]
  unfold endpointPlaces endpointsOf occurrences workSteps
  rw [List.filter_flatMap, List.map_flatMap, List.filter_flatMap]
  exact List.flatMap_congr fun block _ => hsteps block

section Matched
variable {program : NativeProgram} {result : ExecutionDependencies}

/-- The two shapes of an operation that `checkEndpoints` lets through. -/
theorem checkEndpoints_cases {members : List (NativeBlock × NativeStep)}
    (h : checkEndpoints members = .ok ()) :
    (∃ block step, members = [(block, step)] ∧ (step.kind = .cpy ∨ step.kind = .re)) ∨
    (members.length = 2 ∧ ∃ sb ss rb rs, members.filter (fun m => m.2.kind = .s) = [(sb, ss)] ∧
      members.filter (fun m => m.2.kind.receives) = [(rb, rs)] ∧
      sb.sendPeer = rb.rank ∧ rb.recvPeer = sb.rank ∧ sb.channel = rb.channel) := by
  unfold checkEndpoints at h
  split at h
  · exact Or.inl ⟨_, _, rfl, by simpa using h⟩
  · split at h
    · rename_i hlen hs hr
      exact Or.inr ⟨hlen, _, _, _, _, hs, hr, by simpa using h⟩
    · simp at h

/-- A list of two, of which one satisfies `p` and another `q`, has no third kind. -/
theorem mem_of_two_filters {α : Type} {p q : α → Bool} {l : List α} {a b : α}
    (hlen : l.length = 2) (hp : l.filter p = [a]) (hq : l.filter q = [b]) (hab : a ≠ b) :
    ∀ c ∈ l, c = a ∨ c = b := by
  have ha : a ∈ l := (List.mem_filter.mp (by rw [hp]; exact List.mem_singleton_self a)).1
  have hb : b ∈ l := (List.mem_filter.mp (by rw [hq]; exact List.mem_singleton_self b)).1
  obtain ⟨c, d, rfl⟩ := List.length_eq_two.mp hlen
  intro e he
  simp only [List.mem_cons, List.not_mem_nil, or_false] at ha hb he
  rcases ha with rfl | rfl <;> rcases hb with rfl | rfl <;> tauto

theorem eq_of_filter_singleton {α β : Type} {p : β → Bool} {f : α → β} {l : List α} {c : β}
    (h : (l.map f).filter p = [c]) {a b : α} (ha : a ∈ l) (hb : b ∈ l) (hpa : p (f a) = true)
    (hpb : p (f b) = true) : a = b := by
  rw [List.filter_map, List.map_eq_singleton_iff] at h
  obtain ⟨d, hd, -⟩ := h
  have hin : ∀ e ∈ l, p (f e) = true → e = d := by
    intro e he hpe
    have : e ∈ l.filter (p ∘ f) := List.mem_filter.mpr ⟨he, hpe⟩
    rw [hd] at this
    exact List.mem_singleton.mp this
  rw [hin a ha hpa, hin b hb hpb]

/-- **The endpoints of an operation**: all are local and at one place, or it is a
transfer whose sends are at one place, whose receives are at one place, and whose
two blocks face each other. -/
inductive Shape (program : NativeProgram) (x : String) : Prop where
  | alone (block : NativeBlock) (i : ℕ) (step : NativeStep)
      (endpoint : Endpoint program block i step) (operation : step.operationId = x)
      (kind : step.kind = .cpy ∨ step.kind = .re)
      (only : ∀ b j st, Endpoint program b j st → st.operationId = x →
        (b, j, st) = (block, i, step))
  | transfer (sb : NativeBlock) (i : ℕ) (ss : NativeStep) (rb : NativeBlock) (j : ℕ)
      (rs : NativeStep) (send : Endpoint program sb i ss) (receive : Endpoint program rb j rs)
      (sendOperation : ss.operationId = x) (receiveOperation : rs.operationId = x)
      (sendKind : ss.kind = .s) (receiveKind : rs.kind.receives = true)
      (facing : sb.sendPeer = rb.rank ∧ rb.recvPeer = sb.rank ∧ sb.channel = rb.channel)
      (only : ∀ b k st, Endpoint program b k st → st.operationId = x →
        (b, k, st) = (sb, i, ss) ∨ (b, k, st) = (rb, j, rs))

/-- **Every operation of an accepted program has one of the two shapes.** -/
theorem Accepted.shape (h : Accepted program result) {block : NativeBlock} {i : ℕ}
    {step : NativeStep} (he : Endpoint program block i step) :
    Shape program step.operationId := by
  have hplace := mem_endpointPlaces.mpr ⟨he, rfl⟩
  have hmap := endpointPlaces_map program step.operationId
  have hne : endpointsOf program step.operationId ≠ [] := by
    rw [← hmap]
    exact List.ne_nil_of_mem (List.mem_map.mpr ⟨_, hplace, rfl⟩)
  rcases checkEndpoints_cases (h.matched _ hne) with
    ⟨b, st, hone, hk⟩ | ⟨hlen, sb, ss, rb, rs, hs, hr, hface⟩
  · rw [← hmap, List.map_eq_singleton_iff] at hone
    obtain ⟨⟨b', j, st'⟩, hsingle, heq⟩ := hone
    obtain ⟨rfl, rfl⟩ := Prod.mk.inj heq
    have hmem := mem_endpointPlaces.mp (hsingle ▸ List.mem_singleton_self _ :
      (b', j, st') ∈ endpointPlaces program step.operationId)
    refine .alone b' j st' hmem.1 hmem.2 hk fun b k st hb hop => ?_
    have := mem_endpointPlaces.mpr ⟨hb, hop⟩
    rw [hsingle] at this
    exact List.mem_singleton.mp this
  · have hplaceOf : ∀ b st, (b, st) ∈ endpointsOf program step.operationId →
        ∃ k, (b, k, st) ∈ endpointPlaces program step.operationId := by
      intro b st hb
      rw [← hmap] at hb
      obtain ⟨⟨b', k, st'⟩, hk, heq⟩ := List.mem_map.mp hb
      obtain ⟨rfl, rfl⟩ := Prod.mk.inj heq
      exact ⟨k, hk⟩
    obtain ⟨hsm, hsk⟩ := List.mem_filter.mp (hs ▸ List.mem_singleton_self _ :
      (sb, ss) ∈ (endpointsOf program step.operationId).filter _)
    obtain ⟨hrm, hrk⟩ := List.mem_filter.mp (hr ▸ List.mem_singleton_self _ :
      (rb, rs) ∈ (endpointsOf program step.operationId).filter _)
    simp only [decide_eq_true_eq] at hsk
    obtain ⟨i', hi'⟩ := hplaceOf sb ss hsm
    obtain ⟨j', hj'⟩ := hplaceOf rb rs hrm
    have hdiff : (sb, ss) ≠ (rb, rs) := by
      intro heq
      obtain ⟨rfl, rfl⟩ := Prod.mk.inj heq
      simp [hsk, StepKind.receives] at hrk
    refine .transfer sb i' ss rb j' rs (mem_endpointPlaces.mp hi').1 (mem_endpointPlaces.mp hj').1
      (mem_endpointPlaces.mp hi').2 (mem_endpointPlaces.mp hj').2 hsk hrk hface
      fun b k st hb hop => ?_
    have hp := mem_endpointPlaces.mpr ⟨hb, hop⟩
    have hmem : (b, st) ∈ endpointsOf program step.operationId := by
      rw [← hmap]
      exact List.mem_map.mpr ⟨_, hp, rfl⟩
    rcases mem_of_two_filters hlen hs hr hdiff _ hmem with heq | heq
    · obtain ⟨rfl, rfl⟩ := Prod.mk.inj heq
      exact Or.inl (eq_of_filter_singleton (hmap ▸ hs) hp hi' (by simpa using hsk)
        (by simpa using hsk))
    · obtain ⟨rfl, rfl⟩ := Prod.mk.inj heq
      exact Or.inr (eq_of_filter_singleton (hmap ▸ hr) hp hj' hrk hrk)

/-- **An operation has at most one endpoint on a rank**: the ends of a transfer are
on different ranks because no block faces its own. -/
theorem Accepted.unique_on_rank (h : Accepted program result) (hfits : Fits program)
    {b c : NativeBlock} {i j : ℕ} {a d : NativeStep} (hb : Endpoint program b i a)
    (hc : Endpoint program c j d) (hop : a.operationId = d.operationId) (hrank : b.rank = c.rank) :
    (b, i, a) = (c, j, d) := by
  rcases h.shape hb with ⟨block, k, step, -, -, -, only⟩ |
    ⟨sb, k, ss, rb, l, rs, hsend, -, -, -, -, -, ⟨hpeer, -, -⟩, only⟩
  · rw [only b i a hb rfl, only c j d hc hop.symm]
  · have hne : sb.rank ≠ rb.rank := by
      intro heq
      have hpos : sb.sendPeer ≠ -1 := by omega
      exact (hfits.send_peer sb hsend.block_mem hpos).2.2 (by omega)
    rcases only b i a hb rfl with h1 | h1 <;> rcases only c j d hc hop.symm with h2 | h2
    · rw [h1, h2]
    · exact absurd (by rw [← (Prod.mk.inj h1).1, ← (Prod.mk.inj h2).1, hrank]) hne
    · exact absurd (by rw [← (Prod.mk.inj h1).1, ← (Prod.mk.inj h2).1, hrank]) hne
    · rw [h1, h2]

end Matched

/-! ## Levels -/

section Level
variable {program : NativeProgram} {result : ExecutionDependencies}

theorem Accepted.edge_key (h : Accepted program result) {p x : String} (he : result.Edge p x) :
    x ∈ result.byOp.keys := by
  rw [← h.keys, ← Dict.get?_isSome]
  unfold ExecutionDependencies.Edge at he
  cases hx : result.dependencies.get? x with
  | none => simp [hx] at he
  | some s => exact ⟨s, rfl⟩

theorem Accepted.endpoint_key (h : Accepted program result) {block : NativeBlock} {i : ℕ}
    {step : NativeStep} (he : Endpoint program block i step) :
    step.operationId ∈ result.byOp.keys := by
  rw [← Dict.get?_isSome, h.endpoints]
  have hmem : (block, step) ∈ endpointsOf program step.operationId :=
    mem_endpointsOf.mpr ⟨he.block_mem, List.mem_of_getElem? he.at_index, he.works, rfl⟩
  exact ⟨_, if_neg (List.ne_nil_of_mem hmem)⟩

/-- **Every edge goes up**: the place in the topological order is a level that edges
increase and that tells operations apart. -/
theorem Accepted.level (h : Accepted program result) : ∃ level : String → ℕ,
    (∀ p x, result.Edge p x → level p < level x) ∧
    ∀ x y, x ∈ result.byOp.keys → level x = level y → x = y := by
  obtain ⟨order, hnodup, hkeys, htop⟩ := h.topological
  refine ⟨order.idxOf, ?_, ?_⟩
  · intro p x he
    obtain ⟨l, r, rfl, hp⟩ := htop p x (h.edge_key he) he
    have hx : x ∉ l := by
      intro hx
      have := List.nodup_append.mp hnodup
      exact this.2.2 x hx x List.mem_cons_self rfl
    show List.idxOf p (l ++ x :: r) < List.idxOf x (l ++ x :: r)
    rw [List.idxOf_append_of_mem hp, List.idxOf_append_of_notMem hx]
    have := List.idxOf_lt_length_of_mem hp
    omega
  · intro x y hx hxy
    exact (List.idxOf_inj ((hkeys x).mpr hx)).mp hxy

/-- Paths do not go down. -/
theorem level_le_of_path {level : String → ℕ} (hlevel : ∀ p x, result.Edge p x → level p < level x)
    {p x : String} (h : Relation.ReflTransGen result.Edge p x) : level p ≤ level x := by
  induction h with
  | refl => exact Nat.le_refl _
  | tail _ he ih => exact ih.trans (hlevel _ _ he).le

end Level

/-- What the step table holds is a step of a block with that identity. -/
theorem stepTable_get? {program : NativeProgram} {rank tb k : ℕ} {step : NativeStep}
    (h : (stepTable program).get? (rank, tb, k) = some step) :
    ∃ block ∈ program.blocks, block.key = (rank, tb) ∧ block.steps[k]? = some step := by
  have hmem := Dict.mem_of_ofList_get? h
  simp only [locatedSteps, List.mem_flatMap, List.mem_map, Prod.mk.injEq] at hmem
  obtain ⟨block, hb, ⟨st, j⟩, he, ⟨hrank, htb, hj⟩, hst⟩ := hmem
  refine ⟨block, hb, Prod.ext hrank htb, ?_⟩
  subst hj hst
  simpa [List.mem_zipIdx_iff_getElem?] using he

/-- Blocks of one identity are one block. -/
theorem Fits.block_unique {program : NativeProgram} (h : Fits program) {a b : NativeBlock}
    (ha : a ∈ program.blocks) (hb : b ∈ program.blocks) (hkey : a.key = b.key) : a = b := by
  by_contra hne
  obtain ⟨i, hi, rfl⟩ := List.mem_iff_getElem.mp ha
  obtain ⟨j, hj, rfl⟩ := List.mem_iff_getElem.mp hb
  have hpair := List.pairwise_iff_getElem.mp h.keys_distinct
  rcases Nat.lt_trichotomy i j with hij | rfl | hij
  · exact hpair i j hi hj hij hkey
  · exact hne rfl
  · exact hpair j i hj hi hij hkey.symm

/-- The target of a wait is a working step of a block of the same rank, and its
coordinates name it. -/
theorem Accepted.wait_target {program : NativeProgram} {result : ExecutionDependencies}
    (h : Accepted program result) {block : NativeBlock} (hb : block ∈ program.blocks) {i : ℕ}
    {step : NativeStep} (hi : block.steps[i]? = some step) (hwait : 0 ≤ step.dependencyTb) :
    ∃ target k st x, Endpoint program target k st ∧
      target.key = (block.rank, step.dependencyTb.toNat) ∧ (k : ℤ) = step.dependencyStep ∧
      workAt block.steps i = some x ∧ result.Edge st.operationId x ∧
      ¬ (target = block ∧ i ≤ k) := by
  obtain ⟨st, x, htarget, hkind, -, hlater, hx, hedge, -⟩ := h.wait block hb i step hi hwait
  unfold dependencyTarget at htarget
  split at htarget
  · rename_i hpos
    obtain ⟨target, ht, hkey, hk⟩ := stepTable_get? htarget
    refine ⟨target, _, st, x, ⟨ht, hk, hkind⟩, hkey, Int.toNat_of_nonneg hpos.2, hx, hedge, ?_⟩
    rintro ⟨rfl, hle⟩
    have htb : target.tbId = step.dependencyTb.toNat := congrArg Prod.snd hkey
    exact hlater ⟨by omega, by omega⟩
  · simp at htarget

end VeriCCL
