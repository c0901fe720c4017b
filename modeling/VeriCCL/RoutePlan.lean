import VeriCCL.Gathering
import VeriCCL.RouteSemantics

/-! # A route's operations are a plan

The two loops of `_physical_operation` keep what their operations record up to date: a
reduction records the contributions and the dependencies of its source when nothing into the
source is pending, and they do not change any more (`Reduction.Inv.step`).  So the operations
are those of a plan to gather and to spread (`routePlan`), in an order that keeps to its waits
(`physicalOperation_plan`). -/
namespace VeriCCL

open Gathering (Transfer Plan)

/-! ## Links -/

/-- The resources of a link. -/
def linkResources (topology : Topology) (edge : ℕ × ℕ) : List String :=
  ((topology.links.get? edge).map (·.resourceIds)).getD []

theorem link_ok {topology : Topology} {src dst : ℕ} {link : DirectedLink}
    (h : topology.link src dst = .ok link) :
    src ≠ dst ∧ link.resourceIds = linkResources topology (src, dst) := by
  simp only [Topology.link, Checked.bind_ok, Checked.ensure_ok, Checked.required_ok] at h
  obtain ⟨-, hne, hget⟩ := h
  exact ⟨hne, by simp [linkResources, hget]⟩

/-! ## The loop over the reduction edges -/

namespace Reduction

/-- What comes together in a rank. -/
def carried (s : Reduction) (rank : ℕ) : Finset ℕ := (s.contributors.get? rank).getD ∅

section Loop
variable (inputs : ResolvedInput) (topology : Topology) (demand : RoutingDemand)

/-- The reduction along an edge, by what is known of its source now. -/
def operationAt (s : Reduction) (edge : ℕ × ℕ) : RouteOperation where
  operationId := reductionId demand edge
  demandId := demand.demandId
  kind := .rrc
  edge := edge
  logicalPosition := demand.logicalPosition
  contributors := s.carried edge.1
  payloadBytes := inputs.sliceSizeBytes
  stageId := 0
  dependencies := (s.incoming edge.1).toFinset
  resources := linkResources topology edge

/-- What the loop keeps: the edges that are done, in their order, and what is known of ranks.
An edge is done after all edges into its source. -/
structure Inv (first : Dict ℕ (Finset ℕ)) (edges done : List (ℕ × ℕ)) (s : Reduction) : Prop where
  nodup : done.Nodup
  edges_of : ∀ e ∈ done, e ∈ edges
  sorted : ∀ l e r, done = l ++ e :: r → ∀ x, (x, e.1) ∈ edges → (x, e.1) ∈ l
  operations : s.operations = done.map (s.operationAt inputs topology demand)
  incoming : ∀ v, s.incoming v = (done.filter (·.2 = v)).map (reductionId demand)
  held : ∀ v, s.contributors.get? v = (first.get? v).map fun own =>
    own ∪ (done.toFinset.filter (·.2 = v)).biUnion fun e => s.carried e.1
  known : ∀ e ∈ done, first.get? e.1 ≠ none ∧ first.get? e.2 ≠ none
  links : ∀ e ∈ done, ∃ link, topology.link e.1 e.2 = .ok link

end Loop

section Step
variable {inputs : ResolvedInput} {topology : Topology} {demand : RoutingDemand}
  {first : Dict ℕ (Finset ℕ)} {edges done : List (ℕ × ℕ)} {s t : Reduction} {e : ℕ × ℕ}

/-- An edge into the source of an edge that is done is done. -/
theorem Inv.closed (h : s.Inv inputs topology demand first edges done) {a : ℕ × ℕ} (ha : a ∈ done)
    {x : ℕ} (hx : (x, a.1) ∈ edges) : (x, a.1) ∈ done := by
  obtain ⟨l, r, rfl⟩ := List.mem_iff_append.mp ha
  exact List.mem_append_left _ (h.sorted l a r rfl x hx)

theorem Inv.known_iff (h : s.Inv inputs topology demand first edges done) (v : ℕ) :
    s.contributors.get? v ≠ none ↔ first.get? v ≠ none := by
  rw [h.held v, ne_eq, Option.map_eq_none_iff]

/-- **One reduction** leaves alone what the operations so far have recorded. -/
theorem Inv.step (h : s.Inv inputs topology demand first edges done) (he : e ∈ edges)
    (hnew : e ∉ done) (hready : ∀ x, (x, e.1) ∈ edges → (x, e.1) ∈ done)
    (hstep : reduceEdge inputs topology demand s e = .ok t) :
    t.Inv inputs topology demand first edges (done ++ [e]) := by
  simp only [reduceEdge, Checked.bind_ok, Checked.required_ok, Checked.pure_ok] at hstep
  obtain ⟨held, hheld, link, hlink, prior, hprior, rfl⟩ := hstep
  -- the target is not the source of an edge that is done, nor of this one
  have hself : e.1 ≠ e.2 := (link_ok hlink).1
  have hold : ∀ a ∈ done, a.1 ≠ e.2 := by
    intro a ha heq
    have hx : (e.1, a.1) ∈ edges := by
      rw [heq]
      exact he
    have := h.closed ha hx
    rw [heq] at this
    exact hnew this
  have hsource : ∀ a ∈ done ++ [e], a.1 ≠ e.2 := by
    intro a ha
    rcases List.mem_append.mp ha with ha | ha
    · exact hold a ha
    · rw [List.mem_singleton.mp ha]
      exact hself
  set t : Reduction := {
    operations := s.operations ++ [{
      operationId := reductionId demand e
      demandId := demand.demandId
      kind := .rrc
      edge := e
      logicalPosition := demand.logicalPosition
      contributors := held
      payloadBytes := inputs.sliceSizeBytes
      stageId := 0
      dependencies := (s.incoming e.1).toFinset
      resources := link.resourceIds }]
    incoming := Function.update s.incoming e.2 (s.incoming e.2 ++ [reductionId demand e])
    contributors := s.contributors.set e.2 (prior ∪ held) } with ht
  have hcarried : ∀ a ∈ done ++ [e], t.carried a.1 = s.carried a.1 := by
    intro a ha
    simp only [carried, ht, Dict.get?_set_ne _ _ (hsource a ha).symm]
  have hincoming : ∀ a ∈ done ++ [e], t.incoming a.1 = s.incoming a.1 := by
    intro a ha
    exact Function.update_of_ne (hsource a ha) _ _
  have hrecorded : ∀ a ∈ done ++ [e], t.operationAt inputs topology demand a =
      s.operationAt inputs topology demand a := by
    intro a ha
    simp only [operationAt, hcarried a ha, hincoming a ha]
  refine ⟨?_, ?_, ?_, ?_, ?_, ?_, ?_, ?_⟩
  · rw [List.nodup_append]
    refine ⟨h.nodup, by simp, fun a ha b hb => ?_⟩
    rw [List.mem_singleton.mp hb]
    rintro rfl
    exact hnew ha
  · intro a ha
    rcases List.mem_append.mp ha with ha | ha
    · exact h.edges_of a ha
    · exact List.mem_singleton.mp ha ▸ he
  · intro l a r hsplit x hx
    rcases List.eq_nil_or_concat r with rfl | ⟨r, z, rfl⟩
    · obtain ⟨rfl, hlast⟩ := List.append_inj' hsplit rfl
      rw [List.singleton_inj] at hlast
      subst hlast
      exact hready x hx
    · have hsplit' : done ++ [e] = (l ++ a :: r) ++ [z] := by simpa using hsplit
      obtain ⟨rfl, -⟩ := List.append_inj' hsplit' rfl
      exact h.sorted l a r rfl x hx
  · rw [List.map_congr_left hrecorded, List.map_append, ← h.operations]
    simp only [ht, List.map_cons, List.map_nil, operationAt, carried, hheld, Option.getD_some,
      (link_ok hlink).2]
  · intro v
    rw [List.filter_append, List.map_append, ← h.incoming v]
    by_cases hv : e.2 = v
    · subst hv
      simp [ht]
    · simp [ht, Function.update_of_ne (Ne.symm hv), hv]
  · intro v
    have hunion : ∀ v, ((done ++ [e]).toFinset.filter (·.2 = v)).biUnion (fun a => t.carried a.1) =
        ((done ++ [e]).toFinset.filter (·.2 = v)).biUnion fun a => s.carried a.1 := by
      intro v
      refine Finset.biUnion_congr rfl fun a ha => hcarried a ?_
      exact List.mem_toFinset.mp (Finset.mem_filter.mp ha).1
    rw [hunion v]
    by_cases hv : e.2 = v
    · subst hv
      rw [h.held e.2] at hprior
      obtain ⟨own, hown, rfl⟩ := Option.map_eq_some_iff.mp hprior
      have hget : t.contributors.get? e.2 = some (_ ∪ held) := Dict.get?_set_self _ _ _
      rw [hget, hown, Option.map_some]
      congr 1
      have hlast : s.carried e.1 = held := by simp [carried, hheld]
      ext c
      simp only [Finset.mem_union, Finset.mem_biUnion, Finset.mem_filter, List.mem_toFinset,
        List.mem_append, List.mem_singleton]
      constructor
      · rintro ((hc | ⟨a, ⟨ha, hv⟩, hc⟩) | hc)
        · exact .inl hc
        · exact .inr ⟨a, ⟨.inl ha, hv⟩, hc⟩
        · exact .inr ⟨e, ⟨.inr rfl, rfl⟩, hlast.symm ▸ hc⟩
      · rintro (hc | ⟨a, ⟨ha | rfl, hv⟩, hc⟩)
        · exact .inl (.inl hc)
        · exact .inl (.inr ⟨a, ⟨ha, hv⟩, hc⟩)
        · exact .inr (hlast ▸ hc)
    · have hget : t.contributors.get? v = s.contributors.get? v := Dict.get?_set_ne _ _ hv
      have hfilter : (done ++ [e]).toFinset.filter (·.2 = v) = done.toFinset.filter (·.2 = v) := by
        ext a
        simp only [Finset.mem_filter, List.mem_toFinset, List.mem_append, List.mem_singleton]
        constructor
        · rintro ⟨ha | rfl, heq⟩
          · exact ⟨ha, heq⟩
          · exact absurd heq hv
        · exact fun hac => ⟨.inl hac.1, hac.2⟩
      rw [hget, h.held v, hfilter]
  · intro a ha
    rcases List.mem_append.mp ha with ha | ha
    · exact h.known a ha
    · rw [List.mem_singleton.mp ha, ← h.known_iff, ← h.known_iff]
      exact ⟨by simp [hheld], by simp [hprior]⟩
  · intro a ha
    rcases List.mem_append.mp ha with ha | ha
    · exact h.links a ha
    · exact List.mem_singleton.mp ha ▸ ⟨link, hlink⟩

/-- **The edges of a round**, one after another. -/
theorem Inv.ready (h : s.Inv inputs topology demand first edges done) {l : List (ℕ × ℕ)}
    (hl : l.Nodup) (hall : ∀ e ∈ l, e ∈ edges ∧ e ∉ done ∧ ∀ x, (x, e.1) ∈ edges → (x, e.1) ∈ done)
    (hrun : l.foldlM (reduceEdge inputs topology demand) s = .ok t) :
    t.Inv inputs topology demand first edges (done ++ l) := by
  induction l generalizing s done with
  | nil =>
    rw [List.foldlM_nil, Checked.pure_ok] at hrun
    rwa [← hrun, List.append_nil]
  | cons e l ih =>
    rw [List.foldlM_cons, Checked.bind_ok] at hrun
    obtain ⟨u, hstep, hrest⟩ := hrun
    rw [List.nodup_cons] at hl
    obtain ⟨he, hnew, hready⟩ := hall e List.mem_cons_self
    have hnext := ih (h.step he hnew hready hstep) hl.2 (fun a ha => ?_) hrest
    · simpa using hnext
    · obtain ⟨ha', hnew', hready'⟩ := hall a (List.mem_cons_of_mem _ ha)
      refine ⟨ha', ?_, fun x hx => List.mem_append_left _ (hready' x hx)⟩
      rw [List.mem_append, List.mem_singleton, not_or]
      exact ⟨hnew', fun heq => hl.1 (heq ▸ ha)⟩

/-- **The loop over the reduction edges** does all of them. -/
theorem Inv.rounds (h : s.Inv inputs topology demand first edges done) {fuel : ℕ}
    {pending : List (ℕ × ℕ)} (hnodup : pending.Nodup)
    (hpending : ∀ e, e ∈ pending ↔ e ∈ edges ∧ e ∉ done)
    (hrun : reduceRounds inputs topology demand fuel pending s = .ok t) :
    ∃ all, t.Inv inputs topology demand first edges all ∧ ∀ e ∈ edges, e ∈ all := by
  induction fuel generalizing s done pending with
  | zero =>
    cases pending with
    | nil =>
      obtain rfl : s = t := by simpa [reduceRounds] using hrun
      exact ⟨done, h, fun e he => by_contra fun hnot => by simpa using (hpending e).mpr ⟨he, hnot⟩⟩
    | cons e pending => simp [reduceRounds] at hrun
  | succ fuel ih =>
    cases pending with
    | nil =>
      obtain rfl : s = t := by simpa [reduceRounds] using hrun
      exact ⟨done, h, fun e he => by_contra fun hnot => by simpa using (hpending e).mpr ⟨he, hnot⟩⟩
    | cons e pending =>
      simp only [reduceRounds, Checked.bind_ok, Checked.ensure_ok] at hrun
      obtain ⟨-, -, u, hready, hrest⟩ := hrun
      have hmem : ∀ a, a ∈ sortEdges ((e :: pending).filter fun e' =>
          ∀ other ∈ e :: pending, other.2 ≠ e'.1) ↔
          a ∈ e :: pending ∧ ∀ other ∈ e :: pending, other.2 ≠ a.1 := by
        intro a
        rw [mem_sortEdges, List.mem_filter, decide_eq_true_eq]
      have hinv := h.ready ((sortEdges_perm _).nodup_iff.mpr (hnodup.filter _)) (fun a ha => ?_) hready
      · refine ih hinv (hnodup.filter _) (fun a => ?_) hrest
        rw [List.mem_filter, hpending a, decide_eq_true_eq, List.mem_toFinset, List.mem_append, not_or,
          and_assoc]
      · obtain ⟨hp, hfirst⟩ := (hmem a).mp ha
        refine ⟨((hpending a).mp hp).1, ((hpending a).mp hp).2, fun x hx => ?_⟩
        by_contra hnot
        exact hfirst (x, a.1) ((hpending _).mpr ⟨hx, hnot⟩) rfl

end Step

end Reduction

/-! ## The loop over the send edges -/

namespace Distribution

section Loop
variable (inputs : ResolvedInput) (topology : Topology) (demand : RoutingDemand)

/-- The send along an edge, by what is known of its source now. -/
def operationAt (s : Distribution) (edge : ℕ × ℕ) : RouteOperation where
  operationId := sendId demand edge
  demandId := demand.demandId
  kind := .send
  edge := edge
  logicalPosition := demand.logicalPosition
  contributors := demand.contributors
  payloadBytes := inputs.sliceSizeBytes
  stageId := sendStage inputs demand
  dependencies := s.preceding edge.1
  resources := linkResources topology edge

/-- What the loop keeps: every rank but the root is reached by one edge, which comes before
the edges out of it. -/
structure Inv (root : ℕ) (base : List RouteOperation) (incoming : Finset String)
    (edges done : List (ℕ × ℕ)) (s : Distribution) : Prop where
  nodup : done.Nodup
  edges_of : ∀ e ∈ done, e ∈ edges
  sorted : ∀ l e r, done = l ++ e :: r → e.1 ≠ root → ∃ x, (x, e.1) ∈ l
  operations : s.operations = base ++ done.map (s.operationAt inputs topology demand)
  ready : ∀ v, v ∈ s.readyRanks ↔ v = root ∨ ∃ x, (x, v) ∈ done
  first : s.preceding root = incoming
  preceding : ∀ e ∈ done, s.preceding e.2 = {sendId demand e}
  head : ∀ e ∈ done, e.2 ≠ root
  once : ∀ a ∈ done, ∀ b ∈ done, a.2 = b.2 → a = b
  links : ∀ e ∈ done, ∃ link, topology.link e.1 e.2 = .ok link

end Loop

section Step
variable {inputs : ResolvedInput} {topology : Topology} {demand : RoutingDemand} {root : ℕ}
  {base : List RouteOperation} {incoming : Finset String} {edges done : List (ℕ × ℕ)}
  {s t : Distribution} {e : ℕ × ℕ}

/-- **One send** leaves alone what the operations so far have recorded. -/
theorem Inv.step (h : s.Inv inputs topology demand root base incoming edges done) (he : e ∈ edges)
    (hready : e.1 ∈ s.readyRanks) (hstep : sendEdge inputs topology demand s e = .ok t) :
    t.Inv inputs topology demand root base incoming edges (done ++ [e]) := by
  simp only [sendEdge, Checked.bind_ok, Checked.ensure_ok, Checked.pure_ok] at hstep
  obtain ⟨-, hnew, link, hlink, rfl⟩ := hstep
  have hroot : e.2 ≠ root := fun heq => hnew ((h.ready _).mpr (.inl heq))
  have hheads : ∀ a ∈ done, a.2 ≠ e.2 := by
    intro a ha heq
    exact hnew ((h.ready _).mpr (.inr ⟨a.1, heq ▸ ha⟩))
  -- the sources of the edges so far are reached, so they are not the target
  have hsource : ∀ a ∈ done ++ [e], a.1 ≠ e.2 := by
    intro a ha heq
    rcases List.mem_append.mp ha with ha | ha
    · obtain ⟨l, r, hsplit⟩ := List.mem_iff_append.mp ha
      by_cases hr : a.1 = root
      · exact hroot (heq ▸ hr)
      · obtain ⟨x, hx⟩ := h.sorted l a r hsplit hr
        exact hheads _ (hsplit ▸ List.mem_append_left _ hx) heq
    · rw [List.mem_singleton.mp ha] at heq
      exact hnew (heq ▸ hready)
  set t : Distribution := {
    operations := s.operations ++ [{
      operationId := sendId demand e
      demandId := demand.demandId
      kind := .send
      edge := e
      logicalPosition := demand.logicalPosition
      contributors := demand.contributors
      payloadBytes := inputs.sliceSizeBytes
      stageId := sendStage inputs demand
      dependencies := s.preceding e.1
      resources := link.resourceIds }]
    readyRanks := insert e.2 s.readyRanks
    preceding := Function.update s.preceding e.2 {sendId demand e} } with ht
  have hrecorded : ∀ a ∈ done ++ [e], t.operationAt inputs topology demand a =
      s.operationAt inputs topology demand a := by
    intro a ha
    simp only [operationAt, ht, Function.update_of_ne (hsource a ha)]
  refine ⟨?_, ?_, ?_, ?_, ?_, ?_, ?_, ?_, ?_, ?_⟩
  · rw [List.nodup_append]
    refine ⟨h.nodup, by simp, fun a ha b hb => ?_⟩
    rw [List.mem_singleton.mp hb]
    rintro rfl
    exact hheads _ ha rfl
  · intro a ha
    rcases List.mem_append.mp ha with ha | ha
    · exact h.edges_of a ha
    · exact List.mem_singleton.mp ha ▸ he
  · intro l a r hsplit ha
    rcases List.eq_nil_or_concat r with rfl | ⟨r, z, rfl⟩
    · obtain ⟨rfl, hlast⟩ := List.append_inj' hsplit rfl
      rw [List.singleton_inj] at hlast
      subst hlast
      exact ((h.ready _).mp hready).resolve_left ha
    · have hsplit' : done ++ [e] = (l ++ a :: r) ++ [z] := by simpa using hsplit
      obtain ⟨rfl, -⟩ := List.append_inj' hsplit' rfl
      exact h.sorted l a r rfl ha
  · rw [List.map_congr_left hrecorded, List.map_append, ← List.append_assoc, ← h.operations]
    simp only [ht, List.map_cons, List.map_nil, operationAt, (link_ok hlink).2]
  · intro v
    simp only [ht, Finset.mem_insert, h.ready v, List.mem_append, List.mem_singleton]
    constructor
    · rintro (rfl | hv | ⟨x, hx⟩)
      · exact .inr ⟨e.1, .inr rfl⟩
      · exact .inl hv
      · exact .inr ⟨x, .inl hx⟩
    · rintro (hv | ⟨x, hx | rfl⟩)
      · exact .inr (.inl hv)
      · exact .inr (.inr ⟨x, hx⟩)
      · exact .inl rfl
  · exact (Function.update_of_ne hroot.symm _ _).trans h.first
  · intro a ha
    rcases List.mem_append.mp ha with ha | ha
    · exact (Function.update_of_ne (hheads a ha) _ _).trans (h.preceding a ha)
    · rw [List.mem_singleton.mp ha]
      exact Function.update_self _ _ _
  · intro a ha
    rcases List.mem_append.mp ha with ha | ha
    · exact h.head a ha
    · rw [List.mem_singleton.mp ha]
      exact hroot
  · intro a ha b hb hab
    rcases List.mem_append.mp ha with ha | ha <;> rcases List.mem_append.mp hb with hb | hb
    · exact h.once a ha b hb hab
    · rw [List.mem_singleton.mp hb] at hab
      exact absurd hab (hheads a ha)
    · rw [List.mem_singleton.mp ha] at hab
      exact absurd hab.symm (hheads b hb)
    · rw [List.mem_singleton.mp ha, List.mem_singleton.mp hb]
  · intro a ha
    rcases List.mem_append.mp ha with ha | ha
    · exact h.links a ha
    · exact List.mem_singleton.mp ha ▸ ⟨link, hlink⟩

/-- **The edges of a round**, one after another. -/
theorem Inv.sends (h : s.Inv inputs topology demand root base incoming edges done)
    {l : List (ℕ × ℕ)} (hall : ∀ e ∈ l, e ∈ edges ∧ e.1 ∈ s.readyRanks)
    (hrun : l.foldlM (sendEdge inputs topology demand) s = .ok t) :
    t.Inv inputs topology demand root base incoming edges (done ++ l) := by
  induction l generalizing s done with
  | nil =>
    rw [List.foldlM_nil, Checked.pure_ok] at hrun
    rwa [← hrun, List.append_nil]
  | cons e l ih =>
    rw [List.foldlM_cons, Checked.bind_ok] at hrun
    obtain ⟨u, hstep, hrest⟩ := hrun
    obtain ⟨he, hready⟩ := hall e List.mem_cons_self
    have hinv := h.step he hready hstep
    have hnext := ih hinv (fun a ha => ?_) hrest
    · simpa using hnext
    · obtain ⟨ha', hready'⟩ := hall a (List.mem_cons_of_mem _ ha)
      refine ⟨ha', (hinv.ready _).mpr ?_⟩
      rcases (h.ready _).mp hready' with hr | ⟨x, hx⟩
      · exact .inl hr
      · exact .inr ⟨x, List.mem_append_left _ hx⟩

/-- **The loop over the send edges** does all of them. -/
theorem Inv.rounds (h : s.Inv inputs topology demand root base incoming edges done) {fuel : ℕ}
    {pending : List (ℕ × ℕ)} (hpending : ∀ e, e ∈ pending ↔ e ∈ edges ∧ e ∉ done)
    (hrun : sendRounds inputs topology demand fuel pending s = .ok t) :
    ∃ all, t.Inv inputs topology demand root base incoming edges all ∧ ∀ e ∈ edges, e ∈ all := by
  induction fuel generalizing s done pending with
  | zero =>
    cases pending with
    | nil =>
      obtain rfl : s = t := by simpa [sendRounds] using hrun
      exact ⟨done, h, fun e he => by_contra fun hnot => by simpa using (hpending e).mpr ⟨he, hnot⟩⟩
    | cons e pending => simp [sendRounds] at hrun
  | succ fuel ih =>
    cases pending with
    | nil =>
      obtain rfl : s = t := by simpa [sendRounds] using hrun
      exact ⟨done, h, fun e he => by_contra fun hnot => by simpa using (hpending e).mpr ⟨he, hnot⟩⟩
    | cons e pending =>
      simp only [sendRounds, Checked.bind_ok, Checked.ensure_ok] at hrun
      obtain ⟨-, -, u, hready, hrest⟩ := hrun
      have hinv := h.sends (fun a ha => ?_) hready
      · refine ih hinv (fun a => ?_) hrest
        rw [List.mem_filter, hpending a, decide_eq_true_eq, List.mem_append, not_or, and_assoc]
      · rw [mem_sortEdges, List.mem_filter, decide_eq_true_eq] at ha
        exact ⟨((hpending a).mp ha.1).1, ha.2⟩

end Step

end Distribution

/-! ## The plan of a route -/

/-- What a transfer is called. -/
def transferId (demand : RoutingDemand) : Transfer ℕ → String
  | .gather src dst => reductionId demand (src, dst)
  | .spread src dst => sendId demand (src, dst)

/-- The plan of a route. -/
def routePlan (inputs : ResolvedInput) (demand : RoutingDemand) (route : Route)
    (carried : ℕ → Finset ℕ) : Plan ℕ ℕ where
  own := demand.initialStates inputs
  root := route.root
  gathers := route.reduceEdges.toFinset
  spreads := route.sendEdges.toFinset
  carried := carried
  whole := demand.contributors

/-- The operation of a transfer. -/
def transferOperation (inputs : ResolvedInput) (topology : Topology) (demand : RoutingDemand)
    (plan : Plan ℕ ℕ) (t : Transfer ℕ) : RouteOperation where
  operationId := transferId demand t
  demandId := demand.demandId
  kind := match t with
    | .gather _ _ => .rrc
    | .spread _ _ => .send
  edge := match t with
    | .gather src dst => (src, dst)
    | .spread src dst => (src, dst)
  logicalPosition := demand.logicalPosition
  contributors := match t with
    | .gather src _ => plan.carried src
    | .spread _ _ => plan.whole
  payloadBytes := inputs.sliceSizeBytes
  stageId := match t with
    | .gather _ _ => 0
    | .spread _ _ => sendStage inputs demand
  dependencies := (plan.preds t).image (transferId demand)
  resources := match t with
    | .gather src dst => linkResources topology (src, dst)
    | .spread src dst => linkResources topology (src, dst)

/-- Operations are those of a plan, in an order that keeps to its waits. -/
structure RoutePlanned (inputs : ResolvedInput) (topology : Topology) (demand : RoutingDemand)
    (route : Route) (operations : List RouteOperation) (carried : ℕ → Finset ℕ)
    (transfers : List (Transfer ℕ)) : Prop where
  operations : operations = transfers.map
    (transferOperation inputs topology demand (routePlan inputs demand route carried))
  order : (routePlan inputs demand route carried).Extends transfers
  spreads : (routePlan inputs demand route carried).Spreads
  ranks : ∀ e ∈ route.reduceEdges, e.1 < inputs.rankCount ∧ e.2 < inputs.rankCount
  carries : route.reduceEdges ≠ [] → ∀ v < inputs.rankCount, carried v =
    ownContribution inputs demand v ∪
      (route.reduceEdges.toFinset.filter (·.2 = v)).biUnion fun e => carried e.1
  links : ∀ e ∈ route.edges, ∃ link, topology.link e.1 e.2 = .ok link

section Physical
variable {inputs : ResolvedInput} {topology : Topology} {demand : RoutingDemand} {route : Route}
  {operations : List RouteOperation}

theorem start_get? (v : ℕ) : (Reduction.start inputs demand route).contributors.get? v =
    if route.reduceEdges ≠ [] ∧ v < inputs.rankCount then some (ownContribution inputs demand v)
    else none := by
  unfold Reduction.start
  by_cases hnil : route.reduceEdges = []
  · simp [hnil]
  · simp only [hnil, if_false, ne_eq, not_false_eq_true, true_and]
    by_cases hv : v < inputs.rankCount
    · rw [if_pos hv]
      refine Dict.get?_of_mem ?_ (List.mem_map.mpr ⟨v, List.mem_range.mpr hv, rfl⟩)
      simp only [Dict.Distinct, Dict.keys, List.map_map]
      exact (List.nodup_range).map fun _ _ h => h
    · rw [if_neg hv, Dict.get?_eq_none]
      simp [Dict.keys, hv]

/-- **The operations of a route are those of its plan.**  Where it has no reduction, what the
plan says that ranks carry is free. -/
theorem physicalOperation_plan (h : physicalOperation inputs topology demand route = .ok operations)
    (free : ℕ → Finset ℕ) : ∃ carried transfers,
      RoutePlanned inputs topology demand route operations carried transfers ∧
        (route.reduceEdges = [] → carried = free) := by
  simp only [physicalOperation, Checked.bind_ok, Checked.pure_ok] at h
  obtain ⟨reduced, hreduced, sent, hsent, rfl⟩ := h
  have hstart : (Reduction.start inputs demand route).Inv inputs topology demand
      (Reduction.start inputs demand route).contributors route.reduceEdges.dedup [] :=
    ⟨List.nodup_nil, by simp, by simp, rfl, by simp [Reduction.start], by simp, by simp, by simp⟩
  obtain ⟨reductions, hr, hall⟩ := hstart.rounds (List.nodup_dedup _) (by simp) hreduced
  have hfirst : (reduced.distribute route).Inv inputs topology demand route.root
      reduced.operations (reduced.incoming route.root).toFinset route.sendEdges.dedup [] := by
    refine ⟨List.nodup_nil, by simp, by simp, by simp [Reduction.distribute], ?_, ?_, by simp,
      by simp, by simp, by simp⟩
    · simp [Reduction.distribute]
    · simp [Reduction.distribute]
  obtain ⟨sends, hs, hall'⟩ := hfirst.rounds (by simp) hsent
  have hreductions : ∀ e, e ∈ reductions ↔ e ∈ route.reduceEdges := fun e =>
    ⟨fun he => List.mem_dedup.mp (hr.edges_of e he), fun he => hall e (List.mem_dedup.mpr he)⟩
  have hsends : ∀ e, e ∈ sends ↔ e ∈ route.sendEdges := fun e =>
    ⟨fun he => List.mem_dedup.mp (hs.edges_of e he), fun he => hall' e (List.mem_dedup.mpr he)⟩
  set carried : ℕ → Finset ℕ := if route.reduceEdges = [] then free else reduced.carried with hcarried
  have hloop : ∀ e ∈ reductions, carried = reduced.carried := by
    intro e he
    rw [hcarried, if_neg (List.ne_nil_of_mem ((hreductions e).mp he))]
  set plan := routePlan inputs demand route carried with hplan
  have hgathers : ∀ e, e ∈ plan.gathers ↔ e ∈ reductions := fun e =>
    List.mem_toFinset.trans (hreductions e).symm
  have hspreads : ∀ e, e ∈ plan.spreads ↔ e ∈ sends := fun e =>
    List.mem_toFinset.trans (hsends e).symm
  have hinto : ∀ v, (reduced.incoming v).toFinset = (plan.into v).image (transferId demand) := by
    intro v
    ext x
    simp only [hr.incoming v, List.mem_toFinset, List.mem_map, List.mem_filter, decide_eq_true_eq,
      Finset.mem_image, Plan.mem_into]
    constructor
    · rintro ⟨e, ⟨he, rfl⟩, rfl⟩
      exact ⟨_, ⟨e.1, (hgathers e).mpr he, rfl⟩, rfl⟩
    · rintro ⟨t, ⟨u, hu, rfl⟩, rfl⟩
      exact ⟨(u, v), ⟨(hgathers _).mp hu, rfl⟩, rfl⟩
  refine ⟨carried, reductions.map (fun e => .gather e.1 e.2) ++ sends.map (fun e => .spread e.1 e.2),
    ⟨?_, ⟨?_, ?_, ?_⟩, ⟨?_, ?_, ?_⟩, ?_, ?_, ?_⟩, fun hnil => by rw [hcarried, if_pos hnil]⟩
  · rw [hs.operations, hr.operations, List.map_append, List.map_map, List.map_map]
    congr 1
    · refine List.map_congr_left fun e he => ?_
      simp only [Reduction.operationAt, Function.comp_apply, transferOperation, transferId,
        Plan.preds, hinto, ← hloop e he]
      rfl
    · refine List.map_congr_left fun e he => ?_
      have hdependencies : sent.preceding e.1 =
          (plan.preds (.spread e.1 e.2)).image (transferId demand) := by
        rw [Plan.preds]
        split
        · next hroot =>
          rw [hroot, ← hinto]
          exact hs.first
        · next hroot =>
          obtain ⟨l, r, hsplit⟩ := List.mem_iff_append.mp he
          obtain ⟨x, hx⟩ := hs.sorted l e r hsplit hroot
          have hx' : (x, e.1) ∈ sends := hsplit ▸ List.mem_append_left _ hx
          rw [hs.preceding _ hx']
          ext z
          simp only [Finset.mem_singleton, Finset.mem_image, Finset.mem_filter, hspreads]
          constructor
          · rintro rfl
            exact ⟨_, ⟨(x, e.1), ⟨hx', rfl⟩, rfl⟩, rfl⟩
          · rintro ⟨t, ⟨a, ⟨ha, hae⟩, rfl⟩, rfl⟩
            rw [hs.once a ha (x, e.1) hx' hae]
            rfl
      simp only [Distribution.operationAt, Function.comp_apply, transferOperation, transferId,
        hdependencies]
      rfl
  · rw [List.nodup_append]
    refine ⟨hr.nodup.map fun a b hab => ?_, hs.nodup.map fun a b hab => ?_, ?_⟩
    · exact Prod.ext (Transfer.gather.inj hab).1 (Transfer.gather.inj hab).2
    · exact Prod.ext (Transfer.spread.inj hab).1 (Transfer.spread.inj hab).2
    · intro a ha b hb hab
      obtain ⟨e, -, rfl⟩ := List.mem_map.mp ha
      obtain ⟨e', -, rfl⟩ := List.mem_map.mp hb
      cases hab
  · rintro (⟨u, v⟩ | ⟨u, v⟩)
    · rw [Plan.gather_mem_transfers, hgathers]
      simp
    · rw [Plan.spread_mem_transfers, hspreads]
      simp
  · refine Kahn.Topological.append (fun l t r hsplit p hp => ?_) fun l t r hsplit p hp => ?_
    · obtain ⟨l', r', rfl, rfl, hr'⟩ := List.map_eq_append_iff.mp hsplit
      obtain ⟨e, r'', rfl, rfl, rfl⟩ := List.map_eq_cons_iff.mp hr'
      obtain ⟨x, hx, rfl⟩ := Plan.mem_into.mp hp
      exact List.mem_map_of_mem
        (hr.sorted l' e r'' rfl x (List.mem_dedup.mpr (List.mem_toFinset.mp hx)))
    · obtain ⟨l', r', hl', rfl, hr'⟩ := List.map_eq_append_iff.mp hsplit
      obtain ⟨e, r'', rfl, rfl, rfl⟩ := List.map_eq_cons_iff.mp hr'
      rw [Plan.preds] at hp
      split at hp
      · obtain ⟨x, hx, rfl⟩ := Plan.mem_into.mp hp
        exact List.mem_append_left _ (List.mem_map_of_mem ((hgathers _).mp hx))
      · next hroot =>
        obtain ⟨a, ha, rfl⟩ := Finset.mem_image.mp hp
        obtain ⟨ha, hae⟩ := Finset.mem_filter.mp ha
        obtain ⟨x, hx⟩ := hs.sorted l' e r'' hl' hroot
        have hx' : (x, e.1) ∈ sends := hl' ▸ List.mem_append_left _ hx
        rw [hs.once a ((hspreads a).mp ha) (x, e.1) hx' hae]
        exact List.mem_append_right _ (List.mem_map_of_mem hx)
  · exact fun e he => hs.head e ((hspreads e).mp he)
  · intro e he hroot
    obtain ⟨l, r, hsplit⟩ := List.mem_iff_append.mp ((hspreads e).mp he)
    obtain ⟨x, hx⟩ := hs.sorted l e r hsplit hroot
    exact ⟨x, (hspreads _).mpr (hsplit ▸ List.mem_append_left _ hx)⟩
  · exact fun e he e' he' heq =>
      hs.once e ((hspreads e).mp he) e' ((hspreads e').mp he') heq
  · intro e he
    obtain ⟨hsrc, hdst⟩ := hr.known e ((hreductions e).mpr he)
    rw [start_get?] at hsrc hdst
    constructor
    · by_contra hnot
      exact hsrc (if_neg fun hand => hnot hand.2)
    · by_contra hnot
      exact hdst (if_neg fun hand => hnot hand.2)
  · intro hne v hv
    have hheld := hr.held v
    rw [start_get?, if_pos ⟨hne, hv⟩, Option.map_some] at hheld
    rw [hcarried, if_neg hne]
    have hv' : reduced.carried v = _ := congrArg (fun o : Option (Finset ℕ) => o.getD ∅) hheld
    rw [hv', Option.getD_some]
    congr 2
    ext e
    simp only [Finset.mem_filter, List.mem_toFinset, hreductions e]
  · intro e he
    rcases List.mem_append.mp he with he | he
    · exact hr.links e ((hreductions e).mpr he)
    · exact hs.links e ((hsends e).mpr he)

end Physical

end VeriCCL
