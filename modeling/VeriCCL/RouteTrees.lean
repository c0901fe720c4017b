import VeriCCL.RouteColumns
import VeriCCL.BatchBranching

/-! # The trees and paths that are enumerated

`tree_columns` chooses a parent for every node but the root; what is left of the edges must
still reach every node, so the choices end in a tree out of the root (`mem_treeColumns_tree`).
A path that is enumerated is a tree over the ranks it visits (`mem_paths_tree`). -/
namespace VeriCCL

open Relation (ReflTransGen)

/-- The arcs of a list of edges. -/
abbrev Arc (edges : List (ℕ × ℕ)) (u v : ℕ) : Prop := (u, v) ∈ edges

theorem edgeLe_trans (a b c : ℕ × ℕ) (hab : edgeLe a b = true) (hbc : edgeLe b c = true) :
    edgeLe a c = true := by
  simp only [edgeLe, decide_eq_true_eq] at *
  omega

theorem edgeLe_total (a b : ℕ × ℕ) : (edgeLe a b || edgeLe b a) = true := by
  simp only [edgeLe, Bool.or_eq_true, decide_eq_true_eq]
  omega

/-- The order of the edges does not matter to a tree. -/
theorem Arborescence.perm {V : Finset ℕ} {root : ℕ} {edges edges' : List (ℕ × ℕ)}
    (h : Arborescence V root edges) (hp : edges.Perm edges') : Arborescence V root edges' where
  root_mem := h.root_mem
  tails e he := h.tails e (hp.mem_iff.mpr he)
  heads v := by
    rw [← h.heads v]
    exact (hp.map (·.2)).symm.mem_iff
  once := (hp.map (·.2)).nodup_iff.mp h.once
  reach v hv := ReflTransGen.mono (fun _ _ he => hp.mem_iff.mp he) _ _ (h.reach v hv)

/-! ## What is reached -/

section Reach
variable {edges : List (ℕ × ℕ)} {root v : ℕ} {S : Finset ℕ} {fuel : ℕ} {nodes : List ℕ}

theorem mem_reachStep : v ∈ reachStep edges S ↔ v ∈ S ∨ ∃ u ∈ S, (u, v) ∈ edges := by
  simp only [reachStep, Finset.mem_union, List.mem_toFinset, List.mem_map, List.mem_filter,
    decide_eq_true_eq, Prod.exists, exists_eq_right]
  refine or_congr_right ⟨fun ⟨u, hmem, hu⟩ => ⟨u, hu, hmem⟩, fun ⟨u, hu, hmem⟩ => ⟨u, hmem, hu⟩⟩

theorem subset_reachStep (S : Finset ℕ) : S ⊆ reachStep edges S :=
  fun _ hv => mem_reachStep.mpr (.inl hv)

theorem subset_reachedFrom : ∀ (fuel : ℕ) (S : Finset ℕ), S ⊆ reachedFrom edges fuel S
  | 0, S => Finset.Subset.refl S
  | fuel + 1, S => by
    unfold reachedFrom
    split
    · exact Finset.Subset.refl S
    · exact (subset_reachStep S).trans (subset_reachedFrom fuel _)

theorem reachedFrom_sound (hv : v ∈ reachedFrom edges fuel S) :
    ∃ u ∈ S, ReflTransGen (Arc edges) u v := by
  induction fuel generalizing S with
  | zero => exact ⟨v, hv, .refl⟩
  | succ fuel ih =>
    unfold reachedFrom at hv
    split at hv
    · exact ⟨v, hv, .refl⟩
    · obtain ⟨u, hu, hpath⟩ := ih hv
      rcases mem_reachStep.mp hu with hu | ⟨w, hw, harc⟩
      · exact ⟨u, hu, hpath⟩
      · exact ⟨w, hw, .head harc hpath⟩

/-- **The loop ends at a closed set**: every turn that is not the last adds a head. -/
theorem reachedFrom_closed (hfuel : ((edges.map (·.2)).toFinset \ S).card ≤ fuel) :
    reachStep edges (reachedFrom edges fuel S) = reachedFrom edges fuel S := by
  induction fuel generalizing S with
  | zero =>
    have hnone : (edges.map (·.2)).toFinset \ S = ∅ := Finset.card_eq_zero.mp (Nat.le_zero.mp hfuel)
    refine Finset.Subset.antisymm (fun v hv => ?_) (subset_reachStep _)
    rcases mem_reachStep.mp hv with hv | ⟨u, -, harc⟩
    · exact hv
    · have hhead : v ∈ (edges.map (·.2)).toFinset := by
        rw [List.mem_toFinset]
        exact List.mem_map_of_mem harc
      exact Finset.sdiff_eq_empty_iff_subset.mp hnone hhead
  | succ fuel ih =>
    unfold reachedFrom
    split
    · assumption
    · next hne =>
      refine ih ?_
      obtain ⟨v, hv, hnew⟩ := Finset.exists_of_ssubset
        ((subset_reachStep S).ssubset_of_ne (Ne.symm hne))
      obtain ⟨u, -, harc⟩ := (mem_reachStep.mp hv).resolve_left hnew
      have hlt : ((edges.map (·.2)).toFinset \ reachStep edges S).card <
          ((edges.map (·.2)).toFinset \ S).card := by
        refine Finset.card_lt_card ⟨Finset.sdiff_subset_sdiff le_rfl (subset_reachStep S), ?_⟩
        intro hsub
        have hhead : v ∈ (edges.map (·.2)).toFinset \ S := by
          rw [Finset.mem_sdiff, List.mem_toFinset]
          exact ⟨List.mem_map_of_mem harc, hnew⟩
        exact (Finset.mem_sdiff.mp (hsub hhead)).2 hv
      omega

/-- **The loop finds what is reached from the root.** -/
theorem mem_reachedFrom : v ∈ reachedFrom edges edges.length {root} ↔ ReflTransGen (Arc edges) root v := by
  constructor
  · intro hv
    obtain ⟨u, hu, hpath⟩ := reachedFrom_sound hv
    rwa [Finset.mem_singleton.mp hu] at hpath
  · intro hpath
    have hfuel : ((edges.map (·.2)).toFinset \ {root}).card ≤ edges.length := by
      refine (Finset.card_le_card Finset.sdiff_subset).trans ?_
      exact (List.toFinset_card_le _).trans (List.length_map _).le
    have hclosed := reachedFrom_closed hfuel
    induction hpath with
    | refl => exact subset_reachedFrom _ _ (Finset.mem_singleton_self root)
    | @tail a b _ harc ih =>
      rw [← hclosed]
      exact mem_reachStep.mpr (.inr ⟨a, ih, harc⟩)

/-- `_reachable` says whether the nodes are what is reached from the root. -/
theorem reachable_iff : reachable nodes root edges = true ↔
    ∀ v, v ∈ nodes ↔ ReflTransGen (Arc edges) root v := by
  unfold reachable
  rw [decide_eq_true_eq, Finset.ext_iff]
  refine forall_congr' fun v => ?_
  rw [mem_reachedFrom, List.mem_toFinset]
  exact iff_comm

end Reach

/-! ## Parents -/

section Parents
variable {edges : List (ℕ × ℕ)} {root : ℕ} {nodes targets : List ℕ} {parents : Dict ℕ ℕ}
  {tree : List (ℕ × ℕ)}

theorem mem_remainingEdges {e : ℕ × ℕ} : e ∈ remainingEdges edges parents ↔
    e ∈ edges ∧ (parents.get? e.2 = none ∨ parents.get? e.2 = some e.1) := by
  simp [remainingEdges]

/-- Parents of all nodes but the root that leave every node reached are a tree. -/
theorem arborescence_of_parents (hdistinct : parents.Distinct)
    (hkeys : ∀ v, v ∈ parents.keys ↔ v ∈ nodes ∧ v ≠ root)
    (hreach : reachable nodes root (remainingEdges edges parents) = true) :
    Arborescence nodes.toFinset root (parents.map fun entry => (entry.2, entry.1)) := by
  rw [reachable_iff] at hreach
  have hmem : ∀ u v, (u, v) ∈ parents.map (fun entry => (entry.2, entry.1)) ↔ (v, u) ∈ parents := by
    intro u v
    simp [List.mem_map]
  -- the edges into a node that is not the root are the one from its parent
  have hparent : ∀ u v, (u, v) ∈ remainingEdges edges parents → ReflTransGen
      (Arc (remainingEdges edges parents)) root u → v ≠ root → (v, u) ∈ parents := by
    intro u v harc hpath hne
    have hnode : v ∈ nodes := (hreach v).mpr (hpath.tail harc)
    rcases (mem_remainingEdges.mp harc).2 with hnone | hsome
    · exact absurd ((hkeys v).mpr ⟨hnode, hne⟩) (Dict.get?_eq_none.mp hnone)
    · exact Dict.mem_of_get? hsome
  refine ⟨?_, fun e he => ?_, fun v => ?_, ?_, fun v hv => ?_⟩
  · exact List.mem_toFinset.mpr ((hreach root).mpr .refl)
  · -- the only remaining edge into the head comes from a reached node
    obtain ⟨u, v⟩ := e
    have hentry := (hmem u v).mp he
    have hv := (hkeys v).mp (List.mem_map_of_mem hentry)
    rw [List.mem_toFinset, hreach u]
    rcases ((hreach v).mp hv.1).cases_tail with heq | ⟨w, hw, harc⟩
    · exact absurd heq hv.2
    · have hother := hparent w v harc hw hv.2
      have := Dict.get?_of_mem hdistinct hentry
      rw [Dict.get?_of_mem hdistinct hother] at this
      obtain rfl := Option.some.inj this
      exact hw
  · rw [List.mem_toFinset, ← hkeys v]
    simp [Dict.keys, List.map_map, Function.comp_def]
  · rw [List.map_map]
    exact hdistinct
  · rw [List.mem_toFinset, hreach v] at hv
    induction hv with
    | refl => exact .refl
    | @tail a b hpath harc ih =>
      by_cases hb : b = root
      · subst hb
        exact .refl
      · exact ih.tail ((hmem a b).mpr (hparent a b harc hpath hb))

/-- **What `visit` yields** are parents for all targets, over edges, that leave every node
reached. -/
theorem mem_visitTargets (hmem : tree ∈ visitTargets nodes root edges targets parents)
    (htargets : targets.Nodup) (hnew : ∀ t ∈ targets, t ∉ parents.keys)
    (hdistinct : parents.Distinct) (hedges : ∀ entry ∈ parents, (entry.2, entry.1) ∈ edges)
    (hreach : reachable nodes root (remainingEdges edges parents) = true) :
    ∃ final : Dict ℕ ℕ, tree = sortEdges (final.map fun entry => (entry.2, entry.1)) ∧
      final.Distinct ∧ (∀ v, v ∈ final.keys ↔ v ∈ parents.keys ∨ v ∈ targets) ∧
      (∀ entry ∈ final, (entry.2, entry.1) ∈ edges) ∧
      reachable nodes root (remainingEdges edges final) = true := by
  induction targets generalizing parents with
  | nil =>
    rw [visitTargets, List.mem_singleton] at hmem
    exact ⟨parents, hmem, hdistinct, by simp, hedges, hreach⟩
  | cons target targets ih =>
    rw [visitTargets, List.mem_flatMap] at hmem
    obtain ⟨src, hsrc, hmem⟩ := hmem
    split at hmem
    · cases hmem
    · simp only at hmem
      split at hmem
      · next hreach' =>
        rw [List.nodup_cons] at htargets
        have harc : (src, target) ∈ edges := by
          simp only [List.mem_map, List.mem_filter, decide_eq_true_eq, Prod.exists] at hsrc
          obtain ⟨a, b, ⟨hab, rfl⟩, rfl⟩ := hsrc
          exact hab
        obtain ⟨final, htree, hfinal, hkeys, hall, hlast⟩ := ih hmem htargets.2
          (fun t ht => by
            rw [Dict.mem_keys_set, not_or]
            exact ⟨fun heq => htargets.1 (heq ▸ ht), hnew t (List.mem_cons_of_mem _ ht)⟩)
          (hdistinct.set target src)
          (fun entry he => by
            rcases Dict.mem_set he with he | rfl
            · exact hedges entry he
            · exact harc)
          hreach'
        refine ⟨final, htree, hfinal, fun v => ?_, hall, hlast⟩
        rw [hkeys v, Dict.mem_keys_set, List.mem_cons]
        tauto
      · cases hmem

end Parents

/-! ## The breadth-first tree -/

section Seed
variable {edges : List (ℕ × ℕ)} {root src : ℕ} {nodes : List ℕ}
  {s : Finset ℕ × List ℕ × List (ℕ × ℕ)}

/-- What holds of the search: its edges are a tree over what it has reached. -/
structure Seeding (edges : List (ℕ × ℕ)) (root : ℕ) (s : Finset ℕ × List ℕ × List (ℕ × ℕ)) :
    Prop where
  tree : Arborescence s.1 root s.2.2
  queued : ∀ v ∈ s.2.1, v ∈ s.1
  edges_of : ∀ e ∈ s.2.2, e ∈ edges

/-- What the search still has to take out of the queue, at most. -/
def seedMeasure (edges : List (ℕ × ℕ)) (s : Finset ℕ × List ℕ × List (ℕ × ℕ)) : ℕ :=
  s.2.1.length + ((edges.map (·.2)).toFinset \ s.1).card

/-- What one turn of the inner loop does. -/
structure SeedStep (edges : List (ℕ × ℕ)) (root : ℕ) (s t : Finset ℕ × List ℕ × List (ℕ × ℕ)) :
    Prop where
  seeding : Seeding edges root t
  reached : s.1 ⊆ t.1
  queue : ∀ v ∈ s.2.1, v ∈ t.2.1
  news : ∀ v ∈ t.1, v ∈ s.1 ∨ v ∈ t.2.1
  measure : seedMeasure edges t ≤ seedMeasure edges s

theorem SeedStep.refl (h : Seeding edges root s) : SeedStep edges root s s :=
  ⟨h, Finset.Subset.refl _, fun _ hv => hv, fun _ hv => .inl hv, le_rfl⟩

theorem SeedStep.trans {t u : Finset ℕ × List ℕ × List (ℕ × ℕ)} (h : SeedStep edges root s t)
    (h' : SeedStep edges root t u) : SeedStep edges root s u where
  seeding := h'.seeding
  reached := h.reached.trans h'.reached
  queue v hv := h'.queue v (h.queue v hv)
  news v hv := by
    rcases h'.news v hv with hv | hv
    · exact (h.news v hv).imp_right (h'.queue v)
    · exact .inr hv
  measure := h'.measure.trans h.measure

/-- **One edge**: its head is reached. -/
theorem seedEdge_step (h : Seeding edges root s) (hsrc : src ∈ s.1) {e : ℕ × ℕ} (he : e ∈ edges) :
    SeedStep edges root s (seedEdge src s e) ∧ (e.1 = src → e.2 ∈ (seedEdge src s e).1) := by
  unfold seedEdge
  split
  · next hnew =>
    obtain ⟨rfl, hnew⟩ := hnew
    refine ⟨⟨⟨h.tree.extend hsrc hnew, ?_, ?_⟩, Finset.subset_insert _ _, ?_, ?_, ?_⟩,
      fun _ => Finset.mem_insert_self _ _⟩
    · intro v hv
      rcases List.mem_append.mp hv with hv | hv
      · exact Finset.mem_insert_of_mem (h.queued v hv)
      · exact List.mem_singleton.mp hv ▸ Finset.mem_insert_self _ _
    · intro a ha
      rcases List.mem_append.mp ha with ha | ha
      · exact h.edges_of a ha
      · exact List.mem_singleton.mp ha ▸ he
    · exact fun v hv => List.mem_append_left _ hv
    · intro v hv
      rcases Finset.mem_insert.mp hv with rfl | hv
      · exact .inr (by simp)
      · exact .inl hv
    · -- the head goes from what is not reached to the queue
      have hhead : e.2 ∈ (edges.map (·.2)).toFinset \ s.1 := by
        rw [Finset.mem_sdiff, List.mem_toFinset]
        exact ⟨List.mem_map_of_mem he, hnew⟩
      have hcard := Finset.card_erase_add_one hhead
      have herase : (edges.map (·.2)).toFinset \ insert e.2 s.1 =
          ((edges.map (·.2)).toFinset \ s.1).erase e.2 := by
        ext v
        simp only [Finset.mem_sdiff, Finset.mem_insert, Finset.mem_erase]
        tauto
      unfold seedMeasure
      rw [herase, List.length_append, List.length_singleton]
      omega
  · next hold =>
    refine ⟨.refl h, fun heq => ?_⟩
    by_contra hnew
    exact hold ⟨heq, hnew⟩

/-- **The edges out of a vertex**: all their heads are reached. -/
theorem seedEdges_step (h : Seeding edges root s) (hsrc : src ∈ s.1) {l : List (ℕ × ℕ)}
    (hl : ∀ e ∈ l, e ∈ edges) : SeedStep edges root s (l.foldl (seedEdge src) s) ∧
      ∀ e ∈ l, e.1 = src → e.2 ∈ (l.foldl (seedEdge src) s).1 := by
  induction l generalizing s with
  | nil => exact ⟨.refl h, by simp⟩
  | cons e l ih =>
    obtain ⟨hstep, hhead⟩ := seedEdge_step h hsrc (hl e List.mem_cons_self)
    obtain ⟨hrest, hheads⟩ := ih hstep.seeding (hstep.reached hsrc)
      fun a ha => hl a (List.mem_cons_of_mem _ ha)
    refine ⟨hstep.trans hrest, fun a ha heq => ?_⟩
    rcases List.mem_cons.mp ha with rfl | ha
    · exact hrest.reached (hhead heq)
    · exact hheads a ha heq

/-- **The search ends with a tree over a closed set.** -/
theorem seedFrom_tree (fuel : ℕ) (h : Seeding edges root s)
    (hopen : ∀ v ∈ s.1, v ∈ s.2.1 ∨ ∀ w, (v, w) ∈ edges → w ∈ s.1)
    (hfuel : seedMeasure edges s ≤ fuel) : ∃ V, Arborescence V root (seedFrom edges fuel s) ∧
      (∀ u ∈ V, ∀ w, (u, w) ∈ edges → w ∈ V) ∧ ∀ e ∈ seedFrom edges fuel s, e ∈ edges := by
  induction fuel generalizing s with
  | zero =>
    obtain ⟨reached, queue, seed⟩ := s
    have hempty : queue = [] := by
      have : queue.length + _ = 0 := Nat.le_zero.mp hfuel
      exact List.length_eq_zero_iff.mp (by omega)
    subst hempty
    exact ⟨reached, h.tree, fun u hu => (hopen u hu).resolve_left (by simp), h.edges_of⟩
  | succ fuel ih =>
    obtain ⟨reached, queue, seed⟩ := s
    cases queue with
    | nil =>
      rw [seedFrom]
      exact ⟨reached, h.tree, fun u hu => (hopen u hu).resolve_left (by simp), h.edges_of⟩
    | cons src queue =>
      have hsrc : src ∈ reached := h.queued src List.mem_cons_self
      have hpopped : Seeding edges root (reached, queue, seed) :=
        ⟨h.tree, fun v hv => h.queued v (List.mem_cons_of_mem _ hv), h.edges_of⟩
      obtain ⟨hstep, hheads⟩ := seedEdges_step hpopped hsrc fun e he => he
      rw [seedFrom]
      refine ih hstep.seeding (fun v hv => ?_) ?_
      · rcases hstep.news v hv with hv | hv
        · rcases hopen v hv with hq | hclosed
          · rcases List.mem_cons.mp hq with rfl | hq
            · exact .inr fun w hw => hheads _ hw rfl
            · exact .inl (hstep.queue v hq)
          · exact .inr fun w hw => hstep.reached (hclosed w hw)
        · exact .inl hv
      · have hmeasure : seedMeasure edges (reached, src :: queue, seed) =
            seedMeasure edges (reached, queue, seed) + 1 := by
          simp only [seedMeasure, List.length_cons]
          omega
        have := hstep.measure
        omega

/-- **The breadth-first tree spans the nodes.** -/
theorem seedTree_tree (hreach : reachable nodes root edges = true) :
    Arborescence nodes.toFinset root (seedTree root edges) ∧ ∀ e ∈ seedTree root edges, e ∈ edges := by
  have hstart : Seeding edges root ({root}, [root], []) :=
    ⟨Arborescence.single root, by simp, by simp⟩
  have hfuel : seedMeasure edges ({root}, [root], []) ≤ edges.length + 1 := by
    have hheads := (Finset.card_le_card (Finset.sdiff_subset (s := (edges.map (·.2)).toFinset)
      (t := {root}))).trans ((List.toFinset_card_le _).trans (List.length_map _).le)
    simp only [seedMeasure, List.length_singleton]
    omega
  obtain ⟨V, htree, hclosed, hedges⟩ := seedFrom_tree _ hstart (by simp) hfuel
  have hV : V = nodes.toFinset := by
    rw [reachable_iff] at hreach
    ext v
    rw [List.mem_toFinset, hreach v]
    constructor
    · exact fun hv => ReflTransGen.mono (fun _ _ he => hedges _ he) _ _ (htree.reach v hv)
    · intro hpath
      induction hpath with
      | refl => exact htree.root_mem
      | @tail a b _ harc ih => exact hclosed a ih b harc
  exact ⟨hV ▸ htree.perm (sortEdges_perm _).symm, fun e he => hedges e (mem_sortEdges.mp he)⟩

end Seed

/-! ## Trees and paths -/

/-- **Every tree that is enumerated spans the nodes**, over the edges. -/
theorem mem_treeColumns_tree {nodes : List ℕ} {root : ℕ} {edges tree : List (ℕ × ℕ)}
    (hnodes : nodes.Nodup) (hmem : tree ∈ treeColumns nodes root edges) :
    Arborescence nodes.toFinset root tree ∧ ∀ e ∈ tree, e ∈ edges := by
  unfold treeColumns at hmem
  simp only at hmem
  split at hmem
  · next hreach =>
    have hsorted : ∀ e, e ∈ sortEdges edges.dedup ↔ e ∈ edges := by simp
    rcases List.mem_cons.mp hmem with rfl | hmem
    · obtain ⟨htree, hedges⟩ := seedTree_tree hreach
      exact ⟨htree, fun e he => (hsorted e).mp (hedges e he)⟩
    · have hvisit := (List.mem_filter.mp hmem).1
      have hall : remainingEdges (sortEdges edges.dedup) [] = sortEdges edges.dedup := by
        simp [remainingEdges]
      obtain ⟨final, rfl, hdistinct, hkeys, hedges, hlast⟩ := mem_visitTargets hvisit
        (hnodes.filter _) (by simp [Dict.keys]) Dict.distinct_nil (by simp) (by rwa [hall])
      refine ⟨?_, fun e he => ?_⟩
      · refine (arborescence_of_parents hdistinct (fun v => ?_) hlast).perm (sortEdges_perm _).symm
        rw [hkeys v]
        simp [Dict.keys]
      · obtain ⟨entry, hentry, rfl⟩ := List.mem_map.mp (mem_sortEdges.mp he)
        exact (hsorted _).mp (hedges entry hentry)
  · cases hmem

/-- A path's edges when it grows by a vertex. -/
theorem zip_tail_snoc (l : List ℕ) (a b : ℕ) :
    (l ++ [a] ++ [b]).zip (l ++ [a] ++ [b]).tail = (l ++ [a]).zip (l ++ [a]).tail ++ [(a, b)] := by
  induction l with
  | nil => rfl
  | cons x l ih =>
    cases l with
    | nil => rfl
    | cons y l => simpa using ih

/-- A path that visits no rank twice is a tree over the ranks it visits. -/
theorem mem_pathsFrom_tree {edges : List (ℕ × ℕ)} {target source : ℕ} {fuel : ℕ} {path : List ℕ}
    {route : List (ℕ × ℕ)} (hmem : route ∈ pathsFrom edges target fuel path)
    (htree : Arborescence path.toFinset source (path.zip path.tail))
    (hedges : ∀ e ∈ path.zip path.tail, e ∈ edges) :
    (∃ V, Arborescence V source route ∧ target ∈ V) ∧ ∀ e ∈ route, e ∈ edges := by
  induction fuel generalizing path with
  | zero =>
    rw [pathsFrom] at hmem
    split at hmem
    · next hlast =>
      obtain rfl := List.mem_singleton.mp hmem
      exact ⟨⟨_, htree, List.mem_toFinset.mpr (List.mem_of_getLast? hlast)⟩, hedges⟩
    · cases hmem
  | succ fuel ih =>
    rw [pathsFrom] at hmem
    split at hmem
    · next hlast =>
      obtain rfl := List.mem_singleton.mp hmem
      exact ⟨⟨_, htree, List.mem_toFinset.mpr (List.mem_of_getLast? hlast)⟩, hedges⟩
    · simp only [List.mem_flatMap] at hmem
      obtain ⟨e, he, hmem⟩ := hmem
      split at hmem
      · next hnext =>
        obtain ⟨hlast, hnew⟩ := hnext
        obtain ⟨front, rfl⟩ := List.getLast?_eq_some_iff.mp hlast
        refine ih hmem ?_ fun a ha => ?_
        · have hset : (front ++ [e.1] ++ [e.2]).toFinset = insert e.2 (front ++ [e.1]).toFinset := by
            ext v
            simp only [List.mem_toFinset, List.mem_append, List.mem_singleton, Finset.mem_insert]
            tauto
          rw [zip_tail_snoc, hset]
          exact htree.extend (by simp) (by rwa [List.mem_toFinset])
        · rw [zip_tail_snoc] at ha
          rcases List.mem_append.mp ha with ha | ha
          · exact hedges a ha
          · exact List.mem_singleton.mp ha ▸ he
      · cases hmem

/-- **Every path that is enumerated is a tree out of its source** that has the target. -/
theorem mem_paths_tree {edges : List (ℕ × ℕ)} {source target : ℕ} {route : List (ℕ × ℕ)}
    (hmem : route ∈ paths edges source target) :
    (∃ V, Arborescence V source route ∧ target ∈ V) ∧ ∀ e ∈ route, e ∈ edges :=
  mem_pathsFrom_tree hmem (by simpa using Arborescence.single source) (by simp)

end VeriCCL
