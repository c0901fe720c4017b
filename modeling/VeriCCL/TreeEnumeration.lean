import VeriCCL.RouteOrder
import VeriCCL.CandidatePaths

/-! # All trees and all paths are enumerated

`tree_columns` prunes choices of parents that close a cycle or leave a node unreached, and yields
a breadth-first tree ahead of the others.  Still every tree over the edges comes exactly once
(`mem_treeColumns`, `nodup_treeColumns`), and so does every simple path (`mem_paths`,
`nodup_paths`). -/
namespace VeriCCL

open Relation (ReflTransGen TransGen)

/-! ## Sorted edges -/

/-- Edges in order. -/
def SortedEdges (edges : List (ℕ × ℕ)) : Prop := edges.Pairwise fun a b => edgeLe a b = true

theorem sortedEdges_sortEdges (edges : List (ℕ × ℕ)) : SortedEdges (sortEdges edges) :=
  List.pairwise_mergeSort edgeLe_trans edgeLe_total edges

theorem edgeLe_antisymm {a b : ℕ × ℕ} (hab : edgeLe a b = true) (hba : edgeLe b a = true) : a = b := by
  simp only [edgeLe, decide_eq_true_eq] at hab hba
  exact Prod.ext (by omega) (by omega)

/-- Sorted edges are known by what they are. -/
theorem SortedEdges.eq_of_perm {l m : List (ℕ × ℕ)} (hl : SortedEdges l) (hm : SortedEdges m)
    (h : l.Perm m) : l = m :=
  h.eq_of_pairwise (fun _ _ _ _ => edgeLe_antisymm) hl hm

theorem SortedEdges.sortEdges_eq {l m : List (ℕ × ℕ)} (hl : SortedEdges l) (h : m.Perm l) :
    sortEdges m = l :=
  (sortedEdges_sortEdges m).eq_of_perm hl ((sortEdges_perm m).trans h)

/-! ## Trees have no cycles -/

section Tree
variable {V : Finset ℕ} {root v : ℕ} {tree : List (ℕ × ℕ)}

theorem Arborescence.acyclic (h : Arborescence V root tree) (v : ℕ) : ¬ TransGen (Arc tree) v v := by
  intro hcycle
  have hV : v ∈ V := by
    obtain ⟨u, _, harc⟩ := (TransGen.tail'_iff).mp hcycle
    exact ((h.heads v).mp (List.mem_map.mpr ⟨(u, v), harc, rfl⟩)).1
  have hreach := h.reach v hV
  clear hV
  -- along the way from the root: a cycle through a vertex goes through its parent
  induction hreach with
  | refl =>
    obtain ⟨u, _, harc⟩ := (TransGen.tail'_iff).mp hcycle
    exact ((h.heads root).mp (List.mem_map.mpr ⟨(u, root), harc, rfl⟩)).2 rfl
  | @tail a b _ hab ih =>
    obtain ⟨c, hbc, hcb⟩ := (TransGen.tail'_iff).mp hcycle
    obtain rfl := h.head_unique hcb hab
    exact ih (TransGen.head' hab hbc)

/-- Two trees over the same vertices are equal if one has the edges of the other. -/
theorem Arborescence.perm_of_subset {tree' : List (ℕ × ℕ)} (h : Arborescence V root tree)
    (h' : Arborescence V root tree') (hsub : ∀ e ∈ tree, e ∈ tree') : tree.Perm tree' := by
  have hnodup : tree.Nodup := List.Nodup.of_map _ h.once
  have hnodup' : tree'.Nodup := List.Nodup.of_map _ h'.once
  refine (List.perm_ext_iff_of_nodup hnodup hnodup').mpr fun e => ⟨hsub e, fun he => ?_⟩
  obtain ⟨u, v⟩ := e
  have hv := (h.heads v).mpr ((h'.heads v).mp (List.mem_map.mpr ⟨_, he, rfl⟩))
  obtain ⟨⟨u', _⟩, hu', rfl⟩ := List.mem_map.mp hv
  obtain rfl := h'.head_unique he (hsub _ hu')
  exact hu'

/-! ## Parents along a tree -/

/-- The parents are those of the tree. -/
def ParentsIn (tree : List (ℕ × ℕ)) (parents : Dict ℕ ℕ) : Prop :=
  ∀ child parent, parents.get? child = some parent → (parent, child) ∈ tree

/-- Going up along a tree leads back to nothing. -/
theorem leadsBack_eq_false (h : Arborescence V root tree) {parents : Dict ℕ ℕ}
    (hparents : ParentsIn tree parents) (fuel : ℕ) {cursor : ℕ} {seen : List ℕ}
    (hseen : ∀ s ∈ seen, TransGen (Arc tree) cursor s) :
    leadsBack parents fuel cursor seen = false := by
  have hnew : cursor ∉ seen := fun hmem => h.acyclic cursor (hseen cursor hmem)
  induction fuel generalizing cursor seen with
  | zero => exact decide_eq_false hnew
  | succ fuel ih =>
    rw [leadsBack, if_neg hnew]
    cases hget : parents.get? cursor with
    | none => rfl
    | some parent =>
      have harc := hparents cursor parent hget
      have hseen' : ∀ s ∈ cursor :: seen, TransGen (Arc tree) parent s := by
        intro s hs
        rcases List.mem_cons.mp hs with rfl | hs
        · exact .single harc
        · exact .head harc (hseen s hs)
      exact ih hseen' fun hmem => h.acyclic parent (hseen' parent hmem)

/-- What is left of the edges reaches every node. -/
theorem reachable_remaining {nodes : List ℕ} {edges : List (ℕ × ℕ)} {parents : Dict ℕ ℕ}
    (h : Arborescence nodes.toFinset root tree) (hedges : ∀ e ∈ tree, e ∈ edges)
    (hparents : ParentsIn tree parents) (hreach : reachable nodes root edges = true) :
    reachable nodes root (remainingEdges edges parents) = true := by
  rw [reachable_iff] at hreach ⊢
  have htree : ∀ e ∈ tree, e ∈ remainingEdges edges parents := by
    intro e he
    refine mem_remainingEdges.mpr ⟨hedges e he, ?_⟩
    cases hget : parents.get? e.2 with
    | none => exact .inl rfl
    | some parent => exact .inr (congrArg some (h.head_unique (hparents _ _ hget) he))
  intro v
  constructor
  · intro hv
    exact ReflTransGen.mono (fun _ _ harc => htree _ harc) _ _ (h.reach v (List.mem_toFinset.mpr hv))
  · intro hpath
    exact (hreach v).mpr (ReflTransGen.mono
      (fun _ _ harc => (mem_remainingEdges.mp harc).1) _ _ hpath)

end Tree

/-! ## Every choice of parents -/

section Visit
variable {nodes targets : List ℕ} {root : ℕ} {edges tree : List (ℕ × ℕ)} {parents : Dict ℕ ℕ}

/-- The parents that have been chosen stay. -/
theorem parents_mem_visitTargets (hmem : tree ∈ visitTargets nodes root edges targets parents)
    (htargets : targets.Nodup) (hnew : ∀ t ∈ targets, t ∉ parents.keys)
    {child parent : ℕ} (hget : parents.get? child = some parent) : (parent, child) ∈ tree := by
  induction targets generalizing parents with
  | nil =>
    rw [visitTargets, List.mem_singleton] at hmem
    subst hmem
    exact mem_sortEdges.mpr (List.mem_map.mpr ⟨_, Dict.mem_of_get? hget, rfl⟩)
  | cons target targets ih =>
    rw [visitTargets, List.mem_flatMap] at hmem
    obtain ⟨src, -, hmem⟩ := hmem
    split at hmem
    · cases hmem
    · simp only at hmem
      split at hmem
      · rw [List.nodup_cons] at htargets
        refine ih hmem htargets.2 (fun t ht => ?_) ?_
        · rw [Dict.mem_keys_set, not_or]
          exact ⟨fun heq => htargets.1 (heq ▸ ht), hnew t (List.mem_cons_of_mem _ ht)⟩
        · have hkey : child ≠ target := by
            rintro rfl
            exact hnew child List.mem_cons_self (List.mem_map_of_mem (Dict.mem_of_get? hget))
          rwa [Dict.get?_set_ne _ _ hkey.symm]
      · cases hmem

/-- **Every tree comes**: its parents are among the choices, close no cycle and leave every node
reached. -/
theorem mem_visitTargets_of_tree (h : Arborescence nodes.toFinset root tree)
    (hsorted : SortedEdges tree) (hedges : ∀ e ∈ tree, e ∈ edges)
    (hreach : reachable nodes root edges = true) (hdistinct : parents.Distinct)
    (hparents : ParentsIn tree parents)
    (hkeys : ∀ v ∈ nodes, v ≠ root → v ∈ parents.keys ∨ v ∈ targets)
    (htargets : ∀ t ∈ targets, t ∈ nodes ∧ t ≠ root) :
    tree ∈ visitTargets nodes root edges targets parents := by
  induction targets generalizing parents with
  | nil =>
    rw [visitTargets, List.mem_singleton]
    refine (hsorted.sortEdges_eq ?_).symm
    have hnodup : (parents.map fun entry => (entry.2, entry.1)).Nodup :=
      (List.Nodup.of_map _ hdistinct).map fun a b hab =>
        Prod.ext (Prod.ext_iff.mp hab).2 (Prod.ext_iff.mp hab).1
    refine (List.perm_ext_iff_of_nodup hnodup (List.Nodup.of_map _ h.once)).mpr fun e => ?_
    constructor
    · intro he
      obtain ⟨entry, hentry, rfl⟩ := List.mem_map.mp he
      exact hparents _ _ (Dict.get?_of_mem hdistinct hentry)
    · intro he
      have hhead := (h.heads e.2).mp (List.mem_map_of_mem he)
      have hkey := (hkeys e.2 (List.mem_toFinset.mp hhead.1) hhead.2).resolve_right (by simp)
      obtain ⟨entry, hentry, hchild⟩ := List.mem_map.mp hkey
      have harc := hparents _ _ (Dict.get?_of_mem hdistinct hentry)
      rw [hchild] at harc
      have hparent : e.1 = entry.2 := h.head_unique he harc
      exact List.mem_map.mpr ⟨entry, hentry, Prod.ext hparent.symm hchild⟩
  | cons target targets ih =>
    obtain ⟨hnode, hne⟩ := htargets target List.mem_cons_self
    obtain ⟨⟨src, head⟩, harc, hhead⟩ := List.mem_map.mp
      ((h.heads target).mpr ⟨List.mem_toFinset.mpr hnode, hne⟩)
    obtain rfl : head = target := hhead
    have hchosen : ParentsIn tree (parents.set head src) := by
      intro child parent hget
      by_cases hchild : child = head
      · subst hchild
        rw [Dict.get?_set_self] at hget
        exact Option.some.inj hget ▸ harc
      · rw [Dict.get?_set_ne _ _ (Ne.symm hchild)] at hget
        exact hparents child parent hget
    rw [visitTargets, List.mem_flatMap]
    refine ⟨src, List.mem_map.mpr ⟨(src, head), List.mem_filter.mpr ⟨hedges _ harc, by simp⟩, rfl⟩, ?_⟩
    have hback : leadsBack parents parents.length src [head] = false := by
      refine leadsBack_eq_false h hparents _ fun s hs => ?_
      exact List.mem_singleton.mp hs ▸ .single harc
    rw [if_neg (by simp [hback])]
    simp only
    rw [if_pos (reachable_remaining h hedges hchosen hreach)]
    refine ih (hdistinct.set head src) hchosen (fun v hv hvroot => ?_)
      fun t ht => htargets t (List.mem_cons_of_mem _ ht)
    rw [Dict.mem_keys_set]
    rcases hkeys v hv hvroot with hv | hv
    · exact .inl (.inr hv)
    · rcases List.mem_cons.mp hv with hv | hv
      · exact .inl (.inl hv)
      · exact .inr hv

/-- A node has one parent in what comes. -/
theorem once_of_mem_visitTargets (hmem : tree ∈ visitTargets nodes root edges targets parents)
    (htargets : targets.Nodup) (hnew : ∀ t ∈ targets, t ∉ parents.keys)
    (hdistinct : parents.Distinct) (hedges : ∀ entry ∈ parents, (entry.2, entry.1) ∈ edges)
    (hreach : reachable nodes root (remainingEdges edges parents) = true) :
    (tree.map (·.2)).Nodup := by
  obtain ⟨final, rfl, hfinal, -⟩ := mem_visitTargets hmem htargets hnew hdistinct hedges hreach
  refine ((sortEdges_perm _).map (·.2)).nodup_iff.mpr ?_
  rw [List.map_map]
  exact hfinal

/-- **No tree comes twice**: two choices for a node differ in the edge into it. -/
theorem nodup_visitTargets (hnodup : edges.Nodup) (htargets : targets.Nodup)
    (hnew : ∀ t ∈ targets, t ∉ parents.keys) (hdistinct : parents.Distinct)
    (hedges : ∀ entry ∈ parents, (entry.2, entry.1) ∈ edges)
    (hreach : reachable nodes root (remainingEdges edges parents) = true) :
    (visitTargets nodes root edges targets parents).Nodup := by
  induction targets generalizing parents with
  | nil => exact List.nodup_singleton _
  | cons target targets ih =>
    rw [List.nodup_cons] at htargets
    have hnext : ∀ src, ∀ t ∈ targets, t ∉ (parents.set target src).keys := by
      intro src t ht
      rw [Dict.mem_keys_set, not_or]
      exact ⟨fun heq => htargets.1 (heq ▸ ht), hnew t (List.mem_cons_of_mem _ ht)⟩
    have hset : ∀ src, (src, target) ∈ edges →
        ∀ entry ∈ parents.set target src, (entry.2, entry.1) ∈ edges := by
      intro src harc entry he
      rcases Dict.mem_set he with he | rfl
      · exact hedges entry he
      · exact harc
    rw [visitTargets, List.nodup_flatMap]
    constructor
    · intro src hsrc
      have harc : (src, target) ∈ edges := by simpa using hsrc
      split
      · exact List.nodup_nil
      · simp only
        split
        · next hleft =>
          exact ih htargets.2 (hnext src) (hdistinct.set target src) (hset src harc) hleft
        · exact List.nodup_nil
    · have hsources : ((edges.filter fun e => e.2 = target).map (·.1)).Nodup := by
        refine (hnodup.filter _).map_on fun a ha b hb hab => Prod.ext hab ?_
        simp only [List.mem_filter, decide_eq_true_eq] at ha hb
        exact ha.2.trans hb.2.symm
      refine hsources.imp_of_mem fun {src src'} hsrc hsrc' hne => ?_
      have harc : (src, target) ∈ edges := by simpa using hsrc
      have harc' : (src', target) ∈ edges := by simpa using hsrc'
      rw [Function.onFun, List.disjoint_left]
      intro tree htree htree'
      split at htree
      · cases htree
      split at htree'
      · cases htree'
      simp only at htree htree'
      split at htree
      · next hleft =>
        split at htree'
        · have honce := once_of_mem_visitTargets htree htargets.2 (hnext src)
            (hdistinct.set target src) (hset src harc) hleft
          have hmem := parents_mem_visitTargets htree htargets.2 (hnext src) (Dict.get?_set_self _ _ _)
          have hmem' := parents_mem_visitTargets htree' htargets.2 (hnext src')
            (Dict.get?_set_self _ _ _)
          exact hne (congrArg Prod.fst (List.inj_on_of_nodup_map honce hmem hmem' rfl))
        · cases htree'
      · cases htree

end Visit

/-! ## `tree_columns` -/

/-- A tree out of a root that spans the nodes, over some edges, in order. -/
structure SpanningTree (nodes : List ℕ) (root : ℕ) (edges tree : List (ℕ × ℕ)) : Prop where
  spans : Arborescence nodes.toFinset root tree
  within : ∀ e ∈ tree, e ∈ edges
  sorted : SortedEdges tree

section TreeColumns
variable {nodes : List ℕ} {root : ℕ} {edges tree : List (ℕ × ℕ)}

/-- Sorting the edges changes nothing. -/
theorem spanningTree_sortEdges : SpanningTree nodes root (sortEdges edges.dedup) tree ↔
    SpanningTree nodes root edges tree := by
  have hmem : ∀ e, e ∈ sortEdges edges.dedup ↔ e ∈ edges := by simp
  exact ⟨fun h => ⟨h.spans, fun e he => (hmem e).mp (h.within e he), h.sorted⟩,
    fun h => ⟨h.spans, fun e he => (hmem e).mpr (h.within e he), h.sorted⟩⟩

/-- Where there is a tree, the nodes are what is reached. -/
theorem SpanningTree.reachable (h : SpanningTree nodes root edges tree)
    (hends : ∀ e ∈ edges, e.2 ∈ nodes) : reachable nodes root edges = true := by
  rw [reachable_iff]
  intro v
  constructor
  · intro hv
    exact ReflTransGen.mono (fun _ _ harc => h.within _ harc) _ _
      (h.spans.reach v (List.mem_toFinset.mpr hv))
  · intro hpath
    rcases hpath.cases_tail with rfl | ⟨u, -, harc⟩
    · exact List.mem_toFinset.mp h.spans.root_mem
    · exact hends _ harc

/-- **`tree_columns` yields all spanning trees**, and nothing else. -/
theorem mem_treeColumns (hnodes : nodes.Nodup) (hends : ∀ e ∈ edges, e.2 ∈ nodes) :
    tree ∈ treeColumns nodes root edges ↔ SpanningTree nodes root edges tree := by
  constructor
  · intro hmem
    obtain ⟨htree, hedges⟩ := mem_treeColumns_tree hnodes hmem
    refine ⟨htree, hedges, ?_⟩
    unfold treeColumns at hmem
    simp only at hmem
    split at hmem
    · next hreach =>
      rcases List.mem_cons.mp hmem with rfl | hmem
      · exact sortedEdges_sortEdges _
      · obtain ⟨final, rfl, -⟩ := mem_visitTargets (List.mem_filter.mp hmem).1 (hnodes.filter _)
          (by simp [Dict.keys]) Dict.distinct_nil (by simp) (by simpa [remainingEdges] using hreach)
        exact sortedEdges_sortEdges _
    · cases hmem
  · intro h
    have hsorted := spanningTree_sortEdges.mpr h
    have hreach := hsorted.reachable fun e he => hends e (by simpa using he)
    unfold treeColumns
    simp only
    rw [if_pos hreach, List.mem_cons]
    by_cases hseed : tree = seedTree root (sortEdges edges.dedup)
    · exact .inl hseed
    · refine .inr (List.mem_filter.mpr ⟨?_, by simpa using hseed⟩)
      refine mem_visitTargets_of_tree hsorted.spans hsorted.sorted hsorted.within hreach
        Dict.distinct_nil (by simp [ParentsIn]) (fun v hv hne => ?_) (by simp)
      exact .inr (List.mem_filter.mpr ⟨hv, by simpa using hne⟩)

/-- **`tree_columns` yields no tree twice.** -/
theorem nodup_treeColumns (hnodes : nodes.Nodup) : (treeColumns nodes root edges).Nodup := by
  unfold treeColumns
  simp only
  split
  · next hreach =>
    have hedges : (sortEdges edges.dedup).Nodup := (sortEdges_perm _).nodup_iff.mpr (List.nodup_dedup _)
    have hvisit := nodup_visitTargets hedges (hnodes.filter (· ≠ root)) (by simp [Dict.keys])
      Dict.distinct_nil (by simp) (by simpa [remainingEdges] using hreach)
    exact List.nodup_cons.mpr ⟨by simp, hvisit.filter _⟩
  · exact List.nodup_nil

end TreeColumns

/-! ## `_paths` -/

section Paths
variable {edges route : List (ℕ × ℕ)} {source target : ℕ} {path : List ℕ}

/-- A path is known by where it starts and by its edges. -/
theorem eq_of_zip_tail {path' : List ℕ} (hhead : path.head? = path'.head?)
    (hzip : path.zip path.tail = path'.zip path'.tail) : path = path' := by
  have htail : path.tail = path'.tail := by
    have h := congrArg (List.map Prod.snd) hzip
    rwa [List.map_snd_zip (by simp), List.map_snd_zip (by simp)] at h
  cases path <;> cases path' <;> simp_all

/-- What `visit` yields are the extensions of a path to simple paths to the target. -/
theorem mem_pathsFrom (fuel : ℕ) (hne : path ≠ []) (hnodup : path.Nodup)
    (hlinked : path.IsChain fun a b => (a, b) ∈ edges) :
    route ∈ pathsFrom edges target fuel path ↔
      ∃ more, more.length ≤ fuel ∧ route = (path ++ more).zip (path ++ more).tail ∧
        (path ++ more).Nodup ∧ ((path ++ more).IsChain fun a b => (a, b) ∈ edges) ∧
        (path ++ more).getLast? = some target := by
  obtain ⟨last, hlast⟩ : ∃ last, path.getLast? = some last := ⟨_, List.getLast?_eq_some_getLast hne⟩
  induction fuel generalizing path last with
  | zero =>
    rw [pathsFrom]
    split
    · next hend =>
      rw [List.mem_singleton]
      constructor
      · rintro rfl
        exact ⟨[], le_rfl, by simp [hnodup, hlinked, hend]⟩
      · rintro ⟨more, hmore, rfl, -⟩
        rw [List.length_eq_zero_iff.mp (Nat.le_zero.mp hmore), List.append_nil]
    · next hend =>
      constructor
      · intro h
        cases h
      · rintro ⟨more, hmore, -, -, -, hlast'⟩
        rw [List.length_eq_zero_iff.mp (Nat.le_zero.mp hmore), List.append_nil] at hlast'
        exact absurd hlast' hend
  | succ fuel ih =>
    rw [pathsFrom]
    split
    · -- the path has arrived, and a simple path ends there
      next hend =>
      rw [List.mem_singleton]
      constructor
      · rintro rfl
        exact ⟨[], Nat.zero_le _, by simp [hnodup, hlinked, hend]⟩
      · rintro ⟨more, -, rfl, hmore, -, hlast'⟩
        rw [eq_nil_of_getLast? hmore hend hlast', List.append_nil]
    · next hend =>
      simp only [List.mem_flatMap]
      constructor
      · rintro ⟨⟨rank, next⟩, hlink, hroute⟩
        split at hroute
        · next hstep =>
          obtain ⟨hrank, hnew⟩ := hstep
          obtain ⟨more, hmore, h⟩ := (ih (by simp) (nodup_snoc hnodup hnew)
            (isChain_snoc hlinked hrank hlink) next (by simp)).mp hroute
          exact ⟨next :: more, Nat.succ_le_succ hmore, by simpa using h⟩
        · cases hroute
      · rintro ⟨more, hmore, rfl, hnodup', hlinked', hlast'⟩
        cases more with
        | nil => exact absurd (by simpa using hlast') hend
        | cons next more =>
          have hlink : (last, next) ∈ edges :=
            (List.isChain_append.mp hlinked').2.2 last hlast next rfl
          have hnew : next ∉ path := fun hmem =>
            (List.nodup_append.mp hnodup').2.2 next hmem next List.mem_cons_self rfl
          have hmoved : path ++ [next] ++ more = path ++ next :: more := by simp
          refine ⟨(last, next), hlink, ?_⟩
          rw [if_pos ⟨hlast, hnew⟩, ih (by simp) (nodup_snoc hnodup hnew)
            (isChain_snoc hlinked hlast hlink) next (by simp)]
          refine ⟨more, Nat.le_of_succ_le_succ hmore, ?_⟩
          rw [hmoved]
          exact ⟨rfl, hnodup', hlinked', hlast'⟩

/-- **`_paths` yields all simple paths**, and nothing else. -/
theorem mem_paths : route ∈ paths edges source target ↔
    ∃ path, SimplePath edges source target path ∧ route = path.zip path.tail := by
  unfold paths
  rw [mem_pathsFrom _ (by simp) (by simp) (by simp)]
  simp only [simplePath_iff_extends]
  constructor
  · rintro ⟨more, -, rfl, hnodup, hlinked, hlast⟩
    exact ⟨_, ⟨more, rfl, hnodup, hlinked, hlast⟩, rfl⟩
  · rintro ⟨_, ⟨more, rfl, hnodup, hlinked, hlast⟩, rfl⟩
    refine ⟨more, ?_, rfl, hnodup, hlinked, hlast⟩
    -- the ranks after the source are heads of different edges
    have hheads : ∀ v ∈ more, v ∈ edges.map (·.2) := by
      intro v hv
      have hzip := isChain_iff_zip.mp hlinked
      have htail : ([source] ++ more).tail = (([source] ++ more).zip ([source] ++ more).tail).map (·.2) :=
        (List.map_snd_zip (by simp)).symm
      obtain ⟨e, he, rfl⟩ := List.mem_map.mp (htail ▸ (by simpa using hv : v ∈ ([source] ++ more).tail))
      exact List.mem_map_of_mem (hzip e he)
    have hmore : more.Nodup := (List.nodup_append.mp hnodup).2.1
    simpa using (List.subperm_of_subset hmore hheads).length_le

theorem nodup_pathsFrom (hedges : edges.Nodup) (fuel : ℕ) (hne : path ≠ []) (hnodup : path.Nodup)
    (hlinked : path.IsChain fun a b => (a, b) ∈ edges) :
    (pathsFrom edges target fuel path).Nodup := by
  induction fuel generalizing path with
  | zero =>
    rw [pathsFrom]
    split
    · exact List.nodup_singleton _
    · exact List.nodup_nil
  | succ fuel ih =>
    rw [pathsFrom]
    split
    · exact List.nodup_singleton _
    · simp only [List.nodup_flatMap]
      constructor
      · rintro ⟨rank, next⟩ hlink
        split
        · next hstep =>
          exact ih (by simp) (nodup_snoc hnodup hstep.2) (isChain_snoc hlinked hstep.1 hlink)
        · exact List.nodup_nil
      · -- a path says by which edge it leaves its prefix
        refine List.Pairwise.imp_of_mem ?_ hedges
        rintro ⟨rank, next⟩ ⟨rank', next'⟩ hlink hlink' hdiffer
        rw [Function.onFun, List.disjoint_left]
        intro route hroute hroute'
        split at hroute
        · next hstep =>
          split at hroute'
          · next hstep' =>
            rw [mem_pathsFrom fuel (by simp) (nodup_snoc hnodup hstep.2)
              (isChain_snoc hlinked hstep.1 hlink)] at hroute
            rw [mem_pathsFrom fuel (by simp) (nodup_snoc hnodup hstep'.2)
              (isChain_snoc hlinked hstep'.1 hlink')] at hroute'
            obtain ⟨more, -, rfl, -⟩ := hroute
            obtain ⟨more', -, hzip, -⟩ := hroute'
            have hhead : (path ++ [next] ++ more).head? = (path ++ [next'] ++ more').head? := by
              obtain ⟨first, rest, rfl⟩ := List.exists_cons_of_ne_nil hne
              rfl
            have hsame := eq_of_zip_tail hhead hzip
            simp only [List.append_assoc, List.append_cancel_left_eq, List.singleton_append,
              List.cons.injEq] at hsame
            have hrank : rank = rank' := Option.some.inj (hstep.1.symm.trans hstep'.1)
            exact hdiffer (Prod.ext hrank hsame.1)
          · cases hroute'
        · cases hroute

/-- **`_paths` yields no path twice.** -/
theorem nodup_paths (hedges : edges.Nodup) : (paths edges source target).Nodup :=
  nodup_pathsFrom hedges _ (by simp) (by simp) (by simp)

end Paths

end VeriCCL
