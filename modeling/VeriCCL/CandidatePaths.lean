import VeriCCL.PathRanking
import Mathlib.Data.List.Chain
import Mathlib.Tactic

/-! # Candidate paths are ranked exactly

The heap of `ranked_simple_paths` searches the tree of simple paths best first: costs are not
negative, and every path has one hop more than its prefix, so an entry is less than what is pushed
for it.  `viable_path_links` closes its sets under the links, and a simple path stays inside. -/
namespace VeriCCL

variable {links : List (ℕ × ℕ)} {source destination : ℕ} {edgeCost : ℕ → ℕ → ℚ}

/-! ## Destinations -/

theorem gatherDestinations_get? (links : List (ℕ × ℕ)) (rank : ℕ) :
    ((gatherDestinations links).get? rank).getD [] =
      (links.filter fun link => link.1 = rank).map (·.2) := by
  induction links using List.reverseRecOn with
  | nil => rfl
  | append_singleton links link ih =>
    have hturn : gatherDestinations (links ++ [link]) = (gatherDestinations links).set link.1
        (((gatherDestinations links).get? link.1).getD [] ++ [link.2]) := by
      rw [gatherDestinations, List.foldl_append]
      rfl
    rw [hturn, Dict.get?_set, List.filter_append, List.map_append, ← ih]
    by_cases hrank : link.1 = rank
    · subst hrank
      simp
    · simp [hrank]

theorem perm_destinationsOf (links : List (ℕ × ℕ)) (rank : ℕ) :
    (destinationsOf links rank).Perm ((links.filter fun link => link.1 = rank).map (·.2)) := by
  rw [← gatherDestinations_get?, destinationsOf]
  cases (gatherDestinations links).get? rank with
  | none => exact List.Perm.refl _
  | some values => exact List.perm_insertionSort _ values

theorem mem_destinationsOf {rank next : ℕ} :
    next ∈ destinationsOf links rank ↔ (rank, next) ∈ links := by
  rw [(perm_destinationsOf links rank).mem_iff]
  simp

theorem nodup_destinationsOf (h : links.Nodup) (rank : ℕ) : (destinationsOf links rank).Nodup := by
  rw [(perm_destinationsOf links rank).nodup_iff]
  refine List.Nodup.map_on ?_ (h.filter _)
  rintro ⟨a, b⟩ ha ⟨c, d⟩ hc rfl
  simp only [List.mem_filter, decide_eq_true_eq] at ha hc
  rw [ha.2, hc.2]

/-! ## Paths -/

theorem pathCost_snoc {path : Path} {rank : ℕ} (h : path.getLast? = some rank) (next : ℕ) :
    pathCost edgeCost (path ++ [next]) = pathCost edgeCost path + edgeCost rank next := by
  induction path with
  | nil => cases h
  | cons a path ih =>
    cases path with
    | nil =>
      obtain rfl : a = rank := by simpa using h
      simp [pathCost]
    | cons b path =>
      have ih := ih (by simpa using h)
      simp only [pathCost, List.cons_append, List.tail_cons, List.zip_cons_cons, List.map_cons,
        List.sum_cons] at ih ⊢
      rw [ih]
      ring

theorem pathRank_snoc {path : Path} {rank : ℕ} (h : path.getLast? = some rank) (next : ℕ) :
    pathRank edgeCost (path ++ [next]) =
      toLex (pathCost edgeCost path + edgeCost rank next,
        toLex (path.length - 1 + 1, path ++ [next])) := by
  have hpos : 0 < path.length := by
    cases path with
    | nil => cases h
    | cons => exact Nat.succ_pos _
  rw [pathRank, pathCost_snoc h, List.length_append, List.length_singleton]
  have hlength : path.length + 1 - 1 = path.length - 1 + 1 := by omega
  rw [hlength]

theorem pathRank_injective : Function.Injective (pathRank edgeCost) := fun _ _ h =>
  congrArg PathEntry.path h

@[simp] theorem path_pathRank (path : Path) : (pathRank edgeCost path).path = path := rfl

/-! ## The tree of simple paths -/

theorem mem_extendPath {entry next : PathEntry} : next ∈ extendPath links edgeCost entry ↔
    ∃ rank target, entry.path.getLast? = some rank ∧ (rank, target) ∈ links ∧ target ∉ entry.path ∧
      next = toLex ((ofLex entry).1 + edgeCost rank target,
        toLex ((ofLex (ofLex entry).2).1 + 1, entry.path ++ [target])) := by
  unfold extendPath
  cases hlast : entry.path.getLast? with
  | none => simp
  | some rank =>
    simp only [List.mem_map, List.mem_filter, decide_eq_true_eq, mem_destinationsOf]
    constructor
    · rintro ⟨target, ⟨hlink, hnew⟩, rfl⟩
      exact ⟨rank, target, rfl, hlink, hnew, rfl⟩
    · rintro ⟨_, target, ⟨⟩, hlink, hnew, rfl⟩
      exact ⟨target, ⟨hlink, hnew⟩, rfl⟩

/-- The search of `ranked_simple_paths`. -/
def pathTree (links : List (ℕ × ℕ)) (destination : ℕ) (edgeCost : ℕ → ℕ → ℚ)
    (hcost : ∀ link ∈ links, 0 ≤ edgeCost link.1 link.2) : BestFirst.SearchTree PathEntry where
  expand := extendPath links edgeCost
  goal entry := decide (entry.path.getLast? = some destination)
  height entry := ((links.map (·.2)).toFinset \ entry.path.toFinset).card
  lt_expand := by
    intro entry next h
    obtain ⟨rank, target, -, hlink, -, rfl⟩ := mem_extendPath.mp h
    -- the cost does not fall, and the hops grow
    refine Prod.Lex.lt_iff.mpr ?_
    rcases (hcost _ hlink).eq_or_lt with hzero | hpos
    · refine .inr ⟨?_, Prod.Lex.lt_iff.mpr (.inl (Nat.lt_succ_self _))⟩
      exact (by rw [← hzero, add_zero] : (ofLex entry).1 = (ofLex entry).1 + edgeCost rank target)
    · exact .inl (lt_add_of_pos_right _ hpos)
  height_expand := by
    intro entry next h
    obtain ⟨rank, target, -, hlink, hnew, rfl⟩ := mem_extendPath.mp h
    refine Finset.card_lt_card (Finset.ssubset_iff_of_subset ?_ |>.mpr ⟨target, ?_, ?_⟩)
    · refine Finset.sdiff_subset_sdiff (Finset.Subset.refl _) fun x hx => ?_
      exact List.mem_toFinset.mpr (List.mem_append_left _ (List.mem_toFinset.mp hx))
    · exact Finset.mem_sdiff.mpr ⟨List.mem_toFinset.mpr (List.mem_map.mpr ⟨_, hlink, rfl⟩),
        fun hx => hnew (List.mem_toFinset.mp hx)⟩
    · exact fun hx => (Finset.mem_sdiff.mp hx).2 (List.mem_toFinset.mpr (by simp [PathEntry.path]))

variable {hcost : ∀ link ∈ links, 0 ≤ edgeCost link.1 link.2}

theorem goal_pathTree {entry : PathEntry} : (pathTree links destination edgeCost hcost).goal entry =
    decide (entry.path.getLast? = some destination) := rfl

theorem expand_pathRank {path : Path} {rank : ℕ} (h : path.getLast? = some rank) :
    (pathTree links destination edgeCost hcost).expand (pathRank edgeCost path) =
      ((destinationsOf links rank).filter fun next => next ∉ path).map fun next =>
        pathRank edgeCost (path ++ [next]) := by
  change extendPath links edgeCost (pathRank edgeCost path) = _
  unfold extendPath
  rw [path_pathRank, h]
  exact List.map_congr_left fun next _ => (pathRank_snoc h next).symm

/-! ## Paths that grow -/

theorem nodup_snoc {α : Type} {path : List α} (h : path.Nodup) {next : α} (hnew : next ∉ path) :
    (path ++ [next]).Nodup := by
  rw [List.nodup_append]
  exact ⟨h, List.nodup_singleton _, fun a ha b hb hab =>
    hnew (by rwa [← List.mem_singleton.mp hb, ← hab])⟩

theorem isChain_snoc {α : Type} {R : α → α → Prop} {path : List α} (h : path.IsChain R) {last next : α}
    (hlast : path.getLast? = some last) (hlink : R last next) : (path ++ [next]).IsChain R := by
  rw [List.isChain_append]
  refine ⟨h, List.isChain_singleton _, fun a ha b hb => ?_⟩
  obtain rfl : last = a := Option.some.inj (hlast.symm.trans ha)
  obtain rfl : next = b := by simpa using hb
  exact hlink

/-- A path without repetitions does not come back to its last rank. -/
theorem eq_nil_of_getLast? {α : Type} {path more : List α} (h : (path ++ more).Nodup) {last : α}
    (hlast : path.getLast? = some last) (hend : (path ++ more).getLast? = some last) : more = [] := by
  cases more using List.reverseRecOn with
  | nil => rfl
  | append_singleton more final =>
    rw [← List.append_assoc] at h hend
    obtain rfl : final = last := by simpa using hend
    have hmem : final ∈ path ++ more := List.mem_append_left _ (List.mem_of_getLast? hlast)
    exact absurd rfl ((List.nodup_append.mp h).2.2 final hmem final (by simp))

/-- The goals below a path are its extensions to simple paths to the destination. -/
theorem mem_goals_pathRank {path : Path} (hne : path ≠ []) (hnodup : path.Nodup)
    (hlinked : path.IsChain fun a b => (a, b) ∈ links) {entry : PathEntry} :
    entry ∈ (pathTree links destination edgeCost hcost).goals (pathRank edgeCost path) ↔
      ∃ more, entry = pathRank edgeCost (path ++ more) ∧ (path ++ more).Nodup ∧
        ((path ++ more).IsChain fun a b => (a, b) ∈ links) ∧
        (path ++ more).getLast? = some destination := by
  induction hn : (pathTree links destination edgeCost hcost).height (pathRank edgeCost path)
    using Nat.strong_induction_on generalizing path with
  | _ n ih =>
    subst hn
    obtain ⟨rank, hlast⟩ : ∃ rank, path.getLast? = some rank :=
      ⟨_, List.getLast?_eq_some_getLast hne⟩
    by_cases hgoal : rank = destination
    · -- the path has arrived, and a simple path ends there
      subst hgoal
      rw [BestFirst.SearchTree.goals_of_goal (by simp [goal_pathTree, hlast]), List.mem_singleton]
      constructor
      · rintro rfl
        exact ⟨[], by simp [hnodup, hlinked, hlast]⟩
      · rintro ⟨more, rfl, hmore, -, hend⟩
        rw [eq_nil_of_getLast? hmore hlast hend, List.append_nil]
    · rw [BestFirst.SearchTree.goals_of_expand (by simp [goal_pathTree, hlast, hgoal]),
        expand_pathRank hlast, List.mem_flatMap]
      simp only [List.mem_map, List.mem_filter, decide_eq_true_eq, mem_destinationsOf]
      have hnext : ∀ next, (rank, next) ∈ links → next ∉ path →
          (entry ∈ (pathTree links destination edgeCost hcost).goals
              (pathRank edgeCost (path ++ [next])) ↔
            ∃ more, entry = pathRank edgeCost (path ++ [next] ++ more) ∧
              (path ++ [next] ++ more).Nodup ∧
              ((path ++ [next] ++ more).IsChain fun a b => (a, b) ∈ links) ∧
              (path ++ [next] ++ more).getLast? = some destination) := by
        intro next hlink hnew
        refine ih _ ?_ (by simp) (nodup_snoc hnodup hnew) (isChain_snoc hlinked hlast hlink) rfl
        refine (pathTree links destination edgeCost hcost).height_expand _ _ ?_
        rw [expand_pathRank hlast]
        exact List.mem_map.mpr ⟨next, List.mem_filter.mpr
          ⟨mem_destinationsOf.mpr hlink, by simpa using hnew⟩, rfl⟩
      constructor
      · rintro ⟨_, ⟨next, ⟨hlink, hnew⟩, rfl⟩, hentry⟩
        obtain ⟨more, rfl, h⟩ := (hnext next hlink hnew).mp hentry
        exact ⟨next :: more, by simpa using h⟩
      · rintro ⟨more, rfl, hmore, hchain, hend⟩
        cases more with
        | nil =>
          rw [List.append_nil, hlast] at hend
          exact absurd (Option.some.inj hend) hgoal
        | cons next more =>
          have hlink : (rank, next) ∈ links := by
            have h := (List.isChain_append.mp hchain).2.2
            exact h rank hlast next rfl
          have hnew : next ∉ path := fun hmem =>
            (List.nodup_append.mp hmore).2.2 next hmem next List.mem_cons_self rfl
          have hmoved : path ++ [next] ++ more = path ++ next :: more := by simp
          refine ⟨_, ⟨next, ⟨hlink, hnew⟩, rfl⟩, (hnext next hlink hnew).mpr ⟨more, ?_⟩⟩
          rw [hmoved]
          exact ⟨rfl, hmore, hchain, hend⟩

/-- No path is found twice. -/
theorem nodup_goals_pathRank (hlinks : links.Nodup) {path : Path} (hne : path ≠ [])
    (hnodup : path.Nodup) (hlinked : path.IsChain fun a b => (a, b) ∈ links) :
    ((pathTree links destination edgeCost hcost).goals (pathRank edgeCost path)).Nodup := by
  induction hn : (pathTree links destination edgeCost hcost).height (pathRank edgeCost path)
    using Nat.strong_induction_on generalizing path with
  | _ n ih =>
    subst hn
    obtain ⟨rank, hlast⟩ : ∃ rank, path.getLast? = some rank :=
      ⟨_, List.getLast?_eq_some_getLast hne⟩
    by_cases hgoal : rank = destination
    · rw [BestFirst.SearchTree.goals_of_goal (by simp [goal_pathTree, hlast, hgoal])]
      exact List.nodup_singleton _
    · rw [BestFirst.SearchTree.goals_of_expand (by simp [goal_pathTree, hlast, hgoal]),
        expand_pathRank hlast, List.nodup_flatMap]
      have hstep : ∀ next ∈ (destinationsOf links rank).filter fun next => next ∉ path,
          (path ++ [next]).Nodup ∧ (path ++ [next]).IsChain fun a b => (a, b) ∈ links := by
        intro next hnext
        obtain ⟨hlink, hnew⟩ := List.mem_filter.mp hnext
        exact ⟨nodup_snoc hnodup (of_decide_eq_true hnew),
          isChain_snoc hlinked hlast (mem_destinationsOf.mp hlink)⟩
      constructor
      · intro entry hentry
        obtain ⟨next, hnext, rfl⟩ := List.mem_map.mp hentry
        refine ih _ ?_ (by simp) (hstep next hnext).1 (hstep next hnext).2 rfl
        refine (pathTree links destination edgeCost hcost).height_expand _ _ ?_
        rw [expand_pathRank hlast]
        exact List.mem_map.mpr ⟨next, hnext, rfl⟩
      · -- a path says by which link it leaves its prefix
        rw [List.pairwise_map]
        refine ((nodup_destinationsOf hlinks rank).filter _).imp_of_mem ?_
        intro a b ha hb hab
        refine List.disjoint_left.mpr fun entry hentry hentry' => hab ?_
        obtain ⟨more, rfl, -⟩ :=
          (mem_goals_pathRank (by simp) (hstep a ha).1 (hstep a ha).2).mp hentry
        obtain ⟨more', hsame, -⟩ :=
          (mem_goals_pathRank (by simp) (hstep b hb).1 (hstep b hb).2).mp hentry'
        have hpaths := pathRank_injective hsame
        simp only [List.append_assoc, List.append_cancel_left_eq, List.singleton_append,
          List.cons.injEq] at hpaths
        exact hpaths.1

/-- The loop of the source is the search of the tree. -/
theorem rankedLoop_eq_search (limit : ℤ) (turns : ℕ) (pending found : List PathEntry) :
    rankedLoop links destination edgeCost limit turns pending (found.map PathEntry.path) =
      ((pathTree links destination edgeCost hcost).search limit.toNat turns pending found).map
        fun found => found.map PathEntry.path := by
  induction turns generalizing pending found with
  | zero => rfl
  | succ turns ih =>
    cases pending with
    | nil => rfl
    | cons entry pending =>
      have hlimit : limit ≤ ((found.map PathEntry.path).length : ℤ) ↔
          limit.toNat ≤ found.length := by
        rw [List.length_map]
        omega
      rw [rankedLoop, BestFirst.SearchTree.search]
      by_cases hdone : limit.toNat ≤ found.length
      · rw [if_pos (hlimit.mpr hdone), if_pos hdone]
        rfl
      · rw [if_neg (mt hlimit.mp hdone), if_neg hdone]
        by_cases hgoal : entry.path.getLast? = some destination
        · rw [if_pos hgoal, if_pos (by simp [goal_pathTree, hgoal]), ← ih, List.map_append]
          rfl
        · rw [if_neg hgoal, if_neg (by simp [goal_pathTree, hgoal]), ← ih]
          rfl

/-- All simple paths, in their order. -/
def RankedPaths (links : List (ℕ × ℕ)) (source destination : ℕ) (edgeCost : ℕ → ℕ → ℚ)
    (ranked : List Path) : Prop :=
  (∀ path, path ∈ ranked ↔ SimplePath links source destination path) ∧
    ranked.Pairwise fun path path' => pathRank edgeCost path < pathRank edgeCost path'

theorem simplePath_iff_extends {path : Path} : SimplePath links source destination path ↔
    ∃ more, path = [source] ++ more ∧ ([source] ++ more).Nodup ∧
      (([source] ++ more).IsChain fun a b => (a, b) ∈ links) ∧
      ([source] ++ more).getLast? = some destination := by
  constructor
  · rintro ⟨hsource, hdestination, hlinked, hnodup⟩
    cases path with
    | nil => cases hsource
    | cons first more =>
      obtain rfl : first = source := Option.some.inj hsource
      exact ⟨more, rfl, hnodup, hlinked, hdestination⟩
  · rintro ⟨more, rfl, hnodup, hlinked, hdestination⟩
    exact ⟨rfl, hdestination, hlinked, hnodup⟩

/-- **The loop finds the first paths of their order.** -/
theorem rankedSimplePaths_take (links : LinkSet) (source destination : ℕ)
    (hcost : ∀ link ∈ links.links, 0 ≤ edgeCost link.1 link.2) (limit : ℤ) :
    ∃ ranked, RankedPaths links.links source destination edgeCost ranked ∧
      ∃ turns, ∀ fuel, turns ≤ fuel →
        rankedSimplePaths fuel links source destination edgeCost limit =
          some (ranked.take limit.toNat) := by
  let t := pathTree links.links destination edgeCost hcost
  have hstart : ([source] : Path).IsChain fun a b => (a, b) ∈ links.links := List.isChain_singleton _
  have hmem : ∀ entry, entry ∈ (t.goals (pathRank edgeCost [source])).insertionSort (· ≤ ·) ↔
      ∃ path, SimplePath links.links source destination path ∧ entry = pathRank edgeCost path := by
    intro entry
    rw [List.mem_insertionSort, mem_goals_pathRank (by simp) (List.nodup_singleton _) hstart]
    simp only [simplePath_iff_extends]
    constructor
    · rintro ⟨more, rfl, h⟩
      exact ⟨_, ⟨more, rfl, h⟩, rfl⟩
    · rintro ⟨_, ⟨more, rfl, h⟩, rfl⟩
      exact ⟨more, rfl, h⟩
  have hpath : ∀ entry ∈ (t.goals (pathRank edgeCost [source])).insertionSort (· ≤ ·),
      pathRank edgeCost entry.path = entry := by
    intro entry hentry
    obtain ⟨path, -, rfl⟩ := (hmem entry).mp hentry
    rfl
  have hsorted : ((t.goals (pathRank edgeCost [source])).insertionSort (· ≤ ·)).Pairwise
      (· < ·) := by
    have hnodup : (t.goals (pathRank edgeCost [source])).Nodup :=
      nodup_goals_pathRank links.nodup (by simp) (List.nodup_singleton source) hstart
    rw [← (List.perm_insertionSort (· ≤ ·) _).nodup_iff] at hnodup
    exact ((List.pairwise_insertionSort (· ≤ ·) _).and hnodup).imp fun h => lt_of_le_of_ne h.1 h.2
  refine ⟨((t.goals (pathRank edgeCost [source])).insertionSort (· ≤ ·)).map PathEntry.path,
    ⟨fun path => ?_, ?_⟩, t.size (pathRank edgeCost [source]) + 1, fun fuel hfuel => ?_⟩
  · rw [List.mem_map]
    constructor
    · rintro ⟨entry, hentry, rfl⟩
      obtain ⟨path, hsimple, rfl⟩ := (hmem entry).mp hentry
      exact hsimple
    · intro hsimple
      exact ⟨_, (hmem _).mpr ⟨path, hsimple, rfl⟩, rfl⟩
  · rw [List.pairwise_map]
    refine hsorted.imp_of_mem fun ha hb h => ?_
    rwa [hpath _ ha, hpath _ hb]
  · have hroot : (toLex (0, toLex (0, [source])) : PathEntry) = pathRank edgeCost [source] := by
      simp [pathRank, pathCost]
    have hloop : rankedLoop links.links destination edgeCost limit fuel
        [pathRank edgeCost [source]] [] =
        (t.search limit.toNat fuel [pathRank edgeCost [source]] []).map
          fun found => found.map PathEntry.path :=
      rankedLoop_eq_search limit fuel _ []
    have hturns : (([pathRank edgeCost [source]] : List PathEntry).map t.size).sum < fuel := by
      rw [List.map_singleton, List.sum_singleton]
      exact hfuel
    rw [rankedSimplePaths, hroot, hloop,
      BestFirst.SearchTree.search_eq limit.toNat (List.pairwise_singleton _ _) hturns []]
    simp [List.map_take]

/-! ## Viable links -/

/-- The sets are closed under a link. -/
def Viability.ClosedAt (v : Viability) (link : ℕ × ℕ) : Prop :=
  (link.1 ∈ v.forward → link.2 ∈ v.forward) ∧ (link.2 ∈ v.reverse → link.1 ∈ v.reverse)

/-- How much has been reached. -/
def Viability.reached (v : Viability) : ℕ := v.forward.card + v.reverse.card

/-- What the sets may hold. -/
structure Viability.Within (v : Viability) (F R : Finset ℕ) : Prop where
  forward : v.forward ⊆ F
  reverse : v.reverse ⊆ R

/-- The sets have grown from others. -/
structure Viability.Extends (v w : Viability) : Prop where
  forward : v.forward ⊆ w.forward
  reverse : v.reverse ⊆ w.reverse

theorem Viability.Extends.trans {u v w : Viability} (h : u.Extends v) (h' : v.Extends w) :
    u.Extends w :=
  ⟨h.forward.trans h'.forward, h.reverse.trans h'.reverse⟩

/-- **One link** is closed under already, or the sets grow and the loop goes on. -/
theorem Viability.visit_cases (v : Viability) (link : ℕ × ℕ) :
    (v.visit link = v ∧ v.ClosedAt link) ∨
      ((v.visit link).changed = true ∧ v.reached < (v.visit link).reached) := by
  by_cases hforward : link.1 ∈ v.forward ∧ link.2 ∉ v.forward <;>
    by_cases hreverse : link.2 ∈ v.reverse ∧ link.1 ∉ v.reverse
  · refine .inr ?_
    simp only [Viability.visit, if_pos hforward, if_pos hreverse, Viability.reached,
      Finset.card_insert_of_notMem hforward.2, Finset.card_insert_of_notMem hreverse.2, true_and]
    omega
  · refine .inr ?_
    simp only [Viability.visit, if_pos hforward, if_neg hreverse, Viability.reached,
      Finset.card_insert_of_notMem hforward.2, true_and]
    omega
  · refine .inr ?_
    simp only [Viability.visit, if_neg hforward, if_pos hreverse, Viability.reached,
      Finset.card_insert_of_notMem hreverse.2, true_and]
    omega
  · refine .inl ⟨by simp only [Viability.visit, if_neg hforward, if_neg hreverse], ?_, ?_⟩
    · exact fun h => not_not.mp fun h' => hforward ⟨h, h'⟩
    · exact fun h => not_not.mp fun h' => hreverse ⟨h, h'⟩

theorem Viability.forward_visit (v : Viability) (link : ℕ × ℕ) : (v.visit link).forward =
    if link.1 ∈ v.forward ∧ link.2 ∉ v.forward then insert link.2 v.forward else v.forward := by
  by_cases hforward : link.1 ∈ v.forward ∧ link.2 ∉ v.forward <;>
    by_cases hreverse : link.2 ∈ v.reverse ∧ link.1 ∉ v.reverse <;>
    simp [Viability.visit, hforward, hreverse]

theorem Viability.reverse_visit (v : Viability) (link : ℕ × ℕ) : (v.visit link).reverse =
    if link.2 ∈ v.reverse ∧ link.1 ∉ v.reverse then insert link.1 v.reverse else v.reverse := by
  by_cases hforward : link.1 ∈ v.forward ∧ link.2 ∉ v.forward <;>
    by_cases hreverse : link.2 ∈ v.reverse ∧ link.1 ∉ v.reverse <;>
    simp [Viability.visit, hforward, hreverse]

theorem Viability.extends_visit (v : Viability) (link : ℕ × ℕ) : v.Extends (v.visit link) := by
  constructor
  · rw [v.forward_visit]
    split_ifs
    · exact Finset.subset_insert _ _
    · exact Finset.Subset.refl _
  · rw [v.reverse_visit]
    split_ifs
    · exact Finset.subset_insert _ _
    · exact Finset.Subset.refl _

theorem Viability.Within.visit {v : Viability} {F R : Finset ℕ} (h : v.Within F R) {link : ℕ × ℕ}
    (hF : link.2 ∈ F) (hR : link.1 ∈ R) : (v.visit link).Within F R := by
  constructor
  · rw [v.forward_visit]
    split_ifs
    · exact Finset.insert_subset hF h.forward
    · exact h.forward
  · rw [v.reverse_visit]
    split_ifs
    · exact Finset.insert_subset hR h.reverse
    · exact h.reverse

/-- **One pass** leaves sets that are closed as they are, or grows them and goes on. -/
theorem Viability.foldl_visit_cases (links : List (ℕ × ℕ)) (v : Viability) :
    (links.foldl Viability.visit v = v ∧ ∀ link ∈ links, v.ClosedAt link) ∨
      ((links.foldl Viability.visit v).changed = true ∧
        v.reached < (links.foldl Viability.visit v).reached) := by
  induction links generalizing v with
  | nil => exact .inl ⟨rfl, by simp⟩
  | cons link links ih =>
    rw [List.foldl_cons]
    rcases v.visit_cases link with ⟨hsame, hclosed⟩ | ⟨hchanged, hgrown⟩
    · rw [hsame]
      refine (ih v).imp_left fun h => ⟨h.1, ?_⟩
      exact List.forall_mem_cons.mpr ⟨hclosed, h.2⟩
    · rcases ih (v.visit link) with ⟨hrest, -⟩ | ⟨hrest, hmore⟩
      · rw [hrest]
        exact .inr ⟨hchanged, hgrown⟩
      · exact .inr ⟨hrest, hgrown.trans hmore⟩

theorem Viability.extends_foldl (links : List (ℕ × ℕ)) (v : Viability) :
    v.Extends (links.foldl Viability.visit v) := by
  induction links generalizing v with
  | nil => exact ⟨Finset.Subset.refl _, Finset.Subset.refl _⟩
  | cons link links ih => exact (v.extends_visit link).trans (ih _)

theorem Viability.Within.foldl {v : Viability} {F R : Finset ℕ} (h : v.Within F R)
    (hF : ∀ link ∈ links, link.2 ∈ F) (hR : ∀ link ∈ links, link.1 ∈ R) :
    (links.foldl Viability.visit v).Within F R := by
  induction links generalizing v with
  | nil => exact h
  | cons link links ih =>
    rw [List.forall_mem_cons] at hF hR
    exact ih (h.visit hF.1 hR.1) hF.2 hR.2

theorem Viability.Within.reached_le {v : Viability} {F R : Finset ℕ} (h : v.Within F R) :
    v.reached ≤ F.card + R.card :=
  Nat.add_le_add (Finset.card_le_card h.forward) (Finset.card_le_card h.reverse)

/-- **The loop ends** with sets that are closed under all links. -/
theorem viabilityLoop_closed {F R : Finset ℕ} (hF : ∀ link ∈ links, link.2 ∈ F)
    (hR : ∀ link ∈ links, link.1 ∈ R) {turns : ℕ} {v : Viability} (h : v.Within F R)
    (hturns : F.card + R.card < turns + v.reached) :
    ∃ w, viabilityLoop links turns v = some w ∧ v.Extends w ∧ ∀ link ∈ links, w.ClosedAt link := by
  induction turns generalizing v with
  | zero => exact absurd h.reached_le (by omega)
  | succ turns ih =>
    have hextends : v.Extends (v.pass links) :=
      (⟨Finset.Subset.refl _, Finset.Subset.refl _⟩ : v.Extends { v with changed := false }).trans
        (Viability.extends_foldl links _)
    rw [viabilityLoop]
    rcases Viability.foldl_visit_cases links { v with changed := false } with
      ⟨hsame, hclosed⟩ | ⟨hchanged, hgrown⟩
    · have hpass : v.pass links = { v with changed := false } := hsame
      rw [if_neg (by simp [hpass])]
      exact ⟨_, rfl, hextends, by rw [hpass]; exact hclosed⟩
    · have hwithin : (v.pass links).Within F R :=
        Viability.Within.foldl ⟨h.forward, h.reverse⟩ hF hR
      have hreached : v.reached < (v.pass links).reached := hgrown
      rw [if_pos (show (v.pass links).changed = true from hchanged)]
      obtain ⟨w, hw, hmore, hclosed⟩ := ih hwithin (by omega)
      exact ⟨w, hw, hextends.trans hmore, hclosed⟩

theorem viabilityLoop_mono {turns fuel : ℕ} (hfuel : turns ≤ fuel) {v w : Viability}
    (h : viabilityLoop links turns v = some w) : viabilityLoop links fuel v = some w := by
  induction turns generalizing fuel v with
  | zero => cases h
  | succ turns ih =>
    obtain ⟨fuel, rfl⟩ : ∃ more, fuel = more + 1 := ⟨fuel - 1, by omega⟩
    rw [viabilityLoop] at h ⊢
    by_cases hchanged : (v.pass links).changed
    · rw [if_pos hchanged] at h ⊢
      exact ih (by omega) h
    · rw [if_neg hchanged] at h ⊢
      exact h

theorem isChain_iff_zip {α : Type} {R : α → α → Prop} {l : List α} :
    l.IsChain R ↔ ∀ pair ∈ l.zip l.tail, R pair.1 pair.2 := by
  induction l with
  | nil => simp
  | cons a l ih =>
    cases l with
    | nil => simp
    | cons b l =>
      rw [List.isChain_cons_cons, ih]
      simp only [List.tail_cons, List.zip_cons_cons, List.forall_mem_cons]

theorem mem_zip_tail {α : Type} {l : List α} {pair : α × α} (h : pair ∈ l.zip l.tail) :
    ∃ before after, l = before ++ pair.1 :: pair.2 :: after := by
  induction l with
  | nil => cases h
  | cons a l ih =>
    cases l with
    | nil => cases h
    | cons b l =>
      rw [List.tail_cons, List.zip_cons_cons] at h
      rcases List.mem_cons.mp h with rfl | h
      · exact ⟨[], l, rfl⟩
      · obtain ⟨before, after, hsplit⟩ := ih h
        exact ⟨a :: before, after, by rw [hsplit, List.cons_append]⟩

/-- What starts in a closed set stays in it. -/
theorem mem_forward {v : Viability} (hclosed : ∀ link ∈ links, v.ClosedAt link) {path : Path}
    (hlinked : path.IsChain fun a b => (a, b) ∈ links) (hstart : ∀ a ∈ path.head?, a ∈ v.forward) :
    ∀ a ∈ path, a ∈ v.forward := by
  induction path with
  | nil => simp
  | cons a path ih =>
    have ha := hstart a rfl
    refine List.forall_mem_cons.mpr ⟨ha, ih hlinked.tail fun b hb => ?_⟩
    exact (hclosed _ (hlinked.rel_head? hb)).1 ha

/-- What ends in a closed set was always in it. -/
theorem mem_reverse {v : Viability} (hclosed : ∀ link ∈ links, v.ClosedAt link) {path : Path}
    (hlinked : path.IsChain fun a b => (a, b) ∈ links) (hend : ∀ a ∈ path.getLast?, a ∈ v.reverse) :
    ∀ a ∈ path, a ∈ v.reverse := by
  induction path with
  | nil => simp
  | cons a path ih =>
    cases path with
    | nil => simpa using hend
    | cons b path =>
      have hrest := ih hlinked.tail fun c hc => hend c (by simpa using hc)
      refine List.forall_mem_cons.mpr ⟨?_, hrest⟩
      exact (hclosed _ (List.isChain_cons_cons.mp hlinked).1).2 (hrest b List.mem_cons_self)

/-- **A simple path uses only links that are kept.** -/
theorem SimplePath.keeps {v : Viability} (hclosed : ∀ link ∈ links, v.ClosedAt link)
    (hsource : source ∈ v.forward) (hdestination : destination ∈ v.reverse) {path : Path}
    (h : SimplePath links source destination path) :
    ∀ link ∈ path.zip path.tail, v.keeps source destination link := by
  intro link hlink
  obtain ⟨before, after, hsplit⟩ := mem_zip_tail hlink
  have hforward := mem_forward hclosed h.linked fun a ha => by
    obtain rfl : source = a := Option.some.inj (h.source.symm.trans ha)
    exact hsource
  have hreverse := mem_reverse hclosed h.linked fun a ha => by
    obtain rfl : destination = a := Option.some.inj (h.destination.symm.trans ha)
    exact hdestination
  have hnodup := h.nodup
  rw [hsplit, List.nodup_append] at hnodup
  obtain ⟨-, hends, hapart⟩ := hnodup
  refine ⟨hforward _ (by simp [hsplit]), hreverse _ (by simp [hsplit]), ?_, ?_⟩
  · -- the source comes first, and the link's end comes later
    rintro rfl
    have hfirst := h.source
    rw [hsplit] at hfirst
    cases before with
    | nil =>
      have hsame : link.1 = link.2 := Option.some.inj hfirst
      exact (List.nodup_cons.mp hends).1 (by simp [hsame])
    | cons a before =>
      have hsame : a = link.2 := Option.some.inj hfirst
      exact hapart a List.mem_cons_self link.2 (by simp) hsame
  · rintro rfl
    have hlast := h.destination
    rw [hsplit, List.getLast?_append, List.getLast?_cons_cons] at hlast
    have hmem : link.1 ∈ link.2 :: after := by
      obtain ⟨last, hsome⟩ : ∃ last, (link.2 :: after).getLast? = some last :=
        ⟨_, List.getLast?_eq_some_getLast (by simp)⟩
      rw [hsome, Option.some_or] at hlast
      exact List.mem_of_getLast? (hsome.trans hlast)
    exact (List.nodup_cons.mp hends).1 hmem

theorem simplePath_congr {kept : List (ℕ × ℕ)} {path : Path} (hsub : ∀ link ∈ kept, link ∈ links)
    (h : SimplePath links source destination path → ∀ link ∈ path.zip path.tail, link ∈ kept) :
    SimplePath kept source destination path ↔ SimplePath links source destination path := by
  constructor
  · rintro ⟨hsource, hdestination, hlinked, hnodup⟩
    exact ⟨hsource, hdestination, hlinked.imp fun _ _ => hsub _, hnodup⟩
  · intro hsimple
    exact ⟨hsimple.source, hsimple.destination, isChain_iff_zip.mpr (h hsimple), hsimple.nodup⟩

/-- There is one order of the simple paths. -/
theorem RankedPaths.unique {kept : List (ℕ × ℕ)} {ranked ranked' : List Path}
    (h : RankedPaths links source destination edgeCost ranked)
    (h' : RankedPaths kept source destination edgeCost ranked')
    (hsame : ∀ path, SimplePath kept source destination path ↔
      SimplePath links source destination path) : ranked' = ranked := by
  have hperm : ranked'.Perm ranked := by
    refine (List.perm_ext_iff_of_nodup ?_ ?_).mpr fun path => ?_
    · exact h'.2.imp fun hlt heq => hlt.ne (congrArg _ heq)
    · exact h.2.imp fun hlt heq => hlt.ne (congrArg _ heq)
    · rw [h.1, h'.1, hsame]
  exact hperm.eq_of_pairwise (fun _ _ _ _ hlt hlt' => absurd hlt hlt'.asymm) h'.2 h.2

/-- **Candidate paths are ranked exactly.**  With enough turns `ranked_simple_paths` returns the
first simple paths of the order by cost, hops and path; `viable_path_links` keeps every link of a
simple path, so with its links the answer is the same. -/
theorem candidate_paths_exact (links : LinkSet) (source destination : ℕ) (edgeCost : ℕ → ℕ → ℚ)
    (hcost : ∀ link ∈ links.links, 0 ≤ edgeCost link.1 link.2) (limit : ℤ) :
    ∃ ranked viable turns, RankedPaths links.links source destination edgeCost ranked ∧
      (∀ path, SimplePath links.links source destination path →
        ∀ link ∈ path.zip path.tail, link ∈ viable.links) ∧
      ∀ fuel, turns ≤ fuel →
        viablePathLinks fuel links source destination = some viable ∧
        rankedSimplePaths fuel links source destination edgeCost limit =
          some (ranked.take limit.toNat) ∧
        rankedSimplePaths fuel viable source destination edgeCost limit =
          some (ranked.take limit.toNat) := by
  obtain ⟨ranked, hranked, turns, hturns⟩ :=
    rankedSimplePaths_take links source destination hcost limit
  -- the sets of viable links hold ranks of links, the source and the destination
  let F := insert source (links.links.map (·.2)).toFinset
  let R := insert destination (links.links.map (·.1)).toFinset
  have hstart : (⟨{source}, {destination}, true⟩ : Viability).Within F R :=
    ⟨by simp [F], by simp [R]⟩
  have hloop : F.card + R.card <
      F.card + R.card + 1 + (⟨{source}, {destination}, true⟩ : Viability).reached := by omega
  obtain ⟨v, hv, hextends, hclosed⟩ :=
    viabilityLoop_closed
      (fun link hlink => Finset.mem_insert_of_mem
        (List.mem_toFinset.mpr (List.mem_map.mpr ⟨link, hlink, rfl⟩)))
      (fun link hlink => Finset.mem_insert_of_mem
        (List.mem_toFinset.mpr (List.mem_map.mpr ⟨link, hlink, rfl⟩))) hstart hloop
  let viable := links.filter fun link => v.keeps source destination link
  have hkept : ∀ path, SimplePath links.links source destination path →
      ∀ link ∈ path.zip path.tail, link ∈ viable.links := by
    intro path hsimple link hlink
    refine List.mem_filter.mpr ⟨isChain_iff_zip.mp hsimple.linked link hlink, ?_⟩
    exact decide_eq_true (hsimple.keeps hclosed (hextends.forward (by simp))
      (hextends.reverse (by simp)) link hlink)
  have hsub : ∀ link ∈ viable.links, link ∈ links.links := fun link h => List.mem_of_mem_filter h
  obtain ⟨ranked', hranked', turns', hturns'⟩ :=
    rankedSimplePaths_take viable source destination (fun link h => hcost link (hsub link h)) limit
  obtain rfl : ranked' = ranked :=
    hranked.unique hranked' fun path => simplePath_congr hsub (hkept path)
  refine ⟨ranked', viable, max (F.card + R.card + 1) (max turns turns'), hranked, hkept,
    fun fuel hfuel => ⟨?_, hturns fuel ?_, hturns' fuel ?_⟩⟩
  · rw [viablePathLinks, viabilityLoop_mono ((le_max_left _ _).trans hfuel) hv]
    rfl
  · exact (le_max_left _ _).trans ((le_max_right _ _).trans hfuel)
  · exact (le_max_right _ _).trans ((le_max_right _ _).trans hfuel)

/-- Two ways of the same cost and the same hops, and a direct link that costs as much; the way
back to the source is of no use. -/
def diamondLinks : LinkSet where
  links := [(0, 1), (0, 2), (1, 3), (2, 3), (0, 3), (3, 0)]
  nodup := by decide
  distinct := by decide

def diamondCost (src dst : ℕ) : ℚ := if (src, dst) = (0, 3) then 1 else if dst = 3 then 1 else 0

example : (viablePathLinks 3 diamondLinks 0 3).map (·.links) =
    some [(0, 1), (0, 2), (1, 3), (2, 3), (0, 3)] := by decide +kernel

example : rankedSimplePaths 8 diamondLinks 0 3 diamondCost 2 = some [[0, 3], [0, 1, 3]] := by
  decide +kernel

theorem candidate_paths_exact_diamond :
    (∀ link ∈ diamondLinks.links, 0 ≤ diamondCost link.1 link.2) ∧
      ∃ ranked viable turns, RankedPaths diamondLinks.links 0 3 diamondCost ranked ∧
      (∀ path, SimplePath diamondLinks.links 0 3 path →
        ∀ link ∈ path.zip path.tail, link ∈ viable.links) ∧
      ∀ fuel, turns ≤ fuel →
        viablePathLinks fuel diamondLinks 0 3 = some viable ∧
        rankedSimplePaths fuel diamondLinks 0 3 diamondCost 2 =
          some (ranked.take (2 : ℤ).toNat) ∧
        rankedSimplePaths fuel viable 0 3 diamondCost 2 = some (ranked.take (2 : ℤ).toNat) :=
  ⟨by decide +kernel, candidate_paths_exact diamondLinks 0 3 diamondCost (by decide +kernel) 2⟩

end VeriCCL
