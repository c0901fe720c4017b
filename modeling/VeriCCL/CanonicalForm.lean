import Mathlib.Algebra.Group.Submonoid.Basic
import Mathlib.Data.List.MinMax
import Mathlib.Data.Vector.Mem
import Mathlib.Logic.Encodable.Basic
import Mathlib.Logic.Equiv.List
import VeriCCL.CanonicalGraph

/-! # The canonical form of a graph

Without pruning the search would meet every leaf of one tree (`LeafOf`).  A renaming carries the
tree of a graph to that of the renamed graph, leaf by leaf, and leaves that correspond have one form
(`leafForm_renamed`).  An automorphism that keeps the colors of a branch carries the leaves below a
vertex to those below its image, so a search that skips orbits still finds the least form
(`search_least`).  A form, in turn, is all of its graph but the names of the vertices
(`isomorphic_of_leafForm`). -/
namespace VeriCCL

section Renaming
variable {κ ℓ : Type} {n m : ℕ} {g : ColoredGraph κ ℓ n} {h : ColoredGraph κ ℓ m} {e : Fin n ≃ Fin m}
  {c : Coloring n} {d : Coloring m}

/-- A renaming of the vertices that keeps colors and labeled edges. -/
structure ColoredGraph.Iso (g : ColoredGraph κ ℓ n) (h : ColoredGraph κ ℓ m) (e : Fin n ≃ Fin m) : Prop where
  colors : ∀ v, h.colors.get (e v) = g.colors.get v
  edges : h.edges.Perm (g.edges.map (GraphEdge.map e))

theorem ColoredGraph.Iso.refl (g : ColoredGraph κ ℓ n) : g.Iso g (Equiv.refl _) where
  colors _ := rfl
  edges := by
    have hsame : (GraphEdge.map (ℓ := ℓ) (Equiv.refl (Fin n))) = id := rfl
    rw [hsame, List.map_id]

theorem ColoredGraph.Iso.trans {k : ℕ} {i : ColoredGraph κ ℓ k} {f : Fin m ≃ Fin k} (hgh : g.Iso h e)
    (hhi : h.Iso i f) : g.Iso i (e.trans f) where
  colors v := (hhi.colors (e v)).trans (hgh.colors v)
  edges := by
    refine hhi.edges.trans ((hgh.edges.map _).trans (List.Perm.of_eq ?_))
    rw [List.map_map]
    rfl

theorem ColoredGraph.Iso.symm (hiso : g.Iso h e) : h.Iso g e.symm where
  colors w := by rw [← hiso.colors, Equiv.apply_symm_apply]
  edges := by
    refine ((hiso.edges.map _).trans (List.Perm.of_eq ?_)).symm
    rw [List.map_map]
    refine (List.map_congr_left fun x _ => ?_).trans (List.map_id _)
    simp [GraphEdge.map]

theorem Renamed.symm (hc : Renamed e c d) : Renamed e.symm d c := by
  intro w
  rw [← hc, Equiv.apply_symm_apply]

theorem Renamed.refl (c : Coloring n) : Renamed (Equiv.refl _) c c := fun _ => rfl

theorem Renamed.trans {k : ℕ} {f : Fin m ≃ Fin k} {b : Coloring k} (hcd : Renamed e c d)
    (hdb : Renamed f d b) : Renamed (e.trans f) c b := fun v => (hdb (e v)).trans (hcd v)

end Renaming

/-! ## The tree of the search -/

section Classes
variable {n m : ℕ} {c : Coloring n} {d : Coloring m} {e : Fin n ≃ Fin m} {color : ℕ} {v : Fin n}

theorem image_renamed (h : Renamed e c d) : Finset.univ.image d.get = Finset.univ.image c.get := by
  ext x
  simp only [Finset.mem_image, Finset.mem_univ, true_and]
  constructor
  · rintro ⟨w, rfl⟩
    exact ⟨e.symm w, by rw [← h, Equiv.apply_symm_apply]⟩
  · rintro ⟨v, rfl⟩
    exact ⟨e v, h v⟩

theorem classSize_renamed (h : Renamed e c d) (color : ℕ) : classSize d color = classSize c color := by
  rw [classSize, classSize]
  refine (Finset.card_equiv e fun v => ?_).symm
  simp [h v]

theorem ambiguous_renamed (h : Renamed e c d) : ambiguous d = ambiguous c := by
  have hsize : classSize d = classSize c := funext (classSize_renamed h)
  rw [ambiguous, ambiguous, image_renamed h, hsize]

theorem targetClass_renamed (h : Renamed e c d) : targetClass d = targetClass c := by
  simp only [targetClass, ambiguous_renamed h]

@[simp] theorem mem_members : v ∈ members c color ↔ c.get v = color := by
  simp [members]

theorem individualize_self : (individualize c v).get v = Finset.univ.sup c.get + 1 := by
  rw [individualize, List.Vector.get_set_same]

theorem individualize_ne {w : Fin n} (hne : v ≠ w) : (individualize c v).get w = c.get w := by
  rw [individualize, List.Vector.get_set_of_ne hne]

theorem individualize_renamed (h : Renamed e c d) (v : Fin n) :
    Renamed e (individualize c v) (individualize d (e v)) := by
  have hsup : Finset.univ.sup d.get = Finset.univ.sup c.get := by
    rw [← Finset.map_univ_equiv e, Finset.sup_map]
    exact Finset.sup_congr rfl fun v _ => h v
  intro w
  by_cases hw : v = w
  · rw [← hw, individualize_self, individualize_self, hsup]
  · rw [individualize_ne (e.injective.ne hw), individualize_ne hw, h w]

/-- Where no class is ambiguous every vertex has a color of its own. -/
theorem injective_of_targetClass (h : targetClass c = none) : Function.Injective c.get := by
  intro v w hvw
  by_contra hne
  have htwo : 1 < classSize c (c.get v) := by
    refine Finset.one_lt_card.mpr ⟨v, ?_, w, ?_, hne⟩
    · simp
    · simp [hvw]
  have hmem : toLex (classSize c (c.get v), c.get v) ∈ ambiguous c :=
    Finset.mem_image.mpr ⟨_, Finset.mem_filter.mpr ⟨Finset.mem_image_of_mem _ (Finset.mem_univ v), htwo⟩, rfl⟩
  rw [targetClass, dif_pos ⟨_, hmem⟩] at h
  cases h

theorem idxOf_map_of_injective {f : Fin n → Fin m} (hf : Function.Injective f) (l : List (Fin n)) (v : Fin n) :
    (l.map f).idxOf (f v) = l.idxOf v := by
  induction l with
  | nil => rfl
  | cons w l ih =>
    rw [List.map_cons, List.idxOf_cons, List.idxOf_cons, ih]
    have hsame : (f w == f v) = (w == v) := by rw [Bool.eq_iff_iff, beq_iff_eq, beq_iff_eq, hf.eq_iff]
    rw [hsame]

end Classes

section Tree
variable {κ ℓ : Type} [LinearOrder ℓ] {n m : ℕ} {g : ColoredGraph κ ℓ n} {h : ColoredGraph κ ℓ m}
  {e : Fin n ≃ Fin m} {c : Coloring n} {c' : Coloring m} {leaf : Coloring n}

variable (g) in
/-- A coloring at the end of a branch that starts with some colors, in the search without pruning. -/
inductive LeafOf : Coloring n → Coloring n → Prop
  | done {c : Coloring n} : targetClass (refineColors g.edges c) = none → LeafOf c (refineColors g.edges c)
  | branch {c leaf : Coloring n} {color : ℕ} {v : Fin n} : targetClass (refineColors g.edges c) = some color →
      v ∈ members (refineColors g.edges c) color → LeafOf (individualize (refineColors g.edges c) v) leaf →
      LeafOf c leaf

theorem LeafOf.injective (hleaf : LeafOf g c leaf) : Function.Injective leaf.get := by
  induction hleaf with
  | done hnone => exact injective_of_targetClass hnone
  | branch _ _ _ ih => exact ih

/-- **Renaming carries branches to branches.** -/
theorem LeafOf.renamed (hiso : g.Iso h e) (hleaf : LeafOf g c leaf) (hc : Renamed e c c') :
    ∃ leaf', LeafOf h c' leaf' ∧ Renamed e leaf leaf' := by
  induction hleaf generalizing c' with
  | done hnone =>
    have hrefined := refineColors_renamed hiso.edges hc
    exact ⟨_, .done ((targetClass_renamed hrefined).trans hnone), hrefined⟩
  | branch hsome hv _ ih =>
    have hrefined := refineColors_renamed hiso.edges hc
    obtain ⟨leaf', hleaf', hrenamed⟩ := ih (individualize_renamed hrefined _)
    refine ⟨leaf', .branch ((targetClass_renamed hrefined).trans hsome) ?_ hleaf', hrenamed⟩
    rw [mem_members, hrefined]
    exact mem_members.mp hv

/-! ## Forms -/

/-- The vertices in the order of their colors. -/
def colorOrder (c : Coloring n) : List (Fin n) := (List.finRange n).insertionSort fun a b => c.get a ≤ c.get b

theorem colorOrder_perm (c : Coloring n) : (colorOrder c).Perm (List.finRange n) := List.perm_insertionSort _ _

theorem colorOrder_nodup (c : Coloring n) : (colorOrder c).Nodup :=
  (colorOrder_perm c).nodup_iff.mpr (List.nodup_finRange n)

theorem mem_colorOrder (c : Coloring n) (v : Fin n) : v ∈ colorOrder c :=
  (colorOrder_perm c).mem_iff.mpr (List.mem_finRange v)

theorem colorOrder_sorted (c : Coloring n) : (colorOrder c).Pairwise fun a b => c.get a ≤ c.get b := by
  have : Std.Total fun a b : Fin n => c.get a ≤ c.get b := ⟨fun a b => le_total _ _⟩
  have : IsTrans (Fin n) fun a b => c.get a ≤ c.get b := ⟨fun _ _ _ => le_trans⟩
  exact List.pairwise_insertionSort _ _

theorem colorOrder_renamed (hc : Renamed e c c') (hinj : Function.Injective c.get) :
    colorOrder c' = (colorOrder c).map e := by
  have hinj' : Function.Injective c'.get := by
    intro v w hvw
    rw [← e.apply_symm_apply v, ← e.apply_symm_apply w, hc, hc] at hvw
    exact e.symm.injective (hinj hvw)
  have hsorted : ((colorOrder c).map e).Pairwise fun a b => c'.get a ≤ c'.get b := by
    rw [List.pairwise_map]
    exact (colorOrder_sorted c).imp fun {a b} hab => by rwa [hc, hc]
  have hperm : (colorOrder c').Perm ((colorOrder c).map e) := by
    refine (List.perm_ext_iff_of_nodup (colorOrder_nodup c') ((colorOrder_nodup c).map e.injective)).mpr fun w => ?_
    refine iff_of_true (mem_colorOrder c' w) (List.mem_map.mpr ⟨e.symm w, mem_colorOrder c _, ?_⟩)
    exact e.apply_symm_apply w
  exact hperm.eq_of_pairwise (fun a b _ _ hab hba => hinj' (le_antisymm hab hba)) (colorOrder_sorted c') hsorted

/-- The key by which a form sorts an edge. -/
def formKey (c : Coloring n) (x : GraphEdge ℓ n) : ℕ ×ₗ ℕ ×ₗ ℓ :=
  toLex ((colorOrder c).idxOf x.src, toLex ((colorOrder c).idxOf x.dst, x.label))

theorem leafForm_eq (g : ColoredGraph κ ℓ n) (c : Coloring n) : leafForm g c =
    ⟨(colorOrder c).map g.colors.get, (g.edges.map (formKey c)).insertionSort (· ≤ ·)⟩ := rfl

/-- **Leaves that correspond have one form.** -/
theorem leafForm_renamed (hiso : g.Iso h e) (hc : Renamed e c c') (hinj : Function.Injective c.get) :
    leafForm h c' = leafForm g c := by
  have horder := colorOrder_renamed hc hinj
  have hkey : formKey c' ∘ GraphEdge.map (ℓ := ℓ) e = formKey c := by
    funext x
    simp only [formKey, Function.comp_apply, GraphEdge.map, horder, idxOf_map_of_injective e.injective]
  have hcolors : (colorOrder c').map h.colors.get = (colorOrder c).map g.colors.get := by
    rw [horder, List.map_map]
    exact List.map_congr_left fun v _ => hiso.colors v
  have hedges : (h.edges.map (formKey c')).Perm (g.edges.map (formKey c)) := by
    refine (hiso.edges.map _).trans (List.Perm.of_eq ?_)
    rw [List.map_map, hkey]
  rw [leafForm_eq, leafForm_eq, hcolors, insertionSort_congr hedges]

/-- **A form is all of its graph** but the names of the vertices. -/
theorem isomorphic_of_leafForm {c : Coloring n} {c' : Coloring m} (heq : leafForm g c = leafForm h c') :
    ∃ e, g.Iso h e := by
  rw [leafForm_eq, leafForm_eq, GraphForm.mk.injEq] at heq
  obtain ⟨hcolors, hedges⟩ := heq
  have hlength : (colorOrder c).length = (colorOrder c').length := by
    simpa using congrArg List.length hcolors
  let e : Fin n ≃ Fin m := ((colorOrder_nodup c).getEquivOfForallMemList _ (mem_colorOrder c)).symm.trans
    ((finCongr hlength).trans ((colorOrder_nodup c').getEquivOfForallMemList _ (mem_colorOrder c')))
  -- a vertex and its image have one place
  have hplace : ∀ v, (colorOrder c').idxOf (e v) = (colorOrder c).idxOf v := fun v =>
    (colorOrder_nodup c').idxOf_getElem _ _
  have hat : ∀ v, (colorOrder c')[(colorOrder c).idxOf v]? = some (e v) := by
    intro v
    rw [← hplace, List.getElem?_idxOf (mem_colorOrder c' _)]
  refine ⟨e, fun v => ?_, ?_⟩
  · have hget := congrArg (fun l => l[(colorOrder c).idxOf v]?) hcolors
    rw [List.getElem?_map, List.getElem?_map, hat, List.getElem?_idxOf (mem_colorOrder c v)] at hget
    exact (Option.some.inj hget).symm
  · have hkey : formKey c' ∘ GraphEdge.map (ℓ := ℓ) e = formKey c := by
      funext x
      simp only [formKey, Function.comp_apply, GraphEdge.map, hplace]
    have hinj : Function.Injective (formKey (ℓ := ℓ) c') := by
      rintro ⟨a, b, l⟩ ⟨a', b', l'⟩ hsame
      simp only [formKey, toLex_inj, Prod.mk.injEq] at hsame
      obtain ⟨ha, hb, rfl⟩ := hsame
      rw [List.idxOf_inj (mem_colorOrder c' _)] at ha hb
      rw [ha, hb]
    have hperm : (g.edges.map (formKey c)).Perm (h.edges.map (formKey c')) := by
      refine (List.perm_insertionSort (· ≤ ·) _).symm.trans ?_
      rw [hedges]
      exact List.perm_insertionSort _ _
    rw [← List.map_perm_map_iff hinj, List.map_map, hkey]
    exact hperm.symm

end Tree

/-! ## Pruning -/

section Orbit
variable {n : ℕ} {S : Submonoid (Equiv.Perm (Fin n))} {generators : List (Equiv.Perm (Fin n))} {v : Fin n}

/-- The vertices to which permutations of `S` bring a vertex. -/
def broughtTo (S : Submonoid (Equiv.Perm (Fin n))) (v : Fin n) : Set (Fin n) := {w | ∃ f ∈ S, f v = w}

theorem mem_broughtTo_self : v ∈ broughtTo S v := ⟨1, S.one_mem, rfl⟩

theorem broughtTo_step {w : Fin n} {f : Equiv.Perm (Fin n)} (hf : f ∈ S) (hw : w ∈ broughtTo S v) :
    f w ∈ broughtTo S v := by
  obtain ⟨f', hf', rfl⟩ := hw
  exact ⟨f * f', S.mul_mem hf hf', rfl⟩

/-- One vertex of the frontier: what is found stays in the orbit. -/
theorem orbitTurn_brought {current : Fin n} (hgenerators : ∀ f ∈ generators, f ∈ S)
    (hcurrent : current ∈ broughtTo S v) (found : Finset (Fin n) × List (Fin n))
    (horbit : ∀ w ∈ found.1, w ∈ broughtTo S v) (hfrontier : ∀ w ∈ found.2, w ∈ broughtTo S v) :
    let next := generators.foldl (fun (found : Finset (Fin n) × List (Fin n)) mapping =>
      if mapping current ∈ found.1 then found
      else (insert (mapping current) found.1, mapping current :: found.2)) found
    (∀ w ∈ next.1, w ∈ broughtTo S v) ∧ ∀ w ∈ next.2, w ∈ broughtTo S v := by
  induction generators generalizing found with
  | nil => exact ⟨horbit, hfrontier⟩
  | cons f generators ih =>
    have hnew := broughtTo_step (hgenerators f List.mem_cons_self) hcurrent
    have hrest : ∀ f' ∈ generators, f' ∈ S := fun f' hf' => hgenerators f' (List.mem_cons_of_mem _ hf')
    by_cases hknown : f current ∈ found.1
    · simpa only [List.foldl_cons, if_pos hknown] using ih hrest found horbit hfrontier
    · have hinsert : ∀ w ∈ insert (f current) found.1, w ∈ broughtTo S v := fun w hw =>
        (Finset.mem_insert.mp hw).elim (fun heq => heq ▸ hnew) (horbit w)
      have hcons : ∀ w ∈ f current :: found.2, w ∈ broughtTo S v := fun w hw =>
        (List.mem_cons.mp hw).elim (fun heq => heq ▸ hnew) (hfrontier w)
      simpa only [List.foldl_cons, if_neg hknown] using ih hrest (insert (f current) found.1, f current :: found.2)
        hinsert hcons

theorem orbitLoop_brought (hgenerators : ∀ f ∈ generators, f ∈ S) (turns : ℕ) {orbit : Finset (Fin n)}
    {frontier : List (Fin n)} (horbit : ∀ w ∈ orbit, w ∈ broughtTo S v)
    (hfrontier : ∀ w ∈ frontier, w ∈ broughtTo S v) :
    ∀ w ∈ orbitLoop generators turns orbit frontier, w ∈ broughtTo S v := by
  induction turns generalizing orbit frontier with
  | zero => exact horbit
  | succ turns ih =>
    cases frontier with
    | nil => exact horbit
    | cons current frontier =>
      obtain ⟨hnext, hlater⟩ := orbitTurn_brought hgenerators (hfrontier current List.mem_cons_self)
        (orbit, frontier) horbit fun w hw => hfrontier w (List.mem_cons_of_mem _ hw)
      exact ih hnext hlater

theorem orbitOf_brought (hgenerators : ∀ f ∈ generators, f ∈ S) {w : Fin n}
    (hw : w ∈ orbitOf generators v) : w ∈ broughtTo S v :=
  orbitLoop_brought hgenerators n (fun _ hw => Finset.mem_singleton.mp hw ▸ mem_broughtTo_self)
    (fun _ hw => List.mem_singleton.mp hw ▸ mem_broughtTo_self) w hw

/-- **What a class is explored for**: every vertex is in the orbit of one that was searched. -/
theorem explore_ok {one : Fin n → ℕ → Except Fault (String × ℕ)} {turns : ℕ} {pending : List (Fin n)} {count : ℕ}
    {found : List String × ℕ} (hgenerators : ∀ f ∈ generators, f ∈ S)
    (h : explore one generators turns pending count = .ok found) :
    (∀ text ∈ found.1, ∃ v ∈ pending, ∃ before after, one v before = .ok (text, after)) ∧
      ∀ w ∈ pending, ∃ v ∈ pending, w ∈ broughtTo S v ∧
        ∃ text ∈ found.1, ∃ before after, one v before = .ok (text, after) := by
  induction turns generalizing pending count found with
  | zero =>
    cases pending with
    | nil =>
      obtain rfl := Except.ok.inj h
      simp
    | cons v pending => cases h
  | succ turns ih =>
    cases pending with
    | nil =>
      obtain rfl := Except.ok.inj h
      simp
    | cons v pending =>
      simp only [explore, Checked.bind_ok, Checked.pure_ok] at h
      obtain ⟨first, hfirst, rest, hrest, rfl⟩ := h
      obtain ⟨hfrom, hcovers⟩ := ih hrest
      have hlater : ∀ w ∈ pending.filter (· ∉ orbitOf generators v), w ∈ v :: pending := fun w hw =>
        List.mem_cons_of_mem _ (List.mem_filter.mp hw).1
      constructor
      · intro text htext
        obtain rfl | htext := List.mem_cons.mp htext
        · exact ⟨v, List.mem_cons_self, count, first.2, hfirst⟩
        · obtain ⟨w, hw, hone⟩ := hfrom text htext
          exact ⟨w, hlater w hw, hone⟩
      · intro w hw
        by_cases hv : w ∈ broughtTo S v
        · exact ⟨v, List.mem_cons_self, hv, first.1, List.mem_cons_self, count, first.2, hfirst⟩
        · have hpending : w ∈ pending := by
            obtain rfl | hpending := List.mem_cons.mp hw
            · exact absurd mem_broughtTo_self hv
            · exact hpending
          have hout : w ∉ orbitOf generators v := fun horbit => hv (orbitOf_brought hgenerators horbit)
          obtain ⟨u, hu, hbrought, text, htext, hone⟩ := hcovers w (List.mem_filter.mpr ⟨hpending, by simpa using hout⟩)
          exact ⟨u, hlater u hu, hbrought, text, List.mem_cons_of_mem _ htext, hone⟩

end Orbit

/-! ## The least form -/

section Search
variable {κ ℓ : Type} [LinearOrder ℓ] {n m : ℕ} {g : ColoredGraph κ ℓ n} {h : ColoredGraph κ ℓ m}
  {e : Fin n ≃ Fin m} {c : Coloring n} {c' : Coloring m} {encode : GraphForm κ ℓ → String}

variable (g encode) in
/-- The texts of all leaves. -/
def leafTexts (c : Coloring n) : Set String := {text | ∃ leaf, LeafOf g c leaf ∧ encode (leafForm g leaf) = text}

theorem leafTexts_subset (hiso : g.Iso h e) (hc : Renamed e c c') :
    leafTexts g encode c ⊆ leafTexts h encode c' := by
  rintro _ ⟨leaf, hleaf, rfl⟩
  obtain ⟨leaf', hleaf', hrenamed⟩ := hleaf.renamed hiso hc
  exact ⟨leaf', hleaf', by rw [leafForm_renamed hiso hrenamed hleaf.injective]⟩

theorem leafTexts_renamed (hiso : g.Iso h e) (hc : Renamed e c c') :
    leafTexts g encode c = leafTexts h encode c' :=
  (leafTexts_subset hiso hc).antisymm (leafTexts_subset hiso.symm hc.symm)

variable (g) in
/-- The automorphisms that keep the colors of a branch. -/
def keeping (c : Coloring n) : Submonoid (Equiv.Perm (Fin n)) where
  carrier := {f | g.Iso g f ∧ Renamed f c c}
  one_mem' := ⟨.refl g, .refl c⟩
  mul_mem' ha hb := ⟨hb.1.trans ha.1, hb.2.trans ha.2⟩

/-- An automorphism carries the leaves below a vertex to those below its image. -/
theorem leafTexts_brought {v w : Fin n} (hw : w ∈ broughtTo (keeping g c) v) :
    leafTexts g encode (individualize c v) = leafTexts g encode (individualize c w) := by
  obtain ⟨f, ⟨hiso, hc⟩, rfl⟩ := hw
  exact leafTexts_renamed hiso (individualize_renamed hc v)

/-- **The search finds the least text**, whatever automorphisms prune it. -/
theorem search_least {depth count : ℕ} {generators : List (Equiv.Perm (Fin n))} {found : String × ℕ}
    (hgenerators : ∀ f ∈ generators, f ∈ keeping g c)
    (hsearch : search g encode depth c generators count = .ok found) :
    IsLeast (leafTexts g encode c) found.1 := by
  induction depth generalizing c generators count found with
  | zero => cases hsearch
  | succ depth ih =>
    simp only [search, Checked.bind_ok, Checked.ensure_ok] at hsearch
    obtain ⟨-, -, hsearch⟩ := hsearch
    have hrefined : ∀ f ∈ generators, f ∈ keeping g (refineColors g.edges c) := fun f hf =>
      ⟨(hgenerators f hf).1, refineColors_renamed (hgenerators f hf).1.edges (hgenerators f hf).2⟩
    split at hsearch
    next hnone =>
      obtain rfl := Checked.pure_ok.mp hsearch
      refine ⟨⟨_, .done hnone, rfl⟩, ?_⟩
      rintro _ ⟨leaf, hleaf, rfl⟩
      cases hleaf with
      | done => exact le_rfl
      | branch hsome => rw [hnone] at hsome; cases hsome
    next color hcolor =>
      simp only [Checked.bind_ok, Checked.required_ok, Checked.pure_ok] at hsearch
      obtain ⟨explored, hexplore, best, hbest, rfl⟩ := hsearch
      obtain ⟨hfrom, hcovers⟩ := explore_ok hrefined hexplore
      -- the generators of a branch keep its vertex
      have hbelow : ∀ {v : Fin n} {before after : ℕ} {text : String},
          search g encode depth (individualize (refineColors g.edges c) v)
            (generators.filter fun mapping => mapping v = v) before = .ok (text, after) →
          IsLeast (leafTexts g encode (individualize (refineColors g.edges c) v)) text := by
        intro v before after text hone
        refine ih (fun f hf => ?_) hone
        obtain ⟨hmem, hfixed⟩ := List.mem_filter.mp hf
        have hkept := individualize_renamed (hrefined f hmem).2 v
        rw [of_decide_eq_true hfixed] at hkept
        exact ⟨(hrefined f hmem).1, hkept⟩
      constructor
      · obtain ⟨v, hv, before, after, hone⟩ := hfrom best (List.argmin_mem hbest)
        obtain ⟨leaf, hleaf, htext⟩ := (hbelow hone).1
        exact ⟨leaf, .branch hcolor hv hleaf, htext⟩
      · rintro _ ⟨leaf, hleaf, rfl⟩
        cases hleaf with
        | done hnone => rw [hnone] at hcolor; cases hcolor
        | branch hsome hw hleaf =>
          obtain rfl := Option.some.inj (hsome.symm.trans hcolor)
          obtain ⟨v, -, hbrought, text, htext, before, after, hone⟩ := hcovers _ hw
          calc best ≤ text := List.le_of_mem_argmin htext hbest
            _ ≤ encode (leafForm g leaf) :=
              (hbelow hone).2 ((leafTexts_brought hbrought).symm ▸ ⟨leaf, hleaf, rfl⟩)

end Search

/-! ## The result -/

section Canonical
variable {κ ℓ : Type} [LinearOrder κ] [LinearOrder ℓ] {n m : ℕ} {g : ColoredGraph κ ℓ n} {h : ColoredGraph κ ℓ m}
  {e : Fin n ≃ Fin m} {encode : GraphForm κ ℓ → String} {digest : String → String}

omit [LinearOrder ℓ] in
theorem initialColoring_renamed (hiso : g.Iso h e) : Renamed e (initialColoring g) (initialColoring h) := by
  have hmem : ∀ x, x ∈ h.colors.toList ↔ x ∈ g.colors.toList := by
    intro x
    rw [List.Vector.mem_iff_get, List.Vector.mem_iff_get]
    constructor
    · rintro ⟨w, rfl⟩
      exact ⟨e.symm w, by rw [← hiso.colors, Equiv.apply_symm_apply]⟩
    · rintro ⟨v, rfl⟩
      exact ⟨e v, hiso.colors v⟩
  intro v
  rw [initialColoring, initialColoring, List.Vector.get_map, List.Vector.get_map, paletteRank_congr hmem, hiso.colors]

theorem checkWitness_ok {mapping : List ℕ} {f : Equiv.Perm (Fin n)} (hcheck : checkWitness g mapping = .ok f) :
    g.Iso g f := by
  unfold checkWitness at hcheck
  split at hcheck
  next hperm =>
    simp only [Checked.bind_ok, Checked.ensure_ok, Checked.pure_ok] at hcheck
    obtain ⟨-, ⟨hcolors, hedges⟩, rfl⟩ := hcheck
    exact ⟨fun v => (hcolors v).symm, hedges.symm⟩
  next => cases hcheck

theorem canonicalColoredGraph_ok {automorphisms : List (List ℕ)} {text : String}
    (hok : canonicalColoredGraph g encode digest automorphisms = .ok text) :
    ∃ best, IsLeast (leafTexts g encode (initialColoring g)) best ∧ digest best = text := by
  simp only [canonicalColoredGraph, Checked.bind_ok, Checked.pure_ok] at hok
  obtain ⟨generators, hgenerators, found, hfound, rfl⟩ := hok
  refine ⟨found.1, search_least (fun f hf => ?_) hfound, rfl⟩
  obtain ⟨mapping, -, hcheck⟩ := Checked.mapM_right hgenerators hf
  have hiso := checkWitness_ok hcheck
  exact ⟨hiso, initialColoring_renamed hiso⟩

/-- **The canonical form of a graph**: two graphs have one result exactly when a renaming of the
vertices makes one of the other, with whatever automorphisms either was called. -/
theorem canonicalColoredGraph_eq_iff (hencode : Function.Injective encode) (hdigest : Function.Injective digest)
    {automorphisms automorphisms' : List (List ℕ)} {text text' : String}
    (hg : canonicalColoredGraph g encode digest automorphisms = .ok text)
    (hh : canonicalColoredGraph h encode digest automorphisms' = .ok text') :
    text = text' ↔ ∃ e, g.Iso h e := by
  obtain ⟨best, hbest, rfl⟩ := canonicalColoredGraph_ok hg
  obtain ⟨best', hbest', rfl⟩ := canonicalColoredGraph_ok hh
  rw [hdigest.eq_iff]
  constructor
  · rintro rfl
    obtain ⟨leaf, -, htext⟩ := hbest.1
    obtain ⟨leaf', -, htext'⟩ := hbest'.1
    exact isomorphic_of_leafForm (hencode (htext.trans htext'.symm))
  · rintro ⟨e, hiso⟩
    rw [leafTexts_renamed hiso (initialColoring_renamed hiso)] at hbest
    exact hbest.unique hbest'

end Canonical

/-- Two vertices and an edge between them. -/
def oneEdge (src dst : Fin 2) : ColoredGraph Unit Unit 2 := ⟨⟨[(), ()], rfl⟩, [⟨src, dst, ()⟩]⟩

/-- A form as so many letters. -/
def letters (form : GraphForm Unit Unit) : String :=
  String.ofList (List.replicate (Encodable.encode (form.colors, form.edges.map fun x => (x.1, x.2.1))) 'a')

theorem letters_injective : Function.Injective letters := by
  rintro ⟨colors, edges⟩ ⟨colors', edges'⟩ heq
  have hlength := congrArg List.length (String.ofList_injective heq)
  rw [List.length_replicate, List.length_replicate] at hlength
  obtain ⟨hcolors, hedges⟩ := Prod.mk.inj (Encodable.encode_injective hlength)
  have hinj : Function.Injective fun x : ℕ ×ₗ ℕ ×ₗ Unit => (x.1, x.2.1) := by
    rintro ⟨a, b, _⟩ ⟨a', b', _⟩ hsame
    obtain ⟨rfl, rfl⟩ : a = a' ∧ b = b' := by simpa using hsame
    rfl
  rw [GraphForm.mk.injEq]
  exact ⟨hcolors, hinj.list_map hedges⟩

theorem canonicalColoredGraph_eq_iff_oneEdge :
    String.ofList (List.replicate 51 'a') = String.ofList (List.replicate 51 'a') ↔ ∃ e, (oneEdge 0 1).Iso (oneEdge 1 0) e :=
  canonicalColoredGraph_eq_iff letters_injective Function.injective_id
    (by decide +kernel : canonicalColoredGraph (oneEdge 0 1) letters id [[0, 1]] =
      .ok (String.ofList (List.replicate 51 'a')))
    (by decide +kernel : canonicalColoredGraph (oneEdge 1 0) letters id [] =
      .ok (String.ofList (List.replicate 51 'a')))

/-! ## The search ends -/

section Colors
variable {ℓ : Type} [LinearOrder ℓ] {n : ℕ} {c : Coloring n} {v w : Fin n}

/-- Refinement loses no color. -/
theorem card_image_refineColors (edges : List (GraphEdge ℓ n)) (c : Coloring n) :
    (Finset.univ.image c.get).card ≤ (Finset.univ.image (refineColors edges c).get).card := by
  classical
  -- a vertex for every color
  have hvertex : ∀ color ∈ Finset.univ.image c.get, ∃ v, c.get v = color := by simp
  choose vertex hvertex using hvertex
  refine Finset.card_le_card_of_injOn
    (fun color => if hmem : color ∈ Finset.univ.image c.get then (refineColors edges c).get (vertex color hmem) else 0) ?_ ?_
  · intro color hmem
    simp only [dif_pos (Finset.mem_coe.mp hmem)]
    exact Finset.mem_coe.mpr (Finset.mem_image_of_mem _ (Finset.mem_univ _))
  · intro x hx y hy hsame
    simp only [dif_pos (Finset.mem_coe.mp hx), dif_pos (Finset.mem_coe.mp hy)] at hsame
    rw [← hvertex x hx, ← hvertex y hy]
    exact refineColors_refines hsame

/-- A vertex that shares its color makes a color more when it gets its own. -/
theorem card_image_individualize (hsame : c.get v = c.get w) (hne : v ≠ w) :
    (Finset.univ.image c.get).card < (Finset.univ.image (individualize c v).get).card := by
  have hnew : Finset.univ.sup c.get + 1 ∉ Finset.univ.image c.get := by
    intro hmem
    obtain ⟨u, -, hu⟩ := Finset.mem_image.mp hmem
    have hle : c.get u ≤ Finset.univ.sup c.get := Finset.le_sup (Finset.mem_univ u)
    omega
  have hsubset : insert (Finset.univ.sup c.get + 1) (Finset.univ.image c.get) ⊆
      Finset.univ.image (individualize c v).get := by
    intro color hcolor
    refine Finset.mem_image.mpr ?_
    obtain rfl | hcolor := Finset.mem_insert.mp hcolor
    · exact ⟨v, Finset.mem_univ v, individualize_self⟩
    · obtain ⟨u, -, rfl⟩ := Finset.mem_image.mp hcolor
      by_cases hu : v = u
      · subst hu
        exact ⟨w, Finset.mem_univ w, by rw [individualize_ne hne, hsame]⟩
      · exact ⟨u, Finset.mem_univ u, individualize_ne hu⟩
  calc (Finset.univ.image c.get).card < (insert (Finset.univ.sup c.get + 1) (Finset.univ.image c.get)).card := by
        rw [Finset.card_insert_of_notMem hnew]
        exact Nat.lt_succ_self _
    _ ≤ (Finset.univ.image (individualize c v).get).card := Finset.card_le_card hsubset

/-- A target class has more than one vertex. -/
theorem targetClass_ambiguous {color : ℕ} (hcolor : targetClass c = some color) : 1 < classSize c color := by
  unfold targetClass at hcolor
  split at hcolor
  next hsome =>
    have hmem := (ambiguous c).min'_mem hsome
    obtain ⟨other, hother, heq⟩ := Finset.mem_image.mp hmem
    rw [← heq] at hcolor
    obtain rfl : other = color := Option.some.inj hcolor
    exact (Finset.mem_filter.mp hother).2
  next => cases hcolor

end Colors

section Ends
variable {κ ℓ : Type} [LinearOrder κ] [LinearOrder ℓ] {n : ℕ} {g : ColoredGraph κ ℓ n}
  {encode : GraphForm κ ℓ → String} {digest : String → String} {fault : Fault}

/-- A class is explored in as many turns as it has vertices. -/
theorem explore_error {one : Fin n → ℕ → Except Fault (String × ℕ)} {generators : List (Equiv.Perm (Fin n))}
    {turns count : ℕ} {pending : List (Fin n)} (hturns : pending.length ≤ turns)
    (hfail : explore one generators turns pending count = .error fault) :
    ∃ v ∈ pending, ∃ before, one v before = .error fault := by
  induction turns generalizing pending count with
  | zero =>
    obtain rfl := List.length_eq_zero_iff.mp (Nat.le_zero.mp hturns)
    cases hfail
  | succ turns ih =>
    cases pending with
    | nil => cases hfail
    | cons v pending =>
      rw [explore] at hfail
      obtain hfirst | ⟨first, -, hfail⟩ := Checked.bind_error hfail
      · exact ⟨v, List.mem_cons_self, count, hfirst⟩
      obtain hrest | ⟨rest, -, hfail⟩ := Checked.bind_error hfail
      · obtain ⟨w, hw, hone⟩ := ih ((List.length_filter_le _ _).trans (Nat.le_of_succ_le_succ hturns)) hrest
        exact ⟨w, List.mem_cons_of_mem _ (List.mem_filter.mp hw).1, hone⟩
      · cases hfail

omit [LinearOrder κ] in
/-- **A branch is no deeper than there are vertices**: only the number of states stops a search. -/
theorem search_error {depth count : ℕ} {c : Coloring n} {generators : List (Equiv.Perm (Fin n))}
    (hdepth : n < depth + (Finset.univ.image c.get).card)
    (hfail : search g encode depth c generators count = .error fault) :
    fault = .semantic "domain isomorphism canonicalization limit exceeded" := by
  induction depth generalizing c generators count with
  | zero =>
    have hle : (Finset.univ.image c.get).card ≤ n := by
      simpa using Finset.card_image_le (s := Finset.univ) (f := c.get)
    omega
  | succ depth ih =>
    rw [search] at hfail
    obtain hlimit | ⟨_, -, hfail⟩ := Checked.bind_error hfail
    · exact (Checked.ensure_error hlimit).2.symm
    have hrefined := card_image_refineColors g.edges c
    generalize refineColors g.edges c = refined at hfail hrefined
    simp only at hfail
    split at hfail
    next => cases hfail
    next color hcolor =>
      obtain ⟨v, hv, w, hw, hne⟩ := Finset.one_lt_card.mp (targetClass_ambiguous hcolor)
      simp only [Finset.mem_filter, Finset.mem_univ, true_and] at hv hw
      obtain hexplore | ⟨found, hexplore, hfail⟩ := Checked.bind_error hfail
      · have hlength : (members refined color).length ≤ n := by
          simpa [members] using List.length_filter_le (fun v => refined.get v = color) (List.finRange n)
        obtain ⟨u, hu, before, hone⟩ := explore_error hlength hexplore
        -- another vertex has the color, so the branch has a color more
        obtain ⟨other, hother, hne'⟩ : ∃ other, refined.get u = refined.get other ∧ u ≠ other := by
          by_cases huv : u = v
          · exact ⟨w, by rw [huv, hv, hw], huv ▸ hne⟩
          · exact ⟨v, by rw [mem_members.mp hu, hv], huv⟩
        have hmore := card_image_individualize hother hne'
        exact ih (by omega) hone
      · obtain hleast | ⟨best, -, hfail⟩ := Checked.bind_error hfail
        · have hempty := List.argmin_eq_none.mp (Checked.required_error hleast).1
          obtain ⟨-, hcovers⟩ := explore_ok (S := ⊤) (fun _ _ => Submonoid.mem_top _) hexplore
          obtain ⟨_, -, -, text, htext, -⟩ := hcovers v (mem_members.mpr hv)
          rw [hempty] at htext
          cases htext
        · cases hfail

/-- The list of an automorphism is accepted as a witness. -/
theorem checkWitness_complete {f : Equiv.Perm (Fin n)} (hiso : g.Iso g f) :
    checkWitness g (List.ofFn fun v => (f v : ℕ)) = .ok f := by
  have hperm : (List.ofFn fun v => (f v : ℕ)).Perm (List.range n) := by
    refine (List.perm_ext_iff_of_nodup ?_ List.nodup_range).mpr fun x => ?_
    · exact List.nodup_ofFn.mpr (Fin.val_injective.comp f.injective)
    · rw [List.mem_ofFn, List.mem_range]
      constructor
      · rintro ⟨v, rfl⟩
        exact (f v).2
      · exact fun hx => ⟨f.symm ⟨x, hx⟩, by simp⟩
  have hsorted : (List.ofFn fun v => (f v : ℕ)).insertionSort (· ≤ ·) = List.range n := by
    rw [insertionSort_congr hperm]
    exact (List.pairwise_le_range).insertionSort_eq
  have hsame : ∀ h, permutationOf (List.ofFn fun v => (f v : ℕ)) h = f := by
    intro h
    ext v
    simp [permutationOf]
  rw [checkWitness, dif_pos hsorted]
  simp only [hsame]
  rw [Checked.ensure, if_pos ⟨fun v => (hiso.colors v).symm, hiso.edges.symm⟩]
  rfl

/-- **Only a wrong witness or the number of states makes the search fail.** -/
theorem canonicalColoredGraph_error {automorphisms : List (List ℕ)}
    (hfail : canonicalColoredGraph g encode digest automorphisms = .error fault) :
    fault = .semantic "domain isomorphism canonicalization limit exceeded" ∨
      fault = .semantic "invalid graph automorphism witness" ∧
        ∃ mapping ∈ automorphisms, ∀ f, g.Iso g f → mapping ≠ List.ofFn fun v => (f v : ℕ) := by
  rw [canonicalColoredGraph] at hfail
  obtain hwitness | ⟨generators, -, hfail⟩ := Checked.bind_error hfail
  · obtain ⟨mapping, hmapping, hcheck⟩ := Checked.mapM_error hwitness
    refine .inr ⟨?_, mapping, hmapping, ?_⟩
    · unfold checkWitness at hcheck
      split at hcheck
      · obtain hensure | ⟨_, -, hcheck⟩ := Checked.bind_error hcheck
        · exact (Checked.ensure_error hensure).2.symm
        · cases hcheck
      · exact (Except.error.inj hcheck).symm
    · rintro f hiso rfl
      rw [checkWitness_complete hiso] at hcheck
      cases hcheck
  · obtain hsearch | ⟨_, -, hfail⟩ := Checked.bind_error hfail
    · exact .inl (search_error (by omega) hsearch)
    · cases hfail

theorem canonicalColoredGraph_error_oneEdge :
    Fault.semantic "invalid graph automorphism witness" =
        .semantic "domain isomorphism canonicalization limit exceeded" ∨
      Fault.semantic "invalid graph automorphism witness" = .semantic "invalid graph automorphism witness" ∧
        ∃ mapping ∈ [[1, 0]], ∀ f, (oneEdge 0 1).Iso (oneEdge 0 1) f → mapping ≠ List.ofFn fun v => (f v : ℕ) :=
  canonicalColoredGraph_error (by decide +kernel : canonicalColoredGraph (oneEdge 0 1) letters id [[1, 0]] =
    .error (.semantic "invalid graph automorphism witness"))

end Ends

end VeriCCL
