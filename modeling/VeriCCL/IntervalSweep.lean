import Mathlib.Data.List.Pairwise
import Mathlib.Data.List.Nodup
import Mathlib.Data.Finset.Card
import Mathlib.Logic.Relation
import Mathlib.Tactic

/-! # Sweeps over intervals

Intervals are swept in the order of their beginnings.  A sweep that keeps only the interval that
ends last cuts the list into blocks (`blocks`); a sweep that keeps the intervals that have not
ended yet meets all pairs (`pairs`).  Two intervals meet if each begins before the other ends.

The blocks are the components of this graph except where an instant is joined to an interval
that begins with it: an instant meets only what begins before it (`components_blocks`). -/
namespace IntervalSweep

open Relation (ReflTransGen)

/-! ## Components of a graph -/

section Components
variable {ι : Type} {R : ι → ι → Prop} {parts parts' : List (List ι)} {a b : ι}

/-- The connected components with two members or more, each with its members once. -/
structure Components (R : ι → ι → Prop) (parts : List (List ι)) : Prop where
  nodup : parts.flatten.Nodup
  several : ∀ part ∈ parts, 1 < part.length
  connected : ∀ part ∈ parts, ∃ a, ∀ b, b ∈ part ↔ ReflTransGen R a b
  complete : ∀ a b, a ≠ b → ReflTransGen R a b → ∃ part ∈ parts, a ∈ part

theorem one_lt_length_of_ne {part : List ι} (ha : a ∈ part) (hb : b ∈ part) (hne : a ≠ b) :
    1 < part.length := by
  match part with
  | [c] => exact absurd ((List.mem_singleton.mp ha).trans (List.mem_singleton.mp hb).symm) hne
  | c :: d :: rest => simp

theorem exists_ne_of_length {part : List ι} (hnodup : part.Nodup) (hlength : 1 < part.length)
    (a : ι) : ∃ b ∈ part, b ≠ a := by
  match part with
  | b :: c :: rest =>
    by_cases hb : b = a
    · refine ⟨c, by simp, fun hc => ?_⟩
      rw [hb, hc] at hnodup
      simp at hnodup
    · exact ⟨b, by simp, hb⟩

/-- What is in the components is what is connected to something else. -/
theorem Components.mem_flatten [Std.Symm R] (h : Components R parts) :
    a ∈ parts.flatten ↔ ∃ b, b ≠ a ∧ ReflTransGen R a b := by
  rw [List.mem_flatten]
  constructor
  · rintro ⟨part, hpart, ha⟩
    obtain ⟨b, hb, hne⟩ := exists_ne_of_length
      ((List.nodup_flatten.mp h.nodup).1 part hpart) (h.several part hpart) a
    obtain ⟨c, hc⟩ := h.connected part hpart
    exact ⟨b, hne, (Std.Symm.symm _ _ ((hc a).mp ha)).trans ((hc b).mp hb)⟩
  · rintro ⟨b, hne, hab⟩
    exact h.complete a b hne.symm hab

theorem Components.length_flatten [Std.Symm R] (h : Components R parts)
    (h' : Components R parts') : parts.flatten.length = parts'.flatten.length := by
  refine List.Perm.length_eq ((List.perm_ext_iff_of_nodup h.nodup h'.nodup).mpr fun a => ?_)
  rw [h.mem_flatten, h'.mem_flatten]

end Components

/-! ## Pairs in a list of lists -/

/-- Two places in a list of lists are in one of them, or in two. -/
theorem pair_sublist_flatten {ι : Type} {a b : ι} {parts : List (List ι)}
    (h : [a, b].Sublist parts.flatten) :
    (∃ part ∈ parts, [a, b].Sublist part) ∨
      ∃ p q, [p, q].Sublist parts ∧ a ∈ p ∧ b ∈ q := by
  induction parts with
  | nil => cases h
  | cons part parts ih =>
    rw [List.flatten_cons, List.sublist_append_iff] at h
    obtain ⟨l, m, hsplit, hl, hm⟩ := h
    match l with
    | [] =>
      obtain rfl : [a, b] = m := by simpa using hsplit
      rcases ih hm with ⟨p, hp, hsub⟩ | ⟨p, q, hpq, ha, hb⟩
      · exact .inl ⟨p, List.mem_cons_of_mem _ hp, hsub⟩
      · exact .inr ⟨p, q, hpq.cons _, ha, hb⟩
    | [c] =>
      obtain ⟨rfl, rfl⟩ : a = c ∧ [b] = m := by simpa using hsplit
      obtain ⟨q, hq, hb⟩ := List.mem_flatten.mp (List.singleton_sublist.mp hm)
      exact .inr ⟨part, q, (List.singleton_sublist.mpr hq).cons_cons _,
        List.singleton_sublist.mp hl, hb⟩
    | c :: d :: l =>
      obtain ⟨rfl, rfl, rfl, rfl⟩ : a = c ∧ b = d ∧ l = [] ∧ m = [] := by
        simpa using hsplit
      exact .inl ⟨part, List.mem_cons_self, hl⟩

theorem pair_sublist_of_ne {ι : Type} {a b : ι} {l : List ι} (ha : a ∈ l) (hb : b ∈ l) (hne : a ≠ b) :
    [a, b].Sublist l ∨ [b, a].Sublist l := by
  induction l with
  | nil => cases ha
  | cons c l ih =>
    rcases List.mem_cons.mp ha with rfl | hal
    · have hbl := (List.mem_cons.mp hb).resolve_left hne.symm
      exact .inl ((List.singleton_sublist.mpr hbl).cons_cons a)
    · rcases List.mem_cons.mp hb with rfl | hbl
      · exact .inr ((List.singleton_sublist.mpr hal).cons_cons b)
      · exact (ih hal hbl).imp (·.cons c) (·.cons c)

variable {ι τ : Type} [LinearOrder τ]

/-- Each of two intervals begins before the other ends. -/
def Meets (lo hi : ι → τ) (a b : ι) : Prop := lo a < hi b ∧ lo b < hi a

instance (lo hi : ι → τ) (a b : ι) : Decidable (Meets lo hi a b) :=
  inferInstanceAs (Decidable (_ ∧ _))

theorem Meets.symm {lo hi : ι → τ} {a b : ι} (h : Meets lo hi a b) : Meets lo hi b a := ⟨h.2, h.1⟩

instance (lo hi : ι → τ) : Std.Symm (Meets lo hi) := ⟨fun _ _ => Meets.symm⟩

/-! ## Blocks -/

/-- The blocks that are finished, the one at hand, and the interval that ends last. -/
structure State (ι : Type) where
  done : List (List ι)
  members : List ι
  bridge : Option ι

/-- One turn of the sweep. -/
def State.visit (lo hi : ι → τ) (s : State ι) (x : ι) : State ι :=
  match s.bridge with
  | none => ⟨s.done ++ [s.members], [x], some x⟩
  | some b =>
    if hi b ≤ lo x then ⟨s.done ++ [s.members], [x], some x⟩
    else ⟨s.done, s.members ++ [x], some (if hi b < hi x then x else b)⟩

/-- The blocks so far. -/
def State.blocks (s : State ι) : List (List ι) := s.done ++ [s.members]

/-- The sweep over some intervals. -/
def sweep (lo hi : ι → τ) (items : List ι) : State ι :=
  items.foldl (State.visit lo hi) ⟨[], [], none⟩

/-- The blocks with two members or more. -/
def blocks (lo hi : ι → τ) (items : List ι) : List (List ι) :=
  (sweep lo hi items).blocks.filter fun block => 1 < block.length

section Blocks
variable {lo hi : ι → τ} {s : State ι} {x y z : ι} {items : List ι}

/-- **A turn** begins a block with an interval that begins when all have ended, or adds one that
begins before the bridge ends. -/
theorem State.visit_cases (lo hi : ι → τ) (s : State ι) (x : ι) :
    ((∀ b, s.bridge = some b → hi b ≤ lo x) ∧
      s.visit lo hi x = ⟨s.done ++ [s.members], [x], some x⟩) ∨
    ∃ b, s.bridge = some b ∧ lo x < hi b ∧
      s.visit lo hi x = ⟨s.done, s.members ++ [x], some (if hi b < hi x then x else b)⟩ := by
  cases hb : s.bridge with
  | none => exact .inl ⟨fun b h => (by cases h), by rw [State.visit, hb]⟩
  | some b =>
    by_cases hcut : hi b ≤ lo x
    · refine .inl ⟨fun c hc => ?_, ?_⟩
      · obtain rfl := Option.some.inj hc
        exact hcut
      · rw [State.visit, hb]
        exact if_pos hcut
    · refine .inr ⟨b, rfl, not_le.mp hcut, ?_⟩
      rw [State.visit, hb]
      exact if_neg hcut

theorem State.flatten_visit : (s.visit lo hi x).blocks.flatten = s.blocks.flatten ++ [x] := by
  rcases s.visit_cases lo hi x with ⟨-, hvisit⟩ | ⟨b, -, -, hvisit⟩ <;>
    simp [hvisit, State.blocks]

theorem sweep_snoc (items : List ι) (x : ι) :
    sweep lo hi (items ++ [x]) = (sweep lo hi items).visit lo hi x := by
  rw [sweep, List.foldl_append]
  rfl

/-- The blocks are the list, cut. -/
theorem flatten_sweep (lo hi : ι → τ) (items : List ι) : (sweep lo hi items).blocks.flatten = items := by
  induction items using List.reverseRecOn with
  | nil => rfl
  | append_singleton items x ih => rw [sweep_snoc, State.flatten_visit, ih]

/-- The bridge is a member of the block at hand, and nothing so far ends after it. -/
structure State.Bridged (hi : ι → τ) (items : List ι) (s : State ι) : Prop where
  none : s.bridge = none → items = []
  some : ∀ b, s.bridge = some b → b ∈ s.members ∧ ∀ a ∈ items, hi a ≤ hi b

theorem bridged_sweep (hle : ∀ a, lo a ≤ hi a) (items : List ι) :
    (sweep lo hi items).Bridged hi items := by
  induction items using List.reverseRecOn with
  | nil => exact ⟨fun _ => rfl, fun b hb => (by cases hb)⟩
  | append_singleton items x ih =>
    rw [sweep_snoc]
    rcases (sweep lo hi items).visit_cases lo hi x with ⟨hcut, hvisit⟩ | ⟨b, hb, hlt, hvisit⟩
    · refine ⟨fun h => (by rw [hvisit] at h; cases h), fun c hc => ?_⟩
      rw [hvisit] at hc ⊢
      obtain rfl : x = c := by simpa using hc
      refine ⟨List.mem_singleton_self x, fun a ha => ?_⟩
      rcases List.mem_append.mp ha with ha | ha
      · cases hbridge : (sweep lo hi items).bridge with
        | none => rw [ih.none hbridge] at ha; cases ha
        | some b =>
          calc hi a ≤ hi b := (ih.some b hbridge).2 a ha
            _ ≤ lo x := hcut b hbridge
            _ ≤ hi x := hle x
      · rw [List.mem_singleton.mp ha]
    · refine ⟨fun h => (by rw [hvisit] at h; cases h), fun c hc => ?_⟩
      rw [hvisit] at hc ⊢
      obtain ⟨hmem, hmax⟩ := ih.some b hb
      by_cases hlater : hi b < hi x
      · obtain rfl : x = c := by simpa [hlater] using hc
        refine ⟨by simp, fun a ha => ?_⟩
        rcases List.mem_append.mp ha with ha | ha
        · exact (hmax a ha).trans hlater.le
        · rw [List.mem_singleton.mp ha]
      · obtain rfl : b = c := by simpa [hlater] using hc
        refine ⟨List.mem_append_left _ hmem, fun a ha => ?_⟩
        rcases List.mem_append.mp ha with ha | ha
        · exact hmax a ha
        · rw [List.mem_singleton.mp ha]
          exact not_lt.mp hlater

theorem mem_of_blocks {block : List ι} (hblock : block ∈ (sweep lo hi items).blocks) (hx : x ∈ block) :
    x ∈ items := by
  rw [← flatten_sweep lo hi items]
  exact List.mem_flatten.mpr ⟨block, hblock, hx⟩

/-- An earlier block has ended when a later one begins. -/
theorem separated_sweep (hle : ∀ a, lo a ≤ hi a) (hsorted : items.Pairwise fun a b => lo a ≤ lo b) :
    (sweep lo hi items).blocks.Pairwise fun p q => ∀ a ∈ p, ∀ b ∈ q, hi a ≤ lo b := by
  induction items using List.reverseRecOn with
  | nil => exact List.pairwise_singleton _ _
  | append_singleton items x ih =>
    rw [List.pairwise_append] at hsorted
    obtain ⟨hsorted, -, hlast⟩ := hsorted
    have ih := ih hsorted
    have hbridged := bridged_sweep hle items
    rw [sweep_snoc]
    rcases (sweep lo hi items).visit_cases lo hi x with ⟨hcut, hvisit⟩ | ⟨b, hb, hlt, hvisit⟩
    · rw [hvisit]
      refine List.pairwise_append.mpr ⟨ih, List.pairwise_singleton _ _, ?_⟩
      intro p hp q hq a ha c hc
      obtain rfl := List.mem_singleton.mp hq
      obtain rfl := List.mem_singleton.mp hc
      have ha : a ∈ items := mem_of_blocks hp ha
      cases hbridge : (sweep lo hi items).bridge with
      | none => rw [hbridged.none hbridge] at ha; cases ha
      | some b => exact ((hbridged.some b hbridge).2 a ha).trans (hcut b hbridge)
    · rw [hvisit]
      obtain ⟨hdone, -, hmembers⟩ := List.pairwise_append.mp ih
      refine List.pairwise_append.mpr ⟨hdone, List.pairwise_singleton _ _, ?_⟩
      intro p hp q hq a ha c hc
      obtain rfl := List.mem_singleton.mp hq
      have hapart := hmembers p hp _ (List.mem_singleton_self _) a ha
      rcases List.mem_append.mp hc with hc | hc
      · exact hapart c hc
      · -- what is added begins no earlier than the bridge
        obtain rfl := List.mem_singleton.mp hc
        have hmem := (hbridged.some b hb).1
        have hitem : b ∈ items :=
          mem_of_blocks (List.mem_append_right _ (List.mem_singleton_self _)) hmem
        exact (hapart b hmem).trans (hlast b hitem c (List.mem_singleton_self c))

/-- An instant that is swept after an interval that begins with it, and is inside no other. -/
def Touches (lo hi : ι → τ) (items : List ι) (y z : ι) : Prop :=
  [y, z].Sublist items ∧ lo y = lo z ∧ hi z ≤ lo z ∧ lo z < hi y ∧
    ∀ x ∈ items, lo x < lo z → hi x ≤ lo z

/-- A block without such an instant is connected. -/
theorem connected_sweep (hle : ∀ a, lo a ≤ hi a) (hsorted : items.Pairwise fun a b => lo a ≤ lo b)
    (htouch : ∀ y z, ¬ Touches lo hi items y z) :
    ∀ block ∈ (sweep lo hi items).blocks, ∀ a ∈ block, ∀ b ∈ block,
      ReflTransGen (Meets lo hi) a b := by
  induction items using List.reverseRecOn with
  | nil =>
    intro block hblock a ha
    obtain rfl : block = [] := by simpa [sweep, State.blocks] using hblock
    cases ha
  | append_singleton items x ih =>
    rw [List.pairwise_append] at hsorted
    obtain ⟨hsorted, -, hlast⟩ := hsorted
    have hlast : ∀ a ∈ items, lo a ≤ lo x := fun a ha => hlast a ha x (List.mem_singleton_self x)
    have hbefore : ∀ y z, ¬ Touches lo hi items y z := by
      rintro y z ⟨hsub, hlo, hhi, hlt, hinside⟩
      refine htouch y z ⟨hsub.trans (List.sublist_append_left _ _), hlo, hhi, hlt, fun w hw hwz => ?_⟩
      rcases List.mem_append.mp hw with hw | hw
      · exact hinside w hw hwz
      · rw [List.mem_singleton.mp hw] at hwz
        exact absurd hwz (not_lt.mpr (hlast z (hsub.subset (by simp))))
    have ih := ih hsorted hbefore
    rw [sweep_snoc]
    rcases (sweep lo hi items).visit_cases lo hi x with ⟨-, hvisit⟩ | ⟨b, hb, hlt, hvisit⟩
    · rw [hvisit]
      intro block hblock
      rcases List.mem_append.mp hblock with hblock | hblock
      · exact ih block hblock
      · rw [List.mem_singleton.mp hblock]
        intro a ha c hc
        rw [List.mem_singleton.mp ha, List.mem_singleton.mp hc]
    · obtain ⟨hmem, -⟩ := (bridged_sweep hle items).some b hb
      have hmembers := ih _ (List.mem_append_right _ (List.mem_singleton_self _))
      have hitem : b ∈ items := mem_of_blocks (List.mem_append_right _ (List.mem_singleton_self _)) hmem
      have hjoin : ReflTransGen (Meets lo hi) x b := by
        by_cases hmeets : lo b < hi x
        · exact .single ⟨hlt, hmeets⟩
        · -- an instant that begins with the bridge is inside something that meets both
          have hbx := hlast b hitem
          have hinstant : hi x ≤ lo x := (not_lt.mp hmeets).trans hbx
          have hlo : lo b = lo x := le_antisymm hbx ((hle x).trans (not_lt.mp hmeets))
          have hsub : [b, x].Sublist (items ++ [x]) :=
            (List.singleton_sublist.mpr hitem).append (List.Sublist.refl [x])
          by_contra hapart
          refine htouch b x ⟨hsub, hlo, hinstant, hlt, fun w _ hw => ?_⟩
          by_contra hinside
          have hinside := not_le.mp hinside
          have hxw : Meets lo hi x w := ⟨hinside, hw.trans_le (hle x)⟩
          have hwb : Meets lo hi w b := ⟨hw.trans hlt, hlo ▸ hinside⟩
          exact hapart ((ReflTransGen.single hxw).tail hwb)
      have hbridge : ∀ a ∈ (sweep lo hi items).members ++ [x], ReflTransGen (Meets lo hi) a b := by
        intro a ha
        rcases List.mem_append.mp ha with ha | ha
        · exact hmembers a ha b hmem
        · rw [List.mem_singleton.mp ha]
          exact hjoin
      rw [hvisit]
      intro block hblock
      rcases List.mem_append.mp hblock with hblock | hblock
      · exact ih block (List.mem_append_left _ hblock)
      · rw [List.mem_singleton.mp hblock]
        exact fun a ha c hc => (hbridge a ha).trans (Std.Symm.symm _ _ (hbridge c hc))

/-- Of two blocks one has ended when the other begins. -/
theorem apart_of_ne (hle : ∀ a, lo a ≤ hi a) (hsorted : items.Pairwise fun a b => lo a ≤ lo b)
    {p q : List ι} (hp : p ∈ (sweep lo hi items).blocks) (hq : q ∈ (sweep lo hi items).blocks)
    (hne : p ≠ q) : (∀ a ∈ p, ∀ b ∈ q, hi a ≤ lo b) ∨ ∀ a ∈ q, ∀ b ∈ p, hi a ≤ lo b := by
  let R (p q : List ι) : Prop :=
    (∀ a ∈ p, ∀ b ∈ q, hi a ≤ lo b) ∨ ∀ a ∈ q, ∀ b ∈ p, hi a ≤ lo b
  have : Std.Symm R := ⟨fun _ _ => Or.symm⟩
  have hpairwise : (sweep lo hi items).blocks.Pairwise R :=
    (separated_sweep hle hsorted).imp Or.inl
  exact hpairwise.forall hp hq hne

/-- What meets is in one block. -/
theorem same_block_of_reflTransGen (hle : ∀ a, lo a ≤ hi a)
    (hsorted : items.Pairwise fun a b => lo a ≤ lo b) (hall : ∀ a, a ∈ items) {block : List ι}
    (hblock : block ∈ (sweep lo hi items).blocks) (hx : x ∈ block)
    (h : ReflTransGen (Meets lo hi) x y) : y ∈ block := by
  induction h with
  | refl => exact hx
  | @tail a b _ hab ih =>
    have hb : b ∈ (sweep lo hi items).blocks.flatten := by
      rw [flatten_sweep]
      exact hall b
    obtain ⟨other, hother, hb⟩ := List.mem_flatten.mp hb
    by_cases hsame : other = block
    · exact hsame ▸ hb
    · rcases apart_of_ne hle hsorted hother hblock hsame with hapart | hapart
      · exact absurd (hapart b hb a ih) (not_le.mpr hab.1)
      · exact absurd (hapart a ih b hb) (not_le.mpr hab.2)

/-- Of two intervals the later of which begins before the earlier ends, both are in one block. -/
theorem same_block_of_lt (hle : ∀ a, lo a ≤ hi a) (hsorted : items.Pairwise fun a b => lo a ≤ lo b)
    (hsub : [y, z].Sublist items) (hlt : lo z < hi y) :
    ∃ block ∈ (sweep lo hi items).blocks, [y, z].Sublist block := by
  rw [← flatten_sweep lo hi items] at hsub
  rcases pair_sublist_flatten hsub with hsub | ⟨p, q, hpq, hy, hz⟩
  · exact hsub
  · have hapart := (separated_sweep hle hsorted).sublist hpq
    rw [List.pairwise_pair] at hapart
    exact absurd (hapart y hy z hz) (not_le.mpr hlt)

/-- What is connected to something else is in a block with two members or more. -/
theorem exists_block (hle : ∀ a, lo a ≤ hi a) (hsorted : items.Pairwise fun a b => lo a ≤ lo b)
    (hall : ∀ a, a ∈ items) (hne : x ≠ y) (h : ReflTransGen (Meets lo hi) x y) :
    ∃ block ∈ blocks lo hi items, x ∈ block := by
  have hx : x ∈ (sweep lo hi items).blocks.flatten := by
    rw [flatten_sweep]
    exact hall x
  obtain ⟨block, hblock, hx⟩ := List.mem_flatten.mp hx
  have hy := same_block_of_reflTransGen hle hsorted hall hblock hx h
  exact ⟨block, List.mem_filter.mpr ⟨hblock, decide_eq_true (one_lt_length_of_ne hx hy hne)⟩, hx⟩

/-- Without an instant that touches, **the blocks are the components**. -/
theorem components_blocks (hle : ∀ a, lo a ≤ hi a) (hsorted : items.Pairwise fun a b => lo a ≤ lo b)
    (hnodup : items.Nodup) (hall : ∀ a, a ∈ items) (htouch : ∀ y z, ¬ Touches lo hi items y z) :
    Components (Meets lo hi) (blocks lo hi items) where
  nodup := by
    refine List.Nodup.sublist (List.Sublist.flatten List.filter_sublist) ?_
    rw [flatten_sweep]
    exact hnodup
  several part hpart := by simpa using (List.mem_filter.mp hpart).2
  connected part hpart := by
    obtain ⟨hblock, hlength⟩ := List.mem_filter.mp hpart
    match part, hlength with
    | a :: rest, _ =>
      exact ⟨a, fun b => ⟨connected_sweep hle hsorted htouch _ hblock a List.mem_cons_self b,
        same_block_of_reflTransGen hle hsorted hall hblock List.mem_cons_self⟩⟩
  complete a b hne hab := exists_block hle hsorted hall hne hab

/-- An instant that touches meets nothing. -/
theorem Touches.isolated (h : Touches lo hi items y z) (hall : ∀ a, a ∈ items)
    (hreach : ReflTransGen (Meets lo hi) z x) : x = z := by
  obtain ⟨-, -, hinstant, -, hinside⟩ := h
  rcases hreach.cases_head with rfl | ⟨w, hw, -⟩
  · rfl
  · exact absurd (hinside w (hall w) (hw.2.trans_le hinstant)) (not_le.mpr hw.1)

/-- With an instant that touches, the blocks have more members than the components. -/
theorem Touches.length_lt (h : Touches lo hi items y z) (hle : ∀ a, lo a ≤ hi a)
    (hsorted : items.Pairwise fun a b => lo a ≤ lo b) (hnodup : items.Nodup)
    (hall : ∀ a, a ∈ items) {parts : List (List ι)} (hparts : Components (Meets lo hi) parts) :
    parts.flatten.length < (blocks lo hi items).flatten.length := by
  classical
  have hblocks : (blocks lo hi items).flatten.Nodup := by
    refine List.Nodup.sublist (List.Sublist.flatten List.filter_sublist) ?_
    rw [flatten_sweep]
    exact hnodup
  have hz : z ∈ (blocks lo hi items).flatten := by
    obtain ⟨block, hblock, hsub⟩ := same_block_of_lt hle hsorted h.1 h.2.2.2.1
    have hlength : 1 < block.length := hsub.length_le
    exact List.mem_flatten.mpr ⟨block, List.mem_filter.mpr ⟨hblock, decide_eq_true hlength⟩,
      hsub.subset (by simp)⟩
  have hfresh : z ∉ parts.flatten := by
    rw [hparts.mem_flatten]
    rintro ⟨b, hne, hb⟩
    exact hne (h.isolated hall hb)
  have hsubset : z :: parts.flatten ⊆ (blocks lo hi items).flatten := by
    refine List.cons_subset.mpr ⟨hz, fun a ha => ?_⟩
    obtain ⟨b, hne, hab⟩ := hparts.mem_flatten.mp ha
    exact List.mem_flatten.mpr (exists_block hle hsorted hall hne.symm hab)
  exact (List.subperm_of_subset (List.nodup_cons.mpr ⟨hfresh, hparts.nodup⟩) hsubset).length_le

end Blocks

/-! ## Sweeps of what stands for an interval -/

section Map
variable {κ : Type} {lo hi : ι → τ}

/-- A state of other things. -/
def State.map (f : κ → ι) (s : State κ) : State ι :=
  ⟨s.done.map (·.map f), s.members.map f, s.bridge.map f⟩

theorem State.visit_map (f : κ → ι) (s : State κ) (x : κ) :
    (s.map f).visit lo hi (f x) = (s.visit (lo ∘ f) (hi ∘ f) x).map f := by
  obtain ⟨done, members, bridge⟩ := s
  cases bridge with
  | none => simp [State.visit, State.map]
  | some b =>
    simp only [State.visit, State.map, Option.map_some, Function.comp_apply]
    split
    · simp
    · simp only [List.map_append, List.map_cons, List.map_nil]
      split <;> rfl

theorem sweep_map (f : κ → ι) (items : List κ) :
    sweep lo hi (items.map f) = (sweep (lo ∘ f) (hi ∘ f) items).map f := by
  induction items using List.reverseRecOn with
  | nil => rfl
  | append_singleton items x ih =>
    rw [List.map_append, List.map_singleton, sweep_snoc, sweep_snoc, ih, State.visit_map]

theorem blocks_map (f : κ → ι) (items : List κ) :
    blocks lo hi (items.map f) = (blocks (lo ∘ f) (hi ∘ f) items).map (·.map f) := by
  have hblocks : (sweep lo hi (items.map f)).blocks =
      (sweep (lo ∘ f) (hi ∘ f) items).blocks.map (·.map f) := by
    simp [sweep_map, State.blocks, State.map]
  rw [blocks, blocks, hblocks, List.filter_map]
  simp [Function.comp_def]

theorem exists_touches_map (f : κ → ι) (items : List κ) :
    (∃ y z, Touches lo hi (items.map f) y z) ↔ ∃ y z, Touches (lo ∘ f) (hi ∘ f) items y z := by
  constructor
  · rintro ⟨y, z, hsub, hlo, hhi, hlt, hinside⟩
    obtain ⟨pair, hpair, heq⟩ := List.sublist_map_iff.mp hsub
    match pair, heq with
    | [a, b], heq =>
      obtain ⟨rfl, rfl⟩ : y = f a ∧ z = f b := by simpa using heq
      exact ⟨a, b, hpair, hlo, hhi, hlt, fun x hx => hinside _ (List.mem_map.mpr ⟨x, hx, rfl⟩)⟩
  · rintro ⟨y, z, hsub, hlo, hhi, hlt, hinside⟩
    refine ⟨f y, f z, hsub.map f, hlo, hhi, hlt, fun x hx => ?_⟩
    obtain ⟨a, ha, rfl⟩ := List.mem_map.mp hx
    exact hinside a ha

end Map

/-! ## Pairs -/

/-- The intervals that have not ended yet, and the pairs that met. -/
structure Active (ι : Type) where
  active : List ι
  pairs : List (ι × ι)

/-- One turn of the sweep: those that have ended leave, and the interval meets the others. -/
def Active.visit (lo hi : ι → τ) (s : Active ι) (x : ι) : Active ι :=
  ⟨s.active.filter (fun y => lo x < hi y) ++ [x],
    s.pairs ++ ((s.active.filter fun y => lo x < hi y).filter fun y => lo y < hi x).map fun y => (x, y)⟩

/-- The sweep over some intervals. -/
def meet (lo hi : ι → τ) (items : List ι) : Active ι := items.foldl (Active.visit lo hi) ⟨[], []⟩

section Pairs
variable {lo hi : ι → τ} {a b x : ι} {items : List ι}

theorem meet_snoc (items : List ι) (x : ι) :
    meet lo hi (items ++ [x]) = (meet lo hi items).visit lo hi x := by
  rw [meet, List.foldl_append]
  rfl

/-- What has left has ended before something began. -/
theorem mem_active (lo hi : ι → τ) (items : List ι) :
    (∀ a ∈ (meet lo hi items).active, a ∈ items) ∧
      ∀ a ∈ items, a ∈ (meet lo hi items).active ∨ ∃ b ∈ items, hi a ≤ lo b := by
  induction items using List.reverseRecOn with
  | nil => exact ⟨fun a ha => ha, fun a ha => (by cases ha)⟩
  | append_singleton items x ih =>
    rw [meet_snoc]
    constructor
    · intro a ha
      rcases List.mem_append.mp ha with ha | ha
      · exact List.mem_append_left _ (ih.1 a (List.mem_of_mem_filter ha))
      · exact List.mem_append_right _ ha
    · intro a ha
      rcases List.mem_append.mp ha with ha | ha
      · rcases ih.2 a ha with hactive | ⟨b, hb, hended⟩
        · by_cases hlt : lo x < hi a
          · exact .inl (List.mem_append_left _ (List.mem_filter.mpr ⟨hactive, decide_eq_true hlt⟩))
          · exact .inr ⟨x, by simp, not_lt.mp hlt⟩
        · exact .inr ⟨b, List.mem_append_left _ hb, hended⟩
      · exact .inl (List.mem_append_right _ ha)

theorem pair_sublist_snoc : [b, a].Sublist (items ++ [x]) ↔
    [b, a].Sublist items ∨ a = x ∧ b ∈ items := by
  constructor
  · intro h
    obtain ⟨l, m, hsplit, hl, hm⟩ := List.sublist_append_iff.mp h
    match l with
    | [] =>
      obtain rfl : [b, a] = m := by simpa using hsplit
      exact absurd hm.length_le (by simp)
    | [c] =>
      obtain ⟨rfl, rfl⟩ : b = c ∧ [a] = m := by simpa using hsplit
      exact .inr ⟨by simpa using hm, List.singleton_sublist.mp hl⟩
    | c :: d :: l =>
      obtain ⟨rfl, rfl, rfl, rfl⟩ : b = c ∧ a = d ∧ l = [] ∧ m = [] := by simpa using hsplit
      exact .inl hl
  · rintro (h | ⟨rfl, h⟩)
    · exact h.trans (List.sublist_append_left _ _)
    · exact (List.singleton_sublist.mpr h).append (List.Sublist.refl [a])

/-- **The sweep meets exactly the pairs that meet.** -/
theorem mem_pairs_meet (hsorted : items.Pairwise fun a b => lo a ≤ lo b) :
    (a, b) ∈ (meet lo hi items).pairs ↔ [b, a].Sublist items ∧ Meets lo hi a b := by
  induction items using List.reverseRecOn with
  | nil => simp [meet]
  | append_singleton items x ih =>
    rw [List.pairwise_append] at hsorted
    obtain ⟨hsorted, -, hlast⟩ := hsorted
    rw [meet_snoc, Active.visit, List.mem_append, ih hsorted, pair_sublist_snoc, or_and_right]
    refine or_congr_right ?_
    simp only [List.mem_map, List.mem_filter, decide_eq_true_eq, Prod.mk.injEq]
    constructor
    · rintro ⟨c, ⟨⟨hactive, hlo⟩, hhi⟩, rfl, rfl⟩
      exact ⟨⟨rfl, (mem_active lo hi items).1 c hactive⟩, hlo, hhi⟩
    · rintro ⟨⟨rfl, hb⟩, hlo, hhi⟩
      refine ⟨b, ⟨⟨?_, hlo⟩, hhi⟩, rfl, rfl⟩
      rcases (mem_active lo hi items).2 b hb with hactive | ⟨c, hc, hended⟩
      · exact hactive
      · -- it would have ended before this one begins
        have := hlast c hc a (List.mem_singleton_self a)
        exact absurd (hended.trans this) (not_le.mpr hlo)

end Pairs

end IntervalSweep
