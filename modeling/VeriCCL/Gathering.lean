import VeriCCL.Kahn
import Mathlib.Data.Finset.Union
import Mathlib.Logic.Relation

/-! # Gathering and spreading

Places hold sets of contributions.  A plan gathers them along arcs: such a transfer adds what
its source holds to what its target holds.  Then it spreads the whole from its root: such a
transfer replaces what its target holds.  A transfer waits for the gathers into its source, or
for the spread into its source; transfers into one place are not ordered among themselves.

`Plan.Sound` says what makes a plan right in every order that keeps to the waits
(`Plan.Sound.replays`), and a plan that is right in one order is right in all
(`Plan.Shaped.sound`). -/
namespace VeriCCL.Gathering

open Relation (ReflTransGen TransGen)

variable {α γ : Type} [DecidableEq α] [DecidableEq γ]

/-- A transfer between places. -/
inductive Transfer (α : Type) where
  | gather (src dst : α)
  | spread (src dst : α)
  deriving DecidableEq

/-- Arcs to gather and to spread along, with what every place holds at first, what a gather
out of a place is said to carry, and what a spread is said to carry. -/
structure Plan (α γ : Type) where
  own : α → Option (Finset γ)
  root : α
  gathers : Finset (α × α)
  spreads : Finset (α × α)
  carried : α → Finset γ
  whole : Finset γ

/-- What places hold after a transfer. -/
def apply (held : α → Option (Finset γ)) : Transfer α → α → Option (Finset γ)
  | .gather src dst => Function.update held dst (some ((held dst).getD ∅ ∪ (held src).getD ∅))
  | .spread src dst => Function.update held dst (held src)

namespace Plan

/-- All transfers of a plan. -/
def transfers (plan : Plan α γ) : Finset (Transfer α) :=
  plan.gathers.image (fun e => .gather e.1 e.2) ∪ plan.spreads.image (fun e => .spread e.1 e.2)

/-- The gathers into a place. -/
def into (plan : Plan α γ) (v : α) : Finset (Transfer α) :=
  (plan.gathers.filter (·.2 = v)).image fun e => .gather e.1 e.2

/-- What a transfer waits for. -/
def preds (plan : Plan α γ) : Transfer α → Finset (Transfer α)
  | .gather src _ => plan.into src
  | .spread src _ =>
    if src = plan.root then plan.into src
    else (plan.spreads.filter (·.2 = src)).image fun e => .spread e.1 e.2

/-- An order of all transfers that keeps to the waits. -/
structure Extends (plan : Plan α γ) (order : List (Transfer α)) : Prop where
  nodup : order.Nodup
  all : ∀ t, t ∈ order ↔ t ∈ plan.transfers
  sorted : Kahn.Topological plan.preds order

/-- A transfer finds at its source what it is said to carry, and a gather adds nothing twice. -/
def Reads (plan : Plan α γ) (held : α → Option (Finset γ)) : Transfer α → Prop
  | .gather src dst => held src = some (plan.carried src) ∧
      ∃ prior, held dst = some prior ∧ Disjoint prior (plan.carried src)
  | .spread src _ => held src = some plan.whole

/-- Every transfer of an order finds what it is said to carry. -/
def Replays (plan : Plan α γ) (order : List (Transfer α)) : Prop :=
  ∀ l t r, order = l ++ t :: r → plan.Reads (l.foldl apply plan.own) t

/-- The arcs to spread along are a tree out of the root. -/
structure Spreads (plan : Plan α γ) : Prop where
  head : ∀ e ∈ plan.spreads, e.2 ≠ plan.root
  parent : ∀ e ∈ plan.spreads, e.1 ≠ plan.root → ∃ w, (w, e.1) ∈ plan.spreads
  once : ∀ e ∈ plan.spreads, ∀ e' ∈ plan.spreads, e.2 = e'.2 → e = e'

/-- Gathers lead from owners to owners, and are said to carry what comes together. -/
structure Formed (plan : Plan α γ) : Prop extends plan.Spreads where
  owned : ∀ e ∈ plan.gathers, plan.own e.1 ≠ none ∧ plan.own e.2 ≠ none
  carries : ∀ v s, plan.own v = some s →
    plan.carried v = s ∪ (plan.gathers.filter (·.2 = v)).biUnion fun e => plan.carried e.1

/-- What makes a plan right in every order: what comes together in a place is disjoint, and
before a spread everything has come together in the root. -/
structure Sound (plan : Plan α γ) : Prop extends plan.Formed where
  fresh : ∀ e ∈ plan.gathers, ∀ s, plan.own e.2 = some s → Disjoint s (plan.carried e.1)
  apart : ∀ e ∈ plan.gathers, ∀ e' ∈ plan.gathers, e.2 = e'.2 → e ≠ e' →
    Disjoint (plan.carried e.1) (plan.carried e'.1)
  rooted : plan.spreads.Nonempty →
    plan.own plan.root ≠ none ∧ plan.carried plan.root = plan.whole ∧
      ∀ e ∈ plan.gathers, ReflTransGen (fun u v => (u, v) ∈ plan.gathers) e.2 plan.root

/-- What places hold when some transfers are done. -/
def after (plan : Plan α γ) (done : List (Transfer α)) (v : α) : Option (Finset γ) :=
  if ∃ e ∈ plan.spreads, e.2 = v ∧ .spread e.1 e.2 ∈ done then some plan.whole
  else (plan.own v).map fun s => s ∪
    (plan.gathers.filter fun e => e.2 = v ∧ .gather e.1 e.2 ∈ done).biUnion
      fun e => plan.carried e.1

/-! ## What a plan's transfers are -/

variable {plan : Plan α γ} {order l r : List (Transfer α)} {t : Transfer α} {u v : α}

omit [DecidableEq γ] in
@[simp] theorem gather_mem_transfers : .gather u v ∈ plan.transfers ↔ (u, v) ∈ plan.gathers := by
  simp [transfers]

omit [DecidableEq γ] in
@[simp] theorem spread_mem_transfers : .spread u v ∈ plan.transfers ↔ (u, v) ∈ plan.spreads := by
  simp [transfers]

omit [DecidableEq γ] in
@[simp] theorem mem_into : t ∈ plan.into v ↔ ∃ u, (u, v) ∈ plan.gathers ∧ t = .gather u v := by
  simp only [into, Finset.mem_image, Finset.mem_filter, Prod.exists]
  constructor
  · rintro ⟨a, b, ⟨hmem, rfl⟩, rfl⟩
    exact ⟨a, hmem, rfl⟩
  · rintro ⟨a, hmem, rfl⟩
    exact ⟨a, v, ⟨hmem, rfl⟩, rfl⟩

omit [DecidableEq γ] in
theorem Extends.gather_mem (h : plan.Extends order) : .gather u v ∈ order ↔ (u, v) ∈ plan.gathers :=
  (h.all _).trans gather_mem_transfers

omit [DecidableEq γ] in
theorem Extends.spread_mem (h : plan.Extends order) : .spread u v ∈ order ↔ (u, v) ∈ plan.spreads :=
  (h.all _).trans spread_mem_transfers

omit [DecidableEq γ] in
/-- The gathers into the source of a gather are done before it. -/
theorem Extends.before_gather (h : plan.Extends order) (hsplit : order = l ++ .gather u v :: r)
    {x : α} (hx : (x, u) ∈ plan.gathers) : .gather x u ∈ l :=
  h.sorted l _ r hsplit _ (mem_into.mpr ⟨x, hx, rfl⟩)

omit [DecidableEq γ] in
/-- The gathers into the root are done before a spread out of it. -/
theorem Extends.before_spread (h : plan.Extends order)
    (hsplit : order = l ++ .spread plan.root v :: r) {x : α} (hx : (x, plan.root) ∈ plan.gathers) :
    .gather x plan.root ∈ l := by
  refine h.sorted l _ r hsplit _ ?_
  rw [preds, if_pos rfl]
  exact mem_into.mpr ⟨x, hx, rfl⟩

omit [DecidableEq γ] in
/-- The spread into a place is done before one out of it. -/
theorem Extends.before_spread_on (h : plan.Extends order) (hsplit : order = l ++ .spread u v :: r)
    (hu : u ≠ plan.root) {w : α} (hw : (w, u) ∈ plan.spreads) : .spread w u ∈ l := by
  refine h.sorted l _ r hsplit _ ?_
  rw [preds, if_neg hu]
  exact Finset.mem_image.mpr ⟨(w, u), Finset.mem_filter.mpr ⟨hw, rfl⟩, rfl⟩

/-! ## What is done before what -/

omit [DecidableEq γ] in
/-- With the gathers into the root, all from which the root is reached are done. -/
theorem Extends.gathers_done (h : plan.Extends order) (hsplit : order = l ++ r)
    (hroot : ∀ x, (x, plan.root) ∈ plan.gathers → .gather x plan.root ∈ l)
    (hreach : ReflTransGen (fun u v => (u, v) ∈ plan.gathers) v plan.root) :
    ∀ x, (x, v) ∈ plan.gathers → .gather x v ∈ l := by
  induction hreach using ReflTransGen.head_induction_on with
  | refl => exact hroot
  | @head a b hab _ ih =>
    intro x hx
    obtain ⟨l₁, l₂, rfl⟩ := List.mem_iff_append.mp (ih a hab)
    have hsplit' : order = l₁ ++ .gather a b :: (l₂ ++ r) := by simpa using hsplit
    exact List.mem_append_left _ (h.before_gather hsplit' hx)

omit [DecidableEq γ] in
/-- No spread is done before the gathers into the root. -/
theorem Extends.root_done (h : plan.Extends order) (hs : plan.Spreads) :
    ∀ t ∈ order, ∀ l r, order = l ++ t :: r → (∃ u v, t = .spread u v) →
      ∀ x, (x, plan.root) ∈ plan.gathers → .gather x plan.root ∈ l := by
  refine h.sorted.induct fun t ht ih l r hsplit => ?_
  rintro ⟨u, v, rfl⟩ x hx
  by_cases hu : u = plan.root
  · subst hu
    exact h.before_spread hsplit hx
  · obtain ⟨w, hw⟩ := hs.parent _ (h.spread_mem.mp ht) hu
    have hl := h.before_spread_on hsplit hu hw
    obtain ⟨l₁, l₂, rfl⟩ := List.mem_iff_append.mp hl
    have hpred : .spread w u ∈ plan.preds (.spread u v) := by
      rw [preds, if_neg hu]
      exact Finset.mem_image.mpr ⟨(w, u), Finset.mem_filter.mpr ⟨hw, rfl⟩, rfl⟩
    have hsplit' : order = l₁ ++ .spread w u :: (l₂ ++ .spread u v :: r) := by simpa using hsplit
    exact List.mem_append_left _ (ih _ hpred l₁ _ hsplit' ⟨w, u, rfl⟩ x hx)

omit [DecidableEq γ] in
/-- A place that a gather leads to from a place does not lead back to it. -/
theorem Extends.acyclic (h : plan.Extends order) :
    ∀ t ∈ order, ∀ u v, t = .gather u v →
      ¬ ReflTransGen (fun u v => (u, v) ∈ plan.gathers) v u := by
  refine h.sorted.induct fun t ht ih u v => ?_
  rintro rfl hback
  rcases hback.cases_tail with heq | ⟨x, hx, hlast⟩
  · -- an arc from a place to itself would wait for itself
    subst heq
    obtain ⟨l, r, hsplit⟩ := List.mem_iff_append.mp ht
    have hl := h.before_gather hsplit (h.gather_mem.mp ht)
    have hnodup := h.nodup
    rw [hsplit, List.nodup_append] at hnodup
    exact hnodup.2.2 _ hl _ List.mem_cons_self rfl
  · exact ih _ (mem_into.mpr ⟨x, hlast, rfl⟩) x u rfl (.head (h.gather_mem.mp ht) hx)

/-! ## What places hold after a transfer -/

/-- No spread is among some transfers. -/
def NoSpread (done : List (Transfer α)) : Prop := ∀ u v, .spread u v ∉ done

theorem after_noSpread (h : NoSpread l) (v : α) : plan.after l v = (plan.own v).map fun s => s ∪
    (plan.gathers.filter fun e => e.2 = v ∧ .gather e.1 e.2 ∈ l).biUnion
      fun e => plan.carried e.1 := by
  unfold after
  rw [if_neg]
  rintro ⟨e, -, -, hmem⟩
  exact h _ _ hmem

theorem after_nil (plan : Plan α γ) : plan.after [] = plan.own := by
  funext v
  rw [after_noSpread (by simp [NoSpread])]
  cases plan.own v <;> simp

omit [DecidableEq α] in
theorem NoSpread.snoc (h : NoSpread l) (u v : α) : NoSpread (l ++ [.gather u v]) := by
  intro a b hmem
  simpa using h a b (by simpa using hmem)

/-- **A gather** adds what it carries. -/
theorem after_gather (hno : NoSpread l) (hmem : (u, v) ∈ plan.gathers) {prior : Finset γ}
    (hsrc : plan.after l u = some (plan.carried u)) (hdst : plan.after l v = some prior) :
    apply (plan.after l) (.gather u v) = plan.after (l ++ [.gather u v]) := by
  funext z
  rw [after_noSpread (hno.snoc u v)]
  by_cases hz : z = v
  · subst hz
    simp only [apply, Function.update_self, hsrc, hdst, Option.getD_some]
    rw [after_noSpread hno] at hdst
    obtain ⟨s, hs, rfl⟩ := Option.map_eq_some_iff.mp hdst
    rw [hs, Option.map_some]
    congr 1
    ext c
    simp only [Finset.mem_union, Finset.mem_biUnion, Finset.mem_filter, List.mem_append,
      List.mem_singleton, Transfer.gather.injEq]
    constructor
    · rintro ((hc | ⟨e, ⟨he, hv, hl⟩, hc⟩) | hc)
      · exact .inl hc
      · exact .inr ⟨e, ⟨he, hv, .inl hl⟩, hc⟩
      · exact .inr ⟨(u, z), ⟨hmem, rfl, .inr ⟨rfl, rfl⟩⟩, hc⟩
    · rintro (hc | ⟨e, ⟨he, hv, hl | ⟨heu, -⟩⟩, hc⟩)
      · exact .inl (.inl hc)
      · exact .inl (.inr ⟨e, ⟨he, hv, hl⟩, hc⟩)
      · exact .inr (heu ▸ hc)
  · simp only [apply, Function.update_of_ne hz]
    rw [after_noSpread hno]
    have hsame : (plan.gathers.filter fun e => e.2 = z ∧ .gather e.1 e.2 ∈ l ++ [.gather u v]) =
        plan.gathers.filter fun e => e.2 = z ∧ .gather e.1 e.2 ∈ l := by
      refine Finset.filter_congr fun e _ => and_congr_right fun hv => ?_
      have hne : e.2 ≠ v := fun heq => hz (hv.symm.trans heq)
      simp [hne]
    rw [hsame]

/-- **A spread** puts the whole in place. -/
theorem after_spread (hmem : (u, v) ∈ plan.spreads) (hsrc : plan.after l u = some plan.whole) :
    apply (plan.after l) (.spread u v) = plan.after (l ++ [.spread u v]) := by
  funext z
  by_cases hz : z = v
  · subst hz
    simp only [apply, Function.update_self, hsrc]
    unfold after
    rw [if_pos ⟨(u, z), hmem, rfl, by simp⟩]
  · simp only [apply, Function.update_of_ne hz]
    unfold after
    have hspread : (∃ e ∈ plan.spreads, e.2 = z ∧ .spread e.1 e.2 ∈ l ++ [.spread u v]) ↔
        ∃ e ∈ plan.spreads, e.2 = z ∧ .spread e.1 e.2 ∈ l := by
      refine exists_congr fun e => and_congr_right fun _ => and_congr_right fun hv => ?_
      have hne : e.2 ≠ v := fun heq => hz (hv.symm.trans heq)
      simp [hne]
    simp only [hspread]
    simp only [List.mem_append, List.mem_singleton, reduceCtorEq, or_false]

omit [DecidableEq γ] in
/-- The gathers into a place that are done are all of them. -/
theorem filter_done (hall : ∀ x, (x, v) ∈ plan.gathers → .gather x v ∈ l) :
    (plan.gathers.filter fun e => e.2 = v ∧ .gather e.1 e.2 ∈ l) =
      plan.gathers.filter (·.2 = v) := by
  refine Finset.filter_congr fun e he => ?_
  constructor
  · exact fun h => h.1
  · rintro rfl
    exact ⟨rfl, hall e.1 he⟩

/-- A place holds what it is said to carry when all gathers into it are done. -/
theorem Formed.after_eq (h : plan.Formed) (hno : ∀ w, .spread w v ∉ l)
    (hown : plan.own v ≠ none) (hall : ∀ x, (x, v) ∈ plan.gathers → .gather x v ∈ l) :
    plan.after l v = some (plan.carried v) := by
  obtain ⟨s, hs⟩ := Option.ne_none_iff_exists'.mp hown
  unfold after
  rw [if_neg, filter_done hall, hs, Option.map_some, h.carries v s hs]
  rintro ⟨e, -, rfl, hmem⟩
  exact hno _ hmem

omit [DecidableEq γ] in
/-- No spread is done before a gather, if the gathers lead to the root. -/
theorem Extends.noSpread (ho : plan.Extends order) (hs : plan.Spreads)
    (hrooted : plan.spreads.Nonempty →
      ∀ e ∈ plan.gathers, ReflTransGen (fun u v => (u, v) ∈ plan.gathers) e.2 plan.root)
    (hsplit : order = l ++ .gather u v :: r) : NoSpread l := by
  intro a b hmem
  have hgather : (u, v) ∈ plan.gathers := ho.gather_mem.mp (by simp [hsplit])
  have hspread : (a, b) ∈ plan.spreads := ho.spread_mem.mp (by simp [hsplit, hmem])
  obtain ⟨l₁, l₂, hl⟩ := List.mem_iff_append.mp hmem
  have hsplit' : order = l₁ ++ .spread a b :: (l₂ ++ .gather u v :: r) := by simp [hsplit, hl]
  have hroot := ho.root_done hs _ (by simp [hsplit']) l₁ _ hsplit' ⟨a, b, rfl⟩
  have hdone := ho.gathers_done hsplit' hroot (hrooted ⟨_, hspread⟩ _ hgather) u hgather
  have hnodup := ho.nodup
  rw [hsplit', List.nodup_append] at hnodup
  exact hnodup.2.2 _ hdone _ (by simp) rfl

omit [DecidableEq α] in
/-- The first spread of some transfers. -/
theorem exists_first_spread (h : .spread u v ∈ l) :
    ∃ l₁ a b l₂, l = l₁ ++ .spread a b :: l₂ ∧ NoSpread l₁ := by
  induction l with
  | nil => cases h
  | cons t l ih =>
    cases t with
    | spread x y => exact ⟨[], x, y, l, rfl, by simp [NoSpread]⟩
    | gather x y =>
      obtain ⟨l₁, a, b, l₂, rfl, hno⟩ := ih (by simpa using h)
      exact ⟨.gather x y :: l₁, a, b, l₂, rfl, by simpa [NoSpread] using hno⟩

/-! ## A sound plan is right in every order -/

section Sound
variable (h : plan.Sound) (ho : plan.Extends order)
include h ho

/-- No spread is done before a gather. -/
theorem Sound.noSpread (hsplit : order = l ++ .gather u v :: r) : NoSpread l :=
  ho.noSpread h.toSpreads (fun hne => (h.rooted hne).2.2) hsplit

/-- **Every transfer finds what it is said to carry.** -/
theorem Sound.reads (hsplit : order = l ++ t :: r) : plan.Reads (plan.after l) t := by
  have hnodup := ho.nodup
  rw [hsplit, List.nodup_append] at hnodup
  cases t with
  | gather u v =>
    have hmem : (u, v) ∈ plan.gathers := ho.gather_mem.mp (by simp [hsplit])
    have hno := h.noSpread ho hsplit
    refine ⟨h.toFormed.after_eq (fun w => hno w u) (h.owned _ hmem).1
      fun x hx => ho.before_gather hsplit hx, ?_⟩
    obtain ⟨s, hs⟩ := Option.ne_none_iff_exists'.mp (h.owned _ hmem).2
    refine ⟨_, by rw [after_noSpread hno, hs, Option.map_some], ?_⟩
    rw [Finset.disjoint_union_left, Finset.disjoint_biUnion_left]
    refine ⟨h.fresh _ hmem s hs, fun e he => ?_⟩
    obtain ⟨he, hv, hl⟩ := Finset.mem_filter.mp he
    refine h.apart e he _ hmem hv ?_
    rintro rfl
    exact hnodup.2.2 _ hl _ List.mem_cons_self rfl
  | spread u v =>
    have hmem : (u, v) ∈ plan.spreads := ho.spread_mem.mp (by simp [hsplit])
    by_cases hu : u = plan.root
    · subst hu
      obtain ⟨hown, hwhole, -⟩ := h.rooted ⟨_, hmem⟩
      show plan.after l plan.root = some plan.whole
      rw [← hwhole]
      refine h.toFormed.after_eq (fun w hw => ?_) hown fun x hx => ho.before_spread hsplit hx
      exact h.head _ (ho.spread_mem.mp (by simp [hsplit, hw] : .spread w plan.root ∈ order)) rfl
    · obtain ⟨w, hw⟩ := h.parent _ hmem hu
      have hdone := ho.before_spread_on hsplit hu hw
      show plan.after l u = some plan.whole
      unfold after
      rw [if_pos ⟨(w, u), hw, rfl, hdone⟩]

/-- **What places hold depends on what is done**, not on the order. -/
theorem Sound.held : ∀ {l r}, order = l ++ r → l.foldl apply plan.own = plan.after l := by
  intro l
  induction l using List.reverseRecOn with
  | nil => exact fun _ => (after_nil plan).symm
  | append_singleton l t ih =>
    intro r hsplit
    have hsplit' : order = l ++ t :: r := by simpa using hsplit
    have hreads := h.reads ho hsplit'
    rw [List.foldl_append, ih hsplit', List.foldl_cons, List.foldl_nil]
    cases t with
    | gather u v =>
      obtain ⟨hsrc, prior, hdst, -⟩ := hreads
      exact after_gather (h.noSpread ho hsplit') (ho.gather_mem.mp (by simp [hsplit'])) hsrc hdst
    | spread u v => exact after_spread (ho.spread_mem.mp (by simp [hsplit'])) hreads

/-- **A sound plan is right in every order.** -/
theorem Sound.replays : plan.Replays order := by
  intro l t r hsplit
  rw [h.held ho hsplit]
  exact h.reads ho hsplit

/-- What places hold in the end. -/
theorem Sound.final : order.foldl apply plan.own = fun v =>
    if ∃ e ∈ plan.spreads, e.2 = v then some plan.whole
    else (plan.own v).map fun _ => plan.carried v := by
  rw [h.held ho (List.append_nil order).symm]
  funext v
  unfold after
  have hspread : (∃ e ∈ plan.spreads, e.2 = v ∧ .spread e.1 e.2 ∈ order) ↔
      ∃ e ∈ plan.spreads, e.2 = v :=
    exists_congr fun e => and_congr_right fun he => and_iff_left (ho.spread_mem.mpr he)
  simp only [hspread]
  split
  · rfl
  · rw [filter_done fun x hx => ho.gather_mem.mpr hx]
    cases hs : plan.own v with
    | none => rfl
    | some s => rw [Option.map_some, Option.map_some, h.carries v s hs]

end Sound

/-! ## A plan that is right in one order -/

/-- What every place has of its own is apart from the others and part of the whole. -/
structure Shaped (plan : Plan α γ) : Prop extends plan.Formed where
  separate : ∀ v w s s', plan.own v = some s → plan.own w = some s' → v ≠ w → Disjoint s s'
  part : ∀ v s, plan.own v = some s → s.Nonempty ∧ s ⊆ plan.whole

/-- No place holds an empty set. -/
theorem Shaped.after_nonempty (h : plan.Shaped) (hwhole : plan.whole.Nonempty) {s : Finset γ}
    (hs : plan.after l v = some s) : s.Nonempty := by
  unfold after at hs
  split at hs
  · rwa [← Option.some.inj hs]
  · obtain ⟨own, hown, rfl⟩ := Option.map_eq_some_iff.mp hs
    exact (h.part v own hown).1.mono Finset.subset_union_left

/-- What is carried out of a place comes from places that lead to it. -/
theorem Formed.carried_from (h : plan.Formed) (ho : plan.Extends order) {c : γ}
    (hown : plan.own v ≠ none) (hc : c ∈ plan.carried v) : ∃ w s, plan.own w = some s ∧ c ∈ s ∧
      ReflTransGen (fun u v => (u, v) ∈ plan.gathers) w v := by
  have hsource : ∀ t ∈ order, ∀ u v, t = .gather u v → ∀ c ∈ plan.carried u, ∃ w s,
      plan.own w = some s ∧ c ∈ s ∧ ReflTransGen (fun u v => (u, v) ∈ plan.gathers) w u := by
    refine ho.sorted.induct fun t ht ih u v => ?_
    rintro rfl c hc
    obtain ⟨s, hs⟩ := Option.ne_none_iff_exists'.mp (h.owned _ (ho.gather_mem.mp ht)).1
    rw [h.carries u s hs, Finset.mem_union, Finset.mem_biUnion] at hc
    rcases hc with hc | ⟨e, he, hc⟩
    · exact ⟨u, s, hs, hc, .refl⟩
    · obtain ⟨hmem, rfl⟩ := Finset.mem_filter.mp he
      obtain ⟨w, s', hw, hc', hreach⟩ := ih _ (mem_into.mpr ⟨e.1, hmem, rfl⟩) e.1 e.2 rfl c hc
      exact ⟨w, s', hw, hc', hreach.tail hmem⟩
  obtain ⟨s, hs⟩ := Option.ne_none_iff_exists'.mp hown
  rw [h.carries v s hs, Finset.mem_union, Finset.mem_biUnion] at hc
  rcases hc with hc | ⟨e, he, hc⟩
  · exact ⟨v, s, hs, hc, .refl⟩
  · obtain ⟨hmem, rfl⟩ := Finset.mem_filter.mp he
    obtain ⟨w, s', hw, hc', hreach⟩ := hsource _ (ho.gather_mem.mpr hmem) e.1 e.2 rfl c hc
    exact ⟨w, s', hw, hc', hreach.tail hmem⟩

section Shaped
variable (h : plan.Shaped) (ho : plan.Extends order) (hr : plan.Replays order)
include h ho hr

omit h in
/-- Before the first spread places hold what the gathers have brought. -/
theorem Replays.held : ∀ {l r}, order = l ++ r → NoSpread l → l.foldl apply plan.own = plan.after l := by
  intro l
  induction l using List.reverseRecOn with
  | nil => exact fun _ _ => (after_nil plan).symm
  | append_singleton l t ih =>
    intro r hsplit hno
    have hsplit' : order = l ++ t :: r := by simpa using hsplit
    have hno' : NoSpread l := fun a b hmem => hno a b (List.mem_append_left _ hmem)
    have hreads := hr l t r hsplit'
    rw [ih hsplit' hno'] at hreads
    rw [List.foldl_append, ih hsplit' hno', List.foldl_cons, List.foldl_nil]
    cases t with
    | gather u v =>
      obtain ⟨hsrc, prior, hdst, -⟩ := hreads
      exact after_gather hno' (ho.gather_mem.mp (by simp [hsplit'])) hsrc hdst
    | spread u v => exact absurd (by simp) (hno u v)

/-- **The first spread finds that everything has come together in the root.** -/
theorem Shaped.first_spread (hsplit : order = l ++ .spread u v :: r) (hno : NoSpread l) :
    plan.own plan.root ≠ none ∧ plan.carried plan.root = plan.whole ∧
      ∀ e ∈ plan.gathers, ReflTransGen (fun u v => (u, v) ∈ plan.gathers) e.2 plan.root := by
  have hmem : (u, v) ∈ plan.spreads := ho.spread_mem.mp (by simp [hsplit])
  obtain rfl : u = plan.root := by
    by_contra hu
    obtain ⟨w, hw⟩ := h.parent _ hmem hu
    exact hno w u (ho.before_spread_on hsplit hu hw)
  have hreads : l.foldl apply plan.own plan.root = some plan.whole := hr l _ r hsplit
  rw [hr.held ho hsplit hno] at hreads
  have hown : plan.own plan.root ≠ none := by
    intro hnone
    rw [after_noSpread hno, hnone] at hreads
    cases hreads
  have hwhole : plan.carried plan.root = plan.whole := by
    rw [h.toFormed.after_eq (fun w => hno w _) hown fun x hx => ho.before_spread hsplit hx] at hreads
    exact Option.some.inj hreads
  refine ⟨hown, hwhole, fun e he => ?_⟩
  obtain ⟨s, hs⟩ := Option.ne_none_iff_exists'.mp (h.owned e he).2
  obtain ⟨⟨c, hc⟩, hsub⟩ := h.part _ s hs
  obtain ⟨w, s', hw, hc', hreach⟩ := h.toFormed.carried_from ho hown (hwhole ▸ hsub hc)
  obtain rfl : w = e.2 := by
    by_contra hne
    exact Finset.disjoint_left.mp (h.separate _ _ s' s hw hs hne) hc' hc
  exact hreach

/-- Before a spread everything has come together in the root. -/
theorem Shaped.rooted (hne : plan.spreads.Nonempty) :
    plan.own plan.root ≠ none ∧ plan.carried plan.root = plan.whole ∧
      ∀ e ∈ plan.gathers, ReflTransGen (fun u v => (u, v) ∈ plan.gathers) e.2 plan.root := by
  obtain ⟨e, he⟩ := hne
  obtain ⟨l, a, b, r, hsplit, hno⟩ := exists_first_spread (ho.spread_mem.mpr he)
  exact h.first_spread ho hr hsplit hno

/-- A gather brings nothing that its target holds. -/
theorem Shaped.adds (hsplit : order = l ++ .gather u v :: r) :
    (∀ s, plan.own v = some s → Disjoint s (plan.carried u)) ∧
      ∀ x, .gather x v ∈ l → Disjoint (plan.carried x) (plan.carried u) := by
  have hno := ho.noSpread h.toSpreads (fun hne => (h.rooted ho hr hne).2.2) hsplit
  obtain ⟨-, prior, hdst, hdisjoint⟩ := hr l _ r hsplit
  rw [hr.held ho hsplit hno, after_noSpread hno] at hdst
  obtain ⟨s, hs, rfl⟩ := Option.map_eq_some_iff.mp hdst
  rw [Finset.disjoint_union_left, Finset.disjoint_biUnion_left] at hdisjoint
  refine ⟨fun s' hs' => ?_, fun x hx => ?_⟩
  · obtain rfl := Option.some.inj (hs.symm.trans hs')
    exact hdisjoint.1
  · have hgather : (x, v) ∈ plan.gathers := ho.gather_mem.mp (by simp [hsplit, hx])
    exact hdisjoint.2 (x, v) (Finset.mem_filter.mpr ⟨hgather, rfl, hx⟩)

/-- **A plan that is right in one order is sound**, so it is right in all. -/
theorem Shaped.sound : plan.Sound where
  toFormed := h.toFormed
  fresh e he s hs := by
    obtain ⟨l, r, hsplit⟩ := List.mem_iff_append.mp (ho.gather_mem.mpr he)
    exact (h.adds ho hr hsplit).1 s hs
  apart e he e' he' hdst hne := by
    obtain ⟨l, r, hsplit⟩ := List.mem_iff_append.mp (ho.gather_mem.mpr he')
    have hmem : .gather e.1 e.2 ∈ order := ho.gather_mem.mpr he
    rw [hsplit, List.mem_append, List.mem_cons] at hmem
    rcases hmem with hmem | heq | hmem
    · exact (h.adds ho hr hsplit).2 e.1 (hdst ▸ hmem)
    · obtain ⟨h1, h2⟩ := Transfer.gather.inj heq
      exact absurd (Prod.ext h1 h2) hne
    · obtain ⟨l', r', rfl⟩ := List.mem_iff_append.mp hmem
      have hsplit' : order = (l ++ .gather e'.1 e'.2 :: l') ++ .gather e.1 e.2 :: r' := by
        simp [hsplit]
      refine ((h.adds ho hr hsplit').2 e'.1 ?_).symm
      rw [hdst]
      simp
  rooted := h.rooted ho hr

end Shaped

/-- Where all places have the whole, no gather is right: it brings nothing new. -/
theorem Replays.no_gather (hr : plan.Replays order)
    (hown : ∀ v s, plan.own v = some s → s = plan.whole) (hne : plan.whole.Nonempty) (u v : α) :
    .gather u v ∉ order := by
  have hheld : ∀ l r, order = l ++ r → ∀ v s, l.foldl apply plan.own v = some s → s = plan.whole := by
    intro l
    induction l using List.reverseRecOn with
    | nil => exact fun _ _ => hown
    | append_singleton l t ih =>
      intro r hsplit
      have hsplit' : order = l ++ t :: r := by simpa using hsplit
      have hbefore := ih _ hsplit'
      have hreads := hr l t r hsplit'
      intro z s hz
      rw [List.foldl_append, List.foldl_cons, List.foldl_nil] at hz
      cases t with
      | gather x y =>
        obtain ⟨hsrc, prior, hdst, hdisjoint⟩ := hreads
        rw [hbefore _ _ hsrc, hbefore _ _ hdst, disjoint_self] at hdisjoint
        exact absurd hdisjoint hne.ne_empty
      | spread x y =>
        by_cases hzy : z = y
        · subst hzy
          rw [apply, Function.update_self] at hz
          exact hbefore _ _ hz
        · rw [apply, Function.update_of_ne hzy] at hz
          exact hbefore _ _ hz
  intro hmem
  obtain ⟨l, r, hsplit⟩ := List.mem_iff_append.mp hmem
  obtain ⟨hsrc, prior, hdst, hdisjoint⟩ := hr l _ r hsplit
  rw [hheld l _ hsplit _ _ hsrc, hheld l _ hsplit _ _ hdst, disjoint_self] at hdisjoint
  exact hne.ne_empty hdisjoint

/-! ## Trees are sound -/

/-- What a place has of its own is carried along. -/
theorem Formed.carried_to (h : plan.Formed) {w : α} {s : Finset γ} {c : γ}
    (hw : plan.own w = some s) (hc : c ∈ s)
    (hreach : ReflTransGen (fun u v => (u, v) ∈ plan.gathers) w v) : c ∈ plan.carried v := by
  induction hreach with
  | refl =>
    rw [h.carries w s hw]
    exact Finset.mem_union_left _ hc
  | @tail a b _ hab ih =>
    obtain ⟨s', hs'⟩ := Option.ne_none_iff_exists'.mp (h.owned _ hab).2
    rw [h.carries b s' hs']
    exact Finset.mem_union_right _
      (Finset.mem_biUnion.mpr ⟨(a, b), Finset.mem_filter.mpr ⟨hab, rfl⟩, ih⟩)

section Tree
variable (h : plan.Shaped) (ho : plan.Extends order)
  (hout : ∀ u v w, (u, v) ∈ plan.gathers → (u, w) ∈ plan.gathers → v = w)
include h ho hout

/-- **Gathers along a tree bring apart what was apart.** -/
theorem Shaped.apart_of_tree {u u' v : α} (hu : (u, v) ∈ plan.gathers) (hu' : (u', v) ∈ plan.gathers)
    (hne : u ≠ u') : Disjoint (plan.carried u) (plan.carried u') := by
  have hstuck : ∀ {a b}, (a, v) ∈ plan.gathers → (b, v) ∈ plan.gathers → a ≠ b →
      ¬ ReflTransGen (fun u v => (u, v) ∈ plan.gathers) a b := by
    intro a b ha hb hne hreach
    rcases hreach.cases_head with heq | ⟨x, hx, hrest⟩
    · exact hne heq
    · obtain rfl := hout a x v hx ha
      exact ho.acyclic _ (ho.gather_mem.mpr hb) b x rfl hrest
  rw [Finset.disjoint_left]
  intro c hc hc'
  obtain ⟨w, s, hw, hcs, hreach⟩ := h.toFormed.carried_from ho (h.owned _ hu).1 hc
  obtain ⟨w', s', hw', hcs', hreach'⟩ := h.toFormed.carried_from ho (h.owned _ hu').1 hc'
  obtain rfl : w = w' := by
    by_contra hww
    exact Finset.disjoint_left.mp (h.separate _ _ s s' hw hw' hww) hcs hcs'
  have hunique : Relator.RightUnique fun u v => (u, v) ∈ plan.gathers := fun a b c => hout a b c
  rcases ReflTransGen.total_of_right_unique hunique hreach hreach' with hleads | hleads
  · exact hstuck hu hu' hne hleads
  · exact hstuck hu' hu hne.symm hleads

/-- **A plan whose gathers are a tree into the root is sound.** -/
theorem Shaped.sound_of_tree
    (hreach : ∀ v, plan.own v ≠ none → ReflTransGen (fun u v => (u, v) ∈ plan.gathers) v plan.root)
    (hroot : plan.own plan.root ≠ none)
    (hwhole : ∀ c ∈ plan.whole, ∃ v s, plan.own v = some s ∧ c ∈ s) :
    plan.Sound ∧ plan.carried plan.root = plan.whole := by
  have hcarried : plan.carried plan.root = plan.whole := by
    ext c
    constructor
    · intro hc
      obtain ⟨w, s, hw, hcs, -⟩ := h.toFormed.carried_from ho hroot hc
      exact (h.part w s hw).2 hcs
    · intro hc
      obtain ⟨v, s, hv, hcs⟩ := hwhole c hc
      exact h.toFormed.carried_to hv hcs (hreach v (by simp [hv]))
  refine ⟨{ h.toFormed with fresh := ?_, apart := ?_, rooted := ?_ }, hcarried⟩
  · intro e he s hs
    rw [Finset.disjoint_left]
    intro c hc hc'
    obtain ⟨w, s', hw, hcs, hback⟩ := h.toFormed.carried_from ho (h.owned e he).1 hc'
    obtain rfl : w = e.2 := by
      by_contra hne
      exact Finset.disjoint_left.mp (h.separate _ _ s' s hw hs hne) hcs hc
    exact ho.acyclic _ (ho.gather_mem.mpr he) e.1 e.2 rfl hback
  · intro e he e' he' hdst hne
    have he'' : (e'.1, e.2) ∈ plan.gathers := by
      rw [hdst]
      exact he'
    exact h.apart_of_tree ho hout he he'' fun hsrc => hne (Prod.ext hsrc hdst)
  · exact fun _ => ⟨hroot, hcarried, fun e he => hreach _ (h.owned e he).2⟩

end Tree

end Plan

end VeriCCL.Gathering
