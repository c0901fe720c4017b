import VeriCCL.BatchCuts

/-! # Every packer that is accepted finishes

The invariant of the packer (`BatchPacker.Packed`) has the cut condition of the active
batches, and one step lemma says that every extension keeps it.  An extension that is
refused stays refused while its batch grows (`Blocked`), and a batch all of whose extensions
are refused spans; so one visit of every reached vertex is enough. -/
namespace VeriCCL

open Branching (inflow missing Rooted)
open Relation (ReflTransGen)

variable {α β : Type} [LinearOrder α]

/-! ## Arborescences -/

/-- The edges are a tree over `V` out of `root`: every other vertex is the head of one edge,
and is reached. -/
structure Arborescence (V : Finset α) (root : α) (edges : List (α × α)) : Prop where
  root_mem : root ∈ V
  tails : ∀ edge ∈ edges, edge.1 ∈ V
  heads : ∀ v, v ∈ edges.map (·.2) ↔ v ∈ V ∧ v ≠ root
  once : (edges.map (·.2)).Nodup
  reach : ∀ v ∈ V, ReflTransGen (fun u v => (u, v) ∈ edges) root v

namespace Arborescence

variable {V : Finset α} {root src dst : α} {edges : List (α × α)}

omit [LinearOrder α] in
theorem single (root : α) : Arborescence {root} root [] where
  root_mem := Finset.mem_singleton_self root
  tails := by simp
  heads := by simp
  once := List.nodup_nil
  reach v hv := by
    rw [Finset.mem_singleton.mp hv]

/-- **A tree grows by an edge** out of it. -/
theorem extend (h : Arborescence V root edges) (hsrc : src ∈ V) (hdst : dst ∉ V) :
    Arborescence (insert dst V) root (edges ++ [(src, dst)]) := by
  have hroot : dst ≠ root := fun he => hdst (he ▸ h.root_mem)
  have hmono : ∀ v, ReflTransGen (fun u v => (u, v) ∈ edges) root v →
      ReflTransGen (fun u v => (u, v) ∈ edges ++ [(src, dst)]) root v := fun v hv =>
    Relation.ReflTransGen.mono (fun _ _ hm => List.mem_append_left _ hm) _ _ hv
  refine ⟨Finset.mem_insert_of_mem h.root_mem, fun edge he => ?_, fun v => ?_, ?_, fun v hv => ?_⟩
  · rcases List.mem_append.mp he with he | he
    · exact Finset.mem_insert_of_mem (h.tails edge he)
    · rw [List.mem_singleton.mp he]
      exact Finset.mem_insert_of_mem hsrc
  · rw [List.map_append, List.mem_append, h.heads v, Finset.mem_insert]
    simp only [List.map_cons, List.map_nil, List.mem_singleton]
    constructor
    · rintro (⟨hv, hne⟩ | rfl)
      · exact ⟨Or.inr hv, hne⟩
      · exact ⟨Or.inl rfl, hroot⟩
    · rintro ⟨rfl | hv, hne⟩
      · exact Or.inr rfl
      · exact Or.inl ⟨hv, hne⟩
  · rw [List.map_append, List.nodup_append]
    refine ⟨h.once, by simp, fun a ha b hb => ?_⟩
    obtain rfl : b = dst := by simpa using hb
    rintro rfl
    exact hdst ((h.heads a).mp ha).1
  · rcases Finset.mem_insert.mp hv with rfl | hv
    · exact (hmono src (h.reach src hsrc)).tail (by simp)
    · exact hmono v (h.reach v hv)

/-- A tree has one edge less than vertices. -/
theorem length_edges (h : Arborescence V root edges) : edges.length + 1 = V.card := by
  have hheads : (edges.map (·.2)).toFinset = V.erase root := by
    ext v
    rw [List.mem_toFinset, h.heads v, Finset.mem_erase, and_comm]
  have hcard := List.toFinset_card_of_nodup h.once
  rw [hheads, Finset.card_erase_of_mem h.root_mem, List.length_map] at hcard
  have hpos : 0 < V.card := Finset.card_pos.mpr ⟨root, h.root_mem⟩
  omega

end Arborescence

namespace BatchPacker

variable {packer : BatchPacker α β}

/-! ## The invariant -/

/-- The items that travel along a link. -/
def load (packer : BatchPacker α β) (u v : α) : ℕ :=
  (packer.batches.map fun batch => if (u, v) ∈ batch.edges then batch.multiplicity else 0).sum

/-- What holds of a packer of these items and capacities. -/
structure Packed (nodes : List α) (original : Capacities α) (rootItems : Dict α (List β))
    (packer : BatchPacker α β) : Prop where
  same : packer.nodes = nodes
  listed : ∀ item, item ∈ packer.originalItems ↔ item ∈ rootItems.flatMap (·.2)
  linked : packer.Linked
  known : ∀ i ∈ packer.active, i < packer.batches.length
  tree : ∀ batch ∈ packer.batches, Arborescence batch.vertices batch.root batch.edges
  inside : ∀ batch ∈ packer.batches, batch.vertices ⊆ packer.vertices
  nonempty : ∀ batch ∈ packer.batches, batch.items ≠ []
  done : ∀ i, i ∉ packer.active → ∀ batch, packer.batches[i]? = some batch →
    batch.vertices = packer.vertices
  rooted : Rooted packer.vertices packer.capacities.room packer.active packer.reached
    packer.multiplicity
  kept : ∀ p : α → Bool, ((packer.batches.filter (p ·.root)).flatMap (·.items)).Perm
    ((rootItems.filter (p ·.1)).flatMap (·.2))
  used : ∀ u v, (packer.load u v : ℤ) + packer.capacities.at u v = original.at u v

/-- What an extension needs. -/
structure Extends (packer : BatchPacker α β) (b : ℕ) (batch : TreeBatch α β) (src dst : α)
    (amount : ℕ) : Prop where
  found : packer.batches[b]? = some batch
  active : b ∈ packer.active
  from_tree : src ∈ batch.vertices
  out_of_tree : dst ∉ batch.vertices
  node : dst ∈ packer.vertices
  differ : src ≠ dst
  positive : 0 < amount
  items : amount ≤ batch.multiplicity
  capacity : (amount : ℤ) ≤ packer.capacities.at src dst
  served : ∀ X, packer.Enters src dst X →
    missing (packer.active.erase b) packer.reached packer.multiplicity X + amount ≤
      inflow packer.vertices packer.capacities.room X

/-- **An extension that is refused**: the vertex has been reached, the link is full, or the
link enters a set that is just served. -/
def Blocked (packer : BatchPacker α β) (b : ℕ) (src dst : α) : Prop :=
  dst ∈ packer.reached b ∨ packer.capacities.room src dst = 0 ∨
    ∃ X, packer.Enters src dst X ∧ inflow packer.vertices packer.capacities.room X ≤
      missing (packer.active.erase b) packer.reached packer.multiplicity X

omit [LinearOrder α] in
theorem reached_of_found {b : ℕ} {batch : TreeBatch α β} (h : packer.batches[b]? = some batch) :
    packer.reached b = batch.vertices := by
  unfold reached
  rw [h]
  rfl

omit [LinearOrder α] in
theorem multiplicity_of_found {b : ℕ} {batch : TreeBatch α β}
    (h : packer.batches[b]? = some batch) : packer.multiplicity b = batch.multiplicity := by
  unfold multiplicity
  rw [h]
  rfl

section Amount

variable {nodes : List α} {original : Capacities α} {rootItems : Dict α (List β)} {b : ℕ}
  {batch : TreeBatch α β} {src dst : α}

/-- An active batch has items. -/
theorem Packed.multiplicity_pos (hp : packer.Packed nodes original rootItems)
    (hb : packer.batches[b]? = some batch) : 0 < packer.multiplicity b := by
  rw [multiplicity_of_found hb]
  exact List.length_pos_of_ne_nil (hp.nonempty batch (List.mem_of_getElem? hb))

/-- A link with capacity joins nodes. -/
theorem Linked.joins (h : packer.Linked) {u v : α} (hne : packer.capacities.at u v ≠ 0) :
    u ∈ packer.vertices ∧ v ∈ packer.vertices ∧ u ≠ v ∧ 0 < packer.capacities.at u v := by
  unfold Capacities.at at *
  cases hget : packer.capacities.get? (u, v) with
  | none => simp [hget] at hne
  | some capacity =>
    rw [hget, Option.getD_some] at hne
    obtain ⟨⟨hu, hv, huv⟩, hpos⟩ := h _ (Dict.mem_of_get? hget)
    refine ⟨List.mem_toFinset.mpr hu, List.mem_toFinset.mpr hv, huv, ?_⟩
    rw [Option.getD_some]
    omega

/-- **What `extension_amount` returns** for a batch that exists: it never raises; an amount
that is not zero can be used; when it is zero for a reached `src`, the extension is
refused. -/
theorem Packed.extensionAmount_spec (hp : packer.Packed nodes original rootItems)
    {maximumFlowValue : MaximumFlowValue α} (hflow : maximumFlowValue.Exact)
    (hb : packer.batches[b]? = some batch) (src dst : α) :
    ∃ amount, packer.extensionAmount maximumFlowValue b src dst = .ok amount ∧
      (amount ≠ 0 → packer.Extends b batch src dst amount) ∧
      (amount = 0 → b ∈ packer.active → src ∈ batch.vertices → packer.Blocked b src dst) := by
  unfold extensionAmount
  rw [hb]
  by_cases hskip : b ∉ packer.active ∨ src ∉ batch.vertices ∨ dst ∈ batch.vertices ∨
      packer.capacities.at src dst = 0
  · refine ⟨0, ?_, fun h => absurd rfl h, fun _ hactive hsrc => ?_⟩
    · simp only [Checked.required, Checked.bind_ok]
      exact ⟨batch, rfl, by rw [if_pos hskip]; rfl⟩
    · rcases hskip with h | h | h | h
      · exact absurd hactive h
      · exact absurd hsrc h
      · exact Or.inl (reached_of_found hb ▸ h)
      · refine Or.inr (Or.inl ?_)
        unfold Capacities.room
        rw [h]
        rfl
  · have hcase := hskip
    push Not at hcase
    obtain ⟨hactive, hsrc, hdst, hcapacity⟩ := hcase
    obtain ⟨hsrcV, hdstV, hne, hpos⟩ := hp.linked.joins hcapacity
    set others := ∑ i ∈ packer.active.erase b, packer.multiplicity i with hothers
    set flow := maximumFlowValue (packer.network b src) (.inl src) (.inl dst) with hflowdef
    have hle : ∀ X, packer.Enters src dst X →
        flow + missing (packer.active.erase b) packer.reached packer.multiplicity X ≤
          inflow packer.vertices packer.capacities.room X + others :=
      fun X hX => flow_le hflow hsrcV hdstV hne hX
    obtain ⟨Y, hY, heq⟩ := exists_flow_eq (b := b) hflow hp.linked hsrcV hdstV hne
    -- The cut condition of the batches makes the flow large enough for the others.
    have hcut := hp.rooted Y hY.1 ⟨dst, hY.2.1⟩
    rw [Branching.missing_erase hactive] at hcut
    have hfeasible : 0 ≤ flow - others := by omega
    have hmultiplicity := hp.multiplicity_pos hb
    rw [multiplicity_of_found hb] at hmultiplicity
    refine ⟨(min (batch.multiplicity : ℤ) (min (packer.capacities.at src dst) (flow - others))).toNat,
      ?_, fun hamount => ?_, fun hamount _ _ => ?_⟩
    · simp only [Checked.required, Checked.bind_ok]
      refine ⟨batch, rfl, ?_⟩
      rw [if_neg hskip]
      simp only [Checked.bind_ok, Checked.ensure_ok, Checked.pure_ok]
      exact ⟨(), checkGraph_ok.mpr hp.linked, (), hfeasible, trivial⟩
    · refine ⟨hb, hactive, hsrc, hdst, hdstV, hne, by omega, by omega, by omega, fun X hX => ?_⟩
      have := hle X hX
      omega
    · refine Or.inr (Or.inr ⟨Y, hY, ?_⟩)
      omega

end Amount

/-! ## One extension -/

section Step

variable {nodes : List α} {original : Capacities α} {rootItems : Dict α (List β)} {b : ℕ}
  {batch : TreeBatch α β} {src dst : α} {amount : ℕ}

/-- The batch that goes on. -/
def ahead (batch : TreeBatch α β) (src dst : α) (amount : ℕ) : TreeBatch α β :=
  { batch with
    items := batch.items.take amount
    edges := batch.edges ++ [(src, dst)]
    vertices := insert dst batch.vertices }

/-- The batch that stays behind, if there is one. -/
def behind (packer : BatchPacker α β) (batch : TreeBatch α β) (amount : ℕ) :
    List (TreeBatch α β) :=
  if amount < batch.multiplicity then
    [{ batch with batchId := packer.batches.length, items := batch.items.drop amount }]
  else []

/-- The batches after an extension. -/
theorem Extends.set (h : packer.Extends b batch src dst amount) :
    (packer.extended b batch src dst amount).batches =
      packer.batches.set b (ahead batch src dst amount) ++ behind packer batch amount := by
  obtain ⟨hlt, -⟩ := List.getElem?_eq_some_iff.mp h.found
  show (if amount < batch.multiplicity then packer.batches ++ _ else packer.batches).set b _ = _
  unfold behind
  by_cases hsplit : amount < batch.multiplicity
  · rw [if_pos hsplit, if_pos hsplit, List.set_append_left _ _ hlt]
    rfl
  · rw [if_neg hsplit, if_neg hsplit, List.append_nil]
    rfl

/-- The batches around the one that is extended. -/
theorem Extends.batches (h : packer.Extends b batch src dst amount) :
    ∃ before later, packer.batches = before ++ batch :: later ∧
      (packer.extended b batch src dst amount).batches =
        before ++ ahead batch src dst amount :: later ++ behind packer batch amount := by
  obtain ⟨hlt, hget⟩ := List.getElem?_eq_some_iff.mp h.found
  refine ⟨packer.batches.take b, packer.batches.drop (b + 1), ?_, ?_⟩
  · rw [← hget, List.cons_getElem_drop_succ, List.take_append_drop]
  · rw [h.set, List.set_eq_take_append_cons_drop, if_pos hlt]

/-- A batch after an extension. -/
theorem Extends.getElem? (h : packer.Extends b batch src dst amount) (i : ℕ) :
    (packer.extended b batch src dst amount).batches[i]? =
      if i = b then some (ahead batch src dst amount)
      else if i < packer.batches.length then packer.batches[i]?
      else (behind packer batch amount)[i - packer.batches.length]? := by
  obtain ⟨hlt, -⟩ := List.getElem?_eq_some_iff.mp h.found
  rw [h.set]
  by_cases hi : i = b
  · rw [if_pos hi, hi, List.getElem?_append_left (by simpa using hlt), List.getElem?_set_self hlt]
  · rw [if_neg hi]
    by_cases hold : i < packer.batches.length
    · rw [if_pos hold, List.getElem?_append_left (by simpa using hold),
        List.getElem?_set_ne (Ne.symm hi)]
    · rw [if_neg hold, List.getElem?_append_right (by simpa using hold), List.length_set]

/-- The room that an extension leaves. -/
theorem Extends.room (h : packer.Extends b batch src dst amount) (u v : α) :
    (packer.extended b batch src dst amount).capacities.room u v =
      if u = src ∧ v = dst then packer.capacities.room src dst - amount
      else packer.capacities.room u v := by
  have hcapacity := h.capacity
  show (((packer.capacities.set (src, dst) _).get? (u, v)).getD 0).toNat = _
  rw [Dict.get?_set]
  by_cases hlink : u = src ∧ v = dst
  · obtain ⟨rfl, rfl⟩ := hlink
    rw [if_pos rfl, if_pos ⟨rfl, rfl⟩, Option.getD_some]
    unfold Capacities.room
    omega
  · rw [if_neg hlink, if_neg fun he => hlink ⟨(congrArg Prod.fst he).symm, (congrArg Prod.snd he).symm⟩]
    rfl

/-- **The capacity that an extension takes** from the sets it enters. -/
theorem Extends.inflow (h : packer.Extends b batch src dst amount)
    (hsrc : src ∈ packer.vertices) (X : Finset α) :
    inflow packer.vertices (packer.extended b batch src dst amount).capacities.room X +
      (if src ∉ X ∧ dst ∈ X then amount else 0) =
      inflow packer.vertices packer.capacities.room X := by
  have hroom : (packer.extended b batch src dst amount).capacities.room =
      fun u v => if u = src ∧ v = dst then packer.capacities.room src dst - amount
        else packer.capacities.room u v := by
    funext u v
    exact h.room u v
  have hle : amount ≤ packer.capacities.room src dst := by
    have := h.capacity
    unfold Capacities.room
    omega
  rw [hroom]
  exact Branching.inflow_lower hsrc hle

/-- **What a set lacks after an extension**: the others, the batch and the items left
behind. -/
theorem Extends.missing (h : packer.Extends b batch src dst amount)
    (hp : packer.Packed nodes original rootItems) (X : Finset α) :
    let after := packer.extended b batch src dst amount
    missing (after.active.erase b) after.reached after.multiplicity X =
        missing (packer.active.erase b) packer.reached packer.multiplicity X +
          (if Disjoint batch.vertices X then batch.multiplicity - amount else 0) ∧
      b ∈ after.active ∧ after.reached b = insert dst batch.vertices ∧
      after.multiplicity b = amount := by
  intro after
  have hlt := hp.known b h.active
  have hfound : after.batches[b]? = some (ahead batch src dst amount) := by
    rw [h.getElem? b, if_pos rfl]
  have hothers : Branching.missing (packer.active.erase b) after.reached after.multiplicity X =
      Branching.missing (packer.active.erase b) packer.reached packer.multiplicity X := by
    refine Branching.missing_congr fun i hi => ?_
    obtain ⟨hne, hi⟩ := Finset.mem_erase.mp hi
    have hget : after.batches[i]? = packer.batches[i]? := by
      rw [h.getElem? i, if_neg hne, if_pos (hp.known i hi)]
    unfold BatchPacker.reached BatchPacker.multiplicity
    rw [hget]
    exact ⟨rfl, rfl⟩
  have hmultiplicity : (ahead batch src dst amount).multiplicity = amount := by
    have := h.items
    show (batch.items.take amount).length = amount
    rw [List.length_take]
    exact min_eq_left this
  refine ⟨?_, ?_, reached_of_found hfound, (multiplicity_of_found hfound).trans hmultiplicity⟩
  · by_cases hsplit : amount < batch.multiplicity
    · have hnew : packer.batches.length ∉ packer.active := fun hm => (hp.known _ hm).false
      have hactive : after.active = insert packer.batches.length packer.active := by
        show (if amount < batch.multiplicity then _ else _) = _
        rw [if_pos hsplit]
      have hrest : after.batches[packer.batches.length]? = some { batch with
          batchId := packer.batches.length, items := batch.items.drop amount } := by
        rw [h.getElem?, if_neg (by omega), if_neg (by omega), Nat.sub_self]
        unfold behind
        rw [if_pos hsplit]
        rfl
      rw [hactive, Finset.erase_insert_of_ne (by omega)]
      unfold Branching.missing at *
      rw [Finset.sum_insert fun hm => hnew (Finset.mem_of_mem_erase hm), hothers,
        reached_of_found hrest, multiplicity_of_found hrest, add_comm]
      congr 1
      refine if_congr Iff.rfl ?_ rfl
      exact List.length_drop
    · have hactive : after.active = packer.active := by
        show (if amount < batch.multiplicity then _ else _) = _
        rw [if_neg hsplit]
      have hzero : batch.multiplicity - amount = 0 := by omega
      rw [hactive, hothers, hzero, ite_self, add_zero]
  · show b ∈ if amount < batch.multiplicity then _ else _
    split
    · exact Finset.mem_insert_of_mem h.active
    · exact h.active

/-- A set that an extension enters gives up what is served there, any other keeps it. -/
theorem Extends.rooted (h : packer.Extends b batch src dst amount)
    (hp : packer.Packed nodes original rootItems) (hsrc : src ∈ packer.vertices) :
    Rooted packer.vertices (packer.extended b batch src dst amount).capacities.room
      (packer.extended b batch src dst amount).active (packer.extended b batch src dst amount).reached
      (packer.extended b batch src dst amount).multiplicity := by
  intro X hX hne
  obtain ⟨hothers, hmem, hreached, hmultiplicity⟩ := h.missing hp X
  have hroom := h.inflow hsrc X
  have hcut := hp.rooted X hX hne
  have hitems := h.items
  rw [Branching.missing_erase h.active, reached_of_found h.found,
    multiplicity_of_found h.found] at hcut
  rw [Branching.missing_erase hmem, hothers, hreached, hmultiplicity]
  by_cases henter : src ∉ X ∧ dst ∈ X
  · have hmeets : ¬ Disjoint (insert dst batch.vertices) X :=
      Finset.not_disjoint_iff.mpr ⟨dst, Finset.mem_insert_self _ _, henter.2⟩
    have hserved := h.served X ⟨hX, henter.2, henter.1⟩
    rw [if_pos henter] at hroom
    rw [if_neg hmeets]
    by_cases hdisjoint : Disjoint batch.vertices X
    · rw [if_pos hdisjoint] at hcut ⊢
      omega
    · rw [if_neg hdisjoint]
      omega
  · rw [if_neg henter] at hroom
    by_cases hdisjoint : Disjoint batch.vertices X
    · rw [if_pos hdisjoint] at hcut ⊢
      split <;> omega
    · have hmeets : ¬ Disjoint (insert dst batch.vertices) X := fun hd =>
        hdisjoint (Finset.disjoint_of_subset_left (Finset.subset_insert _ _) hd)
      rw [if_neg hdisjoint] at hcut ⊢
      rw [if_neg hmeets]
      omega

/-- Every batch after an extension is the one that goes on, the one left behind, or an
older one. -/
theorem Extends.mem_batches (h : packer.Extends b batch src dst amount) {x : TreeBatch α β}
    (hx : x ∈ (packer.extended b batch src dst amount).batches) :
    x ∈ packer.batches ∨ x = ahead batch src dst amount ∨
      amount < batch.multiplicity ∧
        x = { batch with batchId := packer.batches.length, items := batch.items.drop amount } := by
  obtain ⟨before, later, hold, hnew⟩ := h.batches
  have hmem : ∀ y ∈ before ++ batch :: later, y ∈ packer.batches := fun y hy => by
    rw [hold]
    exact hy
  rw [hnew] at hx
  rcases List.mem_append.mp hx with hx | hx
  · rcases List.mem_append.mp hx with hx | hx
    · exact Or.inl (hmem x (List.mem_append_left _ hx))
    · rcases List.mem_cons.mp hx with hx | hx
      · exact Or.inr (Or.inl hx)
      · exact Or.inl (hmem x (List.mem_append_right _ (List.mem_cons_of_mem _ hx)))
  · unfold behind at hx
    split at hx
    · exact Or.inr (Or.inr ⟨‹_›, List.mem_singleton.mp hx⟩)
    · cases hx

/-- The items of a batch are divided. -/
theorem Extends.kept (h : packer.Extends b batch src dst amount) (p : α → Bool) :
    (((packer.extended b batch src dst amount).batches.filter (p ·.root)).flatMap (·.items)).Perm
      ((packer.batches.filter (p ·.root)).flatMap (·.items)) := by
  obtain ⟨before, later, hold, hnew⟩ := h.batches
  rw [hnew, hold]
  simp only [List.filter_append, List.filter_cons, List.flatMap_append]
  have hsame : (ahead batch src dst amount).root = batch.root := rfl
  rw [hsame]
  by_cases hroot : p batch.root = true
  · have hbehind : ((behind packer batch amount).filter (p ·.root)).flatMap (·.items) =
        batch.items.drop amount := by
      unfold behind
      by_cases hsplit : amount < batch.multiplicity
      · rw [if_pos hsplit, List.filter_singleton, hroot, cond_true, List.flatMap_singleton]
      · rw [if_neg hsplit, List.drop_eq_nil_of_le (Nat.le_of_not_lt hsplit)]
        rfl
    rw [if_pos hroot, if_pos hroot, hbehind, List.flatMap_cons, List.flatMap_cons, List.append_assoc,
      List.append_assoc]
    refine List.Perm.append_left _ ?_
    show (batch.items.take amount ++ _).Perm _
    refine (List.Perm.append_left _ List.perm_append_comm).trans ?_
    rw [← List.append_assoc, List.take_append_drop]
  · have hbehind : (behind packer batch amount).filter (p ·.root) = [] := by
      unfold behind
      split
      · rw [List.filter_singleton, Bool.eq_false_iff.mpr hroot, cond_false]
      · rfl
    rw [if_neg hroot, if_neg hroot, hbehind, List.flatMap_nil, List.append_nil]

/-- **What an extension adds to a link it takes from the room of the link.** -/
theorem Extends.load (h : packer.Extends b batch src dst amount)
    (hedges : (src, dst) ∉ batch.edges) (u v : α) :
    (packer.extended b batch src dst amount).load u v =
      packer.load u v + if u = src ∧ v = dst then amount else 0 := by
  obtain ⟨before, later, hold, hnew⟩ := h.batches
  have hitems := h.items
  unfold BatchPacker.load
  rw [hnew]
  conv_rhs => rw [hold]
  simp only [List.map_append, List.map_cons, List.sum_append, List.sum_cons]
  have hahead : (if (u, v) ∈ (ahead batch src dst amount).edges then
      (ahead batch src dst amount).multiplicity else 0) =
      if (u, v) ∈ batch.edges ∨ u = src ∧ v = dst then amount else 0 := by
    have hmultiplicity : (ahead batch src dst amount).multiplicity = amount := by
      show (batch.items.take amount).length = amount
      rw [List.length_take]
      exact min_eq_left hitems
    rw [hmultiplicity]
    refine if_congr ?_ rfl rfl
    show (u, v) ∈ batch.edges ++ [(src, dst)] ↔ _
    rw [List.mem_append, List.mem_singleton, Prod.mk.injEq]
  have hbehind : ((behind packer batch amount).map fun x : TreeBatch α β =>
      if (u, v) ∈ x.edges then x.multiplicity else 0).sum =
      if (u, v) ∈ batch.edges then batch.multiplicity - amount else 0 := by
    unfold behind
    by_cases hsplit : amount < batch.multiplicity
    · rw [if_pos hsplit, List.map_singleton, List.sum_singleton]
      refine if_congr Iff.rfl ?_ rfl
      exact List.length_drop
    · have hzero : batch.multiplicity - amount = 0 := by omega
      rw [if_neg hsplit, hzero, ite_self]
      rfl
  rw [hahead, hbehind]
  by_cases hlink : u = src ∧ v = dst
  · obtain ⟨rfl, rfl⟩ := hlink
    simp only [hedges, false_or, and_self, if_true, if_false]
    omega
  · simp only [hlink, or_false, if_false, add_zero]
    split <;> omega

/-- **An extension keeps the invariant.** -/
theorem Extends.packed (h : packer.Extends b batch src dst amount)
    (hp : packer.Packed nodes original rootItems) :
    (packer.extended b batch src dst amount).Packed nodes original rootItems := by
  have hmem : batch ∈ packer.batches := List.mem_of_getElem? h.found
  have hsrc : src ∈ packer.vertices := hp.inside batch hmem h.from_tree
  have hnew : (src, dst) ∉ batch.edges := fun he =>
    h.out_of_tree (((hp.tree batch hmem).heads dst).mp (List.mem_map.mpr ⟨_, he, rfl⟩)).1
  refine
    { same := hp.same
      listed := hp.listed
      linked := fun entry he => ?_
      known := fun i hi => ?_
      tree := fun x hx => ?_
      inside := fun x hx => ?_
      nonempty := fun x hx => ?_
      done := fun i hi x hx => ?_
      rooted := h.rooted hp hsrc
      kept := fun p => (h.kept p).trans (hp.kept p)
      used := fun u v => ?_ }
  · rcases Dict.mem_set he with he | rfl
    · exact hp.linked entry he
    · have := h.capacity
      refine ⟨⟨List.mem_toFinset.mp hsrc, List.mem_toFinset.mp h.node, h.differ⟩, ?_⟩
      show 0 ≤ packer.capacities.at src dst - (amount : ℤ)
      omega
  · rw [h.set, List.length_append, List.length_set]
    have hactive : i ∈ (if amount < batch.multiplicity then
        insert packer.batches.length packer.active else packer.active) := hi
    unfold behind
    split at hactive
    · rw [if_pos ‹_›]
      rcases Finset.mem_insert.mp hactive with rfl | hi
      · simp only [List.length_singleton]
        omega
      · have := hp.known i hi
        omega
    · have := hp.known i hactive
      omega
  · rcases h.mem_batches hx with hx | rfl | ⟨-, rfl⟩
    · exact hp.tree x hx
    · exact (hp.tree batch hmem).extend h.from_tree h.out_of_tree
    · exact hp.tree batch hmem
  · rcases h.mem_batches hx with hx | rfl | ⟨-, rfl⟩
    · exact hp.inside x hx
    · exact Finset.insert_subset h.node (hp.inside batch hmem)
    · exact hp.inside batch hmem
  · rcases h.mem_batches hx with hx | rfl | ⟨hsplit, rfl⟩
    · exact hp.nonempty x hx
    · have hpos := h.positive
      have hitems := h.items
      show batch.items.take amount ≠ []
      rw [← List.length_pos_iff_ne_nil, List.length_take]
      exact lt_min hpos (lt_of_lt_of_le hpos hitems)
    · show batch.items.drop amount ≠ []
      rw [← List.length_pos_iff_ne_nil, List.length_drop]
      exact Nat.sub_pos_of_lt hsplit
  · have hactive : i ∉ (if amount < batch.multiplicity then
        insert packer.batches.length packer.active else packer.active) := hi
    have hold : i ∉ packer.active := by
      split at hactive
      · exact fun hm => hactive (Finset.mem_insert_of_mem hm)
      · exact hactive
    have hne : i ≠ b := fun he => hold (by rw [he]; exact h.active)
    rw [h.getElem? i, if_neg hne] at hx
    by_cases hlt : i < packer.batches.length
    · rw [if_pos hlt] at hx
      exact hp.done i hold x hx
    · rw [if_neg hlt] at hx
      unfold behind at hx
      split at hx
      · rename_i hsplit
        obtain ⟨hi0, -⟩ := List.getElem?_eq_some_iff.mp hx
        rw [if_pos hsplit] at hactive
        have hne : i ≠ packer.batches.length := fun he => hactive (by rw [he]; exact Finset.mem_insert_self _ _)
        rw [List.length_singleton] at hi0
        omega
      · simp at hx
  · have hused := hp.used u v
    have hcapacity : (packer.extended b batch src dst amount).capacities.at u v =
        packer.capacities.at u v - if u = src ∧ v = dst then (amount : ℤ) else 0 := by
      show ((packer.capacities.set (src, dst) _).get? (u, v)).getD 0 = _
      rw [Dict.get?_set]
      by_cases hlink : u = src ∧ v = dst
      · obtain ⟨rfl, rfl⟩ := hlink
        rw [if_pos rfl, if_pos ⟨rfl, rfl⟩]
        rfl
      · rw [if_neg hlink, sub_zero, if_neg fun he =>
          hlink ⟨(congrArg Prod.fst he).symm, (congrArg Prod.snd he).symm⟩]
        rfl
    rw [h.load hnew, hcapacity]
    split <;> omega

/-- **A refused extension stays refused** while its batch grows. -/
theorem Extends.blocked (h : packer.Extends b batch src dst amount)
    (hp : packer.Packed nodes original rootItems) {u v : α} (hblocked : packer.Blocked b u v) :
    (packer.extended b batch src dst amount).Blocked b u v := by
  have hsrc : src ∈ packer.vertices := hp.inside batch (List.mem_of_getElem? h.found) h.from_tree
  rcases hblocked with hreached | hroom | ⟨X, hX, hserved⟩
  · left
    rw [(h.missing hp ∅).2.2.1]
    rw [reached_of_found h.found] at hreached
    exact Finset.mem_insert_of_mem hreached
  · right; left
    rw [h.room u v]
    split
    · rename_i hlink
      rw [hlink.1, hlink.2] at hroom
      rw [hroom]
      exact Nat.zero_sub _
    · exact hroom
  · right; right
    refine ⟨X, hX, ?_⟩
    have hinflow := h.inflow hsrc X
    have hmissing := (h.missing hp X).1
    have hless : Branching.inflow packer.vertices (packer.extended b batch src dst amount).capacities.room X ≤
        Branching.inflow packer.vertices packer.capacities.room X := by omega
    rw [hmissing]
    calc _ ≤ Branching.inflow packer.vertices packer.capacities.room X := hless
      _ ≤ _ := hserved
      _ ≤ _ := Nat.le_add_right _ _

end Step

/-- **A batch all of whose extensions are refused spans.** -/
theorem Packed.spanning {nodes : List α} {original : Capacities α} {rootItems : Dict α (List β)}
    (hp : packer.Packed nodes original rootItems) {b : ℕ} {batch : TreeBatch α β}
    (hb : packer.batches[b]? = some batch) (hactive : b ∈ packer.active)
    (hblocked : ∀ u ∈ batch.vertices, ∀ v ∈ packer.vertices, packer.Blocked b u v) :
    batch.vertices = packer.vertices := by
  refine Finset.Subset.antisymm (hp.inside batch (List.mem_of_getElem? hb)) ?_
  by_contra hopen
  have hpos := hp.multiplicity_pos hb
  obtain ⟨u, hu, v, hv, hout, hroom, hfree⟩ := Branching.exists_extension packer.capacities.room
    (packer.active.erase b) packer.reached packer.multiplicity hopen fun X hX hne => by
      have hcut := hp.rooted X hX hne
      rw [Branching.missing_erase hactive, reached_of_found hb] at hcut
      by_cases hd : Disjoint batch.vertices X
      · rw [if_pos hd] at hcut ⊢
        omega
      · rw [if_neg hd] at hcut ⊢
        exact hcut
  rcases hblocked u hu v hv with hreached | hfull | ⟨X, hX, hserved⟩
  · exact hout (reached_of_found hb ▸ hreached)
  · omega
  · have := hfree X hX.1 hX.2.1 hX.2.2
    omega

end BatchPacker

end VeriCCL
