import VeriCCL.BuildStorage
import VeriCCL.ConflictOrder
import VeriCCL.ReplayMemory
import Mathlib.Data.String.Basic

/-! # Hazards in the storage of a plan

Instructions read and write the regions of their states, byte by byte.  A plan is race free if
any two instructions that conflict are ordered by what they wait for, so that every order of the
instructions that respects the waits finds the states that it names and leaves the same memory.

`StorageLaid` is what a plan that was built promises about its regions.  `Handed` says that one
instruction takes over the storage of another: it comes after the other and after all who read
what the other made.  Where this holds of the waits, the plan is race free
(`raceFree_of_handed`). -/
namespace VeriCCL

/-! ## Regions -/

section Regions
variable {inputs : ResolvedInput} {a b : Address}

/-- The kind of a buffer. -/
def kindOfBuffer (bufferId : String) : StorageKind :=
  if bufferId = "scratch" then .scratch
  else if bufferId = "input" then .input
  else if bufferId = "output" then .output
  else .data

/-- A region is one slice of its buffer. -/
theorem canonicalRegion_slice (inputs : ResolvedInput) (a : Address) : ∃ bufferId offset,
    canonicalRegion inputs a = sliceRegion inputs a.rank bufferId offset (kindOfBuffer bufferId) := by
  unfold canonicalRegion
  split
  · exact ⟨"scratch", a.offset, rfl⟩
  · exact ⟨"input", a.offset, rfl⟩
  · exact ⟨"output", a.offset, rfl⟩
  · exact ⟨"inplace", inplaceBase inputs a + a.offset, rfl⟩

theorem canonicalRegion_size (inputs : ResolvedInput) (a : Address) :
    (canonicalRegion inputs a).size = inputs.sliceSizeBytes := by
  obtain ⟨bufferId, offset, h⟩ := canonicalRegion_slice inputs a
  rw [h]
  rfl

/-- **Regions are slices**: two that overlap are the same. -/
theorem canonicalRegion_eq_of_overlaps
    (h : (canonicalRegion inputs a).overlaps (canonicalRegion inputs b)) :
    canonicalRegion inputs a = canonicalRegion inputs b := by
  obtain ⟨bufferId, m, ha⟩ := canonicalRegion_slice inputs a
  obtain ⟨bufferId', n, hb⟩ := canonicalRegion_slice inputs b
  rw [ha, hb] at h ⊢
  obtain ⟨⟨hrank, hbuffer⟩, hlt⟩ := h
  simp only [sliceRegion] at hrank hbuffer hlt
  have hpos := inputs.slice_pos
  have hle : m ≤ n := by
    by_contra hnm
    have := Nat.mul_le_mul_right inputs.sliceSizeBytes (Nat.succ_le_of_lt (not_le.mp hnm))
    rw [Nat.succ_mul] at this
    omega
  have hge : n ≤ m := by
    by_contra hmn
    have := Nat.mul_le_mul_right inputs.sliceSizeBytes (Nat.succ_le_of_lt (not_le.mp hmn))
    rw [Nat.succ_mul] at this
    omega
  rw [hrank, hbuffer, le_antisymm hle hge]

theorem canonicalRegion_rank (inputs : ResolvedInput) (a : Address) :
    (canonicalRegion inputs a).rank = a.rank := by
  obtain ⟨bufferId, offset, h⟩ := canonicalRegion_slice inputs a
  rw [h]
  rfl

/-- Scratch storage is not shared with other buffers. -/
theorem canonicalRegion_scratch {rank index : ℕ}
    (h : canonicalRegion inputs ⟨rank, .s, index⟩ = canonicalRegion inputs a) : a = ⟨rank, .s, index⟩ := by
  obtain ⟨rank', buffer, offset⟩ := a
  have hrank := congrArg BufferRegion.rank h
  have hbuffer := congrArg BufferRegion.bufferId h
  have hoffset := congrArg BufferRegion.offset h
  rw [canonicalRegion_rank, canonicalRegion_rank] at hrank
  cases buffer <;> cases hin : inputs.collective.inplace <;>
    simp only [canonicalRegion, hin, sliceRegion] at hbuffer hoffset <;> try simp at hbuffer
  all_goals
    obtain rfl := Nat.eq_of_mul_eq_mul_right inputs.slice_pos hoffset
    exact congrArg (fun rank => (⟨rank, .s, index⟩ : Address)) hrank.symm

/-- Different slices of one buffer are different regions. -/
theorem canonicalRegion_inj (hbuffer : a.buffer = b.buffer)
    (h : canonicalRegion inputs a = canonicalRegion inputs b) : a = b := by
  obtain ⟨rank, buffer, offset⟩ := a
  obtain ⟨rank', buffer', offset'⟩ := b
  obtain rfl : buffer = buffer' := hbuffer
  have hrank := congrArg BufferRegion.rank h
  rw [canonicalRegion_rank, canonicalRegion_rank] at hrank
  obtain rfl : rank = rank' := hrank
  have hoffset := congrArg BufferRegion.offset h
  suffices hslices : offset = offset' by rw [hslices]
  cases buffer <;> cases hin : inputs.collective.inplace <;>
    simp only [canonicalRegion, hin, sliceRegion] at hoffset <;>
    have hslice := Nat.eq_of_mul_eq_mul_right inputs.slice_pos hoffset
  case o.true | i.true => exact Nat.add_left_cancel hslice
  all_goals exact hslice

/-- An output shares its storage with an input only where the collective is in place. -/
theorem inplace_of_canonicalRegion {rank index rank' index' : ℕ}
    (h : canonicalRegion inputs ⟨rank, .o, index⟩ = canonicalRegion inputs ⟨rank', .i, index'⟩) :
    inputs.collective.inplace = true := by
  have hbuffer := congrArg BufferRegion.bufferId h
  cases hin : inputs.collective.inplace with
  | true => rfl
  | false => simp [canonicalRegion, hin, sliceRegion] at hbuffer

end Regions

/-! ## Instructions on memory -/

/-- Where a state is stored. -/
def StoragePlan.region (plan : StoragePlan) (inputs : ResolvedInput) (state : String) :
    Option BufferRegion :=
  (plan.addresses.get? state).map (canonicalRegion inputs)

/-- An instruction waits for another. -/
def WaitsAmong (instructions : List Instruction) (p x : String) : Prop :=
  ∃ op ∈ instructions, op.operationId = x ∧ p ∈ op.dependencies

/-- An instruction of a plan waits for another. -/
def StoragePlan.Waits (plan : StoragePlan) (p x : String) : Prop := WaitsAmong plan.instructions p x

section Memory
variable (plan : StoragePlan) (inputs : ResolvedInput) {V : Type}

/-- The bytes from which byte `l` of an instruction's output is made. -/
def StoragePlan.madeFrom (op : Instruction) (l : Byte) : List Byte :=
  op.inputs.filterMap fun key => (plan.region inputs op.output).bind fun target =>
    (plan.region inputs key).map fun region => inputByte target region l

/-- The instructions of a plan on memory: a byte is made from the bytes at its place in what the
instruction reads. -/
def StoragePlan.memory (make : Instruction → List V → V) : Trace.Operations Instruction Byte V where
  reads op l := ∃ key ∈ op.inputs, ∃ region ∈ plan.region inputs key, region.covers l
  writes op l := ∃ region ∈ plan.region inputs op.output, region.covers l
  uses op l k := k ∈ plan.madeFrom inputs op l
  value op m l := make op ((plan.madeFrom inputs op l).map m)
  value_congr := by
    intro op l m m' h
    rw [List.map_congr_left h]

/-- Memory that holds the names of states: an instruction writes the name of its output. -/
def StoragePlan.naming : Trace.Operations Instruction Byte (Option String) :=
  plan.memory inputs fun op _ => some op.output

/-- The names of the states that are there at the start. -/
def StoragePlan.initialNames (l : Byte) : Option String :=
  plan.initialIds.find? fun key => decide (∃ region ∈ plan.region inputs key,
    region.rank = l.1 ∧ region.bufferId = l.2.1 ∧ region.offset ≤ l.2.2 ∧ l.2.2 < region.offset + region.size)

/-- An order of the instructions that respects what they wait for. -/
def StoragePlan.Linearization (order : List Instruction) : Prop :=
  LinearOrderOf (·.operationId) (·.dependencies) plan.instructions order

/-- **The plan is race free.** -/
structure RaceFree : Prop where
  /-- The instructions of the plan are themselves in such an order. -/
  linear : plan.Linearization plan.instructions
  /-- An instruction that writes a region is ordered with all who touch the region. -/
  ordered : ∀ a ∈ plan.instructions, ∀ b ∈ plan.instructions, a ≠ b →
    ∀ target, plan.region inputs a.output = some target → ∀ key ∈ b.output :: b.inputs,
      ∀ touched, plan.region inputs key = some touched → target.overlaps touched →
        Relation.TransGen plan.Waits a.operationId b.operationId ∨
          Relation.TransGen plan.Waits b.operationId a.operationId
  /-- In every order an instruction finds the states that it names. -/
  named : ∀ order, plan.Linearization order → ∀ done op rest, order = done ++ op :: rest →
    ∀ key ∈ op.inputs, ∃ region, plan.region inputs key = some region ∧ ∀ l, region.covers l →
      (plan.naming inputs).sequence (plan.initialNames inputs) done l = some key
  /-- All orders leave the same memory, whatever the instructions compute. -/
  same : ∀ (V : Type) (make : Instruction → List V → V) (m : Byte → V) (order order' : List Instruction),
    plan.Linearization order → plan.Linearization order' →
      (plan.memory inputs make).sequence m order = (plan.memory inputs make).sequence m order'

end Memory

theorem BufferRegion.covers_iff {region : BufferRegion} {l : Byte} : region.covers l ↔
    region.rank = l.1 ∧ region.bufferId = l.2.1 ∧ region.offset ≤ l.2.2 ∧
      l.2.2 < region.offset + region.size := by
  constructor
  · rintro ⟨k, hk, rfl⟩
    exact ⟨rfl, rfl, Nat.le_add_right _ _, Nat.add_lt_add_left hk _⟩
  · obtain ⟨rank, bufferId, offset⟩ := l
    rintro ⟨rfl, rfl, hle, hlt⟩
    dsimp only at hle hlt
    refine ⟨offset - region.offset, by omega, ?_⟩
    simp only [BufferRegion.byte, Prod.mk.injEq, true_and]
    omega

/-- A region has bytes. -/
theorem BufferRegion.covers_first (region : BufferRegion) : region.covers (region.byte 0) :=
  ⟨0, region.size_pos, rfl⟩

/-! ## Linear orders -/

section Linear
variable {plan : StoragePlan} {order l r : List Instruction} {op : Instruction} {p : String}

/-- What an instruction waits for, directly or not, comes before it. -/
theorem StoragePlan.Linearization.before (h : plan.Linearization order)
    (hids : (plan.instructions.map (·.operationId)).Nodup) (hsplit : order = l ++ op :: r)
    (hp : Relation.TransGen plan.Waits p op.operationId) : p ∈ l.map (·.operationId) := by
  generalize hx : op.operationId = x at hp
  have hdirect : ∀ {l r : List Instruction} {op : Instruction} {p : String}, order = l ++ op :: r →
      plan.Waits p op.operationId → p ∈ l.map (·.operationId) := by
    rintro l r op p hsplit ⟨other, hother, hid, hp⟩
    have hmem : op ∈ plan.instructions := h.1.mem_iff.mp (by simp [hsplit])
    obtain rfl : other = op := List.inj_on_of_nodup_map hids hother hmem hid
    exact h.2 l other r hsplit p hp
  induction hp generalizing l op r with
  | single hwaits => exact hdirect hsplit (hx ▸ hwaits)
  | tail _ hwaits ih =>
    obtain ⟨y, hy, hid⟩ := List.mem_map.mp (hdirect hsplit (hx ▸ hwaits))
    obtain ⟨l₁, l₂, rfl⟩ := List.append_of_mem hy
    have hin := ih (show order = l₁ ++ y :: (l₂ ++ op :: r) by simp [hsplit]) hid
    rw [List.map_append]
    exact List.mem_append_left _ hin

/-- Of two instructions that are ordered, the order shows which waits for which. -/
theorem StoragePlan.Linearization.earlier {a b : Instruction} (h : plan.Linearization order)
    (hids : (plan.instructions.map (·.operationId)).Nodup) (ha : a ∈ plan.instructions)
    (hb : b ∈ plan.instructions) (hab : Relation.TransGen plan.Waits a.operationId b.operationId) :
    Trace.Earlier order a b := by
  obtain ⟨l, r, hsplit⟩ := List.append_of_mem (h.1.mem_iff.mpr hb)
  obtain ⟨y, hy, hid⟩ := List.mem_map.mp (h.before hids hsplit hab)
  have hmem : y ∈ plan.instructions := h.1.mem_iff.mp (by simp [hsplit, hy])
  obtain rfl := List.inj_on_of_nodup_map hids hmem ha hid
  exact ⟨l, r, hsplit, hy⟩

/-- Of two different instructions, only one is earlier. -/
theorem not_earlier_both {ι : Type} {order : List ι} {i j : ι} (hnodup : order.Nodup)
    (hij : Trace.Earlier order i j) (hji : Trace.Earlier order j i) : False := by
  classical
  have hlt : ∀ {a b : ι}, Trace.Earlier order a b → order.idxOf a < order.idxOf b := by
    rintro a b ⟨x, y, rfl, ha⟩
    have hb : b ∉ x := fun hmem => (List.nodup_append.mp hnodup).2.2 b hmem b List.mem_cons_self rfl
    rw [List.idxOf_append_of_mem ha, List.idxOf_append_of_notMem hb, List.idxOf_cons_self]
    exact List.idxOf_lt_length_of_mem ha
  exact lt_asymm (hlt hij) (hlt hji)

end Linear

/-! ## What a built plan promises -/

/-- An instruction takes over the storage of another: it comes after the other, and after all
others that read what the other made. -/
def StoragePlan.Handed (plan : StoragePlan) (before : String → String → Prop) (a b : Instruction) : Prop :=
  before a.operationId b.operationId ∧
    ∀ reader ∈ plan.instructions, a.output ∈ reader.inputs → reader = b ∨ before reader.operationId b.operationId

/-- The first is listed before the second. -/
def StoragePlan.Listed (plan : StoragePlan) (p x : String) : Prop :=
  ∃ a b, a.operationId = p ∧ b.operationId = x ∧ Trace.Earlier plan.instructions a b

/-- **What a built plan promises about its storage.** -/
structure StorageLaid (inputs : ResolvedInput) (plan : StoragePlan) : Prop where
  distinct : (plan.instructions.map (·.operationId)).Nodup
  linear : plan.Linearization plan.instructions
  output : ∀ op ∈ plan.instructions, op.output = "state-" ++ op.operationId
  reads : ∀ op ∈ plan.instructions, ∀ key ∈ op.inputs, key ∈ plan.initialIds ∨
    ∃ p ∈ op.dependencies, key = "state-" ++ p
  placed : ∀ op ∈ plan.instructions, ∃ region, plan.region inputs op.output = some region
  initial : ∀ key ∈ plan.initialIds, ∃ region, plan.region inputs key = some region
  apart : ∀ key ∈ plan.initialIds, ∀ key' ∈ plan.initialIds,
    plan.region inputs key = plan.region inputs key' → key = key'
  /-- Who overwrites an input waits for all others that read it. -/
  guarded : ∀ op ∈ plan.instructions, ∀ key ∈ plan.initialIds,
    plan.region inputs op.output = plan.region inputs key → ∀ reader ∈ plan.instructions,
      key ∈ reader.inputs → reader = op ∨ reader.operationId ∈ op.dependencies
  /-- Of two instructions with one output region, the later takes over the storage. -/
  handed : ∀ a ∈ plan.instructions, ∀ b ∈ plan.instructions, a ≠ b →
    plan.region inputs a.output = plan.region inputs b.output →
      plan.Handed plan.Listed a b ∨ plan.Handed plan.Listed b a

section Laid
variable {inputs : ResolvedInput} {plan : StoragePlan} {a b op : Instruction} {key : String}

theorem StorageLaid.nodup (h : StorageLaid inputs plan) : plan.instructions.Nodup :=
  List.Nodup.of_map _ h.distinct

theorem region_eq_of_overlaps {key key' : String} {target touched : BufferRegion}
    (htarget : plan.region inputs key = some target) (htouched : plan.region inputs key' = some touched)
    (h : target.overlaps touched) : plan.region inputs key = plan.region inputs key' := by
  obtain ⟨address, -, rfl⟩ := Option.map_eq_some_iff.mp htarget
  obtain ⟨address', -, rfl⟩ := Option.map_eq_some_iff.mp htouched
  rw [htarget, htouched, canonicalRegion_eq_of_overlaps h]

/-- What is listed is listed once. -/
theorem StorageLaid.earlier_of_listed (h : StorageLaid inputs plan) (ha : a ∈ plan.instructions)
    (hb : b ∈ plan.instructions) (hab : plan.Listed a.operationId b.operationId) :
    Trace.Earlier plan.instructions a b := by
  obtain ⟨a', b', hida, hidb, x, y, hsplit, hmem⟩ := hab
  obtain rfl : a' = a := List.inj_on_of_nodup_map h.distinct (by simp [hsplit, hmem]) ha hida
  obtain rfl : b' = b := List.inj_on_of_nodup_map h.distinct (by simp [hsplit]) hb hidb
  exact ⟨x, y, hsplit, hmem⟩

/-- What waits is listed later. -/
theorem StorageLaid.listed (h : StorageLaid inputs plan) {p x : String}
    (hp : Relation.TransGen plan.Waits p x) : plan.Listed p x := by
  have hx : ∃ b ∈ plan.instructions, b.operationId = x := by
    obtain ⟨_, -, op, hop, hid, -⟩ := Relation.TransGen.tail'_iff.mp hp
    exact ⟨op, hop, hid⟩
  obtain ⟨b, hb, rfl⟩ := hx
  obtain ⟨l, r, hsplit⟩ := List.append_of_mem hb
  obtain ⟨a, ha, rfl⟩ := List.mem_map.mp (h.linear.before h.distinct hsplit hp)
  exact ⟨a, b, rfl, rfl, l, r, hsplit, ha⟩

/-- The state that an instruction reads is there at the start, or made by an instruction that it
waits for. -/
theorem StorageLaid.maker (h : StorageLaid inputs plan) (hop : op ∈ plan.instructions)
    (hkey : key ∈ op.inputs) : key ∈ plan.initialIds ∨ ∃ w ∈ plan.instructions, w.output = key ∧
      plan.Waits w.operationId op.operationId := by
  obtain hinitial | ⟨p, hp, rfl⟩ := h.reads op hop key hkey
  · exact .inl hinitial
  · obtain ⟨l, r, hsplit⟩ := List.append_of_mem hop
    obtain ⟨w, hw, rfl⟩ := List.mem_map.mp (h.linear.2 l op r hsplit p hp)
    have hmem : w ∈ plan.instructions := by simp [hsplit, hw]
    exact .inr ⟨w, hmem, h.output w hmem, op, hop, rfl, hp⟩

theorem StorageLaid.output_inj (h : StorageLaid inputs plan) (ha : a ∈ plan.instructions)
    (hb : b ∈ plan.instructions) (heq : a.output = b.output) : a = b := by
  rw [h.output a ha, h.output b hb] at heq
  exact List.inj_on_of_nodup_map h.distinct ha hb (String.append_right_inj _ |>.mp heq)

/-- **An instruction that writes a region is ordered with all who touch it**, where storage is
handed on in the order of the waits. -/
theorem StorageLaid.ordered (h : StorageLaid inputs plan)
    (hhanded : ∀ a ∈ plan.instructions, ∀ b ∈ plan.instructions, a ≠ b →
      plan.region inputs a.output = plan.region inputs b.output →
        plan.Handed (Relation.TransGen plan.Waits) a b ∨ plan.Handed (Relation.TransGen plan.Waits) b a)
    (ha : a ∈ plan.instructions) (hb : b ∈ plan.instructions) (hne : a ≠ b)
    (hkey : key ∈ b.output :: b.inputs) (hregion : plan.region inputs a.output = plan.region inputs key) :
    Relation.TransGen plan.Waits a.operationId b.operationId ∨
      Relation.TransGen plan.Waits b.operationId a.operationId := by
  obtain rfl | hkey := List.mem_cons.mp hkey
  · exact (hhanded a ha b hb hne hregion).imp (·.1) (·.1)
  obtain hinitial | ⟨w, hw, rfl, hwaits⟩ := h.maker hb hkey
  · obtain rfl | hdep := h.guarded a ha key hinitial hregion b hb hkey
    · exact absurd rfl hne
    · exact .inr (.single ⟨a, ha, rfl, hdep⟩)
  · by_cases hwa : w = a
    · subst hwa
      exact .inl (.single hwaits)
    · obtain ⟨-, hreaders⟩ | ⟨hbefore, -⟩ := hhanded w hw a ha hwa hregion.symm
      · exact .inr ((hreaders b hb hkey).resolve_left (Ne.symm hne))
      · exact .inl (hbefore.tail hwaits)

/-! ## The states that are found -/

/-- Where a state is stored that an instruction names. -/
theorem StorageLaid.region_of_input (h : StorageLaid inputs plan) (hop : op ∈ plan.instructions)
    (hkey : key ∈ op.inputs) : ∃ region, plan.region inputs key = some region := by
  obtain hinitial | ⟨w, hw, rfl, -⟩ := h.maker hop hkey
  · exact h.initial key hinitial
  · exact h.placed w hw

/-- The input that is at a byte. -/
theorem StorageLaid.initialNames_eq (h : StorageLaid inputs plan) (hkey : key ∈ plan.initialIds)
    {region : BufferRegion} (hregion : plan.region inputs key = some region) {l : Byte}
    (hl : region.covers l) : plan.initialNames inputs l = some key := by
  have hfound : ∃ found, plan.initialNames inputs l = some found := by
    rw [← Option.isSome_iff_exists, StoragePlan.initialNames, List.find?_isSome]
    exact ⟨key, hkey, decide_eq_true ⟨region, hregion, BufferRegion.covers_iff.mp hl⟩⟩
  obtain ⟨found, hfound⟩ := hfound
  have hmem := List.mem_of_find?_eq_some hfound
  have hcovered := List.find?_some (show List.find? _ _ = some found from hfound)
  obtain ⟨other, hother, hcovers⟩ := of_decide_eq_true hcovered
  have hsame := region_eq_of_overlaps hother hregion
    (BufferRegion.overlaps_of_covers (BufferRegion.covers_iff.mpr hcovers) hl)
  rw [hfound, h.apart found hmem key hkey hsame]

/-- In the order of the plan, the input is still there. -/
theorem StorageLaid.found_initial (h : StorageLaid inputs plan) {done rest : List Instruction}
    (hsplit : plan.instructions = done ++ op :: rest) (hkey : key ∈ op.inputs)
    (hinitial : key ∈ plan.initialIds) {region : BufferRegion}
    (hregion : plan.region inputs key = some region) {l : Byte} (hl : region.covers l) :
    (plan.naming inputs).sequence (plan.initialNames inputs) done l = some key := by
  rw [Trace.sequence_of_not_writes done, h.initialNames_eq hinitial hregion hl]
  rintro a ha ⟨target, htarget, hcovers⟩
  have hmem : a ∈ plan.instructions := by simp [hsplit, ha]
  have hsame := region_eq_of_overlaps htarget hregion (BufferRegion.overlaps_of_covers hcovers hl)
  have hearlier : Trace.Earlier plan.instructions a op := ⟨done, rest, hsplit, ha⟩
  obtain rfl | hdep := h.guarded a hmem key hinitial hsame op (by simp [hsplit]) hkey
  · exact not_earlier_both h.nodup hearlier hearlier
  · exact not_earlier_both h.nodup hearlier
      (h.linear.earlier h.distinct (by simp [hsplit]) hmem (.single ⟨a, hmem, rfl, hdep⟩))

/-- In the order of the plan, what was made is not overwritten before it is read. -/
theorem StorageLaid.found_made (h : StorageLaid inputs plan) {done rest : List Instruction}
    (hsplit : plan.instructions = done ++ op :: rest) {w : Instruction} (hw : w ∈ plan.instructions)
    (hkey : w.output ∈ op.inputs) (hwaits : plan.Waits w.operationId op.operationId)
    {region : BufferRegion} (hregion : plan.region inputs w.output = some region) {l : Byte}
    (hl : region.covers l) :
    (plan.naming inputs).sequence (plan.initialNames inputs) done l = some w.output := by
  have hop : op ∈ plan.instructions := by simp [hsplit]
  have hwdone : w ∈ done := by
    obtain ⟨y, hy, hid⟩ := List.mem_map.mp (h.linear.before h.distinct hsplit (.single hwaits))
    exact List.inj_on_of_nodup_map h.distinct (by simp [hsplit, hy]) hw hid ▸ hy
  obtain ⟨d, e, rfl⟩ := List.append_of_mem hwdone
  have hwrites : (plan.naming inputs).writes w l := ⟨region, hregion, hl⟩
  have hlate : ∀ a ∈ e, ¬ (plan.naming inputs).writes a l := by
    rintro a ha ⟨target, htarget, hcovers⟩
    have hmem : a ∈ plan.instructions := by simp [hsplit, ha]
    have hsame := region_eq_of_overlaps htarget hregion (BufferRegion.overlaps_of_covers hcovers hl)
    have hafter : Trace.Earlier plan.instructions w a := by
      obtain ⟨u, v, rfl⟩ := List.append_of_mem ha
      exact ⟨d ++ w :: u, v ++ op :: rest, by simp [hsplit], by simp⟩
    have hbefore : Trace.Earlier plan.instructions a op := ⟨_, rest, hsplit, by simp [ha]⟩
    have hne : a ≠ w := by
      rintro rfl
      exact not_earlier_both h.nodup hafter hafter
    obtain ⟨hlisted, -⟩ | ⟨-, hreaders⟩ := h.handed a hmem w hw hne hsame
    · exact not_earlier_both h.nodup hafter (h.earlier_of_listed hmem hw hlisted)
    · obtain rfl | hlisted := hreaders op hop hkey
      · exact not_earlier_both h.nodup hbefore hbefore
      · exact not_earlier_both h.nodup hbefore (h.earlier_of_listed hop hmem hlisted)
  rw [Trace.sequence_append]
  show (plan.naming inputs).sequence ((plan.naming inputs).apply _ w) e l = _
  rw [Trace.sequence_of_not_writes e hlate, Trace.apply_of_writes hwrites]
  rfl

/-- **In the order of the plan, an instruction finds the states that it names.** -/
theorem StorageLaid.found (h : StorageLaid inputs plan) {done rest : List Instruction}
    (hsplit : plan.instructions = done ++ op :: rest) (hkey : key ∈ op.inputs) {region : BufferRegion}
    (hregion : plan.region inputs key = some region) {l : Byte} (hl : region.covers l) :
    (plan.naming inputs).sequence (plan.initialNames inputs) done l = some key := by
  obtain hinitial | ⟨w, hw, rfl, hwaits⟩ := h.maker (by simp [hsplit]) hkey
  · exact h.found_initial hsplit hkey hinitial hregion hl
  · exact h.found_made hsplit hw hkey hwaits hregion hl

/-! ## All orders -/

/-- What an instruction makes is made of what it reads. -/
theorem StoragePlan.memory_closed {V : Type} (plan : StoragePlan) (inputs : ResolvedInput)
    (make : Instruction → List V → V) : (plan.memory inputs make).Closed := by
  rintro op l k ⟨target, htarget, hl⟩ hk
  obtain ⟨key, hkey, hbyte⟩ := List.mem_filterMap.mp hk
  rw [Option.mem_def.mp htarget, Option.bind_some, Option.map_eq_some_iff] at hbyte
  obtain ⟨region, hregion, rfl⟩ := hbyte
  refine ⟨key, hkey, region, hregion, l.2.2 - target.offset, ?_, rfl⟩
  obtain ⟨-, -, hle, hlt⟩ := BufferRegion.covers_iff.mp hl
  obtain ⟨address, -, rfl⟩ := Option.map_eq_some_iff.mp htarget
  obtain ⟨address', -, rfl⟩ := Option.map_eq_some_iff.mp hregion
  rw [canonicalRegion_size] at hlt ⊢
  omega

/-- Instructions that conflict touch one region, and one of them writes it. -/
theorem conflict_regions {V : Type} {make : Instruction → List V → V}
    (h : (plan.memory inputs make).Conflict a b) :
    (∃ key ∈ b.output :: b.inputs, plan.region inputs a.output = plan.region inputs key) ∨
      ∃ key ∈ a.output :: a.inputs, plan.region inputs b.output = plan.region inputs key := by
  obtain ⟨l, ⟨⟨target, htarget, hl⟩, ⟨key, hkey, region, hregion, hl'⟩ | ⟨region, hregion, hl'⟩⟩ |
    ⟨⟨key, hkey, region, hregion, hl⟩, target, htarget, hl'⟩⟩ := h
  · exact .inl ⟨key, List.mem_cons_of_mem _ hkey,
      region_eq_of_overlaps htarget hregion (BufferRegion.overlaps_of_covers hl hl')⟩
  · exact .inl ⟨b.output, List.mem_cons_self,
      region_eq_of_overlaps htarget hregion (BufferRegion.overlaps_of_covers hl hl')⟩
  · exact .inr ⟨key, List.mem_cons_of_mem _ hkey,
      region_eq_of_overlaps htarget hregion (BufferRegion.overlaps_of_covers hl' hl)⟩

/-- Orders that respect the waits keep the conflicts in the order of the plan. -/
theorem StorageLaid.keeps (h : StorageLaid inputs plan)
    (hordered : ∀ a ∈ plan.instructions, ∀ b ∈ plan.instructions, a ≠ b → ∀ key ∈ b.output :: b.inputs,
      plan.region inputs a.output = plan.region inputs key →
        Relation.TransGen plan.Waits a.operationId b.operationId ∨
          Relation.TransGen plan.Waits b.operationId a.operationId)
    {V : Type} {make : Instruction → List V → V} {order : List Instruction}
    (horder : plan.Linearization order) : (plan.memory inputs make).Keeps plan.instructions order := by
  intro a b hconflict hearlier
  obtain ⟨x, y, hsplit, hmem⟩ := hearlier
  have ha : a ∈ plan.instructions := by simp [hsplit, hmem]
  have hb : b ∈ plan.instructions := by simp [hsplit]
  have hearlier : Trace.Earlier plan.instructions a b := ⟨x, y, hsplit, hmem⟩
  have hne : a ≠ b := by
    rintro rfl
    exact not_earlier_both h.nodup hearlier hearlier
  have hwaits : Relation.TransGen plan.Waits a.operationId b.operationId ∨
      Relation.TransGen plan.Waits b.operationId a.operationId := by
    obtain ⟨key, hkey, hregion⟩ | ⟨key, hkey, hregion⟩ := conflict_regions hconflict
    · exact hordered a ha b hb hne key hkey hregion
    · exact (hordered b hb a ha (Ne.symm hne) key hkey hregion).symm
  obtain hab | hba := hwaits
  · exact horder.earlier h.distinct ha hb hab
  · exact absurd (h.linear.earlier h.distinct hb ha hba) (not_earlier_both h.nodup hearlier)

/-- **A plan that hands its storage on in the order of the waits is race free.** -/
theorem raceFree_of_handed (h : StorageLaid inputs plan)
    (hhanded : ∀ a ∈ plan.instructions, ∀ b ∈ plan.instructions, a ≠ b →
      plan.region inputs a.output = plan.region inputs b.output →
        plan.Handed (Relation.TransGen plan.Waits) a b ∨ plan.Handed (Relation.TransGen plan.Waits) b a) :
    RaceFree plan inputs := by
  have hordered : ∀ a ∈ plan.instructions, ∀ b ∈ plan.instructions, a ≠ b → ∀ key ∈ b.output :: b.inputs,
      plan.region inputs a.output = plan.region inputs key →
        Relation.TransGen plan.Waits a.operationId b.operationId ∨
          Relation.TransGen plan.Waits b.operationId a.operationId :=
    fun a ha b hb hne key hkey => h.ordered hhanded ha hb hne hkey
  have hsame : ∀ (V : Type) (make : Instruction → List V → V) (m : Byte → V) (order : List Instruction),
      plan.Linearization order → (plan.memory inputs make).sequence m order =
        (plan.memory inputs make).sequence m plan.instructions := fun V make m order horder =>
    Trace.sequence_eq_of_keeps (plan.memory_closed inputs make) h.nodup horder.1 (h.keeps hordered horder)
  refine ⟨h.linear, ?_, ?_, ?_⟩
  · intro a ha b hb hne target htarget key hkey touched htouched hoverlaps
    exact hordered a ha b hb hne key hkey (region_eq_of_overlaps htarget htouched hoverlaps)
  · rintro order horder done op rest rfl key hkey
    have hop : op ∈ plan.instructions := horder.1.mem_iff.mp (by simp)
    obtain ⟨region, hregion⟩ := h.region_of_input hop hkey
    refine ⟨region, hregion, fun l hl => ?_⟩
    obtain ⟨x, y, hsplit⟩ := List.append_of_mem hop
    have hkeeps : (plan.naming inputs).Keeps plan.instructions (done ++ op :: rest) := h.keeps hordered horder
    rw [hsplit] at hkeeps
    have hfound := Trace.found_eq_of_keeps (m := plan.initialNames inputs) (plan.memory_closed inputs _)
      (hsplit ▸ h.nodup) (hsplit ▸ horder.1) hkeeps ⟨key, hkey, region, hregion, hl⟩
    exact hfound.trans (h.found hsplit hkey hregion hl)
  · intro V make m order order' horder horder'
    rw [hsame V make m order horder, hsame V make m order' horder']

end Laid

end VeriCCL
