import VeriCCL.BuildStorage
import VeriCCL.OutsideInvariants

/-! # When the outside check is exact

Within one layout the peers and the channel of a block determine its identity
(`Lowering.Keyed.code_inj`), so the comparison of the queues misses no change of order.  It sees
one that is not there when a block of both directions starts or stops using one of its
directions: the same operations then stand under another key.  So a repair is accepted exactly
when it leaves the outside untouched and the blocks steady. -/
namespace VeriCCL

namespace Lowering

/-! ## Blocks and their identities -/

/-- What the steps of a block say about its identity. -/
structure Keyed (layout : Layout) (instructions : List Instruction) (key : BlockKey)
    (steps : List RawStep) : Prop where
  copy : key.side = .copy → key.peer = -1 ∧ key.channel = -1
  peer : key.side ≠ .copy → 0 ≤ key.peer
  fused : key.side ≠ .copy → (key.side = .fused ↔ layout = .fused)
  used : key.side ≠ .copy → ∃ op ∈ instructions, op.kind ≠ .copy ∧ op.channel = key.channel ∧
    ∃ step ∈ steps, step.operationId = op.operationId ∧
      ((key.side ≠ .recv ∧ step.kind = .s) ∨ (key.side ≠ .send ∧ step.kind.receives = true))

variable {layout : Layout} {instructions : List Instruction} {op : Instruction}
  {storage : StoragePlan} {s s' : Lowering}

/-- The endpoints of an instruction: one copy, or a send and a receive. -/
theorem endpointSpecs_cases {specs : List EndpointSpec} (h : endpointSpecs op storage = .ok specs)
    {spec : EndpointSpec} (hspec : spec ∈ specs) :
    (spec.side = .copy ∧ spec.peer = -1 ∧ spec.channel = -1) ∨
      (op.kind ≠ .copy ∧ 0 ≤ spec.peer ∧ spec.channel = op.channel ∧
        ((spec.side = .send ∧ spec.kind = .s) ∨
          (spec.side = .recv ∧ spec.kind.receives = true))) := by
  unfold endpointSpecs at h
  simp only [Checked.bind_ok] at h
  obtain ⟨-, -, source, -, destination, -, h⟩ := h
  split at h
  · rw [Checked.pure_ok] at h
    subst h
    rw [List.mem_singleton.mp hspec]
    exact Or.inl ⟨rfl, rfl, rfl⟩
  · rename_i hcopy
    simp only [Checked.bind_ok, Checked.pure_ok] at h
    obtain ⟨receiver, -, rfl⟩ := h
    simp only [List.mem_cons, List.not_mem_nil, or_false] at hspec
    rcases hspec with rfl | rfl
    · exact Or.inr ⟨hcopy, Int.natCast_nonneg _, rfl, Or.inl ⟨rfl, rfl⟩⟩
    · refine Or.inr ⟨hcopy, Int.natCast_nonneg _, rfl, Or.inr ⟨rfl, ?_⟩⟩
      show (if op.kind = .rrc then StepKind.rrc else .r).receives = true
      split <;> rfl

/-- The identity of a block fits the endpoint that was put on it last. -/
theorem keyed_endpoint {specs : List EndpointSpec} (h : endpointSpecs op storage = .ok specs)
    {spec : EndpointSpec} (hspec : spec ∈ specs) (hop : op ∈ instructions) (old : List RawStep)
    (waits : List StepId) :
    Keyed layout instructions (blockKey layout spec) (old ++ endpointSteps op spec waits) := by
  have hstep : endpointStep op spec ∈ old ++ endpointSteps op spec waits := by
    simp [endpointSteps]
  rcases endpointSpecs_cases h hspec with ⟨hside, hpeer, hchannel⟩ | ⟨hcopy, hpeer, hchannel, hside⟩
  · have hkey : (blockKey layout spec).side = .copy := by simp [blockKey, hside]
    exact ⟨fun _ => ⟨hpeer, hchannel⟩, fun hne => absurd hkey hne, fun hne => absurd hkey hne,
      fun hne => absurd hkey hne⟩
  · have hne : spec.side ≠ .copy := by rcases hside with ⟨hs, -⟩ | ⟨hs, -⟩ <;> simp [hs]
    have hkey : (blockKey layout spec).side = if layout = .fused then .fused else spec.side := by
      simp [blockKey, hne]
    refine ⟨fun hcopied => ?_, fun _ => hpeer, fun _ => ?_, fun _ => ⟨op, hop, hcopy,
      hchannel.symm, endpointStep op spec, hstep, rfl, ?_⟩⟩
    · rw [hkey] at hcopied
      split at hcopied
      · cases hcopied
      · exact absurd hcopied hne
    · rw [hkey]
      by_cases hlayout : layout = .fused
      · simp [hlayout]
      · rcases hside with ⟨hs, -⟩ | ⟨hs, -⟩ <;> simp [hlayout, hs]
    · rw [hkey]
      rcases hside with ⟨hs, hk⟩ | ⟨hs, hk⟩
      · exact Or.inl ⟨by split <;> simp [hs], hk⟩
      · exact Or.inr ⟨by split <;> simp [hs], hk⟩

/-- All blocks are keyed, and listed once. -/
structure KeyedBlocks (layout : Layout) (instructions : List Instruction) (s : Lowering) : Prop where
  distinct : s.blocks.Distinct
  keyed : ∀ e ∈ s.blocks, Keyed layout instructions e.1 e.2

theorem KeyedBlocks.lowerEndpoint (hs : s.KeyedBlocks layout instructions)
    {specs : List EndpointSpec} (h : endpointSpecs op storage = .ok specs) {spec : EndpointSpec}
    (hspec : spec ∈ specs) (hop : op ∈ instructions) (wanted : ℕ → List StepId) :
    (lowerEndpoint layout op wanted s spec).KeyedBlocks layout instructions where
  distinct := hs.distinct.set _ _
  keyed := by
    intro e he
    rcases Dict.mem_set he with he | rfl
    · exact hs.keyed e he
    · exact keyed_endpoint h hspec hop _ _

theorem KeyedBlocks.lowerInstruction (hs : s.KeyedBlocks layout instructions)
    (hop : op ∈ instructions) (h : lowerInstruction storage layout s op = .ok s') :
    s'.KeyedBlocks layout instructions := by
  unfold Lowering.lowerInstruction at h
  simp only [Checked.bind_ok, Checked.pure_ok] at h
  obtain ⟨specs, hspecs, _, -, rfl⟩ := h
  have hall : ∀ (l : List EndpointSpec), (∀ spec ∈ l, spec ∈ specs) → ∀ {t : Lowering},
      t.KeyedBlocks layout instructions →
        (l.foldl (Lowering.lowerEndpoint layout op (s.assigned op)) t).KeyedBlocks layout
          instructions := by
    intro l
    induction l with
    | nil => exact fun _ _ ht => ht
    | cons spec l ih =>
      intro hmem t ht
      exact ih (fun later hlater => hmem later (List.mem_cons_of_mem _ hlater))
        (ht.lowerEndpoint hspecs (hmem spec List.mem_cons_self) hop _)
  exact hall specs (fun _ hspec => hspec) hs

/-- **Lowering keys its blocks.** -/
theorem keyedBlocks_of_run (h : instructions.foldlM (lowerInstruction storage layout) start = .ok s) :
    s.KeyedBlocks layout instructions :=
  Checked.foldlM_invariant (fun t => t.KeyedBlocks layout instructions)
    (fun _ _ _ hop ht hstep => ht.lowerInstruction hop hstep)
    ⟨Dict.distinct_nil, by simp [start]⟩ h

/-! ## Keys of the comparison -/

open Classical in
/-- The peer a block sends to, as its record says. -/
noncomputable def sendPeerOf (key : BlockKey) (steps : List RawStep) : ℤ :=
  if (key.side = .send ∨ key.side = .fused) ∧ Sends steps then key.peer else -1

open Classical in
/-- The peer a block receives from, as its record says. -/
noncomputable def recvPeerOf (key : BlockKey) (steps : List RawStep) : ℤ :=
  if (key.side = .recv ∨ key.side = .fused) ∧ Receives steps then key.peer else -1

/-- The key under which a block is compared, from its identity and its steps. -/
noncomputable def blockCode (key : BlockKey) (steps : List RawStep) : ℕ × ℤ × ℤ × ℤ :=
  (key.rank, sendPeerOf key steps, recvPeerOf key steps, max key.channel 0)

section Codes

variable {key key' : BlockKey} {steps steps' : List RawStep} {instructions' : List Instruction}

theorem Keyed.peers_copy (steps : List RawStep) (hside : key.side = .copy) :
    sendPeerOf key steps = -1 ∧ recvPeerOf key steps = -1 := by
  simp [sendPeerOf, recvPeerOf, hside]

/-- A block of transfers records its peer in a direction it has, and in one of them. -/
theorem Keyed.peers (h : Keyed layout instructions key steps) (hside : key.side ≠ .copy) :
    (sendPeerOf key steps = key.peer ∧ key.side ≠ .recv ∨ sendPeerOf key steps = -1) ∧
      (recvPeerOf key steps = key.peer ∧ key.side ≠ .send ∨ recvPeerOf key steps = -1) ∧
      (sendPeerOf key steps = key.peer ∨ recvPeerOf key steps = key.peer) := by
  refine ⟨?_, ?_, ?_⟩
  · unfold sendPeerOf
    split
    · rename_i hsend
      exact Or.inl ⟨rfl, by rcases hsend.1 with hs | hs <;> simp [hs]⟩
    · exact Or.inr rfl
  · unfold recvPeerOf
    split
    · rename_i hrecv
      exact Or.inl ⟨rfl, by rcases hrecv.1 with hs | hs <;> simp [hs]⟩
    · exact Or.inr rfl
  · obtain ⟨op, -, -, -, step, hstep, -, hdir⟩ := h.used hside
    rcases hdir with ⟨hne, hkind⟩ | ⟨hne, hkind⟩
    · refine Or.inl (if_pos ⟨?_, step, hstep, hkind⟩)
      revert hside hne
      cases key.side <;> simp
    · refine Or.inr (if_pos ⟨?_, step, hstep, hkind⟩)
      revert hside hne
      cases key.side <;> simp

/-- **The compared keys determine the blocks**, within one layout. -/
theorem Keyed.code_inj (h : Keyed layout instructions key steps)
    (h' : Keyed layout instructions' key' steps') (hn : key.side ≠ .copy → 0 ≤ key.channel)
    (hn' : key'.side ≠ .copy → 0 ≤ key'.channel)
    (hcode : blockCode key steps = blockCode key' steps') : key = key' := by
  simp only [blockCode, Prod.mk.injEq] at hcode
  obtain ⟨hrank, hsend, hrecv, hchannel⟩ := hcode
  by_cases hcopy : key.side = .copy
  · have hnone := Keyed.peers_copy steps hcopy
    have hcopy' : key'.side = .copy := by
      by_contra hne
      have hsome := (h'.peers hne).2.2
      have hpeer := h'.peer hne
      omega
    obtain ⟨hpeer, hch⟩ := h.copy hcopy
    obtain ⟨hpeer', hch'⟩ := h'.copy hcopy'
    cases key
    cases key'
    simp_all
  · have hcopy' : key'.side ≠ .copy := by
      intro hc
      have hnone := Keyed.peers_copy steps' hc
      have hsome := (h.peers hcopy).2.2
      have hpeer := h.peer hcopy
      omega
    obtain ⟨hs, hr, hone⟩ := h.peers hcopy
    obtain ⟨hs', hr', hone'⟩ := h'.peers hcopy'
    have hpos := h.peer hcopy
    have hpos' := h'.peer hcopy'
    have hpeer : key.peer = key'.peer := by omega
    have hch : key.channel = key'.channel := by
      have := hn hcopy
      have := hn' hcopy'
      omega
    have hside : key.side = key'.side := by
      by_cases hlayout : layout = .fused
      · rw [(h.fused hcopy).mpr hlayout, (h'.fused hcopy').mpr hlayout]
      · have hnf := mt (h.fused hcopy).mp hlayout
        have hnf' := mt (h'.fused hcopy').mp hlayout
        rcases hone with heq | heq
        · have h1 : key.side ≠ .recv := by
            rcases hs with ⟨-, hs⟩ | hs
            · exact hs
            · omega
          have h2 : key'.side ≠ .recv := by
            rcases hs' with ⟨-, hs'⟩ | hs'
            · exact hs'
            · omega
          revert hcopy hcopy' hnf hnf' h1 h2
          cases key.side <;> cases key'.side <;> simp
        · have h1 : key.side ≠ .send := by
            rcases hr with ⟨-, hr⟩ | hr
            · exact hr
            · omega
          have h2 : key'.side ≠ .send := by
            rcases hr' with ⟨-, hr'⟩ | hr'
            · exact hr'
            · omega
          revert hcopy hcopy' hnf hnf' h1 h2
          cases key.side <;> cases key'.side <;> simp
    cases key
    cases key'
    simp_all

/-- The keys of a block in two programs agree when its directions are used in both alike. -/
theorem Keyed.code_eq_iff (h : Keyed layout instructions key steps)
    (h' : Keyed layout instructions' key steps') :
    blockCode key steps = blockCode key steps' ↔
      (key.side = .fused →
        (Sends steps ↔ Sends steps') ∧ (Receives steps ↔ Receives steps')) := by
  classical
  by_cases hcopy : key.side = .copy
  · have hnone := Keyed.peers_copy steps hcopy
    have hnone' := Keyed.peers_copy steps' hcopy
    simp [blockCode, hnone, hnone', hcopy]
  · have hpos := h.peer hcopy
    by_cases hfused : key.side = .fused
    · have hne : key.peer ≠ -1 := by omega
      simp only [blockCode, sendPeerOf, recvPeerOf, hfused, or_true, true_and, Prod.mk.injEq,
        and_true, forall_const]
      by_cases hs : Sends steps <;> by_cases hs' : Sends steps' <;> by_cases hr : Receives steps <;>
        by_cases hr' : Receives steps' <;> simp [hs, hs', hr, hr', hne, hne.symm]
    · -- a block of one direction always uses it
      obtain ⟨hs, hr, hone⟩ := h.peers hcopy
      obtain ⟨hs', hr', hone'⟩ := h'.peers hcopy
      have hsides : key.side = .send ∨ key.side = .recv := by
        revert hcopy hfused
        cases key.side <;> simp
      simp only [blockCode, hfused, false_imp_iff, iff_true, Prod.mk.injEq, true_and, and_true]
      rcases hsides with hside | hside
      · simp only [hside, ne_eq, not_true_eq_false, and_false, false_or] at hr hr'
        exact ⟨by omega, by omega⟩
      · simp only [hside, ne_eq, not_true_eq_false, and_false, false_or] at hs hs'
        exact ⟨by omega, by omega⟩

end Codes

/-! ## Blocks of the program -/

/-- The finished steps of a block have a kind when the raw steps have it. -/
theorem placed_kinds {places : Dict StepId (ℕ × ℕ)} {raws : List RawStep} {steps : List NativeStep}
    (h : raws.mapM (s.placeStep places) = .ok steps) (P : StepKind → Prop) :
    (∃ step ∈ steps, P step.kind) ↔ ∃ raw ∈ raws, P raw.kind := by
  constructor
  · rintro ⟨step, hstep, hP⟩
    obtain ⟨raw, hraw, hok⟩ := Checked.mapM_right h hstep
    exact ⟨raw, hraw, (placeStep_ok hok).2.1 ▸ hP⟩
  · rintro ⟨raw, hraw, hP⟩
    obtain ⟨step, hstep, hok⟩ := Checked.mapM_left h hraw
    exact ⟨step, hstep, (placeStep_ok hok).2.1.symm ▸ hP⟩

theorem placed_queue {places : Dict StepId (ℕ × ℕ)} {raws : List RawStep} {steps : List NativeStep}
    (h : raws.mapM (s.placeStep places) = .ok steps) (outside : List String) :
    (steps.filter fun step => step.kind ≠ .nop ∧ step.operationId ∈ outside).map (·.operationId) =
      stepQueue outside raws := by
  induction Checked.mapM_ok.mp h with
  | nil => rfl
  | cons hone _ ih =>
    obtain ⟨hid, hkind, -⟩ := placeStep_ok hone
    unfold stepQueue at ih ⊢
    rw [List.filter_cons, List.filter_cons, hkind, hid]
    split
    · rw [List.map_cons, List.map_cons, ih (Checked.mapM_ok.mpr ‹_›), hid]
    · exact ih (Checked.mapM_ok.mpr ‹_›)

/-- A block of the program is compared as its entry in the table says. -/
theorem placeBlock_code {ids : Dict BlockKey ℕ} {places : Dict StepId (ℕ × ℕ)}
    {e : BlockKey × List RawStep} {block : NativeBlock}
    (h : s.placeBlock ids places e = .ok block) (outside : List String) :
    queueKey block = blockCode e.1 e.2 ∧ blockQueue outside block = stepQueue outside e.2 := by
  classical
  unfold placeBlock at h
  simp only [Checked.bind_ok, Checked.pure_ok, Checked.required_ok] at h
  obtain ⟨_, -, steps, hsteps, rfl⟩ := h
  refine ⟨?_, placed_queue hsteps outside⟩
  have hsends := placed_kinds hsteps (· = .s)
  have hreceives := placed_kinds hsteps (·.receives = true)
  exact Prod.ext rfl (Prod.ext (if_congr (and_congr_right fun _ => hsends) rfl rfl)
    (Prod.ext (if_congr (and_congr_right fun _ => hreceives) rfl rfl) rfl))

end Lowering

open Lowering

section Tables

variable {context : LoweringContext} (b : LoweredBundle context)

/-- The table of blocks behind a lowered bundle. -/
structure LoweredBundle.Table (s : Lowering) : Prop where
  steps : b.stepsAt = s.stepsAt
  keyed : s.KeyedBlocks context.inputs.layout b.storage.instructions
  natural : ∀ e ∈ s.blocks, e.1.side ≠ .copy → 0 ≤ e.1.channel
  pairs : ∀ outside, (b.program.blocks.map fun block =>
    (queueKey block, blockQueue outside block)).Perm
      (s.blocks.map fun e => (blockCode e.1 e.2, stepQueue outside e.2))

theorem LoweredBundle.exists_table : ∃ s, b.Table s := by
  have hlowered := b.lowered
  unfold lowerProgram at hlowered
  simp only [Checked.bind_ok, Checked.pure_ok] at hlowered
  obtain ⟨s, hs, places, -, blocks, hblocks, hprogram⟩ := hlowered
  have hperm : b.program.blocks.Perm blocks := by
    rw [← hprogram]
    exact List.perm_insertionSort _ _
  have hkeyed := keyedBlocks_of_run hs
  refine ⟨s, ?_, hkeyed, ?_, fun outside => ?_⟩
  · funext key
    unfold LoweredBundle.stepsAt
    rw [hs]
  · -- the check compares the channel of a block with that of its transfers
    intro e he hside
    obtain ⟨op, hop, hcopy, hchannel, raw, hraw, hid, hdir⟩ := (hkeyed.keyed e he).used hside
    obtain ⟨block, hblock, hmade⟩ := Checked.mapM_left hblocks he
    obtain ⟨result, hdeps⟩ : ∃ result, executionDependencies b.program = .ok result := by
      have hbound := b.bound
      unfold validateBindings at hbound
      obtain ⟨result, hresult, -⟩ := Checked.bind_ok.mp hbound
      exact ⟨result, hresult⟩
    unfold placeBlock at hmade
    simp only [Checked.bind_ok, Checked.pure_ok, Checked.required_ok] at hmade
    obtain ⟨number, -, steps, hsteps, hrecord⟩ := hmade
    obtain ⟨step, hstep, hplaced⟩ := Checked.mapM_left hsteps hraw
    obtain ⟨hname, hkind, -⟩ := placeStep_ok hplaced
    have hmember : (block, step) ∈ endpointsOf b.program op.operationId := by
      refine mem_endpointsOf.mpr ⟨hperm.mem_iff.mpr hblock, ?_, ?_, hname.trans hid⟩
      · rw [← hrecord]
        exact hstep
      · rw [hkind]
        rcases hdir with ⟨-, hk⟩ | ⟨-, hk⟩
        · simp [hk]
        · rintro hk'
          simp [hk', StepKind.receives] at hk
    have hsame := ((validateBindings_channel (executionDependencies_accepted hdeps) hdeps
      b.bound).2 op hop _ hmember).resolve_left hcopy
    rw [← hrecord, hchannel] at hsame
    simp only at hsame
    omega
  · refine (hperm.map _).trans (List.Perm.of_eq ?_)
    have hmap : ∀ {l : List (BlockKey × List RawStep)} {m : List NativeBlock},
        List.Forall₂ (fun e block => s.placeBlock (s.blockIds context.inputs.rankCount) places e =
          .ok block) l m →
        m.map (fun block => (queueKey block, blockQueue outside block)) =
          l.map fun e => (blockCode e.1 e.2, stepQueue outside e.2) := by
      intro l m h
      induction h with
      | nil => rfl
      | cons hone _ ih =>
        obtain ⟨hkey, hqueue⟩ := placeBlock_code hone outside
        rw [List.map_cons, List.map_cons, ih, hkey, hqueue]
    exact hmap (Checked.mapM_ok.mp hblocks)

variable {b} {s : Lowering}

/-- The queues of a program, by the identities of its blocks. -/
theorem LoweredBundle.Table.queues_get? (h : b.Table s) (outside : List String)
    {k : ℕ × ℤ × ℤ × ℤ} {q : List String} :
    (queues outside b.program).get? k = some q ↔
      q ≠ [] ∧ ∃ key, blockCode key (b.stepsAt key) = k ∧ stepQueue outside (b.stepsAt key) = q := by
  have hnodup : (b.program.blocks.map fun block =>
      (queueKey block, blockQueue outside block)).map (·.1) |>.Nodup := by
    refine (((h.pairs outside).map (·.1)).nodup_iff).mpr ?_
    rw [List.map_map]
    refine List.Nodup.map_on ?_ (List.Nodup.of_map _ h.keyed.distinct)
    intro e he e' he' hcode
    exact List.inj_on_of_nodup_map h.keyed.distinct he he' ((h.keyed.keyed e he).code_inj
      (h.keyed.keyed e' he') (h.natural e he) (h.natural e' he') hcode)
  unfold queues
  rw [Dict.ofList_get? (hnodup.sublist (List.filter_sublist.map _)), List.mem_filter,
    (h.pairs outside).mem_iff]
  simp only [List.mem_map, Prod.mk.injEq, decide_eq_true_eq]
  constructor
  · rintro ⟨⟨e, he, hcode, hqueue⟩, hne⟩
    refine ⟨hne, e.1, ?_⟩
    have hsteps : b.stepsAt e.1 = e.2 := by
      rw [h.steps]
      unfold Lowering.stepsAt
      rw [Dict.get?_of_mem h.keyed.distinct he]
      rfl
    rw [hsteps]
    exact ⟨hcode, hqueue⟩
  · rintro ⟨hne, key, hcode, hqueue⟩
    refine ⟨⟨(key, b.stepsAt key), ?_, hcode, hqueue⟩, hne⟩
    obtain ⟨id, hid⟩ := List.exists_mem_of_ne_nil q hne
    rw [← hqueue] at hid
    obtain ⟨raw, hraw, -⟩ := List.mem_map.mp hid
    have hmem := (List.mem_filter.mp hraw).1
    rw [h.steps] at hmem ⊢
    exact mem_of_stepsAt hmem

/-- The block of an outside operation is in the table. -/
theorem LoweredBundle.Table.keyedAt (h : b.Table s) {outside : List String} {key : BlockKey}
    (hne : stepQueue outside (b.stepsAt key) ≠ []) :
    Keyed context.inputs.layout b.storage.instructions key (b.stepsAt key) ∧
      (key.side ≠ .copy → 0 ≤ key.channel) := by
  obtain ⟨id, hid⟩ := List.exists_mem_of_ne_nil _ hne
  obtain ⟨raw, hraw, -⟩ := List.mem_map.mp hid
  have hmem := (List.mem_filter.mp hraw).1
  rw [h.steps] at hmem ⊢
  have he := mem_of_stepsAt hmem
  exact ⟨h.keyed.keyed _ he, h.natural _ he⟩

end Tables

section Exactness

variable {context context' : LoweringContext} {before : LoweredBundle context}
  {after : LoweredBundle context'}

/-- **The queues of two programs agree when every block keeps its order and its key.** -/
theorem queues_same_iff (hlayout : context'.inputs.layout = context.inputs.layout)
    (outside : List String) :
    (queues outside before.program).Same (queues outside after.program) ↔
      ∀ key, stepQueue outside (before.stepsAt key) = stepQueue outside (after.stepsAt key) ∧
        (stepQueue outside (before.stepsAt key) ≠ [] →
          blockCode key (before.stepsAt key) = blockCode key (after.stepsAt key)) := by
  obtain ⟨s, hs⟩ := before.exists_table
  obtain ⟨t, ht⟩ := after.exists_table
  constructor
  · intro hsame key
    -- a queue of one program is found in the other under its key, so on the same block
    by_cases hne : stepQueue outside (before.stepsAt key) = []
    · refine ⟨?_, fun h => absurd hne h⟩
      by_contra hdiff
      have hne' : stepQueue outside (after.stepsAt key) ≠ [] := fun h => hdiff (hne.trans h.symm)
      have hget := (ht.queues_get? outside).mpr ⟨hne', key, rfl, rfl⟩
      rw [← hsame] at hget
      obtain ⟨-, key', hcode, hqueue⟩ := (hs.queues_get? outside).mp hget
      have hne'' : stepQueue outside (before.stepsAt key') ≠ [] := hqueue ▸ hne'
      obtain ⟨hk, hn⟩ := hs.keyedAt hne''
      obtain ⟨hk', hn'⟩ := ht.keyedAt hne'
      rw [hlayout] at hk'
      obtain rfl := hk.code_inj hk' hn hn' hcode
      exact hne'' hne
    · have hget := (hs.queues_get? outside).mpr ⟨hne, key, rfl, rfl⟩
      rw [hsame] at hget
      obtain ⟨-, key', hcode, hqueue⟩ := (ht.queues_get? outside).mp hget
      have hne' : stepQueue outside (after.stepsAt key') ≠ [] := hqueue ▸ hne
      obtain ⟨hk, hn⟩ := hs.keyedAt hne
      obtain ⟨hk', hn'⟩ := ht.keyedAt hne'
      rw [hlayout] at hk'
      obtain rfl := hk'.code_inj hk hn' hn hcode
      exact ⟨hqueue.symm, fun _ => hcode.symm⟩
  · intro hall k
    apply Option.ext
    intro q
    rw [hs.queues_get?, ht.queues_get?]
    constructor
    · rintro ⟨hne, key, hcode, hqueue⟩
      obtain ⟨horder, hkey⟩ := hall key
      exact ⟨hne, key, (hkey (hqueue ▸ hne)) ▸ hcode, horder ▸ hqueue⟩
    · rintro ⟨hne, key, hcode, hqueue⟩
      obtain ⟨horder, hkey⟩ := hall key
      have hne' : stepQueue outside (before.stepsAt key) ≠ [] := by
        rw [horder, hqueue]
        exact hne
      exact ⟨hne, key, (hkey hne').trans hcode, horder.trans hqueue⟩

theorem LoweredBundle.ids_nodup (b : LoweredBundle context) :
    (b.storage.instructions.map (·.operationId)).Nodup := by
  have hbound := b.bound
  unfold validateBindings at hbound
  simp only [Checked.bind_ok, Checked.ensure_ok] at hbound
  obtain ⟨-, -, _, hnodup, -⟩ := hbound
  exact hnodup

theorem LoweredBundle.exists_built (b : LoweredBundle context) :
    ∃ result, Built b.storage context result b.executable := by
  have hbuilt := b.built
  unfold buildExecutable at hbuilt
  obtain ⟨result, hresult, -⟩ := Checked.bind_ok.mp hbuilt
  exact ⟨result, buildExecutable_built hresult b.built⟩

theorem LoweredBundle.work_get? (b : LoweredBundle context) {key : String} {work : WorkOperation} :
    (workById b.executable).get? key = some work ↔
      work ∈ b.executable.operations ∧ work.operationId = key := by
  obtain ⟨result, hbuilt⟩ := b.exists_built
  have hids : ((b.executable.operations.map fun work => (work.operationId, work)).map
      (·.1)).Nodup := by
    rw [List.map_map]
    exact hbuilt.ids_nodup
  unfold workById
  rw [Dict.ofList_get? hids]
  simp only [List.mem_map, Prod.mk.injEq]
  constructor
  · rintro ⟨other, hother, hkey, rfl⟩
    exact ⟨hother, hkey⟩
  · rintro ⟨hwork, hkey⟩
    exact ⟨work, hwork, hkey, rfl⟩

/-- All work is released from the start. -/
theorem LoweredBundle.notBefore (b : LoweredBundle context) {work : WorkOperation}
    (h : work ∈ b.executable.operations) : work.notBefore = 0 := by
  obtain ⟨result, hbuilt⟩ := b.exists_built
  rcases hbuilt.work work h with ⟨op, -, hop⟩ | ⟨-, hzero⟩
  · exact hop.released
  · exact hzero

/-- The operations of a plan, by identifier. -/
theorem LoweredBundle.instruction_get? (b : LoweredBundle context) {key : String}
    {op : Instruction} :
    (Dict.ofList (b.storage.instructions.map fun op => (op.operationId, op))).get? key = some op ↔
      op ∈ b.storage.instructions ∧ op.operationId = key := by
  have hids : ((b.storage.instructions.map fun op => (op.operationId, op)).map (·.1)).Nodup := by
    rw [List.map_map]
    exact b.ids_nodup
  rw [Dict.ofList_get? hids]
  simp only [List.mem_map, Prod.mk.injEq]
  constructor
  · rintro ⟨other, hother, hkey, rfl⟩
    exact ⟨hother, hkey⟩
  · rintro ⟨hop, hkey⟩
    exact ⟨op, hop, hkey, rfl⟩

theorem LoweredBundle.mem_outside (b : LoweredBundle context) {domain : Finset String}
    {e : String × Instruction} : e ∈ outsideOperations b.storage domain ↔
      e.2 ∈ b.storage.instructions ∧ e.2.operationId ∉ domain ∧ e.2.operationId = e.1 := by
  have hids : (((b.storage.instructions.filter fun op => op.operationId ∉ domain).map fun op =>
      (op.operationId, op)).map (·.1)).Nodup := by
    rw [List.map_map]
    exact b.ids_nodup.sublist (List.filter_sublist.map _)
  have hget : e ∈ outsideOperations b.storage domain ↔
      (outsideOperations b.storage domain).get? e.1 = some e.2 :=
    ⟨fun h => Dict.get?_of_mem (Dict.distinct_ofList _) h, Dict.mem_of_get?⟩
  rw [hget]
  unfold outsideOperations
  rw [Dict.ofList_get? hids]
  simp only [List.mem_map, List.mem_filter, decide_eq_true_eq, Prod.mk.injEq]
  constructor
  · rintro ⟨op, ⟨hop, hout⟩, hkey, rfl⟩
    exact ⟨hop, hout, hkey⟩
  · rintro ⟨hop, hout, hkey⟩
    exact ⟨e.2, ⟨hop, hout⟩, hkey, rfl⟩

/-- An outside operation shows no difference when it is kept. -/
theorem operationDifference_nil (after : LoweredBundle context') {storage : StoragePlan}
    {op : Instruction} : operationDifference storage after.storage op.operationId op = .ok [] ↔
      ∃ now ∈ after.storage.instructions, now.operationId = op.operationId ∧
        ∃ sig, signature op storage = .ok sig ∧ signature now after.storage = .ok sig := by
  unfold operationDifference
  split
  · rename_i hnone
    refine ⟨fun h => by simp at h, ?_⟩
    rintro ⟨now, hnow, hid, -⟩
    rw [after.instruction_get?.mpr ⟨hnow, hid⟩] at hnone
    cases hnone
  · rename_i now hsome
    obtain ⟨hnow, hid⟩ := after.instruction_get?.mp hsome
    simp only [Checked.bind_ok, Checked.pure_ok]
    constructor
    · rintro ⟨left, hleft, right, hright, h⟩
      split at h
      · cases h
      · rename_i heq
        exact ⟨now, hnow, hid, left, hleft, (not_not.mp heq) ▸ hright⟩
    · rintro ⟨now', hnow', hid', sig, hleft, hright⟩
      obtain rfl : now' = now := by
        have h := after.instruction_get?.mpr ⟨hnow', hid'⟩
        rw [hsome] at h
        exact (Option.some.inj h).symm
      exact ⟨sig, hleft, sig, hright, by simp⟩

/-- The communication of an outside operation shows no difference when it is the same. -/
theorem workDifference_nil {key : String} :
    workDifference (workById before.executable) (workById after.executable) key = [] ↔
      ∀ left ∈ before.executable.operations, left.operationId = key →
        ∀ right ∈ after.executable.operations, right.operationId = key →
          left.resources = right.resources ∧ left.flowId = right.flowId ∧
            left.payloadBytes = right.payloadBytes := by
  unfold workDifference
  split
  · rename_i left right hleft hright
    obtain ⟨hl, hlid⟩ := before.work_get?.mp hleft
    obtain ⟨hr, hrid⟩ := after.work_get?.mp hright
    have hcomm : communication left = communication right ↔ left.resources = right.resources ∧
        left.flowId = right.flowId ∧ left.payloadBytes = right.payloadBytes := by
      simp [communication, before.notBefore hl, after.notBefore hr]
    constructor
    · intro h left' hl' hlid' right' hr' hrid'
      obtain rfl : left' = left := by
        have hsome := before.work_get?.mpr ⟨hl', hlid'⟩
        rw [hleft] at hsome
        exact (Option.some.inj hsome).symm
      obtain rfl : right' = right := by
        have hsome := after.work_get?.mpr ⟨hr', hrid'⟩
        rw [hright] at hsome
        exact (Option.some.inj hsome).symm
      refine hcomm.mp ?_
      by_contra hne
      simp [hne] at h
    · intro h
      simp [hcomm.mpr (h left hl hlid right hr hrid)]
  · rename_i hmissing
    refine ⟨fun _ left hl hlid right hr hrid => ?_, fun _ => rfl⟩
    exact absurd (after.work_get?.mpr ⟨hr, hrid⟩) (hmissing left right
      (before.work_get?.mpr ⟨hl, hlid⟩))

/-- The check passes when none of its four parts finds a difference. -/
theorem outsideInvariants_valid (domain : Finset String) :
    (∃ check, outsideInvariants before.bundle after.bundle domain = .ok check ∧
        check.valid = true) ↔
      before.contract = after.contract ∧
      (∀ key ∈ before.outside domain, workDifference (workById before.executable)
        (workById after.executable) key = []) ∧
      (∀ e ∈ outsideOperations before.storage domain,
        operationDifference before.storage after.storage e.1 e.2 = .ok []) ∧
      (queues (before.outside domain) before.program).Same
        (queues (before.outside domain) after.program) := by
  simp only [outsideInvariants, LoweredBundle.bundle, Checked.bind_ok, Checked.required_ok,
    Option.some.injEq, exists_eq_left', Checked.pure_ok, Option.map_some, Option.getD_some]
  constructor
  · rintro ⟨check, ⟨operations, hoperations, rfl⟩, hvalid⟩
    simp only [decide_eq_true_eq, List.append_eq_nil_iff, List.flatMap_eq_nil_iff,
      List.flatten_eq_nil_iff] at hvalid
    obtain ⟨⟨⟨hcontract, hwork⟩, hall⟩, horder⟩ := hvalid
    refine ⟨?_, hwork, ?_, ?_⟩
    · by_contra hne
      simp [hne] at hcontract
    · intro e he
      obtain ⟨found, hfound, hok⟩ := Checked.mapM_left hoperations he
      rwa [hall found hfound] at hok
    · by_contra hne
      have hdiffer : ¬ (queues (outsideOperations before.storage domain).keys before.program).Same
          (queues (outsideOperations before.storage domain).keys after.program) := hne
      rw [if_pos hdiffer] at horder
      cases horder
  · rintro ⟨hcontract, hwork, hall, horder⟩
    obtain ⟨operations, hoperations⟩ := Checked.mapM_total fun e he => ⟨_, hall e he⟩
    refine ⟨_, ⟨operations, hoperations, rfl⟩, ?_⟩
    simp only [decide_eq_true_eq, List.append_eq_nil_iff, List.flatMap_eq_nil_iff,
      List.flatten_eq_nil_iff]
    refine ⟨⟨⟨by simp [hcontract], hwork⟩, fun found hfound => ?_⟩, if_neg (not_not.mpr horder)⟩
    obtain ⟨e, he, hok⟩ := Checked.mapM_right hoperations hfound
    exact Except.ok.inj (hok.symm.trans (hall e he))

theorem LoweredBundle.mem_outside_keys (b : LoweredBundle context) {domain : Finset String}
    {key : String} : key ∈ b.outside domain ↔
      ∃ op ∈ b.storage.instructions, op.operationId ∉ domain ∧ op.operationId = key := by
  unfold LoweredBundle.outside
  rw [Dict.mem_keys]
  constructor
  · rintro ⟨op, hop⟩
    obtain ⟨hmem, hout, hid⟩ := b.mem_outside.mp hop
    exact ⟨op, hmem, hout, hid⟩
  · rintro ⟨op, hmem, hout, hid⟩
    exact ⟨op, b.mem_outside.mpr ⟨hmem, hout, hid⟩⟩

/-- **A repair is accepted exactly when it leaves the outside untouched and the blocks steady.** -/
theorem outsideInvariants_valid_iff (hlayout : context'.inputs.layout = context.inputs.layout)
    (domain : Finset String) :
    (∃ check, outsideInvariants before.bundle after.bundle domain = .ok check ∧
        check.valid = true) ↔
      Untouched before after domain ∧ Steady before after domain := by
  have hcodes : ∀ key, stepQueue (before.outside domain) (before.stepsAt key) ≠ [] →
      stepQueue (before.outside domain) (before.stepsAt key) =
        stepQueue (before.outside domain) (after.stepsAt key) →
      (blockCode key (before.stepsAt key) = blockCode key (after.stepsAt key) ↔
        (key.side = .fused →
          (Sends (before.stepsAt key) ↔ Sends (after.stepsAt key)) ∧
            (Receives (before.stepsAt key) ↔ Receives (after.stepsAt key)))) := by
    intro key hne horder
    obtain ⟨s, hs⟩ := before.exists_table
    obtain ⟨t, ht⟩ := after.exists_table
    have hafter := (ht.keyedAt (horder ▸ hne)).1
    rw [hlayout] at hafter
    exact (hs.keyedAt hne).1.code_eq_iff hafter
  rw [outsideInvariants_valid, queues_same_iff hlayout]
  constructor
  · rintro ⟨hcontract, hwork, hkept, horder⟩
    refine ⟨⟨hcontract, fun op hop hout => ?_, fun op hop hout => ?_, fun key => (horder key).1⟩,
      fun key hside hne => ?_⟩
    · exact (operationDifference_nil after).mp
        (hkept (op.operationId, op) (before.mem_outside.mpr ⟨hop, hout, rfl⟩))
    · exact workDifference_nil.mp
        (hwork op.operationId (before.mem_outside_keys.mpr ⟨op, hop, hout, rfl⟩))
    · exact (hcodes key hne (horder key).1).mp ((horder key).2 hne) hside
  · rintro ⟨huntouched, hsteady⟩
    refine ⟨huntouched.contract, fun key hkey => ?_, fun e he => ?_, fun key =>
      ⟨huntouched.order key, fun hne => ?_⟩⟩
    · obtain ⟨op, hop, hout, rfl⟩ := before.mem_outside_keys.mp hkey
      exact workDifference_nil.mpr (huntouched.communication op hop hout)
    · obtain ⟨hop, hout, hid⟩ := before.mem_outside.mp he
      rw [← hid]
      exact (operationDifference_nil after).mpr (huntouched.kept e.2 hop hout)
    · exact (hcodes key hne (huntouched.order key)).mpr fun hside => hsteady key hside hne

/-- **With separate blocks for sends and receives the check is exact.** -/
theorem outsideInvariants_separate (hlayout : context'.inputs.layout = context.inputs.layout)
    (hseparate : context.inputs.layout = .separate) (domain : Finset String) :
    (∃ check, outsideInvariants before.bundle after.bundle domain = .ok check ∧
        check.valid = true) ↔ Untouched before after domain := by
  rw [outsideInvariants_valid_iff hlayout]
  refine and_iff_left fun key hside hne => ?_
  obtain ⟨s, hs⟩ := before.exists_table
  have hfused := ((hs.keyedAt hne).1.fused (by simp [hside])).mp hside
  rw [hseparate] at hfused
  cases hfused

end Exactness

/-- A candidate through storage, lowering, the check of its bindings and its executable. -/
def compileBundle (context : LoweringContext) (candidate : List NetworkOperation) :
    Except Fault (LoweredBundle context) := do
  let storage ← buildStoragePlan context candidate
  match lowered : lowerProgram storage context with
  | .error fault => .error fault
  | .ok program =>
    match bound : validateBindings program storage with
    | .error fault => .error fault
    | .ok () =>
      match built : buildExecutable program storage context with
      | .error fault => .error fault
      | .ok executable => .ok ⟨none, storage, program, executable, lowered, bound, built⟩

def exchangeContext : LoweringContext :=
  { pairContext with inputs := { pairInputs with
      collective := ⟨.allGather, "float32", none, none, false⟩
      layout := .fused
      root_ok := by simp [CollectiveKind.rooted]
      slice_pos := pairInputs.slice_pos
      slice_dvd := pairInputs.slice_dvd
      total_pos := pairInputs.total_pos
      reference_ok := pairInputs.reference_ok } }

/-- A rank sends its input to the other. -/
def exchangeTransfer (id : String) (src dst : ℕ) (channel : ℤ) : NetworkOperation where
  operationId := id
  kind := .send
  srcRank := src
  dstRank := dst
  channel := channel
  stageId := 0
  contributors := {src}
  targetContributors := {src}
  participants := [0, 1]
  dependencies := ∅
  referenceDependencies := ∅
  priorityTime := 0

/-- Both ranks send, the second on a given channel. -/
def exchange (channel : ℤ) : Except Fault (LoweredBundle exchangeContext) :=
  compileBundle exchangeContext
    [exchangeTransfer "ahead" 0 1 0, exchangeTransfer "back" 1 0 channel]

end VeriCCL
