import VeriCCL.WaitReduction

/-! # From step identities to coordinates

After the last instruction `lower_program` numbers the blocks of each rank and replaces
every identity by the number of its block and its index.  Numbers are different on one
rank, and the coordinates of a step are where it is (`Numbered`), so the order among
identities becomes the order of the finished program. -/
namespace VeriCCL

namespace Lowering

/-- The tables of the numbering, and the program they give. -/
structure Numbered (s : Lowering) (rankCount : ℕ) (places : Dict StepId (ℕ × ℕ))
    (program : NativeProgram) : Prop where
  inv : s.Inv
  places_ok : s.stepLocations (s.blockIds rankCount) = .ok places
  made : ∀ block, block ∈ program.blocks ↔
    ∃ e ∈ s.blocks, s.placeBlock (s.blockIds rankCount) places e = .ok block
  /-- Every entry of the table of blocks became a block. -/
  total : ∀ e ∈ s.blocks, ∃ block, s.placeBlock (s.blockIds rankCount) places e = .ok block

theorem stepsAt_of_mem {s : Lowering} (hinv : s.Inv) {e : BlockKey × List RawStep}
    (he : e ∈ s.blocks) : s.stepsAt e.1 = e.2 := by
  unfold stepsAt
  rw [Dict.get?_of_mem hinv.distinct he]
  rfl

theorem mem_of_stepsAt {s : Lowering} {key : BlockKey} {step : RawStep} (h : step ∈ s.stepsAt key) :
    (key, s.stepsAt key) ∈ s.blocks := by
  unfold stepsAt at h ⊢
  cases hget : s.blocks.get? key with
  | none => simp [hget] at h
  | some steps => exact Dict.mem_of_get? hget

/-- A block's number is its place among the blocks of its rank. -/
theorem blockIds_get? {s : Lowering} {n i : ℕ} {key : BlockKey}
    (h : (s.blockIds n).get? key = some i) : (s.rankKeys key.rank)[i]? = some key := by
  have hmem := Dict.mem_of_get? h
  obtain ⟨rank, -, hrow⟩ := List.mem_flatMap.mp hmem
  have hat : (s.rankKeys rank)[i]? = some key := by
    simpa [List.mem_zipIdx_iff_getElem?] using hrow
  have hrank : key.rank = rank := by
    have := (List.mem_insertionSort _).mp (List.mem_of_getElem? hat)
    simpa using (List.mem_filter.mp this).2
  rw [hrank]
  exact hat

/-- Different blocks of a rank have different numbers. -/
theorem blockIds_inj {s : Lowering} {n i : ℕ} {key key' : BlockKey}
    (h : (s.blockIds n).get? key = some i) (h' : (s.blockIds n).get? key' = some i)
    (hrank : key.rank = key'.rank) : key = key' := by
  have hat := blockIds_get? h
  have hat' := blockIds_get? h'
  rw [← hrank, hat] at hat'
  exact Option.some.inj hat'

/-- Steps of one identity are one step. -/
theorem Inv.index_unique {s : Lowering} (hinv : s.Inv) {key key' : BlockKey} {i j : ℕ}
    {a b : RawStep} (ha : (s.stepsAt key)[i]? = some a) (hb : (s.stepsAt key')[j]? = some b)
    (hid : a.id = b.id) : key = key' ∧ i = j := by
  obtain rfl := hinv.apart key key' a b (List.mem_of_getElem? ha) (List.mem_of_getElem? hb) hid
  refine ⟨rfl, ?_⟩
  have hlt : i < ((s.stepsAt key).map (·.id)).length := by
    rw [List.length_map]
    exact (List.getElem?_eq_some_iff.mp ha).1
  apply (List.getElem?_inj hlt (hinv.nodup key)).mp
  rw [List.getElem?_map, List.getElem?_map, ha, hb, Option.map_some, Option.map_some, hid]

section Numbered
variable {s : Lowering} {n : ℕ} {places : Dict StepId (ℕ × ℕ)} {program : NativeProgram}

/-- The coordinates of a step are where it is. -/
theorem Numbered.place (h : s.Numbered n places program) {key : BlockKey} {j : ℕ} {step : RawStep}
    (hj : (s.stepsAt key)[j]? = some step) :
    ∃ b, (s.blockIds n).get? key = some b ∧ places.get? step.id = some (b, j) := by
  have hrows := h.places_ok
  unfold stepLocations at hrows
  simp only [Checked.bind_ok, Checked.pure_ok] at hrows
  obtain ⟨rows, hrows, rfl⟩ := hrows
  have hentry := mem_of_stepsAt (List.mem_of_getElem? hj)
  obtain ⟨row, hrow, hok⟩ := Checked.mapM_left hrows hentry
  simp only [Checked.bind_ok, Checked.pure_ok, Checked.required_ok] at hok
  obtain ⟨b, hb, rfl⟩ := hok
  refine ⟨b, hb, ?_⟩
  have hlisted : (step.id, (b, j)) ∈ rows.flatten := by
    refine List.mem_flatten.mpr ⟨_, hrow, List.mem_map.mpr ⟨(step, j), ?_, rfl⟩⟩
    simpa [List.mem_zipIdx_iff_getElem?] using hj
  have hkey : step.id ∈ (Dict.ofList rows.flatten).keys :=
    Dict.mem_keys_ofList.mpr (List.mem_map.mpr ⟨_, hlisted, rfl⟩)
  obtain ⟨place, hplace⟩ := Dict.get?_isSome.mpr hkey
  -- whatever the table holds for this identity is this step
  obtain ⟨row', hrow', hmem⟩ := List.mem_flatten.mp (Dict.mem_of_ofList_get? hplace)
  obtain ⟨e, he, hok'⟩ := Checked.mapM_right hrows hrow'
  simp only [Checked.bind_ok, Checked.pure_ok, Checked.required_ok] at hok'
  obtain ⟨b', hb', rfl⟩ := hok'
  obtain ⟨⟨step', j'⟩, hstep', heq⟩ := List.mem_map.mp hmem
  obtain ⟨hid, rfl⟩ := Prod.mk.inj heq
  have hj' : (s.stepsAt e.1)[j']? = some step' := by
    rw [stepsAt_of_mem h.inv he]
    simpa [List.mem_zipIdx_iff_getElem?] using hstep'
  obtain ⟨hkeys, rfl⟩ := h.inv.index_unique hj' hj hid
  rw [hkeys] at hb'
  obtain rfl : b' = b := Option.some.inj (hb'.symm.trans hb)
  exact hplace

/-- What a block of the program is made of. -/
structure MadeFrom (s : Lowering) (n : ℕ) (places : Dict StepId (ℕ × ℕ)) (key : BlockKey)
    (block : NativeBlock) : Prop where
  rank : block.rank = key.rank
  number : (s.blockIds n).get? key = some block.tbId
  steps : (s.stepsAt key).mapM (s.placeStep places) = .ok block.steps

theorem madeFrom_of_placeBlock (h : s.Numbered n places program) {e : BlockKey × List RawStep}
    (he : e ∈ s.blocks) {block : NativeBlock}
    (hblock : s.placeBlock (s.blockIds n) places e = .ok block) : s.MadeFrom n places e.1 block := by
  unfold placeBlock at hblock
  simp only [Checked.bind_ok, Checked.pure_ok, Checked.required_ok] at hblock
  obtain ⟨b, hb, steps, hsteps, rfl⟩ := hblock
  refine ⟨rfl, hb, ?_⟩
  rw [stepsAt_of_mem h.inv he]
  exact hsteps

theorem Numbered.block (h : s.Numbered n places program) {block : NativeBlock}
    (hb : block ∈ program.blocks) : ∃ key, s.MadeFrom n places key block := by
  obtain ⟨e, he, hblock⟩ := (h.made block).mp hb
  exact ⟨e.1, madeFrom_of_placeBlock h he hblock⟩

theorem Numbered.block_of_key (h : s.Numbered n places program) {key : BlockKey} {step : RawStep}
    (hstep : step ∈ s.stepsAt key) : ∃ block ∈ program.blocks, s.MadeFrom n places key block := by
  have he := mem_of_stepsAt hstep
  obtain ⟨block, hblock⟩ := h.total _ he
  exact ⟨block, (h.made block).mpr ⟨_, he, hblock⟩, madeFrom_of_placeBlock h he hblock⟩

/-- **Coordinates name one block of the rank.** -/
theorem Numbered.block_unique (h : s.Numbered n places program) {b c : NativeBlock}
    (hb : b ∈ program.blocks) (hc : c ∈ program.blocks) (hrank : b.rank = c.rank)
    (hid : b.tbId = c.tbId) : b = c := by
  obtain ⟨e, he, hmade⟩ := (h.made b).mp hb
  obtain ⟨e', he', hmade'⟩ := (h.made c).mp hc
  have hfrom := madeFrom_of_placeBlock h he hmade
  have hfrom' := madeFrom_of_placeBlock h he' hmade'
  have hkeys : e.1 = e'.1 := by
    apply blockIds_inj (hid ▸ hfrom.number) hfrom'.number
    rw [← hfrom.rank, ← hfrom'.rank, hrank]
  have hentries : e = e' :=
    List.inj_on_of_nodup_map h.inv.distinct he he' hkeys
  rw [hentries, hmade'] at hmade
  exact (Except.ok.inj hmade).symm

end Numbered

end Lowering

end VeriCCL
