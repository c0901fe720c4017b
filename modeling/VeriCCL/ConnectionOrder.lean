import VeriCCL.Endpoints

/-! # Connections are first in, first out

A connection is an ordered pair of ranks and a channel.  The runtime matches the
`k`-th send issued on it with the `k`-th receive posted on it; the acceptance check
matches endpoints by operation.  The two agree: a connection has one owning block
on each side, the steps of a block are ordered by the dependency relation, and the
relation has no cycle, so both blocks list the operations of the connection by
increasing level. -/
namespace VeriCCL

/-- The operations of the sends issued on a connection, in order. -/
def sendsOn (program : NativeProgram) (src dst : ℕ) (channel : ℤ) : List String :=
  (program.blocks.filter fun b : NativeBlock =>
      b.rank = src ∧ b.sendPeer = dst ∧ b.channel = channel).flatMap
    fun b => (b.steps.filter fun step => step.kind = .s).map (·.operationId)

/-- The operations of the receives posted on a connection, in order. -/
def receivesOn (program : NativeProgram) (src dst : ℕ) (channel : ℤ) : List String :=
  (program.blocks.filter fun b : NativeBlock =>
      b.rank = dst ∧ b.recvPeer = src ∧ b.channel = channel).flatMap
    fun b => (b.steps.filter fun step => step.kind.receives).map (·.operationId)

section
variable {program : NativeProgram} {result : ExecutionDependencies}

theorem mem_sendsOn {src dst : ℕ} {channel : ℤ} {x : String} :
    x ∈ sendsOn program src dst channel ↔ ∃ b i step, Endpoint program b i step ∧
      step.kind = .s ∧ step.operationId = x ∧ b.rank = src ∧ b.sendPeer = dst ∧
      b.channel = channel := by
  simp only [sendsOn, List.mem_flatMap, List.mem_filter, List.mem_map, decide_eq_true_eq]
  constructor
  · rintro ⟨b, ⟨hb, hconn⟩, step, ⟨hstep, hk⟩, rfl⟩
    obtain ⟨i, hi⟩ := List.mem_iff_getElem?.mp hstep
    exact ⟨b, i, step, ⟨hb, hi, by rw [hk]; decide⟩, hk, rfl, hconn⟩
  · rintro ⟨b, i, step, he, hk, rfl, hconn⟩
    exact ⟨b, ⟨he.block_mem, hconn⟩, step, ⟨List.mem_of_getElem? he.at_index, hk⟩, rfl⟩

theorem mem_receivesOn {src dst : ℕ} {channel : ℤ} {x : String} :
    x ∈ receivesOn program src dst channel ↔ ∃ b i step, Endpoint program b i step ∧
      step.kind.receives = true ∧ step.operationId = x ∧ b.rank = dst ∧ b.recvPeer = src ∧
      b.channel = channel := by
  simp only [receivesOn, List.mem_flatMap, List.mem_filter, List.mem_map, decide_eq_true_eq]
  constructor
  · rintro ⟨b, ⟨hb, hconn⟩, step, ⟨hstep, hk⟩, rfl⟩
    obtain ⟨i, hi⟩ := List.mem_iff_getElem?.mp hstep
    refine ⟨b, i, step, ⟨hb, hi, ?_⟩, hk, rfl, hconn⟩
    intro hnop
    simp [hnop, StepKind.receives] at hk
  · rintro ⟨b, i, step, he, hk, rfl, hconn⟩
    exact ⟨b, ⟨he.block_mem, hconn⟩, step, ⟨List.mem_of_getElem? he.at_index, hk⟩, rfl⟩

/-- **Both sides of a connection carry the same operations.** -/
theorem Accepted.sends_iff_receives (h : Accepted program result) {src dst : ℕ} {channel : ℤ}
    {x : String} :
    x ∈ sendsOn program src dst channel ↔ x ∈ receivesOn program src dst channel := by
  rw [mem_sendsOn, mem_receivesOn]
  constructor
  · rintro ⟨b, i, step, he, hk, rfl, rfl, hpeer, rfl⟩
    rcases h.shape he with ⟨_, _, _, -, -, hkind, only⟩ |
      ⟨sb, j, ss, rb, k, rs, hs, hr, -, hrop, -, hrk, ⟨h1, h2, h3⟩, only⟩
    · rw [← (Prod.mk.inj (Prod.mk.inj (only _ _ _ he rfl)).2).2, hk] at hkind
      simp at hkind
    · rcases only _ _ _ he rfl with heq | heq
      · obtain ⟨rfl, -⟩ := Prod.mk.inj heq
        exact ⟨rb, k, rs, hr, hrk, hrop, by omega, h2, h3.symm⟩
      · rw [← (Prod.mk.inj (Prod.mk.inj heq).2).2, hk] at hrk
        simp [StepKind.receives] at hrk
  · rintro ⟨b, i, step, he, hk, rfl, rfl, hpeer, rfl⟩
    rcases h.shape he with ⟨_, _, _, -, -, hkind, only⟩ |
      ⟨sb, j, ss, rb, k, rs, hs, hr, hsop, -, hsk, -, ⟨h1, h2, h3⟩, only⟩
    · rw [← (Prod.mk.inj (Prod.mk.inj (only _ _ _ he rfl)).2).2] at hkind
      rcases hkind with hkind | hkind <;> simp [hkind, StepKind.receives] at hk
    · rcases only _ _ _ he rfl with heq | heq
      · rw [(Prod.mk.inj (Prod.mk.inj heq).2).2, hsk] at hk
        simp [StepKind.receives] at hk
      · obtain ⟨rfl, -⟩ := Prod.mk.inj heq
        exact ⟨sb, j, ss, hs, hsk, hsop, by omega, h1, h3⟩

/-- The operations of the working steps of one block, some left out, are a chain of
the dependency relation. -/
theorem Accepted.block_chain (h : Accepted program result) (hfits : Fits program)
    {block : NativeBlock} (hblock : block ∈ program.blocks) {p : NativeStep → Bool}
    (hp : ∀ step, p step = true → step.kind ≠ .nop) :
    ((block.steps.filter p).map (·.operationId)).Pairwise (Relation.TransGen result.Edge) := by
  rw [List.pairwise_map, List.pairwise_filter, List.pairwise_iff_getElem]
  intro i j hi hj hij hpi hpj
  have hgi : block.steps[i]? = some block.steps[i] := List.getElem?_eq_getElem hi
  have hgj : block.steps[j]? = some block.steps[j] := List.getElem?_eq_getElem hj
  have hpath := h.order block hblock i j _ _ hij hgi hgj (hp _ hpi) (hp _ hpj)
  rcases Relation.reflTransGen_iff_eq_or_transGen.mp hpath with heq | htrans
  · have := h.unique_on_rank hfits ⟨hblock, hgi, hp _ hpi⟩ ⟨hblock, hgj, hp _ hpj⟩ heq.symm rfl
    have : i = j := congrArg (fun e => e.2.1) this
    omega
  · exact htrans

/-- A list of which no two members coexist has at most one member. -/
theorem length_le_one_of_pairwise_false {α : Type} {l : List α}
    (h : l.Pairwise fun _ _ => False) : l = [] ∨ ∃ a, l = [a] := by
  match l, h with
  | [], _ => exact Or.inl rfl
  | [a], _ => exact Or.inr ⟨a, rfl⟩
  | a :: b :: _, h => exact absurd ((List.pairwise_cons.mp h).1 b List.mem_cons_self) id

/-- **The sends of a connection are a chain**: one block issues them all. -/
theorem Accepted.sendsOn_chain (h : Accepted program result) (hfits : Fits program)
    (src dst : ℕ) (channel : ℤ) :
    (sendsOn program src dst channel).Pairwise (Relation.TransGen result.Edge) := by
  have hone : (program.blocks.filter fun b : NativeBlock =>
      b.rank = src ∧ b.sendPeer = dst ∧ b.channel = channel).Pairwise fun _ _ => False := by
    rw [List.pairwise_filter]
    refine hfits.send_owner.imp ?_
    intro a b hab ha hb
    simp only [decide_eq_true_eq] at ha hb
    exact hab (by omega) ⟨by omega, by omega, by omega⟩
  unfold sendsOn
  rcases length_le_one_of_pairwise_false hone with hnil | ⟨b, hb⟩
  · rw [hnil]
    exact List.Pairwise.nil
  · have hmem : b ∈ program.blocks := List.mem_of_mem_filter (hb ▸ List.mem_singleton_self b)
    rw [hb, List.flatMap_singleton]
    refine h.block_chain hfits hmem fun step hk => ?_
    simp only [decide_eq_true_eq] at hk
    rw [hk]
    decide

/-- **The receives of a connection are a chain**: one block posts them all. -/
theorem Accepted.receivesOn_chain (h : Accepted program result) (hfits : Fits program)
    (src dst : ℕ) (channel : ℤ) :
    (receivesOn program src dst channel).Pairwise (Relation.TransGen result.Edge) := by
  have hone : (program.blocks.filter fun b : NativeBlock =>
      b.rank = dst ∧ b.recvPeer = src ∧ b.channel = channel).Pairwise fun _ _ => False := by
    rw [List.pairwise_filter]
    refine hfits.recv_owner.imp ?_
    intro a b hab ha hb
    simp only [decide_eq_true_eq] at ha hb
    exact hab (by omega) ⟨by omega, by omega, by omega⟩
  unfold receivesOn
  rcases length_le_one_of_pairwise_false hone with hnil | ⟨b, hb⟩
  · rw [hnil]
    exact List.Pairwise.nil
  · have hmem : b ∈ program.blocks := List.mem_of_mem_filter (hb ▸ List.mem_singleton_self b)
    rw [hb, List.flatMap_singleton]
    refine h.block_chain hfits hmem fun step hk hnop => ?_
    rw [hnop] at hk
    simp [StepKind.receives] at hk

/-- The relation has no cycle. -/
theorem Accepted.acyclic (h : Accepted program result) (x : String) :
    ¬ Relation.TransGen result.Edge x x := by
  obtain ⟨level, hlevel, -⟩ := h.level
  have hup : ∀ {a b}, Relation.TransGen result.Edge a b → level a < level b := by
    intro a b hab
    induction hab with
    | single he => exact hlevel _ _ he
    | tail _ he ih => exact ih.trans (hlevel _ _ he)
  intro hx
  exact Nat.lt_irrefl _ (hup hx)

/-- **Sends and receives of a connection agree position by position.** -/
theorem Accepted.sendsOn_eq_receivesOn (h : Accepted program result) (hfits : Fits program)
    (src dst : ℕ) (channel : ℤ) :
    sendsOn program src dst channel = receivesOn program src dst channel := by
  have hs := h.sendsOn_chain hfits src dst channel
  have hr := h.receivesOn_chain hfits src dst channel
  have hne : ∀ {a b}, Relation.TransGen result.Edge a b → a ≠ b := by
    rintro a b hab rfl
    exact h.acyclic a hab
  refine List.Perm.eq_of_pairwise ?_ hs hr ?_
  · intro a b _ _ hab hba
    exact absurd (hab.trans hba) (h.acyclic a)
  · exact (List.perm_ext_iff_of_nodup (hs.imp hne) (hr.imp hne)).mpr fun x => h.sends_iff_receives

end

end VeriCCL
