import VeriCCL.CompactBdd
import VeriCCL.Identifiers

/-! # Decision diagrams compute set algebra

Every node that `CompactBDD` builds holds of an assignment exactly when the row that the
assignment spells is in the set that the expression stands for (`build_spec`).  Codes without a
number are in none of these sets, since a complement is relative to the product of the domains;
so the enumeration gives back exactly the rows (`bdd_set_algebra`). -/
namespace VeriCCL

/-! ## Variables -/

theorem ofDigitChars_twoDigits (n : ℕ) : Nat.ofDigitChars 10 (twoDigits n).toList 0 = n := by
  have hvalue : Nat.ofDigitChars 10 (toString n).toList 0 = n := Identifiers.ofDigitChars_zeros 0 n
  unfold twoDigits
  split
  · have hzero : ("0" : String).toList = ['0'] := by decide
    rw [String.toList_append, hzero, List.singleton_append, Nat.ofDigitChars_cons]
    exact hvalue
  · exact hvalue

theorem b_notMem_twoDigits (n : ℕ) : 'b' ∉ (twoDigits n).toList := by
  have hdigits : 'b' ∉ (toString n).toList := by
    intro h
    have := Identifiers.isDigit_of_mem_nat h
    revert this
    decide
  unfold twoDigits
  split
  · have hzero : ("0" : String).toList = ['0'] := by decide
    rw [String.toList_append, hzero, List.singleton_append, List.mem_cons, not_or]
    exact ⟨by decide, hdigits⟩
  · exact hdigits

/-- **A variable's name determines its field and its bit.** -/
theorem bitVariable_inj {field other : String} {bit place : ℕ}
    (h : bitVariable field bit = bitVariable other place) : field = other ∧ bit = place := by
  have hlist := congrArg (fun text => text.toList.reverse) h
  have hmark : ("__b" : String).toList = ['_', '_', 'b'] := by decide
  simp only [bitVariable, String.toList_append, hmark, List.reverse_append, List.reverse_cons,
    List.nil_append, List.cons_append, List.append_assoc] at hlist
  obtain ⟨hdigits, hrest⟩ := Identifiers.list_separator_inj
    (by simpa using b_notMem_twoDigits bit) (by simpa using b_notMem_twoDigits place) hlist
  have hfield : field.toList.reverse = other.toList.reverse := by simpa using hrest
  refine ⟨String.ext (List.reverse_injective hfield), ?_⟩
  rw [← ofDigitChars_twoDigits bit, ← ofDigitChars_twoDigits place,
    List.reverse_injective hdigits]

theorem hasBit_iff {value bit : ℕ} : hasBit value bit ↔ value.testBit bit = true := by
  rw [hasBit, Nat.one_shiftLeft, Nat.and_two_pow]
  cases value.testBit bit <;> simp

/-- The codes of a field are enough for its numbers. -/
theorem size_le_codes {size : ℕ} (h : 1 ≤ size) : size ≤ 2 ^ fieldWidth size := by
  have hlt : size - 1 < 2 ^ (size - 1).size := Nat.lt_size_self _
  have hpow : 2 ^ (size - 1).size ≤ 2 ^ fieldWidth size :=
    Nat.pow_le_pow_right (by decide) (le_max_right _ _)
  omega

/-! ## What an assignment spells -/

/-- The number of a field. -/
def fieldValue (d : String × ℕ) (a : String → Bool) : ℕ :=
  BinaryWords.bitsValue (fun bit => a (bitVariable d.1 bit)) (fieldWidth d.2)

/-- The row. -/
def rowOf (bdd : CompactBdd) (a : String → Bool) : List ℕ :=
  bdd.domains.map fun d => fieldValue d a

/-- The product of the domains. -/
def CompactBdd.product (bdd : CompactBdd) : Set (List ℕ) :=
  {row | List.Forall₂ (fun value d => value < d.2) row bdd.domains}

theorem rowOf_mem_product {bdd : CompactBdd} {a : String → Bool} :
    rowOf bdd a ∈ bdd.product ↔ ∀ d ∈ bdd.domains, fieldValue d a < d.2 := by
  rw [CompactBdd.product, Set.mem_ofPred_eq, rowOf, List.forall₂_map_left_iff, List.forall₂_same]

section Nodes

variable {m : BddManager} {holds : m.Node → (String → Bool) → Prop} (hexact : m.Exact holds)
include hexact

/-- A conjunction over a list. -/
theorem holds_foldl_conj {α : Type} (f : α → m.Node) (l : List α) (x : m.Node) (a : String → Bool) :
    holds (l.foldl (fun node e => m.conj node (f e)) x) a ↔ holds x a ∧ ∀ e ∈ l, holds (f e) a := by
  induction l generalizing x with
  | nil => simp
  | cons e l ih => rw [List.foldl_cons, ih, hexact.conj, List.forall_mem_cons, and_assoc]

/-- The comparison of `_domain_bound`, place by place. -/
theorem holds_boundStep (d : String × ℕ) (a : String → Bool) {steps : ℕ}
    (hsteps : steps ≤ fieldWidth d.2) :
    (holds (((List.range steps).map fun k => fieldWidth d.2 - 1 - k).foldl
        (CompactBdd.boundStep m d) (m.bottom, m.top)).1 a ↔
      (BinaryWords.compareBits (fun bit => a (bitVariable d.1 bit)) d.2 (fieldWidth d.2) steps).1) ∧
    (holds (((List.range steps).map fun k => fieldWidth d.2 - 1 - k).foldl
        (CompactBdd.boundStep m d) (m.bottom, m.top)).2 a ↔
      (BinaryWords.compareBits (fun bit => a (bitVariable d.1 bit)) d.2 (fieldWidth d.2) steps).2) := by
  induction steps with
  | zero => simp [BinaryWords.compareBits, hexact.top, hexact.bottom]
  | succ steps ih =>
    obtain ⟨hless, hequal⟩ := ih (by omega)
    rw [List.range_succ, List.map_append, List.foldl_append, List.map_singleton, List.foldl_cons,
      List.foldl_nil, CompactBdd.boundStep, BinaryWords.compareBits]
    by_cases hbit : d.2.testBit (fieldWidth d.2 - 1 - steps) = true
    · simp only [hasBit_iff, hbit, if_true, hexact.disj, hexact.conj, hexact.neg, hexact.var, hless,
        hequal, Bool.not_eq_true, and_self]
    · simp only [hasBit_iff, hbit, if_false, hexact.conj, hexact.neg, hexact.var, hless, hequal,
        Bool.not_eq_true, and_self, Bool.false_eq_true]

/-- **`_domain_bound` holds of the codes below the size.** -/
theorem holds_domainBound {d : String × ℕ} (hsize : 1 ≤ d.2) (a : String → Bool) :
    holds (CompactBdd.domainBound m d) a ↔ fieldValue d a < d.2 := by
  unfold CompactBdd.domainBound
  split
  · rename_i hfull
    refine iff_of_true (hexact.top a) ?_
    calc fieldValue d a < 2 ^ fieldWidth d.2 := BinaryWords.bitsValue_lt _ _
      _ = d.2 := by rw [← Nat.one_shiftLeft, ← hfull]
  · rename_i hpartial
    have hlt : d.2 < 2 ^ fieldWidth d.2 := by
      rw [Nat.one_shiftLeft] at hpartial
      exact lt_of_le_of_ne (size_le_codes hsize) hpartial
    have hreverse : (List.range (fieldWidth d.2)).reverse =
        (List.range (fieldWidth d.2)).map fun k => fieldWidth d.2 - 1 - k := by
      rw [List.range_eq_range', List.reverse_range', ← List.range_eq_range', Nat.zero_add]
    rw [hreverse, (holds_boundStep hexact d a le_rfl).1]
    exact BinaryWords.compareBits_lt hlt

theorem holds_universeNode (bdd : CompactBdd) (a : String → Bool) :
    holds (bdd.universeNode m) a ↔ rowOf bdd a ∈ bdd.product := by
  rw [CompactBdd.universeNode, holds_foldl_conj hexact, rowOf_mem_product]
  constructor
  · exact fun h d hd => (holds_domainBound hexact (bdd.sizes_pos d hd) a).mp (h.2 d hd)
  · exact fun h => ⟨hexact.top a, fun d hd =>
      (holds_domainBound hexact (bdd.sizes_pos d hd) a).mpr (h d hd)⟩

/-- **A cube holds of the codes of its number.** -/
theorem holds_cubeOf {d : String × ℕ} {value : ℕ} (hvalue : value < d.2) (a : String → Bool) :
    holds (CompactBdd.cubeOf m d value) a ↔ fieldValue d a = value := by
  have hcode : value < 2 ^ fieldWidth d.2 := hvalue.trans_le (size_le_codes (by omega))
  rw [fieldValue, BinaryWords.bitsValue_eq_iff hcode]
  unfold CompactBdd.cubeOf
  rw [holds_foldl_conj hexact]
  simp only [hexact.top, true_and, List.mem_range]
  refine forall₂_congr fun bit _ => ?_
  by_cases hbit : value.testBit bit = true
  · simp [hasBit_iff, hbit, hexact.var]
  · simp [hasBit_iff, hbit, hexact.var, hexact.neg]

end Nodes

/-! ## Rows -/

/-- The row has one number of every domain. -/
def RowInDomain (bdd : CompactBdd) (row : List ℤ) : Prop :=
  row.length = bdd.domains.length ∧ ∀ e ∈ row.zip bdd.domains, 0 ≤ e.1 ∧ e.1 < e.2.2

theorem checkRow_ok {bdd : CompactBdd} {row : List ℤ} {u : Unit} :
    bdd.checkRow row = .ok u ↔ RowInDomain bdd row := by
  simp [CompactBdd.checkRow, RowInDomain]

/-- The cache holds the cubes of its keys. -/
def CacheValid (m : BddManager) (bdd : CompactBdd) (cache : CubeCache m) : Prop :=
  ∀ d ∈ bdd.domains, ∀ value node, cache.get? (d.1, value) = some node →
    node = CompactBdd.cubeOf m d value

section Rows

variable {m : BddManager} {bdd : CompactBdd} {cache : CubeCache m}

theorem valueCube_spec (hcache : CacheValid m bdd cache) {d : String × ℕ} (hd : d ∈ bdd.domains)
    (value : ℕ) : (CompactBdd.valueCube m cache d value).1 = CompactBdd.cubeOf m d value ∧
      CacheValid m bdd (CompactBdd.valueCube m cache d value).2 := by
  unfold CompactBdd.valueCube
  cases hget : cache.get? (d.1, value) with
  | some node => exact ⟨hcache d hd value node hget, hcache⟩
  | none =>
    refine ⟨rfl, fun other hother number node hnode => ?_⟩
    rw [Dict.get?_set] at hnode
    split at hnode
    · rename_i hkey
      obtain ⟨hfield, rfl⟩ := Prod.mk.inj hkey
      obtain rfl : d = other := List.inj_on_of_nodup_map bdd.fields_unique hd hother hfield
      exact (Option.some.inj hnode).symm
    · exact hcache other hother number node hnode

/-- The cube of some fields, and the cache. -/
theorem foldl_valueCube {holds : m.Node → (String → Bool) → Prop} (hexact : m.Exact holds)
    (hcache : CacheValid m bdd cache) {entries : List ((String × ℕ) × ℤ)}
    (hentries : ∀ e ∈ entries, e.1 ∈ bdd.domains) (x : m.Node) :
    let folded := entries.foldl (fun acc e =>
      (m.conj acc.1 (CompactBdd.valueCube m acc.2 e.1 e.2.toNat).1,
        (CompactBdd.valueCube m acc.2 e.1 e.2.toNat).2)) (x, cache)
    (∀ a, holds folded.1 a ↔ holds x a ∧
      ∀ e ∈ entries, holds (CompactBdd.cubeOf m e.1 e.2.toNat) a) ∧
    CacheValid m bdd folded.2 := by
  induction entries generalizing x cache with
  | nil => exact ⟨fun a => by simp, hcache⟩
  | cons e entries ih =>
    obtain ⟨hcube, hvalid⟩ := valueCube_spec hcache (hentries e List.mem_cons_self) e.2.toNat
    obtain ⟨hholds, hafter⟩ := ih hvalid (fun e' he' => hentries e' (List.mem_cons_of_mem _ he'))
      (m.conj x (CompactBdd.valueCube m cache e.1 e.2.toNat).1)
    refine ⟨fun a => ?_, hafter⟩
    rw [List.foldl_cons, hholds, hcube, hexact.conj, List.forall_mem_cons, and_assoc]

/-- The row that a relation lists, as numbers. -/
theorem zip_cubes {row : List ℤ} (hrow : RowInDomain bdd row) (a : String → Bool) :
    (∀ e ∈ bdd.domains.zip row, fieldValue e.1 a = e.2.toNat) ↔
      (rowOf bdd a).map (fun n : ℕ => (n : ℤ)) = row := by
  obtain ⟨hlength, hrange⟩ := hrow
  rw [rowOf]
  generalize bdd.domains = domains at *
  induction domains generalizing row with
  | nil =>
    obtain rfl := List.length_eq_zero_iff.mp hlength
    simp
  | cons d domains ih =>
    cases row with
    | nil => simp at hlength
    | cons value row =>
      have hvalue := (hrange (value, d) List.mem_cons_self).1
      simp only [List.zip_cons_cons, List.forall_mem_cons, List.map_cons, List.cons.injEq]
      rw [ih (by simpa using hlength) fun e he => hrange e (List.mem_cons_of_mem _ he)]
      refine and_congr_left fun _ => ?_
      omega

/-- **The cube of a row** holds of the assignments that spell it. -/
theorem rowCube_spec {holds : m.Node → (String → Bool) → Prop} (hexact : m.Exact holds)
    (hcache : CacheValid m bdd cache) {row : List ℤ} (hrow : RowInDomain bdd row) :
    (∀ a, holds (bdd.rowCube m cache row).1 a ↔
      (rowOf bdd a).map (fun n : ℕ => (n : ℤ)) = row) ∧
    CacheValid m bdd (bdd.rowCube m cache row).2 := by
  obtain ⟨hholds, hvalid⟩ := foldl_valueCube hexact hcache
    (fun e (he : e ∈ bdd.domains.zip row) => (List.of_mem_zip he).1) m.top
  refine ⟨fun a => (hholds a).trans ?_, hvalid⟩
  rw [← zip_cubes hrow a]
  simp only [hexact.top, true_and]
  refine forall₂_congr fun e he => ?_
  have hswap : (e.2, e.1) ∈ row.zip bdd.domains := by
    rw [← List.zip_swap]
    exact List.mem_map.mpr ⟨e, he, rfl⟩
  obtain ⟨hnonneg, hlt⟩ := hrow.2 _ hswap
  exact holds_cubeOf hexact (by dsimp only at hnonneg hlt; omega) a

/-- **A relation holds of the assignments that spell one of its rows.** -/
theorem relation_spec {holds : m.Node → (String → Bool) → Prop} (hexact : m.Exact holds)
    (hcache : CacheValid m bdd cache) {rows : List (List ℤ)}
    (hrows : ∀ row ∈ rows, RowInDomain bdd row) :
    ∃ node, (bdd.relation m cache rows).1 = .ok node ∧
      (∀ a, holds node a ↔ (rowOf bdd a).map (fun n : ℕ => (n : ℤ)) ∈ rows) ∧
      CacheValid m bdd (bdd.relation m cache rows).2 := by
  have hfold : ∀ (l : List (List ℤ)), (∀ row ∈ l, RowInDomain bdd row) →
      ∀ (x : m.Node) (cache : CubeCache m), CacheValid m bdd cache →
      let folded := l.foldl (fun acc row =>
        (m.disj acc.1 (bdd.rowCube m acc.2 row).1, (bdd.rowCube m acc.2 row).2)) (x, cache)
      (∀ a, holds folded.1 a ↔
        holds x a ∨ (rowOf bdd a).map (fun n : ℕ => (n : ℤ)) ∈ l) ∧
      CacheValid m bdd folded.2 := by
    intro l
    induction l with
    | nil => exact fun _ x cache hcache => ⟨fun a => by simp, hcache⟩
    | cons row l ih =>
      intro hl x cache hcache
      obtain ⟨hcube, hvalid⟩ := rowCube_spec hexact hcache (hl row List.mem_cons_self)
      obtain ⟨hholds, hafter⟩ := ih (fun r hr => hl r (List.mem_cons_of_mem _ hr))
        (m.disj x (bdd.rowCube m cache row).1) _ hvalid
      refine ⟨fun a => ?_, hafter⟩
      rw [List.foldl_cons, hholds, hexact.disj, hcube, List.mem_cons, or_assoc]
  have hchecks : rows.forM bdd.checkRow = .ok () :=
    Checked.forM_ok.mpr fun row hrow => checkRow_ok.mpr (hrows row hrow)
  obtain ⟨hholds, hvalid⟩ := hfold rows hrows m.bottom cache hcache
  refine ⟨_, by simp only [CompactBdd.relation, hchecks], fun a => (hholds a).trans ?_, ?_⟩
  · simp [hexact.bottom]
  · simpa only [CompactBdd.relation, hchecks] using hvalid

/-- A relation with another row is refused. -/
theorem relation_refused (cache : CubeCache m) {rows : List (List ℤ)} (hrows : ¬ ∀ row ∈ rows, RowInDomain bdd row) :
    ∃ e, bdd.relation m cache rows = (.error e, cache) := by
  cases hchecks : rows.forM bdd.checkRow with
  | ok u =>
    exact absurd (fun row hrow => checkRow_ok.mp (Checked.forM_ok.mp hchecks row hrow)) hrows
  | error e => exact ⟨e, by simp only [CompactBdd.relation, hchecks]⟩

end Rows

/-! ## Expressions -/

namespace RelationExpr

variable (bdd : CompactBdd)

/-- The set that an expression stands for, in the product of the domains. -/
def denote : RelationExpr → Set (List ℕ)
  | .relation rows => {row | row.map (fun n : ℕ => (n : ℤ)) ∈ rows}
  | .union left right => left.denote ∪ right.denote
  | .intersection left right => left.denote ∩ right.denote
  | .difference left right => left.denote \ right.denote
  | .complement operand => bdd.product \ operand.denote

/-- All rows of an expression are in the product of the domains. -/
def RowsValid : RelationExpr → Prop
  | .relation rows => ∀ row ∈ rows, RowInDomain bdd row
  | .union left right => left.RowsValid ∧ right.RowsValid
  | .intersection left right => left.RowsValid ∧ right.RowsValid
  | .difference left right => left.RowsValid ∧ right.RowsValid
  | .complement operand => operand.RowsValid

variable {bdd}

theorem mem_product_of_row {row : List ℕ} (h : RowInDomain bdd (row.map fun n : ℕ => (n : ℤ))) :
    row ∈ bdd.product := by
  obtain ⟨hlength, hrange⟩ := h
  refine List.forall₂_iff_zip.mpr ⟨by simpa using hlength, fun {value d} hmem => ?_⟩
  have hzip : ((value : ℤ), d) ∈ (row.map fun n : ℕ => (n : ℤ)).zip bdd.domains := by
    rw [List.zip_map_left]
    exact List.mem_map.mpr ⟨(value, d), hmem, rfl⟩
  have hlt := (hrange _ hzip).2
  dsimp only at hlt
  exact_mod_cast hlt

/-- **No code without a number is in the set of an expression.** -/
theorem denote_subset {expr : RelationExpr} (h : expr.RowsValid bdd) :
    expr.denote bdd ⊆ bdd.product := by
  induction expr with
  | relation rows => exact fun row hrow => mem_product_of_row (h _ hrow)
  | union left right ihl ihr => exact Set.union_subset (ihl h.1) (ihr h.2)
  | intersection left right ihl _ => exact Set.inter_subset_left.trans (ihl h.1)
  | difference left right ihl _ => exact Set.sdiff_subset.trans (ihl h.1)
  | complement operand => exact Set.sdiff_subset

variable {m : BddManager} {cache : CubeCache m}

/-- What building a node should give. -/
def Builds (holds : m.Node → (String → Bool) → Prop) (bdd : CompactBdd)
    (built : Except String m.Node × CubeCache m) (rows : Set (List ℕ)) : Prop :=
  ∃ node, built.1 = .ok node ∧ (∀ a, holds node a ↔ rowOf bdd a ∈ rows) ∧
    CacheValid m bdd built.2

section Both
variable {operation : m.Node → m.Node → m.Node} {left : Except String m.Node × CubeCache m}
  {right : CubeCache m → Except String m.Node × CubeCache m} {x y : m.Node} {e : String}

theorem both_ok (hx : left.1 = .ok x) (hy : (right left.2).1 = .ok y) :
    RelationExpr.both m operation left right = (.ok (operation x y), (right left.2).2) := by
  obtain ⟨first, cache⟩ := left
  obtain rfl : first = .ok x := hx
  exact Prod.ext (congrArg (Except.map (operation x)) hy) rfl

theorem both_left (he : left.1 = .error e) : RelationExpr.both m operation left right = (.error e, left.2) := by
  obtain ⟨first, cache⟩ := left
  obtain rfl : first = .error e := he
  rfl

theorem both_right (hx : left.1 = .ok x) (he : (right left.2).1 = .error e) :
    RelationExpr.both m operation left right = (.error e, (right left.2).2) := by
  obtain ⟨first, cache⟩ := left
  obtain rfl : first = .ok x := hx
  exact Prod.ext (congrArg (Except.map (operation x)) he) rfl

theorem build_complement {operand : RelationExpr} {inner : Except String m.Node}
    (h : (operand.build m bdd cache).1 = inner) : ((complement operand).build m bdd cache).1 =
      inner.map fun x => m.conj (bdd.universeNode m) (m.neg x) := h ▸ rfl

end Both

theorem Builds.both {holds : m.Node → (String → Bool) → Prop} {operation : m.Node → m.Node → m.Node}
    {left : Except String m.Node × CubeCache m}
    {right : CubeCache m → Except String m.Node × CubeCache m} {rows rows' result : Set (List ℕ)}
    (hleft : Builds holds bdd left rows)
    (hright : ∀ cache, CacheValid m bdd cache → Builds holds bdd (right cache) rows')
    (hoperation : ∀ x y a, (holds x a ↔ rowOf bdd a ∈ rows) → (holds y a ↔ rowOf bdd a ∈ rows') →
      (holds (operation x y) a ↔ rowOf bdd a ∈ result)) :
    Builds holds bdd (RelationExpr.both m operation left right) result := by
  obtain ⟨x, hx, hholds, hvalid⟩ := hleft
  obtain ⟨y, hy, hholds', hvalid'⟩ := hright left.2 hvalid
  rw [both_ok hx hy]
  exact ⟨operation x y, rfl, fun a => hoperation x y a (hholds a) (hholds' a), hvalid'⟩

/-- **The node of an expression holds of the assignments that spell a row of its set.** -/
theorem build_spec {holds : m.Node → (String → Bool) → Prop} (hexact : m.Exact holds)
    {expr : RelationExpr} (h : expr.RowsValid bdd) (hcache : CacheValid m bdd cache) :
    Builds holds bdd (expr.build m bdd cache) (expr.denote bdd) := by
  induction expr generalizing cache with
  | relation rows => exact relation_spec hexact hcache h
  | union left right ihl ihr =>
    refine (ihl h.1 hcache).both (fun cache hcache => ihr h.2 hcache) fun x y a hx hy => ?_
    rw [hexact.disj, hx, hy]
    rfl
  | intersection left right ihl ihr =>
    refine (ihl h.1 hcache).both (fun cache hcache => ihr h.2 hcache) fun x y a hx hy => ?_
    rw [hexact.conj, hx, hy]
    rfl
  | difference left right ihl ihr =>
    refine (ihl h.1 hcache).both (fun cache hcache => ihr h.2 hcache) fun x y a hx hy => ?_
    rw [hexact.conj, hexact.neg, hx, hy]
    rfl
  | complement operand ih =>
    obtain ⟨x, hx, hholds, hvalid⟩ := ih h hcache
    refine ⟨m.conj (bdd.universeNode m) (m.neg x), ?_, fun a => ?_, hvalid⟩
    · rw [build_complement hx]
      rfl
    · rw [hexact.conj, hexact.neg, holds_universeNode hexact, hholds]
      rfl

theorem both_refused {operation : m.Node → m.Node → m.Node}
    {left : Except String m.Node × CubeCache m}
    {right : CubeCache m → Except String m.Node × CubeCache m}
    (h : (∃ e, left.1 = .error e) ∨ ∀ cache, ∃ e, (right cache).1 = .error e) :
    ∃ e, (RelationExpr.both m operation left right).1 = .error e := by
  cases hleft : left.1 with
  | error e => exact ⟨e, by rw [both_left hleft]⟩
  | ok x =>
    rcases h with ⟨e, he⟩ | hright
    · cases hleft.symm.trans he
    · obtain ⟨e, he⟩ := hright left.2
      exact ⟨e, by rw [both_right hleft he]⟩

/-- An expression with another row is refused. -/
theorem build_refused {expr : RelationExpr} (h : ¬ expr.RowsValid bdd) (cache : CubeCache m) :
    ∃ e, (expr.build m bdd cache).1 = .error e := by
  induction expr generalizing cache with
  | relation rows =>
    obtain ⟨e, he⟩ := relation_refused cache h
    exact ⟨e, congrArg Prod.fst he⟩
  | union left right ihl ihr =>
    exact both_refused ((not_and_or.mp h).imp (fun h => ihl h cache) ihr)
  | intersection left right ihl ihr =>
    exact both_refused ((not_and_or.mp h).imp (fun h => ihl h cache) ihr)
  | difference left right ihl ihr =>
    exact both_refused ((not_and_or.mp h).imp (fun h => ihl h cache) ihr)
  | complement operand ih =>
    obtain ⟨e, he⟩ := ih h cache
    refine ⟨e, ?_⟩
    rw [build_complement he]
    rfl

theorem both_cache {operation : m.Node → m.Node → m.Node}
    {left : Except String m.Node × CubeCache m}
    {right : CubeCache m → Except String m.Node × CubeCache m} (hleft : CacheValid m bdd left.2)
    (hright : ∀ cache, CacheValid m bdd cache → CacheValid m bdd (right cache).2) :
    CacheValid m bdd (RelationExpr.both m operation left right).2 := by
  have hsecond := hright _ hleft
  cases hfirst : left.1 with
  | error e => rwa [both_left hfirst]
  | ok x =>
    cases hother : (right left.2).1 with
    | error e => rwa [both_right hfirst hother]
    | ok y => rwa [both_ok hfirst hother]

/-- **Every expression leaves a valid cache**, also one that is refused. -/
theorem build_cache {holds : m.Node → (String → Bool) → Prop} (hexact : m.Exact holds)
    (expr : RelationExpr) (hcache : CacheValid m bdd cache) :
    CacheValid m bdd (expr.build m bdd cache).2 := by
  induction expr generalizing cache with
  | relation rows =>
    by_cases hrows : ∀ row ∈ rows, RowInDomain bdd row
    · obtain ⟨-, -, -, hvalid⟩ := relation_spec hexact hcache hrows
      exact hvalid
    · obtain ⟨e, he⟩ := relation_refused cache hrows
      have hbuild : (RelationExpr.relation rows).build m bdd cache = (.error e, cache) := he
      rwa [hbuild]
  | union left right ihl ihr => exact both_cache (ihl hcache) fun _ h => ihr h
  | intersection left right ihl ihr => exact both_cache (ihl hcache) fun _ h => ihr h
  | difference left right ihl ihr => exact both_cache (ihl hcache) fun _ h => ihr h
  | complement operand ih => exact ih hcache

theorem cacheAfter_valid {holds : m.Node → (String → Bool) → Prop} (hexact : m.Exact holds)
    (earlier : List RelationExpr) : CacheValid m bdd (cacheAfter m bdd earlier) := by
  induction earlier using List.reverseRecOn with
  | nil =>
    intro d _ value node hget
    cases hget
  | append_singleton earlier expr ih =>
    rw [cacheAfter, List.foldl_append]
    exact build_cache hexact expr ih

end RelationExpr

/-! ## Enumeration -/

section Enumeration

variable {bdd : CompactBdd}

/-- The assignment that a picked one stands for. -/
def extension (picked : Dict String Bool) (v : String) : Bool := (picked.get? v).getD false

theorem mem_careVariables {d : String × ℕ} (hd : d ∈ bdd.domains) {bit : ℕ}
    (hbit : bit < fieldWidth d.2) : bitVariable d.1 bit ∈ bdd.careVariables :=
  List.mem_flatMap.mpr ⟨d, hd, List.mem_map.mpr ⟨bit, List.mem_range.mpr hbit, rfl⟩⟩

theorem decodeField_ok {picked : Dict String Bool}
    (hpicked : ∀ v ∈ bdd.careVariables, ∃ b, picked.get? v = some b) {d : String × ℕ}
    (hd : d ∈ bdd.domains) :
    CompactBdd.decodeField picked d = .ok (fieldValue d (extension picked)) := by
  have hbits : (List.range (fieldWidth d.2)).mapM (fun bit => do
      let b ← Checked.required (picked.get? (bitVariable d.1 bit)) (bitVariable d.1 bit)
      return (if b = true then 1 <<< bit else 0)) = Except.ok ((List.range (fieldWidth d.2)).map
        fun bit => if extension picked (bitVariable d.1 bit) = true then 2 ^ bit else 0) := by
    refine Checked.mapM_pure fun bit hbit => ?_
    obtain ⟨b, hb⟩ := hpicked _ (mem_careVariables hd (List.mem_range.mp hbit))
    simp [extension, hb, Checked.required, Nat.one_shiftLeft]
  simp only [CompactBdd.decodeField, hbits, fieldValue, BinaryWords.bitsValue_eq_sum]
  rfl

/-- **A row is read off an assignment** unless it is not in the product. -/
theorem decodeRow_ok {picked : Dict String Bool}
    (hpicked : ∀ v ∈ bdd.careVariables, ∃ b, picked.get? v = some b)
    {domains : List (String × ℕ)} (hdomains : ∀ d ∈ domains, d ∈ bdd.domains) :
    CompactBdd.decodeRow picked domains = .ok
      (if ∀ d ∈ domains, fieldValue d (extension picked) < d.2
        then some (domains.map fun d => fieldValue d (extension picked)) else none) := by
  induction domains with
  | nil => simp [CompactBdd.decodeRow]
  | cons d domains ih =>
    have hvalue := decodeField_ok hpicked (hdomains d List.mem_cons_self)
    have hrest := ih fun e he => hdomains e (List.mem_cons_of_mem _ he)
    rw [CompactBdd.decodeRow, hvalue, hrest]
    change (if d.2 ≤ fieldValue d (extension picked) then Except.ok none else
      Except.ok (Option.map (fieldValue d (extension picked) :: ·) _)) = _
    have hall : (∀ e ∈ d :: domains, fieldValue e (extension picked) < e.2) ↔
        fieldValue d (extension picked) < d.2 ∧
          ∀ e ∈ domains, fieldValue e (extension picked) < e.2 := List.forall_mem_cons
    by_cases hd : fieldValue d (extension picked) < d.2
    · rw [if_neg (not_le.mpr hd)]
      by_cases hmore : ∀ e ∈ domains, fieldValue e (extension picked) < e.2
      · rw [if_pos hmore, if_pos (hall.mpr ⟨hd, hmore⟩)]
        rfl
      · rw [if_neg hmore, if_neg fun h => hmore (hall.mp h).2]
        rfl
    · rw [if_pos (not_lt.mp hd), if_neg fun h => hd (hall.mp h).1]

/-- An assignment that spells a row. -/
noncomputable def spelling (bdd : CompactBdd) (row : List ℕ) (v : String) : Bool :=
  open Classical in
  decide (∃ e ∈ bdd.domains.zip row, ∃ bit < fieldWidth e.1.2,
    v = bitVariable e.1.1 bit ∧ e.2.testBit bit = true)

/-- **Every row of the product is spelled.** -/
theorem rowOf_spelling {row : List ℕ} (hrow : row ∈ bdd.product) :
    rowOf bdd (spelling bdd row) = row := by
  have hlength : row.length = bdd.domains.length := hrow.length_eq
  have hfst : (bdd.domains.zip row).map (·.1) = bdd.domains := List.map_fst_zip hlength.ge
  have hfields : ((bdd.domains.zip row).map fun e => e.1.1).Nodup := by
    have hmap : (bdd.domains.zip row).map (fun e => e.1.1) =
        ((bdd.domains.zip row).map (·.1)).map (·.1) := (List.map_map ..).symm
    rw [hmap, hfst]
    exact bdd.fields_unique
  have hfield : ∀ e ∈ bdd.domains.zip row, fieldValue e.1 (spelling bdd row) = e.2 := by
    intro e he
    have hdomain := (List.of_mem_zip he).1
    have hvalue : e.2 < e.1.2 := by
      have hswap : (e.2, e.1) ∈ row.zip bdd.domains := by
        rw [← List.zip_swap]
        exact List.mem_map.mpr ⟨e, he, rfl⟩
      exact (List.forall₂_iff_zip.mp hrow).2 hswap
    have hcode : e.2 < 2 ^ fieldWidth e.1.2 :=
      hvalue.trans_le (size_le_codes (bdd.sizes_pos _ hdomain))
    rw [fieldValue, BinaryWords.bitsValue_eq_iff hcode]
    intro bit hbit
    rw [Bool.eq_iff_iff, spelling, decide_eq_true_iff]
    constructor
    · rintro ⟨other, hother, place, -, hname, hset⟩
      obtain ⟨hfield, rfl⟩ := bitVariable_inj hname
      rwa [List.inj_on_of_nodup_map hfields he hother hfield]
    · exact fun hset => ⟨e, he, bit, hbit, rfl, hset⟩
  calc rowOf bdd (spelling bdd row)
      = (bdd.domains.zip row).map fun e => fieldValue e.1 (spelling bdd row) := by
        rw [rowOf, ← hfst, List.map_map, hfst]
        rfl
    _ = (bdd.domains.zip row).map (·.2) := List.map_congr_left hfield
    _ = row := List.map_snd_zip hlength.le

/-- What the enumeration of a set of rows gives. -/
def Enumerates (rows : List (List ℕ)) (set : Set (List ℕ)) : Prop :=
  rows.Pairwise (· < ·) ∧ ∀ row, row ∈ rows ↔ row ∈ set

/-- **`tuples()` lists the rows that a node holds of**, sorted and each once. -/
theorem tuples_spec {m : BddManager} {holds : m.Node → (String → Bool) → Prop}
    (hexact : m.Exact holds) {node : m.Node} {set : Set (List ℕ)} (hset : set ⊆ bdd.product)
    (hnode : ∀ a, holds node a ↔ rowOf bdd a ∈ set) :
    ∃ rows, bdd.tuples m node = .ok rows ∧ Enumerates rows set := by
  have hagree : ∀ picked : Dict String Bool, ∀ v b, picked.get? v = some b →
      extension picked v = b := by
    intro picked v b hb
    rw [extension, hb, Option.getD_some]
  -- every picked assignment spells a row of the set
  have hpicked : ∀ picked ∈ m.pickIter node bdd.careVariables,
      CompactBdd.decodeRow picked bdd.domains = .ok (some (rowOf bdd (extension picked))) ∧
        rowOf bdd (extension picked) ∈ set := by
    intro picked hmem
    have hholds := hexact.pick_sound _ _ picked hmem (extension picked) (hagree picked)
    have hrow := (hnode _).mp hholds
    refine ⟨?_, hrow⟩
    rw [decodeRow_ok (hexact.pick_covers _ _ picked hmem) fun d hd => hd,
      if_pos (rowOf_mem_product.mp (hset hrow))]
    rfl
  have hdecode := Checked.mapM_pure fun picked hmem => (hpicked picked hmem).1
  refine ⟨_, by rw [CompactBdd.tuples, hdecode]; rfl, ?_, fun row => ?_⟩
  · have hsorted := List.pairwise_insertionSort (· ≤ · : List ℕ → List ℕ → Prop)
      (((m.pickIter node bdd.careVariables).map fun picked =>
        some (rowOf bdd (extension picked))).filterMap id).dedup
    have hnodup := (List.perm_insertionSort (· ≤ · : List ℕ → List ℕ → Prop) _).nodup_iff.mpr
      (List.nodup_dedup (((m.pickIter node bdd.careVariables).map fun picked =>
        some (rowOf bdd (extension picked))).filterMap id))
    exact (hsorted.and hnodup).imp fun h => lt_of_le_of_ne h.1 h.2
  · rw [(List.perm_insertionSort _ _).mem_iff, List.mem_dedup, List.mem_filterMap]
    simp only [List.mem_map, id]
    constructor
    · rintro ⟨-, ⟨picked, hmem, rfl⟩, hsome⟩
      obtain rfl := Option.some.inj hsome
      exact (hpicked picked hmem).2
    · intro hrow
      have hspell := rowOf_spelling (hset hrow)
      have hholds := (hnode (spelling bdd row)).mpr (by rwa [hspell])
      obtain ⟨picked, hmem, hpick⟩ := hexact.pick_complete _ bdd.careVariables _ hholds
      refine ⟨_, ⟨picked, hmem, rfl⟩, ?_⟩
      refine congrArg some (Eq.trans ?_ hspell)
      refine List.map_congr_left fun d hd => BinaryWords.bitsValue_congr fun bit hbit => ?_
      obtain ⟨b, hb⟩ := hexact.pick_covers _ _ picked hmem _ (mem_careVariables hd hbit)
      rw [hagree picked _ b hb, hpick _ b hb]

end Enumeration

/-- **The diagrams compute set algebra.**  `_domain_bound` holds of the codes below the size.
Whatever was built before, an expression whose rows are in the product of the domains is built,
and `tuples()` of it lists the rows of its set, sorted and each once; another one is refused. -/
theorem bdd_set_algebra (m : BddManager) (holds : m.Node → (String → Bool) → Prop)
    (hexact : m.Exact holds) (bdd : CompactBdd) :
    (∀ d ∈ bdd.domains, ∀ a, holds (CompactBdd.domainBound m d) a ↔ fieldValue d a < d.2) ∧
    ∀ (earlier : List RelationExpr) (expr : RelationExpr),
      (expr.RowsValid bdd → ∃ node rows,
        (expr.build m bdd (RelationExpr.cacheAfter m bdd earlier)).1 = .ok node ∧
        bdd.tuples m node = .ok rows ∧ Enumerates rows (expr.denote bdd)) ∧
      (¬ expr.RowsValid bdd →
        ∃ e, (expr.build m bdd (RelationExpr.cacheAfter m bdd earlier)).1 = .error e) := by
  refine ⟨fun d hd a => holds_domainBound hexact (bdd.sizes_pos d hd) a, fun earlier expr =>
    ⟨fun h => ?_, fun h => RelationExpr.build_refused h _⟩⟩
  obtain ⟨node, hbuild, hnode, -⟩ :=
    RelationExpr.build_spec hexact h (RelationExpr.cacheAfter_valid hexact earlier)
  obtain ⟨rows, hrows, henumerates⟩ :=
    tuples_spec hexact (RelationExpr.denote_subset h) hnode
  exact ⟨node, rows, hbuild, hrows, henumerates⟩

/-! ## A manager -/

/-- Formulas: diagrams that are not reduced. -/
inductive BoolFormula
  | top
  | bottom
  | var (v : String)
  | conj (x y : BoolFormula)
  | disj (x y : BoolFormula)
  | neg (x : BoolFormula)
  deriving DecidableEq

namespace BoolFormula

/-- The value of a formula. -/
def eval (a : String → Bool) : BoolFormula → Bool
  | .top => true
  | .bottom => false
  | .var v => a v
  | .conj x y => x.eval a && y.eval a
  | .disj x y => x.eval a || y.eval a
  | .neg x => !x.eval a

/-- The variables of a formula. -/
def support : BoolFormula → List String
  | .top | .bottom => []
  | .var v => [v]
  | .conj x y | .disj x y => x.support ++ y.support
  | .neg x => x.support

theorem eval_congr {a b : String → Bool} {x : BoolFormula} (h : ∀ v ∈ x.support, a v = b v) :
    x.eval a = x.eval b := by
  induction x with
  | top | bottom => rfl
  | var v => exact h v (by simp [support])
  | conj x y ihx ihy | disj x y ihx ihy =>
    simp only [support, List.mem_append] at h
    rw [eval, eval, ihx fun v hv => h v (.inl hv), ihy fun v hv => h v (.inr hv)]
  | neg x ih => rw [eval, eval, ih h]

/-- All assignments of some variables. -/
def assignments : List String → List (Dict String Bool)
  | [] => [[]]
  | v :: rest => (assignments rest).flatMap fun picked => [(v, false) :: picked, (v, true) :: picked]

theorem mem_assignments {vars : List String} {picked : Dict String Bool}
    (h : picked ∈ assignments vars) {v : String} (hv : v ∈ vars) : ∃ b, picked.get? v = some b := by
  induction vars generalizing picked with
  | nil => cases hv
  | cons w vars ih =>
    obtain ⟨rest, hrest, hpicked⟩ := List.mem_flatMap.mp h
    have hhead : ∃ b, picked = (w, b) :: rest := by
      rcases List.mem_pair.mp hpicked with rfl | rfl
      · exact ⟨false, rfl⟩
      · exact ⟨true, rfl⟩
    obtain ⟨b, rfl⟩ := hhead
    rw [Dict.get?_cons]
    split
    · exact ⟨b, rfl⟩
    · rename_i hne
      rcases List.mem_cons.mp hv with rfl | hv
      · exact absurd rfl hne
      · exact ih hrest hv

theorem restriction_mem (a : String → Bool) (vars : List String) :
    vars.map (fun v => (v, a v)) ∈ assignments vars := by
  induction vars with
  | nil => simp [assignments]
  | cons v vars ih =>
    refine List.mem_flatMap.mpr ⟨_, ih, ?_⟩
    rw [List.map_cons]
    cases a v <;> simp

theorem restriction_get? {a : String → Bool} {vars : List String} {v : String} {b : Bool}
    (h : Dict.get? (vars.map fun v => (v, a v)) v = some b) : a v = b := by
  obtain ⟨w, -, heq⟩ := List.mem_map.mp (Dict.mem_of_get? h)
  obtain ⟨rfl, rfl⟩ := Prod.mk.inj heq
  rfl

/-- The variables that `pick_iter` assigns. -/
def assigned (x : BoolFormula) (care : List String) : List String := (care ++ x.support).dedup

/-- Formulas as a manager. -/
def manager : BddManager where
  Node := BoolFormula
  top := .top
  bottom := .bottom
  var := .var
  conj := .conj
  disj := .disj
  neg := .neg
  pickIter x care := (assignments (x.assigned care)).filter fun picked => x.eval (extension picked)

theorem manager_exact : manager.Exact fun x a => eval a x = true where
  top _ := rfl
  bottom _ := by simp [manager, eval]
  var _ _ := by rfl
  conj _ _ _ := by simp [manager, eval]
  disj _ _ _ := by simp [manager, eval]
  neg _ _ := by simp [manager, eval]
  pick_covers x care picked hpicked v hv :=
    mem_assignments (List.mem_filter.mp hpicked).1 (by simp [assigned, hv])
  pick_sound x care picked hpicked a hagree := by
    obtain ⟨hmem, hholds⟩ := List.mem_filter.mp hpicked
    rw [← hholds]
    refine eval_congr fun v hv => ?_
    obtain ⟨b, hb⟩ := mem_assignments hmem (List.mem_dedup.mpr (List.mem_append_right _ hv))
    rw [hagree v b hb, extension, hb, Option.getD_some]
  pick_complete x care a hholds := by
    refine ⟨(assigned x care).map fun v => (v, a v), List.mem_filter.mpr
      ⟨restriction_mem a _, ?_⟩, fun v b hb => restriction_get? hb⟩
    have hsame : x.eval (extension ((assigned x care).map fun v => (v, a v))) = x.eval a := by
      refine eval_congr fun v hv => ?_
      obtain ⟨b, hb⟩ := mem_assignments (restriction_mem a (assigned x care))
        (List.mem_dedup.mpr (List.mem_append_right _ hv))
      rw [extension, hb, Option.getD_some, restriction_get? hb]
    exact hsame.trans hholds

end BoolFormula

/-- A field of three numbers and one of a single number. -/
def threeByOne : CompactBdd where
  domains := [("x", 3), ("y", 1)]
  nonempty := by decide
  fields_unique := by decide
  fields_named := by decide
  sizes_pos := by decide

/-- The complement of one row: two rows, and none for the code 3 of the first field. -/
theorem bdd_set_algebra_complement : ∃ node rows,
    (RelationExpr.build BoolFormula.manager threeByOne (.complement (.relation [[0, 0]]))
      (RelationExpr.cacheAfter _ threeByOne [])).1 = .ok node ∧
    threeByOne.tuples BoolFormula.manager node = .ok rows ∧
    Enumerates rows (RelationExpr.denote threeByOne (.complement (.relation [[0, 0]]))) :=
  ((bdd_set_algebra BoolFormula.manager _ BoolFormula.manager_exact threeByOne).2 []
    (.complement (.relation [[0, 0]]))).1 (by
      intro row hrow
      obtain rfl := List.mem_singleton.mp hrow
      simp [RowInDomain, threeByOne])

end VeriCCL
