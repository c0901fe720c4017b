import VeriCCL.MeasuredAcceptance

/-! # The error budget of a task

What the ledger file says after any calls of any processes: its chain is intact, the
attempts are numbered from one without a gap, each has the level and the balanced orders that
`reserve` gave it, and nothing follows the end of an attempt.  The levels then sum to less
than the task's, by a telescoping sum. -/
namespace VeriCCL

variable {lib : LedgerLibrary}

/-! ## Levels -/

/-- The loop adds pairs two at a time. -/
theorem growPairs_even {alpha : ℚ} {turns pairs : ℕ} (h : Even pairs) :
    Even (growPairs alpha turns pairs) := by
  induction turns generalizing pairs with
  | zero => exact h
  | succ turns ih =>
    unfold growPairs
    split
    · exact ih (h.add even_two)
    · exact h

theorem le_growPairs (alpha : ℚ) (turns pairs : ℕ) : pairs ≤ growPairs alpha turns pairs := by
  induction turns generalizing pairs with
  | zero => exact le_refl _
  | succ turns ih =>
    unfold growPairs
    split
    · exact (Nat.le_add_right pairs 2).trans (ih (pairs + 2))
    · exact le_refl _

/-- When the loop runs out of turns it has added two pairs in each. -/
theorem growPairs_cases (alpha : ℚ) (turns pairs : ℕ) :
    1 / 2 ^ growPairs alpha turns pairs ≤ alpha ∨ pairs + 2 * turns ≤ growPairs alpha turns pairs := by
  induction turns generalizing pairs with
  | zero => exact Or.inr (le_refl _)
  | succ turns ih =>
    unfold growPairs
    split
    · rcases ih (pairs + 2) with h | h
      · exact Or.inl h
      · exact Or.inr (by omega)
    · rename_i h
      exact Or.inl (not_lt.mp h)

/-- **Winning every pair passes**, once the loop has ended. -/
theorem growPairs_level {alpha : ℚ} (halpha : 0 < alpha) (pairs : ℕ) :
    1 / 2 ^ growPairs alpha (pairTurns alpha) pairs ≤ alpha := by
  rcases growPairs_cases alpha (pairTurns alpha) pairs with h | h
  · exact h
  · have hturns : 1 / alpha ≤ pairTurns alpha := Nat.le_ceil _
    have hpow : (pairTurns alpha : ℚ) ≤ 2 ^ growPairs alpha (pairTurns alpha) pairs := by
      have hlt : pairTurns alpha ≤ growPairs alpha (pairTurns alpha) pairs := by omega
      exact_mod_cast (hlt.trans Nat.lt_two_pow_self.le)
    rw [div_le_iff₀ (by positivity)]
    rw [div_le_iff₀ halpha] at hturns
    calc (1 : ℚ) ≤ pairTurns alpha * alpha := hturns
      _ ≤ 2 ^ growPairs alpha (pairTurns alpha) pairs * alpha :=
          mul_le_mul_of_nonneg_right hpow halpha.le
      _ = alpha * 2 ^ growPairs alpha (pairTurns alpha) pairs := mul_comm _ _

/-- What `reserve` promises about the attempt it numbers `index`. -/
structure Planned (header : LedgerHeader) (index : ℕ) (plan : AttemptPlan) : Prop where
  number : plan.attemptIndex = index
  alpha : plan.alpha = LedgerFile.attemptAlpha header index
  alpha_pos : 0 < plan.alpha
  even : Even plan.pairCount
  level : 1 / 2 ^ plan.pairCount ≤ plan.alpha
  orders : ∀ order ∈ plan.orders, order.length = plan.pairCount ∧ order.count .ab = order.count .ba

/-- An order that is shuffled has as many pairs of each kind as before. -/
theorem balanced_perm {order : List PairOrder} {pairs : ℕ} (heven : Even pairs)
    (h : order.Perm (balanced pairs)) : order.length = pairs ∧ order.count .ab = order.count .ba := by
  obtain ⟨half, rfl⟩ := heven
  have hhalf : (half + half) / 2 = half := by omega
  constructor
  · rw [h.length_eq, balanced, hhalf]
    simp
  · rw [h.count_eq, h.count_eq, balanced, hhalf]
    simp [List.count_append, List.count_replicate]

theorem planned_attemptPlan {header : LedgerHeader} {args : ReserveArgs} {index : ℕ}
    (heven : args.pairCount % 2 = 0)
    (halpha : 0 < LedgerFile.attemptAlpha header index) :
    Planned header index (LedgerFile.attemptPlan lib header args index) := by
  have hpairs : Even (LedgerFile.attemptPairs lib args.pairCount
      (LedgerFile.attemptAlpha header index)) := by
    refine growPairs_even ?_
    rw [Nat.even_iff]
    omega
  refine ⟨rfl, rfl, halpha, hpairs, growPairs_level halpha _, ?_⟩
  intro order horder
  obtain ⟨round, -, rfl⟩ := List.mem_map.mp horder
  exact balanced_perm hpairs (lib.shuffle_perm _ _ _)

/-! ## The chain -/

namespace LedgerFile

theorem chained_append {n : ℕ} {previous : String} {l r : List LedgerRecord} :
    chained lib n previous (l ++ r) ↔
      chained lib n previous l ∧
        chained lib (n + l.length) ((l.getLast?.map (·.sha256)).getD previous) r := by
  induction l generalizing n previous with
  | nil => simp [chained]
  | cons record l ih =>
    rw [List.cons_append, chained, chained, ih, List.length_cons,
      show n + (l.length + 1) = n + 1 + l.length by omega]
    have hlast : ((record :: l).getLast?.map (·.sha256)).getD previous =
        (l.getLast?.map (·.sha256)).getD record.sha256 := by
      cases l with
      | nil => rfl
      | cons a l => rw [List.getLast?_cons_cons]; cases h : (a :: l).getLast? <;> simp_all
    rw [hlast]
    tauto

/-- A record written at the end continues the chain. -/
theorem chained_write {file : LedgerFile} (h : chained lib 0 "" file.records) (entry : LedgerEntry)
    (time : String) : chained lib 0 "" (file.write lib entry time).records := by
  show chained lib 0 "" (file.records ++ [nextRecord lib file.records entry time])
  rw [chained_append]
  refine ⟨h, rfl, ?_, rfl, trivial⟩
  show file.records.length = 0 + file.records.length
  omega

end LedgerFile

/-! ## Runs -/

namespace LedgerTask
open LedgerFile

/-- What holds of the file and of the ledgers that are open on it. -/
structure Inv (lib : LedgerLibrary) (s : LedgerTask) : Prop where
  chain : chained lib 0 "" s.file.records
  header : ∀ header ∈ s.handles, ∃ first rest, s.file.records = first :: rest ∧
    first.entry = .created header
  created : ∀ first rest, s.file.records = first :: rest → ∃ header, first.entry = .created header ∧
    validLevel header.taskAlpha ∧ validLevel header.singleAttemptCap
  plans : ∀ first rest header, s.file.records = first :: rest → first.entry = .created header →
    ∀ (i : ℕ) (plan : AttemptPlan), (plansOf s.file.records)[i]? = some plan → Planned header (i + 1) plan
  ended : ∀ (l r : List LedgerRecord) (record : LedgerRecord) (index : ℕ),
    s.file.records = l ++ record :: r → record.closes index = true →
    ∀ later ∈ r, ∀ event payload, later.entry ≠ .recorded event index payload

theorem inv_start : Inv lib {} where
  chain := trivial
  header := fun _ h => absurd h List.not_mem_nil
  created := fun _ _ h => absurd h (by simp)
  plans := fun _ _ _ h => absurd h (by simp)
  ended := fun l r record index h => absurd h.symm (by simp)

/-- A list that is one longer is split in it, or at its end. -/
theorem concat_split {α : Type} {l r m : List α} {a b : α} (h : m ++ [b] = l ++ a :: r) :
    (∃ r', r = r' ++ [b] ∧ m = l ++ a :: r') ∨ r = [] ∧ a = b := by
  rcases List.eq_nil_or_concat' r with rfl | ⟨r', c, rfl⟩
  · obtain ⟨_, hb⟩ := List.append_inj' h rfl
    exact Or.inr ⟨rfl, (List.singleton_inj.mp hb).symm⟩
  · have hassoc : m ++ [b] = (l ++ a :: r') ++ [c] := by
      rw [h, List.append_assoc, List.cons_append]
    obtain ⟨hm, hb⟩ := List.append_inj' hassoc rfl
    exact Or.inl ⟨r', by rw [List.singleton_inj.mp hb], hm⟩

theorem plansOf_append (l m : List LedgerRecord) : plansOf (l ++ m) = plansOf l ++ plansOf m :=
  List.filterMap_append

/-- A record that carries the numbering on, and is of no attempt that has ended, keeps the
invariant. -/
theorem inv_write {s : LedgerTask} (inv : Inv lib s) {first : LedgerRecord} {rest : List LedgerRecord}
    (hfirst : s.file.records = first :: rest) {entry : LedgerEntry} (time : String)
    (hplan : ∀ header plan, first.entry = .created header → entry = .reserved plan →
      Planned header ((plansOf s.file.records).length + 1) plan)
    (hopen : ∀ event index payload, entry = .recorded event index payload →
      ∀ record ∈ s.file.records, record.closes index = false) :
    Inv lib { s with file := s.file.write lib entry time } := by
  have hrecords : (s.file.write lib entry time).records =
      s.file.records ++ [nextRecord lib s.file.records entry time] := rfl
  have hhead : ∀ a l, (s.file.write lib entry time).records = a :: l → a = first := by
    intro a l h
    rw [hrecords, hfirst, List.cons_append, List.cons.injEq] at h
    exact h.1.symm
  refine ⟨chained_write inv.chain entry time, ?_, ?_, ?_, ?_⟩
  · intro header hheader
    obtain ⟨a, l, hal, ha⟩ := inv.header header hheader
    exact ⟨a, _, by rw [hrecords, hal, List.cons_append], ha⟩
  · intro a l h
    obtain rfl := hhead a l h
    exact inv.created _ rest hfirst
  · intro a l header h ha i plan hi
    obtain rfl := hhead a l h
    change (plansOf (s.file.write lib entry time).records)[i]? = some plan at hi
    rw [hrecords, plansOf_append] at hi
    rcases Nat.lt_or_ge i (plansOf s.file.records).length with hlt | hge
    · rw [List.getElem?_append_left hlt] at hi
      exact inv.plans _ rest header hfirst ha i plan hi
    · -- the new record is the only one after the old plans
      rw [List.getElem?_append_right hge] at hi
      have hmem := List.mem_of_getElem? hi
      obtain ⟨record, hrecord, hp⟩ := List.mem_filterMap.mp hmem
      obtain rfl := List.mem_singleton.mp hrecord
      have hentry : entry = .reserved plan := by
        cases entry <;> simp_all [LedgerRecord.plan?, nextRecord]
      have hzero : i = (plansOf s.file.records).length := by
        have hlen := (List.getElem?_eq_some_iff.mp hi).1
        have hone : (plansOf [nextRecord lib s.file.records entry time]).length ≤ 1 :=
          List.length_filterMap_le _ _
        omega
      rw [hzero]
      exact hplan header plan ha hentry
  · intro l r record index h hcloses later hlater event payload hevent
    change (s.file.write lib entry time).records = _ at h
    rw [hrecords] at h
    rcases concat_split h with ⟨r', rfl, hm⟩ | ⟨rfl, _⟩
    · rcases List.mem_append.mp hlater with hlater | hlater
      · exact inv.ended l r' record index hm hcloses later hlater event payload hevent
      · obtain rfl := List.mem_singleton.mp hlater
        have hnot := hopen event index payload hevent record
          (hm ▸ List.mem_append_right l List.mem_cons_self)
        rw [hcloses] at hnot
        cases hnot
    · exact absurd hlater List.not_mem_nil

theorem locked_ok {file : LedgerFile} {records : List LedgerRecord} (h : locked lib file = .ok records) :
    records = file.records := by
  simp only [locked, Checked.bind_ok, Checked.ensure_ok, Checked.pure_ok] at h
  obtain ⟨_, _, _, _, rfl⟩ := h
  rfl

/-- Opening a ledger writes the first record, or finds that it is the same. -/
theorem inv_create {s : LedgerTask} (inv : Inv lib s) {header : LedgerHeader} {time : String}
    {file : LedgerFile} (h : s.file.create lib header time = .ok file) :
    Inv lib ⟨file, s.handles ++ [header]⟩ := by
  simp only [create, Checked.bind_ok, Checked.ensure_ok] at h
  obtain ⟨_, htask, _, hcap, _, _, records, hrecords, h⟩ := h
  rw [locked_ok hrecords] at h
  cases hr : s.file.records with
  | nil =>
    rw [hr] at h
    obtain rfl := Checked.pure_ok.mp h
    have hfile : (s.file.write lib (.created header) time).records =
        [nextRecord lib [] (.created header) time] := by
      rw [write, hr, List.nil_append]
    have hnone : s.handles = [] := by
      rw [List.eq_nil_iff_forall_not_mem]
      intro other hother
      obtain ⟨a, l, hal, _⟩ := inv.header other hother
      rw [hr] at hal
      cases hal
    refine ⟨chained_write inv.chain _ time, ?_, ?_, ?_, ?_⟩
    · intro other hother
      rw [hnone, List.nil_append, List.mem_singleton] at hother
      exact ⟨_, _, hfile, by rw [hother]; rfl⟩
    · intro a l hal
      change (s.file.write lib (.created header) time).records = _ at hal
      rw [hfile, List.cons.injEq] at hal
      exact ⟨header, by rw [← hal.1]; rfl, htask, hcap⟩
    · intro a l other hal _ i plan hi
      change (plansOf (s.file.write lib (.created header) time).records)[i]? = some plan at hi
      rw [hfile] at hi
      simp [plansOf, LedgerRecord.plan?, nextRecord] at hi
    · intro l r record index hlr hcloses
      change (s.file.write lib (.created header) time).records = _ at hlr
      rw [hfile] at hlr
      have hrecord : record = nextRecord lib [] (.created header) time := by
        have hmem : record ∈ [nextRecord lib [] (.created header) time] :=
          hlr ▸ List.mem_append_right l List.mem_cons_self
        exact List.mem_singleton.mp hmem
      rw [hrecord] at hcloses
      cases hcloses
  | cons first rest =>
    rw [hr] at h
    simp only [Checked.bind_ok, Checked.ensure_ok, Checked.pure_ok] at h
    obtain ⟨_, hfirst, rfl⟩ := h
    refine ⟨inv.chain, ?_, inv.created, inv.plans, inv.ended⟩
    intro other hother
    rcases List.mem_append.mp hother with hother | hother
    · exact inv.header other hother
    · rw [List.mem_singleton.mp hother]
      exact ⟨first, rest, hr, hfirst⟩

theorem inv_reserve {s : LedgerTask} (inv : Inv lib s) {header : LedgerHeader}
    (hheader : header ∈ s.handles) {args : ReserveArgs} {time : String} {result : AttemptPlan × LedgerFile}
    (h : s.file.reserve lib header args time = .ok result) :
    Inv lib { s with file := result.2 } := by
  simp only [reserve, checkArgs, Checked.bind_ok, Checked.ensure_ok, Checked.pure_ok] at h
  obtain ⟨_, ⟨_, _, _, _, _, ⟨_, heven⟩, -⟩, records, hrecords, _, halpha, rfl⟩ := h
  obtain rfl := locked_ok hrecords
  obtain ⟨first, rest, hfirst, hentry⟩ := inv.header header hheader
  refine inv_write inv hfirst time ?_ ?_
  · intro other plan hother hplan
    rw [hentry, LedgerEntry.created.injEq] at hother
    rw [LedgerEntry.reserved.injEq] at hplan
    subst hother hplan
    rw [Nat.add_comm 1] at halpha ⊢
    exact planned_attemptPlan heven (not_le.mp halpha)
  · intro event index payload he
    cases he

theorem inv_append {s : LedgerTask} (inv : Inv lib s) {plan : AttemptPlan} {event : AttemptEvent}
    {payload time : String} {file : LedgerFile} (h : s.file.append lib plan event payload time = .ok file) :
    Inv lib { s with file := file } := by
  simp only [append, Checked.bind_ok, Checked.ensure_ok, Checked.pure_ok] at h
  obtain ⟨records, hrecords, _, hplan, _, hopen, rfl⟩ := h
  obtain rfl := locked_ok hrecords
  cases hr : s.file.records with
  | nil =>
    rw [hr] at hplan
    cases hplan
  | cons first rest =>
    refine inv_write inv hr time ?_ ?_
    · intro header other _ he
      cases he
    · intro e index other he record hrecord
      rw [LedgerEntry.recorded.injEq] at he
      by_contra hcloses
      exact hopen ⟨record, hrecord, he.2.1 ▸ Bool.eq_true_of_not_eq_false hcloses⟩

theorem inv_step {s : LedgerTask} (inv : Inv lib s) (call : LedgerCall) : Inv lib (s.step lib call) := by
  cases call with
  | create header time =>
    simp only [step]
    split
    · exact inv_create inv ‹_›
    · exact inv
  | reserve handle args time =>
    simp only [step]
    split
    · rename_i header hheader
      split
      · exact inv_reserve inv (List.mem_of_getElem? hheader) ‹_›
      · exact inv
    · exact inv
  | append plan event payload time =>
    simp only [step]
    split
    · exact inv_append inv ‹_›
    · exact inv
  | tear => exact ⟨inv.chain, inv.header, inv.created, inv.plans, inv.ended⟩

theorem inv_run (calls : List LedgerCall) : Inv lib (run lib calls) := by
  have hfold : ∀ (calls : List LedgerCall) (s : LedgerTask), Inv lib s → Inv lib (calls.foldl (step lib) s) := by
    intro calls
    induction calls with
    | nil => exact fun s inv => inv
    | cons call calls ih => exact fun s inv => ih _ (inv_step inv call)
  exact hfold calls {} inv_start

/-! ## The sum of the levels -/

/-- **The levels telescope.**  Attempts numbered from one have levels that sum to less than
the level of the task. -/
theorem sum_alpha_lt {header : LedgerHeader} (htask : 0 < header.taskAlpha) {plans : List AttemptPlan}
    (h : ∀ (i : ℕ) (plan : AttemptPlan), plans[i]? = some plan → Planned header (i + 1) plan) :
    (plans.map (·.alpha)).sum ≤ header.taskAlpha * (1 - 1 / (plans.length + 1)) := by
  induction plans using List.reverseRecOn with
  | nil => simp
  | append_singleton plans plan ih =>
    have hold : ∀ (i : ℕ) (p : AttemptPlan), plans[i]? = some p → Planned header (i + 1) p := by
      intro i p hp
      refine h i p ?_
      rw [List.getElem?_append_left (List.getElem?_eq_some_iff.mp hp).1, hp]
    have hnew := h plans.length plan (by simp)
    have hle : plan.alpha ≤ header.taskAlpha / ((plans.length + 1) * (plans.length + 2)) := by
      rw [hnew.alpha, LedgerFile.attemptAlpha]
      refine (min_le_right _ _).trans (le_of_eq ?_)
      push_cast
      ring
    rw [List.map_append, List.sum_append, List.length_append, List.map_singleton, List.sum_singleton,
      List.length_singleton]
    calc (plans.map (·.alpha)).sum + plan.alpha
        ≤ header.taskAlpha * (1 - 1 / (plans.length + 1)) +
            header.taskAlpha / ((plans.length + 1) * (plans.length + 2)) := add_le_add (ih hold) hle
      _ = header.taskAlpha * (1 - 1 / ((plans.length + 1 : ℕ) + 1)) := by
          push_cast
          field_simp
          ring

/-- The file is of the task and policy of a header: its first record says so. -/
def IsTask (s : LedgerTask) (header : LedgerHeader) : Prop :=
  s.file.records.head?.map (·.entry) = some (.created header)

/-- What the ledger file guarantees of the attempts of a task. -/
structure Allocated (s : LedgerTask) (header : LedgerHeader) : Prop where
  indices : (plansOf s.file.records).map (·.attemptIndex) =
    List.range' 1 (plansOf s.file.records).length
  planned : ∀ plan ∈ plansOf s.file.records, Planned header plan.attemptIndex plan
  cap : ∀ plan ∈ plansOf s.file.records, plan.alpha ≤ header.singleAttemptCap
  sum : ((plansOf s.file.records).map (·.alpha)).sum < header.taskAlpha
  ended : ∀ (l r : List LedgerRecord) (record : LedgerRecord) (index : ℕ),
    s.file.records = l ++ record :: r → record.closes index = true →
    ∀ later ∈ r, ∀ event payload, later.entry ≠ .recorded event index payload

theorem Inv.allocated {s : LedgerTask} (inv : Inv lib s) {header : LedgerHeader}
    (h : s.IsTask header) : s.Allocated header := by
  obtain ⟨first, rest, hfirst, hentry⟩ : ∃ first rest, s.file.records = first :: rest ∧
      first.entry = .created header := by
    unfold IsTask at h
    cases hr : s.file.records with
    | nil =>
      rw [hr] at h
      cases h
    | cons first rest =>
      rw [hr] at h
      exact ⟨first, rest, rfl, Option.some.inj h⟩
  have hplans := inv.plans first rest header hfirst hentry
  have hvalid : 0 < header.taskAlpha := by
    obtain ⟨other, hother, htask, -⟩ := inv.created first rest hfirst
    rw [hentry, LedgerEntry.created.injEq] at hother
    rw [hother]
    exact htask.1
  have hplanned : ∀ plan ∈ plansOf s.file.records, Planned header plan.attemptIndex plan := by
    intro plan hplan
    obtain ⟨i, hi⟩ := List.mem_iff_getElem?.mp hplan
    have hp := hplans i plan hi
    rw [hp.number]
    exact hp
  refine ⟨?_, hplanned, ?_, ?_, inv.ended⟩
  · refine List.ext_getElem (by simp) fun i hi hi' => ?_
    rw [List.length_map] at hi
    rw [List.getElem_map, (hplans i _ (List.getElem?_eq_getElem hi)).number, List.getElem_range']
    omega
  · intro plan hplan
    rw [(hplanned plan hplan).alpha]
    exact min_le_left _ _
  · refine (sum_alpha_lt hvalid hplans).trans_lt ?_
    have hpos : (0 : ℚ) < 1 / ((plansOf s.file.records).length + 1) := by positivity
    nlinarith

/-- The attempts that are accepted at one point of a sample space. -/
def acceptedCount {Ω : Type} (context : AttemptPlan → Ω → AcceptanceContext) (plans : List AttemptPlan)
    (ω : Ω) : ℕ := plans.countP fun plan => ((context plan ω).measure plan).accepted

/-- The expected number of accepted attempts, over a finite sample space. -/
def expectedAcceptances {Ω : Type} [Fintype Ω] (p : Ω → ℚ)
    (context : AttemptPlan → Ω → AcceptanceContext) (plans : List AttemptPlan) : ℚ :=
  ∑ ω, p ω * acceptedCount context plans ω

/-- **Expected acceptances are at most the sum of the levels**, when the signs of each
attempt are fair: expectation is linear, and each attempt is accepted with probability at most
its level. -/
theorem expectedAcceptances_le {Ω : Type} [Fintype Ω] {p : Ω → ℚ}
    {context : AttemptPlan → Ω → AcceptanceContext} {plans : List AttemptPlan}
    (fair : ∀ plan ∈ plans, BinomialTest.Fair p fun ω => (context plan ω).signs plan)
    (halpha : ∀ plan ∈ plans, 0 ≤ plan.alpha)
    (horders : ∀ plan ∈ plans, ∀ order ∈ plan.orders, order.length = plan.pairCount) :
    expectedAcceptances p context plans ≤ (plans.map (·.alpha)).sum := by
  induction plans with
  | nil => simp [expectedAcceptances, acceptedCount]
  | cons plan plans ih =>
    have hrest := ih (fun q hq => fair q (List.mem_cons_of_mem plan hq))
      (fun q hq => halpha q (List.mem_cons_of_mem plan hq))
      (fun q hq => horders q (List.mem_cons_of_mem plan hq))
    have hfair := fair plan List.mem_cons_self
    have hsplit : expectedAcceptances p context (plan :: plans) =
        expectedAcceptances p context plans +
          BinomialTest.weight p (fun ω => ((context plan ω).measure plan).accepted = true) := by
      simp only [expectedAcceptances, BinomialTest.weight, ← Finset.sum_add_distrib]
      refine Finset.sum_congr rfl fun ω _ => ?_
      rw [acceptedCount, List.countP_cons, acceptedCount]
      push_cast
      split <;> ring
    have hone : BinomialTest.weight p (fun ω => ((context plan ω).measure plan).accepted = true) ≤
        plan.alpha := by
      refine le_trans (Finset.sum_le_sum fun ω _ => ?_)
        (BinomialTest.weight_passes_le hfair (halpha plan List.mem_cons_self))
      split
      · rename_i haccepted
        obtain ⟨round, s, -, -, hsigns, hpasses⟩ := AcceptanceContext.accepted_passes
          (horders plan List.mem_cons_self) haccepted
        rw [if_pos ⟨_, hsigns, hpasses⟩]
      · split
        · exact hfair.nonneg ω
        · exact le_refl _
    rw [hsplit, List.map_cons, List.sum_cons]
    linarith

/-- **The error budget of a task.**  After any calls of any processes on one ledger, the
attempts are allocated as they should be; of the vectors of wins and losses of any length at
most the share `alpha` passes the test at level `alpha`; a decision is taken on the first
stable round only; and when the signs on which attempts are decided are fair, the expected
number of accepted attempts of the whole task is below the task's level. -/
theorem error_budget (lib : LedgerLibrary) (calls : List LedgerCall) (header : LedgerHeader)
    (htask : (run lib calls).IsTask header) :
    (run lib calls).Allocated header ∧
    (∀ (n : ℕ) (alpha : ℚ), 0 ≤ alpha →
      ((Finset.univ.filter fun v : BinomialTest.Signs n =>
        BinomialTest.tail (BinomialTest.wins v) n ≤ alpha).card : ℚ) ≤ alpha * 2 ^ n) ∧
    (∀ (context : AcceptanceContext), ∀ plan ∈ plansOf (run lib calls).file.records,
      (context.measure plan).accepted = true →
      ∃ before orders round after last s, plan.orders.zipIdx 1 = before ++ (orders, round) :: after ∧
        AcceptanceContext.Unstable context plan before none last ∧
        context.launchRound plan round orders last = .ok s ∧ context.stable plan s ∧
        BinomialTest.tail (s.winCount plan) plan.pairCount ≤ plan.alpha) ∧
    ∀ (Ω : Type) [Fintype Ω] (p : Ω → ℚ) (context : AttemptPlan → Ω → AcceptanceContext),
      (∀ plan ∈ plansOf (run lib calls).file.records,
        BinomialTest.Fair p fun ω => (context plan ω).signs plan) →
      expectedAcceptances p context (plansOf (run lib calls).file.records) < header.taskAlpha := by
  have hall : (run lib calls).Allocated header := (inv_run calls).allocated htask
  have horders : ∀ plan ∈ plansOf (run lib calls).file.records, ∀ order ∈ plan.orders,
      order.length = plan.pairCount := fun plan hplan order horder =>
    ((hall.planned plan hplan).orders order horder).1
  refine ⟨hall, fun n alpha halpha => BinomialTest.card_passes_le halpha n, ?_, ?_⟩
  · intro context plan hplan haccepted
    obtain ⟨round, s, hselected, hlen, -, hpasses⟩ :=
      AcceptanceContext.accepted_passes (horders plan hplan) haccepted
    obtain ⟨before, orders, after, last, hsplit, hunstable, hlaunch, hstable⟩ :=
      AcceptanceContext.selected_ok hselected
    refine ⟨before, orders, round, after, last, s, hsplit, hunstable, hlaunch, hstable, ?_⟩
    rw [← RoundState.wins_signs hlen]
    exact hpasses
  · intro Ω _ p context fair
    refine (expectedAcceptances_le fair ?_ horders).trans_lt hall.sum
    intro plan hplan
    exact (hall.planned plan hplan).alpha_pos.le

/-- The library on the two records below: their digests, the seed and the one shuffle. -/
def twoRecords : LedgerLibrary where
  sha256 := fun _ sequence _ _ =>
    if sequence = 0 then "ae902ba356f36bcc76742b6a37ca31d93f76e41646df898b467e0e86c54e6193"
    else "6db47a34ea2fae58ce3e5a9132328032fb0cef62fd7d95b68af45a0eb7ed9b97"
  ceilLog := fun alpha => Nat.clog 2 ⌈1 / alpha⌉₊
  actualSeed := fun _ _ _ => 4058577010291827745
  shuffle := fun _ _ order =>
    if order = balanced 6 then [.ba, .ab, .ba, .ba, .ab, .ab] else order
  shuffle_perm := by
    intro seed round order
    split
    · rename_i h
      rw [h]
      decide
    · exact List.Perm.refl _

/-- A ledger is opened, and one attempt is reserved. -/
def oneAttempt : List LedgerCall :=
  [.create { taskId := "task" } "2024-01-01T00:00:00+00:00",
    .reserve 0 { incumbent := "a", candidate := "b", seed := 0, pairCount := 2, maxRounds := 1 }
      "2024-01-01T00:00:00+00:00"]

theorem error_budget_oneAttempt :
    (run twoRecords oneAttempt).Allocated { taskId := "task" } ∧
      (plansOf (run twoRecords oneAttempt).file.records).map (·.pairCount) = [6] := by
  have htask : (run twoRecords oneAttempt).file.records.head?.map (·.entry) =
      some (.created { taskId := "task" }) := by decide +kernel
  exact ⟨(error_budget twoRecords oneAttempt { taskId := "task" } htask).1, by decide +kernel⟩

end LedgerTask
end VeriCCL
