import Mathlib.Tactic
import Mathlib.Data.List.Basic

/-! # Interleavings that are equivalent to a sequence

Operations read and write shared locations.  A trace is any order of their single reads
and writes.  If every pair of conflicting accesses (two accesses to one location, at
least one of them a write) happens in the order some sequence of the operations has, and
an operation reads what it needs before it writes, then the trace leaves the memory that
the sequence leaves when each operation runs alone (`Serial.final`), and every operation
sees what it sees in the sequence (`Serial.seen`). -/
namespace VeriCCL.Trace

variable {ι L V : Type}

/-- Operations over locations `L` with values `V`. -/
structure Operations (ι L V : Type) where
  reads : ι → L → Prop
  writes : ι → L → Prop
  /-- What is written at a location may depend on what was read at another. -/
  uses : ι → L → L → Prop
  /-- What an operation writes, from what it has read. -/
  value : ι → (L → V) → L → V
  value_congr : ∀ i l (m m' : L → V), (∀ k, uses i l k → m k = m' k) → value i m l = value i m' l

/-- One access. -/
inductive Event (ι L : Type) where
  | read (i : ι) (l : L)
  | write (i : ι) (l : L)
  deriving DecidableEq

/-- The memory, and what each operation has read so far. -/
structure Machine (ι L V : Type) where
  memory : L → V
  seen : ι → L → V

/-- The location `e` was accessed before every `f`. -/
def Before (trace : List (Event ι L)) (e f : Event ι L) : Prop :=
  ∀ pre post, trace = pre ++ f :: post → e ∈ pre

/-- `i` comes before `j` in the sequence. -/
def Earlier (order : List ι) (i j : ι) : Prop := ∃ x y, order = x ++ j :: y ∧ i ∈ x

section Run
variable [DecidableEq ι] [DecidableEq L] (P : Operations ι L V)

/-- One access of the machine. -/
def Machine.step (s : Machine ι L V) : Event ι L → Machine ι L V
  | .read i l => { s with seen := Function.update s.seen i (Function.update (s.seen i) l (s.memory l)) }
  | .write i l => { s with memory := Function.update s.memory l (P.value i (s.seen i) l) }

/-- All accesses of a trace. -/
def Machine.run (s : Machine ι L V) (trace : List (Event ι L)) : Machine ι L V :=
  trace.foldl (Machine.step P) s

end Run

open Classical in
/-- One operation alone. -/
noncomputable def Operations.apply (P : Operations ι L V) (m : L → V) (i : ι) : L → V :=
  fun l => if P.writes i l then P.value i m l else m l

/-- The operations of a list, one after the other. -/
noncomputable def Operations.sequence (P : Operations ι L V) (m : L → V) (order : List ι) : L → V :=
  order.foldl P.apply m

section Sequence
variable {P : Operations ι L V} {m : L → V}

theorem sequence_append (a b : List ι) : P.sequence m (a ++ b) = P.sequence (P.sequence m a) b :=
  List.foldl_append

theorem sequence_concat (a : List ι) (i : ι) :
    P.sequence m (a ++ [i]) = P.apply (P.sequence m a) i := by
  rw [sequence_append]
  rfl

theorem apply_of_writes {i : ι} {l : L} (h : P.writes i l) : P.apply m i l = P.value i m l :=
  if_pos h

theorem apply_of_not_writes {i : ι} {l : L} (h : ¬ P.writes i l) : P.apply m i l = m l :=
  if_neg h

/-- Operations that do not write a location leave it alone. -/
theorem sequence_of_not_writes {l : L} (order : List ι) (h : ∀ i ∈ order, ¬ P.writes i l) :
    P.sequence m order l = m l := by
  induction order generalizing m with
  | nil => rfl
  | cons i order ih =>
    show P.sequence (P.apply m i) order l = m l
    rw [ih fun j hj => h j (List.mem_cons_of_mem _ hj),
      apply_of_not_writes (h i List.mem_cons_self)]

end Sequence

/-- **The trace agrees with the sequence on every conflict.** -/
structure Serial (P : Operations ι L V) (order : List ι) (trace : List (Event ι L)) : Prop where
  order_nodup : order.Nodup
  nodup : trace.Nodup
  reads : ∀ i l, .read i l ∈ trace → i ∈ order ∧ P.reads i l
  writes : ∀ i l, .write i l ∈ trace ↔ i ∈ order ∧ P.writes i l
  /-- What a write uses was read before. -/
  own : ∀ i ∈ order, ∀ l k, P.writes i l → P.uses i l k → Before trace (.read i k) (.write i l)
  /-- An operation that reads what it overwrites, reads first. -/
  in_place : ∀ i l, .read i l ∈ trace → P.writes i l → Before trace (.read i l) (.write i l)
  write_read : ∀ i j l, Earlier order i j → P.writes i l → P.reads j l →
    Before trace (.write i l) (.read j l)
  read_write : ∀ i j l, Earlier order i j → .read i l ∈ trace → P.writes j l →
    Before trace (.read i l) (.write j l)
  write_write : ∀ i j l, Earlier order i j → P.writes i l → P.writes j l →
    Before trace (.write i l) (.write j l)

section Serial
variable {P : Operations ι L V} {order : List ι} {trace : List (Event ι L)}

/-- Of two accesses in their order, the second has not happened before the first. -/
theorem Before.notMem {e f : Event ι L} (hnodup : trace.Nodup) (h : Before trace e f)
    {pre post : List (Event ι L)} (htrace : trace = pre ++ e :: post) : f ∉ pre := by
  intro hmem
  obtain ⟨a, b, rfl⟩ := List.append_of_mem hmem
  have he : e ∈ a := h a (b ++ e :: post) (by rw [htrace]; simp)
  rw [htrace] at hnodup
  have hdisjoint := (List.nodup_append.mp hnodup).2.2
  exact hdisjoint e (List.mem_append_left _ he) e List.mem_cons_self rfl

/-- An access has one place in a trace. -/
theorem Before.of_split {e f : Event ι L} (hnodup : trace.Nodup) {x y : List (Event ι L)}
    (htrace : trace = x ++ f :: y) (he : e ∈ x) : Before trace e f := by
  intro pre post hpre
  rcases List.append_eq_append_iff.mp (htrace.symm.trans hpre) with ⟨c, rfl, hc⟩ | ⟨c, rfl, hc⟩
  · exact List.mem_append_left _ he
  · cases c with
    | nil => simpa using he
    | cons g c =>
      obtain ⟨rfl, -⟩ := List.cons.inj hc
      rw [htrace] at hnodup
      have := (List.nodup_append.mp hnodup).2.2 f (by simp) f List.mem_cons_self
      exact absurd rfl this

/-- A location between two turns of the sequence: the writes of the first part have
happened, those of the second have not, and the value is that after the first part. -/
def Settled (P : Operations ι L V) (order : List ι) (init : L → V) (pre : List (Event ι L))
    (value : V) (l : L) : Prop :=
  ∃ a b, order = a ++ b ∧ (∀ i ∈ a, P.writes i l → .write i l ∈ pre) ∧
    (∀ i ∈ b, .write i l ∉ pre) ∧ value = P.sequence init a l

/-- Cutting the sequence elsewhere, between the same writes, gives the same value. -/
theorem Settled.value_eq {init : L → V} {pre : List (Event ι L)} {value : V} {l : L}
    (h : Settled P order init pre value l) {x y : List ι} (hxy : order = x ++ y)
    (hx : ∀ i ∈ x, P.writes i l → .write i l ∈ pre) (hy : ∀ i ∈ y, P.writes i l → .write i l ∉ pre) :
    value = P.sequence init x l := by
  obtain ⟨a, b, hab, ha, hb, rfl⟩ := h
  rcases List.append_eq_append_iff.mp (hab.symm.trans hxy) with ⟨c, rfl, rfl⟩ | ⟨c, rfl, rfl⟩
  · rw [sequence_append, sequence_of_not_writes c]
    intro i hi hw
    exact hb i (List.mem_append_left _ hi) (hx i (List.mem_append_right _ hi) hw)
  · rw [sequence_append, sequence_of_not_writes]
    intro i hi hw
    exact hy i (List.mem_append_left _ hi) hw (ha i (List.mem_append_right _ hi) hw)

/-- What an operation sees in the sequence. -/
def SeesIn (P : Operations ι L V) (order : List ι) (init : L → V) (i : ι) (seen : L → V) (l : L) :
    Prop :=
  ∀ x y, order = x ++ i :: y → seen l = P.sequence init x l

section Machine
variable [DecidableEq ι] [DecidableEq L] {init : L → V}

/-- After a part of the trace every location is settled, and every read saw what it sees
in the sequence. -/
structure Agrees (P : Operations ι L V) (order : List ι) (init : L → V) (pre : List (Event ι L))
    (s : Machine ι L V) : Prop where
  memory : ∀ l, Settled P order init pre (s.memory l) l
  seen : ∀ i l, .read i l ∈ pre → SeesIn P order init i (s.seen i) l

theorem Agrees.read (hserial : Serial P order trace) {pre post : List (Event ι L)} {i : ι} {l : L}
    (htrace : trace = pre ++ .read i l :: post) {s : Machine ι L V}
    (hs : Agrees P order init pre s) :
    Agrees P order init (pre ++ [.read i l]) (s.step P (.read i l)) := by
  have hmem : .read i l ∈ trace := by rw [htrace]; simp
  refine ⟨?_, ?_⟩
  · intro k
    obtain ⟨a, b, hab, ha, hb, hvalue⟩ := hs.memory k
    refine ⟨a, b, hab, fun j hj hw => List.mem_append_left _ (ha j hj hw), ?_, hvalue⟩
    intro j hj hmem
    rcases List.mem_append.mp hmem with hmem | hmem
    · exact hb j hj hmem
    · simp at hmem
  · intro j k hjk
    by_cases hnew : j = i ∧ k = l
    · obtain ⟨rfl, rfl⟩ := hnew
      intro x y hxy
      show Function.update s.seen j (Function.update (s.seen j) k (s.memory k)) j k = _
      rw [Function.update_self, Function.update_self]
      refine (hs.memory k).value_eq hxy ?_ ?_
      · -- earlier writers have written
        intro w hw hwrites
        exact hserial.write_read w j k ⟨x, y, hxy, hw⟩ hwrites (hserial.reads j k hmem).2 pre post
          htrace
      · -- this operation and later writers have not
        intro w hw hwrites
        rcases List.mem_cons.mp hw with rfl | hw
        · exact (hserial.in_place w k hmem hwrites).notMem hserial.nodup htrace
        · obtain ⟨c, d, rfl⟩ := List.append_of_mem hw
          have hearlier : Earlier order j w := ⟨x ++ j :: c, d, by rw [hxy]; simp, by simp⟩
          exact (hserial.read_write j w k hearlier hmem hwrites).notMem hserial.nodup htrace
    · have hold : .read j k ∈ pre := by
        rcases List.mem_append.mp hjk with h | h
        · exact h
        · have : j = i ∧ k = l := by simpa using h
          exact absurd this hnew
      have hsame : (s.step P (.read i l)).seen j k = s.seen j k := by
        show Function.update s.seen i (Function.update (s.seen i) l (s.memory l)) j k = _
        by_cases hj : j = i
        · subst hj
          rw [Function.update_self, Function.update_of_ne fun hk => hnew ⟨rfl, hk⟩]
        · rw [Function.update_of_ne hj]
      intro x y hxy
      rw [hsame]
      exact hs.seen j k hold x y hxy

theorem Agrees.write (hserial : Serial P order trace) {pre post : List (Event ι L)} {i : ι} {l : L}
    (htrace : trace = pre ++ .write i l :: post) {s : Machine ι L V}
    (hs : Agrees P order init pre s) :
    Agrees P order init (pre ++ [.write i l]) (s.step P (.write i l)) := by
  obtain ⟨hi, hwrites⟩ := (hserial.writes i l).mp (by rw [htrace]; simp)
  refine ⟨?_, ?_⟩
  · intro k
    by_cases hk : k = l
    · subst hk
      obtain ⟨x, y, hxy⟩ := List.append_of_mem hi
      refine ⟨x ++ [i], y, by rw [hxy]; simp, ?_, ?_, ?_⟩
      · intro w hw hwk
        rcases List.mem_append.mp hw with hw | hw
        · exact List.mem_append_left _
            (hserial.write_write w i k ⟨x, y, hxy, hw⟩ hwk hwrites pre post htrace)
        · rw [List.mem_singleton.mp hw]
          exact List.mem_append_right _ (List.mem_singleton_self _)
      · intro w hw hmem
        obtain ⟨c, d, rfl⟩ := List.append_of_mem hw
        have hearlier : Earlier order i w := ⟨x ++ i :: c, d, by rw [hxy]; simp, by simp⟩
        rcases List.mem_append.mp hmem with hmem | hmem
        · have hwk : P.writes w k :=
            ((hserial.writes w k).mp (by rw [htrace]; exact List.mem_append_left _ hmem)).2
          exact (hserial.write_write i w k hearlier hwrites hwk).notMem hserial.nodup htrace hmem
        · have hsame : w = i := by simpa using hmem
          have hnodup := hserial.order_nodup
          rw [hxy, hsame] at hnodup
          have := (List.nodup_append.mp hnodup).2.1
          simp at this
      · show Function.update s.memory k (P.value i (s.seen i) k) k = _
        rw [Function.update_self, sequence_concat, apply_of_writes hwrites]
        refine P.value_congr i k _ _ fun u hu => ?_
        exact hs.seen i u (hserial.own i hi k u hwrites hu pre post htrace) x y hxy
    · obtain ⟨a, b, hab, ha, hb, hvalue⟩ := hs.memory k
      refine ⟨a, b, hab, fun j hj hw => List.mem_append_left _ (ha j hj hw), ?_, ?_⟩
      · intro j hj hmem
        rcases List.mem_append.mp hmem with hmem | hmem
        · exact hb j hj hmem
        · have : j = i ∧ k = l := by simpa using hmem
          exact hk this.2
      · show Function.update s.memory l _ k = _
        rw [Function.update_of_ne hk]
        exact hvalue
  · intro j k hjk
    refine hs.seen j k ?_
    rcases List.mem_append.mp hjk with h | h
    · exact h
    · simp at h

theorem Serial.agrees (hserial : Serial P order trace) (seen : ι → L → V) :
    ∀ pre post, trace = pre ++ post → Agrees P order init pre (Machine.run P ⟨init, seen⟩ pre) := by
  intro pre
  induction pre using List.reverseRecOn with
  | nil =>
    intro post _
    refine ⟨fun l => ⟨[], order, rfl, by simp, by simp, rfl⟩, by simp⟩
  | append_singleton pre e ih =>
    intro post htrace
    have hpre : trace = pre ++ e :: post := by rw [htrace]; simp
    have hs := ih (e :: post) hpre
    have hrun : Machine.run P ⟨init, seen⟩ (pre ++ [e]) =
        (Machine.run P ⟨init, seen⟩ pre).step P e := by simp [Machine.run]
    rw [hrun]
    cases e with
    | read i l => exact hs.read hserial hpre
    | write i l => exact hs.write hserial hpre

/-- **The trace leaves what the sequence leaves.** -/
theorem Serial.final (hserial : Serial P order trace) (seen : ι → L → V) (l : L) :
    (Machine.run P ⟨init, seen⟩ trace).memory l = P.sequence init order l := by
  have hs := @Serial.agrees _ _ _ _ _ _ _ _ init hserial seen trace [] (by simp)
  refine (hs.memory l).value_eq (List.append_nil order).symm ?_ (by simp)
  intro i hi hw
  exact (hserial.writes i l).mpr ⟨hi, hw⟩

/-- **Every read of the trace sees what it sees in the sequence.** -/
theorem Serial.seen (hserial : Serial P order trace) (seen : ι → L → V) {i : ι} {l : L}
    (hmem : .read i l ∈ trace) :
    SeesIn P order init i ((Machine.run P ⟨init, seen⟩ trace).seen i) l :=
  (hserial.agrees seen trace [] (by simp)).seen i l hmem

end Machine

end Serial

end VeriCCL.Trace
