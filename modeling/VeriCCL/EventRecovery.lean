import VeriCCL.EventLog

/-! # What a resumed run keeps of its events

A log is *framed* when it is the lines of its completed events and a tail without an end
of line.  Reading a framed log gives exactly these events, and repairing it leaves exactly
these lines.  An append keeps a log framed when its tail is empty; for `events.jsonl` the
repair sees to that, for the log of a rank nothing does.

The counter is not behind any event as long as every resume finds the last number in
`events.jsonl`; again nothing sees to that when the last event went to the log of a rank. -/
namespace VeriCCL.RunLogs

variable {D : Type} {codec : EventCodec D}

/-- The line of an event. -/
def line (codec : EventCodec D) (event : RunEvent D) : List UInt8 :=
  (codec.dumps event).getD [] ++ [newline]

/-- Bytes within a line. -/
def Inner (bytes : List UInt8) : Prop := newline ∉ bytes ∧ carriageReturn ∉ bytes

theorem Inner.take {bytes : List UInt8} (h : Inner bytes) (n : ℕ) : Inner (bytes.take n) :=
  ⟨fun hm => h.1 (List.mem_of_mem_take hm), fun hm => h.2 (List.mem_of_mem_take hm)⟩

/-! ## Lines -/

theorem splitLines_inner {bytes : List UInt8} (h : Inner bytes) :
    splitLines bytes = if bytes = [] then [] else [bytes] := by
  induction bytes with
  | nil => rfl
  | cons b rest ih =>
    have htail : Inner rest := ⟨fun hm => h.1 (List.mem_cons_of_mem _ hm),
      fun hm => h.2 (List.mem_cons_of_mem _ hm)⟩
    have hb : b ≠ newline := fun he => h.1 (he ▸ List.mem_cons_self)
    have hr : b ≠ carriageReturn := fun he => h.2 (he ▸ List.mem_cons_self)
    cases rest with
    | nil => rfl
    | cons c rest =>
      rw [splitLines, if_neg (by simp [hb, hr]), ih htail]
      rfl

/-- **The first line of a text** is what stands before its first end of line. -/
theorem splitLines_line {text : List UInt8} (h : Inner text) (rest : List UInt8) :
    splitLines (text ++ newline :: rest) = (text ++ [newline]) :: splitLines rest := by
  induction text with
  | nil =>
    cases rest with
    | nil => rfl
    | cons c rest =>
      show splitLines (newline :: c :: rest) = _
      rw [splitLines, if_pos (Or.inl rfl)]
      rfl
  | cons b text ih =>
    have htail : Inner text := ⟨fun hm => h.1 (List.mem_cons_of_mem _ hm),
      fun hm => h.2 (List.mem_cons_of_mem _ hm)⟩
    have hb : b ≠ newline := fun he => h.1 (he ▸ List.mem_cons_self)
    have hr : b ≠ carriageReturn := fun he => h.2 (he ▸ List.mem_cons_self)
    obtain ⟨c, more, hcons⟩ : ∃ c more, text ++ newline :: rest = c :: more := by
      cases text with
      | nil => exact ⟨_, _, rfl⟩
      | cons c text => exact ⟨_, _, rfl⟩
    have hsplit := ih htail
    rw [hcons] at hsplit
    rw [List.cons_append, hcons, splitLines, if_neg (by simp [hb, hr]), hsplit]
    rfl

theorem line_ne_nil (event : RunEvent D) : line codec event ≠ [] := by
  simp [line]

theorem getLast?_line (event : RunEvent D) : (line codec event).getLast? = some newline := by
  simp [line]

/-- The lines of events end where a line ends. -/
theorem getLast?_lines {events : List (RunEvent D)} (hne : events ≠ []) :
    (events.flatMap (line codec)).getLast? = some newline := by
  rcases List.eq_nil_or_concat events with rfl | ⟨init, last, rfl⟩
  · exact absurd rfl hne
  · simp only [List.concat_eq_append, List.flatMap_append, List.flatMap_cons, List.flatMap_nil,
      List.append_nil]
    rw [List.getLast?_append, getLast?_line]
    rfl

/-- **Reading a framed log** gives its events, and says whether there is a tail. -/
theorem readEvents_framed (hc : codec.Faithful) {events : List (RunEvent D)}
    (hprinted : ∀ event ∈ events, (codec.dumps event).isSome = true) {tail : List UInt8}
    (htail : Inner tail) :
    readEvents codec (events.flatMap (line codec) ++ tail) = .ok ⟨events, decide (tail ≠ [])⟩ := by
  unfold readEvents
  induction events with
  | nil =>
    rw [List.flatMap_nil, List.nil_append, splitLines_inner htail]
    by_cases hnil : tail = []
    · simp [hnil, scanLines]
    · have hlast : tail.getLast? ≠ some newline := fun he => htail.1 (List.mem_of_getLast? he)
      rw [if_neg hnil, scanLines, if_pos ⟨rfl, hlast⟩]
      simp [hnil]
  | cons event events ih =>
    obtain ⟨text, htext⟩ := Option.isSome_iff_exists.mp (hprinted event List.mem_cons_self)
    have hline : line codec event = text ++ [newline] := by
      unfold line
      rw [htext]
      rfl
    have hsplit := splitLines_line (hc.one_line event text htext)
      (events.flatMap (line codec) ++ tail)
    have hlast : ¬ (splitLines (events.flatMap (line codec) ++ tail) = [] ∧
        (text ++ [newline]).getLast? ≠ some newline) := fun h => h.2 (by simp)
    rw [List.flatMap_cons, hline, List.append_assoc, List.append_assoc, List.singleton_append,
      hsplit, scanLines, if_neg hlast, hc.read_back event text htext,
      ih fun e he => hprinted e (List.mem_cons_of_mem _ he)]
    rfl

/-- **Repairing a framed log** leaves the lines of its events. -/
theorem wholeLines_framed (events : List (RunEvent D)) {tail : List UInt8} (htail : Inner tail) :
    wholeLines (events.flatMap (line codec) ++ tail) = events.flatMap (line codec) := by
  have hdrop : ∀ b ∈ tail.reverse, decide (b ≠ newline) = true := by
    intro b hb
    refine decide_eq_true fun he => htail.1 ?_
    rw [← he]
    exact List.mem_reverse.mp hb
  have hself : (events.flatMap (line codec)).rdropWhile (· ≠ newline) =
      events.flatMap (line codec) := by
    rw [List.rdropWhile_eq_self_iff]
    intro hl
    have hne : events ≠ [] := fun he => hl (by rw [he]; rfl)
    have hlast : (events.flatMap (line codec)).getLast? = some newline := getLast?_lines hne
    rw [List.getLast?_eq_some_getLast hl, Option.some.injEq] at hlast
    simp [hlast]
  unfold wholeLines List.rdropWhile at *
  rw [List.reverse_append, List.dropWhile_append_of_pos hdrop, hself]

/-! ## The invariant -/

/-- Every log is framed by its completed events, the numbers grow over the whole run, and
the process that runs is not behind. -/
structure Recoverable (codec : EventCodec D) (s : RunLogs D) : Prop where
  framed : ∀ log, ∃ tail, s.files log = (s.completedIn log).flatMap (line codec) ++ tail ∧ Inner tail
  printed : ∀ event ∈ s.completed, (codec.dumps event).isSome = true
  increasing : (numbers s.completed).Pairwise (· < ·)
  counter : ∀ n, s.live = some n → ∀ event ∈ s.completed, event.sequence ≤ n
  main : s.live.isSome = true → s.Uncut none

theorem mem_completedIn {s : RunLogs D} {log : Option ℕ} {event : RunEvent D} :
    event ∈ s.completedIn log ↔ event ∈ s.completed ∧ event.rank = log := by
  simp [completedIn]

variable {s s' : RunLogs D}

/-- Reading a log of a recoverable state. -/
theorem Recoverable.read (hs : s.Recoverable codec) (hc : codec.Faithful) (log : Option ℕ) :
    ∃ tail, readEvents codec (s.files log) = .ok ⟨s.completedIn log, decide (tail ≠ [])⟩ ∧
      s.files log = (s.completedIn log).flatMap (line codec) ++ tail ∧ Inner tail := by
  obtain ⟨tail, hfile, htail⟩ := hs.framed log
  refine ⟨tail, ?_, hfile, htail⟩
  rw [hfile]
  exact readEvents_framed hc (fun event he => hs.printed event (mem_completedIn.mp he).1) htail

/-- In an uncut log there is no tail. -/
theorem Recoverable.uncut (hs : s.Recoverable codec) {log : Option ℕ} (hu : s.Uncut log) :
    s.files log = (s.completedIn log).flatMap (line codec) := by
  obtain ⟨tail, hfile, htail⟩ := hs.framed log
  suffices hnil : tail = [] by rw [hfile, hnil, List.append_nil]
  by_contra hne
  rcases hu with hempty | hlast
  · rw [hempty] at hfile
    exact hne (List.append_eq_nil_iff.mp hfile.symm).2
  · rw [hfile, List.getLast?_append, List.getLast?_eq_some_getLast hne, Option.some_or,
      Option.some.injEq] at hlast
    exact htail.1 (hlast ▸ List.getLast_mem hne)

/-- **A recoverable state is intact.** -/
theorem Recoverable.intact (hs : s.Recoverable codec) (hc : codec.Faithful) : s.Intact codec := by
  refine ⟨fun log => ?_, fun log => ?_, hs.increasing.imp fun hlt => hlt.ne⟩
  · obtain ⟨tail, hread, -, -⟩ := hs.read hc log
    exact ⟨_, hread⟩
  · exact hs.increasing.sublist ((List.filter_sublist).map _)

/-- A state whose process has died is as recoverable as before. -/
theorem Recoverable.dead (hs : s.Recoverable codec) :
    ({ s with live := none } : RunLogs D).Recoverable codec :=
  ⟨hs.framed, hs.printed, hs.increasing, fun n hn => by simp at hn, fun h => by simp at h⟩

/-- One more completed event is one more in its own log. -/
theorem completedIn_append {t : RunLogs D} {events : List (RunEvent D)} {event : RunEvent D}
    (ht : t.completed = events ++ [event]) (log : Option ℕ) :
    t.completedIn log =
      events.filter (·.rank = log) ++ if event.rank = log then [event] else [] := by
  unfold completedIn
  rw [ht, List.filter_append]
  by_cases h : event.rank = log <;> simp [h]

/-- **Writing an event to an uncut log** keeps the state recoverable, wherever a crash cuts
the line. -/
theorem Recoverable.write (hs : s.Recoverable codec) (hc : codec.Faithful) {event : RunEvent D}
    {text : List UInt8} (htext : codec.dumps event = some text) (hu : s.Uncut event.rank)
    (hmain : s.Uncut none) (hlater : ∀ e ∈ s.completed, e.sequence < event.sequence)
    (cut : Option ℕ) : (s.write event (text ++ [newline]) cut).Recoverable codec := by
  have hline : line codec event = text ++ [newline] := by
    unfold line
    rw [htext]
    rfl
  have hinner := hc.one_line event text htext
  have hprinted : ∀ e ∈ s.completed ++ [event], (codec.dumps e).isSome = true := by
    intro e he
    rcases List.mem_append.mp he with he | he
    · exact hs.printed e he
    · obtain rfl := List.mem_singleton.mp he
      rw [htext]
      rfl
  have hincreasing : (numbers (s.completed ++ [event])).Pairwise (· < ·) := by
    unfold numbers
    rw [List.map_append]
    refine List.pairwise_append.mpr ⟨hs.increasing, by simp, fun a ha b hb => ?_⟩
    obtain ⟨e, he, rfl⟩ := List.mem_map.mp ha
    simp only [List.map_cons, List.map_nil, List.mem_singleton] at hb
    exact hb ▸ hlater e he
  -- A whole line is one more completed event.
  have hwhole : ∀ log, ∃ tail, (s.append event.rank (text ++ [newline])).files log =
      (s.completed.filter (·.rank = log) ++ if event.rank = log then [event] else []).flatMap
        (line codec) ++ tail ∧ Inner tail := by
    intro log
    by_cases he : event.rank = log
    · subst he
      refine ⟨[], ?_, by simp [Inner]⟩
      show Function.update s.files event.rank _ event.rank = _
      rw [Function.update_self, hs.uncut hu, if_pos rfl, List.flatMap_append, List.append_nil,
        List.flatMap_singleton, hline]
      rfl
    · obtain ⟨tail, hfile, htail⟩ := hs.framed log
      refine ⟨tail, ?_, htail⟩
      show Function.update s.files event.rank _ log = _
      rw [Function.update_of_ne (Ne.symm he), if_neg he, List.append_nil]
      exact hfile
  cases cut with
  | none =>
    refine ⟨fun log => ?_, hprinted, hincreasing, fun n hn e he => ?_, fun _ => ?_⟩
    · rw [completedIn_append (t := s.write event _ none) rfl]
      exact hwhole log
    · obtain rfl : event.sequence = n := Option.some.inj hn
      rcases List.mem_append.mp he with he | he
      · exact (hlater e he).le
      · obtain rfl := List.mem_singleton.mp he
        exact le_rfl
    · show Function.update s.files event.rank _ none = [] ∨
        (Function.update s.files event.rank _ none).getLast? = some newline
      by_cases he : none = event.rank
      · rw [he, Function.update_self, ← List.append_assoc, List.getLast?_concat]
        exact Or.inr rfl
      · rw [Function.update_of_ne he]
        exact hmain
  | some n =>
    by_cases hall : (text ++ [newline]).length ≤ n
    · rw [RunLogs.write]
      simp only [List.take_of_length_le hall, if_pos hall]
      refine ⟨fun log => ?_, hprinted, hincreasing, fun n hn => by simp at hn,
        fun h => by simp at h⟩
      rw [completedIn_append rfl]
      exact hwhole log
    · rw [RunLogs.write]
      simp only [if_neg hall]
      refine ⟨fun log => ?_, hs.printed, hs.increasing, fun n hn => by simp at hn,
        fun h => by simp at h⟩
      show ∃ tail, Function.update s.files event.rank _ log = (s.completedIn log).flatMap _ ++ tail ∧ _
      by_cases he : log = event.rank
      · subst he
        have hle : n ≤ text.length := by
          rw [List.length_append, List.length_singleton] at hall
          omega
        refine ⟨text.take n, ?_, Inner.take hinner n⟩
        rw [Function.update_self, hs.uncut hu, List.take_append_of_le_length hle]
      · rw [Function.update_of_ne he]
        exact hs.framed log

/-- **Emitting an event** to an uncut log keeps the state recoverable. -/
theorem Recoverable.emit (hs : s.Recoverable codec) (hc : codec.Faithful) {emission : Emission D}
    {cut : Option ℕ} (hu : s.Uncut emission.rank) (hstep : s.emit codec emission cut = some s') :
    s'.Recoverable codec := by
  unfold RunLogs.emit at hstep
  cases hlive : s.live with
  | none => simp [hlive] at hstep
  | some sequence =>
    have hcounter := hs.counter sequence hlive
    have hmain := hs.main (by rw [hlive]; rfl)
    simp only [hlive] at hstep
    split at hstep
    · obtain rfl := Option.some.inj hstep
      exact hs
    · cases htext : codec.dumps (s.eventOf (sequence + 1) emission) with
      | none =>
        simp only [htext] at hstep
        obtain rfl := Option.some.inj hstep
        refine ⟨hs.framed, hs.printed, hs.increasing, fun n hn e he => ?_, fun _ => hmain⟩
        have hn' : sequence + 1 = n := Option.some.inj hn
        have := hcounter e he
        omega
      | some text =>
        simp only [htext] at hstep
        obtain rfl := Option.some.inj hstep
        refine hs.write hc htext hu hmain (fun e he => ?_) cut
        exact Nat.lt_succ_of_le (hcounter e he)

/-- **Resuming a run** whose last number is in `events.jsonl` keeps the state recoverable. -/
theorem Recoverable.restore (hs : s.Recoverable codec) (hc : codec.Faithful)
    {resumed : Emission D} {stop : RestoreStop} (hcareful : s.Careful codec (.restore resumed stop))
    (hstep : s.restore codec resumed stop = some s') : s'.Recoverable codec := by
  obtain ⟨tail, hread, hfile, htail⟩ := hs.read hc none
  have hlast : ∀ event ∈ s.completed,
      event.sequence ≤ (numbers (s.completedIn none)).foldl max 0 := by
    intro event he
    obtain ⟨tail', hread', -, -⟩ := hs.read hc event.rank
    exact hcareful _ hread event.rank _ _ hread' event (mem_completedIn.mpr ⟨he, rfl⟩)
  unfold RunLogs.restore at hstep
  cases hrecover : s.recover codec (s.files none) with
  | error fault => simp [hrecover] at hstep
  | ok result =>
    obtain ⟨sequence, repaired⟩ := result
    have hresult : sequence = (numbers (s.completedIn none)).foldl max 0 ∧
        repaired = (s.completedIn none).flatMap (line codec) := by
      unfold recover at hrecover
      rw [hread] at hrecover
      simp only [Checked.bind_ok, Checked.ensure_ok, Checked.pure_ok, Except.ok.injEq,
        Prod.mk.injEq] at hrecover
      obtain ⟨scan, rfl, _, -, _, -, rfl, rfl⟩ := hrecover
      refine ⟨rfl, ?_⟩
      by_cases hnil : tail = []
      · simp [hnil, hfile]
      · simp only [hnil, ne_eq, not_false_eq_true, decide_true, if_true]
        rw [hfile, wholeLines_framed _ htail]
    obtain ⟨rfl, rfl⟩ := hresult
    simp only [hrecover] at hstep
    set repair : RunLogs D := { s with
      files := Function.update s.files none ((s.completedIn none).flatMap (line codec)) } with hrepair
    have hrepaired : ∀ live, (∀ n, live = some n → ∀ e ∈ s.completed, e.sequence ≤ n) →
        ({ repair with live := live } : RunLogs D).Recoverable codec := by
      intro live hcounter
      refine ⟨fun log => ?_, hs.printed, hs.increasing, hcounter, fun _ => ?_⟩
      · show ∃ tail, Function.update s.files none _ log = (s.completedIn log).flatMap _ ++ tail ∧ _
        by_cases he : log = none
        · subst he
          exact ⟨[], by rw [Function.update_self, List.append_nil], by simp [Inner]⟩
        · rw [Function.update_of_ne he]
          exact hs.framed log
      · show Function.update s.files none _ none = [] ∨
          (Function.update s.files none _ none).getLast? = some newline
        rw [Function.update_self]
        by_cases hnil : s.completedIn none = []
        · left
          show (s.completedIn none).flatMap _ = []
          rw [hnil]
          rfl
        · exact Or.inr (getLast?_lines hnil)
    cases stop with
    | beforeRepair =>
      obtain rfl := Option.some.inj hstep
      exact hs.dead
    | afterRepair =>
      obtain rfl := Option.some.inj hstep
      exact hrepaired none fun n hn => by cases hn
    | emitting cut =>
      have hresumed := hrepaired (some ((numbers (s.completedIn none)).foldl max 0))
        fun n hn e he => by
          obtain rfl := Option.some.inj hn
          exact hlast e he
      exact hresumed.emit hc (hresumed.main rfl) hstep

/-- **A careful step** keeps the state recoverable. -/
theorem Recoverable.step (hs : s.Recoverable codec) (hc : codec.Faithful) {action : RunAction D}
    (hcareful : s.Careful codec action) (hstep : s.step codec action = some s') :
    s'.Recoverable codec := by
  cases action with
  | emit emission cut => exact hs.emit hc hcareful hstep
  | crash =>
    obtain rfl := Option.some.inj hstep
    exact hs.dead
  | restore resumed stop => exact hs.restore hc hcareful hstep

/-- A run that has just been created. -/
def fresh (taskId runId : String) : RunLogs D := { taskId := taskId, runId := runId }

theorem fresh_recoverable (taskId runId : String) :
    (fresh taskId runId : RunLogs D).Recoverable codec :=
  { framed := fun _ => ⟨[], rfl, by simp [Inner]⟩
    printed := fun _ he => by cases he
    increasing := List.Pairwise.nil
    counter := fun _ _ _ he => by cases he
    main := fun _ => Or.inl rfl }

/-- A resume is careful when the last number is in `events.jsonl`. -/
theorem Recoverable.careful_restore (hs : s.Recoverable codec) (hc : codec.Faithful)
    (hlast : ∀ event ∈ s.completed,
      event.sequence ≤ (numbers (s.completedIn none)).foldl max 0)
    (resumed : Emission D) (stop : RestoreStop) : s.Careful codec (.restore resumed stop) := by
  intro scan hscan log events tail hread event he
  obtain ⟨_, hnone, -, -⟩ := hs.read hc none
  obtain ⟨_, hlog, -, -⟩ := hs.read hc log
  rw [hnone] at hscan
  rw [hlog] at hread
  obtain rfl := Except.ok.inj hscan
  obtain ⟨rfl, -⟩ := EventScan.mk.inj (Except.ok.inj hread)
  exact hlast event (mem_completedIn.mp he).1

/-- A run of careful steps keeps the state recoverable. -/
theorem Recoverable.run (hs : s.Recoverable codec) (hc : codec.Faithful)
    {actions : List (RunAction D)} (hrun : s.run codec actions = some s')
    (hcareful : ∀ done action rest, actions = done ++ action :: rest →
      ∀ t, s.run codec done = some t → t.Careful codec action) : s'.Recoverable codec := by
  induction actions generalizing s with
  | nil =>
    obtain rfl : s = s' := Option.some.inj hrun
    exact hs
  | cons action actions ih =>
    unfold RunLogs.run at hrun
    rw [List.foldlM_cons] at hrun
    obtain ⟨t, hstep, hrest⟩ := Option.bind_eq_some_iff.mp hrun
    refine ih (hs.step hc (hcareful [] action actions rfl s rfl) hstep) hrest ?_
    intro done action' rest heq u hdone
    refine hcareful (action :: done) action' rest (by rw [heq]; rfl) u ?_
    unfold RunLogs.run
    rw [List.foldlM_cons]
    exact Option.bind_eq_some_iff.mpr ⟨t, hstep, hdone⟩

/-- **The event logs survive crashes and resumes of a careful run.**  When every event is
appended to a log that is not cut, and every resume finds the last number in
`events.jsonl`, then in every state of the run each log is read without an error and gives
exactly the events whose appends completed, in order, and no number is used twice. -/
theorem logs_intact_of_careful (codec : EventCodec D) (hc : codec.Faithful) (taskId runId : String)
    (actions : List (RunAction D)) (s : RunLogs D)
    (hrun : (fresh taskId runId).run codec actions = some s)
    (hcareful : ∀ done action rest, actions = done ++ action :: rest →
      ∀ t, (fresh taskId runId).run codec done = some t → t.Careful codec action) :
    s.Intact codec :=
  ((fresh_recoverable taskId runId).run hc hrun hcareful).intact hc

/-! ## A run whose last event is of a rank -/

/-- An event of the sample run. -/
def sampleEvent (sequence : ℕ) (rank : Option ℕ) (kind : String) : RunEvent Unit where
  taskId := "t"
  runId := "r"
  sequence := sequence
  timeUtc := "now"
  monotonicNs := 7
  node := "n"
  rank := rank
  kind := kind
  data := ()

/-- The call that emits it. -/
def sampleEmission (rank : Option ℕ) (kind : String) : Emission Unit where
  rank := rank
  kind := kind
  data := ()
  timeUtc := "now"
  monotonicNs := 7
  node := "n"

/-- The printed text of a sample event. -/
def sampleText (sequence rank kind : String) : List UInt8 :=
  ("\x7b\"schema_version\": 1, \"task_id\": \"t\", \"run_id\": \"r\", \"sequence\": " ++ sequence ++
    ", \"time_utc\": \"now\", \"monotonic_ns\": 7, \"node\": \"n\", \"rank\": " ++ rank ++
    ", \"kind\": \"" ++ kind ++ "\", \"data\": \x7b\x7d\x7d").toUTF8.data.toList

/-- The sample events and their texts. -/
def sampleTexts : List (RunEvent Unit × List UInt8) :=
  [(sampleEvent 1 none "run_started", sampleText "1" "null" "run_started"),
   (sampleEvent 2 (some 0) "rank_started", sampleText "2" "0" "rank_started"),
   (sampleEvent 3 none "run_checked", sampleText "3" "null" "run_checked"),
   (sampleEvent 2 none "run_resumed", sampleText "2" "null" "run_resumed"),
   (sampleEvent 4 none "run_resumed", sampleText "4" "null" "run_resumed")]

/-- A codec of the sample events. -/
def sampleCodec : EventCodec Unit where
  dumps event := (sampleTexts.find? fun p => p.1 = event).map (·.2)
  loads text := (sampleTexts.find? fun p => p.2 ++ [newline] = text).map (·.1)

theorem sampleCodec_faithful : sampleCodec.Faithful := by
  have htexts : ∀ p ∈ sampleTexts, newline ∉ p.2 ∧ carriageReturn ∉ p.2 := by decide
  have hloads : ∀ p ∈ sampleTexts, sampleCodec.loads (p.2 ++ [newline]) = some p.1 := by
    set_option maxRecDepth 2000 in decide
  have hdumps : ∀ event text, sampleCodec.dumps event = some text → (event, text) ∈ sampleTexts := by
    intro event text h
    obtain ⟨p, hp, rfl⟩ := Option.map_eq_some_iff.mp h
    have he : p.1 = event := by simpa using List.find?_some hp
    exact he ▸ List.mem_of_find?_eq_some hp
  exact ⟨fun event text h => htexts _ (hdumps event text h),
    fun event text h => hloads _ (hdumps event text h)⟩

/-- The last event before a crash is of rank 0, and the run is resumed. -/
def rankLast : List (RunAction Unit) :=
  [.emit (sampleEmission none "run_started") none,
   .emit (sampleEmission (some 0) "rank_started") none,
   .crash,
   .restore (sampleEmission none "run_resumed") (.emitting none)]

/-- **The resumed run uses the number of the rank's event again.** -/
theorem rank_number_reused :
    sampleCodec.Faithful ∧ ∃ s, (fresh "t" "r").run sampleCodec rankLast = some s ∧
      s.completed = [sampleEvent 1 none "run_started", sampleEvent 2 (some 0) "rank_started",
        sampleEvent 2 none "run_resumed"] ∧
      ¬ s.Intact sampleCodec := by
  have hrun : ((fresh "t" "r").run sampleCodec rankLast).map (·.completed) =
      some [sampleEvent 1 none "run_started", sampleEvent 2 (some 0) "rank_started",
        sampleEvent 2 none "run_resumed"] := by
    decide +kernel
  obtain ⟨s, hs, hcompleted⟩ := Option.map_eq_some_iff.mp hrun
  refine ⟨sampleCodec_faithful, s, hs, hcompleted, fun h => ?_⟩
  have := h.unique
  rw [hcompleted] at this
  revert this
  decide

/-- The same run, with an event in `events.jsonl` before the crash. -/
def mainLast : List (RunAction Unit) :=
  [.emit (sampleEmission none "run_started") none,
   .emit (sampleEmission (some 0) "rank_started") none,
   .emit (sampleEmission none "run_checked") none,
   .crash,
   .restore (sampleEmission none "run_resumed") (.emitting none)]

/-- Every step of it is careful. -/
theorem mainLast_careful : ∀ done action rest, mainLast = done ++ action :: rest →
    ∀ t, (fresh "t" "r").run sampleCodec done = some t → t.Careful sampleCodec action := by
  have huncut : ∀ (n : ℕ) (log : Option ℕ) (t : RunLogs Unit),
      ((fresh "t" "r").run sampleCodec (mainLast.take n)).all (·.Uncut log) = true →
      (fresh "t" "r").run sampleCodec (mainLast.take n) = some t → t.Uncut log := by
    intro n log t hall ht
    simpa [ht] using hall
  -- The four steps before the resume.
  have hbefore : ∀ n, n < 4 → ∀ action, mainLast[n]? = some action →
      ∀ t, (fresh "t" "r").run sampleCodec (mainLast.take n) = some t →
        t.Careful sampleCodec action := by
    intro n hn action haction t ht
    interval_cases n
    · obtain rfl := Option.some.inj haction
      exact huncut 0 none t (by decide) ht
    · obtain rfl := Option.some.inj haction
      exact huncut 1 (some 0) t (by decide) ht
    · obtain rfl := Option.some.inj haction
      exact huncut 2 none t (by decide) ht
    · obtain rfl := Option.some.inj haction
      trivial
  intro done action rest heq t ht
  have hdone : mainLast.take done.length = done := by rw [heq]; simp
  have haction : mainLast[done.length]? = some action := by rw [heq]; simp
  have hlength : done.length < 5 := by
    have := congrArg List.length heq
    rw [List.length_append, List.length_cons] at this
    have hfive : mainLast.length = 5 := rfl
    omega
  rw [← hdone] at ht
  by_cases hn : done.length < 4
  · exact hbefore _ hn action haction t ht
  · obtain hfour : done.length = 4 := by omega
    rw [hfour] at haction ht
    obtain rfl := Option.some.inj haction
    have hrecoverable : t.Recoverable sampleCodec := by
      refine (fresh_recoverable "t" "r").run sampleCodec_faithful ht ?_
      intro done' action' rest' heq' u hu
      have hlt : done'.length < 4 := by
        have := congrArg List.length heq'
        rw [List.length_append, List.length_cons] at this
        have hfive : (mainLast.take 4).length = 4 := rfl
        omega
      have hstart : mainLast.take done'.length = done' := by
        have := congrArg (List.take done'.length) heq'
        rw [List.take_take, min_eq_left hlt.le] at this
        rw [this]
        simp
      have hget : mainLast[done'.length]? = some action' := by
        have := congrArg (fun l => l[done'.length]?) heq'
        simp only [List.getElem?_take_of_lt hlt] at this
        rw [this]
        simp
      exact hbefore _ hlt action' hget u (by rw [hstart]; exact hu)
    refine hrecoverable.careful_restore sampleCodec_faithful ?_ _ _
    have hnumbers : ((fresh "t" "r").run sampleCodec (mainLast.take 4)).all (fun t =>
        decide (∀ event ∈ t.completed,
          event.sequence ≤ (numbers (t.completedIn none)).foldl max 0)) = true := by
      decide
    simpa [ht] using hnumbers

/-- The resumed run with an event in `events.jsonl` before the crash is intact. -/
theorem logs_intact_of_careful_main : ∃ s, (fresh "t" "r").run sampleCodec mainLast = some s ∧
    numbers s.completed = [1, 2, 3, 4] ∧ s.Intact sampleCodec := by
  have hrun : ((fresh "t" "r").run sampleCodec mainLast).map (fun s => numbers s.completed) =
      some [1, 2, 3, 4] := by
    decide +kernel
  obtain ⟨s, hs, hnumbers⟩ := Option.map_eq_some_iff.mp hrun
  exact ⟨s, hs, hnumbers, logs_intact_of_careful sampleCodec sampleCodec_faithful "t" "r" mainLast s
    hs mainLast_careful⟩

end VeriCCL.RunLogs
