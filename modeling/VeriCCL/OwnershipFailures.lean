import VeriCCL.GpuOwnership

/-! # Ownership of GPUs across failures

What the calls of `GPUOwnershipRegistry` keep over every sequence of calls, by any number of
processes and owners, wherever `_write` stops.  Ownership itself is never lost or shared.  But a
call that leaves its temporary file behind locks its own process out, since the next one creates
the file exclusively under the same name (`ownership_survives_iff`). -/
namespace VeriCCL

section Plans

variable {ε : Type} {values : Dict String (OwnershipRecord ε)}

/-! ## What a call is about to write -/

theorem identities_ok {devices : List String} {owner : String} {sorted : List String}
    (h : identities devices owner = .ok sorted) :
    sorted.Nodup ∧ sorted ≠ [] ∧ ∀ d, d ∈ sorted ↔ d ∈ devices := by
  simp only [identities] at h
  split at h
  · cases h
  · rename_i hvalid
    push Not at hvalid
    cases h
    refine ⟨?_, hvalid.1, fun d => ?_⟩
    · exact (List.perm_insertionSort _ _).nodup_iff.mpr (List.nodup_dedup _)
    · simp [sortStrings]

/-- A device that passes the checks of `acquire` is free, or its owner's and in use. -/
theorem checkDevice_ok {owner device : String} {u : Unit} {record : OwnershipRecord ε}
    (h : checkDevice values owner device = .ok u) (hrecord : values.get? device = some record) :
    (record.state ≠ .released → record.owner = owner) ∧
      (record.owner = owner → record.state ≠ .quarantined) := by
  simp only [checkDevice, hrecord, Checked.bind_ok, Checked.ensure_ok] at h
  obtain ⟨-, hforeign, hunresolved⟩ := h
  exact ⟨fun hstate => not_not.mp fun howner => hforeign ⟨hstate, howner⟩,
    fun howner hstate => hunresolved ⟨howner, hstate⟩⟩

theorem foldl_set_get? {devices : List String} (record : OwnershipRecord ε)
    (values : Dict String (OwnershipRecord ε)) (d : String) :
    (devices.foldl (fun values device => values.set device record) values).get? d =
      if d ∈ devices then some record else values.get? d := by
  induction devices generalizing values with
  | nil => simp
  | cons device devices ih =>
    rw [List.foldl_cons, ih, Dict.get?_set]
    by_cases hd : d ∈ devices
    · simp [hd]
    · by_cases heq : device = d
      · simp [heq]
      · simp [hd, heq, Ne.symm heq]

/-- **`acquire` writes one entry for each of its devices, and only for them.** -/
theorem acquirePlan_ok {devices : List String} {owner : String} {evidence : ε}
    {plan : Dict String (OwnershipRecord ε) × RegistryEvent ε}
    (h : acquirePlan values devices owner evidence = .ok plan) :
    (∀ d ∈ devices, checkDevice values owner d = .ok ()) ∧
      ∀ d, plan.1.get? d =
        if d ∈ devices then some { owner, state := .active, evidence } else values.get? d := by
  simp only [acquirePlan, Checked.bind_ok, Checked.pure_ok] at h
  obtain ⟨sorted, hsorted, u, hchecks, rfl⟩ := h
  obtain ⟨-, -, hmem⟩ := identities_ok hsorted
  refine ⟨fun d hd => Checked.forM_ok.mp hchecks d ((hmem d).mpr hd), fun d => ?_⟩
  rw [foldl_set_get?]
  simp only [hmem]

theorem foldl_finish_get? {devices : List String} (hnodup : devices.Nodup)
    {processClean gpuReleased : Bool} (values : Dict String (OwnershipRecord ε)) (d : String) :
    (devices.foldl (finishDevice processClean gpuReleased) values).get? d =
      if d ∈ devices then (values.get? d).map (·.finished processClean gpuReleased)
      else values.get? d := by
  induction devices generalizing values with
  | nil => simp
  | cons device devices ih =>
    obtain ⟨hnot, hnodup⟩ := List.nodup_cons.mp hnodup
    rw [List.foldl_cons, ih hnodup]
    by_cases heq : d = device
    · subst heq
      cases hget : values.get? d <;> simp [finishDevice, hnot, hget]
    · cases hget : values.get? device with
      | none => simp [finishDevice, heq, hget]
      | some record => simp [finishDevice, heq, hget, Dict.get?_set_ne _ _ (Ne.symm heq)]

/-- **`finish` writes the state of its devices, all of them its owner's.** -/
theorem finishPlan_ok {devices : List String} {owner : String} {processClean gpuReleased : Bool}
    {plan : Dict String (OwnershipRecord ε) × RegistryEvent ε}
    (h : finishPlan values devices owner processClean gpuReleased = .ok plan) :
    (∀ d ∈ devices, (values.get? d).map (·.owner) = some owner) ∧
      ∀ d, plan.1.get? d =
        if d ∈ devices then (values.get? d).map (·.finished processClean gpuReleased)
        else values.get? d := by
  simp only [finishPlan, Checked.bind_ok, Checked.pure_ok, Checked.ensure_ok] at h
  obtain ⟨sorted, hsorted, u, howners, rfl⟩ := h
  obtain ⟨hnodup, -, hmem⟩ := identities_ok hsorted
  refine ⟨fun d hd => howners d ((hmem d).mpr hd), fun d => ?_⟩
  simp only [foldl_finish_get? hnodup, hmem]

/-- Without both receipts the device is quarantined. -/
theorem OwnershipRecord.finished_state (record : OwnershipRecord ε) {processClean gpuReleased : Bool}
    (h : ¬ (processClean = true ∧ gpuReleased = true)) :
    (record.finished processClean gpuReleased).state = .quarantined := by
  simp [OwnershipRecord.finished, finishState, h]

end Plans

/-- The call is an `acquire` of the device for the owner. -/
def OwnershipCall.Acquires {ε : Type} (device owner : String) : OwnershipCall ε → Prop
  | .acquire devices o _ => device ∈ devices ∧ o = owner
  | .finish _ _ _ _ => False

/-- The call is a `finish` of the device by the owner with both receipts. -/
def OwnershipCall.CleanFinish {ε : Type} (device owner : String) : OwnershipCall ε → Prop
  | .acquire _ _ _ => False
  | .finish devices o processClean gpuReleased =>
    device ∈ devices ∧ o = owner ∧ processClean = true ∧ gpuReleased = true

namespace RegistryFiles

variable {ε : Type} {files : RegistryFiles ε} {s : OwnershipStep ε} {device owner : String}

/-! ## One call -/

/-- **What a call leaves behind**: the files as they were; or a temporary file more; or all it
was about to write. -/
theorem step_cases (files : RegistryFiles ε) (s : OwnershipStep ε) :
    (¬ files.Begun s ∧ (files.step s).1 = files) ∨
      (files.Abandons s ∧
        (files.step s).1 = { files with partials := insert s.process files.partials }) ∨
      (files.Stored s ∧ ∃ plan, s.call.plan files.values = .ok plan ∧
        (files.step s).1.values = plan.1 ∧ (files.step s).1.partials = files.partials) := by
  cases hplan : s.call.plan files.values with
  | error e =>
    refine .inl ⟨?_, by simp [step, hplan]⟩
    rintro ⟨⟨plan, hok⟩, -⟩
    cases hok.symm.trans hplan
  | ok plan =>
    have hstep : files.step s = files.write s.process plan.1 plan.2 s.failure := by
      simp [step, hplan]
    by_cases hpartial : s.process ∈ files.partials
    · exact .inl ⟨fun hbegun => hbegun.2.1 hpartial, by simp [hstep, write, hpartial]⟩
    · have hbegun : s.failure ≠ some .creation → files.Begun s :=
        fun h => ⟨⟨plan, hplan⟩, hpartial, h⟩
      rw [hstep]
      cases hfailure : s.failure with
      | none => exact .inr (.inr ⟨⟨hbegun (by simp [hfailure]), by simp [hfailure]⟩, plan, rfl,
          by simp [write, hpartial]⟩)
      | some point =>
        cases point with
        | creation => exact .inl ⟨fun hbegun => hbegun.2.2 hfailure, by simp [write, hpartial]⟩
        | content => exact .inr (.inl ⟨⟨hbegun (by simp [hfailure]), .inl hfailure⟩,
            by simp [write, hpartial]⟩)
        | replacement => exact .inr (.inl ⟨⟨hbegun (by simp [hfailure]), .inr hfailure⟩,
            by simp [write, hpartial]⟩)
        | log written => exact .inr (.inr ⟨⟨hbegun (by simp [hfailure]), by simp [hfailure]⟩,
            plan, rfl, by simp [write, hpartial]⟩)
        | directory => exact .inr (.inr ⟨⟨hbegun (by simp [hfailure]), by simp [hfailure]⟩,
            plan, rfl, by simp [write, hpartial]⟩)

theorem step_abandons (files : RegistryFiles ε) (h : files.Abandons s) :
    (files.step s).1 = { files with partials := insert s.process files.partials } := by
  rcases files.step_cases s with ⟨hnot, -⟩ | ⟨-, hsame⟩ | ⟨⟨-, hcontent, hreplacement⟩, -⟩
  · exact absurd h.1 hnot
  · exact hsame
  · rcases h.2 with hfailure | hfailure
    · exact absurd hfailure hcontent
    · exact absurd hfailure hreplacement

/-- A call without a failure returns unless its checks or a temporary file stop it. -/
theorem step_ok_iff {process : ℕ} {call : OwnershipCall ε}
    (hplan : ∃ plan, call.plan files.values = .ok plan) :
    (files.step ⟨process, call, none⟩).2 = .ok () ↔ process ∉ files.partials := by
  obtain ⟨plan, hplan⟩ := hplan
  by_cases hpartial : process ∈ files.partials <;> simp [step, hplan, write, hpartial]

/-- A call that returns has replaced the file. -/
theorem stored_of_ok (h : (files.step s).2 = .ok ()) : files.Stored s := by
  cases hplan : s.call.plan files.values with
  | error e => simp [step, hplan] at h
  | ok plan =>
    have hstep : files.step s = files.write s.process plan.1 plan.2 s.failure := by
      simp [step, hplan]
    rw [hstep] at h
    by_cases hpartial : s.process ∈ files.partials
    · simp [write, hpartial] at h
    · cases hfailure : s.failure with
      | none => exact ⟨⟨⟨plan, hplan⟩, hpartial, by simp [hfailure]⟩, by simp [hfailure]⟩
      | some point => cases point <;> simp [write, hpartial, hfailure] at h

/-! ## What is kept -/

/-- The registry holds the device for the owner. -/
def Retained (values : Dict String (OwnershipRecord ε)) (device owner : String) : Prop :=
  ∃ record, values.get? device = some record ∧ record.owner = owner ∧ record.state ≠ .released

/-- The registry holds the device for the owner, whose execution is unresolved. -/
def Quarantined (values : Dict String (OwnershipRecord ε)) (device owner : String) : Prop :=
  ∃ record, values.get? device = some record ∧ record.owner = owner ∧
    record.state = .quarantined

theorem Quarantined.retained {values : Dict String (OwnershipRecord ε)}
    (h : Quarantined values device owner) : Retained values device owner := by
  obtain ⟨record, hrecord, howner, hstate⟩ := h
  exact ⟨record, hrecord, howner, by simp [hstate]⟩

section Kept

variable {values : Dict String (OwnershipRecord ε)} {call : OwnershipCall ε}
  {plan : Dict String (OwnershipRecord ε) × RegistryEvent ε}

/-- Nobody else is given a device that is held. -/
theorem Retained.acquires {other : String} (h : Retained values device owner)
    (hplan : call.plan values = .ok plan) (hcall : call.Acquires device other) : other = owner := by
  obtain ⟨record, hrecord, howner, hstate⟩ := h
  cases call with
  | finish devices o processClean gpuReleased => cases hcall
  | acquire devices o evidence =>
    obtain ⟨hdevice, rfl⟩ := hcall
    obtain ⟨hchecks, -⟩ := acquirePlan_ok hplan
    exact ((checkDevice_ok (hchecks device hdevice) hrecord).1 hstate).symm.trans howner

/-- Nobody is given a device that is quarantined. -/
theorem Quarantined.not_acquires {other : String} (h : Quarantined values device owner)
    (hplan : call.plan values = .ok plan) : ¬ call.Acquires device other := by
  intro hcall
  obtain rfl := h.retained.acquires hplan hcall
  obtain ⟨record, hrecord, howner, hstate⟩ := h
  cases call with
  | finish devices o processClean gpuReleased => cases hcall
  | acquire devices o evidence =>
    obtain ⟨hdevice, rfl⟩ := hcall
    obtain ⟨hchecks, -⟩ := acquirePlan_ok hplan
    exact (checkDevice_ok (hchecks device hdevice) hrecord).2 howner hstate

/-- An entry is left as it is, made anew for an `acquire`, or finished by its owner. -/
theorem plan_entry (hplan : call.plan values = .ok plan) (device : String) :
    plan.1.get? device = values.get? device ∨
      (∃ owner evidence, call.Acquires device owner ∧
        plan.1.get? device = some { owner, state := .active, evidence }) ∨
      ∃ devices owner processClean gpuReleased record,
        call = .finish devices owner processClean gpuReleased ∧ device ∈ devices ∧
        values.get? device = some record ∧ record.owner = owner ∧
        plan.1.get? device = some (record.finished processClean gpuReleased) := by
  cases call with
  | acquire devices owner evidence =>
    obtain ⟨-, hget⟩ := acquirePlan_ok hplan
    by_cases hdevice : device ∈ devices
    · exact .inr (.inl ⟨owner, evidence, ⟨hdevice, rfl⟩, by rw [hget, if_pos hdevice]⟩)
    · exact .inl (by rw [hget, if_neg hdevice])
  | finish devices owner processClean gpuReleased =>
    obtain ⟨howners, hget⟩ := finishPlan_ok hplan
    by_cases hdevice : device ∈ devices
    · obtain ⟨record, hrecord, howner⟩ := Option.map_eq_some_iff.mp (howners device hdevice)
      exact .inr (.inr ⟨devices, owner, processClean, gpuReleased, record, rfl, hdevice, hrecord,
        howner, by rw [hget, if_pos hdevice, hrecord, Option.map_some]⟩)
    · exact .inl (by rw [hget, if_neg hdevice])

/-- **A held device stays held until its owner's clean finish.** -/
theorem Retained.kept (h : Retained values device owner) (hplan : call.plan values = .ok plan)
    (hfinish : ¬ call.CleanFinish device owner) : Retained plan.1 device owner := by
  rcases plan_entry hplan device with hsame | ⟨other, evidence, hcall, hentry⟩ |
    ⟨devices, other, processClean, gpuReleased, record, rfl, hdevice, hrecord, rfl, hentry⟩
  · obtain ⟨record, hrecord, hheld⟩ := h
    exact ⟨record, hsame.trans hrecord, hheld⟩
  · obtain rfl := h.acquires hplan hcall
    exact ⟨_, hentry, rfl, by simp⟩
  · obtain ⟨held, hheld, rfl, -⟩ := h
    obtain rfl : record = held := Option.some.inj (hrecord.symm.trans hheld)
    have hstate := record.finished_state fun hreceipts => hfinish ⟨hdevice, rfl, hreceipts⟩
    exact ⟨_, hentry, rfl, by simp [hstate]⟩

/-- **A quarantined device stays quarantined until its owner's clean finish.** -/
theorem Quarantined.kept (h : Quarantined values device owner) (hplan : call.plan values = .ok plan)
    (hfinish : ¬ call.CleanFinish device owner) : Quarantined plan.1 device owner := by
  rcases plan_entry hplan device with hsame | ⟨other, evidence, hcall, hentry⟩ |
    ⟨devices, other, processClean, gpuReleased, record, rfl, hdevice, hrecord, rfl, hentry⟩
  · obtain ⟨record, hrecord, hheld⟩ := h
    exact ⟨record, hsame.trans hrecord, hheld⟩
  · exact absurd hcall (h.not_acquires hplan)
  · obtain ⟨held, hheld, rfl, -⟩ := h
    obtain rfl : record = held := Option.some.inj (hrecord.symm.trans hheld)
    exact ⟨_, hentry, rfl,
      record.finished_state fun hreceipts => hfinish ⟨hdevice, rfl, hreceipts⟩⟩

end Kept

/-! ## Runs -/

/-- Among these calls a clean finish of the device by the owner takes effect. -/
def FreedDuring (device owner : String) : RegistryFiles ε → List (OwnershipStep ε) → Prop
  | _, [] => False
  | files, s :: run =>
    (files.Stored s ∧ s.call.CleanFinish device owner) ∨
      FreedDuring device owner (files.step s).1 run

@[simp] theorem after_nil (files : RegistryFiles ε) : files.after [] = files := rfl

@[simp] theorem after_cons (files : RegistryFiles ε) (s : OwnershipStep ε)
    (run : List (OwnershipStep ε)) : files.after (s :: run) = (files.step s).1.after run := rfl

@[simp] theorem after_append (files : RegistryFiles ε) (run rest : List (OwnershipStep ε)) :
    files.after (run ++ rest) = (files.after run).after rest := List.foldl_append

section Kept

variable {K : Dict String (OwnershipRecord ε) → String → String → Prop}
  (hkept : ∀ {values : Dict String (OwnershipRecord ε)} {call : OwnershipCall ε}
    {plan : Dict String (OwnershipRecord ε) × RegistryEvent ε}, K values device owner →
    call.plan values = .ok plan → ¬ call.CleanFinish device owner → K plan.1 device owner)
include hkept

/-- What every plan but a clean finish keeps, every step keeps but a clean finish that takes
effect. -/
theorem kept_step (h : K files.values device owner)
    (hfree : ¬ (files.Stored s ∧ s.call.CleanFinish device owner)) :
    K (files.step s).1.values device owner := by
  rcases files.step_cases s with ⟨-, hsame⟩ | ⟨-, hsame⟩ | ⟨hstored, plan, hplan, hvalues, -⟩
  · rwa [hsame]
  · rwa [hsame]
  · rw [hvalues]
    exact hkept h hplan fun hfinish => hfree ⟨hstored, hfinish⟩

/-- And a run without such a step. -/
theorem kept_after {run : List (OwnershipStep ε)} (h : K files.values device owner)
    (hfree : ¬ FreedDuring device owner files run) : K (files.after run).values device owner := by
  induction run generalizing files with
  | nil => exact h
  | cons s run ih =>
    rw [FreedDuring, not_or] at hfree
    exact ih (kept_step hkept h hfree.1) hfree.2

end Kept

/-- What a stored call wrote. -/
theorem Stored.plan (h : files.Stored s) : ∃ plan, s.call.plan files.values = .ok plan ∧
    (files.step s).1.values = plan.1 ∧ (files.step s).1.partials = files.partials := by
  rcases files.step_cases s with ⟨hnot, -⟩ | ⟨⟨-, hfailure⟩, -⟩ | ⟨-, hwritten⟩
  · exact absurd h.1 hnot
  · rcases hfailure with hfailure | hfailure
    · exact absurd hfailure h.2.1
    · exact absurd hfailure h.2.2
  · exact hwritten

/-- Any other call leaves the entries as they are. -/
theorem step_values_of_not_stored (h : ¬ files.Stored s) :
    (files.step s).1.values = files.values := by
  rcases files.step_cases s with ⟨-, hsame⟩ | ⟨-, hsame⟩ | ⟨hstored, -⟩
  · rw [hsame]
  · rw [hsame]
  · exact absurd hstored h

/-- What a stored `acquire` makes: the device is held. -/
theorem Stored.retained (h : files.Stored s) (hcall : s.call.Acquires device owner) :
    Retained (files.step s).1.values device owner := by
  obtain ⟨plan, hplan, hvalues, -⟩ := h.plan
  rw [hvalues]
  cases hstep : s.call with
  | finish devices o processClean gpuReleased => rw [hstep] at hcall; cases hcall
  | acquire devices o evidence =>
    rw [hstep] at hcall hplan
    obtain ⟨hdevice, rfl⟩ := hcall
    obtain ⟨-, hget⟩ := acquirePlan_ok hplan
    exact ⟨_, by rw [hget, if_pos hdevice], rfl, by simp⟩

/-- **An acquire takes all of its devices or changes nothing.** -/
theorem step_acquire {devices : List String} {evidence : ε}
    (hcall : s.call = .acquire devices owner evidence) :
    ((files.step s).1.values = files.values ∧ (files.step s).2 ≠ .ok ()) ∨
      ∀ device, (files.step s).1.values.get? device =
        if device ∈ devices then some { owner, state := .active, evidence }
        else files.values.get? device := by
  by_cases hstored : files.Stored s
  · obtain ⟨plan, hplan, hvalues, -⟩ := hstored.plan
    rw [hcall] at hplan
    rw [hvalues]
    exact .inr (acquirePlan_ok hplan).2
  · exact .inl ⟨step_values_of_not_stored hstored, fun hok => hstored (stored_of_ok hok)⟩

/-- **A finish changes devices of its owner only.** -/
theorem step_finish {devices : List String} {processClean gpuReleased : Bool}
    (hcall : s.call = .finish devices owner processClean gpuReleased)
    (hchange : (files.step s).1.values.get? device ≠ files.values.get? device) :
    device ∈ devices ∧ (files.values.get? device).map (·.owner) = some owner := by
  by_cases hstored : files.Stored s
  · obtain ⟨plan, hplan, hvalues, -⟩ := hstored.plan
    rw [hcall] at hplan
    obtain ⟨howners, hget⟩ := finishPlan_ok hplan
    by_cases hdevice : device ∈ devices
    · exact ⟨hdevice, howners device hdevice⟩
    · rw [hvalues, hget, if_neg hdevice] at hchange
      exact absurd rfl hchange
  · exact absurd (by rw [step_values_of_not_stored hstored]) hchange

/-- There is none as long as no call abandons its own. -/
theorem partials_after {run : List (OwnershipStep ε)} (hempty : files.partials = ∅)
    (h : ∀ before s after, run = before ++ s :: after → ¬ (files.after before).Abandons s) :
    (files.after run).partials = ∅ := by
  induction run generalizing files with
  | nil => exact hempty
  | cons s run ih =>
    rw [after_cons]
    refine ih ?_ fun before t after hrun => ?_
    · rcases files.step_cases s with ⟨-, hsame⟩ | ⟨habandons, -⟩ | ⟨-, plan, -, -, hpartials⟩
      · rw [hsame, hempty]
      · exact absurd habandons (h [] s run rfl)
      · rw [hpartials, hempty]
    · exact h (s :: before) t after (by rw [hrun, List.cons_append])

end RegistryFiles

/-! ## The promise of the registry -/

open RegistryFiles in
/-- **What the registry promises of a run**, from an empty directory on.  A call that returns is
`Stored`, and so may be one that is stopped after the replacement: also that counts as an acquire
that others are kept from, and as one that must not happen. -/
structure SurvivesFailures {ε : Type} (run : List (OwnershipStep ε)) : Prop where
  /-- Between an owner's acquire of a device and its clean finish nobody else acquires it. -/
  exclusive : ∀ before taking middle s after device owner other,
    run = before ++ taking :: (middle ++ s :: after) →
    taking.call.Acquires device owner → (RegistryFiles.after {} before).Stored taking →
    ¬ FreedDuring device owner (RegistryFiles.after {} (before ++ [taking])) middle →
    s.call.Acquires device other → other ≠ owner →
    ¬ (RegistryFiles.after {} (before ++ taking :: middle)).Stored s
  /-- A quarantined device is acquired by nobody until its owner's clean finish. -/
  quarantined : ∀ before middle s after device owner other, run = before ++ (middle ++ s :: after) →
    Quarantined (RegistryFiles.after {} before).values device owner →
    ¬ FreedDuring device owner (RegistryFiles.after {} before) middle →
    s.call.Acquires device other → ¬ (RegistryFiles.after {} (before ++ middle)).Stored s
  /-- An acquire takes all its devices, and no others, or changes nothing; all if it returns. -/
  whole : ∀ before s after devices owner evidence, run = before ++ s :: after →
    s.call = .acquire devices owner evidence →
    (((RegistryFiles.after {} before).step s).1.values = (RegistryFiles.after {} before).values ∧
      ((RegistryFiles.after {} before).step s).2 ≠ .ok ()) ∨
    ∀ device, ((RegistryFiles.after {} before).step s).1.values.get? device =
      if device ∈ devices then some { owner, state := .active, evidence }
      else (RegistryFiles.after {} before).values.get? device
  /-- A finish changes devices of its owner only. -/
  own : ∀ before s after devices owner processClean gpuReleased device, run = before ++ s :: after →
    s.call = .finish devices owner processClean gpuReleased →
    ((RegistryFiles.after {} before).step s).1.values.get? device ≠
      (RegistryFiles.after {} before).values.get? device →
    device ∈ devices ∧
      ((RegistryFiles.after {} before).values.get? device).map (·.owner) = some owner
  /-- In every state reached, every call that passes its checks can go through, from any
  process. -/
  proceeds : ∀ before after process call, run = before ++ after →
    (∃ plan, call.plan (RegistryFiles.after {} before).values = .ok plan) →
    ((RegistryFiles.after {} before).step ⟨process, call, none⟩).2 = .ok ()

open RegistryFiles in
/-- **Ownership survives failures exactly when no call abandons its temporary file.** -/
theorem ownership_survives_iff {ε : Type} (run : List (OwnershipStep ε)) :
    SurvivesFailures run ↔ ∀ before s after, run = before ++ s :: after →
      ¬ (RegistryFiles.after {} before).Abandons s := by
  constructor
  · -- the abandoned call, tried again by the same process, fails on its own file
    rintro h before s after rfl ⟨⟨⟨plan, hplan⟩, hpartial, hcreation⟩, hfailure⟩
    have hstep := (RegistryFiles.after {} before).step_abandons
      ⟨⟨⟨plan, hplan⟩, hpartial, hcreation⟩, hfailure⟩
    have hstate : RegistryFiles.after {} (before ++ [s]) =
        ((RegistryFiles.after {} before).step s).1 := by simp
    have hagain : ∃ plan, s.call.plan (RegistryFiles.after {} (before ++ [s])).values = .ok plan :=
      ⟨plan, by rw [hstate, hstep]; exact hplan⟩
    have hok := h.proceeds (before ++ [s]) after s.process s.call (by simp) hagain
    refine (step_ok_iff hagain).mp hok ?_
    rw [hstate, hstep]
    exact Finset.mem_insert_self _ _
  · intro h
    refine ⟨?_, ?_, ?_, ?_, ?_⟩
    · rintro before taking middle s after device owner other - htaking hstored hfree hcall hne hs
      obtain ⟨plan, hplan, -⟩ := hs.plan
      have hheld := kept_after Retained.kept
        (by simpa using hstored.retained htaking) hfree
      rw [after_append] at hplan hheld
      refine hne (Retained.acquires ?_ hplan hcall)
      simpa using hheld
    · rintro before middle s after device owner other - hquarantined hfree hcall hs
      obtain ⟨plan, hplan, -⟩ := hs.plan
      rw [after_append] at hplan
      exact (kept_after Quarantined.kept hquarantined hfree).not_acquires hplan hcall
    · rintro before s after devices owner evidence - hcall
      exact step_acquire hcall
    · rintro before s after devices owner processClean gpuReleased device - hcall hchange
      exact step_finish hcall hchange
    · rintro before after process call rfl hplan
      refine (step_ok_iff hplan).mpr ?_
      rw [partials_after rfl fun early s late hearly => h early s (late ++ after) (by simp [hearly])]
      exact Finset.notMem_empty _

/-- A process whose clean finish fails at replacing the file never gets through again. -/
theorem ownership_survives_leftover : ¬ SurvivesFailures (ε := Unit)
    [⟨7, .acquire ["GPU-one"] "run-one" (), none⟩,
      ⟨7, .finish ["GPU-one"] "run-one" true true, some .replacement⟩] := by
  intro h
  have hok := h.proceeds _ [] 7 (.finish ["GPU-one"] "run-one" true true) (List.append_nil _).symm
    ⟨_, rfl⟩
  revert hok
  decide +kernel

end VeriCCL
