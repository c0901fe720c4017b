import VeriCCL.LazyQueue
import Mathlib.Data.List.TakeWhile

/-! # The lazy queue chooses like the plain scan

The invariant (`Good`) says that a group holds the ready items of its site, and that the
queue has an entry for every group that holds one, with its current version and a key that
is not above the keys of its choices.  The exceptions are items that still have to be added
(`N`) and groups that still have to be entered (`D`).  When an entry in front is up to date,
its choice is the best there is. -/
set_option linter.unusedSectionVars false

namespace VeriCCL.LazyQueue

variable {ε σ τ ι T K : Type} [LinearOrder T] [LinearOrder τ] [LinearOrder K]
  [DecidableEq σ] [DecidableEq ι] {p : Problem ε σ τ ι T K} {I : ε → Prop} {env : ε}

/-- After a choice. -/
def Problem.placed (p : Problem ε σ τ ι T K) (env : ε) (c : Choice σ τ T K) : ε :=
  p.place env c.site c.start c.tail

/-- What the order of the choices relies on: a placement takes its item, frontiers only
rise, and what an item waits for is settled when it is ready. -/
structure Lawful (p : Problem ε σ τ ι T K) (I : ε → Prop) : Prop where
  nodup : p.items.Nodup
  ident : ∀ env id, p.ident (p.tail env id) = id
  mono : ∀ site start start' tail tail', start < start' ∨ start = start' ∧ tail ≤ tail' →
    p.key site start tail ≤ p.key site start' tail'
  inj : ∀ env, ∀ c ∈ p.choices env, ∀ c' ∈ p.choices env, c.key = c'.key → c = c'
  kept : ∀ env, I env → ∀ c ∈ p.choices env, I (p.placed env c)
  taken : ∀ env, ∀ c ∈ p.choices env, ∀ id,
    p.taken (p.placed env c) id = true ↔ p.taken env id = true ∨ id = p.ident c.tail
  frontier : ∀ env, I env → ∀ c ∈ p.choices env, ∀ site,
    p.frontier env site ≤ p.frontier (p.placed env c) site
  waiting : ∀ env, I env → ∀ c ∈ p.choices env, ∀ id ∈ p.items,
    (∀ q ∈ p.preds id, p.taken env q = true) →
    p.release (p.placed env c) id = p.release env id ∧ p.tail (p.placed env c) id = p.tail env id

theorem mem_ready {id : ι} : id ∈ p.ready env ↔
    id ∈ p.items ∧ p.taken env id = false ∧ ∀ q ∈ p.preds id, p.taken env q = true := by
  simp [Problem.ready]

theorem mem_choices {c : Choice σ τ T K} : c ∈ p.choices env ↔
    ∃ id ∈ p.ready env, ∃ site ∈ p.sites id, p.choice env id site = c := by
  simp [Problem.choices]

/-- The entry of an item in the releases of a group. -/
def Problem.entry (p : Problem ε σ τ ι T K) (env : ε) (id : ι) : T ×ₗ τ :=
  toLex (p.release env id, p.tail env id)

/-! ## Groups -/

/-- The item waits for the site. -/
def Problem.Fits (p : Problem ε σ τ ι T K) (env : ε) (id : ι) (site : σ) : Prop :=
  id ∈ p.ready env ∧ site ∈ p.sites id

/-- The entries of a group are in order, and up to date unless their item is taken. -/
structure Group.Sound (p : Problem ε σ τ ι T K) (env : ε) (g : Group σ τ T) : Prop where
  sorted : g.releases.Pairwise (· ≤ ·)
  ordered : g.eligible.Pairwise (· ≤ ·)
  released : ∀ e ∈ g.releases, p.taken env (p.ident (ofLex e).2) = false →
    p.Fits env (p.ident (ofLex e).2) g.site ∧ e = p.entry env (p.ident (ofLex e).2)
  passed : ∀ t ∈ g.eligible, p.taken env (p.ident t) = false →
    p.Fits env (p.ident t) g.site ∧ t = p.tail env (p.ident t) ∧
      p.release env (p.ident t) ≤ p.frontier env g.site

/-- A group holds an item. -/
def Group.Has (p : Problem ε σ τ ι T K) (env : ε) (g : Group σ τ T) (id : ι) : Prop :=
  p.entry env id ∈ g.releases ∨ p.tail env id ∈ g.eligible

/-- What is dropped from the front satisfies the test. -/
theorem mem_dropWhile_of_not {γ : Type} {q : γ → Bool} {l : List γ} {a : γ} (ha : a ∈ l)
    (hq : q a = false) : a ∈ l.dropWhile q := by
  have hsplit := List.takeWhile_append_dropWhile (p := q) (l := l)
  rw [← hsplit, List.mem_append] at ha
  rcases ha with ha | ha
  · rw [List.mem_takeWhile_imp ha] at hq
    cases hq
  · exact ha

/-- The items that become eligible. -/
theorem mem_foldl_push {q : τ → Bool} {t : τ} (entries : List (T ×ₗ τ)) : ∀ eligible : List τ,
    t ∈ entries.foldl (fun eligible e => if q (ofLex e).2 then eligible
      else eligible.orderedInsert (· ≤ ·) (ofLex e).2) eligible ↔
    t ∈ eligible ∨ q t = false ∧ ∃ e ∈ entries, (ofLex e).2 = t := by
  induction entries with
  | nil => simp
  | cons e entries ih =>
    intro eligible
    rw [List.foldl_cons, ih]
    by_cases hq : q (ofLex e).2 = true
    · rw [if_pos hq]
      constructor
      · rintro (h | ⟨hf, e', he', rfl⟩)
        · exact .inl h
        · exact .inr ⟨hf, e', List.mem_cons_of_mem _ he', rfl⟩
      · rintro (h | ⟨hf, e', he', rfl⟩)
        · exact .inl h
        · rcases List.mem_cons.mp he' with rfl | he'
          · rw [hq] at hf
            cases hf
          · exact .inr ⟨hf, e', he', rfl⟩
    · rw [if_neg hq, List.mem_orderedInsert]
      rw [Bool.not_eq_true] at hq
      constructor
      · rintro ((rfl | h) | ⟨hf, e', he', rfl⟩)
        · exact .inr ⟨hq, e, List.mem_cons_self, rfl⟩
        · exact .inl h
        · exact .inr ⟨hf, e', List.mem_cons_of_mem _ he', rfl⟩
      · rintro (h | ⟨hf, e', he', rfl⟩)
        · exact .inl (.inr h)
        · rcases List.mem_cons.mp he' with rfl | he'
          · exact .inl (.inl rfl)
          · exact .inr ⟨hf, e', he', rfl⟩

theorem pairwise_foldl_push {q : τ → Bool} (entries : List (T ×ₗ τ)) : ∀ eligible : List τ,
    eligible.Pairwise (· ≤ ·) →
    (entries.foldl (fun eligible e => if q (ofLex e).2 then eligible
      else eligible.orderedInsert (· ≤ ·) (ofLex e).2) eligible).Pairwise (· ≤ ·) := by
  induction entries with
  | nil => exact fun _ h => h
  | cons e entries ih =>
    intro eligible h
    rw [List.foldl_cons]
    refine ih _ ?_
    split
    · exact h
    · exact h.orderedInsert _ _

namespace Group

variable {g : Group σ τ T} {id : ι}

/-- The item of an entry. -/
theorem Sound.item (hg : g.Sound p env) {e : T ×ₗ τ} (he : e ∈ g.releases)
    (htaken : p.taken env (p.ident (ofLex e).2) = false) :
    (ofLex e).1 = p.release env (p.ident (ofLex e).2) ∧
      (ofLex e).2 = p.tail env (p.ident (ofLex e).2) := by
  obtain ⟨-, heq⟩ := hg.released e he htaken
  exact ⟨congrArg (fun x => (ofLex x).1) heq, congrArg (fun x => (ofLex x).2) heq⟩

/-- What the frontier passes stays sound. -/
theorem Sound.advance (hg : g.Sound p env) : (g.advance p env).Sound p env where
  sorted := hg.sorted.sublist (List.dropWhile_sublist _)
  ordered := (pairwise_foldl_push (q := fun t => p.taken env (p.ident t)) _ _ hg.ordered).sublist (List.dropWhile_sublist _)
  released e he := hg.released e ((List.dropWhile_sublist _).mem he)
  passed t ht htaken := by
    rcases (mem_foldl_push (q := fun t => p.taken env (p.ident t)) _ _).mp ((List.dropWhile_sublist _).mem ht) with h | ⟨-, e, he, rfl⟩
    · exact hg.passed t h htaken
    · have hmem := (List.takeWhile_sublist _).mem he
      obtain ⟨hfits, -⟩ := hg.released e hmem htaken
      obtain ⟨hrelease, htail⟩ := hg.item hmem htaken
      refine ⟨hfits, htail, ?_⟩
      rw [← hrelease]
      have hpassed := List.mem_takeWhile_imp he
      exact of_decide_eq_true hpassed

/-- The frontier passes items without losing one. -/
theorem has_advance (hp : Lawful p I) (hg : g.Sound p env) (htaken : p.taken env id = false) :
    (g.advance p env).Has p env id ↔ g.Has p env id := by
  have hident : p.ident (ofLex (p.entry env id)).2 = id := hp.ident env id
  constructor
  · rintro (h | h)
    · exact .inl ((List.dropWhile_sublist _).mem h)
    · rcases (mem_foldl_push (q := fun t => p.taken env (p.ident t)) _ _).mp ((List.dropWhile_sublist _).mem h) with h | ⟨-, e, he, heq⟩
      · exact .inr h
      · have hid : p.ident (ofLex e).2 = id := by rw [heq, hp.ident]
        have hmem := (List.takeWhile_sublist _).mem he
        obtain ⟨-, hentry⟩ := hg.released e hmem (by rw [hid]; exact htaken)
        rw [hid] at hentry
        exact .inl (hentry ▸ hmem)
  · rintro (h | h)
    · by_cases hpassed : p.release env id ≤ p.frontier env g.site
      · right
        refine mem_dropWhile_of_not ((mem_foldl_push (q := fun t => p.taken env (p.ident t)) _ _).mpr ?_) (by rw [hp.ident]; exact htaken)
        refine .inr ⟨by rw [hp.ident]; exact htaken, p.entry env id, ?_, rfl⟩
        -- the releases are in order, so a passed one stands before the first that is not
        by_contra hnot
        have hdrop : p.entry env id ∈ g.releases.dropWhile fun e =>
            decide ((ofLex e).1 ≤ p.frontier env g.site) := by
          have hsplit := List.takeWhile_append_dropWhile
            (p := fun e : T ×ₗ τ => decide ((ofLex e).1 ≤ p.frontier env g.site)) (l := g.releases)
          rw [← hsplit, List.mem_append] at h
          exact h.resolve_left hnot
        cases hrest : g.releases.dropWhile fun e =>
            decide ((ofLex e).1 ≤ p.frontier env g.site) with
        | nil =>
          rw [hrest] at hdrop
          cases hdrop
        | cons e rest =>
          have hhead := List.head?_dropWhile_not
            (fun e : T ×ₗ τ => decide ((ofLex e).1 ≤ p.frontier env g.site)) g.releases
          rw [hrest] at hhead hdrop
          have hsorted := hg.sorted.sublist (List.dropWhile_sublist fun e : T ×ₗ τ =>
            decide ((ofLex e).1 ≤ p.frontier env g.site))
          rw [hrest] at hsorted
          have hle : e ≤ p.entry env id := by
            rcases List.mem_cons.mp hdrop with h | h
            · exact h ▸ le_refl _
            · exact List.rel_of_pairwise_cons hsorted h
          have hfirst : (ofLex e).1 ≤ p.release env id := by
            rcases Prod.Lex.le_iff.mp hle with h | h
            · exact h.le
            · exact h.1.le
          have : decide ((ofLex e).1 ≤ p.frontier env g.site) = false := by simpa using hhead
          exact absurd (hfirst.trans hpassed) (of_decide_eq_false this)
      · exact .inl (mem_dropWhile_of_not h (decide_eq_false hpassed))
    · right
      exact mem_dropWhile_of_not ((mem_foldl_push (q := fun t => p.taken env (p.ident t)) _ _).mpr (.inl h)) (by rw [hp.ident]; exact htaken)

/-- What remains in the releases is after the frontier. -/
theorem frontier_lt (hg : g.Sound p env) {e : T ×ₗ τ} (he : e ∈ (g.advance p env).releases) :
    p.frontier env g.site < (ofLex e).1 := by
  unfold advance at he
  cases hrest : g.releases.dropWhile fun e => decide ((ofLex e).1 ≤ p.frontier env g.site) with
  | nil =>
    rw [hrest] at he
    cases he
  | cons a rest =>
    have hhead := List.head?_dropWhile_not
      (fun e : T ×ₗ τ => decide ((ofLex e).1 ≤ p.frontier env g.site)) g.releases
    have hsorted := hg.sorted.sublist (List.dropWhile_sublist fun e : T ×ₗ τ =>
      decide ((ofLex e).1 ≤ p.frontier env g.site))
    rw [hrest] at he hhead hsorted
    have hlt : p.frontier env g.site < (ofLex a).1 := by
      have : decide ((ofLex a).1 ≤ p.frontier env g.site) = false := by simpa using hhead
      exact not_le.mp (of_decide_eq_false this)
    rcases List.mem_cons.mp he with rfl | he
    · exact hlt
    · rcases Prod.Lex.le_iff.mp (List.rel_of_pairwise_cons hsorted he) with h | h
      · exact hlt.trans h
      · exact h.1 ▸ hlt

theorem Sound.trim (hg : g.Sound p env) : (g.trim p env).Sound p env where
  sorted := hg.sorted.sublist (List.dropWhile_sublist _)
  ordered := hg.ordered
  released e he := hg.released e ((List.dropWhile_sublist _).mem he)
  passed := hg.passed

theorem has_trim (hp : Lawful p I) (htaken : p.taken env id = false) :
    (g.trim p env).Has p env id ↔ g.Has p env id := by
  refine or_congr ⟨fun h => (List.dropWhile_sublist _).mem h, fun h => ?_⟩ Iff.rfl
  refine mem_dropWhile_of_not h ?_
  rw [show p.ident (ofLex (p.entry env id)).2 = id from hp.ident env id]
  exact htaken

/-- The first item of a heap that is trimmed is not taken. -/
theorem head_dropWhile {γ : Type} {q : γ → Bool} {l rest : List γ} {a : γ}
    (h : l.dropWhile q = a :: rest) : q a = false := by
  have hhead := List.head?_dropWhile_not q l
  rw [h] at hhead
  simpa using hhead

/-- **What a group offers**: nothing if it holds no item that is not taken, else the item of
its own with the least key. -/
inductive Offer (p : Problem ε σ τ ι T K) (env : ε) (g : Group σ τ T) :
    Option (Choice σ τ T K) → Prop where
  | none (h : ∀ id, p.taken env id = false → ¬ g.Has p env id) : Offer p env g none
  | some (id : ι) (hfits : p.Fits env id g.site) (hhas : g.Has p env id)
      (hleast : ∀ other, p.taken env other = false → g.Has p env other →
        (p.choice env id g.site).key ≤ (p.choice env other g.site).key) :
      Offer p env g (some (p.choice env id g.site))

theorem head_eligible {tail : τ} {rest : List τ}
    (h : (g.advance p env).eligible = tail :: rest) : p.taken env (p.ident tail) = false :=
  head_dropWhile (q := fun t => p.taken env (p.ident t)) h

theorem head_releases {e : T ×ₗ τ} {rest : List (T ×ₗ τ)} (h : (g.trim p env).releases = e :: rest) :
    p.taken env (p.ident (ofLex e).2) = false :=
  head_dropWhile (q := fun e : T ×ₗ τ => p.taken env (p.ident (ofLex e).2)) h

/-- An eligible item starts at the frontier. -/
theorem choice_eligible (hg : g.Sound p env) {tail : τ} (h : tail ∈ g.eligible)
    (htaken : p.taken env (p.ident tail) = false) :
    p.choice env (p.ident tail) g.site =
      ⟨p.key g.site (p.frontier env g.site) tail, g.site, p.frontier env g.site, tail⟩ := by
  obtain ⟨-, htail, hle⟩ := hg.passed tail h htaken
  unfold Problem.choice
  rw [max_eq_right hle, ← htail]

/-- An item after the frontier starts at its release. -/
theorem choice_released (hg : g.Sound p env) {e : T ×ₗ τ} (h : e ∈ g.releases)
    (htaken : p.taken env (p.ident (ofLex e).2) = false)
    (hlt : p.frontier env g.site < (ofLex e).1) :
    p.choice env (p.ident (ofLex e).2) g.site =
      ⟨p.key g.site (ofLex e).1 (ofLex e).2, g.site, (ofLex e).1, (ofLex e).2⟩ := by
  obtain ⟨hrelease, htail⟩ := hg.item h htaken
  unfold Problem.choice
  rw [hrelease] at hlt
  rw [max_eq_left hlt.le, ← hrelease, ← htail]

/-- The candidate, when an item is eligible. -/
theorem candidate_eligible (hg : g.Sound p env) {tail : τ} {rest : List τ}
    (h : (g.advance p env).eligible = tail :: rest) :
    g.candidate p env = (some (p.choice env (p.ident tail) g.site), g.advance p env) := by
  have hchoice := choice_eligible hg.advance (by rw [h]; exact List.mem_cons_self) (head_eligible h)
  unfold candidate
  simp only [h]
  exact congrArg (fun c => (some c, g.advance p env)) hchoice.symm

/-- The candidate, when all items are after the frontier. -/
theorem candidate_released (hg : g.Sound p env) {e : T ×ₗ τ} {rest : List (T ×ₗ τ)}
    (h : (g.advance p env).eligible = []) (h' : ((g.advance p env).trim p env).releases = e :: rest) :
    g.candidate p env =
      (some (p.choice env (p.ident (ofLex e).2) g.site), (g.advance p env).trim p env) := by
  have hmem : e ∈ ((g.advance p env).trim p env).releases := by
    rw [h']
    exact List.mem_cons_self
  have hchoice := choice_released hg.advance.trim hmem (head_releases h')
    (frontier_lt hg ((List.dropWhile_sublist _).mem hmem))
  unfold candidate
  simp only [h, h']
  exact congrArg (fun c => (some c, (g.advance p env).trim p env)) hchoice.symm

/-- The candidate of a group without items. -/
theorem candidate_none (h : (g.advance p env).eligible = [])
    (h' : ((g.advance p env).trim p env).releases = []) :
    g.candidate p env = (none, (g.advance p env).trim p env) := by
  unfold candidate
  simp only [h, h']

/-- **The candidate of a group is what it offers**, and looking for it loses nothing. -/
theorem candidate_spec (hp : Lawful p I) (hg : g.Sound p env) :
    g.Offer p env (g.candidate p env).1 ∧ (g.candidate p env).2.Sound p env ∧
    (∀ id, p.taken env id = false → ((g.candidate p env).2.Has p env id ↔ g.Has p env id)) ∧
    (g.candidate p env).2.site = g.site ∧ (g.candidate p env).2.version = g.version := by
  have hadvanced := hg.advance
  have hhas : ∀ id, p.taken env id = false → ((g.advance p env).Has p env id ↔ g.Has p env id) :=
    fun id htaken => has_advance hp hg htaken
  have htrimmed : ∀ id, p.taken env id = false →
      (((g.advance p env).trim p env).Has p env id ↔ g.Has p env id) :=
    fun id htaken => (has_trim hp htaken).trans (hhas id htaken)
  have hstart : ∀ other, p.frontier env g.site ≤ (p.choice env other g.site).start :=
    fun other => le_max_right _ _
  cases heligible : (g.advance p env).eligible with
  | cons tail rest =>
    have hmem : tail ∈ (g.advance p env).eligible := by rw [heligible]; exact List.mem_cons_self
    have htaken := head_eligible heligible
    obtain ⟨hfits, htail, -⟩ := hadvanced.passed tail hmem htaken
    rw [candidate_eligible hg heligible]
    refine ⟨?_, hadvanced, hhas, rfl, rfl⟩
    have hchoice := choice_eligible hadvanced hmem htaken
    refine .some _ hfits ((hhas _ htaken).mp (.inr (htail ▸ hmem))) fun other hother hholds => ?_
    -- another eligible item starts at the frontier too, the others start later
    rw [show (p.choice env (p.ident tail) g.site).key = p.key g.site (p.frontier env g.site) tail from
      congrArg (·.key) hchoice]
    refine hp.mono _ _ _ _ _ ?_
    rcases (hhas other hother).mpr hholds with h | h
    · left
      have hlt := frontier_lt hg h
      exact lt_of_lt_of_le hlt (le_max_left _ _)
    · have hle : tail ≤ p.tail env other := by
        have hordered := hadvanced.ordered
        rw [heligible] at h hordered
        rcases List.mem_cons.mp h with h | h
        · exact h.ge
        · exact List.rel_of_pairwise_cons hordered h
      rcases (hstart other).lt_or_eq with h | h
      · exact .inl h
      · exact .inr ⟨h, hle⟩
  | nil =>
    have hsound := hadvanced.trim
    have hnot : ∀ other, p.tail env other ∉ (g.advance p env).eligible := by
      intro other h
      rw [heligible] at h
      cases h
    cases hreleases : ((g.advance p env).trim p env).releases with
    | cons e rest =>
      have hmem : e ∈ ((g.advance p env).trim p env).releases := by
        rw [hreleases]
        exact List.mem_cons_self
      have hbefore : e ∈ (g.advance p env).releases := (List.dropWhile_sublist _).mem hmem
      have htaken := head_releases hreleases
      obtain ⟨hfits, hentry⟩ := hsound.released e hmem htaken
      rw [candidate_released hg heligible hreleases]
      refine ⟨?_, hsound, htrimmed, rfl, rfl⟩
      have hchoice := choice_released hsound hmem htaken (frontier_lt hg hbefore)
      refine .some _ hfits ((htrimmed _ htaken).mp (.inl (hentry ▸ hmem))) fun other hother hholds => ?_
      rw [show (p.choice env (p.ident (ofLex e).2) g.site).key =
        p.key g.site (ofLex e).1 (ofLex e).2 from congrArg (·.key) hchoice]
      refine hp.mono _ _ _ _ _ ?_
      have hother' := ((htrimmed other hother).mpr hholds).resolve_right (hnot other)
      have hle : e ≤ p.entry env other := by
        have hsorted := hsound.sorted
        rw [hreleases] at hother' hsorted
        rcases List.mem_cons.mp hother' with h | h
        · exact h.ge
        · exact List.rel_of_pairwise_cons hsorted h
      rcases Prod.Lex.le_iff.mp hle with h | ⟨h, h'⟩
      · exact .inl (lt_of_lt_of_le h (le_max_left _ _))
      · rcases (le_max_left (p.release env other) (p.frontier env g.site)).lt_or_eq with hlt | heq
        · exact .inl (lt_of_eq_of_lt h hlt)
        · exact .inr ⟨h.trans heq, h'⟩
    | nil =>
      rw [candidate_none heligible hreleases]
      refine ⟨.none fun id htaken hholds => ?_, hsound, htrimmed, rfl, rfl⟩
      rcases (htrimmed id htaken).mpr hholds with h | h
      · rw [hreleases] at h
        cases h
      · exact hnot id h

/-- The version does not matter for the candidate. -/
theorem Sound.withVersion (hg : g.Sound p env) (v : ℕ) :
    ({ g with version := v } : Group σ τ T).Sound p env :=
  ⟨hg.sorted, hg.ordered, hg.released, hg.passed⟩

end Group

/-! ## The invariant of the loop -/

/-- What holds between two looks at the queue.  `N` are ready items that still have to be
added to groups, `D` are groups that still have to be entered in the queue. -/
structure Good (p : Problem ε σ τ ι T K) (I : ε → Prop) (N : List ι) (D : Finset ℕ)
    (s : State ε σ τ ι T K) : Prop where
  kept : I s.env
  closed : ∀ id ∈ p.items, p.taken s.env id = true → ∀ q ∈ p.preds id, p.taken s.env q = true
  degrees : ∀ id ∈ p.items,
    s.degrees id = ((p.preds id).filter fun q => p.taken s.env q = false).card
  sound : ∀ g ∈ s.groups, g.Sound p s.env
  cover : ∀ id ∈ p.ready s.env, id ∉ N → ∀ site ∈ p.sites id,
    ∃ g ∈ s.groups, g.site = site ∧ g.Has p s.env id
  lower : ∀ i g, s.groups[i]? = some g → i ∉ D → ∀ id ∈ p.ready s.env, g.Has p s.env id →
    ∃ e ∈ s.queue, e.index = i ∧ e.version = g.version ∧ e.key ≤ (p.choice s.env id g.site).key
  known : ∀ e ∈ s.queue, ∃ g, s.groups[e.index]? = some g ∧ e.version ≤ g.version
  sorted : s.queue.Pairwise (· ≤ ·)

namespace Good

variable {N : List ι} {D : Finset ℕ} {s : State ε σ τ ι T K}

/-- Entries of the queue with an old version, and those of groups that are entered again, are
not needed. -/
theorem drop (h : Good p I N D s) {e : Entry K} {queue : List (Entry K)}
    (hqueue : s.queue = e :: queue)
    (hneed : e.index ∉ D → ∀ g, s.groups[e.index]? = some g → e.version = g.version →
      ∀ id ∈ p.ready s.env, ¬ g.Has p s.env id) :
    Good p I N D { s with queue := queue } where
  kept := h.kept
  closed := h.closed
  degrees := h.degrees
  sound := h.sound
  cover := h.cover
  lower i g hg hi id hid hhas := by
    obtain ⟨e', he', hindex, hversion, hkey⟩ := h.lower i g hg hi id hid hhas
    rw [hqueue] at he'
    rcases List.mem_cons.mp he' with rfl | he'
    · subst hindex
      exact absurd hhas (hneed hi g hg hversion id hid)
    · exact ⟨e', he', hindex, hversion, hkey⟩
  known e' he' := h.known e' (hqueue ▸ List.mem_cons_of_mem _ he')
  sorted := (hqueue ▸ h.sorted : (e :: queue).Pairwise (· ≤ ·)).of_cons

theorem widen (h : Good p I N D s) {D' : Finset ℕ} (hD : D ⊆ D') : Good p I N D' s :=
  { h with lower := fun i g hg hi => h.lower i g hg fun hmem => hi (hD hmem) }

/-- A group is replaced by one that holds the same items. -/
theorem replace (h : Good p I N D s) {i : ℕ} {g g' : Group σ τ T} (hg : s.groups[i]? = some g)
    (hsound : g'.Sound p s.env) (hsite : g'.site = g.site)
    (hhas : ∀ id, p.taken s.env id = false → (g'.Has p s.env id ↔ g.Has p s.env id))
    (hversion : g.version ≤ g'.version) (hD : i ∉ D → g'.version = g.version) :
    Good p I N D { s with groups := s.groups.set i g' } where
  kept := h.kept
  closed := h.closed
  degrees := h.degrees
  sound a ha := by
    rcases List.mem_or_eq_of_mem_set ha with ha | rfl
    · exact h.sound a ha
    · exact hsound
  cover id hid hN site hmem := by
    obtain ⟨a, ha, rfl, hholds⟩ := h.cover id hid hN site hmem
    obtain ⟨j, hj⟩ := List.mem_iff_getElem?.mp ha
    have hlength : i < s.groups.length := (List.getElem?_eq_some_iff.mp hg).1
    by_cases hij : i = j
    · subst hij
      obtain rfl : g = a := Option.some.inj (hg.symm.trans hj)
      exact ⟨g', List.mem_set hlength g', hsite, (hhas id (mem_ready.mp hid).2.1).mpr hholds⟩
    · refine ⟨a, List.mem_iff_getElem?.mpr ⟨j, ?_⟩, rfl, hholds⟩
      rw [List.getElem?_set_ne hij]
      exact hj
  lower j a ha hj id hid hholds := by
    by_cases hij : i = j
    · subst hij
      have hlength : i < s.groups.length := (List.getElem?_eq_some_iff.mp hg).1
      rw [List.getElem?_set_self hlength] at ha
      obtain rfl := Option.some.inj ha
      rw [hsite, hD hj]
      exact h.lower i g hg hj id hid ((hhas id (mem_ready.mp hid).2.1).mp hholds)
    · rw [List.getElem?_set_ne hij] at ha
      exact h.lower j a ha hj id hid hholds
  known e he := by
    obtain ⟨a, ha, hle⟩ := h.known e he
    by_cases hij : i = e.index
    · subst hij
      obtain rfl : g = a := Option.some.inj (hg.symm.trans ha)
      refine ⟨g', List.getElem?_set_self (List.getElem?_eq_some_iff.mp hg).1, hle.trans hversion⟩
    · exact ⟨a, by rw [List.getElem?_set_ne hij]; exact ha, hle⟩
  sorted := h.sorted

/-- **Entering a group** gives it an up-to-date entry. -/
theorem enqueue (hp : Lawful p I) (h : Good p I N D s) (i : ℕ) :
    Good p I N (D.erase i) (p.enqueue s i) := by
  unfold Problem.enqueue
  cases hg : s.groups[i]? with
  | none =>
    refine { h with lower := fun j g hj hD => h.lower j g hj fun hmem => hD ?_ }
    refine Finset.mem_erase.mpr ⟨?_, hmem⟩
    rintro rfl
    rw [hg] at hj
    cases hj
  | some g =>
    have hmem : g ∈ s.groups := List.mem_of_getElem? hg
    have hlength : i < s.groups.length := (List.getElem?_eq_some_iff.mp hg).1
    set g₁ : Group σ τ T := { g with version := g.version + 1 } with hg₁
    obtain ⟨hoffer, hsound, hhas, hsite, hversion⟩ :=
      Group.candidate_spec hp ((h.sound g hmem).withVersion (g.version + 1))
    have hversion' : (g₁.candidate p s.env).2.version = g.version + 1 := hversion
    have hreplaced := (h.widen (Finset.subset_insert i D)).replace hg hsound hsite hhas
      (by rw [hversion']; omega) (fun hnot => absurd (Finset.mem_insert_self i D) hnot)
    refine
      { kept := hreplaced.kept
        closed := hreplaced.closed
        degrees := hreplaced.degrees
        sound := hreplaced.sound
        cover := hreplaced.cover
        lower := fun j a ha hj id hid hholds => ?_
        known := fun e he => ?_
        sorted := ?_ }
    · by_cases hij : i = j
      · subst hij
        obtain rfl : (g₁.candidate p s.env).2 = a := by
          have := List.getElem?_set_self (a := (g₁.candidate p s.env).2) hlength
          exact Option.some.inj (this.symm.trans ha)
        have htaken := (mem_ready.mp hid).2.1
        have hheld := (hhas id htaken).mp hholds
        cases hcandidate : (g₁.candidate p s.env).1 with
        | none =>
          rw [hcandidate] at hoffer
          cases hoffer with
          | none hnone => exact absurd hheld (hnone id htaken)
        | some c =>
          rw [hcandidate] at hoffer
          refine ⟨Entry.of c.key i (g.version + 1), ?_, rfl, hversion'.symm, ?_⟩
          · show _ ∈ Entry.queued s.queue i (g.version + 1) (g₁.candidate p s.env).1
            rw [hcandidate]
            exact (List.mem_orderedInsert _).mpr (.inl rfl)
          · rw [hsite]
            cases hoffer with
            | some best hfits hbest hleast => exact hleast id htaken hheld
      · have hout : j ∉ insert i D := by
          intro hmem
          rcases Finset.mem_insert.mp hmem with h | h
          · exact hij h.symm
          · exact hj (Finset.mem_erase.mpr ⟨fun heq => hij heq.symm, h⟩)
        obtain ⟨e, he, hindex, hv, hkey⟩ := hreplaced.lower j a ha hout id hid hholds
        refine ⟨e, ?_, hindex, hv, hkey⟩
        exact Entry.mem_queued_of_mem he
    · rcases Entry.mem_queued he with he | ⟨k, rfl⟩
      · exact hreplaced.known e he
      · exact ⟨_, List.getElem?_set_self hlength, hversion'.ge⟩
    · exact Entry.queued_sorted h.sorted

/-! ### Adding items to groups -/

/-- Groups that gained items, where those that are not entered again stayed as they were. -/
structure Gained (p : Problem ε σ τ ι T K) (env : ε) (D : Finset ℕ)
    (groups groups' : List (Group σ τ T)) : Prop where
  sound : ∀ g ∈ groups', g.Sound p env
  more : ∀ g ∈ groups, ∃ g' ∈ groups', g'.site = g.site ∧ ∀ id, g.Has p env id → g'.Has p env id
  same : ∀ i ∉ D, groups'[i]? = groups[i]?
  version : ∀ (i : ℕ) (g : Group σ τ T), groups[i]? = some g →
    ∃ g' : Group σ τ T, groups'[i]? = some g' ∧ g.version ≤ g'.version

theorem Gained.refl {groups : List (Group σ τ T)} (h : ∀ g ∈ groups, g.Sound p env) (D : Finset ℕ) :
    Gained p env D groups groups :=
  ⟨h, fun g hg => ⟨g, hg, rfl, fun _ h => h⟩, fun _ _ => rfl, fun _ g hg => ⟨g, hg, le_rfl⟩⟩

theorem Gained.trans {D D' : Finset ℕ} {groups groups' groups'' : List (Group σ τ T)} (hD : D ⊆ D')
    (h : Gained p env D groups groups') (h' : Gained p env D' groups' groups'') :
    Gained p env D' groups groups'' where
  sound := h'.sound
  more g hg := by
    obtain ⟨g', hg', hsite, hhas⟩ := h.more g hg
    obtain ⟨g'', hg'', hsite', hhas'⟩ := h'.more g' hg'
    exact ⟨g'', hg'', hsite'.trans hsite, fun id hid => hhas' id (hhas id hid)⟩
  same i hi := (h'.same i hi).trans (h.same i fun hmem => hi (hD hmem))
  version i g hg := by
    obtain ⟨g', hg', hle⟩ := h.version i g hg
    obtain ⟨g'', hg'', hle'⟩ := h'.version i g' hg'
    exact ⟨g'', hg'', hle.trans hle'⟩

/-- The invariant when groups have gained items. -/
theorem gain (h : Good p I N D s) {D' : Finset ℕ} {groups : List (Group σ τ T)} (hD : D ⊆ D')
    (hgained : Gained p s.env D' s.groups groups) : Good p I N D' { s with groups := groups } where
  kept := h.kept
  closed := h.closed
  degrees := h.degrees
  sound := hgained.sound
  cover id hid hN site hsite := by
    obtain ⟨g, hg, hs, hhas⟩ := h.cover id hid hN site hsite
    obtain ⟨g', hg', hs', hhas'⟩ := hgained.more g hg
    exact ⟨g', hg', hs'.trans hs, hhas' id hhas⟩
  lower i g hg hi := h.lower i g ((hgained.same i hi).symm.trans hg) fun hmem => hi (hD hmem)
  known e he := by
    obtain ⟨g, hg, hle⟩ := h.known e he
    obtain ⟨g', hg', hle'⟩ := hgained.version _ g hg
    exact ⟨g', hg', hle.trans hle'⟩
  sorted := h.sorted

/-- A group with one more item. -/
theorem sound_insert (hp : Lawful p I) {g : Group σ τ T} (hg : g.Sound p env) {id : ι}
    (hfits : p.Fits env id g.site) :
    ({ g with releases := g.releases.orderedInsert (· ≤ ·) (p.entry env id) } :
      Group σ τ T).Sound p env where
  sorted := hg.sorted.orderedInsert _ _
  ordered := hg.ordered
  released e he htaken := by
    rcases (List.mem_orderedInsert _).mp he with rfl | he
    · have hid : p.ident (ofLex (p.entry env id)).2 = id := hp.ident env id
      rw [hid]
      exact ⟨hfits, rfl⟩
    · exact hg.released e he htaken
  passed := hg.passed

/-- **Adding an item to a site**: some group of the site holds it. -/
theorem addSite_gained (hp : Lawful p I) {groups : List (Group σ τ T)}
    (hgroups : ∀ g ∈ groups, g.Sound p env) (D : Finset ℕ) {id : ι} {site : σ}
    (hfits : p.Fits env id site) :
    D ⊆ (Problem.addSite (p.entry env id) (groups, D) site).2 ∧
    Gained p env (Problem.addSite (p.entry env id) (groups, D) site).2 groups
      (Problem.addSite (p.entry env id) (groups, D) site).1 ∧
    ∃ g ∈ (Problem.addSite (p.entry env id) (groups, D) site).1, g.site = site ∧ g.Has p env id := by
  unfold Problem.addSite
  cases hfind : groups.findIdx? (·.site = site) with
  | some i =>
    obtain ⟨hi, hsite, -⟩ := List.findIdx?_eq_some_iff_getElem.mp hfind
    have hsite : groups[i].site = site := of_decide_eq_true hsite
    set add : Group σ τ T → Group σ τ T := fun g =>
      { g with releases := g.releases.orderedInsert (· ≤ ·) (p.entry env id) } with hadd
    have hget : ∀ j, (groups.modify i add)[j]? = (fun g => if i = j then add g else g) <$> groups[j]? :=
      fun j => List.getElem?_modify add i groups j
    have hnew : (groups.modify i add)[i]? = some (add groups[i]) := by
      rw [hget, List.getElem?_eq_getElem hi]
      simp
    refine ⟨Finset.subset_insert _ _, ⟨fun g hg => ?_, fun g hg => ?_, fun j hj => ?_, fun j g hg => ?_⟩,
      add groups[i], List.mem_of_getElem? hnew, hsite, .inl ((List.mem_orderedInsert _).mpr (.inl rfl))⟩
    · obtain ⟨j, hj⟩ := List.mem_iff_getElem?.mp hg
      rw [hget] at hj
      obtain ⟨g₀, hg₀, rfl⟩ := Option.map_eq_some_iff.mp hj
      have hsound := hgroups g₀ (List.mem_of_getElem? hg₀)
      split
      · next hij =>
        subst hij
        obtain rfl : groups[i] = g₀ := by
          rw [List.getElem?_eq_getElem hi] at hg₀
          exact Option.some.inj hg₀
        exact sound_insert hp hsound (hsite ▸ hfits)
      · exact hsound
    · obtain ⟨j, hj⟩ := List.mem_iff_getElem?.mp hg
      refine ⟨if i = j then add g else g, List.mem_of_getElem? (i := j) ?_, ?_, fun other hhas => ?_⟩
      · rw [hget, hj]
        rfl
      · split <;> rfl
      · split
        · exact hhas.imp (fun h => (List.mem_orderedInsert _).mpr (.inr h)) fun h => h
        · exact hhas
    · have hij : i ≠ j := fun h => hj (h ▸ Finset.mem_insert_self i D)
      rw [hget]
      simp [hij]
    · refine ⟨if i = j then add g else g, ?_, ?_⟩
      · rw [hget, hg]
        rfl
      · split <;> exact le_rfl
  | none =>
    have hlast : (⟨site, [p.entry env id], [], 0⟩ : Group σ τ T).Sound p env := by
      have hempty : (⟨site, [], [], 0⟩ : Group σ τ T).Sound p env :=
        ⟨List.Pairwise.nil, List.Pairwise.nil, fun e he => (nomatch he), fun t ht => (nomatch ht)⟩
      exact sound_insert hp hempty hfits
    refine ⟨Finset.subset_insert _ _, ⟨fun g hg => ?_, fun g hg => ?_, fun j hj => ?_, fun j g hg => ?_⟩,
      _, List.mem_append_right _ (List.mem_singleton_self _), rfl, .inl (List.mem_singleton_self _)⟩
    · rcases List.mem_append.mp hg with hg | hg
      · exact hgroups g hg
      · rw [List.mem_singleton.mp hg]
        exact hlast
    · exact ⟨g, List.mem_append_left _ hg, rfl, fun _ h => h⟩
    · rcases lt_trichotomy j groups.length with h | h | h
      · rw [List.getElem?_append_left h]
      · exact absurd (Finset.mem_insert.mpr (.inl h)) hj
      · rw [List.getElem?_eq_none (by simp; omega), List.getElem?_eq_none h.le]
    · exact ⟨g, by rw [List.getElem?_append_left (List.getElem?_eq_some_iff.mp hg).1]; exact hg, le_rfl⟩

/-- Adding an item to some of its sites. -/
theorem addSites_gained (hp : Lawful p I) {id : ι} (sites : List σ)
    (hfits : ∀ site ∈ sites, p.Fits env id site) :
    ∀ (groups : List (Group σ τ T)) (D : Finset ℕ), (∀ g ∈ groups, g.Sound p env) →
      D ⊆ (sites.foldl (Problem.addSite (p.entry env id)) (groups, D)).2 ∧
      Gained p env (sites.foldl (Problem.addSite (p.entry env id)) (groups, D)).2 groups
        (sites.foldl (Problem.addSite (p.entry env id)) (groups, D)).1 ∧
      ∀ site ∈ sites, ∃ g ∈ (sites.foldl (Problem.addSite (p.entry env id)) (groups, D)).1,
        g.site = site ∧ g.Has p env id := by
  induction sites with
  | nil => exact fun groups D h => ⟨subset_rfl, Gained.refl h D, fun site hs => (nomatch hs)⟩
  | cons site sites ih =>
    intro groups D hgroups
    obtain ⟨hsub, hgained, hadded⟩ :=
      addSite_gained hp hgroups D (hfits site List.mem_cons_self)
    obtain ⟨hsub', hgained', hadded'⟩ := ih (fun s hs => hfits s (List.mem_cons_of_mem _ hs))
      (Problem.addSite (p.entry env id) (groups, D) site).1 (Problem.addSite (p.entry env id) (groups, D) site).2
      hgained.sound
    refine ⟨hsub.trans hsub', hgained.trans hsub' hgained', fun other hother => ?_⟩
    rcases List.mem_cons.mp hother with rfl | hother
    · obtain ⟨g, hg, hsite, hhas⟩ := hadded
      obtain ⟨g', hg', hsite', hhas'⟩ := hgained'.more g hg
      exact ⟨g', hg', hsite'.trans hsite, hhas' id hhas⟩
    · exact hadded' other hother

/-- **Adding a ready item** to the groups of its sites. -/
theorem addReady (hp : Lawful p I) {id : ι} (h : Good p I (id :: N) D s) (hid : id ∈ p.ready s.env) :
    Good p I N (p.addReady s.env (s.groups, D) id).2
      { s with groups := (p.addReady s.env (s.groups, D) id).1 } := by
  obtain ⟨hsub, hgained, hadded⟩ := addSites_gained hp (p.sites id) (fun site hs => ⟨hid, hs⟩)
    s.groups D h.sound
  have hgood := h.gain hsub hgained
  refine { hgood with cover := fun other hother hN site hsite => ?_ }
  by_cases heq : other = id
  · subst heq
    exact hadded site hsite
  · exact hgood.cover other hother (by simp [heq, hN]) site hsite

/-- Adding all items that are ready now. -/
theorem addAll (hp : Lawful p I) (ids : List ι) : ∀ (s : State ε σ τ ι T K) (D : Finset ℕ),
    Good p I ids D s → (∀ id ∈ ids, id ∈ p.ready s.env) →
    Good p I [] (ids.foldl (p.addReady s.env) (s.groups, D)).2
      { s with groups := (ids.foldl (p.addReady s.env) (s.groups, D)).1 } := by
  induction ids with
  | nil => exact fun s D h _ => h
  | cons id ids ih =>
    intro s D h hready
    have hone := h.addReady hp (hready id List.mem_cons_self)
    exact ih { s with groups := (p.addReady s.env (s.groups, D) id).1 } _ hone
      fun other hother => hready other (List.mem_cons_of_mem _ hother)

/-- Entering several groups. -/
theorem enqueueAll (hp : Lawful p I) (l : List ℕ) : ∀ (s : State ε σ τ ι T K) (D : Finset ℕ),
    Good p I N D s → Good p I N (D \ l.toFinset) (l.foldl p.enqueue s) := by
  induction l with
  | nil => exact fun s D h => by simpa using h
  | cons i l ih =>
    intro s D h
    have hrest := ih _ _ (h.enqueue hp i)
    rw [List.toFinset_cons, Finset.sdiff_insert, ← Finset.erase_sdiff_comm]
    exact hrest

/-- **Admitting items** leaves no exceptions. -/
theorem enter (hp : Lawful p I) {ids : List ι} (h : Good p I ids D s)
    (hready : ∀ id ∈ ids, id ∈ p.ready s.env) : Good p I [] ∅ (p.enter ids D s) := by
  have hadded := addAll hp ids s D h hready
  have hentered := enqueueAll hp ((ids.foldl (p.addReady s.env) (s.groups, D)).2.sort (· ≤ ·)) _ _ hadded
  rw [Finset.sort_toFinset, Finset.sdiff_self] at hentered
  exact hentered

/-! ### A placement -/

section Placement
variable {c : Choice σ τ T K}

/-- The item of a choice. -/
theorem ready_choice (hp : Lawful p I) (hc : c ∈ p.choices env) :
    p.ident c.tail ∈ p.ready env ∧ c = p.choice env (p.ident c.tail) c.site ∧
      c.site ∈ p.sites (p.ident c.tail) := by
  obtain ⟨id, hid, site, hsite, rfl⟩ := mem_choices.mp hc
  have hident : p.ident (p.choice env id site).tail = id := hp.ident env id
  rw [hident]
  exact ⟨hid, rfl, hsite⟩

theorem taken_placed (hp : Lawful p I) (hc : c ∈ p.choices env) {id : ι}
    (h : p.taken env id = true) : p.taken (p.placed env c) id = true :=
  (hp.taken env c hc id).mpr (.inl h)

theorem untaken_of_placed (hp : Lawful p I) (hc : c ∈ p.choices env) {id : ι}
    (h : p.taken (p.placed env c) id = false) : p.taken env id = false := by
  rw [Bool.eq_false_iff] at h ⊢
  exact fun htaken => h (taken_placed hp hc htaken)

/-- A ready item that is not placed stays ready. -/
theorem ready_placed (hp : Lawful p I) (hc : c ∈ p.choices env) {id : ι} (hid : id ∈ p.ready env)
    (htaken : p.taken (p.placed env c) id = false) : id ∈ p.ready (p.placed env c) := by
  obtain ⟨hmem, -, hpreds⟩ := mem_ready.mp hid
  exact mem_ready.mpr ⟨hmem, htaken, fun q hq => taken_placed hp hc (hpreds q hq)⟩

theorem entry_placed (hp : Lawful p I) (henv : I env) (hc : c ∈ p.choices env) {id : ι}
    (hid : id ∈ p.ready env) : p.entry (p.placed env c) id = p.entry env id ∧
      p.tail (p.placed env c) id = p.tail env id := by
  obtain ⟨hmem, -, hpreds⟩ := mem_ready.mp hid
  obtain ⟨hrelease, htail⟩ := hp.waiting env henv c hc id hmem hpreds
  unfold Problem.entry
  rw [hrelease, htail]
  exact ⟨rfl, rfl⟩

theorem has_placed (hp : Lawful p I) (henv : I env) (hc : c ∈ p.choices env) {id : ι}
    (hid : id ∈ p.ready env) (g : Group σ τ T) :
    g.Has p (p.placed env c) id ↔ g.Has p env id := by
  obtain ⟨hentry, htail⟩ := entry_placed hp henv hc hid
  unfold Group.Has
  rw [hentry, htail]

/-- **The keys of the others only rise.** -/
theorem key_placed (hp : Lawful p I) (henv : I env) (hc : c ∈ p.choices env) {id : ι}
    (hid : id ∈ p.ready env) (site : σ) :
    (p.choice env id site).key ≤ (p.choice (p.placed env c) id site).key := by
  obtain ⟨hmem, -, hpreds⟩ := mem_ready.mp hid
  obtain ⟨hrelease, htail⟩ := hp.waiting env henv c hc id hmem hpreds
  have hfrontier := hp.frontier env henv c hc site
  unfold Problem.choice
  rw [hrelease, htail]
  refine hp.mono _ _ _ _ _ ?_
  rcases (max_le_max_left (p.release env id) hfrontier).lt_or_eq with h | h
  · exact .inl h
  · exact .inr ⟨h, le_rfl⟩

/-- A group stays sound. -/
theorem sound_placed (hp : Lawful p I) (henv : I env) (hc : c ∈ p.choices env) {g : Group σ τ T}
    (hg : g.Sound p env) : g.Sound p (p.placed env c) where
  sorted := hg.sorted
  ordered := hg.ordered
  released e he htaken := by
    obtain ⟨⟨hready, hsite⟩, hentry⟩ := hg.released e he (untaken_of_placed hp hc htaken)
    exact ⟨⟨ready_placed hp hc hready htaken, hsite⟩,
      hentry.trans (entry_placed hp henv hc hready).1.symm⟩
  passed t ht htaken := by
    obtain ⟨⟨hready, hsite⟩, htail, hle⟩ := hg.passed t ht (untaken_of_placed hp hc htaken)
    obtain ⟨hmem, -, hpreds⟩ := mem_ready.mp hready
    obtain ⟨hrelease, -⟩ := hp.waiting env henv c hc _ hmem hpreds
    refine ⟨⟨ready_placed hp hc hready htaken, hsite⟩,
      htail.trans (entry_placed hp henv hc hready).2.symm, ?_⟩
    rw [hrelease]
    exact hle.trans (hp.frontier env henv c hc _)

/-- What the successors of a placed item still wait for. -/
theorem waiting_placed (hp : Lawful p I) (hc : c ∈ p.choices env) (id : ι) :
    ((p.preds id).filter fun q => p.taken (p.placed env c) q = false) =
      ((p.preds id).filter fun q => p.taken env q = false).erase (p.ident c.tail) := by
  ext q
  rw [Finset.mem_erase, Finset.mem_filter, Finset.mem_filter, Bool.eq_false_iff, Bool.eq_false_iff,
    Ne, hp.taken env c hc q]
  tauto

/-- **A placement**: the items that it was the last predecessor of are ready, and still have
to be added. -/
theorem place (hp : Lawful p I) (h : Good p I [] D s) (hc : c ∈ p.choices s.env)
    {released : Kahn.State ι}
    (hreleased : released = (Kahn.successors p.items p.preds (p.ident c.tail)).foldl
      (Kahn.release Kahn.fifo) { remaining := s.degrees, ready := [], order := [] }) :
    Good p I released.ready D
      { s with env := p.placed s.env c, degrees := released.remaining } ∧
    ∀ id ∈ released.ready, id ∈ p.ready (p.placed s.env c) := by
  obtain ⟨hready, -, -⟩ := ready_choice hp hc
  obtain ⟨hitem, huntaken, hpreds⟩ := mem_ready.mp hready
  have hsuccessor : ∀ f ∈ p.items, p.ident c.tail ∈ p.preds f →
      p.ident c.tail ∈ (p.preds f).filter fun q => p.taken s.env q = false :=
    fun f _ hq => Finset.mem_filter.mpr ⟨hq, huntaken⟩
  obtain ⟨-, hremaining, hperm⟩ := Kahn.foldl_release Kahn.fifo_perm
    (Kahn.successors_nodup hp.nodup (p.ident c.tail) : (Kahn.successors p.items p.preds _).Nodup)
    (s := { remaining := s.degrees, ready := [], order := [] }) (fun f hf => by
      obtain ⟨hf, hq⟩ := Kahn.mem_successors.mp hf
      show 0 < s.degrees f
      rw [h.degrees f hf]
      exact Finset.card_pos.mpr ⟨_, hsuccessor f hf hq⟩)
  rw [← hreleased] at hremaining hperm
  have hnew : ∀ f, f ∈ released.ready ↔
      f ∈ p.items ∧ p.ident c.tail ∈ p.preds f ∧ s.degrees f = 1 := by
    intro f
    rw [hperm.mem_iff]
    simp [Kahn.mem_successors, and_assoc]
  -- an item with one predecessor left waits for the one that is placed
  have hlast : ∀ f ∈ p.items, p.ident c.tail ∈ p.preds f → s.degrees f = 1 →
      ∀ q ∈ p.preds f, p.taken (p.placed s.env c) q = true := by
    intro f hf hq hone q hmem
    by_contra hnot
    rw [Bool.not_eq_true] at hnot
    have hwaits : q ∈ (p.preds f).filter fun q => p.taken (p.placed s.env c) q = false :=
      Finset.mem_filter.mpr ⟨hmem, hnot⟩
    have hcard := h.degrees f hf
    rw [waiting_placed hp hc] at hwaits
    have := Finset.card_erase_lt_of_mem (hsuccessor f hf hq)
    have := Finset.card_pos.mpr ⟨q, hwaits⟩
    omega
  refine ⟨?_, fun f hf => ?_⟩
  · refine
      { kept := hp.kept s.env h.kept c hc
        closed := fun id hid htaken q hq => ?_
        degrees := fun f hf => ?_
        sound := fun g hg => sound_placed hp h.kept hc (h.sound g hg)
        cover := fun id hid hN site hsite => ?_
        lower := fun i g hg hi id hid hhas => ?_
        known := h.known
        sorted := h.sorted }
    · rcases (hp.taken s.env c hc id).mp htaken with htaken | rfl
      · exact taken_placed hp hc (h.closed id hid htaken q hq)
      · exact taken_placed hp hc (hpreds q hq)
    · show released.remaining f = _
      rw [hremaining f, waiting_placed hp hc]
      show s.degrees f - _ = _
      rw [h.degrees f hf]
      by_cases hq : p.ident c.tail ∈ p.preds f
      · rw [if_pos (Kahn.mem_successors.mpr ⟨hf, hq⟩),
          Finset.card_erase_of_mem (hsuccessor f hf hq)]
      · rw [if_neg fun hmem => hq (Kahn.mem_successors.mp hmem).2,
          Finset.erase_eq_of_notMem fun hmem => hq (Finset.mem_filter.mp hmem).1]
        rfl
    · obtain ⟨hmem, htaken, hall⟩ := mem_ready.mp hid
      have hold : id ∈ p.ready s.env := by
        refine mem_ready.mpr ⟨hmem, untaken_of_placed hp hc htaken, fun q hq => ?_⟩
        rcases (hp.taken s.env c hc q).mp (hall q hq) with h' | rfl
        · exact h'
        · exfalso
          refine hN ((hnew id).mpr ⟨hmem, hq, ?_⟩)
          have hcard := h.degrees id hmem
          have hzero : ((p.preds id).filter fun q => p.taken (p.placed s.env c) q = false) = ∅ :=
            Finset.filter_eq_empty_iff.mpr fun q hq hnot => by
              rw [hall q hq] at hnot
              cases hnot
          rw [waiting_placed hp hc] at hzero
          have := Finset.card_erase_add_one (hsuccessor id hmem hq)
          rw [hzero, Finset.card_empty] at this
          omega
      obtain ⟨g, hg, hs, hhas⟩ := h.cover id hold (by simp) site hsite
      exact ⟨g, hg, hs, (has_placed hp h.kept hc hold g).mpr hhas⟩
    · -- what a group holds was ready before
      obtain ⟨hmem, htaken, -⟩ := mem_ready.mp hid
      have huntaken' := untaken_of_placed hp hc htaken
      have hg' := h.sound g (List.mem_of_getElem? hg)
      have hold : id ∈ p.ready s.env := by
        rcases hhas with hr | he
        · have hident : p.ident (ofLex (p.entry (p.placed s.env c) id)).2 = id := hp.ident _ id
          have := (hg'.released _ hr (by rw [hident]; exact huntaken')).1.1
          rwa [hident] at this
        · have := (hg'.passed _ he (by rw [hp.ident]; exact huntaken')).1.1
          rwa [hp.ident] at this
      obtain ⟨e, he, hindex, hversion, hkey⟩ :=
        h.lower i g hg hi id hold ((has_placed hp h.kept hc hold g).mp hhas)
      exact ⟨e, he, hindex, hversion, hkey.trans (key_placed hp h.kept hc hold g.site)⟩
  · obtain ⟨hmem, hq, hone⟩ := (hnew f).mp hf
    refine mem_ready.mpr ⟨hmem, ?_, hlast f hmem hq hone⟩
    rw [Bool.eq_false_iff]
    intro htaken
    rcases (hp.taken s.env c hc f).mp htaken with htaken | rfl
    · rw [h.closed f hmem htaken _ hq] at huntaken
      cases huntaken
    · rw [hpreds _ hq] at huntaken
      cases huntaken

end Placement

end Good

/-! ## The loop -/

section Loop
variable {s : State ε σ τ ι T K}

/-- The items that are left. -/
def left (p : Problem ε σ τ ι T K) (env : ε) : Finset ι :=
  p.items.toFinset.filter fun id => p.taken env id = false

end Loop

end VeriCCL.LazyQueue
